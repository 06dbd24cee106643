import Bakemono.Range.Manifest
import Bakemono.HttpInfo.RoundTrip
import Bakemono.Proxy.Public
import Bakemono.Server.Freshness

namespace Bakemono

open Bytes (trimSpace equalFold lower)

namespace Header

def get (h : Header) (name : Bytes) : Bytes := (h.values name).headD []

def del (h : Header) (name : Bytes) : Header := h.filter (·.1 ≠ canonicalMIMEHeaderKey name)

-- Assigns the values of a name.
def put : Header → Bytes → List Bytes → Header
  | [],           name, values => [(name, values)]
  | (k, vs) :: h, name, values => if k = name then (k, values) :: h else (k, vs) :: put h name values

-- The names in the values of "Connection".
def nominated (h : Header) : List Bytes :=
  ((h.values (.text "Connection")).flatMap (List.splitOn 44)).map trimSpace

def stripHopHeaders (h : Header) : Header := hopHeaders.foldl del (h.nominated.foldl del h)

end Header

-- The fields that a validation does not change.
def keptFields : List Bytes :=
  ["Content-Length", "Content-Range", "Transfer-Encoding", "Trailer"].map .text

def mergeResponseHeaders (old updated : Header) : Header :=
  let merged := updated.foldl (fun merged (name, values) =>
    if Header.canonicalMIMEHeaderKey name ∈ keptFields then merged else merged.put name values) old
  if updated.hasHeader (.text "Age") then merged else merged.del (.text "Age")

section Source

variable (parseTime : Bytes → Option Int)

-- The entity tag in a response, if there is one, is that of the stored object.
def sameETag (stored received : Header) : Bool :=
  let storedTag := stored.get (.text "ETag")
  let tag := received.get (.text "ETag")
  tag = [] ∨ ((received.values (.text "ETag")).length = 1 ∧ validETag tag ∧ validETag storedTag ∧
    if (Bytes.text "W/").isPrefixOf tag then
      Bytes.trimPrefix (.text "W/") tag = Bytes.trimPrefix (.text "W/") storedTag
    else tag = storedTag)

-- The condition that was sent is about the stored object.
def sameCondition (stored received request : Header) : Bool :=
  let tag := request.get (.text "If-None-Match")
  if tag ≠ [] then validETag tag ∧ tag = stored.get (.text "ETag")
  else
    let modified := received.get (.text "Last-Modified")
    match parseTime (request.get (.text "If-Modified-Since")),
      parseTime (stored.get (.text "Last-Modified")) with
    | some sent, some last => sent = last ∧ (modified = [] ∨ parseTime modified = some last)
    | _, _                 => false

def mergeValidation (previous validation : CacheHTTPInfo) (request : Header) : Option CacheHTTPInfo := do
  let stored := previous.responseHeaders
  let received := validation.responseHeaders
  guard (∀ name ∈ ["Content-Range", "Trailer"].map Bytes.text, received.hasHeader name = false)
  guard (received.hasHeader (.text "Content-Encoding") = false ∨
    [44].intercalate (received.values (.text "Content-Encoding")) =
      [44].intercalate (stored.values (.text "Content-Encoding")))
  guard (sameETag stored received)
  guard (sameCondition parseTime stored received request)
  let merged :=
    { previous with
      requestTime     := validation.requestTime
      responseTime    := validation.responseTime
      responseHeaders := mergeResponseHeaders stored received }
  let _ ← responsePolicy parseTime merged merged.responseTime
  return merged

-- The encodings of `json.Marshal` for the names and the values of the fields of `Vary`.
variable (H : Hash) (schema : List Bytes → Bytes) (variant : List (List Bytes) → Bytes)

def representationKey (selector : Bytes) (r : Header) (fields : List Bytes) : Bytes :=
  if fields = [] then selector
  else
    selector ++ .text "\nvariant:" ++ H.sha256Hex (schema fields) ++ .text ":" ++
      H.sha256Hex (variant (fields.map r.values))

-- Whether `lookupCached` takes a candidate with the given metadata.
def lookupAccepts (key : Bytes) (r : Header) (info : CacheHTTPInfo) (now : Int) (candidate : Bytes) : Bool :=
  match info.responseHeaders.varyFields, responsePolicy parseTime info now with
  | some fields, some _ => representationKey H schema variant key r fields = candidate
  | _, _                => false

-- What `fetchFill` stores of a response that it has found cacheable, and under which key.
def fillStored (key : Bytes) (r : Header) (info : CacheHTTPInfo) : Bytes × CacheHTTPInfo :=
  (representationKey H schema variant key r (info.responseHeaders.varyFields.getD []),
    { info with responseHeaders := info.responseHeaders.stripHopHeaders })

-- What it stores after a validation.
def validationStored (previous validation merged : CacheHTTPInfo) : CacheHTTPInfo :=
  { merged with
    responseHeaders := mergeResponseHeaders previous.responseHeaders
      validation.responseHeaders.stripHopHeaders }

end Source

namespace Header

variable {h h' : Header} {name n x : Bytes} {e : Bytes × List Bytes} {names : List Bytes}

-- The case of the letters of a name is not looked at.
theorem map_lower_canonicalMIMEHeaderKey : (canonicalMIMEHeaderKey x).map lower = x.map lower := by
  have hc : ∀ (upper : Bool) (n : Fin 256), let c := UInt8.ofFin n
      lower (if upper && 97 ≤ c && c ≤ 122 then c - 32
        else if !upper && 65 ≤ c && c ≤ 90 then c + 32 else c) = lower c := by
    decide +kernel
  have go (upper : Bool) (l : Bytes) : (capitalize upper l).map lower = l.map lower := by
    induction l generalizing upper
    case nil => rfl
    case cons c l hi =>
      rw [capitalize, List.map_cons, hi, List.map_cons]
      exact congrArg (· :: _) (hc upper c.toFin)
  rw [canonicalMIMEHeaderKey]
  split
  case isTrue => exact go true x
  case isFalse => rfl

theorem equalFold_canonicalMIMEHeaderKey : equalFold (canonicalMIMEHeaderKey x) n = equalFold x n := by
  rw [equalFold, equalFold, length_canonicalMIMEHeaderKey, map_lower_canonicalMIMEHeaderKey]

-- A map as the function it represents.
def lookup (h : Header) (name : Bytes) : Option (List Bytes) :=
  (h.find? (·.1 == name)).map Prod.snd

theorem lookup_cons : lookup (e :: h) n = if e.1 = n then some e.2 else lookup h n := by
  by_cases hn : e.1 = n <;> simp [lookup, hn]

theorem values_eq : h.values name = (h.lookup (canonicalMIMEHeaderKey name)).getD [] := rfl

theorem foldl_del : names.foldl del h =
    h.filter fun e => decide (e.1 ∉ names.map canonicalMIMEHeaderKey) := by
  induction names generalizing h
  case nil => simp
  case cons name names hi =>
    rw [List.foldl_cons, hi, del, List.filter_filter]
    congr 1
    funext e
    rw [Bool.eq_iff_iff]
    simp only [Bool.and_eq_true, decide_eq_true_eq, List.map_cons, List.mem_cons, not_or]
    exact and_comm

-- The names that are removed.
def hops (h : Header) : List Bytes := (h.nominated ++ hopHeaders).map canonicalMIMEHeaderKey

theorem stripHopHeaders_eq : h.stripHopHeaders = h.filter fun e => decide (e.1 ∉ h.hops) := by
  rw [stripHopHeaders, ← List.foldl_append, foldl_del, hops]

theorem lookup_filter {p : Bytes × List Bytes → Bool} (hp : ∀ e ∈ h, e.1 = name → p e = true) :
    lookup (h.filter p) name = h.lookup name := by
  rw [lookup, lookup, List.find?_filter]
  congr 1
  apply List.find?_congr
  intro e he
  by_cases hn : e.1 = name
  case pos => simp [hn, hp e he hn]
  case neg => simp [hn]

theorem lookup_eq_none_iff : h.lookup name = none ↔ name ∉ h.map Prod.fst := by
  rw [lookup, Option.map_eq_none_iff, List.find?_eq_none]
  constructor
  case mp =>
    intro hn hm
    have ⟨e, he, hk⟩ := List.mem_map.mp hm
    exact absurd (hn e he) (by simp [hk])
  case mpr => exact fun hn e he => by simpa using fun hk : e.1 = name => hn (hk ▸ List.mem_map_of_mem he)

theorem lookup_del : (h.del name).lookup = RequestHeader.del h.lookup name := by
  funext n
  by_cases hn : n = canonicalMIMEHeaderKey name
  case pos =>
    rw [hn, RequestHeader.del, Function.update_self, lookup_eq_none_iff, del]
    simp
  case neg =>
    rw [RequestHeader.del, Function.update_of_ne hn]
    exact lookup_filter fun e _ he => by simpa [he] using hn

-- A field that the policy reads is not removed if it is not nominated.
theorem notMem_nominated (hc : h.connectionNominates policyFields = false) (hn : n ∈ policyFields)
    (hx : x ∈ h.nominated) : equalFold (canonicalMIMEHeaderKey x) n = false := by
  rw [equalFold_canonicalMIMEHeaderKey]
  have ⟨t, ht, hx⟩ := List.mem_map.mp hx
  have ⟨line, hl, ht⟩ := List.mem_flatMap.mp ht
  subst hx
  by_contra he
  simp only [connectionNominates, List.any_eq_false, Bool.not_eq_true] at hc
  exact absurd (hc line hl t ht n hn) (by simpa using he)

-- Headers in which the policy reads the same.
structure Alike (h h' : Header) : Prop where
  values     : ∀ name ∈ ["Vary", "Cache-Control", "Age", "Date"].map Bytes.text,
    h.values name = h'.values name
  refused    : ∀ name ∈ refusedFields, h.hasHeader name = h'.hasHeader name
  connection : h.connectionNominates policyFields = h'.connectionNominates policyFields

theorem Alike.varyFields_eq (ha : h.Alike h') : h.varyFields = h'.varyFields := by
  rw [varyFields, ha.values _ (by decide), varyFields]

theorem responsePolicy_congr {parseTime : Bytes → Option Int} (info : CacheHTTPInfo)
    (ha : info.responseHeaders.Alike h) (now : Int) :
    responsePolicy parseTime { info with responseHeaders := h } now = responsePolicy parseTime info now := by
  have hr : (∀ name ∈ refusedFields, h.hasHeader name = false) ↔
      ∀ name ∈ refusedFields, info.responseHeaders.hasHeader name = false :=
    forall₂_congr fun name hn => by rw [ha.refused name hn]
  simp only [responsePolicy, ha.varyFields_eq, ha.connection, hr, cacheDirectives, headerAge, dateAge,
    ha.values (.text "Cache-Control") (by decide), ha.values (.text "Age") (by decide),
    ha.values (.text "Date") (by decide)]

-- A field that the policy reads is kept.
theorem notMem_hops (hc : h.connectionNominates policyFields = false) (hn : n ∈ policyFields)
    (hf : equalFold x n = true) (hx : x ∉ hopHeaders.map canonicalMIMEHeaderKey) : x ∉ h.hops := by
  intro hm
  rw [hops, List.map_append, List.mem_append] at hm
  have ⟨y, hy, he⟩ := List.mem_map.mp (hm.resolve_right hx)
  have := notMem_nominated hc hn hy
  rw [he, hf] at this
  cases this

theorem lookup_strip (hc : h.connectionNominates policyFields = false)
    (hn : n ∈ ["Vary", "Cache-Control", "Age", "Date"].map Bytes.text) :
    h.stripHopHeaders.lookup (canonicalMIMEHeaderKey n) = h.lookup (canonicalMIMEHeaderKey n) := by
  have hs : ∀ n ∈ ["Vary", "Cache-Control", "Age", "Date"].map Bytes.text, n ∈ policyFields ∧
      equalFold (canonicalMIMEHeaderKey n) n = true ∧
      canonicalMIMEHeaderKey n ∉ hopHeaders.map canonicalMIMEHeaderKey := by decide
  have ⟨hp, hf, hx⟩ := hs n hn
  rw [stripHopHeaders_eq]
  exact lookup_filter fun e _ he => by simpa [he] using notMem_hops hc hp hf hx

-- No field of a connection is left.
def HopFree (h : Header) : Prop := ∀ n ∈ hopHeaders, h.lookup n = none

theorem hopFree_stripHopHeaders : h.stripHopHeaders.HopFree := by
  intro n hn
  have hc : ∀ n ∈ hopHeaders, canonicalMIMEHeaderKey n = n := by decide
  have hm : n ∈ h.hops := by
    rw [hops, List.map_append]
    exact List.mem_append_right _ (List.mem_map.mpr ⟨n, hn, hc n hn⟩)
  rw [stripHopHeaders_eq, lookup_eq_none_iff]
  intro hc
  have ⟨e, he, hk⟩ := List.mem_map.mp hc
  exact absurd (hk ▸ hm) (by simpa using (List.mem_filter.mp he).2)

theorem values_connection : h.values (.text "Connection") = (h.lookup (.text "Connection")).getD [] := rfl

theorem HopFree.connectionNominates (hf : h.HopFree) : h.connectionNominates names = false := by
  rw [Header.connectionNominates, values_connection, hf _ (by decide)]
  rfl

-- What is stored of an accepted response.
theorem alike_stripHopHeaders (hc : h.connectionNominates policyFields = false)
    (hr : ∀ name ∈ refusedFields, h.hasHeader name = false) : h.Alike h.stripHopHeaders where
  values     := fun n hn => by rw [values_eq, values_eq, lookup_strip hc hn]
  refused    := fun n hn => by
    have h₁ := hr n hn
    rw [hasHeader, List.any_eq_false] at h₁
    rw [hr n hn, eq_comm, hasHeader, List.any_eq_false, stripHopHeaders_eq]
    exact fun e he => h₁ e (List.mem_filter.mp he).1
  connection := by rw [hc, hopFree_stripHopHeaders.connectionNominates]

theorem lookup_put {values : List Bytes} :
    (h.put name values).lookup n = if name = n then some values else h.lookup n := by
  induction h
  case nil => exact lookup_cons
  case cons e h hi =>
    rw [put]
    by_cases hk : e.1 = name
    case pos => by_cases hn : name = n <;> simp [lookup_cons, hk, hn]
    case neg =>
      rw [if_neg hk, lookup_cons, lookup_cons, hi]
      by_cases hn : e.1 = n
      case pos => simp [hn, Ne.symm (hn ▸ hk)]
      case neg => simp [hn]

theorem mem_names_put {values : List Bytes} :
    n ∈ (h.put name values).map Prod.fst ↔ n = name ∨ n ∈ h.map Prod.fst := by
  rw [← not_iff_not, ← lookup_eq_none_iff, lookup_put, not_or, ← lookup_eq_none_iff]
  by_cases hn : name = n
  case pos => simp [hn]
  case neg => simp [hn, Ne.symm hn]

-- The loop of `mergeResponseHeaders`.
def assign (old updated : Header) : Header :=
  updated.foldl (fun merged (name, values) =>
    if canonicalMIMEHeaderKey name ∈ keptFields then merged else merged.put name values) old

theorem lookup_assign (hn : (h'.map Prod.fst).Nodup) : (h.assign h').lookup n =
    if canonicalMIMEHeaderKey n ∈ keptFields then h.lookup n else (h'.lookup n <|> h.lookup n) := by
  induction h' generalizing h
  case nil => simp [assign, lookup]
  case cons e h' hi =>
    rw [List.map_cons, List.nodup_cons] at hn
    have hs := hi (h := if canonicalMIMEHeaderKey e.1 ∈ keptFields then h else h.put e.1 e.2) hn.2
    refine Eq.trans hs ?_
    rw [lookup_cons]
    by_cases he : e.1 = n
    case pos =>
      have hl : lookup h' n = none := lookup_eq_none_iff.mpr (he ▸ hn.1)
      by_cases hk : canonicalMIMEHeaderKey n ∈ keptFields <;> simp [he, hk, hl, lookup_put]
    case neg => by_cases hk : canonicalMIMEHeaderKey e.1 ∈ keptFields <;> simp [hk, lookup_put, he]

theorem mem_names_assign : n ∈ (h.assign h').map Prod.fst ↔
    n ∈ h.map Prod.fst ∨ n ∈ h'.map Prod.fst ∧ canonicalMIMEHeaderKey n ∉ keptFields := by
  induction h' generalizing h
  case nil => simp [assign]
  case cons e h' hi =>
    refine Iff.trans (hi (h := if canonicalMIMEHeaderKey e.1 ∈ keptFields then h else h.put e.1 e.2)) ?_
    rw [List.map_cons, List.mem_cons]
    by_cases hk : canonicalMIMEHeaderKey e.1 ∈ keptFields
    case pos =>
      rw [if_pos hk]
      constructor
      case mp => exact fun h => h.imp_right fun h => ⟨.inr h.1, h.2⟩
      case mpr => exact fun h => h.imp_right fun ⟨h₁, h₂⟩ => ⟨h₁.resolve_left fun he => h₂ (he ▸ hk), h₂⟩
    case neg =>
      rw [if_neg hk, mem_names_put]
      constructor
      case mp =>
        rintro ((he | h) | ⟨h₁, h₂⟩)
        case inl.inl => exact .inr ⟨.inl he, he ▸ hk⟩
        case inl.inr => exact .inl h
        case inr => exact .inr ⟨.inr h₁, h₂⟩
      case mpr =>
        rintro (h | ⟨he | h₁, h₂⟩)
        case inl => exact .inl (.inr h)
        case inr.inl => exact .inl (.inl he)
        case inr.inr => exact .inr ⟨h₁, h₂⟩

theorem mergeResponseHeaders_eq : mergeResponseHeaders h h' =
    if h'.hasHeader (.text "Age") then h.assign h' else (h.assign h').del (.text "Age") := rfl

theorem lookup_merge (hn : n ≠ .text "Age") :
    (mergeResponseHeaders h h').lookup n = (h.assign h').lookup n := by
  have hc : canonicalMIMEHeaderKey (.text "Age") = .text "Age" := by decide
  rw [mergeResponseHeaders_eq]
  split
  case isTrue => rfl
  case isFalse => rw [lookup_del, RequestHeader.del, hc, Function.update_of_ne hn]

theorem HopFree.merge (hf : h.HopFree) (hn : (h'.map Prod.fst).Nodup) (hf' : h'.HopFree) :
    (mergeResponseHeaders h h').HopFree := by
  intro n hm
  have ha : ∀ n ∈ hopHeaders, n ≠ .text "Age" := by decide
  rw [lookup_merge (ha n hm), lookup_assign hn, hf n hm, hf' n hm]
  exact ite_self _

-- Stripping does not change whether there is an age.
theorem hasHeader_age_stripHopHeaders (hc : h.connectionNominates policyFields = false) :
    h.stripHopHeaders.hasHeader (.text "Age") = h.hasHeader (.text "Age") := by
  have hx : ∀ x ∈ hopHeaders.map canonicalMIMEHeaderKey, equalFold x (.text "Age") = false := by decide
  rw [stripHopHeaders_eq, hasHeader, hasHeader, List.any_filter]
  apply List.any_congr rfl
  intro e
  cases he : equalFold e.1 (.text "Age")
  case false => rw [Bool.and_false]
  case true =>
    have := notMem_hops hc (by decide) he fun hm => by rw [hx _ hm] at he; cases he
    simpa using this

theorem hasHeader_eq_false (hr : h.hasHeader name = false) (hs : h'.map Prod.fst ⊆ h.map Prod.fst) :
    h'.hasHeader name = false := by
  rw [hasHeader, List.any_eq_false] at hr ⊢
  intro e he
  have ⟨e', he', hk⟩ := List.mem_map.mp (hs (List.mem_map_of_mem he))
  exact hk ▸ hr e' he'

-- What is stored after an accepted validation.
theorem alike_merge (hn : (h'.map Prod.fst).Nodup) (hf : h.HopFree)
    (hc : (mergeResponseHeaders h h').connectionNominates policyFields = false)
    (hr : ∀ name ∈ refusedFields, (mergeResponseHeaders h h').hasHeader name = false) :
    (mergeResponseHeaders h h').Alike (mergeResponseHeaders h h'.stripHopHeaders) := by
  have hsub : h'.stripHopHeaders.Sublist h' := by
    rw [stripHopHeaders_eq]
    exact List.filter_sublist
  have hn' := hn.sublist (hsub.map Prod.fst)
  -- The nominated fields are those of the validation.
  have hc' : h'.connectionNominates policyFields = false := by
    have hk : canonicalMIMEHeaderKey (.text "Connection") ∉ keptFields := by decide
    have hl : (mergeResponseHeaders h h').lookup (.text "Connection") = h'.lookup (.text "Connection") := by
      rw [lookup_merge (by decide), lookup_assign hn, if_neg hk, hf _ (by decide)]
      cases h'.lookup (.text "Connection") <;> rfl
    rwa [connectionNominates, values_connection, hl] at hc
  have hage := hasHeader_age_stripHopHeaders hc'
  have hassign {n} (hm : n ∈ ["Vary", "Cache-Control", "Age", "Date"].map Bytes.text) :
      (h.assign h').lookup (canonicalMIMEHeaderKey n) =
        (h.assign h'.stripHopHeaders).lookup (canonicalMIMEHeaderKey n) := by
    rw [lookup_assign hn, lookup_assign hn', lookup_strip hc' hm]
  constructor
  case values =>
    intro n hm
    rw [values_eq, values_eq, mergeResponseHeaders_eq, mergeResponseHeaders_eq, hage]
    split
    case isTrue => rw [hassign hm]
    case isFalse =>
      rw [lookup_del, lookup_del, RequestHeader.del, RequestHeader.del]
      simp only [Function.update_apply, hassign hm]
  case refused =>
    intro n hm
    rw [hr n hm, eq_comm]
    refine hasHeader_eq_false (hr n hm) fun x hx => ?_
    have hassign {x} (hx : x ∈ (h.assign h'.stripHopHeaders).map Prod.fst) :
        x ∈ (h.assign h').map Prod.fst := by
      rw [mem_names_assign] at hx ⊢
      exact hx.imp_right fun ⟨hx, hk⟩ => ⟨(hsub.map Prod.fst).subset hx, hk⟩
    rw [mergeResponseHeaders_eq, hage] at hx
    rw [mergeResponseHeaders_eq]
    split at hx
    case isTrue h => exact if_pos h ▸ hassign hx
    case isFalse h =>
      rw [if_neg h]
      simp only [del, List.mem_map, List.mem_filter] at hx ⊢
      have ⟨e, ⟨he, hk⟩, hx⟩ := hx
      have ⟨e', he', hk'⟩ := List.mem_map.mp (hassign (List.mem_map_of_mem he))
      exact ⟨e', ⟨he', hk'.symm ▸ hk⟩, hk'.trans hx⟩
  case connection => rw [hc, (hf.merge hn' hopFree_stripHopHeaders).connectionNominates]

end Header

section Agreement

variable {parseTime : Bytes → Option Int} {H : Hash} {schema : List Bytes → Bytes}
  {variant : List (List Bytes) → Bytes} {info previous validation merged : CacheHTTPInfo} {r r' : Header}
  {now : Int} {p : Freshness} {key : Bytes}

-- What is stored of an accepted response is judged like the response itself.
theorem alike_of_responsePolicy (hp : responsePolicy parseTime info now = some p) :
    info.responseHeaders.Alike info.responseHeaders.stripHopHeaders := by
  have ⟨_, _, _, ha, _⟩ := responsePolicy_eq_some.mp hp
  exact Header.alike_stripHopHeaders ha.connection ha.refused

theorem responseHeaders_fillStored : (fillStored H schema variant key r info).2.responseHeaders =
    info.responseHeaders.stripHopHeaders := by
  simp only [fillStored]

theorem responseHeaders_validationStored : (validationStored previous validation merged).responseHeaders =
    mergeResponseHeaders previous.responseHeaders validation.responseHeaders.stripHopHeaders := by
  simp only [validationStored]

theorem mergeValidation_eq_some (hm : mergeValidation parseTime previous validation r = some merged) :
    (∃ p, responsePolicy parseTime merged merged.responseTime = some p) ∧
    merged.responseHeaders =
      mergeResponseHeaders previous.responseHeaders validation.responseHeaders := by
  simp only [mergeValidation, Option.bind_eq_bind, Option.bind_eq_some_iff, exists_guard, Option.pure_def,
    Option.some.injEq] at hm
  obtain ⟨_, _, _, _, p, hp, he⟩ := hm
  subst he
  exact ⟨⟨p, hp⟩, rfl⟩

theorem representationKey_congr {fields : List Bytes} (hv : ∀ f ∈ fields, r.values f = r'.values f) :
    representationKey H schema variant key r fields = representationKey H schema variant key r' fields := by
  rw [representationKey, representationKey, List.map_congr_left hv]

-- Admission and lookup come to the same judgement, of new and of validated responses.
theorem stored_policy (parseTime : Bytes → Option Int) (H : Hash) (schema : List Bytes → Bytes)
    (variant : List (List Bytes) → Bytes) :
    (∀ info now p key r, responsePolicy parseTime info now = some p →
      let out := fillStored H schema variant key r info
      (∀ t, responsePolicy parseTime out.2 t = responsePolicy parseTime info t) ∧
      out.2.responseHeaders.varyFields = info.responseHeaders.varyFields ∧
      out.2.responseHeaders.HopFree ∧
      ∀ r' t, info.responseTime ≤ t →
        (∀ fields ∈ info.responseHeaders.varyFields, ∀ f ∈ fields, r.values f = Header.values r' f) →
        lookupAccepts parseTime H schema variant key r' out.2 t out.1 = true) ∧
    ∀ previous validation request merged, previous.responseHeaders.HopFree →
      (validation.responseHeaders.map Prod.fst).Nodup →
      mergeValidation parseTime previous validation request = some merged →
      (∀ t, responsePolicy parseTime (validationStored previous validation merged) t =
        responsePolicy parseTime merged t) ∧
      (validationStored previous validation merged).responseHeaders.HopFree := by
  constructor
  case left =>
    intro info now p key r hp out
    have halike := alike_of_responsePolicy hp
    have hs (t : Int) : responsePolicy parseTime out.2 t = responsePolicy parseTime info t :=
      Header.responsePolicy_congr info halike t
    have hv : out.2.responseHeaders.varyFields = info.responseHeaders.varyFields := by
      rw [responseHeaders_fillStored, halike.varyFields_eq]
    have hf : out.2.responseHeaders.HopFree := by
      rw [responseHeaders_fillStored]
      exact Header.hopFree_stripHopHeaders
    refine ⟨hs, hv, hf, fun r' t ht hr => ?_⟩
    have ⟨age, lifetime, validate, ha, _⟩ := responsePolicy_eq_some.mp hp
    have ⟨fields, hfields⟩ := ha.vary
    have hp' := responsePolicy_eq_some.mpr ⟨age, lifetime, validate, ha, ht, rfl⟩
    have hkey : out.1 = representationKey H schema variant key r fields := by
      show representationKey H schema variant key r (info.responseHeaders.varyFields.getD []) = _
      rw [hfields, Option.getD_some]
    rw [lookupAccepts, hv, hfields, hs t, hp', hkey]
    simpa using (representationKey_congr (hr fields hfields)).symm
  case right =>
    intro previous validation request merged hf hn hm
    have ⟨⟨p, hp⟩, he⟩ := mergeValidation_eq_some hm
    have ⟨_, _, _, ha, _⟩ := responsePolicy_eq_some.mp hp
    have hc := ha.connection
    have hr := ha.refused
    rw [he] at hc hr
    have halike := Header.alike_merge hn hf hc hr
    rw [← he] at halike
    have hn' : (validation.responseHeaders.stripHopHeaders.map Prod.fst).Nodup := by
      rw [Header.stripHopHeaders_eq]
      exact hn.sublist (List.filter_sublist.map _)
    refine ⟨Header.responsePolicy_congr merged halike, ?_⟩
    rw [responseHeaders_validationStored]
    exact hf.merge hn' Header.hopFree_stripHopHeaders

-- The sample with a tag, received at the given time.
def taggedInfo (t : Int) : CacheHTTPInfo :=
  { sampleInfo with
    requestTime     := t
    responseTime    := t
    responseHeaders := sampleInfo.responseHeaders ++ [(.text "Etag", [.text "\"a\""])] }

-- It is stored, and renewed a second later.
theorem stored_policy_sample : ∃ merged,
    (fillStored sampleHash List.flatten (fun _ => []) [97] [] (taggedInfo 1)).1 = [97] ∧
    lookupAccepts (fun _ => none) sampleHash List.flatten (fun _ => []) [97] []
      (fillStored sampleHash List.flatten (fun _ => []) [97] [] (taggedInfo 1)).2 1 [97] = true ∧
    mergeValidation (fun _ => none) (taggedInfo 1) (taggedInfo 1000000001)
      [(.text "If-None-Match", [.text "\"a\""])] = some merged ∧
    (validationStored (taggedInfo 1) (taggedInfo 1000000001) merged).responseHeaders.HopFree := by
  have hp : (responsePolicy (fun _ => none) (taggedInfo 1) 1).isSome := by decide +kernel
  have hm : (mergeValidation (fun _ => none) (taggedInfo 1) (taggedInfo 1000000001)
      [(.text "If-None-Match", [.text "\"a\""])]).isSome := by decide +kernel
  obtain ⟨p, hp⟩ := Option.isSome_iff_exists.mp hp
  obtain ⟨merged, hm⟩ := Option.isSome_iff_exists.mp hm
  obtain ⟨hfill, hmerge⟩ := stored_policy (fun _ => none) sampleHash List.flatten fun _ => []
  obtain ⟨_, _, _, hlookup⟩ := hfill (taggedInfo 1) 1 p [97] [] hp
  have hkey : (fillStored sampleHash List.flatten (fun _ => []) [97] [] (taggedInfo 1)).1 = [97] := by
    decide +kernel
  have haccepts := hlookup [] 1 le_rfl fun _ _ _ _ => rfl
  rw [hkey] at haccepts
  have hfree : (taggedInfo 1).responseHeaders.HopFree := by
    unfold Header.HopFree
    decide +kernel
  exact ⟨merged, hkey, haccepts, hm, (hmerge _ _ _ merged hfree (by decide +kernel) hm).2⟩

end Agreement

end Bakemono
