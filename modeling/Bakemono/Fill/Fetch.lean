import Bakemono.Fill.Share
import Bakemono.Server.Validation
import Bakemono.Stripe.DirTrie

-- The producer of a fill: which calls it makes, whatever its callees answer.

namespace Bakemono

def maxHTTPVariants : Nat := 16

def sameVary (a b : Header) : Bool :=
  match a.varyFields, b.varyFields with
  | some first, some second => [44].intercalate first = [44].intercalate second
  | _, _                    => false

-- The part of a key in front of its last colon.
def schemaOf (selector key : Bytes) : Bytes :=
  if key = selector then selector
  else if (58 : UInt8) ∈ key then ((key.reverse.dropWhile (· ≠ 58)).drop 1).reverse
  else key

def sameRepresentationSchema (selector a b : Bytes) : Bool := schemaOf selector a = schemaOf selector b

def cacheSizeAllowed (maxObjectBytes : Nat) (key : Bytes) (info : CacheHTTPInfo) (length : Int) : Bool :=
  if length > maxObjectBytes ∨ key.length > MaxIndexKeyBytes then false
  else
    info.requestURL.length + (info.responseHeaders.map fun x =>
      x.1.length + (x.2.map List.length).sum).sum ≤ 64 * 1024

-- A response of the origin. The headers are those behind and in front of the removal of connection
-- headers, the trailers are looked at before and after the body, which ends with an error or without.
structure FillResponse where
  status        : Int
  header        : Header
  originHeaders : Header
  contentLength : Int
  trailer       : Bool
  lateTrailer   : Bool
  pieces        : List Bytes
  bodyErr       : Option Err
  closeErr      : Option Err

-- What `lookupCached` has found.
structure StoredObject where
  key      : Bytes
  previous : CacheHTTPInfo
  policy   : Freshness

inductive FetchCall
  | acquire
  | request (attempt : Nat) (header : Header)
  | update (info : CacheHTTPInfo)
  | invalidate
  | openWrite (key : Bytes) (remove : List Bytes) (info : CacheHTTPInfo)
  | write (p : Bytes)
  | commit
  | abort
  -- `privateFill`
  | offer (attempt : Nat)
  | closeBody (attempt : Nat)
  | release
  | closeStored

-- A request, and what the callees of `fetchFill` return for it. The times of an attempt are those of
-- the request, of the response and of the check of the response.
structure Fetching where
  parseTime : Bytes → Option Int
  hash      : Hash
  schema    : List Bytes → Bytes
  variant   : List (List Bytes) → Bytes
  limit     : Nat
  key       : Bytes
  method    : Bytes
  url       : Bytes
  header    : Header
  now       : Int
  times     : Nat → Int × Int × Int
  lookup    : Except Err (Option StoredObject)
  acquire   : Option Err
  respond   : Nat → Header → Except Err FillResponse
  update    : CacheHTTPInfo → Option Err
  keys      : Nat → Except Err (List Bytes)
  openWrite : Bytes → List Bytes → Option Err
  write     : Nat → Option Err
  ctxErr    : Option Err
  close     : Option Err

-- The writer is given up by `abort` and by `commit`.
structure CacheFill where
  vc      : Bool := true
  written : Nat := 0
  err     : Option Err := none

namespace CacheFill

def abort (f : CacheFill) (err : Err) : CacheFill × List FetchCall :=
  ({ f with err := some err, vc := false }, if f.vc then [.abort] else [])

-- The last argument is the result of `vc.Write`.
def write (limit : Nat) (f : CacheFill) (p : Bytes) (res : Option Err) : CacheFill × List FetchCall :=
  if f.vc = false then (f, [])
  else
    let f := { f with written := f.written + p.length }
    if f.written > limit then f.abort (.other "cache object limit")
    else match res with
      | none   => (f, [.write p])
      | some e => ((f.abort e).1, .write p :: (f.abort e).2)

def commit (f : CacheFill) (res : Option Err) : Option Err × CacheFill × List FetchCall :=
  if f.vc then (res, { f with vc := false }, [.commit]) else (f.err, f, [])

end CacheFill

namespace Fetching

variable (w : Fetching)

def failed (e : Err) : FillResult := { err := some (.failed e) }

def unusable : FillResult := failed (.other "unusable origin validation")

-- The request without its conditions.
def plain : Header := (w.header.del (.text "If-None-Match")).del (.text "If-Modified-Since")

-- The request for a validation of the stored object.
def conditional (previous : CacheHTTPInfo) : Header :=
  let tag := previous.responseHeaders.get (.text "ETag")
  let modified := previous.responseHeaders.get (.text "Last-Modified")
  if validETag tag then w.plain.put (.text "If-None-Match") [tag]
  else if modified ≠ [] then w.plain.put (.text "If-Modified-Since") [modified]
  else w.plain

-- The loop over the body.
def copyBody : Nat → CacheFill → List Bytes → CacheFill × List FetchCall
  | _, f, []      => (f, [])
  | n, f, p :: ps =>
    if p = [] then copyBody (n + 1) f ps
    else
      let out := f.write w.limit p (w.write n)
      if out.1.err ≠ none then out
      else
        let rest := copyBody (n + 1) out.1 ps
        (rest.1, out.2 ++ rest.2)

-- Everything after the body has been copied, up to the deferred call of `abort`.
def finishFill (n : Nat) (key : Bytes) (resp : FillResponse) (f : CacheFill) :
    FillResult × CacheFill × List FetchCall :=
  match f.err.or resp.bodyErr with
  | some e => (failed e, f, [])
  | none   =>
    match resp.closeErr with
    | some e => (failed e, f, [.closeBody n])
    | none   =>
      if resp.lateTrailer then
        (failed (.other "origin trailers cannot be shared"), f, [.closeBody n, .invalidate])
      else match w.ctxErr with
        | some e => (failed e, f, [.closeBody n])
        | none   =>
          let out := f.commit w.close
          (match out.1 with
            | some e => failed e
            | none   => { key },
            out.2.1, .closeBody n :: out.2.2)

def fill (n : Nat) (key : Bytes) (resp : FillResponse) : FillResult × List FetchCall :=
  let copied := w.copyBody 0 {} resp.pieces
  let out := w.finishFill n key resp copied.1
  (out.1, copied.2 ++ out.2.2 ++ (out.2.1.abort (.other "cache fill incomplete")).2)

def infoOf (n : Nat) (resp : FillResponse) : CacheHTTPInfo where
  requestTime     := (w.times n).1
  responseTime    := (w.times n).2.1
  requestMethod   := w.method
  requestURL      := w.url
  status          := resp.status
  responseHeaders := resp.originHeaders

def cacheable (n : Nat) (resp : FillResponse) : Bool :=
  (responsePolicy w.parseTime (w.infoOf n resp) (w.times n).2.2).isSome

def representation (resp : FillResponse) : Bytes :=
  representationKey w.hash w.schema w.variant w.key w.header (resp.originHeaders.varyFields.getD [])

def removed (resp : FillResponse) (keys : List Bytes) : List Bytes :=
  keys.filter fun old => !sameRepresentationSchema w.key old (w.representation resp)

-- The response may be stored.
def admits (n : Nat) (resp : FillResponse) (keys : List Bytes) : Bool :=
  w.cacheable n resp ∧
  (keys.length < maxHTTPVariants ∨ w.representation resp ∈ keys ∨ w.removed resp keys ≠ []) ∧
  resp.trailer = false ∧
  cacheSizeAllowed w.limit (w.representation resp)
    { w.infoOf n resp with responseHeaders := resp.header } resp.contentLength

def unshareable : FillResult := { err := some .unshareable }

def store (n : Nat) (resp : FillResponse) : FillResult × List FetchCall :=
  match w.keys n with
  | .error e => (failed e, [])
  | .ok keys =>
    if w.admits n resp keys = false then
      (unshareable, (if w.cacheable n resp then [] else [.invalidate]) ++ [.offer n])
    else match w.openWrite (w.representation resp) (w.removed resp keys) with
      | some .invalidated => (unshareable, [.offer n])
      | some e            => (failed e, [])
      | none              =>
        let out := w.fill n (w.representation resp) resp
        (out.1, .openWrite (w.representation resp) (w.removed resp keys)
          { w.infoOf n resp with responseHeaders := resp.header } :: out.2)

-- The answer to a validation. Without a result the object is requested again.
def validate (n : Nat) (st : StoredObject) (sent : Header) (resp : FillResponse) :
    Option FillResult × List FetchCall :=
  match mergeValidation w.parseTime st.previous (w.infoOf n resp) sent with
  | none        => (none, [.closeBody n, .invalidate])
  | some merged =>
    if sameVary st.previous.responseHeaders merged.responseHeaders then
      let info := { merged with
        responseHeaders := mergeResponseHeaders st.previous.responseHeaders resp.header }
      (if w.update info = none then some { key := st.key, status := .text "REVALIDATE" } else none,
        [.closeBody n, .update info])
    else (none, [.closeBody n, .invalidate])

-- The rest of the attempts. The bodies are closed by deferred calls.
def attempts : Nat → Nat → Option StoredObject → Header → FillResult × List FetchCall
  | 0,        _, _,      _    => (unusable, [])
  | left + 1, n, stored, sent =>
    match w.respond n sent with
    | .error e => (failed e, [.request n sent])
    | .ok resp =>
      let out : FillResult × List FetchCall :=
        if 0 < n ∧ resp.status = 304 then (unusable, [])
        else match stored with
          | none    => w.store n resp
          | some st =>
            if resp.status = 304 then
              match w.validate n st sent resp with
              | (some r, calls) => (r, calls)
              | (none, calls)   =>
                let rest := attempts left (n + 1) none w.plain
                (rest.1, calls ++ rest.2)
            else w.store n resp
      (out.1, .request n sent :: out.2 ++ [.closeBody n])

def acquired (stored : Option StoredObject) : FillResult × List FetchCall :=
  match w.acquire with
  | some e => (failed e, [])
  | none   =>
    let out := w.attempts 2 0 stored ((stored.map (w.conditional ·.previous)).getD w.header)
    (out.1, .acquire :: out.2 ++ [.release])

def fetchFill : FillResult × List FetchCall :=
  match w.lookup with
  | .error e        => (failed e, [])
  | .ok none        => w.acquired none
  | .ok (some st)   =>
    if requestPolicyFresh w.header st.policy w.now then
      ({ key := st.key, status := .text "HIT" }, [.closeStored])
    else
      let out := w.acquired (some st)
      (out.1, out.2 ++ [.closeStored])

variable {w : Fetching} {n : Nat} {key : Bytes} {resp : FillResponse} {ps : List Bytes}

section Body

-- The bytes of the body, as they are read.
def body (ps : List Bytes) : List Bytes := ps.filter (· ≠ [])

def total (ps : List Bytes) : Nat := (ps.map List.length).sum

theorem copyBody_cases {k : Nat} (hl : k ≤ w.limit) :
    (w.copyBody n ⟨true, k, none⟩ ps = (⟨true, k + total ps, none⟩, (body ps).map .write) ∧
      k + total ps ≤ w.limit) ∨
    ∃ f' e, ∃ qs : List Bytes, w.copyBody n ⟨true, k, none⟩ ps = (f', qs.map .write ++ [.abort]) ∧
      f'.vc = false ∧ f'.err = some e := by
  induction ps generalizing n k
  case nil => exact .inl ⟨by simp [copyBody, total, body], by simpa [total] using hl⟩
  case cons p ps hi =>
    rw [copyBody]
    split
    case isTrue hp =>
      subst hp
      simpa [total, body] using hi hl
    case isFalse hp =>
      by_cases hlim : k + p.length > w.limit
      case pos =>
        refine .inr ⟨⟨false, k + p.length, some (.other "cache object limit")⟩, _, [], ?_, rfl, rfl⟩
        simp [CacheFill.write, CacheFill.abort, hlim]
      case neg =>
        cases hw : w.write n
        case some e =>
          refine .inr ⟨⟨false, k + p.length, some e⟩, e, [p], ?_, rfl, rfl⟩
          simp [CacheFill.write, CacheFill.abort, hlim]
        case none =>
          have hwrite : CacheFill.write w.limit ⟨true, k, none⟩ p none =
              (⟨true, k + p.length, none⟩, [.write p]) := by
            simp [CacheFill.write, hlim]
          simp only [hwrite, ne_eq, not_true_eq_false, if_false]
          obtain ⟨hc, hl'⟩ | ⟨f', e, qs, hc, hf⟩ := @hi (n + 1) (k + p.length) (not_lt.mp hlim)
          case inl =>
            rw [hc]
            exact .inl ⟨by simp [total, body, hp, Nat.add_assoc], by simpa [total, Nat.add_assoc] using hl'⟩
          case inr =>
            rw [hc]
            exact .inr ⟨f', e, p :: qs, rfl, hf⟩

theorem copyBody_start (w : Fetching) (ps : List Bytes) :
    (w.copyBody 0 {} ps = ({ written := total ps }, (body ps).map .write) ∧ total ps ≤ w.limit) ∨
    ∃ f' e, ∃ qs : List Bytes, w.copyBody 0 {} ps = (f', qs.map .write ++ [.abort]) ∧ f'.vc = false ∧
      f'.err = some e := by
  have h := @copyBody_cases w 0 ps 0 (Nat.zero_le _)
  rwa [Nat.zero_add] at h

end Body

-- What becomes of a writer that has been opened.
inductive Filled (w : Fetching) (n : Nat) (key : Bytes) (resp : FillResponse) :
    FillResult → List FetchCall → Prop
  | committed :
    (total resp.pieces ≤ w.limit) → (resp.bodyErr = none) → (resp.closeErr = none) →
    (resp.lateTrailer = false) → (w.ctxErr = none) → (w.close = none) →
    Filled w n key resp { key } ((body resp.pieces).map .write ++ [.closeBody n, .commit])
  -- The calls in the middle are neither writes nor the end of the writer.
  | ended (e) (qs : List Bytes) (mid : List FetchCall) (last) :
    (mid = [] ∨ mid = [.closeBody n] ∨ mid = [.closeBody n, .invalidate]) → (last = .abort ∨ last = .commit) →
    Filled w n key resp (failed e) (qs.map .write ++ mid ++ [last])

theorem filled_fill : Filled w n key resp (w.fill n key resp).1 (w.fill n key resp).2 := by
  simp only [fill]
  obtain ⟨hc, hl⟩ | ⟨f', e, qs, hc, hv, he⟩ := w.copyBody_start resp.pieces
  case inr =>
    rw [hc]
    simp only [finishFill, he, Option.some_or, CacheFill.abort, hv]
    have hended : Filled w n key resp (failed e) (qs.map .write ++ [] ++ [.abort]) :=
      .ended e qs [] .abort (.inl rfl) (.inl rfl)
    simpa using hended
  case inl =>
    rw [hc]
    simp only [finishFill, Option.none_or, CacheFill.commit]
    have hended (e mid last) (hm : mid = [] ∨ mid = [.closeBody n] ∨ mid = [.closeBody n, .invalidate])
        (hlast : last = .abort ∨ last = .commit) :
        Filled w n key resp (failed e) ((body resp.pieces).map .write ++ mid ++ [last]) :=
      .ended e _ mid last hm hlast
    cases hb : resp.bodyErr
    case some e => exact hended e [] .abort (.inl rfl) (.inl rfl)
    case none =>
      cases hcl : resp.closeErr
      case some e => exact hended e [.closeBody n] .abort (.inr (.inl rfl)) (.inl rfl)
      case none =>
        cases ht : resp.lateTrailer
        case true => exact hended _ [.closeBody n, .invalidate] .abort (.inr (.inr rfl)) (.inl rfl)
        case false =>
          cases hx : w.ctxErr
          case some e => exact hended e [.closeBody n] .abort (.inr (.inl rfl)) (.inl rfl)
          case none =>
            cases hcm : w.close
            case some e =>
              simpa [CacheFill.abort] using hended e [.closeBody n] .commit (.inr (.inl rfl)) (.inr rfl)
            case none =>
              have hcommitted : Filled w n key resp { key }
                  ((body resp.pieces).map .write ++ [.closeBody n, .commit]) :=
                .committed hl hb hcl ht hx hcm
              simpa [CacheFill.abort] using hcommitted

-- What `store` can do with a response.
inductive Answered (w : Fetching) (n : Nat) (resp : FillResponse) : FillResult → List FetchCall → Prop
  | failed (e) : Answered w n resp (failed e) []
  | offered (pre : List FetchCall) :
    (pre = if w.cacheable n resp then [] else [.invalidate]) →
    Answered w n resp unshareable (pre ++ [.offer n])
  | filled (keys r calls) :
    (w.keys n = .ok keys) → (w.admits n resp keys = true) →
    (Filled w n (w.representation resp) resp r calls) →
    Answered w n resp r (.openWrite (w.representation resp) (w.removed resp keys)
      { w.infoOf n resp with responseHeaders := resp.header } :: calls)

theorem answered_store : Answered w n resp (w.store n resp).1 (w.store n resp).2 := by
  rw [store]
  split
  case h_1 e _ => exact .failed e
  case h_2 keys hk =>
    split
    case isTrue => exact .offered _ rfl
    case isFalse ha =>
      have hc : w.cacheable n resp := (of_decide_eq_true (Bool.eq_true_of_not_eq_false ha)).1
      split
      case h_1 => exact .offered [] (if_pos hc).symm
      case h_2 e _ _ => exact .failed e
      case h_3 => exact .filled keys _ _ hk (Bool.eq_true_of_not_eq_false ha) filled_fill

end Fetching

namespace FetchCall

def requested : FetchCall → Option (Nat × Header)
  | request n h => some (n, h)
  | _           => none

-- The call has nothing to do with a writer and with the private response.
def isPlain : FetchCall → Bool
  | openWrite .. | write _ | commit | abort | offer _ => false
  | _                                                 => true

end FetchCall

namespace Fetching

open FetchCall

variable {w : Fetching} {n : Nat} {resp : FillResponse} {r : FillResult} {calls pre post : List FetchCall}

-- The stored object has been validated, and its metadata has been updated.
structure Revalidates (w : Fetching) (n : Nat) (st : StoredObject) (sent : Header) (resp : FillResponse)
    (info : CacheHTTPInfo) : Prop where
  status : resp.status = 304
  merges : ∃ merged, mergeValidation w.parseTime st.previous (w.infoOf n resp) sent = some merged ∧
    sameVary st.previous.responseHeaders merged.responseHeaders ∧ info = { merged with
      responseHeaders := mergeResponseHeaders st.previous.responseHeaders resp.header }
  update : w.update info = none

-- What is done with the last response, in this order.
inductive Concludes (w : Fetching) (n : Nat) (sent : Header) (resp : FillResponse) :
    FillResult → List FetchCall → Prop
  | answered (r : FillResult) (calls : List FetchCall) :
    (Answered w n resp r calls) → Concludes w n sent resp r calls
  | revalidated (st info) :
    (w.lookup = .ok (some st)) → (Revalidates w n st sent resp info) →
    Concludes w n sent resp { key := st.key, status := .text "REVALIDATE" } [.closeBody n, .update info]

-- A fill fails without a usable response, or it is concluded after the request for the last one.
inductive Ended (w : Fetching) (r : FillResult) (calls : List FetchCall) : Prop
  | failed (e) : (r = failed e) → (∀ c ∈ calls, c.isPlain) → Ended w r calls
  | concluded (pre post : List FetchCall) (n : Nat) (sent : Header) (resp : FillResponse)
      (core : List FetchCall) :
    (calls = pre ++ .request n sent :: core ++ post) → (∀ c ∈ pre ++ post, c.isPlain) →
    (w.respond n sent = .ok resp) → (Concludes w n sent resp r core) → Ended w r calls

theorem Ended.wrap (h : Ended w r calls) (h₁ : ∀ c ∈ pre, c.isPlain) (h₂ : ∀ c ∈ post, c.isPlain) :
    Ended w r (pre ++ calls ++ post) := by
  cases h
  case failed e hr h =>
    refine .failed e hr fun c hc => ?_
    rcases List.mem_append.mp hc with hc | hc
    case inl => exact (List.mem_append.mp hc).elim (h₁ c) (h c)
    case inr => exact h₂ c hc
  case concluded pre' post' n sent resp core he h hr hc =>
    refine .concluded (pre ++ pre') (post' ++ post) n sent resp core (by simp [he]) (fun c hc => ?_) hr hc
    simp only [List.mem_append] at hc h
    rcases hc with (hc | hc) | (hc | hc)
    case inl.inl => exact h₁ c hc
    case inl.inr => exact h c (.inl hc)
    case inr.inl => exact h c (.inr hc)
    case inr.inr => exact h₂ c hc

theorem requested_writes (qs : List Bytes) : (qs.map FetchCall.write).filterMap requested = [] := by
  refine List.filterMap_eq_nil_iff.mpr fun c hc => ?_
  obtain ⟨q, _, rfl⟩ := List.mem_map.mp hc
  rfl

theorem Answered.requested (h : Answered w n resp r calls) : calls.filterMap requested = [] := by
  cases h
  case failed => rfl
  case offered pre hpre =>
    subst hpre
    split
    all_goals rfl
  case filled keys calls _ _ hf =>
    cases hf
    case committed => simp [-List.filterMap_map, List.filterMap_cons, requested_writes, FetchCall.requested]
    case ended e qs mid last hm hlast =>
      obtain rfl | rfl | rfl := hm
      all_goals
        obtain rfl | rfl := hlast
        all_goals simp [-List.filterMap_map, List.filterMap_cons, requested_writes, FetchCall.requested]

-- What an answer to a validation leads to.
theorem validate_cases (w : Fetching) (n : Nat) (st : StoredObject) (sent : Header) {resp : FillResponse}
    (hs : resp.status = 304) :
    (∃ info, w.validate n st sent resp =
      (some { key := st.key, status := .text "REVALIDATE" }, [.closeBody n, .update info]) ∧
      Revalidates w n st sent resp info) ∨
    ∃ c, w.validate n st sent resp = (none, [.closeBody n, c]) ∧ c.isPlain ∧ c.requested = none := by
  rw [validate]
  split
  case h_1 => exact .inr ⟨.invalidate, rfl, rfl, rfl⟩
  case h_2 merged hm =>
    split
    case isFalse => exact .inr ⟨.invalidate, rfl, rfl, rfl⟩
    case isTrue hv =>
      dsimp only
      split
      case isTrue hu => exact .inl ⟨_, rfl, hs, ⟨merged, hm, hv, rfl⟩, hu⟩
      case isFalse => exact .inr ⟨_, rfl, rfl, rfl⟩

-- One attempt: the request, what follows from the response, and the deferred call.
theorem attempts_cases (w : Fetching) (left n : Nat) (stored : Option StoredObject) (sent : Header) :
    (∃ e, w.respond n sent = .error e ∧ w.attempts (left + 1) n stored sent = (failed e, [.request n sent])) ∨
    ∃ resp r calls, w.respond n sent = .ok resp ∧
      w.attempts (left + 1) n stored sent = (r, [.request n sent] ++ calls ++ [.closeBody n]) ∧
      ((r = unusable ∧ calls = []) ∨ Answered w n resp r calls ∨
        (∃ st info, stored = some st ∧ Revalidates w n st sent resp info ∧
          r = { key := st.key, status := .text "REVALIDATE" } ∧ calls = [.closeBody n, .update info]) ∨
        ∃ c, stored ≠ none ∧ c.isPlain ∧ c.requested = none ∧ r = (w.attempts left (n + 1) none w.plain).1 ∧
          calls = [.closeBody n, c] ++ (w.attempts left (n + 1) none w.plain).2) := by
  rw [attempts]
  cases hr : w.respond n sent
  case error e => exact .inl ⟨e, rfl, rfl⟩
  case ok resp =>
    refine .inr ⟨resp, _, _, rfl, rfl, ?_⟩
    split
    case isTrue => exact .inl ⟨rfl, rfl⟩
    case isFalse =>
      cases stored
      case none => exact .inr (.inl answered_store)
      case some st =>
        dsimp only
        split
        case isFalse => exact .inr (.inl answered_store)
        case isTrue hs =>
          obtain ⟨info, hv, hu⟩ | ⟨c, hv, hc, hq⟩ := w.validate_cases n st sent hs
          case inl =>
            rw [hv]
            exact .inr (.inr (.inl ⟨st, info, rfl, hu, rfl, rfl⟩))
          case inr =>
            rw [hv]
            exact .inr (.inr (.inr ⟨c, by simp, hc, hq, rfl, rfl⟩))

theorem ended_attempts {stored : Option StoredObject} {sent : Header} (left : Nat)
    (hs : ∀ st, stored = some st → w.lookup = .ok (some st)) :
    Ended w (w.attempts left n stored sent).1 (w.attempts left n stored sent).2 := by
  induction left generalizing n stored sent
  case zero => exact .failed _ rfl (by simp [attempts])
  case succ left hi =>
    obtain ⟨e, _, ha⟩ | ⟨resp, r, calls, hr, ha, hcases⟩ := w.attempts_cases left n stored sent
    case inl =>
      rw [ha]
      exact .failed e rfl (by simp [isPlain])
    case inr =>
      rw [ha]
      obtain ⟨rfl, rfl⟩ | hans | ⟨st, info, hst, hu, rfl, rfl⟩ | ⟨c, _, hc, _, rfl, rfl⟩ := hcases
      case inl => exact .failed _ rfl (by simp [isPlain])
      case inr.inl =>
        exact .concluded [] [.closeBody n] n sent resp calls rfl (by simp [isPlain]) hr
          (.answered r calls hans)
      case inr.inr.inl =>
        exact .concluded [] [.closeBody n] n sent resp _ rfl (by simp [isPlain]) hr
          (.revalidated st info (hs st hst) hu)
      case inr.inr.inr =>
        have hrest : Ended w (w.attempts left (n + 1) none w.plain).1
            ([.request n sent, .closeBody n, c] ++ (w.attempts left (n + 1) none w.plain).2 ++ [.closeBody n]) :=
          (hi fun st h => by cases h).wrap (by simpa [isPlain] using hc) (by simp [isPlain])
        simpa using hrest

section Requests

theorem requested_attempts {sent : Header} (left : Nat) :
    (w.attempts (left + 1) n none sent).2.filterMap requested = [(n, sent)] := by
  obtain ⟨e, _, ha⟩ | ⟨resp, r, calls, hr, ha, hcases⟩ := w.attempts_cases left n none sent
  case inl =>
    rw [ha]
    rfl
  case inr =>
    rw [ha]
    have hnil : calls.filterMap requested = [] := by
      obtain ⟨_, rfl⟩ | hans | ⟨st, _, hst, _⟩ | ⟨_, hst, _⟩ := hcases
      case inl => rfl
      case inr.inl => exact hans.requested
      case inr.inr.inl => cases hst
      case inr.inr.inr => exact absurd rfl hst
    simp [hnil, List.filterMap_cons, requested]

-- There are at most two requests, and the second one has no conditions.
theorem requested_two {stored : Option StoredObject} {sent : Header} :
    (w.attempts 2 0 stored sent).2.filterMap requested = [(0, sent)] ∨
    (w.attempts 2 0 stored sent).2.filterMap requested = [(0, sent), (1, w.plain)] := by
  obtain ⟨e, _, ha⟩ | ⟨resp, r, calls, hr, ha, hcases⟩ := w.attempts_cases 1 0 stored sent
  case inl =>
    rw [ha]
    exact .inl rfl
  case inr =>
    rw [ha]
    obtain ⟨_, rfl⟩ | hans | ⟨_, _, _, _, _, rfl⟩ | ⟨c, _, _, hc, _, rfl⟩ := hcases
    case inl => exact .inl rfl
    case inr.inl => exact .inl (by simp [hans.requested, List.filterMap_cons, requested])
    case inr.inr.inl => exact .inl rfl
    case inr.inr.inr =>
      have hpre : [FetchCall.closeBody 0, c].filterMap requested = [] := by
        rw [List.filterMap_cons, List.filterMap_cons, hc]
        rfl
      refine .inr ?_
      rw [List.filterMap_append, List.filterMap_append, List.filterMap_append, hpre, requested_attempts]
      rfl

-- Every response that has been received is closed after its request.
theorem closed_attempts {stored : Option StoredObject} {sent : Header} (left : Nat) :
    ∀ m h resp, .request m h ∈ (w.attempts left n stored sent).2 → w.respond m h = .ok resp →
      ∃ l l', (w.attempts left n stored sent).2 = l ++ .request m h :: l' ∧ .closeBody m ∈ l' := by
  induction left generalizing n stored sent
  case zero =>
    intro m h resp hm
    cases hm
  case succ left hi =>
    intro m h resp hm hresp
    obtain ⟨e, he, ha⟩ | ⟨resp', r, calls, hr, ha, hcases⟩ := w.attempts_cases left n stored sent
    case inl =>
      rw [ha, List.mem_singleton] at hm
      cases hm
      cases he.symm.trans hresp
    case inr =>
      rw [ha] at hm ⊢
      simp only [List.mem_append, List.mem_singleton] at hm
      obtain (hm | hm) | hm := hm
      case inl.inl =>
        cases hm
        exact ⟨[], calls ++ [.closeBody n], rfl, by simp⟩
      case inr => cases hm
      case inl.inr =>
        -- Only the calls of the next attempt contain a request.
        have hreq : (m, h) ∈ calls.filterMap requested := List.mem_filterMap.mpr ⟨_, hm, rfl⟩
        obtain ⟨_, rfl⟩ | hans | ⟨_, _, _, _, _, rfl⟩ | ⟨c, _, _, hc, _, rfl⟩ := hcases
        case inl => cases hm
        case inr.inl =>
          rw [hans.requested] at hreq
          cases hreq
        case inr.inr.inl => cases hreq
        case inr.inr.inr =>
          simp only [List.mem_append, List.mem_cons, List.not_mem_nil, or_false] at hm
          obtain (hm | hm) | hm := hm
          case inl.inl => cases hm
          case inl.inr =>
            rw [← hm] at hc
            cases hc
          case inr =>
            obtain ⟨l, l', he, hcl⟩ := hi m h resp hm hresp
            exact ⟨[.request n sent, .closeBody n, c] ++ l, l' ++ [.closeBody n], by simp [he], by simp [hcl]⟩

end Requests

-- The calls of a fill that is not answered from the cache.
structure Orderly (w : Fetching) (r : FillResult) (calls : List FetchCall) : Prop where
  -- At most two requests are made, the second one without conditions, and a slot is held meanwhile.
  requests : calls.filterMap requested = [] ∨ ∃ sent, calls.filterMap requested = [(0, sent)] ∨
    calls.filterMap requested = [(0, sent), (1, w.plain)]
  slot     : ∀ n sent, .request n sent ∈ calls →
    ∃ mid tail, calls = .acquire :: mid ++ .release :: tail ∧ .request n sent ∈ mid
  closed   : ∀ n sent resp, .request n sent ∈ calls → w.respond n sent = .ok resp →
    ∃ l l', calls = l ++ .request n sent :: l' ∧ .closeBody n ∈ l'
  ended    : Ended w r calls

theorem orderly_failed (e : Err) : Orderly w (failed e) [] where
  requests := .inl rfl
  slot _ _ h := by cases h
  closed _ _ _ h := by cases h
  ended := .failed e rfl (by simp)

theorem orderly_acquired {stored : Option StoredObject}
    (hs : ∀ st, stored = some st → w.lookup = .ok (some st)) :
    Orderly w (w.acquired stored).1 (w.acquired stored).2 := by
  rw [acquired]
  cases w.acquire
  case some e => exact orderly_failed e
  case none =>
    dsimp only
    generalize (stored.map (w.conditional ·.previous)).getD w.header = sent
    have hd : Ended w (w.attempts 2 0 stored sent).1
        ([.acquire] ++ (w.attempts 2 0 stored sent).2 ++ [.release]) :=
      (ended_attempts 2 hs).wrap (by simp [isPlain]) (by simp [isPlain])
    have hreq : ([FetchCall.acquire] ++ (w.attempts 2 0 stored sent).2 ++
        [FetchCall.release]).filterMap requested =
        (w.attempts 2 0 stored sent).2.filterMap requested := by
      rw [List.filterMap_append, List.filterMap_append]
      simp [List.filterMap_cons, requested]
    have hmem {n : Nat} {h : Header} (hm : .request n h ∈ [.acquire] ++ (w.attempts 2 0 stored sent).2 ++
        [.release]) : .request n h ∈ (w.attempts 2 0 stored sent).2 := by
      simpa using hm
    refine ⟨.inr ⟨sent, hreq ▸ requested_two⟩, fun n h hm => ⟨_, [], rfl, hmem hm⟩, ?_, hd⟩
    intro n h resp hm hr
    obtain ⟨l, l', he, hcl⟩ := closed_attempts 2 n h resp (hmem hm) hr
    exact ⟨.acquire :: l, l' ++ [.release], by simp [he], by simp [hcl]⟩

theorem Orderly.closeStored (h : Orderly w r calls) : Orderly w r (calls ++ [.closeStored]) := by
  have hd : Ended w r ([] ++ calls ++ [.closeStored]) := h.ended.wrap (by simp) (by simp [isPlain])
  rw [List.nil_append] at hd
  have hreq : (calls ++ [FetchCall.closeStored]).filterMap requested = calls.filterMap requested := by
    rw [List.filterMap_append]
    exact List.append_nil _
  have hmem {n : Nat} {h : Header} (hm : .request n h ∈ calls ++ [.closeStored]) :
      .request n h ∈ calls := by
    simpa using hm
  refine ⟨hreq ▸ h.requests, ?_, ?_, hd⟩
  case refine_1 =>
    intro n sent hm
    obtain ⟨mid, tail, hc, hin⟩ := h.slot n sent (hmem hm)
    exact ⟨mid, tail ++ [.closeStored], by rw [hc]; simp, hin⟩
  case refine_2 =>
    intro n sent resp hm hr
    obtain ⟨l, l', he, hcl⟩ := h.closed n sent resp (hmem hm) hr
    exact ⟨l, l' ++ [.closeStored], by simp [he], by simp [hcl]⟩

end Fetching
end Bakemono
