import Bakemono.Proxy.Request

namespace Bakemono.Request

variable {γ : Type} (net : Net) (r : Request γ)

def scheme : Bytes :=
  if r.url.scheme ≠ [] then r.url.scheme
  else if r.tls.isSome then .text "https" else .text "http"

def authority : Bytes := if r.host ≠ [] then r.host else r.url.host

def path : Bytes :=
  let path := net.escapedPath r.url
  if path = [] then .text "/" else path

def hasQuery : Bool := r.url.rawQuery ≠ [] ∨ r.url.forceQuery

-- The items of the query. An empty query has one empty item.
def items : List Bytes := r.url.rawQuery.splitOn 38

def getCacheKey : Bytes :=
  .text "http-v3:" ++ r.scheme ++ .text "://" ++ r.authority ++ r.path net ++
    if r.hasQuery then 63 :: [38].intercalate (Bytes.sorted r.items) else []

-- The parts of the request do not contain the separators in front of them.
structure Plain : Prop where
  scheme    : r.scheme = .text "http" ∨ r.scheme = .text "https"
  authority : 47 ∉ r.authority ∧ 63 ∉ r.authority
  path      : net.escapedPath r.url = [] ∨ (net.escapedPath r.url).head? = some 47
  query     : 63 ∉ net.escapedPath r.url

variable {net} {r} {r' : Request γ} {p p' : Bytes}

namespace Plain

theorem path_eq_cons (h : r.Plain net) : ∃ p, r.path net = 47 :: p ∧ 63 ∉ p := by
  have hq := h.query
  simp only [Request.path]
  split
  case isTrue => exact ⟨[], rfl, List.not_mem_nil⟩
  case isFalse hne =>
    have ⟨p, hp⟩ := List.head?_eq_some_iff.mp (h.path.resolve_left hne)
    rw [hp] at hq ⊢
    exact ⟨p, rfl, fun hm => hq (.tail _ hm)⟩

theorem notMem_scheme (h : r.Plain net) : 58 ∉ r.scheme := by
  cases h.scheme
  case inl h => rw [h]; decide
  case inr h => rw [h]; decide

end Plain

-- What follows the path.
def suffix (r : Request γ) : Bytes :=
  if r.hasQuery then 63 :: [38].intercalate (Bytes.sorted r.items) else []

theorem items_of_not_hasQuery (h : r.hasQuery = false) : r.items = [[]] := by
  have hq : r.url.rawQuery = [] := by
    simp only [hasQuery, decide_eq_false_iff_not, not_or, not_not] at h
    exact h.1
  rw [items, hq]
  rfl

-- The path ends at the first question mark.
theorem suffix_inj (hp : 63 ∉ p) (hp' : 63 ∉ p')
    (h : p ++ r.suffix = p' ++ r'.suffix) :
    p = p' ∧ r.hasQuery = r'.hasQuery ∧ r.items.Perm r'.items := by
  simp only [suffix] at h
  cases hq : r.hasQuery
  case false =>
    cases hq' : r'.hasQuery
    case false =>
      simp only [hq, hq', Bool.false_eq_true, if_false, List.append_nil] at h
      exact ⟨h, rfl, by rw [items_of_not_hasQuery hq, items_of_not_hasQuery hq']⟩
    case true =>
      simp only [hq, hq', Bool.false_eq_true, if_false, if_true, List.append_nil] at h
      exact absurd (h ▸ List.mem_append_right _ (.head _)) hp
  case true =>
    cases hq' : r'.hasQuery
    case false =>
      simp only [hq, hq', Bool.false_eq_true, if_false, if_true, List.append_nil] at h
      exact absurd (h.symm ▸ List.mem_append_right _ (.head _)) hp'
    case true =>
      simp only [hq, hq', if_true] at h
      have ⟨hpath, hitems⟩ := Bytes.split_first hp hp' h
      exact ⟨hpath, rfl, Bytes.intercalate_sorted_inj.mp hitems⟩

theorem suffix_eq (hq : r.hasQuery = r'.hasQuery) (hi : r.items.Perm r'.items) :
    r.suffix = r'.suffix := by
  simp only [suffix, hq, items]
  rw [Bytes.intercalate_sorted_inj.mpr hi]

theorem getCacheKey_eq (hp : r.path net = 47 :: p) : r.getCacheKey net =
    .text "http-v3:" ++ (r.scheme ++ 58 :: ([47, 47] ++ (r.authority ++ 47 :: (p ++ r.suffix)))) := by
  have ht : Bytes.text "://" = [58, 47, 47] := by decide
  simp [getCacheKey, hp, suffix, ht]

-- The cache key identifies a request up to the order of its query items.
theorem getCacheKey_eq_iff (h : r.Plain net) (h' : r'.Plain net) :
    r.getCacheKey net = r'.getCacheKey net ↔
      r.scheme = r'.scheme ∧ r.authority = r'.authority ∧ r.path net = r'.path net ∧
      r.hasQuery = r'.hasQuery ∧ (r.items : Multiset Bytes) = r'.items := by
  have ⟨p, hp, hn⟩ := h.path_eq_cons
  have ⟨p', hp', hn'⟩ := h'.path_eq_cons
  rw [getCacheKey_eq hp, getCacheKey_eq hp', Multiset.coe_eq_coe]
  constructor
  case mp =>
    intro he
    have ⟨hscheme, he⟩ := Bytes.split_first h.notMem_scheme h'.notMem_scheme (List.append_cancel_left he)
    have ⟨hauthority, he⟩ := Bytes.split_first h.authority.1 h'.authority.1 (List.append_cancel_left he)
    have ⟨hpath, hq, hi⟩ := suffix_inj hn hn' he
    exact ⟨hscheme, hauthority, by rw [hp, hp', hpath], hq, hi⟩
  case mpr =>
    intro ⟨hscheme, hauthority, hpath, hq, hi⟩
    rw [hp, hp'] at hpath
    rw [hscheme, hauthority, (List.cons.inj hpath).2, suffix_eq hq hi]

section Sample

-- All parts of a URL are taken as they are.
def sampleNet : Net where
  trimSpace l       := l
  escapedPath url   := url.path
  joinURLPath a b   := (a.path ++ b.path, [])
  splitHostPort _   := none
  parseIP _         := none
  Addr              := Bytes
  parseAddr _       := none
  unmap a           := a
  string a          := a
  Network           := Unit
  contains _ _      := true

def sampleRequest (query : String) : Request Unit where
  method           := .text "GET"
  url              := { path := .text "/item", rawQuery := .text query }
  header _         := none
  contentLength    := 0
  transferEncoding := []
  close            := false
  host             := .text "a.test"
  remoteAddr       := []
  requestURI       := []
  tls              := none
  context          := { base := () }

theorem plain_sampleRequest (query : String) : (sampleRequest query).Plain sampleNet where
  scheme    := .inl rfl
  authority := by
    rw [show (sampleRequest query).authority = .text "a.test" from rfl]
    decide
  path      := .inr rfl
  query     := by
    rw [show sampleNet.escapedPath (sampleRequest query).url = .text "/item" from rfl]
    decide

theorem getCacheKey_eq_iff_sample :
    (sampleRequest "a=1&b=2").getCacheKey sampleNet = (sampleRequest "b=2&a=1").getCacheKey sampleNet ∧
    (sampleRequest "a=1&b=2").getCacheKey sampleNet ≠ (sampleRequest "a=1&b=2&b=2").getCacheKey sampleNet := by
  constructor
  case left =>
    apply (getCacheKey_eq_iff (plain_sampleRequest _) (plain_sampleRequest _)).mpr
    refine ⟨rfl, rfl, rfl, by decide, ?_⟩
    decide
  case right =>
    intro he
    have ⟨_, _, _, _, hi⟩ := (getCacheKey_eq_iff (plain_sampleRequest _) (plain_sampleRequest _)).mp he
    exact absurd hi (by decide)

end Sample

end Bakemono.Request
