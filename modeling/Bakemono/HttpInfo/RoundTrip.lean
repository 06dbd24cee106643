import Bakemono.HttpInfo

namespace Bakemono

namespace Header

variable {h : Header} {name value : Bytes} {c : UInt8} {upper : Bool} {q : Bytes × Bytes}

-- The case of a letter is not changed twice, and hyphens and token bytes stay what they are.
theorem capital_spec (upper : Bool) (c : UInt8) :
    let d := if upper && 97 ≤ c && c ≤ 122 then c - 32
             else if !upper && 65 ≤ c && c ≤ 90 then c + 32 else c
    (if upper && 97 ≤ d && d ≤ 122 then d - 32
     else if !upper && 65 ≤ d && d ≤ 90 then d + 32 else d) = d ∧
    (d == 45) = (c == 45) ∧ (isTokenByte c = true → isTokenByte d = true) := by
  have h : ∀ (upper : Bool) (n : Fin 256), let c := UInt8.ofFin n
      let d := if upper && 97 ≤ c && c ≤ 122 then c - 32
               else if !upper && 65 ≤ c && c ≤ 90 then c + 32 else c
      (if upper && 97 ≤ d && d ≤ 122 then d - 32
       else if !upper && 65 ≤ d && d ≤ 90 then d + 32 else d) = d ∧
      (d == 45) = (c == 45) ∧ (isTokenByte c = true → isTokenByte d = true) := by
    decide +kernel
  exact h upper c.toFin

theorem capitalize_capitalize : capitalize upper (capitalize upper name) = capitalize upper name := by
  induction name generalizing upper
  case nil => rfl
  case cons c l hi =>
    have ⟨hd, hh, _⟩ := capital_spec upper c
    simp only [capitalize, hd, hh, hi]

theorem all_isTokenByte_capitalize (h : name.all isTokenByte = true) :
    (capitalize upper name).all isTokenByte = true := by
  induction name generalizing upper
  case nil => rfl
  case cons c l hi =>
    rw [List.all_cons, Bool.and_eq_true] at h
    have ⟨_, _, ht⟩ := capital_spec upper c
    rw [capitalize, List.all_cons, Bool.and_eq_true]
    exact ⟨ht h.1, hi h.2⟩

@[simp] theorem length_capitalize : (capitalize upper name).length = name.length := by
  induction name generalizing upper
  case nil => rfl
  case cons c l hi => rw [capitalize, List.length_cons, hi, List.length_cons]

theorem canonicalMIMEHeaderKey_idem :
    canonicalMIMEHeaderKey (canonicalMIMEHeaderKey name) = canonicalMIMEHeaderKey name := by
  by_cases h : name.all isTokenByte = true
  case pos =>
    rw [canonicalMIMEHeaderKey, canonicalMIMEHeaderKey, if_pos h,
      if_pos (all_isTokenByte_capitalize h), capitalize_capitalize]
  case neg => rw [canonicalMIMEHeaderKey, canonicalMIMEHeaderKey, if_neg h, if_neg h]

@[simp] theorem length_canonicalMIMEHeaderKey :
    (canonicalMIMEHeaderKey name).length = name.length := by
  rw [canonicalMIMEHeaderKey]
  split
  case isTrue => exact length_capitalize
  case isFalse => rfl

theorem mem_insert {e : Bytes × List Bytes} (he : e ∈ h.insert name value) :
    e ∈ h ∨ e.1 = name ∧ ∃ vs, e.2 = vs ++ [value] := by
  induction h
  case nil =>
    cases List.mem_singleton.mp he
    exact .inr ⟨rfl, [], rfl⟩
  case cons x h hi =>
    rw [insert] at he
    split at he
    case isTrue hk =>
      cases he
      case head => exact .inr ⟨hk, x.2, rfl⟩
      case tail he => exact .inl (.tail _ he)
    case isFalse =>
      cases he
      case head => exact .inl (.head _)
      case tail he => exact (hi he).imp_left (.tail _)

theorem names_insert (h : Header) (name value : Bytes) :
    (h.insert name value).map Prod.fst = h.map Prod.fst ∨
      name ∉ h.map Prod.fst ∧ (h.insert name value).map Prod.fst = h.map Prod.fst ++ [name] := by
  by_cases hn : name ∈ h.map Prod.fst
  case neg => exact .inr ⟨hn, by rw [insert_new hn, List.map_append]; rfl⟩
  case pos =>
    left
    induction h
    case nil => cases hn
    case cons x h hi =>
      rw [insert]
      split
      case isTrue => rfl
      case isFalse hk =>
        have hn := (List.mem_cons.mp hn).resolve_left (Ne.symm hk)
        rw [List.map_cons, hi hn, List.map_cons]

-- What `Add` makes of a header is lossless again.
theorem Lossless.add (hl : h.Lossless) (name value : Bytes) : (h.add name value).Lossless where
  names     := by
    obtain hn | ⟨hn, he⟩ := names_insert h (canonicalMIMEHeaderKey name) value
    case inl => rw [Header.add, hn]; exact hl.names
    case inr =>
      rw [Header.add, he]
      exact hl.names.append (List.nodup_singleton _) (by simpa using hn)
  canonical := fun e he => by
    obtain h | ⟨hn, _⟩ := mem_insert he
    case inl => exact hl.canonical e h
    case inr => rw [hn, canonicalMIMEHeaderKey_idem]
  values    := fun e he => by
    obtain h | ⟨_, vs, hv⟩ := mem_insert he
    case inl => exact hl.values e h
    case inr => simp [hv]

theorem pairs_insert : (h.insert name value).pairs.Perm ((name, value) :: h.pairs) := by
  induction h
  case nil => exact .refl _
  case cons x h hi =>
    rw [insert]
    split
    case isTrue hk =>
      subst hk
      simp only [pairs, List.flatMap_cons, List.map_append, List.map_cons, List.map_nil,
        List.append_assoc]
      exact List.perm_middle
    case isFalse =>
      simp only [pairs, List.flatMap_cons]
      exact (hi.append_left _).trans List.perm_middle

theorem pairs_perm {h' : Header} (hp : h.Perm h') : h.pairs.Perm h'.pairs :=
  hp.flatMap_right _

theorem Lossless.perm {h' : Header} (hl : h.Lossless) (hp : h'.Perm h) : h'.Lossless where
  names     := (hp.map Prod.fst).nodup_iff.mpr hl.names
  canonical := fun e he => hl.canonical e (hp.mem_iff.mp he)
  values    := fun e he => hl.values e (hp.mem_iff.mp he)

end Header

namespace CacheHTTPInfo

variable {h h' g : CacheHTTPInfo} {p q l buf : Bytes} {w n : Nat}

-- The lengths that the format has room for.
structure Fits (h : CacheHTTPInfo) : Prop where
  requestMethod : h.requestMethod.length ≤ 65535
  requestURL    : h.requestURL.length ≤ 65535
  count         : h.responseHeaders.pairs.length ≤ 65535
  sizes         : ∀ q ∈ h.responseHeaders.pairs, q.1.length ≤ 65535 ∧ q.2.length ≤ 65535

theorem exists_marshal : (∃ p, h.marshal = .ok p) ↔ h.Fits := by
  constructor
  case mp =>
    rintro ⟨p, hm⟩
    have ⟨h₁, h₂, h₃, h₄, _⟩ := of_marshal hm
    exact ⟨h₁, h₂, h₃, h₄⟩
  case mpr =>
    intro ⟨h₁, h₂, h₃, h₄⟩
    have h₅ : ¬(h.responseHeaders.pairs.length > 65535 ∨
        ∃ q ∈ h.responseHeaders.pairs, q.1.length > 65535 ∨ q.2.length > 65535) := by
      rintro (hc | ⟨q, hq, hc⟩)
      case inl => exact absurd h₃ (not_le.mpr hc)
      case inr => exact hc.elim (not_lt.mpr (h₄ q hq).1) (not_lt.mpr (h₄ q hq).2)
    exact ⟨_, Except.check_bind_eq_ok.mpr ⟨not_lt.mpr h₁, Except.check_bind_eq_ok.mpr ⟨not_lt.mpr h₂,
      Except.check_bind_eq_ok.mpr ⟨h₅, rfl⟩⟩⟩⟩

theorem marshal_eq_error : (∃ e, h.marshal = .error e) ↔ ¬h.Fits := by
  rw [← exists_marshal]
  cases h.marshal <;> simp

-- The same metadata, up to the order in which the map of the headers is iterated.
structure Same (h h' : CacheHTTPInfo) : Prop where
  requestTime     : h.requestTime = h'.requestTime
  responseTime    : h.responseTime = h'.responseTime
  requestMethod   : h.requestMethod = h'.requestMethod
  requestURL      : h.requestURL = h'.requestURL
  status          : h.status = h'.status
  responseHeaders : h.responseHeaders.Perm h'.responseHeaders

theorem Same.lossless (hs : g.Same h) (hl : h.Lossless) : g.Lossless where
  requestTime     := hs.requestTime ▸ hl.requestTime
  responseTime    := hs.responseTime ▸ hl.responseTime
  status          := hs.status ▸ hl.status
  responseHeaders := hl.responseHeaders.perm hs.responseHeaders

theorem Same.fits (hs : g.Same h) (hf : h.Fits) : g.Fits where
  requestMethod := hs.requestMethod ▸ hf.requestMethod
  requestURL    := hs.requestURL ▸ hf.requestURL
  count         := (Header.pairs_perm hs.responseHeaders).length_eq ▸ hf.count
  sizes         := fun q hq => hf.sizes q ((Header.pairs_perm hs.responseHeaders).mem_iff.mp hq)

-- What the functions that read the format return.
theorem readFull_eq_ok (hr : readFull n buf = .ok (p, l)) : p.length = n := by
  rw [readFull] at hr
  split at hr
  case isTrue hn =>
    cases hr
    rw [List.length_take, min_eq_left hn]
  case isFalse => split at hr <;> cases hr

theorem readNat_eq_ok (hr : readNat w buf = .ok (n, l)) : n < 256 ^ w := by
  have ⟨⟨p, _⟩, hp, he⟩ := Except.bind_eq_ok.mp hr
  cases he
  rw [← readFull_eq_ok hp]
  exact Bytes.ofBE_lt

theorem readSigned_eq_ok {t : Int} (hr : readSigned 8 buf = .ok (t, l)) : -2 ^ 63 ≤ t ∧ t < 2 ^ 63 := by
  have ⟨⟨n, _⟩, hn, he⟩ := Except.bind_eq_ok.mp hr
  have hn := readNat_eq_ok hn
  simp only [pure, Except.pure, Except.ok.injEq, Prod.mk.injEq] at he
  rw [← he.1]
  split <;> omega

theorem readCounted_eq_ok (hr : readCounted buf = .ok (p, l)) : p.length ≤ 65535 := by
  have ⟨⟨n, _⟩, hn, he⟩ := Except.bind_eq_ok.mp hr
  have hn := readNat_eq_ok hn
  have := readFull_eq_ok he
  omega

-- Headers with room for some more values.
structure Room (count : Nat) (h : Header) : Prop where
  lossless : h.Lossless
  count    : h.pairs.length + count ≤ 65535
  sizes    : ∀ q ∈ h.pairs, q.1.length ≤ 65535 ∧ q.2.length ≤ 65535

theorem Room.add {count : Nat} {h : Header} (hr : Room (count + 1) h) (hp : p.length ≤ 65535)
    (hq : q.length ≤ 65535) : Room count (h.add p q) where
  lossless := hr.lossless.add p q
  count    := by
    have hc := hr.count
    rw [Header.add, Header.pairs_insert.length_eq, List.length_cons]
    omega
  sizes    := by
    intro x hx
    cases List.mem_cons.mp (Header.pairs_insert.mem_iff.mp hx)
    case inl he =>
      rw [he]
      exact ⟨Header.length_canonicalMIMEHeaderKey.trans_le hp, hq⟩
    case inr hx => exact hr.sizes x hx

theorem readHeaders_eq_ok {count : Nat} {acc r : Header} (ha : Room count acc)
    (hr : readHeaders count acc buf = .ok (r, l)) : Room 0 r := by
  induction count generalizing acc buf
  case zero =>
    cases hr
    exact ha
  case succ count hi =>
    have ⟨⟨k, _⟩, hk, hr⟩ := Except.bind_eq_ok.mp hr
    have ⟨⟨v, _⟩, hv, hr⟩ := Except.bind_eq_ok.mp hr
    exact hi (ha.add (readCounted_eq_ok hk) (readCounted_eq_ok hv)) hr

-- What is decoded can be encoded again.
theorem unmarshal_eq_ok (hu : unmarshal p = .ok h) : h.Lossless ∧ h.Fits := by
  have ⟨⟨t₁, _⟩, h₁, hu⟩ := Except.bind_eq_ok.mp hu
  have ⟨⟨t₂, _⟩, h₂, hu⟩ := Except.bind_eq_ok.mp hu
  have ⟨⟨m, _⟩, h₃, hu⟩ := Except.bind_eq_ok.mp hu
  have ⟨⟨u, _⟩, h₄, hu⟩ := Except.bind_eq_ok.mp hu
  have ⟨⟨s, _⟩, h₅, hu⟩ := Except.bind_eq_ok.mp hu
  have ⟨⟨count, _⟩, h₆, hu⟩ := Except.bind_eq_ok.mp hu
  have ⟨⟨r, _⟩, h₇, hu⟩ := Except.bind_eq_ok.mp hu
  have ⟨_, he⟩ := Except.check_bind_eq_ok.mp hu
  cases he
  have hs := readNat_eq_ok h₅
  have hc := readNat_eq_ok h₆
  have hl : Header.Lossless [] := ⟨List.nodup_nil, (fun _ h => nomatch h), (fun _ h => nomatch h)⟩
  have hp : (Header.pairs []).length + count ≤ 65535 := by
    rw [show Header.pairs [] = [] from rfl, List.length_nil]
    omega
  have hr := readHeaders_eq_ok ⟨hl, hp, fun _ h => nomatch h⟩ h₇
  refine ⟨⟨readSigned_eq_ok h₁, readSigned_eq_ok h₂, ?_, hr.lossless⟩,
    ⟨readCounted_eq_ok h₃, readCounted_eq_ok h₄, hr.count, hr.sizes⟩⟩
  constructor
  case left => exact Int.natCast_nonneg s
  case right =>
    show (s : Int) ≤ 65535
    omega

-- Metadata whose parts do not all fit.
def TooLong (h : CacheHTTPInfo) : Prop :=
  65535 < h.requestMethod.length ∨ 65535 < h.requestURL.length ∨
  (∃ e ∈ h.responseHeaders, 65535 < e.1.length ∨ ∃ v ∈ e.2, 65535 < v.length) ∨
  65535 < (h.responseHeaders.map fun e => e.2.length).sum

theorem tooLong_iff (hv : ∀ e ∈ h.responseHeaders, e.2 ≠ []) : h.TooLong ↔ ¬h.Fits := by
  have hcount : h.responseHeaders.pairs.length = (h.responseHeaders.map fun e => e.2.length).sum := by
    simp [Header.pairs, List.length_flatMap]
  constructor
  case mp =>
    rintro (hm | hu | ⟨e, he, hk⟩ | hc) hf
    case inl => exact absurd hf.requestMethod (by omega)
    case inr.inl => exact absurd hf.requestURL (by omega)
    case inr.inr.inl =>
      have hmem {v} (hv : v ∈ e.2) : (e.1, v) ∈ h.responseHeaders.pairs :=
        List.mem_flatMap.mpr ⟨e, he, List.mem_map.mpr ⟨v, hv, rfl⟩⟩
      obtain hk | ⟨v, hv, hl⟩ := hk
      case inl =>
        obtain ⟨v, hv⟩ := List.exists_mem_of_ne_nil _ (hv e he)
        exact absurd (hf.sizes _ (hmem hv)).1 (not_le.mpr hk)
      case inr =>
        exact absurd (hf.sizes _ (hmem hv)).2 (not_le.mpr hl)
    case inr.inr.inr => exact absurd hf.count (by omega)
  case mpr =>
    intro hn
    by_contra hc
    simp only [TooLong, not_or, not_lt, not_exists, not_and] at hc
    obtain ⟨hm, hu, hk, hl⟩ := hc
    refine hn ⟨hm, hu, by omega, fun q hq => ?_⟩
    obtain ⟨e, he, hq⟩ := List.mem_flatMap.mp hq
    obtain ⟨v, hv, hq⟩ := List.mem_map.mp hq
    obtain ⟨h₁, h₂⟩ := hk e he
    rw [← hq]
    exact ⟨h₁, h₂ v hv⟩

-- Encoding and decoding metadata, whatever the order in which its headers are iterated.
theorem marshal_roundtrip :
    (∀ (h g : CacheHTTPInfo) p, h.Lossless → g.Same h → g.marshal = .ok p → ∃ h', unmarshal p = .ok h' ∧ h'.Same h) ∧
    (∀ p h (g : CacheHTTPInfo), unmarshal p = .ok h → g.Same h →
      ∃ q h', g.marshal = .ok q ∧ unmarshal q = .ok h' ∧ h'.Same h) ∧
    ∀ h : CacheHTTPInfo, (∀ e ∈ h.responseHeaders, e.2 ≠ []) → ((∃ e, h.marshal = .error e) ↔ h.TooLong) := by
  refine ⟨fun h g p hl hs hm => ?_, fun p h g hu hs => ?_, fun h hv => ?_⟩
  case refine_1 => exact ⟨g, unmarshal_marshal (hs.lossless hl) hm, hs⟩
  case refine_2 =>
    have ⟨hl, hf⟩ := unmarshal_eq_ok hu
    have ⟨q, hm⟩ := exists_marshal.mpr (hs.fits hf)
    exact ⟨q, g, hm, unmarshal_marshal (hs.lossless hl) hm, hs⟩
  case refine_3 => rw [marshal_eq_error, tooLong_iff hv]

-- A header with two names is encoded in either order.
def sampleInfo (headers : Header) : CacheHTTPInfo :=
  { requestTime := 1, responseTime := 2, requestMethod := [71], requestURL := [47], status := 200,
    responseHeaders := headers }

theorem marshal_roundtrip_sample : ∃ p q h',
    (sampleInfo [([84], [[49]]), ([86], [[50], [51]])]).marshal = .ok p ∧
    (sampleInfo [([86], [[50], [51]]), ([84], [[49]])]).marshal = .ok q ∧ p ≠ q ∧
    unmarshal q = .ok h' ∧ h'.Same (sampleInfo [([84], [[49]]), ([86], [[50], [51]])]) := by
  obtain ⟨p, hp⟩ : ∃ p, (sampleInfo [([84], [[49]]), ([86], [[50], [51]])]).marshal = .ok p := ⟨_, rfl⟩
  obtain ⟨q, hq⟩ : ∃ q, (sampleInfo [([86], [[50], [51]]), ([84], [[49]])]).marshal = .ok q := ⟨_, rfl⟩
  have hne : p ≠ q := by
    rintro rfl
    exact absurd (hp.trans hq.symm) (by decide +kernel)
  have hl : (sampleInfo [([84], [[49]]), ([86], [[50], [51]])]).Lossless :=
    ⟨by decide, by decide, by decide, by decide, by decide, by decide⟩
  have hsame : (sampleInfo [([86], [[50], [51]]), ([84], [[49]])]).Same
      (sampleInfo [([84], [[49]]), ([86], [[50], [51]])]) :=
    ⟨rfl, rfl, rfl, rfl, rfl, List.Perm.swap ..⟩
  obtain ⟨h', hu, hs⟩ := marshal_roundtrip.1 _ _ q hl hsame hq
  exact ⟨p, q, h', hp, hq, hne, hu, hs⟩

end CacheHTTPInfo

end Bakemono
