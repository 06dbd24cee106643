import Bakemono.Read.Object

-- What a reader that has come to the end knows about the object.

namespace Bakemono.CacheReader

variable {H : Hash} {start stop : Nat} {key : Bytes} {v : View} {r r' : CacheReader} {w : UInt64}
  {m n i fuel : Nat} {q : Bytes}

-- A reader gets the metadata as often as it asks for it, and then the bytes and nothing else.
def Delivers (H : Hash) (start stop : Nat) (key : Bytes) (env : Nat → View) (body : Bytes)
    (info : Except Err CacheHTTPInfo) : Prop :=
  ∀ k, (loadHTTPInfo H start stop key env (infoCalls H start stop key env k)).1 = info ∧
    ∀ sizes, (∀ n ∈ sizes, 0 < n) →
      readCalls H start stop key env sizes (infoCalls H start stop key env k) = some (chunks body sizes)

theorem Object.delivers {env : Nat → View} {frags : List Bytes} {body info : Bytes}
    (ho : Object H start stop key w body info frags) (hs : Serves H start stop key env frags)
    (hq : frags[0]? = some q) : Delivers H start stop key env body (infoOf q) := by
  intro k
  have ha := asked_infoCalls ho hs hq k
  exact ⟨(ha.loadHTTPInfo ho hs hq).1, fun sizes hn => ha.between.readCalls ho hs (List.nil_append _) hn⟩

-- The document has been accepted as a fragment by a reader of the given version and length.
structure Accepted (H : Hash) (start stop : Nat) (key : Bytes) (v : View) (w : UInt64) (n i : Nat)
    (q : Bytes) : Prop where
  fragment : Fragment H key i w q
  seen     : Seen H start stop key v i q
  length   : (payload q).length = pieceLen n i
  head     : i = 0 → (header q).totalLen.toNat = n
  tail     : i ≠ 0 → (header q).hlen = 0 ∧ 0 < (payload q).length ∧
    (header q).totalLen.toNat = i * TargetFragmentSize + (payload q).length
  fits     : (header q).totalLen.toNat ≤ stop - start

theorem accepted_of_load (h : r.load H start stop key v i = .ok r') :
    ∃ w, Loads H start stop key v r i w r' ∧ Accepted H start stop key v w r'.totalLen i r'.buf := by
  obtain ⟨w, hl⟩ := load_eq_ok h
  simp only [load, parseDoc, Except.bind_eq_ok, parseDocFromBuf_eq_ok, Except.check_bind_eq_ok] at h
  obtain ⟨⟨dir, buf, ram⟩, _, doc, ⟨_, hd⟩, _, hv, _, ht, _, hc, _, buf', hb, he⟩ := h
  obtain ⟨_, hf, _⟩ := Doc.validate_eq_ok.mp hv
  have hb : buf' = buf.take doc.len.toNat := (Except.ok.inj <| (trim_eq hf.size).symm.trans hb).symm
  have hbuf : r'.buf = buf' := by
    cases he
    rfl
  have hh : header r'.buf = doc := by
    rw [hbuf, hb, header_take (by have := hf.hlen; omega), hd]
  rw [checkLengths_eq_ok, ← hh, ← hl.fragment.length_payload] at hc
  refine ⟨w, hl, hl.fragment, hl.seen, hl.length, fun h₀ => ?_, fun h₀ => ?_, ?_⟩
  case refine_1 => rw [hl.total, if_pos h₀]
  case refine_2 =>
    rw [if_neg h₀] at hc
    exact ⟨hc.2.1, (hl.tail h₀).1, hc.2.2.1⟩
  case refine_3 => exact hh ▸ not_lt.mp ht

-- The fragments that a reader has come by.
structure Progress (H : Hash) (start stop : Nat) (key : Bytes) (v : View) (w : UInt64) (n : Nat)
    (r : CacheReader) : Prop where
  version : r.version = some w
  total   : r.totalLen = n
  loaded  : ∀ i ≤ r.fragmentIndex, ∃ q, Accepted H start stop key v w n i q

theorem Progress.load (h : Progress H start stop key v w n r)
    (hl : r.load H start stop key v (r.fragmentIndex + 1) = .ok r') :
    Progress H start stop key v w n r' := by
  obtain ⟨w', hl, ha⟩ := accepted_of_load hl
  have hw : w = w' := hl.same w h.version
  have ht : r'.totalLen = n := by simpa [h.total] using hl.total
  subst hw
  refine ⟨hl.version, ht, fun i hi => ?_⟩
  rw [hl.index] at hi
  by_cases hlast : i = r.fragmentIndex + 1
  case pos => exact ⟨r'.buf, hlast ▸ ht ▸ ha⟩
  case neg => exact h.loaded i (by omega)

-- The call has ended with the error of a load.
def Fails (H : Hash) (start stop : Nat) (key : Bytes) (v : View) (res : Result) : Prop :=
  ∃ r : CacheReader, ∃ i e, res.2.1 = some e ∧ r.load H start stop key v i = .error e

section Loop

variable {acc : Bytes} {next : Bytes → CacheReader → Option Result} {res : Result}

theorem Progress.copy (h : Progress H start stop key v w n r) (hc : copy m acc r next = some res)
    (hn : ∀ acc r', Progress H start stop key v w n r' → next acc r' = some res →
      Progress H start stop key v w n res.2.2 ∨ Fails H start stop key v res) :
    Progress H start stop key v w n res.2.2 ∨ Fails H start stop key v res := by
  simp only [CacheReader.copy] at hc
  split at hc
  case h_1 =>
    cases hc
    exact .inl h
  case h_2 =>
    split_ifs at hc
    case pos =>
      cases hc
      exact .inl h
    case neg =>
      refine hn _ _ ?_ hc
      exact ⟨h.version, h.total, h.loaded⟩
    case neg =>
      split at hc
      case h_1 =>
        cases hc
        exact .inl h
      case h_2 =>
        refine hn _ _ ?_ hc
        exact ⟨h.version, h.total, h.loaded⟩

theorem Progress.readLoop (h : Progress H start stop key v w n r)
    (hc : readLoop H start stop key (fun _ => v) m fuel acc r = some res) :
    Progress H start stop key v w n res.2.2 ∨ Fails H start stop key v res := by
  induction fuel generalizing acc r
  case zero => cases hc
  case succ fuel hi =>
    simp only [CacheReader.readLoop] at hc
    split_ifs at hc
    case pos =>
      cases hc
      exact .inl h
    case pos =>
      cases hc
      exact .inl h
    case neg =>
      split at hc
      case h_1 e hl =>
        cases hc
        exact .inr ⟨r, _, e, rfl, hl⟩
      case h_2 r' hl =>
        have h' := h.load hl
        have h₀ : Progress H start stop key v w n { r' with offset := 0 } :=
          ⟨h'.version, h'.total, h'.loaded⟩
        exact h₀.copy hc fun _ _ => hi
    case neg => exact h.copy hc fun _ _ => hi

end Loop

-- All fragments of an object of the given version and length are in place.
def Complete (H : Hash) (start stop : Nat) (key : Bytes) (v : View) (w : UInt64) (n : Nat) : Prop :=
  ∀ i, i = 0 ∨ i * TargetFragmentSize < n → ∃ q, Accepted H start stop key v w n i q

-- A reader that has delivered everything is in the last fragment.
theorem Reading.index_le {env : Nat → View} {l : List Bytes} {p D : Bytes}
    (h : Reading H start stop key env r l p w D) (ht : r.totalLen ≤ r.totalRead)
    (hi : i = 0 ∨ i * TargetFragmentSize < r.totalLen) : i ≤ r.fragmentIndex := by
  have h₁ := h.read
  have h₂ := h.offset
  have h₃ := h.length
  simp only [pieceLen] at h₃
  generalize TargetFragmentSize = size at *
  cases hi
  case inl h₀ => exact h₀ ▸ Nat.zero_le _
  case inr hlt =>
    have hmul : i * size < (r.fragmentIndex + 1) * size := by
      rw [Nat.succ_mul]
      omega
    exact Nat.lt_succ_iff.mp (Nat.lt_of_mul_lt_mul_right hmul)

-- One call of a reader that does not mistake an error for the end of the object.
theorem Progress.read {l : List Bytes} {p D acc : Bytes} {e : Option Err}
    (h : Progress H start stop key v w n r) (hr : Reading H start stop key (fun _ => v) r l p w D)
    (hb : r.buf = p) (hv : ∀ i r, CacheReader.load H start stop key v i r ≠ .error .eof)
    (hc : r.read H start stop key (fun _ => v) m = some (acc, e, r')) :
    (e = none → Progress H start stop key v w n r' ∧
      ∃ l p D, Reading H start stop key (fun _ => v) r' l p w D ∧ r'.buf = p) ∧
    (e = some .eof → Complete H start stop key v w n) := by
  have hp : r.buf ≠ [] := hb ▸ hr.ne_nil
  simp only [CacheReader.read, hr.readErr, hp, if_false] at hc
  obtain ⟨res, hl, ho⟩ : ∃ res, CacheReader.readLoop H start stop key (fun _ => v) m (readFuel m) [] r =
      some res ∧ Outcome H start stop key (fun _ => v) [] D m res :=
    Reading.loop (by simpa using hr) List.nil_prefix (Nat.zero_le m) (.inl ⟨hb, by simp [readFuel]⟩)
  rw [hl, Option.map_some, Option.some_inj] at hc
  have hprog := h.readLoop hl
  cases ho
  case more acc' r₁ l₁ p₁ w₁ hr₁ hb₁ _ _ =>
    cases hc
    refine ⟨fun _ => ?_, fun hn => (by cases hn)⟩
    cases hprog
    case inl hprog =>
      have hw : w₁ = w := Option.some_inj.mp (hr₁.version.symm.trans hprog.version)
      exact ⟨hprog, l₁, p₁, _, hw ▸ hr₁, hb₁⟩
    case inr hf =>
      obtain ⟨_, _, _, he, _⟩ := hf
      cases he
  case atEnd r₁ l₁ p₁ w₁ hr₁ hb₁ _ hd =>
    cases hc
    refine ⟨fun hn => (by cases hn), fun _ i hi => ?_⟩
    cases hprog
    case inl hprog =>
      have ht : r₁.totalLen = n := hprog.total
      refine hprog.loaded i (hr₁.index_le ?_ (ht.symm ▸ hi))
      exact (hr₁.length_delivered.symm.trans hd).symm.le
    case inr hf =>
      obtain ⟨_, _, _, he, hl⟩ := hf
      cases he
      exact absurd hl (hv _ _)
  case failed acc' r₁ r₂ l₁ p₁ w₁ e' _ _ _ _ _ hload =>
    have he : e = some e' := (congrArg (fun x : Result => x.2.1) hc).symm
    refine ⟨fun hn => ?_, fun hn => ?_⟩
    case refine_1 => cases he.symm.trans hn
    case refine_2 =>
      cases he.symm.trans hn
      exact absurd hload (hv _ _)

theorem sum_pieceLen (n k : Nat) :
    ((List.range k).map (pieceLen n)).sum = min n (k * TargetFragmentSize) := by
  have hsum (size : Nat) : ((List.range k).map fun i => min size (n - i * size)).sum = min n (k * size) := by
    induction k
    case zero => simp
    case succ k hi =>
      rw [List.range_succ, List.map_append, List.sum_append, hi, Nat.succ_mul, List.map_singleton,
        List.sum_singleton]
      omega
  exact hsum TargetFragmentSize

-- The number of fragments of an object.
def fragmentsOf (n : Nat) : Nat := max 1 ((n + TargetFragmentSize - 1) / TargetFragmentSize)

theorem lt_max_one_div {size : Nat} (hs : 0 < size) :
    i < max 1 ((n + size - 1) / size) ↔ i = 0 ∨ i * size < n := by
  rw [lt_max_iff, Nat.lt_one_iff, ← Nat.succ_le_iff, Nat.le_div_iff_mul_le hs, Nat.succ_mul]
  omega

theorem lt_fragmentsOf : i < fragmentsOf n ↔ i = 0 ∨ i * TargetFragmentSize < n :=
  lt_max_one_div (by decide)

theorem le_fragmentsOf_mul : n ≤ fragmentsOf n * TargetFragmentSize :=
  not_lt.mp fun h => lt_irrefl _ (lt_fragmentsOf.mpr (.inr h))

theorem exists_list {P : Nat → Bytes → Prop} (h : ∀ i < n, ∃ q, P i q) :
    ∃ l : List Bytes, l.length = n ∧ ∀ i q, l[i]? = some q → P i q := by
  have hdoc (i : Fin n) : ∃ q, P i q := h i i.isLt
  choose doc hdoc using hdoc
  refine ⟨List.ofFn doc, List.length_ofFn, fun i q hq => ?_⟩
  obtain ⟨hi, hq⟩ := List.getElem?_eq_some_iff.mp hq
  rw [List.length_ofFn] at hi
  rw [List.getElem_ofFn] at hq
  exact hq ▸ hdoc ⟨i, hi⟩

-- The documents of a complete object.
theorem Complete.object (h : Complete H start stop key v w n) :
    ∃ frags body info, Object H start stop key w body info frags ∧ body.length = n ∧
      frags.length = fragmentsOf n ∧ ∀ i q, frags[i]? = some q → Seen H start stop key v i q := by
  obtain ⟨frags, hlen, hfrag⟩ := exists_list fun i hi => h i (lt_fragmentsOf.mp hi)
  have hbody : (frags.flatMap payload).length = n := by
    have hmap : frags.map (fun q => (payload q).length) = (List.range (fragmentsOf n)).map (pieceLen n) := by
      refine List.ext_getElem ?_ fun i h₁ h₂ => ?_
      case refine_1 => rw [List.length_map, List.length_map, List.length_range, hlen]
      case refine_2 =>
        rw [List.length_map] at h₁
        simp only [List.getElem_map, List.getElem_range]
        exact (hfrag _ _ (List.getElem?_eq_getElem h₁)).length
    rw [List.length_flatMap, hmap, sum_pieceLen]
    exact min_eq_left le_fragmentsOf_mul
  obtain ⟨q₀, hq₀⟩ : ∃ q, frags[0]? = some q :=
    ⟨_, List.getElem?_eq_getElem (hlen.symm ▸ lt_fragmentsOf.mpr (.inl rfl))⟩
  have h₀ := hfrag 0 q₀ hq₀
  refine ⟨frags, frags.flatMap payload, metadata q₀, ?_, hbody, hlen, fun i q hq => (hfrag i q hq).seen⟩
  constructor
  case fragment => exact fun i q hq => (hfrag i q hq).fragment
  case length => exact fun i q hq => hbody.symm ▸ (hfrag i q hq).length
  case head =>
    intro q hq
    cases hq₀.symm.trans hq
    exact ⟨(h₀.head rfl).trans hbody.symm, rfl⟩
  case tail => exact fun i q hq hi => (hfrag i q hq).tail hi
  case complete => exact fun i hi => hlen.symm ▸ lt_fragmentsOf.mpr (hbody ▸ hi)
  case payloads => rfl
  case fits => exact hbody.trans (h₀.head rfl).symm ▸ h₀.fits

end Bakemono.CacheReader
