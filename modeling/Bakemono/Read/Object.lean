import Bakemono.Read.Committed

namespace Bakemono.CacheReader

variable {H : Hash} {start stop : Nat} {key : Bytes}

-- The metadata of a fragment.
def metadata (p : Bytes) : Bytes := p.slice DocHeaderSize (header p).hlen.toNat

-- The documents of one version of an object: the head knows the length of the body and holds the
-- metadata, and the fragments behind it end where their header says.
structure Object (H : Hash) (start stop : Nat) (key : Bytes) (w : UInt64) (body info : Bytes)
    (frags : List Bytes) : Prop where
  fragment : ∀ i q, frags[i]? = some q → Fragment H key i w q
  length   : ∀ i q, frags[i]? = some q → (payload q).length = pieceLen body.length i
  head     : ∀ q, frags[0]? = some q → (header q).totalLen.toNat = body.length ∧ metadata q = info
  tail     : ∀ i q, frags[i]? = some q → i ≠ 0 → (header q).hlen = 0 ∧ 0 < (payload q).length ∧
    (header q).totalLen.toNat = i * TargetFragmentSize + (payload q).length
  complete : ∀ i, i = 0 ∨ i * TargetFragmentSize < body.length → i < frags.length
  payloads : frags.flatMap payload = body
  fits     : body.length ≤ stop - start

-- Every load of a fragment finds its document, in memory or on the disk.
def Serves (H : Hash) (start stop : Nat) (key : Bytes) (env : Nat → View) (frags : List Bytes) :
    Prop :=
  ∀ j i q, frags[i]? = some q → ∃ dir ram,
    handleRead start stop (env j) (H.fragmentKey key i) i = .ok (dir, q, ram) ∧
    ∀ e, ram = some e → e = .new q

section Load

variable {env : Nat → View} {r : CacheReader} {frags : List Bytes} {body info q : Bytes} {w : UInt64}
  {i j : Nat}

theorem Object.end_le (h : Object H start stop key w body info frags) (hq : frags[i]? = some q)
    (hi : i ≠ 0) : i * TargetFragmentSize + (payload q).length ≤ body.length := by
  have ⟨_, h₀, _⟩ := h.tail i q hq hi
  have hl := h.length i q hq
  simp only [pieceLen] at hl
  omega

theorem Object.totalLen_le (h : Object H start stop key w body info frags)
    (hq : frags[i]? = some q) : (header q).totalLen.toNat ≤ body.length := by
  by_cases hi : i = 0
  case pos => exact (h.head q (hi ▸ hq)).1.le
  case neg => exact (h.tail i q hq hi).2.2.le.trans (h.end_le hq hi)

theorem Object.checkLengths (h : Object H start stop key w body info frags)
    (hq : frags[i]? = some q) (hr : r.fragmentIndex = i)
    (ht : i ≠ 0 → r.totalLen = body.length) : r.checkLengths (header q) = .ok () := by
  have hd := (h.fragment i q hq).length_payload
  have hl := h.length i q hq
  rw [checkLengths_eq_ok, hr, ← hd]
  split
  case isTrue hi =>
    rw [hl, (h.head q (hi ▸ hq)).1, hi]
    simp [pieceLen, Nat.min_comm]
  case isFalse hi =>
    obtain ⟨hh, h₀, he⟩ := h.tail i q hq hi
    rw [ht hi]
    exact ⟨h₀.ne', hh, he, h.end_le hq hi, hl⟩

theorem Object.parseDoc (h : Object H start stop key w body info frags) (hq : frags[i]? = some q)
    (hb : r.buf = q) (hi : r.fragmentIndex = i) (ht : i ≠ 0 → r.totalLen = body.length)
    (hv : ∀ w', r.version = some w' → w' = w) :
    CacheReader.parseDoc H start stop key (H.fragmentKey key i) r =
      .ok { r with version := some w, totalLen := body.length } := by
  have hf := h.fragment i q hq
  have ⟨_, hfit, _⟩ := Doc.validate_eq_ok.mp hf.valid
  have hl : DocHeaderSize ≤ q.length := by
    have := hfit.hlen
    have := hfit.size
    omega
  have hd : r.parseDocFromBuf = .ok (header q) :=
    parseDocFromBuf_eq_ok.mpr ⟨by rw [hb]; exact hl, by rw [hb]⟩
  have hc := h.checkLengths hq hi ht
  have htrim : trim q (header q).len.toNat = .ok q := by
    rw [trim_eq hfit.size, List.take_of_length_le hf.length.le]
  have htot : ¬(header q).totalLen.toNat > stop - start :=
    not_lt.mpr ((h.totalLen_le hq).trans h.fits)
  have hver : r.version.any (fun w' => decide ¬w' = w) = false := by
    cases hr : r.version
    case none => rfl
    case some w' => simp [hv w' hr]
  have hsum : (if r.fragmentIndex = 0 then (header q).totalLen.toNat else r.totalLen) =
      body.length := by
    split
    case isTrue h₀ => exact (h.head q ((hi.symm.trans h₀) ▸ hq)).1
    case isFalse h₀ => exact ht fun hc => h₀ (hi.trans hc)
  simp only [CacheReader.parseDoc, hd, hb, hf.valid, hf.identity, hf.firstKey, hc, htot, hver, htrim,
    hsum, hf.version, bind, Except.bind, pure, Except.pure, ne_eq, not_true_eq_false, or_self, if_false,
    Bool.false_eq_true]

-- The loads of an object that is served succeed.
theorem Object.load (h : Object H start stop key w body info frags)
    (hs : Serves H start stop key env frags) (hq : frags[i]? = some q)
    (ht : i ≠ 0 → r.totalLen = body.length) (hv : ∀ w', r.version = some w' → w' = w) (j : Nat) :
    ∃ r', r.load H start stop key (env j) i = .ok r' ∧ r'.buf = q ∧ r'.version = some w ∧
      r'.info = r.info ∧ ∀ e, r'.ram = some e → e = .new q := by
  have ⟨dir, ram, hr, he⟩ := hs j i q hq
  refine ⟨{ r with
    fragmentIndex := i, loads := r.loads + 1, version := some w, totalLen := body.length
    buf := q, dir, ram }, ?_, rfl, rfl, rfl, he⟩
  simp only [CacheReader.load, hr, bind, Except.bind]
  exact h.parseDoc (r := { r with
    fragmentIndex := i, loads := r.loads + 1, dir, buf := q, ram }) hq rfl rfl ht hv

end Load

section Info

variable {r : CacheReader} {q : Bytes} {w : UInt64} {i : Nat}

-- The metadata of a document, which may be absent.
def infoOf (p : Bytes) : Except Err CacheHTTPInfo :=
  if (header p).hlen = 0 then .ok .new else CacheHTTPInfo.unmarshal (metadata p)

theorem Fragment.size (h : Fragment H key i w q) :
    DocHeaderSize + (header q).hlen.toNat ≤ q.length := by
  have ⟨_, hf, _⟩ := Doc.validate_eq_ok.mp h.valid
  have := hf.hlen
  have := hf.size
  omega

theorem Fragment.decode (h : Fragment H key i w q) (hb : r.buf = q) :
    parseInfo.decode r (header q) = infoOf q := by
  have hl := h.size
  have hs : Bytes.slice q DocHeaderSize
      (DocHeaderSize + (header q).hlen.toNat - DocHeaderSize) = metadata q := by
    rw [Nat.add_sub_cancel_left, metadata]
  simp only [parseInfo.decode, infoOf, hb, hl, if_true, slice, Nat.le_add_right, and_self, hs, bind,
    Except.bind]

-- What was decoded when a document was stored in memory is what decoding it now gives.
theorem infoOf_ramEntry {info : CacheHTTPInfo} (h : (RamEntry.new q).info = some info) :
    infoOf q = .ok info := by
  unfold RamEntry.new at h
  split at h
  case isTrue => cases h
  case isFalse =>
    dsimp only at h
    split at h
    case isTrue => cases h
    case isFalse hn =>
      push Not at hn
      have hh : Doc.unmarshal (q.take DocHeaderSize) = header q := rfl
      rw [hh] at h hn
      split at h
      case h_1 => cases h
      case h_2 info' he =>
        rw [infoOf, if_neg hn.2.1]
        split at h
        case isTrue => cases h
        case isFalse => exact Option.some_inj.mp h ▸ he

theorem Fragment.parseInfo (h : Fragment H key i w q) (hb : r.buf = q)
    (hr : ∀ e, r.ram = some e → e = .new q) : r.parseInfo = infoOf q := by
  have hd : r.parseDocFromBuf = .ok (header q) :=
    parseDocFromBuf_eq_ok.mpr ⟨by rw [hb]; exact Nat.le_of_add_right_le h.size, by rw [hb]⟩
  simp only [CacheReader.parseInfo, hd, bind, Except.bind, pure, Except.pure]
  split
  case h_1 info sum _ _ he =>
    rw [h.decode hb]
    split
    case isTrue => exact (infoOf_ramEntry (by rw [← hr _ he])).symm
    case isFalse => rfl
  case h_2 => exact h.decode hb

end Info

section Calls

variable {env : Nat → View} {r : CacheReader} {l frags : List Bytes} {body info p q D : Bytes}
  {w w' : UInt64} {i j n : Nat}

theorem Object.of_seen (h : Object H start stop key w body info frags)
    (hs : Serves H start stop key env frags) (hf : Fragment H key i w' q)
    (hq : Seen H start stop key (env j) i q) (hi : i < frags.length) : frags[i]? = some q := by
  have ⟨q', hq'⟩ : ∃ q', frags[i]? = some q' := ⟨_, List.getElem?_eq_getElem hi⟩
  have ⟨_, _, _, hr, hp⟩ := hq
  have ⟨_, _, hr', _⟩ := hs j i q' hq'
  cases hr.symm.trans hr'
  have hh : header q = header q' := by
    rw [List.prefix_iff_eq_take.mp hp, header_take (Nat.le_of_add_right_le hf.size)]
  have hl : q.length = q'.length := by
    rw [hf.length, (h.fragment i q' hq').length, hh]
  exact hq'.trans (congrArg some (hp.eq_of_length hl).symm)

-- A reader of a served object is inside of one of its documents.
theorem Reading.object (h : Reading H start stop key env r l p w' D)
    (ho : Object H start stop key w body info frags) (hs : Serves H start stop key env frags) :
    w' = w ∧ r.totalLen = body.length ∧ l ++ [p] <+: frags := by
  have hfrag {i q} (hq : (l ++ [p])[i]? = some q) (hi : i < frags.length) : frags[i]? = some q := by
    have ⟨hf, j, hs'⟩ := h.fragments hq
    exact ho.of_seen hs hf hs' hi
  have ⟨q, hq⟩ : ∃ q, (l ++ [p])[0]? = some q := ⟨_, List.getElem?_eq_getElem (by simp)⟩
  have hq' := hfrag hq (ho.complete 0 (.inl rfl))
  have ht : r.totalLen = body.length :=
    (h.head q (List.head?_eq_getElem? ▸ hq)).symm.trans (ho.head q hq').1
  refine ⟨(h.fragments hq).1.version.symm.trans (ho.fragment 0 q hq').version, ht, ?_⟩
  refine List.prefix_iff_getElem?.mpr fun i hi => ?_
  refine hfrag (List.getElem?_eq_getElem hi) (ho.complete i ?_)
  have hi : i ≤ r.fragmentIndex := by
    have := h.index
    simp only [List.length_append, List.length_singleton] at hi
    omega
  cases h.bound
  case inl h₀ => exact .inl (by omega)
  case inr hlt => exact .inr <| ht ▸ (Nat.mul_le_mul_right _ hi).trans_lt hlt

-- A reader of a served object between two calls.
inductive Between (H : Hash) (start stop : Nat) (key : Bytes) (env : Nat → View) :
    CacheReader → Bytes → Prop
  | fresh {r : CacheReader} :
    (r.readErr = none) → (r.version = none) → (r.buf = []) → (r.offset = 0) → (r.totalRead = 0) →
    Between H start stop key env r []
  | reading {r : CacheReader} {l : List Bytes} {p D : Bytes} {w : UInt64} :
    (Reading H start stop key env r l p w D) → (r.buf = p) → Between H start stop key env r D

-- What a call for `n` bytes returns while the bytes `rest` have not been delivered.
def next (rest : Bytes) (n : Nat) : Bytes × Option Err :=
  (rest.take n, if rest = [] then some .eof else none)

theorem Outcome.next {rest : Bytes} {res : Result} {frags' : List Bytes}
    (h : Outcome H start stop key env frags' D n res)
    (ho : Object H start stop key w body info frags) (hs : Serves H start stop key env frags)
    (hb : D ++ rest = body) (hn : 0 < n) :
    ∃ r, deferred res = ((next rest n).1, (next rest n).2, r) ∧
      Between H start stop key env r (D ++ rest.take n) := by
  cases h
  case more acc r l p w' hr hbuf _ hacc =>
    obtain ⟨_, ht, hp⟩ := hr.object ho hs
    have hpre : acc <+: rest := by
      have hp := hr.prefix_payloads.trans (ho.payloads ▸ hp.flatMap payload)
      exact (List.prefix_append_right_inj D).mp (hb.symm ▸ hp)
    have hrest : rest ≠ [] := by
      rintro rfl
      have : acc = [] := List.prefix_nil.mp hpre
      simp [this, hn.ne] at hacc
    have hacc : acc = rest.take n := by
      cases hacc
      case inl hl => exact hl ▸ List.prefix_iff_eq_take.mp hpre
      case inr hl =>
        have : acc.length = rest.length := by
          have := hl.2.2
          simp only [ht, ← hb, List.length_append] at this
          omega
        rw [hpre.eq_of_length this, List.take_of_length_le (this ▸ hl.2.1)]
    refine ⟨r, ?_, .reading (hacc ▸ hr) hbuf⟩
    simp [deferred, CacheReader.next, hrest, hacc]
  case atEnd r l p w' hr hbuf _ hd =>
    obtain ⟨_, ht, _⟩ := hr.object ho hs
    have hrest : rest = [] := by
      simp only [ht, ← hb, List.length_append] at hd
      exact List.eq_nil_of_length_eq_zero (by omega)
    subst hrest
    refine ⟨r, by simp [deferred, CacheReader.next], ?_⟩
    simpa using Between.reading hr hbuf
  case failed acc r r' l p w' e hr hf hoff hlt _ hl =>
    -- There is another fragment, and its load succeeds.
    obtain ⟨hw, ht, _⟩ := hr.object ho hs
    have hi : (r.fragmentIndex + 1) * TargetFragmentSize < body.length := by
      have h₁ := hr.read
      have h₂ := hr.length
      rw [← ht, Nat.succ_mul]
      simp only [pieceLen] at h₂
      omega
    have hi := ho.complete (r.fragmentIndex + 1) (.inr hi)
    have hv : ∀ w₁, r.version = some w₁ → w₁ = w := fun w₁ h₁ =>
      (Option.some_inj.mp (h₁.symm.trans hr.version)).trans hw
    obtain ⟨_, hl', _⟩ := ho.load hs (List.getElem?_eq_getElem hi) (fun _ => ht) hv r.loads
    cases hl.symm.trans hl'

theorem Reading.next_read {rest : Bytes} (h : Reading H start stop key env r l p w' D)
    (hbuf : r.buf = p) (ho : Object H start stop key w body info frags)
    (hs : Serves H start stop key env frags) (hb : D ++ rest = body) (hn : 0 < n) :
    ∃ r', (readLoop H start stop key env n (readFuel n) [] r).map deferred =
        some ((CacheReader.next rest n).1, (CacheReader.next rest n).2, r') ∧
      Between H start stop key env r' (D ++ rest.take n) := by
  obtain ⟨res, hres, hout⟩ : ∃ res, readLoop H start stop key env n (readFuel n) [] r = some res ∧
      Outcome H start stop key env [] D n res :=
    Reading.loop (by simpa using h) List.nil_prefix (Nat.zero_le n) (.inl ⟨hbuf, by simp [readFuel]⟩)
  obtain ⟨r', hd, hbt⟩ := hout.next ho hs hb hn
  exact ⟨r', by rw [hres, Option.map_some, hd], hbt⟩

theorem Between.read {rest : Bytes} (h : Between H start stop key env r D)
    (ho : Object H start stop key w body info frags) (hs : Serves H start stop key env frags)
    (hb : D ++ rest = body) (hn : 0 < n) :
    ∃ r', r.read H start stop key env n =
        some ((CacheReader.next rest n).1, (CacheReader.next rest n).2, r') ∧
      Between H start stop key env r' (D ++ rest.take n) := by
  cases h
  case fresh hr hv hbuf hoff ht =>
    have h₀ := ho.complete 0 (.inl rfl)
    have ⟨r', hl, _⟩ := ho.load (r := r) hs (List.getElem?_eq_getElem h₀) (absurd rfl)
      (fun w' hw => nomatch hv.symm.trans hw) r.loads
    have ⟨w', hloads⟩ := load_eq_ok hl
    simp only [CacheReader.read, hr, hbuf, if_true, hl]
    exact (hloads.reading hr hoff ht).next_read rfl ho hs hb hn
  case reading l p w' hbuf h =>
    have hp : r.buf ≠ [] := hbuf ▸ h.ne_nil
    simp only [CacheReader.read, h.readErr, hp, if_false]
    exact h.next_read hbuf ho hs hb hn

-- What calls with buffers of the given sizes return.
def chunks (rest : Bytes) : List Nat → List (Bytes × Option Err)
  | []         => []
  | n :: sizes => next rest n :: chunks (rest.drop n) sizes

theorem Between.readCalls {rest : Bytes} (h : Between H start stop key env r D)
    (ho : Object H start stop key w body info frags) (hs : Serves H start stop key env frags)
    (hb : D ++ rest = body) {sizes : List Nat} (hn : ∀ n ∈ sizes, 0 < n) :
    CacheReader.readCalls H start stop key env sizes r = some (chunks rest sizes) := by
  induction sizes generalizing r D rest
  case nil => rfl
  case cons n sizes hi =>
    have ⟨r', hr, h'⟩ := h.read ho hs hb (hn n List.mem_cons_self)
    have hb' : D ++ rest.take n ++ rest.drop n = body := by
      rw [List.append_assoc, List.take_append_drop, hb]
    have := hi h' hb' fun m hm => hn m (List.mem_cons_of_mem n hm)
    simp [CacheReader.readCalls, hr, this, chunks]

-- A reader of a served object that has only been asked for its metadata.
structure Asked (H : Hash) (start stop : Nat) (key : Bytes) (env : Nat → View) (w : UInt64)
    (q : Bytes) (r : CacheReader) : Prop where
  between : Between H start stop key env r []
  start   : r.readErr = none ∧ r.offset = 0 ∧ r.totalRead = 0
  version : ∀ w', r.version = some w' → w' = w
  info    : ∀ info, r.info = some info → infoOf q = .ok info

theorem Asked.loadHTTPInfo (h : Asked H start stop key env w q r)
    (ho : Object H start stop key w body info frags) (hs : Serves H start stop key env frags)
    (hq : frags[0]? = some q) :
    (r.loadHTTPInfo H start stop key env).1 = infoOf q ∧
    Asked H start stop key env w q (r.loadHTTPInfo H start stop key env).2 := by
  obtain ⟨hr, hoff, ht⟩ := h.start
  cases hi : r.info
  case some info => simpa [CacheReader.loadHTTPInfo, hr, hi, h.info info hi] using h
  case none =>
    obtain ⟨r', hl, hb, hv, hi', he⟩ := ho.load (r := r) hs hq (absurd rfl) h.version r.loads
    obtain ⟨w', hloads⟩ := load_eq_ok hl
    have hreading := hloads.reading hr hoff ht
    have hstart := And.intro (hloads.readErr.trans hr) <|
      And.intro (hloads.offset.trans hoff) (hloads.read.trans ht)
    have hv : ∀ w', r'.version = some w' → w' = w := fun w' h =>
      Option.some_inj.mp (h.symm.trans hv)
    simp only [CacheReader.loadHTTPInfo, hr, hi, hl, (ho.fragment 0 q hq).parseInfo hb he]
    cases hinfo : infoOf q
    case error e =>
      exact ⟨rfl, .reading hreading rfl, hstart, hv, fun _ h => absurd ((hi'.trans hi).symm.trans h) (by simp)⟩
    case ok info =>
      refine ⟨rfl, .reading (r := { r' with info := some info }) { hreading with } rfl, hstart, hv, ?_⟩
      exact fun info' h => hinfo.trans (congrArg _ (Option.some_inj.mp h))

theorem asked_infoCalls (ho : Object H start stop key w body info frags)
    (hs : Serves H start stop key env frags) (hq : frags[0]? = some q) (k : Nat) :
    Asked H start stop key env w q (infoCalls H start stop key env k) := by
  induction k
  case zero =>
    exact ⟨.fresh rfl rfl rfl rfl rfl, ⟨rfl, rfl, rfl⟩, nofun, nofun⟩
  case succ k hi => exact (hi.loadHTTPInfo ho hs hq).2

end Calls

end Bakemono.CacheReader
