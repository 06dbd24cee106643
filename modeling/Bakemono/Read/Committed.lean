import Bakemono.Read.Reader

namespace Bakemono.CacheReader

variable {H : Hash} {start stop : Nat} {key : Bytes}

def header (p : Bytes) : Doc := .unmarshal (p.take DocHeaderSize)

-- The data of a fragment.
def payload (p : Bytes) : Bytes := p.drop (DocHeaderSize + (header p).hlen.toNat)

-- The bytes are those of a fragment of the object, written by the given writer.
structure Fragment (H : Hash) (key : Bytes) (index : Nat) (version : UInt64) (p : Bytes) : Prop where
  valid    : (header p).validate H p = .ok ()
  identity : (header p).key = H.docKey (H.fragmentKey key index)
  firstKey : (header p).firstKey = H.docKey key
  version  : (header p).version = version
  length   : p.length = (header p).len.toNat

-- The bytes are what a load of the fragment finds in a state of the stripe.
def Seen (H : Hash) (start stop : Nat) (key : Bytes) (v : View) (index : Nat) (p : Bytes) : Prop :=
  ∃ dir buf ram, handleRead start stop v (H.fragmentKey key index) index = .ok (dir, buf, ram) ∧
    p <+: buf

-- How much of an object is in the fragment with the given index.
def pieceLen (totalLen index : Nat) : Nat :=
  min TargetFragmentSize (totalLen - index * TargetFragmentSize)

section Load

variable {v : View} {d : Dir} {index : Nat} {r r' : CacheReader} {doc : Doc} {e : Err}

theorem Fragment.length_payload {version : UInt64} {p : Bytes} (h : Fragment H key index version p) :
    (payload p).length = (header p).dataLen.toNat := by
  have ⟨_, hf, _⟩ := Doc.validate_eq_ok.mp h.valid
  rw [payload, List.length_drop, h.length, Doc.dataLen_toNat hf.hlen, Nat.sub_sub]

-- A fragment is not the beginning of another document.
theorem Fragment.eq_of_prefix {i : Nat} {w : UInt64} {p q : Bytes} (h : Fragment H key i w p)
    (hq : q.length = (header q).len.toNat) (hp : p <+: q) : p = q := by
  have ⟨_, hf, _⟩ := Doc.validate_eq_ok.mp h.valid
  have hl : DocHeaderSize ≤ p.length := by
    have := hf.hlen
    have := h.length
    omega
  have hh : header p = header q := by
    rw [header, header]
    congr 1
    have ⟨r, hr⟩ := hp
    rw [← hr, List.take_append_of_le_length hl]
  exact hp.eq_of_length (by rw [h.length, hq, hh])

theorem parseDocFromBuf_eq_ok :
    r.parseDocFromBuf = .ok doc ↔ DocHeaderSize ≤ r.buf.length ∧ doc = header r.buf := by
  simp only [parseDocFromBuf, Except.check_bind_eq_ok, not_lt]
  refine and_congr_right fun h => ?_
  simp [slice, Bytes.slice, h, header, bind, Except.bind, pure, Except.pure, eq_comm]

-- Cutting off what follows the document does not change it.
theorem header_take {p : Bytes} {n : Nat} (h : DocHeaderSize ≤ n) : header (p.take n) = header p := by
  simp [header, List.take_take, Nat.min_eq_left h]

theorem validate_take {p : Bytes} (h : doc.validate H p = .ok ()) :
    doc.validate H (p.take doc.len.toNat) = .ok () := by
  have ⟨hs, hf, hc⟩ := Doc.validate_eq_ok.mp h
  have hl : (p.take doc.len.toNat).length = doc.len.toNat := by
    simpa using hf.size
  refine Doc.validate_eq_ok.mpr ⟨hs, ⟨hf.max, hl.ge, hf.hlen, hf.data⟩, hc.trans ?_⟩
  have := hf.size
  have := hf.hlen
  have ht : (p.drop DocHeaderSize).take (doc.len.toNat - DocHeaderSize) =
      ((p.take doc.len.toNat).drop DocHeaderSize).take (doc.len.toNat - DocHeaderSize) := by
    rw [List.drop_take, List.take_take, Nat.min_self]
  rw [Doc.calculateChecksum, Doc.calculateChecksum, if_neg, if_neg, ht]
  all_goals simp only [List.length_drop, hl]; omega

theorem trim_eq {p : Bytes} {n : Nat} (h : n ≤ p.length) : trim p n = .ok (p.take n) := by
  unfold trim
  split
  case isTrue hlt => simp [slice, Bytes.slice, h]
  case isFalse hlt => rw [List.take_of_length_le (by omega)]

theorem checkLengths_eq_ok : r.checkLengths doc = .ok () ↔
    if r.fragmentIndex = 0 then
      doc.dataLen.toNat = min doc.totalLen.toNat TargetFragmentSize
    else
      doc.dataLen.toNat ≠ 0 ∧ doc.hlen = 0 ∧
      doc.totalLen.toNat = r.fragmentIndex * TargetFragmentSize + doc.dataLen.toNat ∧
      r.fragmentIndex * TargetFragmentSize + doc.dataLen.toNat ≤ r.totalLen ∧
      doc.dataLen.toNat = pieceLen r.totalLen r.fragmentIndex := by
  simp only [checkLengths, pieceLen]
  by_cases h : r.fragmentIndex = 0
  case pos => simp [h, pure, Except.pure]
  case neg =>
    simp only [h, if_false, Except.check_bind_eq_ok, Except.check_eq_ok, pure, Except.pure]
    grind

-- What a successful load of a fragment by a given writer does to a reader.
structure Loads (H : Hash) (start stop : Nat) (key : Bytes) (v : View) (r : CacheReader) (i : Nat)
    (w : UInt64) (r' : CacheReader) : Prop where
  fragment : Fragment H key i w r'.buf
  seen     : Seen H start stop key v i r'.buf
  version  : r'.version = some w
  same     : ∀ w', r.version = some w' → w' = w
  index    : r'.fragmentIndex = i
  offset   : r'.offset = r.offset
  read     : r'.totalRead = r.totalRead
  readErr  : r'.readErr = r.readErr
  total    : r'.totalLen = if i = 0 then (header r'.buf).totalLen.toNat else r.totalLen
  length   : (payload r'.buf).length = pieceLen r'.totalLen i
  tail     : i ≠ 0 → 0 < (payload r'.buf).length ∧
    i * TargetFragmentSize + (payload r'.buf).length ≤ r.totalLen

theorem parseDoc_eq_ok
    (h : parseDoc H start stop key (H.fragmentKey key r.fragmentIndex) r = .ok r')
    (hs : ∀ p, p <+: r.buf → Seen H start stop key v r.fragmentIndex p) :
    ∃ version, Loads H start stop key v r r.fragmentIndex version r' := by
  simp only [parseDoc, Except.bind_eq_ok, parseDocFromBuf_eq_ok, Except.check_bind_eq_ok] at h
  have ⟨doc, ⟨hl, hd⟩, _, hv, hi, ht, _, hc, hw, buf, hb, he⟩ := h
  have ⟨_, hf, _⟩ := Doc.validate_eq_ok.mp hv
  have hb := (Except.ok.inj <| (trim_eq hf.size).symm.trans hb).symm
  have hh : header buf = doc := by
    rw [hb, header_take (by have := hf.hlen; omega), hd]
  have hb' : Fragment H key r.fragmentIndex doc.version buf := by
    push Not at hi
    constructor
    case valid    => rw [hh, hb]; exact validate_take hv
    case identity => rw [hh]; exact hi.1
    case firstKey => rw [hh]; exact hi.2
    case version  => rw [hh]
    case length   => rw [hh, hb, List.length_take, Nat.min_eq_left hf.size]
  have hp := hh ▸ hb'.length_payload
  rw [checkLengths_eq_ok, ← hp] at hc
  cases he
  have hs := hs buf (hb ▸ List.take_prefix _ _)
  refine ⟨doc.version, hb', hs, rfl, ?_, rfl, rfl, rfl, rfl, by rw [hh], ?_, fun h₀ => ?_⟩
  case refine_1 =>
    intro w hr
    simpa [hr] using hw
  case refine_2 =>
    by_cases h₀ : r.fragmentIndex = 0
    case pos => simpa [h₀, pieceLen, Nat.min_comm] using hc
    case neg => simp_all
  case refine_3 =>
    rw [if_neg h₀] at hc
    exact ⟨Nat.pos_of_ne_zero hc.1, hc.2.2.2.1⟩

theorem load_eq_ok (h : r.load H start stop key v index = .ok r') :
    ∃ w, Loads H start stop key v r index w r' := by
  simp only [load, Except.bind_eq_ok] at h
  obtain ⟨⟨dir, buf, ram⟩, hr, h⟩ := h
  obtain ⟨w, hl⟩ := parseDoc_eq_ok (r := { r with
    fragmentIndex := index, loads := r.loads + 1, dir, buf, ram }) h fun p hp => ⟨_, _, _, hr, hp⟩
  exact ⟨w, hl.fragment, hl.seen, hl.version, hl.same, hl.index, hl.offset, hl.read, hl.readErr, hl.total,
    hl.length, hl.tail⟩

end Load

section Errors

open Except (Avoids)

variable {v : View} {d : Dir} {index : Nat} {r : CacheReader} {doc : Doc} {e : Err} {p : Bytes}

-- The errors of a load itself have a text, or say that something is missing.
structure Foreign (e : Err) : Prop where
  closed      : .cacheClosed ≠ e
  notResident : ∀ s, .notResident s ≠ e
  other       : ∀ s, .other s ≠ e

theorem avoids_loadFromDisk (hv : v.Never e) (he : Foreign e) :
    Avoids e (loadFromDisk stop v d) := by
  apply Avoids.bind (hv.readAt _ _)
  intro header _
  apply Avoids.check (he.other _)
  intro _
  exact hv.readAt _ _

theorem avoids_handleRead (hv : v.Never e) (he : Foreign e) :
    Avoids e (handleRead start stop v key index) := by
  simp only [handleRead]
  cases hs : v.storageErr
  case some e' =>
    apply Avoids.bind (.throw _) (by simp)
    intro h
    exact hv.storageErr (h ▸ hs)
  case none =>
    apply Avoids.check he.closed
    intro _
    cases v.get key
    case none => exact .throw (he.notResident _)
    case some d =>
      apply Avoids.check (he.other _)
      intro _
      apply Avoids.check (he.notResident _)
      intro _
      cases v.ram key
      case some => exact .ok
      case none => exact .bind (avoids_loadFromDisk hv he) fun _ _ => .ok

theorem avoids_validate (he : Foreign e) : Avoids e (doc.validate H p) := by
  simp only [Doc.validate]
  apply Avoids.check (he.other _)
  intro _
  apply Avoids.check (he.other _)
  intro h
  have hf := Doc.fits_iff.mpr h
  have := hf.size
  have := hf.hlen
  apply Avoids.bind
  case hx =>
    rw [slice, if_pos (by omega)]
    exact .ok
  case hf =>
    intro _ _
    exact .ite (fun _ => .throw (he.other _)) fun _ => .ok

theorem avoids_checkLengths (he : Foreign e) : Avoids e (r.checkLengths doc) := by
  simp only [checkLengths]
  apply Avoids.ite
  case hx =>
    intro _
    exact .ite (fun _ => .throw (he.other _)) fun _ => .ok
  case hy =>
    intro _
    apply Avoids.check (he.other _)
    intro _
    exact .ite (fun _ => .throw (he.other _)) fun _ => .ok

theorem avoids_parseDocFromBuf (he : Foreign e) : Avoids e r.parseDocFromBuf := by
  apply Avoids.check (he.other _)
  intro h
  apply Avoids.bind _ fun _ _ => .ok
  rw [slice, if_pos (by omega)]
  exact .ok

theorem avoids_load (hv : Spares H start stop key v e) (he : Foreign e) :
    Avoids e (r.load H start stop key v index) := by
  apply Avoids.bind (hv index)
  intro _ _
  apply Avoids.bind (avoids_parseDocFromBuf he)
  intro doc _
  apply Avoids.bind (avoids_validate he)
  intro _ hval
  apply Avoids.check (he.other _)
  intro _
  apply Avoids.check (he.other _)
  intro _
  apply Avoids.bind (avoids_checkLengths he)
  intro _ _
  apply Avoids.check (he.other _)
  intro _
  have hf := (Doc.validate_eq_ok.mp hval).2.1
  exact .bind (trim_eq hf.size ▸ .ok) fun _ _ => .ok

theorem foreign_panic : Foreign .panic := ⟨nofun, nofun, nofun⟩

theorem foreign_eof : Foreign .eof := ⟨nofun, nofun, nofun⟩

theorem load_ne_panic (v : View) (index : Nat) (r : CacheReader) :
    r.load H start stop key v index ≠ .error .panic :=
  avoids_load (fun _ => avoids_handleRead ⟨v.no_panic.1, v.no_panic.2⟩ foreign_panic) foreign_panic

end Errors

section Loop

variable {env : Nat → View} {n fuel j : Nat} {r r' : CacheReader} {l : List Bytes} {p acc D : Bytes}
  {w : UInt64}

-- The reader is inside of the fragment `p` after the fragments `l` and has delivered the bytes `D`.
structure Reading (H : Hash) (start stop : Nat) (key : Bytes) (env : Nat → View) (r : CacheReader)
    (l : List Bytes) (p : Bytes) (w : UInt64) (D : Bytes) : Prop where
  index     : l.length = r.fragmentIndex
  full      : ∀ i q, l[i]? = some q → Fragment H key i w q ∧
    (∃ j, Seen H start stop key (env j) i q) ∧ (payload q).length = TargetFragmentSize
  fragment  : Fragment H key r.fragmentIndex w p
  seen      : ∃ j, Seen H start stop key (env j) r.fragmentIndex p
  length    : (payload p).length = pieceLen r.totalLen r.fragmentIndex
  head      : ∀ q, (l ++ [p]).head? = some q → (header q).totalLen.toNat = r.totalLen
  version   : r.version = some w
  readErr   : r.readErr = none
  bound     : r.fragmentIndex = 0 ∨ r.fragmentIndex * TargetFragmentSize < r.totalLen
  offset    : r.offset ≤ (payload p).length
  read      : r.totalRead = r.fragmentIndex * TargetFragmentSize + r.offset
  delivered : D = l.flatMap payload ++ (payload p).take r.offset

theorem length_flatMap_payload
    (h : ∀ (i : Nat) q, l[i]? = some q → (payload q).length = TargetFragmentSize) :
    (l.flatMap payload).length = l.length * TargetFragmentSize := by
  rw [Bytes.length_flatMap (n := TargetFragmentSize), Nat.mul_comm]
  intro q hq
  have ⟨i, hi⟩ := List.mem_iff_getElem?.mp hq
  exact h i q hi

theorem Reading.length_delivered (h : Reading H start stop key env r l p w D) :
    D.length = r.totalRead := by
  rw [h.delivered, List.length_append, length_flatMap_payload fun i q hq => (h.full i q hq).2.2,
    List.length_take, Nat.min_eq_left h.offset, h.index, h.read]

theorem Reading.totalRead_le (h : Reading H start stop key env r l p w D) :
    r.totalRead ≤ r.totalLen := by
  have := h.offset
  have : r.fragmentIndex * TargetFragmentSize ≤ r.totalLen := by
    cases h.bound
    case inl h₀ => simp [h₀]
    case inr hlt => exact hlt.le
  have := h.read
  have := h.length
  simp only [pieceLen] at this
  omega

theorem Reading.size (h : Reading H start stop key env r l p w D) :
    p.length = DocHeaderSize + (header p).hlen.toNat + (payload p).length := by
  have ⟨_, hf, _⟩ := Doc.validate_eq_ok.mp h.fragment.valid
  have := hf.hlen
  have := h.fragment.length
  rw [h.fragment.length_payload, Doc.dataLen_toNat hf.hlen]
  omega

theorem Reading.ne_nil (h : Reading H start stop key env r l p w D) : p ≠ [] := by
  have := h.size
  simp only [DocHeaderSize] at this
  exact List.ne_nil_of_length_pos (by omega)

theorem Reading.advance (h : Reading H start stop key env r l p w (D ++ acc)) {m : Nat}
    (hm : r.offset + m ≤ (payload p).length) :
    Reading H start stop key env { r with offset := r.offset + m, totalRead := r.totalRead + m } l p w
      (D ++ (acc ++ (payload p).slice r.offset m)) :=
  { h with
    offset    := hm
    read      := by
      have := h.read
      show r.totalRead + m = r.fragmentIndex * TargetFragmentSize + (r.offset + m)
      omega
    delivered := by
      rw [← List.append_assoc, h.delivered, List.append_assoc, List.take_add]
      rfl }

-- The next fragment follows one that is full.
theorem Reading.next (h : Reading H start stop key env r l p w D)
    (hd : r.offset = (payload p).length) (ht : r.totalRead < r.totalLen) {w' : UInt64}
    (hl : Loads H start stop key (env j) r (r.fragmentIndex + 1) w' r') :
    Reading H start stop key env { r' with offset := 0 } (l ++ [p]) r'.buf w D ∧
      0 < (payload r'.buf).length := by
  have hw := hl.same w h.version
  have hp : (payload p).length = TargetFragmentSize := by
    have h₁ := h.read
    have h₂ := h.length
    rw [hd] at h₁
    simp only [pieceLen] at h₂
    omega
  have htot : r'.totalLen = r.totalLen := by simpa using hl.total
  have hr := h.read
  refine ⟨?_, (hl.tail (by omega)).1⟩
  constructor
  case index => simp [hl.index, h.index]
  case full =>
    intro i q hq
    rw [List.getElem?_append] at hq
    split at hq
    case isTrue => exact h.full i q hq
    case isFalse hi =>
      have ⟨h₀, hq⟩ := List.getElem?_eq_some_iff.mp hq
      have hi : i = r.fragmentIndex := by
        have := h.index
        simp only [List.length_singleton] at h₀
        omega
      have hq : q = p := by simpa using hq.symm
      exact hq ▸ hi ▸ ⟨h.fragment, h.seen, hp⟩
  case fragment => exact hl.index.symm ▸ hw ▸ hl.fragment
  case seen => exact hl.index.symm ▸ ⟨j, hl.seen⟩
  case length => exact hl.index.symm ▸ hl.length
  case head =>
    intro q hq
    rw [List.head?_append_of_ne_nil _ (by simp)] at hq
    exact (h.head q hq).trans htot.symm
  case version => exact hw ▸ hl.version
  case readErr => exact hl.readErr.trans h.readErr
  case bound =>
    have := hl.tail (by omega)
    refine .inr ?_
    show r'.fragmentIndex * TargetFragmentSize < r'.totalLen
    rw [hl.index, htot]
    omega
  case offset => exact Nat.zero_le _
  case read =>
    show r'.totalRead = r'.fragmentIndex * TargetFragmentSize + 0
    rw [hl.index, hl.read, Nat.succ_mul]
    omega
  case delivered => simp [h.delivered, hd]

-- The second half of an iteration either has nothing to copy or copies at least one byte.
theorem Reading.copy (h : Reading H start stop key env r l p w D) (hb : r.buf = p)
    (hn : acc.length < n) (next : Bytes → CacheReader → Option Result) :
    (r.offset = (payload p).length ∧ copy n acc r next =
      if r.totalLen ≤ r.totalRead then some (atEnd acc r) else next acc { r with buf := [] }) ∨
    ∃ m, 0 < m ∧ m ≤ n - acc.length ∧ r.offset + m ≤ (payload p).length ∧ copy n acc r next =
      next (acc ++ (payload p).slice r.offset m)
        { r with offset := r.offset + m, totalRead := r.totalRead + m } := by
  have hs := h.size
  have ho := h.offset
  have hd : r.parseDocFromBuf = .ok (header p) :=
    parseDocFromBuf_eq_ok.mpr ⟨by rw [hb]; omega, by rw [hb]⟩
  simp only [CacheReader.copy, hd, hb]
  split
  case isTrue hle => exact .inl ⟨by omega, rfl⟩
  case isFalse hle =>
    let m := min (n - acc.length) (p.length - (DocHeaderSize + (header p).hlen.toNat + r.offset))
    have hp : p.slice (DocHeaderSize + (header p).hlen.toNat + r.offset) m =
        (payload p).slice r.offset m := by
      simp [Bytes.slice, payload, List.drop_drop]
    have hm : r.offset + m ≤ (payload p).length := by omega
    have hlen : ((payload p).slice r.offset m).length = m := by
      simp only [Bytes.length_slice]
      omega
    refine .inr ⟨m, by omega, by omega, hm, ?_⟩
    rw [slice, if_pos (by omega), Nat.add_sub_cancel_left, hp]
    simp only [hlen]

-- The result of a call for `n` bytes that started after `D` had been delivered from the given
-- fragments.
inductive Outcome (H : Hash) (start stop : Nat) (key : Bytes) (env : Nat → View)
    (frags : List Bytes) (D : Bytes) (n : Nat) : Result → Prop
  | more {acc : Bytes} {r : CacheReader} {l : List Bytes} {p : Bytes} {w : UInt64} :
    (Reading H start stop key env r l p w (D ++ acc)) → (r.buf = p) → (frags <+: l ++ [p]) →
    (acc.length = n ∨ acc ≠ [] ∧ acc.length ≤ n ∧ (D ++ acc).length = r.totalLen) →
    Outcome H start stop key env frags D n (acc, none, r)
  | atEnd {r : CacheReader} {l : List Bytes} {p : Bytes} {w : UInt64} :
    (Reading H start stop key env r l p w D) → (r.buf = p) → (frags <+: l ++ [p]) →
    (D.length = r.totalLen) → Outcome H start stop key env frags D n ([], some .eof, r)
  | failed {acc : Bytes} {r r' : CacheReader} {l : List Bytes} {p : Bytes} {w : UInt64} {e : Err} :
    (Reading H start stop key env r l p w (D ++ acc)) → (frags <+: l ++ [p]) →
    (r.offset = (payload p).length) → (r.totalRead < r.totalLen) → (r'.readErr = some e) →
    (r.load H start stop key (env r.loads) (r.fragmentIndex + 1) = .error e) →
    Outcome H start stop key env frags D n (acc, some e, r')

theorem Reading.atEnd {frags : List Bytes} (h : Reading H start stop key env r l p w (D ++ acc))
    (hb : r.buf = p) (hf : frags <+: l ++ [p]) (ht : r.totalLen ≤ r.totalRead)
    (hn : acc.length ≤ n) : Outcome H start stop key env frags D n (CacheReader.atEnd acc r) := by
  have hl : (D ++ acc).length = r.totalLen :=
    h.length_delivered.trans (le_antisymm h.totalRead_le ht)
  unfold CacheReader.atEnd
  split
  case isTrue ha =>
    cases ha
    rw [List.append_nil] at h hl
    exact .atEnd h hb hf hl
  case isFalse ha => exact .more h hb hf (.inr ⟨ha, hn, hl⟩)

theorem Reading.loop {frags : List Bytes} (h : Reading H start stop key env r l p w (D ++ acc))
    (hf : frags <+: l ++ [p]) (hn : acc.length ≤ n)
    (hb : r.buf = p ∧ 2 * (n - acc.length) + 1 ≤ fuel ∨
      r.buf = [] ∧ r.offset = (payload p).length ∧ r.totalRead < r.totalLen ∧
        acc.length < n ∧ 2 * (n - acc.length) ≤ fuel) :
    ∃ res, readLoop H start stop key env n fuel acc r = some res ∧
      Outcome H start stop key env frags D n res := by
  induction fuel generalizing acc r l p
  case zero => omega
  case succ fuel hi =>
    -- A copy makes progress, whatever the rest of the loop does.
    have hcopy {r l p} (h : Reading H start stop key env r l p w (D ++ acc))
        (hf : frags <+: l ++ [p]) (hb : r.buf = p) (hlt : acc.length < n)
        (hfuel : 2 * (n - acc.length) ≤ fuel ∨
          2 * (n - acc.length) ≤ fuel + 1 ∧ r.offset < (payload p).length) :
        ∃ res, CacheReader.copy n acc r (readLoop H start stop key env n fuel) = some res ∧
          Outcome H start stop key env frags D n res := by
      cases h.copy hb hlt (readLoop H start stop key env n fuel)
      case inl hc =>
        rw [hc.2]
        split
        case isTrue ht => exact ⟨_, rfl, h.atEnd hb hf ht hn⟩
        case isFalse ht =>
          exact hi (r := { r with buf := [] }) { h with } hf hn
            (.inr ⟨rfl, hc.1, not_le.mp ht, hlt, by omega⟩)
      case inr hc =>
        obtain ⟨m, h₀, hm, ho, hc⟩ := hc
        rw [hc]
        have hl : (acc ++ (payload p).slice r.offset m).length = acc.length + m := by
          simp only [List.length_append, Bytes.length_slice]
          omega
        refine hi (h.advance ho) hf ?_ (.inl ⟨hb, ?_⟩)
        all_goals omega
    have hp := h.ne_nil
    unfold readLoop
    by_cases hle : n ≤ acc.length
    case pos =>
      have hb := (hb.resolve_right fun hb => by omega).1
      rw [if_pos hle]
      exact ⟨_, rfl, .more h hb hf (.inl (le_antisymm hn hle))⟩
    case neg =>
      rw [if_neg hle]
      cases hb
      case inl hb =>
        rw [if_neg (hb.1 ▸ hp)]
        exact hcopy h hf hb.1 (by omega) (.inl (by omega))
      case inr hb =>
        obtain ⟨he, ho, ht, hlt, hfuel⟩ := hb
        rw [if_pos he, if_neg (by omega)]
        split
        case h_1 e hl => exact ⟨_, rfl, .failed h hf ho ht rfl hl⟩
        case h_2 r' hl =>
          obtain ⟨w', hl⟩ := load_eq_ok hl
          obtain ⟨h', hp⟩ := h.next ho ht hl
          exact hcopy h' (hf.trans (List.prefix_append _ _)) rfl hlt (.inr ⟨hfuel, hp⟩)

end Loop

section Calls

variable {env : Nat → View} {n j : Nat} {r r' : CacheReader} {l frags : List Bytes} {p D : Bytes}
  {w : UInt64} {e : Err}

-- The fragments have been found by loads, and all belong to one version of the object.
def Valid (H : Hash) (start stop : Nat) (key : Bytes) (env : Nat → View) (frags : List Bytes) :
    Prop :=
  ∃ w, ∀ i q, frags[i]? = some q → Fragment H key i w q ∧ ∃ j, Seen H start stop key (env j) i q

theorem Reading.fragments (h : Reading H start stop key env r l p w D) {i : Nat} {q : Bytes}
    (hq : (l ++ [p])[i]? = some q) :
    Fragment H key i w q ∧ ∃ j, Seen H start stop key (env j) i q := by
  rw [List.getElem?_append] at hq
  split at hq
  case isTrue =>
    have ⟨hf, hs, _⟩ := h.full i q hq
    exact ⟨hf, hs⟩
  case isFalse hi =>
    have ⟨h₀, hq⟩ := List.getElem?_eq_some_iff.mp hq
    have hi : i = r.fragmentIndex := by
      have := h.index
      simp only [List.length_singleton] at h₀
      omega
    have hq : q = p := by simpa using hq.symm
    exact hq ▸ hi ▸ ⟨h.fragment, h.seen⟩

theorem Reading.valid (h : Reading H start stop key env r l p w D) :
    Valid H start stop key env (l ++ [p]) :=
  ⟨w, fun _ _ hq => h.fragments hq⟩

theorem Reading.prefix_payloads (h : Reading H start stop key env r l p w D) :
    D <+: (l ++ [p]).flatMap payload := by
  rw [h.delivered]
  simpa using List.take_prefix _ _

-- A reader between two calls, the fragments it has loaded and the bytes it has delivered.
inductive State (H : Hash) (start stop : Nat) (key : Bytes) (env : Nat → View) :
    CacheReader → List Bytes → Bytes → Prop
  | fresh {r : CacheReader} :
    (r.readErr = none) → (r.buf = []) → (r.offset = 0) → (r.totalRead = 0) →
    State H start stop key env r [] []
  | reading {r : CacheReader} {l : List Bytes} {p D : Bytes} {w : UInt64} :
    (Reading H start stop key env r l p w D) → (r.buf = p) → State H start stop key env r (l ++ [p]) D
  | failed {r : CacheReader} {frags : List Bytes} {D : Bytes} {e : Err} :
    (r.readErr = some e) → (e ≠ .panic) → (e = .eof → ∃ j, ¬Spares H start stop key (env j) .eof) →
    (Valid H start stop key env frags) → (D <+: frags.flatMap payload) →
    State H start stop key env r frags D

theorem Loads.reading (hl : Loads H start stop key (env j) r 0 w r') (hr : r.readErr = none)
    (ho : r.offset = 0) (ht : r.totalRead = 0) : Reading H start stop key env r' [] r'.buf w [] where
  index     := hl.index.symm
  full      := nofun
  fragment  := hl.index.symm ▸ hl.fragment
  seen      := hl.index.symm ▸ ⟨j, hl.seen⟩
  length    := hl.index.symm ▸ hl.length
  head      := by simpa using hl.total.symm
  version   := hl.version
  readErr   := hl.readErr.trans hr
  bound     := .inl hl.index
  offset    := by simp [hl.offset, ho]
  read      := by simp [hl.read, hl.index, hl.offset, ho, ht]
  delivered := by simp [hl.offset, ho]

-- One call of `Read`.
structure Call (H : Hash) (start stop : Nat) (key : Bytes) (env : Nat → View) (frags : List Bytes)
    (D : Bytes) (res : Result) (frags' : List Bytes) : Prop where
  extends'  : frags <+: frags'
  state     : State H start stop key env res.2.2 frags' (D ++ res.1)
  noPanic   : res.2.1 ≠ some .panic
  eof       : res.2.1 = some .eof → (∀ j, Spares H start stop key (env j) .eof) →
    ∃ head, frags'.head? = some head ∧ (D ++ res.1).length = (header head).totalLen.toNat
  terminal  : ∀ e, res.2.1 = some e → e ≠ .eof → res.2.2.readErr = some e

theorem Outcome.call {res : Result} (h : Outcome H start stop key env frags D n res) :
    ∃ frags', Call H start stop key env frags D (deferred res) frags' := by
  cases h
  case more hr hb hf _ =>
    exact ⟨_, hf, .reading hr hb, nofun, nofun, nofun⟩
  case atEnd r l p w hr hb hf hd =>
    refine ⟨l ++ [p], hf, .reading (by simpa [deferred] using hr) hb, nofun, fun _ _ => ?_, ?_⟩
    case refine_1 =>
      have ⟨q, hq⟩ : ∃ q, (l ++ [p]).head? = some q := ⟨_, List.head?_eq_some_head (by simp)⟩
      exact ⟨q, hq, by simpa [deferred, hr.head q hq] using hd⟩
    case refine_2 =>
      intro e he hn
      exact absurd (Option.some_inj.mp he).symm hn
  case failed acc r r' l p w e hr hf _ _ he hl =>
    have hp : e ≠ .panic := fun hc => load_ne_panic _ _ _ (hc ▸ hl)
    have hs : e = .eof → ∃ j, ¬Spares H start stop key (env j) .eof := fun hc =>
      ⟨_, fun hs => avoids_load hs foreign_eof (hc ▸ hl)⟩
    have hd : (deferred (acc, some e, r')).2.2.readErr = some e := by
      simp only [deferred]
      split <;> simp [he]
    refine ⟨l ++ [p], hf, .failed hd hp hs hr.valid hr.prefix_payloads, ?_, ?_, ?_⟩
    case refine_1 => exact fun hc => hp (Option.some_inj.mp hc)
    case refine_2 =>
      intro hc ha
      have ⟨j, hj⟩ := hs (Option.some_inj.mp hc)
      exact absurd (ha j) hj
    case refine_3 =>
      intro e' he' _
      exact hd.trans he'

theorem Reading.call (h : Reading H start stop key env r l p w D) (hb : r.buf = p)
    (hf : frags <+: l ++ [p]) (n : Nat) : ∃ res frags',
      (readLoop H start stop key env n (readFuel n) [] r).map deferred = some res ∧
      Call H start stop key env frags D res frags' := by
  have ⟨res, hres, ho⟩ : ∃ res, readLoop H start stop key env n (readFuel n) [] r = some res ∧
      Outcome H start stop key env frags D n res :=
    Reading.loop (by simpa using h) hf (Nat.zero_le n) (.inl ⟨hb, by simp [readFuel]⟩)
  have ⟨frags', hc⟩ := ho.call
  exact ⟨_, frags', by rw [hres]; rfl, hc⟩

theorem Call.failed (he : r.readErr = some e) (hp : e ≠ .panic)
    (hs : e = .eof → ∃ j, ¬Spares H start stop key (env j) .eof) (hv : Valid H start stop key env frags)
    (hd : D <+: frags.flatMap payload) : Call H start stop key env frags D ([], some e, r) frags where
  extends'  := List.prefix_refl _
  state     := .failed he hp hs hv (by simpa using hd)
  noPanic   := fun hc => hp (Option.some_inj.mp hc)
  eof       := by
    intro hc ha
    have ⟨j, hj⟩ := hs (Option.some_inj.mp hc)
    exact absurd (ha j) hj
  terminal  := fun e' he' _ => he.trans he'

theorem deferred_loadFailed :
    deferred (D, some e, r.loadFailed n e) = (D, some e, r.loadFailed n e) := by
  simp [deferred, loadFailed]

theorem State.read (h : State H start stop key env r frags D) (n : Nat) :
    ∃ res frags', r.read H start stop key env n = some res ∧
      Call H start stop key env frags D res frags' := by
  cases h
  case fresh hr hb ho ht =>
    simp only [CacheReader.read, hr, hb, if_true]
    split
    case h_1 e he =>
      refine ⟨_, [], congrArg some deferred_loadFailed, ?_⟩
      refine .failed rfl ?_ ?_ ⟨0, by simp⟩ (List.prefix_refl _)
      case refine_1 => exact fun hc => load_ne_panic _ _ _ (hc ▸ he)
      case refine_2 => exact fun hc => ⟨_, fun hs => avoids_load hs foreign_eof (hc ▸ he)⟩
    case h_2 r' hl =>
      obtain ⟨w, hl⟩ := load_eq_ok hl
      exact (hl.reading hr ho ht).call rfl List.nil_prefix n
  case reading l p w hb h =>
    have hp : r.buf ≠ [] := hb ▸ h.ne_nil
    simp only [CacheReader.read, h.readErr, hp, if_false]
    exact h.call hb (List.prefix_refl _) n
  case failed e he hp hs hv hd =>
    refine ⟨_, frags, ?_, Call.failed he hp hs hv hd⟩
    simp only [CacheReader.read, he]

theorem State.valid (h : State H start stop key env r frags D) :
    Valid H start stop key env frags ∧ D <+: frags.flatMap payload := by
  cases h
  case fresh => exact ⟨⟨0, nofun⟩, List.prefix_refl _⟩
  case reading h => exact ⟨h.valid, h.prefix_payloads⟩
  case failed hv hd => exact ⟨hv, hd⟩

-- A reader nothing has been read from.
structure Unread (H : Hash) (start stop : Nat) (key : Bytes) (env : Nat → View) (r : CacheReader) :
    Prop where
  state : ∃ frags, State H start stop key env r frags []
  start : r.readErr = none → r.offset = 0 ∧ r.totalRead = 0

theorem Unread.loadHTTPInfo (h : Unread H start stop key env r) :
    Unread H start stop key env (r.loadHTTPInfo H start stop key env).2 := by
  cases hr : r.readErr
  case some e => simpa [CacheReader.loadHTTPInfo, hr] using h
  case none =>
    cases hi : r.info
    case some info => simpa [CacheReader.loadHTTPInfo, hr, hi] using h
    case none =>
      obtain ⟨ho, ht⟩ := h.start hr
      simp only [CacheReader.loadHTTPInfo, hr, hi]
      split
      case h_1 e he =>
        refine ⟨⟨[], .failed rfl ?_ ?_ ⟨0, by simp⟩ (List.prefix_refl _)⟩, by simp [loadFailed]⟩
        case refine_1 => exact fun hc => load_ne_panic _ _ _ (hc ▸ he)
        case refine_2 => exact fun hc => ⟨_, fun hs => avoids_load hs foreign_eof (hc ▸ he)⟩
      case h_2 r' hl =>
        obtain ⟨w, hl⟩ := load_eq_ok hl
        have h := hl.reading hr ho ht
        have hs := fun (_ : r'.readErr = none) =>
          And.intro (hl.offset.trans ho) (hl.read.trans ht)
        split
        case h_1 => exact ⟨⟨_, .reading h rfl⟩, hs⟩
        case h_2 info _ =>
          exact ⟨⟨_, .reading (r := { r' with info := some info }) { h with } rfl⟩, hs⟩

theorem unread_infoCalls (k : Nat) :
    Unread H start stop key env (infoCalls H start stop key env k) := by
  induction k
  case zero => exact ⟨⟨[], .fresh rfl rfl rfl rfl⟩, fun _ => ⟨rfl, rfl⟩⟩
  case succ k hi => exact hi.loadHTTPInfo

theorem readCalls_failed (h : r.readErr = some e) (sizes : List Nat) :
    readCalls H start stop key env sizes r = some (sizes.map fun _ => ([], some e)) := by
  induction sizes
  case nil => rfl
  case cons n sizes hi => simp [readCalls, CacheReader.read, h, hi]

-- What calls of `Read` return after the bytes `D` of the fragments `frags` have been delivered. In
-- the end the fragments `frags'` have been loaded.
structure Reads (H : Hash) (start stop : Nat) (key : Bytes) (env : Nat → View) (frags : List Bytes)
    (D : Bytes) (calls : List (Bytes × Option Err)) (frags' : List Bytes) : Prop where
  extends'  : frags <+: frags'
  noPanic   : ∀ c ∈ calls, c.2 ≠ some .panic
  valid     : Valid H start stop key env frags'
  delivered : D ++ delivered calls <+: frags'.flatMap payload
  eof       : ∀ l₁ p l₂, calls = l₁ ++ (p, some .eof) :: l₂ → ∃ head, frags'.head? = some head ∧
    (D ++ CacheReader.delivered (l₁ ++ [(p, some .eof)])).length = (header head).totalLen.toNat
  terminal  : ∀ l₁ p e l₂, calls = l₁ ++ (p, some e) :: l₂ → e ≠ .eof → ∀ c ∈ l₂, c = ([], some e)

theorem delivered_cons (c : Bytes × Option Err) (calls : List (Bytes × Option Err)) :
    delivered (c :: calls) = c.1 ++ delivered calls :=
  rfl

theorem Call.reads {res : Result} {frags₁ frags₂ : List Bytes} {calls : List (Bytes × Option Err)}
    (hc : Call H start stop key env frags D res frags₁) (hs : ∀ j, Spares H start stop key (env j) .eof)
    (h : Reads H start stop key env frags₁ (D ++ res.1) calls frags₂)
    (ht : ∀ e, res.2.2.readErr = some e → ∀ c ∈ calls, c = ([], some e)) :
    Reads H start stop key env frags D ((res.1, res.2.1) :: calls) frags₂ where
  extends'  := hc.extends'.trans h.extends'
  noPanic   := by
    intro c hm
    cases hm
    case head => exact hc.noPanic
    case tail hm => exact h.noPanic c hm
  valid     := h.valid
  delivered := by simpa [delivered_cons] using h.delivered
  eof       := by
    intro l₁ p l₂ hl
    cases l₁
    case nil =>
      have ⟨hd, hl⟩ := List.cons.inj hl
      have ⟨hp, he⟩ := Prod.mk.inj hd
      have ⟨head, hh, hn⟩ := hc.eof he hs
      have ⟨rest, hr⟩ := h.extends'
      refine ⟨head, by rw [← hr, List.head?_append, hh]; rfl, ?_⟩
      simpa [CacheReader.delivered, ← hp] using hn
    case cons c l₁ =>
      have ⟨hd, hl⟩ := List.cons.inj hl
      have ⟨head, hh, hn⟩ := h.eof l₁ p l₂ hl
      refine ⟨head, hh, ?_⟩
      simpa [delivered_cons, ← hd, List.append_assoc] using hn
  terminal  := by
    intro l₁ p e l₂ hl hn
    cases l₁
    case nil =>
      have ⟨hd, hl⟩ := List.cons.inj hl
      exact hl ▸ ht e (hc.terminal e (Prod.mk.inj hd).2 hn)
    case cons c l₁ => exact h.terminal l₁ p e l₂ (List.cons.inj hl).2 hn

theorem State.reads (h : State H start stop key env r frags D) (hs : ∀ j, Spares H start stop key (env j) .eof)
    (sizes : List Nat) : ∃ calls frags', readCalls H start stop key env sizes r = some calls ∧
      Reads H start stop key env frags D calls frags' := by
  induction sizes generalizing r frags D
  case nil =>
    obtain ⟨hv, hd⟩ := h.valid
    refine ⟨[], frags, rfl, List.prefix_refl _, by simp, hv, by simpa [delivered] using hd, ?_, ?_⟩
    all_goals simp
  case cons n sizes hi =>
    obtain ⟨res, frags₁, hr, hc⟩ := h.read n
    obtain ⟨calls, frags₂, hl, hreads⟩ := hi hc.state
    refine ⟨(res.1, res.2.1) :: calls, frags₂, by simp [readCalls, hr, hl], hc.reads hs hreads ?_⟩
    intro e he c hm
    rw [readCalls_failed he, Option.some_inj] at hl
    obtain ⟨_, _, hm⟩ := List.mem_map.mp (hl ▸ hm)
    exact hm.symm

-- The calls of `Read` may follow some calls of `LoadHTTPInfo`, and every load may see another state
-- of the stripe.
theorem read_committed (H : Hash) (start stop : Nat) (key : Bytes) (env : Nat → View)
    (hs : ∀ j, Spares H start stop key (env j) .eof) (k : Nat) (sizes : List Nat) :
    ∃ calls frags,
      readCalls H start stop key env sizes (infoCalls H start stop key env k) = some calls ∧
      Reads H start stop key env [] [] calls frags := by
  have hu : Unread H start stop key env (infoCalls H start stop key env k) := unread_infoCalls k
  have ⟨_, h⟩ := hu.state
  have ⟨calls, frags, hc, hr⟩ := h.reads hs sizes
  exact ⟨calls, frags, hc, { hr with extends' := List.nil_prefix }⟩

end Calls

section Samples

-- A fragment of two bytes.
def sampleFragment : Bytes :=
  Doc.marshal
    { magic    := DocMagic
      len      := 74
      totalLen := 2
      vmajor   := docIdentityVersion
      key      := sampleHash.docKey [97]
      firstKey := sampleHash.docKey [97] } ++ [104, 105]

-- The object starts at the beginning of the data area.
def sampleView (readAt : Nat → Nat → Except Err Bytes)
    (h : ∀ {off n p}, readAt off n = .ok p → p.length = n)
    (hp : ∀ off n, readAt off n ≠ .error .panic) : View where
  storageErr    := none
  closed        := false
  get _         := Dir.setApproxSize (Dir.setOffset {} 512) 512
  dirValid _    := true
  ram _         := none
  readAt        := readAt
  length_readAt := h
  no_panic      := ⟨nofun, hp⟩

-- The file is longer than every read.
def longDisk (off n : Nat) : Except Err Bytes :=
  .ok <| (List.replicate (512 - off) 0 ++ sampleFragment.drop (off - 512) ++ List.replicate n 0).take n

def sampleEnv (_ : Nat) : View :=
  sampleView longDisk (fun h => by simp [← Except.ok.inj h]; omega) nofun

theorem read_committed_sample : (∀ j, Spares sampleHash 512 1024 [97] (sampleEnv j) .eof) ∧
    ∃ calls frags,
      readCalls sampleHash 512 1024 [97] sampleEnv [1, 5, 5]
        (infoCalls sampleHash 512 1024 [97] sampleEnv 1) = some calls ∧
      Reads sampleHash 512 1024 [97] sampleEnv [] [] calls frags :=
  have hs : ∀ j, Spares sampleHash 512 1024 [97] (sampleEnv j) .eof :=
    fun _ _ => avoids_handleRead ⟨nofun, nofun⟩ foreign_eof
  ⟨hs, read_committed sampleHash 512 1024 [97] sampleEnv hs 1 [1, 5, 5]⟩

-- The three calls read the whole object.
example : readCalls sampleHash 512 1024 [97] sampleEnv [1, 5, 5]
    (infoCalls sampleHash 512 1024 [97] sampleEnv 1) =
      some [([104], none), ([105], none), ([], some .eof)] := by
  decide +kernel

-- The file ends in front of the object.
def shortDisk (_ _ : Nat) : Except Err Bytes := .error .eof

def shortEnv (_ : Nat) : View := sampleView shortDisk nofun nofun

-- The error of the disk is taken for the end of an object that has not been loaded.
theorem read_short_disk :
    readCalls sampleHash 512 1024 [97] shortEnv [1] (infoCalls sampleHash 512 1024 [97] shortEnv 0) =
      some [([], some .eof)] ∧
    ¬∃ frags, Reads sampleHash 512 1024 [97] shortEnv [] [] [([], some .eof)] frags := by
  refine ⟨by decide +kernel, ?_⟩
  intro ⟨frags, h⟩
  have ⟨head, hh, _⟩ := h.eof [] [] [] rfl
  have ⟨_, hv⟩ := h.valid
  have ⟨_, _, _, _, _, hr, _⟩ := hv 0 head (by simpa [List.head?_eq_getElem?] using hh)
  cases hr

end Samples

end Bakemono.CacheReader
