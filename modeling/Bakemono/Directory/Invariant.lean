import Bakemono.Directory.Delete
import Bakemono.Directory.Manager
import Bakemono.Directory.Validate

open Chain

namespace Bakemono

namespace Segment

section Empty

variable {k m i : Nat}

theorem length_empty : (empty m).length = m * DirDepth := by
  simp [empty, length]

theorem slotAt_empty (h : i < m * DirDepth) : (empty m).slotAt i = { dir := emptyDir m i } := by
  simp [empty, slotAt, h]

theorem offset_empty (h : i < m * DirDepth) : ((empty m).dirAt i).offset = 0 := by
  simp only [dirAt, slotAt_empty h, emptyDir]
  split
  case isTrue => exact Dir.offset_clear {}
  case isFalse =>
    simp only [Dir.offset_setPrev, Dir.offset_setNext]
    exact Dir.offset_clear {}

-- The links of the non-heads, by their place in the bucket.
theorem links_empty (hm : m ≤ MaxBucketsPerSegment) (hk : k < m) :
    let e := empty m
    e.next (4 * k + 1) = 4 * k + 2 ∧ e.next (4 * k + 2) = 4 * k + 3 ∧
    e.next (4 * k + 3) = (if k + 1 = m then 0 else 4 * (k + 1) + 1) ∧
    e.prev (4 * k + 1) = (if k = 0 then 0 else 4 * k - 1) ∧
    e.prev (4 * k + 2) = 4 * k + 1 ∧ e.prev (4 * k + 3) = 4 * k + 2 := by
  have hm : m ≤ 16384 := hm
  have hs (i) (hi : i < m * 4) (h₀ : i % 4 ≠ 0) :
      (empty m).next i = (if i + 1 = m * 4 then 0 else if i % 4 = 4 - 1 then i + 2 else i + 1) ∧
      (empty m).prev i = (if i = 1 then 0 else if i % 4 = 1 then i - 2 else i - 1) := by
    simp only [next, prev, dirAt, slotAt_empty (show i < m * DirDepth from hi), emptyDir, DirDepth,
      h₀, if_false, Dir.next_setPrev, Dir.next_setNext, Dir.prev_setPrev, BitVec.toNat_ofNat]
    have hn : (if i + 1 = m * 4 then 0 else if i % 4 = 4 - 1 then i + 2 else i + 1) < 2 ^ 16 := by
      split_ifs <;> omega
    have hp : (if i = 1 then 0 else if i % 4 = 1 then i - 2 else i - 1) < 2 ^ 16 := by
      split_ifs <;> omega
    exact ⟨Nat.mod_eq_of_lt hn, Nat.mod_eq_of_lt hp⟩
  refine ⟨?_, ?_, ?_, ?_, ?_, ?_⟩
  case refine_1 => rw [(hs _ (by omega) (by omega)).1]; split_ifs <;> omega
  case refine_2 => rw [(hs _ (by omega) (by omega)).1]; split_ifs <;> omega
  case refine_3 => rw [(hs _ (by omega) (by omega)).1]; split_ifs <;> omega
  case refine_4 => rw [(hs _ (by omega) (by omega)).2]; split_ifs <;> omega
  case refine_5 => rw [(hs _ (by omega) (by omega)).2]; split_ifs <;> omega
  case refine_6 => rw [(hs _ (by omega) (by omega)).2]; split_ifs <;> omega

-- The free chain from the bucket `k` on.
theorem doubly_empty (hm : m ≤ MaxBucketsPerSegment) (hk : k + n = m) :
    let l := (List.range' k n).flatMap fun b => (List.range' 1 (DirDepth - 1)).map (b * DirDepth + ·)
    Path (empty m).next (if n = 0 then 0 else 4 * k + 1) l 0 ∧
    Back (empty m).prev (if k = 0 then 0 else 4 * k - 1) l := by
  induction n generalizing k
  case zero => simp
  case succ n hi =>
    have ⟨h₁, h₂, h₃, h₄, h₅, h₆⟩ := links_empty hm (show k < m by omega)
    have ⟨hp, hb⟩ := hi (show k + 1 + n = m by omega)
    have hl : (List.range' 1 (DirDepth - 1)).map (k * DirDepth + ·) =
        [4 * k + 1, 4 * k + 2, 4 * k + 3] := by
      simp [DirDepth, List.range'_succ]
      omega
    simp only [List.range'_succ, List.flatMap_cons, hl]
    refine ⟨⟨by simp, by omega, h₁, by omega, h₂, by omega, ?_⟩, h₄, h₅, h₆, ?_⟩
    case refine_1 =>
      rw [h₃]
      have : k + 1 = m ↔ n = 0 := by omega
      simp only [this]
      exact hp
    case refine_2 =>
      rw [if_neg (by omega)] at hb
      exact hb

theorem chained_empty (h₀ : 0 < m) (hm : m ≤ MaxBucketsPerSegment) :
    (empty m).Chained (fun _ => []) (empty m).nonHeads := by
  have hb : (empty m).buckets = m := by simp [Segment.buckets, length_empty, DirDepth]
  have hd : DirDepth ∣ (empty m).length := by simp [length_empty]
  obtain ⟨hp, hk⟩ := doubly_empty (k := 0) hm (Nat.zero_add m)
  have hl : (empty m).nonHeads = (List.range' 0 m).flatMap fun b =>
      (List.range' 1 (DirDepth - 1)).map (b * DirDepth + ·) := by
    rw [nonHeads, hb, List.range_eq_range']
  refine ⟨⟨hd, ?_, ?_, by simp, ?_⟩, ⟨⟨?_, hl ▸ hk⟩, ?_⟩, ?_⟩
  case refine_1 =>
    have : m ≤ 16384 := hm
    simp [length_empty, DirDepth]
    omega
  case refine_2 =>
    intro b h
    have hh : b * DirDepth < m * DirDepth := by
      simp only [DirDepth]
      omega
    refine ⟨.inl ⟨rfl, offset_empty hh, ?_⟩, by simp, by simp⟩
    simp [next, dirAt, slotAt_empty hh, emptyDir, Dir.next]
  case refine_3 => exact fun i hi ho => absurd (offset_empty (length_empty ▸ hi)) ho
  case refine_4 =>
    rw [hl]
    have : (if m = 0 then 0 else 4 * 0 + 1) = (empty m).freeStart.toNat := by
      rw [if_neg (by omega)]
      rfl
    exact this ▸ hp
  case refine_5 =>
    intro i hi
    obtain ⟨h₁, h₂⟩ := (mem_nonHeads hd).mp hi
    exact ⟨h₁, h₂, offset_empty (length_empty ▸ h₁)⟩
  case refine_6 => exact fun i hi hh _ => (mem_nonHeads hd).mpr ⟨hi, hh⟩

end Empty

variable {s s' : Segment} {bucket : Nat → List Nat} {free : List Nat} {i b : Nat}

-- The identities are not part of the structure.
theorem Chained.congr (h : s.Chained bucket free) (hl : s'.length = s.length)
    (hf : s'.freeStart = s.freeStart) (hd : ∀ j, s'.dirAt j = s.dirAt j) : s'.Chained bucket free where
  buckets := h.buckets.agree hl (fun j => by rw [hd]) fun j _ => by simp only [next, hd]
  chain   := h.chain.agree hl hf fun j _ => hd j
  all     := fun j hj hh ho => h.all j (hl ▸ hj) hh (hd j ▸ ho)

theorem mem_of_inserts (h : Inserts s s' bucket bucket' b tag dir i) (h' : s'.Chained bucket' free')
    (hb : b < s.buckets) : i ∈ bucket' b ∧ i < s'.length := by
  have hm : i ∈ bucket' b := by
    cases h.chain
    case inl hc =>
      have ⟨he, l₁, l₂, hc, _⟩ := hc
      simp [he, hc]
    case inr hc => simp [hc.1]
  have hb' : b < s'.buckets := by simpa [Segment.buckets, h.length] using hb
  exact ⟨hm, ((h'.buckets.chains b hb').occupied i hm).1⟩

def setIdentity (s : Segment) (i : Nat) (identity : Ident) : Segment :=
  s.update i ({ · with identity })

theorem dirAt_setIdentity (id : Ident) (hi : i < s.length) (j : Nat) :
    (s.setIdentity i id).dirAt j = s.dirAt j := by
  rw [setIdentity, dirAt_update hi]
  split <;> rfl

theorem Chained.setIdentity (id : Ident) (h : s.Chained bucket free) (hi : i < s.length) :
    (s.setIdentity i id).Chained bucket free :=
  h.congr length_update rfl (dirAt_setIdentity id hi)

end Segment

namespace DirManager

-- The geometry that `Init` establishes.
structure Shape (dm : DirManager) : Prop where
  buckets  : 0 < dm.bucketsNumPerSegment ∧ dm.bucketsNumPerSegment ≤ MaxBucketsPerSegment
  segments : 0 < dm.segmentsNum
  length   : ∀ s ∈ dm.segments, s.length = dm.bucketsNumPerSegment * DirDepth

def Valid (dm : DirManager) : Prop :=
  ∀ s ∈ dm.segments, validateDirectory s.dirs s.freeStart = .ok ()

def Chained (dm : DirManager) : Prop :=
  ∀ s ∈ dm.segments, ∃ bucket free, s.Chained bucket free

variable {dm dm' : DirManager} {H : Hash} {key : Bytes} {i : Nat} {s : Segment}

theorem Shape.dvd (h : dm.Shape) (hs : s ∈ dm.segments) :
    DirDepth ∣ s.length ∧ s.length ≤ 2 ^ 16 ∧ s.buckets = dm.bucketsNumPerSegment := by
  have hb : dm.bucketsNumPerSegment ≤ 16384 := h.buckets.2
  rw [Segment.buckets, h.length s hs]
  simp [DirDepth]
  omega

theorem valid_iff (h : dm.Shape) : dm.Valid ↔ dm.Chained := by
  refine forall₂_congr fun s hs => ?_
  have ⟨h₁, h₂, _⟩ := h.dvd hs
  exact Segment.validateDirectory_iff h₁ h₂

theorem segmentAt_mem (h : i < dm.segmentsNum) : dm.segmentAt i ∈ dm.segments := by
  rw [segmentAt, List.getD_eq_getElem?_getD, List.getElem?_eq_getElem h]
  exact List.getElem_mem h

theorem Shape.position (h : dm.Shape) (H : Hash) (key : Bytes) :
    (dm.position H key).segment < dm.segmentsNum ∧
    (dm.position H key).bucket < dm.bucketsNumPerSegment :=
  ⟨Nat.mod_lt _ h.segments, Nat.mod_lt _ h.buckets.1⟩

theorem mem_setSegment (h : s ∈ (dm.setSegment i s').segments) : s = s' ∨ s ∈ dm.segments :=
  (List.mem_or_eq_of_mem_set h).symm

theorem Shape.setSegment (h : dm.Shape) (hl : s.length = dm.bucketsNumPerSegment * DirDepth) :
    (dm.setSegment i s).Shape where
  buckets  := h.buckets
  segments := by simpa [DirManager.setSegment, segmentsNum] using h.segments
  length   := fun s' hs => (mem_setSegment hs).elim (· ▸ hl) (h.length s')

theorem Chained.setSegment (h : dm.Chained) (hs : s.Chained bucket free) :
    (dm.setSegment i s).Chained :=
  fun s' hs' => (mem_setSegment hs').elim (fun he => ⟨bucket, free, he ▸ hs⟩) (h s')

section Init

theorem shape_init (h : 4 ≤ n) : (init n).Shape := by
  have hb : 0 < n / DirDepth := by simp only [DirDepth]; omega
  have hs : 0 < (n / DirDepth + MaxBucketsPerSegment - 1) / MaxBucketsPerSegment := by
    simp only [MaxBucketsPerSegment]
    omega
  have hle : n / DirDepth ≤
      MaxBucketsPerSegment * ((n / DirDepth + MaxBucketsPerSegment - 1) / MaxBucketsPerSegment) := by
    simp only [MaxBucketsPerSegment]
    omega
  refine ⟨⟨?_, ?_⟩, by simpa [init, segmentsNum] using hs, ?_⟩
  case refine_1 => exact Nat.div_pos (by omega) hs
  case refine_2 =>
    simp only [init]
    rw [← Nat.lt_succ_iff, Nat.div_lt_iff_lt_mul hs, Nat.succ_mul]
    omega
  case refine_3 =>
    intro s hs
    rw [List.eq_of_mem_replicate hs]
    exact Segment.length_empty

theorem chained_init (h : 4 ≤ n) : (init n).Chained := by
  intro s hs
  have hb := (shape_init h).buckets
  exact ⟨_, _, List.eq_of_mem_replicate hs ▸ Segment.chained_empty hb.1 hb.2⟩

end Init

section Operations

theorem set_eq (hd : Dir.make off size (dm.position H key).tag phase = some dir)
    (he : (dm.segmentAt (dm.position H key).segment).dirInsert (dm.position H key).tag
      (dm.position H key).bucket dir rand = .ok (i, s)) (hi : i < s.length) :
    dm.set H key off size phase rand = .ok (dm.global (dm.position H key).segment i,
      dm.setSegment (dm.position H key).segment (s.setIdentity i (H.docKey key))) := by
  simp only [set, hd, he, bind, Except.bind, Segment.modifySlot_eq hi]
  rfl

theorem dirDelete_eq (he : (dm.segmentAt pos.segment).dirDelete pos.tag pos.bucket = .ok (i, s)) :
    dm.dirDelete pos = .ok (i, dm.setSegment pos.segment s) := by
  simp only [dirDelete, he, bind, Except.bind]
  rfl

theorem set_spec (H : Hash) (key : Bytes) (hs : dm.Shape) (hc : dm.Chained) (ho : 0 < off ∧ off < 2 ^ 40)
    (hz : 0 < size ∧ size ≤ DirMaxDataSize) (phase : Bool) (rand : Nat → Fin 10) :
    dm.set H key off size phase rand = .error .freeChainPop ∨
    ∃ i dm', dm.set H key off size phase rand = .ok (i, dm') ∧ dm'.Shape ∧ dm'.Chained := by
  have ⟨hp₁, hp₂⟩ := hs.position H key
  have hm := segmentAt_mem hp₁
  have ⟨bucket, free, h⟩ := hc _ hm
  have ⟨_, _, hb⟩ := hs.dvd hm
  have ⟨dir, hd, hdir⟩ := Dir.make_describes (p := phase) ho.2 hz.1 hz.2
    (H.tag_lt key dm.segmentsNum dm.bucketsNumPerSegment)
  have hd : Dir.make off size (dm.position H key).tag phase = some dir := hd
  cases Segment.dirInsert_spec h (hb ▸ hp₂) (by rw [hdir.offset]; omega) hdir.next
    (dm.position H key).tag rand
  case inl he =>
    refine .inl ?_
    simp only [set, hd, he]
    rfl
  case inr he =>
    have ⟨i, s, bucket', free', he, h', hins, _⟩ := he
    have ⟨_, hi⟩ := Segment.mem_of_inserts hins h' (hb ▸ hp₂)
    have hl : (s.setIdentity i (H.docKey key)).length = dm.bucketsNumPerSegment * DirDepth :=
      Segment.length_update.trans <| hins.length.trans <| hs.length _ hm
    exact .inr ⟨_, _, set_eq hd he hi, hs.setSegment hl, hc.setSegment (h'.setIdentity _ hi)⟩

theorem dirDelete_spec (hs : dm.Shape) (hc : dm.Chained) (hp : pos.segment < dm.segmentsNum)
    (hb : pos.bucket < dm.bucketsNumPerSegment) :
    ∃ i dm', dm.dirDelete pos = .ok (i, dm') ∧ dm'.Shape ∧ dm'.Chained := by
  have hm := segmentAt_mem hp
  have ⟨bucket, free, h⟩ := hc _ hm
  have ⟨_, _, hb'⟩ := hs.dvd hm
  rw [← hb'] at hb
  have ⟨i, s, bucket', free', he, h', hl⟩ : ∃ i s bucket' free',
      (dm.segmentAt pos.segment).dirDelete pos.tag pos.bucket = .ok (i, s) ∧
      s.Chained bucket' free' ∧ s.length = (dm.segmentAt pos.segment).length := by
    cases Segment.dirProbe_spec (h.buckets.chains _ hb) (Segment.head_lt h.buckets.dvd hb) pos.tag
    case inl hp => exact ⟨_, _, bucket, free, Segment.dirDelete_miss hp.2, h, rfl⟩
    case inr hp =>
      have ⟨l₁, i, l₂, hl, _, _, hp⟩ := hp
      have ⟨s, bucket', free', he, h', _, hd⟩ := Segment.dirDelete_spec h hb hl hp
      exact ⟨i, s, bucket', free', he, h', hd.length⟩
  exact ⟨i, _, dirDelete_eq he, hs.setSegment (hl.trans (hs.length _ hm)), hc.setSegment h'⟩

theorem delete_spec (H : Hash) (key : Bytes) (hs : dm.Shape) (hc : dm.Chained) :
    ∃ i dm', dm.delete H key = .ok (i, dm') ∧ dm'.Shape ∧ dm'.Chained := by
  have ⟨hp₁, hp₂⟩ := hs.position H key
  have ⟨i, dm', he, hs', hc'⟩ := dirDelete_spec hs hc hp₁ hp₂
  simp only [delete, he, bind, Except.bind]
  split
  case isTrue => exact ⟨_, dm, rfl, hs, hc⟩
  case isFalse => exact ⟨_, dm', rfl, hs', hc'⟩

theorem deleteAt_spec (H : Hash) (key : Bytes) (hs : dm.Shape) (hc : dm.Chained) (expected : Int) :
    ∃ r dm', dm.deleteAt H key expected = .ok (r, dm') ∧ dm'.Shape ∧ dm'.Chained := by
  have ⟨hp₁, hp₂⟩ := hs.position H key
  have ⟨i, dm', he, hs', hc'⟩ := dirDelete_spec hs hc hp₁ hp₂
  simp only [deleteAt, he, bind, Except.bind]
  split
  case isTrue => exact ⟨_, dm, rfl, hs, hc⟩
  case isFalse =>
    split
    case isTrue => exact ⟨_, dm, rfl, hs, hc⟩
    case isFalse =>
      split
      case isTrue => exact ⟨_, dm, rfl, hs, hc⟩
      case isFalse => exact ⟨_, dm', rfl, hs', hc'⟩

theorem removePhase_spec (hs : dm.Shape) (hc : dm.Chained) (phase : Bool) :
    ∃ dm', dm.removePhase phase = .ok dm' ∧ dm'.Shape ∧ dm'.Chained := by
  have h : ∀ s : Segment, ∃ s', s ∈ dm.segments → s.removePhase phase = .ok s' ∧
      s'.length = s.length ∧ ∃ bucket free, s'.Chained bucket free := by
    intro s
    by_cases hm : s ∈ dm.segments
    case pos =>
      have ⟨bucket, free, h⟩ := hc s hm
      have ⟨s', bucket', free', he, h', hl, _⟩ := Segment.removePhase_spec h phase
      exact ⟨s', fun _ => ⟨he, hl, bucket', free', h'⟩⟩
    case neg => exact ⟨s, fun hm' => absurd hm' hm⟩
  choose f hf using h
  have he : dm.segments.mapM (Segment.removePhase · phase) = .ok (dm.segments.map f) :=
    Except.mapM_ok fun s hs => (hf s hs).1
  refine ⟨{ dm with segments := dm.segments.map f }, ?_, ⟨hs.buckets, ?_, ?_⟩, ?_⟩
  case refine_1 => simp [removePhase, he, bind, Except.bind, pure, Except.pure]
  case refine_2 => simpa [segmentsNum] using hs.segments
  case refine_3 =>
    intro s' hs'
    have ⟨s, hm, he⟩ := List.mem_map.mp hs'
    exact he ▸ (hf s hm).2.1.trans (hs.length s hm)
  case refine_4 =>
    intro s' hs'
    have ⟨s, hm, he⟩ := List.mem_map.mp hs'
    exact he ▸ (hf s hm).2.2

end Operations

end DirManager

section Marshal

theorem Dir.length_marshal (d : Dir) : d.marshal.length = Dir.size := by
  simp [Dir.marshal, Dir.size]

theorem Dir.unmarshal_marshal (d : Dir) : Dir.unmarshal d.marshal = d := by
  have h (v : BitVec 16) : BitVec.ofNat 16 (Bytes.ofLE (Bytes.le 2 v.toNat)) = v := by
    rw [Bytes.ofLE_le, Nat.mod_eq_of_lt (by simpa using v.isLt), BitVec.ofNat_toNat,
      BitVec.setWidth_eq]
  have hs {i} (hi : i < 5) : d.marshal.slice (2 * i) 2 =
      Bytes.le 2 ([d.raw0, d.raw1, d.raw2, d.raw3, d.raw4].get ⟨i, hi⟩).toNat := by
    have := Bytes.slice_flatMap (f := fun v : BitVec 16 => Bytes.le 2 v.toNat) (n := 2) (j := i)
      (l := [d.raw0, d.raw1, d.raw2, d.raw3, d.raw4]) (r := []) (by simp) hi
    rwa [List.append_nil] at this
  simp only [Dir.unmarshal, hs (show 0 < 5 by omega), hs (show 1 < 5 by omega),
    hs (show 2 < 5 by omega), hs (show 3 < 5 by omega), hs (show 4 < 5 by omega), h]
  rfl

namespace Segment

variable {s : Segment} {m : Nat}

theorem length_marshal (hl : s.length = m * DirDepth) : s.marshal.length = binarySize m := by
  have := Bytes.length_flatMap (l := s.dirs) fun d _ => Dir.length_marshal d
  rw [length_dirs, hl] at this
  simp only [marshal, List.length_append, this, Bytes.length_le, binarySize]
  ring

-- The segment as it is written, without the identities.
def forget (s : Segment) : Segment := { s with slots := s.slots.map ({ · with identity := 0 }) }

theorem dirs_forget : s.forget.dirs = s.dirs := by
  simp [forget, dirs, Function.comp_def]

theorem unmarshal_marshal (hl : s.length = m * DirDepth) : unmarshal m s.marshal = s.forget := by
  have hd := Bytes.length_flatMap (l := s.dirs) fun d _ => Dir.length_marshal d
  rw [length_dirs, hl] at hd
  refine Segment.ext ?_ ?_
  case refine_1 =>
    refine List.ext_getElem (by simpa [unmarshal, forget, length] using hl.symm) fun j h₁ h₂ => ?_
    have hj : j < s.dirs.length := by
      rw [length_dirs, hl]
      simpa [unmarshal] using h₁
    simp only [unmarshal, forget, List.getElem_map, List.getElem_range, marshal]
    rw [Bytes.slice_flatMap (fun d _ => Dir.length_marshal d) hj, Dir.unmarshal_marshal]
    simp [dirs]
  case refine_2 =>
    simp only [unmarshal, forget, marshal]
    have hf : (Bytes.le 2 s.freeStart.toNat).slice 0 2 = Bytes.le 2 s.freeStart.toNat := by
      simpa using Bytes.slice_self (Bytes.le 2 s.freeStart.toNat)
    rw [show Dir.size * (m * DirDepth) = (s.dirs.flatMap Dir.marshal).length + 0 by rw [hd]; rfl,
      Bytes.slice_append_right, hf, Bytes.ofLE_le,
      Nat.mod_eq_of_lt (by simpa using s.freeStart.isLt), BitVec.ofNat_toNat, BitVec.setWidth_eq]

theorem length_unmarshal (data : Bytes) : (unmarshal m data).length = m * DirDepth := by
  simp [unmarshal, length]

end Segment

namespace DirManager

variable {dm dm' : DirManager}

theorem unmarshal_segment {data : Bytes} :
    unmarshalBinary.segment dm data i = .ok s ↔
      s = Segment.unmarshal dm.bucketsNumPerSegment (data.slice
        (Segment.binarySize dm.bucketsNumPerSegment * i) (Segment.binarySize dm.bucketsNumPerSegment)) ∧
      validateDirectory s.dirs s.freeStart = .ok () := by
  simp only [unmarshalBinary.segment, Except.bind_eq_ok]
  constructor
  case mp =>
    rintro ⟨_, hv, h⟩
    cases h
    exact ⟨rfl, hv⟩
  case mpr =>
    rintro ⟨rfl, hv⟩
    exact ⟨_, hv, rfl⟩

theorem unmarshalBinary_eq {data : Bytes} (hl : data.length = dm.binarySize) :
    dm.unmarshalBinary data = .ok dm' ↔
      ∃ segments, (List.range dm.segmentsNum).mapM (unmarshalBinary.segment dm data) = .ok segments ∧
        dm' = { dm with segments } := by
  simp only [unmarshalBinary, hl, ne_eq, not_true_eq_false, if_false, Except.bind_eq_ok]
  refine exists_congr fun segments => and_congr_right fun _ => ?_
  constructor
  case mp =>
    intro h
    cases h
    rfl
  case mpr =>
    rintro rfl
    rfl

theorem length_of_unmarshalBinary {data : Bytes} (he : dm.unmarshalBinary data = .ok dm') :
    data.length = dm.binarySize := by
  by_contra hc
  simp [unmarshalBinary, hc, throw, throwThe, MonadExceptOf.throw, bind, Except.bind] at he

theorem unmarshalBinary_spec {data : Bytes} (hs : dm.Shape) (he : dm.unmarshalBinary data = .ok dm') :
    dm'.Shape ∧ dm'.Valid := by
  have ⟨segments, hm, he⟩ := (unmarshalBinary_eq (length_of_unmarshalBinary he)).mp he
  have hmem {s} (hs : s ∈ segments) :
      s.length = dm.bucketsNumPerSegment * DirDepth ∧ validateDirectory s.dirs s.freeStart = .ok () := by
    have ⟨i, _, hi⟩ := Except.exists_of_mem_mapM hm hs
    have ⟨h₁, h₂⟩ := unmarshal_segment.mp hi
    exact ⟨h₁ ▸ Segment.length_unmarshal _, h₂⟩
  subst he
  refine ⟨⟨hs.buckets, ?_, fun s hs => (hmem hs).1⟩, fun s hs => (hmem hs).2⟩
  simpa [segmentsNum, Except.length_mapM hm] using hs.segments

theorem length_marshalBinary (hs : dm.Shape) : dm.marshalBinary.length = dm.binarySize := by
  rw [marshalBinary, Bytes.length_flatMap fun s hm => Segment.length_marshal (hs.length s hm),
    binarySize, segmentsNum]
  ring

-- What is written by `MarshalBinary` can be read back into any directory of the same geometry.
theorem unmarshalBinary_marshalBinary (hs : dm.Shape) (hv : dm.Valid)
    (h₁ : dm'.bucketsNumPerSegment = dm.bucketsNumPerSegment) (h₂ : dm'.segmentsNum = dm.segmentsNum) :
    dm'.unmarshalBinary dm.marshalBinary =
      .ok { dm with segments := dm.segments.map Segment.forget } := by
  have hl : dm.marshalBinary.length = dm'.binarySize := by
    rw [length_marshalBinary hs, binarySize, binarySize, h₁, h₂]
  have hseg (i) (hi : i < dm.segments.length) :
      unmarshalBinary.segment dm' dm.marshalBinary i = .ok (dm.segments[i].forget) := by
    have hm : dm.segments[i] ∈ dm.segments := List.getElem_mem hi
    have hsl := Bytes.slice_flatMap (r := []) (fun s hm => Segment.length_marshal (hs.length s hm)) hi
    rw [List.append_nil] at hsl
    rw [unmarshal_segment, h₁, marshalBinary, hsl, Segment.unmarshal_marshal (hs.length _ hm),
      Segment.dirs_forget]
    exact ⟨rfl, hv _ hm⟩
  have hmap : (List.range dm'.segmentsNum).mapM (unmarshalBinary.segment dm' dm.marshalBinary) =
      .ok (dm.segments.map Segment.forget) := by
    refine Except.mapM_eq_ok.mpr (List.forall₂_iff_get.mpr ⟨?_, ?_⟩)
    case refine_1 =>
      simp only [List.length_range, List.length_map]
      exact h₂
    case refine_2 =>
      intro i hi hi'
      simpa using hseg i (by simpa using hi')
  refine (unmarshalBinary_eq hl).mpr ⟨_, hmap, ?_⟩
  simp [h₁]

end DirManager

end Marshal

namespace DirManager

variable (H : Hash)

-- The operations on a directory. `UnmarshalBinary` leaves the directory as it is if it fails.
inductive Op
  | set (key : Bytes) (off size : Nat) (phase : Bool) (rand : Nat → Fin 10)
  | delete (key : Bytes)
  | deleteAt (key : Bytes) (expected : Int)
  | removePhase (phase : Bool)
  | unmarshal (data : Bytes)

namespace Op

def exec (dm : DirManager) : Op → Except Panic DirManager
  | set key off size phase rand => (·.2) <$> dm.set H key off size phase rand
  | delete key                  => (·.2) <$> dm.delete H key
  | deleteAt key expected       => (·.2) <$> dm.deleteAt H key expected
  | removePhase phase           => dm.removePhase phase
  | unmarshal data              =>
    match dm.unmarshalBinary data with
    | .ok dm   => return dm
    | .error _ => return dm

def InRange : Op → Prop
  | set _ off size _ _ => (0 < off ∧ off < 2 ^ 40) ∧ 0 < size ∧ size ≤ DirMaxDataSize
  | _                  => True

end Op

def run (dm : DirManager) (ops : List Op) : Except Panic DirManager :=
  List.foldlM (Op.exec H) dm ops

variable {H} {dm dm' : DirManager} {op : Op}

-- Only `Set` can panic.
theorem exec_ok (hs : dm.Shape) (hc : dm.Chained)
    (ho : ∀ key off size phase rand, op ≠ .set key off size phase rand) :
    ∃ dm', op.exec H dm = .ok dm' ∧ dm'.Shape ∧ dm'.Chained := by
  cases op
  case set => exact absurd rfl (ho _ _ _ _ _)
  case delete key =>
    have ⟨i, dm', he, h⟩ := delete_spec H key hs hc
    exact ⟨dm', by simp only [Op.exec, he]; rfl, h⟩
  case deleteAt key expected =>
    have ⟨i, dm', he, h⟩ := deleteAt_spec H key hs hc expected
    exact ⟨dm', by simp only [Op.exec, he]; rfl, h⟩
  case removePhase phase => exact removePhase_spec hs hc phase
  case unmarshal data =>
    simp only [Op.exec]
    split
    case h_1 dm' he =>
      have ⟨hs', hv⟩ := unmarshalBinary_spec hs he
      exact ⟨dm', rfl, hs', (valid_iff hs').mp hv⟩
    case h_2 => exact ⟨dm, rfl, hs, hc⟩

theorem exec_spec (hs : dm.Shape) (hc : dm.Chained) (hr : op.InRange) :
    op.exec H dm = .error .freeChainPop ∨
    ∃ dm', op.exec H dm = .ok dm' ∧ dm'.Shape ∧ dm'.Chained := by
  cases op
  case set key off size phase rand =>
    cases set_spec H key hs hc hr.1 hr.2 phase rand
    case inl he => exact .inl (by simp only [Op.exec, he]; rfl)
    case inr he =>
      have ⟨i, dm', he, h⟩ := he
      exact .inr ⟨dm', by simp only [Op.exec, he]; rfl, h⟩
  all_goals exact .inr (exec_ok hs hc nofun)

theorem exec_keeps (hs : dm.Shape) (hc : dm.Chained) (hr : op.InRange)
    (he : op.exec H dm = .ok dm') : dm'.Shape ∧ dm'.Chained := by
  cases exec_spec (H := H) hs hc hr
  case inl hf => simp [hf] at he
  case inr h =>
    have ⟨_, he', h⟩ := h
    cases he.symm.trans he'
    exact h

-- The number of segments and buckets never changes.
theorem geometry_setSegment (dm : DirManager) (i : Nat) (s : Segment) :
    (dm.setSegment i s).bucketsNumPerSegment = dm.bucketsNumPerSegment ∧
    (dm.setSegment i s).segmentsNum = dm.segmentsNum := by
  simp [setSegment, segmentsNum]

theorem geometry_dirDelete {pos : Position} (he : dm.dirDelete pos = .ok (i, dm')) :
    dm'.bucketsNumPerSegment = dm.bucketsNumPerSegment ∧ dm'.segmentsNum = dm.segmentsNum := by
  have ⟨_, _, he⟩ := Except.bind_eq_ok.mp he
  cases he
  exact geometry_setSegment _ _ _

theorem geometry_exec (he : op.exec H dm = .ok dm') :
    dm'.bucketsNumPerSegment = dm.bucketsNumPerSegment ∧ dm'.segmentsNum = dm.segmentsNum := by
  cases op
  case set =>
    have ⟨⟨_, dm₁⟩, hr, hd⟩ := Except.map_eq_ok.mp he
    subst hd
    clear he
    simp only [set] at hr
    split at hr
    case h_1 =>
      have ⟨_, _, hr⟩ := Except.bind_eq_ok.mp hr
      have ⟨_, _, hr⟩ := Except.bind_eq_ok.mp hr
      cases hr
      exact geometry_setSegment _ _ _
    case h_2 => cases hr
  case delete =>
    have ⟨⟨_, dm₁⟩, hr, hd⟩ := Except.map_eq_ok.mp he
    subst hd
    clear he
    simp only [delete] at hr
    split at hr
    case isTrue =>
      cases hr
      exact ⟨rfl, rfl⟩
    case isFalse =>
      have ⟨_, hd, hr⟩ := Except.bind_eq_ok.mp hr
      cases hr
      exact geometry_dirDelete hd
  case deleteAt =>
    have ⟨⟨_, dm₁⟩, hr, hd⟩ := Except.map_eq_ok.mp he
    subst hd
    clear he
    simp only [deleteAt] at hr
    split at hr
    case isTrue =>
      cases hr
      exact ⟨rfl, rfl⟩
    case isFalse =>
      split at hr
      case isTrue =>
        cases hr
        exact ⟨rfl, rfl⟩
      case isFalse =>
        split at hr
        case isTrue =>
          cases hr
          exact ⟨rfl, rfl⟩
        case isFalse =>
          have ⟨_, hd, hr⟩ := Except.bind_eq_ok.mp hr
          cases hr
          exact geometry_dirDelete hd
  case removePhase =>
    have ⟨_, hm, he⟩ := Except.bind_eq_ok.mp he
    cases he
    exact ⟨rfl, Except.length_mapM hm⟩
  case unmarshal =>
    simp only [Op.exec] at he
    split at he
    case h_1 hu =>
      cases he
      have hl := length_of_unmarshalBinary hu
      have ⟨_, hm, he⟩ := (unmarshalBinary_eq hl).mp hu
      cases he
      exact ⟨rfl, (Except.length_mapM hm).trans (List.length_range)⟩
    case h_2 =>
      cases he
      exact ⟨rfl, rfl⟩

theorem run_spec {ops : List Op} (hs : dm.Shape) (hc : dm.Chained) (hr : ∀ op ∈ ops, op.InRange)
    (he : dm.run H ops = .ok dm') :
    dm'.Shape ∧ dm'.Chained ∧ dm'.bucketsNumPerSegment = dm.bucketsNumPerSegment ∧
    dm'.segmentsNum = dm.segmentsNum := by
  induction ops generalizing dm
  case nil =>
    cases he
    exact ⟨hs, hc, rfl, rfl⟩
  case cons op ops hi =>
    rw [run, List.foldlM_cons, Except.bind_eq_ok] at he
    have ⟨dm₁, he₁, he⟩ := he
    have ⟨hg₁, hg₂⟩ := geometry_exec he₁
    have ⟨hs', hc'⟩ := exec_keeps hs hc (hr op (by simp)) he₁
    have ⟨h₁, h₂, h₃, h₄⟩ := hi hs' hc' (fun op hop => hr op (by simp [hop])) he
    exact ⟨h₁, h₂, h₃.trans hg₁, h₄.trans hg₂⟩

-- The structural invariant of the directory. It holds in all states that are reached from `Init`,
-- is what `UnmarshalBinary` checks, and rules out all panics but the one of `freeChainPop`.
theorem structural_invariant (H : Hash) (hn : 4 ≤ n) :
    (∀ (ops : List Op) (dm : DirManager), (∀ op ∈ ops, op.InRange) → (init n).run H ops = .ok dm →
      dm.Valid ∧ dm.Chained ∧
      ∃ dm', (init n).unmarshalBinary dm.marshalBinary = .ok dm' ∧
        dm'.segments.map Segment.dirs = dm.segments.map Segment.dirs ∧
        dm'.segments.map Segment.freeStart = dm.segments.map Segment.freeStart) ∧
    ∀ (dm : DirManager) (op : Op), dm.Shape → dm.Valid → op.InRange →
      (∃ dm', op.exec H dm = .ok dm' ∧ dm'.Valid) ∨ op.exec H dm = .error .freeChainPop := by
  constructor
  case left =>
    intro ops dm hr he
    have ⟨hs, hc, hg₁, hg₂⟩ := run_spec (shape_init hn) (chained_init hn) hr he
    have hv := (valid_iff hs).mpr hc
    refine ⟨hv, hc, _, unmarshalBinary_marshalBinary hs hv hg₁.symm hg₂.symm, ?_, ?_⟩
    case refine_1 => simp [Function.comp_def, Segment.dirs_forget]
    case refine_2 => simp [Function.comp_def, Segment.forget]
  case right =>
    intro dm op hs hv hr
    cases exec_spec (H := H) hs ((valid_iff hs).mp hv) hr
    case inl h => exact .inr h
    case inr h =>
      have ⟨dm', he, hs', hc'⟩ := h
      exact .inl ⟨dm', he, (valid_iff hs').mpr hc'⟩

-- Two entries in a directory with a single bucket, the first of which is deleted again.
def sampleHash : Hash where
  md5 key    := if key = [1] then 1 <<< 120 else 0
  sha256 key := .ofNat 256 ((key.length + 1) <<< 128)
  crc32 _    := 0

def sampleOps : List Op :=
  [.set [] 512 512 false fun _ => 0, .set [1] 1024 512 true fun _ => 0, .delete []]

theorem structural_invariant_sample : ∃ dm, (init 4).run sampleHash sampleOps = .ok dm ∧ dm.Valid := by
  have hr : ∀ op ∈ sampleOps, op.InRange := by
    simp [sampleOps, Op.InRange, DirMaxDataSize]
  have hd : ((init 4).run sampleHash sampleOps).isOk := by decide +kernel
  cases he : (init 4).run sampleHash sampleOps
  case error => simp [he, Except.isOk, Except.toBool] at hd
  case ok dm => exact ⟨dm, rfl, ((structural_invariant sampleHash (le_refl 4)).1 _ dm hr he).1⟩

end DirManager
end Bakemono
