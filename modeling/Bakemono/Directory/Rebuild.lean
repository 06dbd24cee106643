import Bakemono.Directory.Set

-- Rebuilding a directory from some of its own entries.

namespace Bakemono

namespace Dir

theorem offset_lt (d : Dir) : d.offset < 2 ^ 40 := by
  have h₁ : (d.raw1 &&& 0xff).toNat < 2 ^ 8 := by
    rw [BitVec.toNat_and]
    exact lt_of_le_of_lt Nat.and_le_right (by decide)
  refine Nat.or_lt_two_pow (Nat.or_lt_two_pow ?_ ?_) ?_
  case refine_1 => exact d.raw0.isLt.trans (by decide)
  all_goals rw [Nat.shiftLeft_eq]
  case refine_2 => omega
  case refine_3 =>
    have := d.raw4.isLt
    omega

-- Every entry has a size that `Set` accepts.
theorem approxSize_range (d : Dir) : 0 < d.approxSize ∧ d.approxSize ≤ DirMaxDataSize := by
  have hs : d.sizeInternal.toNat < 64 := by
    simp only [sizeInternal, BitVec.toNat_setWidth, BitVec.toNat_and]
    exact lt_of_le_of_lt (Nat.mod_le _ _) (lt_of_le_of_lt Nat.and_le_right (by decide))
  have hb : d.bigInternal.toNat < 4 := by
    simp only [bigInternal, BitVec.toNat_setWidth, BitVec.toNat_and]
    exact lt_of_le_of_lt (Nat.mod_le _ _) (lt_of_le_of_lt Nat.and_le_right (by decide))
  have hadd : (d.sizeInternal + 1).toNat = d.sizeInternal.toNat + 1 := by
    rw [BitVec.toNat_add]
    exact Nat.mod_eq_of_lt (by simp; omega)
  rw [approxSize, Nat.shiftLeft_eq, hadd]
  constructor
  case left => exact Nat.mul_pos (Nat.mul_pos (by decide) (Nat.two_pow_pos _)) (Nat.succ_pos _)
  case right =>
    have hp : 2 ^ (d.bigInternal.toNat * 3) ≤ 2 ^ 9 := Nat.pow_le_pow_right (by decide) (by omega)
    calc SectorSize * 2 ^ (d.bigInternal.toNat * 3) * (d.sizeInternal.toNat + 1)
      _ ≤ SectorSize * 2 ^ 9 * 64 := Nat.mul_le_mul (Nat.mul_le_mul_left _ hp) hs
      _ = DirMaxDataSize := by decide

end Dir

namespace Segment

variable {s s' : Segment} {bucket bucket' : Nat → List Nat} {free free' : List Nat} {b i : Nat}

-- The entries of the first buckets that are not in the head of their bucket.
def chainedOf (bucket : Nat → List Nat) (n : Nat) : List Nat :=
  (List.range n).flatMap fun b => (bucket b).tail

-- The slots of a segment that are not heads.
def links (s : Segment) : List Nat := (List.range s.length).filter (· % DirDepth ≠ 0)

theorem mem_links : i ∈ s.links ↔ i < s.length ∧ i % DirDepth ≠ 0 := by
  simp [links]

theorem nodup_links : s.links.Nodup := List.nodup_range.filter _

theorem IsBucket.mem_tail {l : List Nat} (h : s.IsBucket b l) :
    i ∈ l.tail ↔ i ∈ l ∧ i % DirDepth ≠ 0 := by
  have hn := h.nodup
  cases h.chain
  case inl he => simp [he.1]
  case inr he =>
    obtain ⟨l', rfl, _⟩ := he
    simp only [List.tail_cons, List.mem_cons]
    constructor
    case mp =>
      intro hi
      refine ⟨.inr hi, fun h₀ => ?_⟩
      have hh := h.tail i (List.mem_cons_of_mem _ hi) h₀
      exact (List.nodup_cons.mp hn).1 (hh ▸ hi)
    case mpr =>
      rintro ⟨rfl | hi, h₀⟩
      case inl => simp at h₀
      case inr => exact hi

theorem HasBuckets.chainedOf_subset (h : s.HasBuckets bucket) : chainedOf bucket s.buckets ⊆ s.links := by
  intro i hi
  obtain ⟨b, hb, hi⟩ := List.mem_flatMap.mp hi
  have hc := h.chains b (List.mem_range.mp hb)
  obtain ⟨hm, h₀⟩ := hc.mem_tail.mp hi
  exact mem_links.mpr ⟨(hc.occupied i hm).1, h₀⟩

theorem HasBuckets.nodup_chainedOf (h : s.HasBuckets bucket) : (chainedOf bucket s.buckets).Nodup := by
  refine List.nodup_flatMap.mpr ⟨fun b hb => ?_, ?_⟩
  case refine_1 => exact (h.chains b (List.mem_range.mp hb)).nodup.sublist (List.tail_sublist _)
  case refine_2 =>
    refine List.nodup_range.imp_of_mem fun {b b'} hb hb' hne i hi hi' => hne ?_
    exact h.disjoint b (List.mem_range.mp hb) b' (List.mem_range.mp hb') i (List.mem_of_mem_tail hi)
      (List.mem_of_mem_tail hi')

-- Without a free slot, all slots that are not heads are in use.
theorem Chained.links_subset (h : s.Chained bucket []) : s.links ⊆ chainedOf bucket s.buckets := by
  intro i hi
  obtain ⟨hl, h₀⟩ := mem_links.mp hi
  have ho : (s.dirAt i).offset ≠ 0 := fun ho => by simpa using h.all i hl h₀ ho
  obtain ⟨b, hb, hm⟩ := h.buckets.cover i hl ho
  exact List.mem_flatMap.mpr ⟨b, List.mem_range.mpr hb, (h.buckets.chains b hb).mem_tail.mpr ⟨hm, h₀⟩⟩

-- A segment has a free slot if no bucket has more entries than in another segment of the same size,
-- and a bucket that is not empty has fewer.
theorem Chained.free_of_fewer (h : s.Chained bucket free) (h' : s'.Chained bucket' free')
    (hl : s'.length = s.length) (hle : ∀ b < s.buckets, (bucket' b).length ≤ (bucket b).length)
    (hb : b < s.buckets) (hne : bucket' b ≠ []) (hlt : (bucket' b).length < (bucket b).length) :
    free' ≠ [] := by
  rintro rfl
  have hbs : s'.buckets = s.buckets := by simp only [Segment.buckets, hl]
  have hls : s'.links = s.links := by simp only [links, hl]
  have h₁ := (h.buckets.nodup_chainedOf.subperm h.buckets.chainedOf_subset).length_le
  have h₂ := (nodup_links.subperm h'.links_subset).length_le
  have h₃ : (chainedOf bucket' s.buckets).length < (chainedOf bucket s.buckets).length := by
    simp only [chainedOf, List.length_flatMap]
    refine List.sum_lt_sum _ _ (fun b hb => ?_) ⟨b, List.mem_range.mpr hb, ?_⟩
    case refine_1 =>
      have := hle b (List.mem_range.mp hb)
      simp only [List.length_tail]
      omega
    case refine_2 =>
      have := List.length_pos_of_ne_nil hne
      simp only [List.length_tail]
      omega
  rw [hls, hbs] at h₂
  omega

end Segment

namespace DirManager

open Segment

variable {H : Hash} {dm dm' : DirManager} {key : Bytes} {i b : Nat}

theorem length_entries (hc : dm.Chained) (hs : dm.Shape) (hi : i < dm.segmentsNum) :
    ∃ bucket free, (dm.segmentAt i).Chained bucket free ∧
      (dm.segmentAt i).buckets = dm.bucketsNumPerSegment ∧
      ∀ b < dm.bucketsNumPerSegment, (dm.entries i b).length = (bucket b).length := by
  have hm := segmentAt_mem hi
  obtain ⟨bucket, free, h⟩ := hc _ hm
  obtain ⟨_, _, hb⟩ := hs.dvd hm
  refine ⟨bucket, free, h, hb, fun b hlt => ?_⟩
  rw [entries, h.buckets.entries_eq (hb.symm ▸ hlt), items, List.length_map]

-- The same for an insertion into a directory.
theorem setRoom_of_fewer (hs : dm.Shape) (hc : dm.Chained) (hs' : dm'.Shape) (hc' : dm'.Chained)
    (hg : dm'.bucketsNumPerSegment = dm.bucketsNumPerSegment ∧ dm'.segmentsNum = dm.segmentsNum)
    (hle : ∀ i < dm.segmentsNum, ∀ b < dm.bucketsNumPerSegment,
      (dm'.entries i b).length ≤ (dm.entries i b).length)
    (hlt : (dm'.entries (dm.position H key).segment (dm.position H key).bucket).length <
      (dm.entries (dm.position H key).segment (dm.position H key).bucket).length) :
    dm'.SetRoom H key := by
  obtain ⟨hp₁, hp₂⟩ := hs.position H key
  have hpos : dm'.position H key = dm.position H key := position_congr hg.1 hg.2
  by_cases hne : dm'.entries (dm.position H key).segment (dm.position H key).bucket = []
  case pos => exact .inr (.inl (hpos ▸ hne))
  case neg =>
    obtain ⟨bucket, free, h, hb, hlen⟩ := length_entries hc hs hp₁
    obtain ⟨bucket', free', h', hb', hlen'⟩ := length_entries hc' hs' (hg.2.symm ▸ hp₁)
    have hl : (dm'.segmentAt (dm.position H key).segment).length =
        (dm.segmentAt (dm.position H key).segment).length := by
      have h₁ := h.buckets.dvd
      have h₂ := h'.buckets.dvd
      have hb'' := hb'.trans (hg.1.trans hb.symm)
      simp only [Segment.buckets, DirDepth] at *
      omega
    rw [hg.1] at hlen'
    have hfree : free' ≠ [] := by
      refine h.free_of_fewer h' hl (fun b hlt => ?_) (hb.symm ▸ hp₂) ?_ ?_
      case refine_1 =>
        rw [← hlen b (hb ▸ hlt), ← hlen' b (hb ▸ hlt)]
        exact hle _ hp₁ b (hb ▸ hlt)
      case refine_2 =>
        intro hnil
        exact hne (List.eq_nil_of_length_eq_zero (by rw [hlen' _ hp₂, hnil]; rfl))
      case refine_3 =>
        rw [← hlen _ hp₂, ← hlen' _ hp₂]
        exact hlt
    refine .inr (.inr fun h₀ => hfree ((freeStart_eq_zero_iff h'.chain).mp ?_))
    exact hpos ▸ h₀

-- What `Get` finds is the entry of a slot.
theorem exists_slot_of_hit (hs : dm.Shape) (hc : dm.Chained) (h : (dm.get H key).hit = true) :
    dm.occupant H key ≠ none ∧ (dm.get H key).dir.offset ≠ 0 ∧
      ∃ s ∈ dm.segments, ∃ x ∈ s.slots, x.dir = (dm.get H key).dir := by
  obtain ⟨hp₁, hp₂⟩ := hs.position H key
  have hm := segmentAt_mem hp₁
  obtain ⟨bucket, free, hch⟩ := hc _ hm
  obtain ⟨_, _, hb⟩ := hs.dvd hm
  rw [← hb] at hp₂
  cases Segment.dirProbe_entries hch.buckets hp₂ (dm.position H key).tag
  case inl hp =>
    simp only [get, hp.2, Bool.false_and, Bool.false_eq_true, if_false] at h
  case inr hp =>
    obtain ⟨l₁, j, l₂, hl, _, _, hf, hp⟩ := hp
    have hj := (hch.buckets.chains _ hp₂).occupied j (by simp [hl])
    have hd : (dm.get H key).dir = (dm.segmentAt (dm.position H key).segment).dirAt j := by
      simp only [get, hp] at h ⊢
      split at h
      case isTrue => cases h
      case isFalse hn => rw [if_neg hn]
    refine ⟨?_, ?_, _, hm, _, ?_, hd.symm⟩
    case refine_1 =>
      rw [occupant, entries, hf]
      simp
    case refine_2 =>
      rw [hd]
      exact hj.2
    case refine_3 =>
      have hlt : j < (dm.segmentAt (dm.position H key).segment).slots.length := hj.1
      rw [Segment.slotAt, List.getD_eq_getElem?_getD, List.getElem?_eq_getElem hlt, Option.getD_some]
      exact List.getElem_mem hlt

section Build

variable {dm₁ : DirManager} {R R' : List (Bytes × Dir)} {e : Bytes × Dir} {rand : Nat → Fin 10}

variable (H) in
-- The elements of a list that belong into a bucket.
def share (dm : DirManager) (R : List (Bytes × Dir)) (i b : Nat) : List (Bytes × Dir) :=
  R.filter fun e => (dm.position H e.1).segment = i ∧ (dm.position H e.1).bucket = b

variable (H) in
-- The list names entries of the directory at different positions.
structure Draws (dm : DirManager) (R : List (Bytes × Dir)) : Prop where
  distinct : (R.map fun e => dm.position H e.1).Nodup
  occupied : ∀ e ∈ R, dm.occupant H e.1 ≠ none
  offset   : ∀ e ∈ R, e.2.offset ≠ 0

-- A bucket has an entry for every element of the list that belongs into it.
theorem Draws.share_le (h : dm.Draws H R) (i b : Nat) :
    (dm.share H R i b).length ≤ (dm.entries i b).length := by
  have hsub : (dm.share H R i b).Sublist R := List.filter_sublist
  have hown {e} (he : e ∈ dm.share H R i b) :
      (dm.position H e.1).segment = i ∧ (dm.position H e.1).bucket = b := by
    simpa using (List.mem_filter.mp he).2
  have hnodup : ((dm.share H R i b).map fun e => (dm.position H e.1).tag).Nodup := by
    have hpos := h.distinct.sublist (hsub.map _)
    have hmap : ((dm.share H R i b).map fun e => (dm.position H e.1).tag) =
        ((dm.share H R i b).map fun e => dm.position H e.1).map Position.tag := by
      rw [List.map_map]
      rfl
    rw [hmap]
    refine hpos.map_on fun p hp q hq ht => ?_
    obtain ⟨e, he, rfl⟩ := List.mem_map.mp hp
    obtain ⟨f, hf, rfl⟩ := List.mem_map.mp hq
    by_contra hne
    exact tag_ne_of_position_ne hne ((hown he).1.trans (hown hf).1.symm)
      ((hown he).2.trans (hown hf).2.symm) ht
  have htags : ((dm.share H R i b).map fun e => (dm.position H e.1).tag) ⊆
      (dm.entries i b).map (·.dir.tag) := by
    intro t ht
    obtain ⟨e, he, rfl⟩ := List.mem_map.mp ht
    obtain ⟨x, hx⟩ := Option.ne_none_iff_exists'.mp (h.occupied e (hsub.subset he))
    rw [occupant, (hown he).1, (hown he).2] at hx
    have htag : x.dir.tag = (dm.position H e.1).tag := by simpa using List.find?_some hx
    exact htag ▸ List.mem_map_of_mem (List.mem_of_find?_eq_some hx)
  simpa using (hnodup.subperm htags).length_le

variable (H) in
-- A directory of the same size with the entries of the list and no others.
structure Built (dm : DirManager) (R : List (Bytes × Dir)) (dm' : DirManager) : Prop where
  geometry : dm'.bucketsNumPerSegment = dm.bucketsNumPerSegment ∧ dm'.segmentsNum = dm.segmentsNum
  shape    : dm'.Shape
  chained  : dm'.Chained
  few      : ∀ i < dm.segmentsNum, ∀ b < dm.bucketsNumPerSegment,
    (dm'.entries i b).length ≤ (dm.share H R i b).length
  entries  : ∀ e ∈ R, ∃ d : Dir, dm'.occupant H e.1 = some ⟨d, H.docKey e.1⟩ ∧
    d.Describes e.2.offset e.2.approxSize (dm.position H e.1).tag e.2.phase

theorem length_upsert_le {x : Slot} {l : List Slot} : (upsert x l).length ≤ l.length + 1 := by
  induction l
  case nil => simp [upsert]
  case cons y l hi =>
    simp only [upsert]
    split
    case isTrue => simp
    case isFalse => simpa using hi

theorem share_append (i b : Nat) :
    dm.share H (R ++ [e]) i b =
      dm.share H R i b ++
        if (dm.position H e.1).segment = i ∧ (dm.position H e.1).bucket = b then [e] else [] := by
  simp only [share, List.filter_append]
  congr 1
  split
  case isTrue h => simp [h]
  case isFalse h => simpa using h

-- Inserting the next element needs no purge.
theorem Built.set (h : dm.Built H R dm₁) (hs : dm.Shape) (hc : dm.Chained)
    (hd : dm.Draws H (R ++ e :: R')) : ∃ j dm', dm₁.set H e.1 e.2.offset e.2.approxSize e.2.phase rand =
      .ok (j, dm') ∧ dm.Built H (R ++ [e]) dm' := by
  obtain ⟨hp₁, hp₂⟩ := hs.position H e.1
  have hpos (k) : dm₁.position H k = dm.position H k := position_congr h.geometry.1 h.geometry.2
  have hmem : e ∈ R ++ e :: R' := by simp
  have hsub (i b : Nat) : (dm.share H (R ++ [e]) i b).length ≤ (dm.entries i b).length := by
    refine le_trans (List.Sublist.length_le ?_) (hd.share_le i b)
    refine List.Sublist.filter _ ?_
    exact List.Sublist.append_left (List.singleton_sublist.mpr (by simp)) R
  have hle (i : Nat) (hi : i < dm.segmentsNum) (b : Nat) (hb : b < dm.bucketsNumPerSegment) :
      (dm₁.entries i b).length ≤ (dm.entries i b).length := by
    refine (h.few i hi b hb).trans (le_trans ?_ (hsub i b))
    rw [share_append]
    simp
  have hroom : dm₁.SetRoom H e.1 := by
    refine setRoom_of_fewer hs hc h.shape h.chained h.geometry hle ?_
    refine lt_of_le_of_lt (h.few _ hp₁ _ hp₂) (lt_of_lt_of_le ?_ (hsub _ _))
    rw [share_append]
    simp
  have ho : 0 < e.2.offset ∧ e.2.offset < 2 ^ 40 :=
    ⟨Nat.pos_of_ne_zero (hd.offset e hmem), e.2.offset_lt⟩
  have hz := e.2.approxSize_range
  obtain ⟨j, dm', he⟩ : ∃ j dm', dm₁.set H e.1 e.2.offset e.2.approxSize e.2.phase rand = .ok (j, dm') :=
    set_ok h.shape h.chained ho hz hroom
  obtain ⟨hs', hc'⟩ := set_keeps h.shape h.chained ho hz he
  obtain ⟨_, _, hin, _, hkeep⟩ := set_installs h.shape h.chained ho hz he
  have hg := hin.geometry
  refine ⟨j, dm', he, ⟨hg.1.trans h.geometry.1, hg.2.trans h.geometry.2⟩, hs', hc', ?_, ?_⟩
  case refine_1 =>
    intro i hi b hb
    rw [share_append, List.length_append]
    split
    case isTrue heq =>
      obtain ⟨rfl, rfl⟩ := heq
      have hown := hin.own
      rw [hpos] at hown
      rw [hown, List.length_singleton]
      exact length_upsert_le.trans (Nat.add_le_add_right (h.few _ hi _ hb) 1)
    case isFalse hne =>
      have hne : i ≠ (dm₁.position H e.1).segment ∨ b ≠ (dm₁.position H e.1).bucket := by
        rw [hpos]
        tauto
      rw [hkeep hroom i (h.geometry.2.symm ▸ hi) b (h.geometry.1.symm ▸ hb) hne]
      exact h.few i hi b hb
  case refine_2 =>
    intro f hf
    obtain ⟨d', hd', hocc⟩ := occupant_set h.shape h.chained ho hz he
    cases List.mem_append.mp hf
    case inr hf =>
      obtain rfl := List.mem_singleton.mp hf
      exact ⟨d', hocc _ rfl, hpos f.1 ▸ hd'.toDescribes⟩
    case inl hf =>
      obtain ⟨d'', hx, hdesc'⟩ := h.entries f hf
      have hne : dm₁.position H f.1 ≠ dm₁.position H e.1 := by
        rw [hpos, hpos]
        have hn := hd.distinct
        rw [List.map_append, List.map_cons] at hn
        exact fun heq => (List.nodup_append.mp hn).2.2 _ (List.mem_map_of_mem hf) _ (by simp) heq
      refine ⟨d'', ?_, hdesc'⟩
      have hkept := occupant_set_of_ne h.shape h.chained ho hz he hne
      exact (hkept.resolve_right fun hc => hc.1 hroom).trans hx

end Build

end DirManager
end Bakemono
