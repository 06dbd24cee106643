import Bakemono.Directory.Crowded
import Bakemono.Directory.Frame

namespace Bakemono

namespace DirManager

open Segment

variable {H : Hash} {dm dm' : DirManager} {key key' : Bytes} {i off size : Nat} {phase : Bool}
  {rand : Nat → Fin 10}

variable (H) in
-- The directory has been made by operations, after an `Init` with the given number of slots.
def Made (n : Nat) (dm : DirManager) : Prop :=
  4 ≤ n ∧ ∃ ops, (∀ op ∈ ops, Op.InRange op) ∧ (init n).run H ops = .ok dm

section Made

variable {n : Nat}

theorem Made.shape_chained (h : dm.Made H n) : dm.Shape ∧ dm.Chained := by
  have ⟨hn, _, hr, he⟩ := h
  have ⟨hs, hc, _⟩ := run_spec (shape_init hn) (chained_init hn) hr he
  exact ⟨hs, hc⟩

theorem Made.position (h : dm.Made H n) (key : Bytes) :
    dm.position H key = (init n).position H key := by
  have ⟨hn, _, hr, he⟩ := h
  have ⟨_, _, hb, hn⟩ := run_spec (shape_init hn) (chained_init hn) hr he
  exact position_congr hb hn

theorem made_init (hn : 4 ≤ n) : (init n).Made H n := ⟨hn, [], by simp, rfl⟩

theorem Made.set (h : dm.Made H n) (ho : 0 < off ∧ off < 2 ^ 40) (hz : 0 < size ∧ size ≤ DirMaxDataSize)
    (he : dm.set H key off size phase rand = .ok (i, dm')) : dm'.Made H n := by
  have ⟨hn, ops, hr, hrun⟩ := h
  refine ⟨hn, ops ++ [.set key off size phase rand], ?_, ?_⟩
  case refine_1 =>
    intro op hop
    cases List.mem_append.mp hop
    case inl hop => exact hr op hop
    case inr hop => exact List.mem_singleton.mp hop ▸ ⟨ho, hz⟩
  case refine_2 =>
    rw [run] at hrun ⊢
    rw [List.foldlM_append, hrun]
    simp [Op.exec, he, bind, Except.bind, pure, Except.pure, Functor.map, Except.map]

end Made

variable (H) in
-- Inserting an entry for the key needs no purge: it replaces another entry, goes to the head of an
-- empty bucket or to a slot of the free chain.
def SetRoom (dm : DirManager) (key : Bytes) : Prop :=
  let pos := dm.position H key
  dm.occupant H key ≠ none ∨ dm.entries pos.segment pos.bucket = [] ∨
    (dm.segmentAt pos.segment).freeStart ≠ 0

instance (H : Hash) (dm : DirManager) (key : Bytes) : Decidable (dm.SetRoom H key) :=
  inferInstanceAs (Decidable (_ ∨ _))

variable (H) in
-- The bucket of the key has entries.
def Stocked (dm : DirManager) (key : Bytes) : Prop :=
  dm.entries (dm.position H key).segment (dm.position H key).bucket ≠ []

-- The entry is put at its position. Other buckets of the segment may have been purged.
structure Installs (dm dm' : DirManager) (pos : Position) (x : Slot) : Prop where
  geometry : dm'.bucketsNumPerSegment = dm.bucketsNumPerSegment ∧ dm'.segmentsNum = dm.segmentsNum
  tag      : x.dir.tag = pos.tag
  own      : dm'.entries pos.segment pos.bucket = upsert x (dm.entries pos.segment pos.bucket)

-- The other buckets are kept or purged as a whole.
def SparesOthers (dm dm' : DirManager) (pos : Position) : Prop :=
  ∀ i < dm.segmentsNum, ∀ b < dm.bucketsNumPerSegment,
    (i ≠ pos.segment ∨ b ≠ pos.bucket) → dm'.entries i b = dm.entries i b ∨ dm'.entries i b = []

-- The buckets of other positions are kept.
def KeepsOthers (dm dm' : DirManager) (pos : Position) : Prop :=
  ∀ i < dm.segmentsNum, ∀ b < dm.bucketsNumPerSegment,
    (i ≠ pos.segment ∨ b ≠ pos.bucket) → dm'.entries i b = dm.entries i b

theorem SetRoom.chained {bucket : Nat → List Nat} {free : List Nat} (hr : dm.SetRoom H key)
    (h : (dm.segmentAt (dm.position H key).segment).Chained bucket free)
    (hb : (dm.position H key).bucket < (dm.segmentAt (dm.position H key).segment).buckets) :
    (∃ j ∈ bucket (dm.position H key).bucket,
      ((dm.segmentAt (dm.position H key).segment).dirAt j).tag = (dm.position H key).tag) ∨
    bucket (dm.position H key).bucket = [] ∨ free ≠ [] := by
  obtain hr | hr | hr := hr
  case inl =>
    cases dirProbe_entries h.buckets hb (dm.position H key).tag
    case inl hp => exact absurd hp.1 hr
    case inr hp =>
      have ⟨l₁, j, l₂, hl, _, ht, _⟩ := hp
      exact .inl ⟨j, by simp [hl], ht⟩
  case inr.inl =>
    rw [entries, h.buckets.entries_eq hb] at hr
    exact .inr (.inl (List.map_eq_nil_iff.mp hr))
  case inr.inr => exact .inr (.inr (mt (freeStart_eq_zero_iff h.chain).mpr hr))

theorem entries_init {n b : Nat} (hn : 4 ≤ n) (hi : i < (init n).segmentsNum)
    (hb : b < (init n).bucketsNumPerSegment) : (init n).entries i b = [] := by
  have ⟨h₀, hm⟩ := (shape_init hn).buckets
  have he : (init n).segmentAt i = .empty (init n).bucketsNumPerSegment :=
    List.eq_of_mem_replicate (segmentAt_mem hi)
  have hb' : b < (Segment.empty (init n).bucketsNumPerSegment).buckets := by
    rwa [Segment.buckets, Segment.length_empty, DirDepth, Nat.mul_div_cancel _ (by decide)]
  rw [entries, he, (Segment.chained_empty h₀ hm).buckets.entries_eq hb']
  rfl

theorem setRoom_init {n : Nat} (hn : 4 ≤ n) : (init n).SetRoom H key := by
  have ⟨hp₁, hp₂⟩ := (shape_init hn).position H key
  exact .inr (.inl (entries_init hn hp₁ hp₂))

-- There is nothing to panic about.
theorem set_ok (hs : dm.Shape) (hc : dm.Chained) (ho : 0 < off ∧ off < 2 ^ 40)
    (hz : 0 < size ∧ size ≤ DirMaxDataSize) (hr : dm.SetRoom H key) :
    ∃ i dm', dm.set H key off size phase rand = .ok (i, dm') := by
  have ⟨hp₁, hp₂⟩ := hs.position H key
  have hm := segmentAt_mem hp₁
  have ⟨bucket, free, h⟩ := hc _ hm
  have ⟨_, _, hb⟩ := hs.dvd hm
  rw [← hb] at hp₂
  cases set_spec H key hs hc ho hz phase rand
  case inr he =>
    have ⟨i, dm', he, _⟩ := he
    exact ⟨i, dm', he⟩
  case inl he =>
    have ⟨hocc, hcr⟩ := (set_panics_iff H key hs hc ho hz phase rand).mp he
    have hf := (h.crowded_iff hp₂).mp hcr
    obtain hr | hr := hr
    case inl => exact absurd hocc hr
    case inr =>
      exfalso
      obtain hr | hr := hr
      case inl =>
        rw [entries, h.buckets.entries_eq hp₂] at hr
        have hnil := List.map_eq_nil_iff.mp hr
        exact absurd (fills_ne_nil hp₂ hf 1 (by decide) (by decide)) (by simp [hnil])
      case inr => exact hr ((freeStart_eq_zero_iff h.chain).mpr (h.free_eq_nil hp₂ hf))

theorem set_installs (hs : dm.Shape) (hc : dm.Chained) (ho : 0 < off ∧ off < 2 ^ 40)
    (hz : 0 < size ∧ size ≤ DirMaxDataSize) (he : dm.set H key off size phase rand = .ok (i, dm')) :
    ∃ d : Dir, d.Makes off size (dm.position H key).tag phase ∧
      Installs dm dm' (dm.position H key) ⟨d, H.docKey key⟩ ∧
      SparesOthers dm dm' (dm.position H key) ∧
      (dm.SetRoom H key → KeepsOthers dm dm' (dm.position H key)) := by
  obtain ⟨hp₁, hp₂⟩ := hs.position H key
  have hm := segmentAt_mem hp₁
  obtain ⟨bucket, free, h⟩ := hc _ hm
  obtain ⟨_, _, hb⟩ := hs.dvd hm
  rw [← hb] at hp₂
  obtain ⟨d, hd, hdir⟩ := Dir.make_describes (p := phase) ho.2 hz.1 hz.2
    (H.tag_lt key dm.segmentsNum dm.bucketsNumPerSegment)
  have hd : Dir.make off size (dm.position H key).tag phase = some d := hd
  refine ⟨d, ⟨hdir, hd⟩, ?_⟩
  cases Segment.dirInsert_spec h hp₂ (by rw [hdir.offset]; omega) hdir.next (dm.position H key).tag rand
  case inl hi =>
    simp only [set, hd, hi] at he
    cases he
  case inr hi =>
    obtain ⟨j, s, bucket', free', hi, hch, hins, hroom⟩ := hi
    obtain ⟨_, hj⟩ := Segment.mem_of_inserts hins hch hp₂
    cases he.symm.trans (set_eq hd hi hj)
    obtain ⟨hown, hothers⟩ := entries_insert (H.docKey key) h hp₂ hch hins hdir.tag
    refine ⟨⟨geometry_setSegment _ _ _, hdir.tag, ?_⟩, fun k hk b hlt hne => ?_,
      fun hr k hk b hlt hne => ?_⟩
    case refine_1 => rw [entries, segmentAt_setSegment hp₁, if_pos rfl, hown, entries]
    case refine_2 =>
      rw [entries, segmentAt_setSegment hp₁, entries]
      split
      case isFalse => exact .inl rfl
      case isTrue hk =>
        subst hk
        rw [hothers b (hb ▸ hlt) (hne.resolve_left (· rfl))]
        split
        case isTrue => exact .inr rfl
        case isFalse => exact .inl rfl
    case refine_3 =>
      rw [entries, segmentAt_setSegment hp₁, entries]
      split
      case isFalse => rfl
      case isTrue hk =>
        subst hk
        have hbe := hne.resolve_left (· rfl)
        rw [hothers b (hb ▸ hlt) hbe, hroom (hr.chained h hp₂) b hbe]
        split
        case isTrue he => rw [h.buckets.entries_eq (hb ▸ hlt), he]; rfl
        case isFalse => rfl

section Frame

variable (hs : dm.Shape) (hc : dm.Chained) (ho : 0 < off ∧ off < 2 ^ 40)
  (hz : 0 < size ∧ size ≤ DirMaxDataSize) (he : dm.set H key off size phase rand = .ok (i, dm'))

include hs hc ho hz he

theorem set_keeps : dm'.Shape ∧ dm'.Chained := by
  have ⟨_, _, he', hs', hc'⟩ := (set_spec H key hs hc ho hz phase rand).resolve_left (by simp [he])
  cases he.symm.trans he'
  exact ⟨hs', hc'⟩

-- The entry of `Set` is the only one at its position.
theorem occupant_set : ∃ d : Dir, d.Makes off size (dm.position H key).tag phase ∧
    ∀ key', dm.position H key' = dm.position H key → dm'.occupant H key' = some ⟨d, H.docKey key⟩ := by
  have ⟨d, hd, hi, _, _⟩ := set_installs hs hc ho hz he
  refine ⟨d, hd, fun key' hpos => ?_⟩
  have hp : dm'.position H key' = dm.position H key' := position_congr hi.geometry.1 hi.geometry.2
  rw [occupant, hp, hpos, hi.own, ← hi.tag, find_upsert_self]

theorem get_set : ∃ d : Dir, d.Makes off size (dm.position H key).tag phase ∧
    (dm'.get H key).hit = true ∧ (dm'.get H key).dir.setNext 0 = d := by
  obtain ⟨d, hd, hocc⟩ := occupant_set hs hc ho hz he
  obtain ⟨hs', hc'⟩ := set_keeps hs hc ho hz he
  have hf : dm'.lookup H key = some ⟨d, H.docKey key⟩ := by
    rw [lookup, hocc key rfl]
    simp [Option.filter_some, Owned]
  obtain ⟨h₁, h₂⟩ := get_eq hs' hc' H key
  rw [hf] at h₁ h₂
  exact ⟨d, hd, h₁, h₂⟩

-- Another key at the same position is lost.
theorem get_set_foreign (hpos : dm.position H key' = dm.position H key)
    (hid : H.docKey key' ≠ H.docKey key) (h₀ : H.docKey key ≠ 0) : (dm'.get H key').hit = false := by
  have ⟨d, _, hocc⟩ := occupant_set hs hc ho hz he
  have ⟨hs', hc'⟩ := set_keeps hs hc ho hz he
  have hf : dm'.lookup H key' = none := by
    rw [lookup, hocc key' hpos]
    simpa [Option.filter_some, Owned, hid.symm] using h₀
  rw [(get_eq hs' hc' H key').1, hf]
  rfl

-- Elsewhere entries can only disappear with their whole bucket, and they do not if there is room.
theorem occupant_set_of_ne (hne : dm.position H key' ≠ dm.position H key) :
    dm'.occupant H key' = dm.occupant H key' ∨ ¬dm.SetRoom H key ∧
      dm'.entries (dm'.position H key').segment (dm'.position H key').bucket = [] := by
  have ⟨_, _, hi, ho, hk⟩ := set_installs hs hc ho hz he
  have hpos : dm'.position H key' = dm.position H key' := position_congr hi.geometry.1 hi.geometry.2
  have ⟨hp₁, hp₂⟩ := hs.position H key'
  rw [occupant, occupant, hpos]
  by_cases hb : (dm.position H key').segment = (dm.position H key).segment ∧
      (dm.position H key').bucket = (dm.position H key).bucket
  case pos =>
    rw [hb.1, hb.2, hi.own]
    exact .inl (find_upsert_ne (hi.tag ▸ tag_ne_of_position_ne hne hb.1 hb.2))
  case neg =>
    have hother := not_and_or.mp hb
    by_cases hr : dm.SetRoom H key
    case pos => exact .inl (by rw [hk hr _ hp₁ _ hp₂ hother])
    case neg => exact (ho _ hp₁ _ hp₂ hother).imp (fun hkeep => by rw [hkeep]) (⟨hr, ·⟩)

-- If there is room or the bucket has not been purged, `Set` can only be observed at its own position.
theorem set_frame (hr : dm.SetRoom H key ∨ dm'.Stocked H key')
    (hne : dm.position H key' ≠ dm.position H key) :
    Lookup.Same (dm'.get H key') (dm.get H key') := by
  have ⟨hs', hc'⟩ := set_keeps hs hc ho hz he
  have hocc := (occupant_set_of_ne hs hc ho hz he hne).resolve_right fun h => hr.elim h.1 (· h.2)
  exact same_get hs hc hs' hc' hocc

-- No other key gets an entry that it did not have before.
theorem set_evicts (hid : H.docKey key' ≠ H.docKey key) (h₀ : H.docKey key ≠ 0)
    (hhit : (dm'.get H key').hit = true) : Lookup.Same (dm'.get H key') (dm.get H key') := by
  have ⟨hs', hc'⟩ := set_keeps hs hc ho hz he
  by_cases hpos : dm.position H key' = dm.position H key
  case pos => simp [get_set_foreign hs hc ho hz he hpos hid h₀] at hhit
  case neg =>
    cases occupant_set_of_ne hs hc ho hz he hpos
    case inl hocc => exact same_get hs hc hs' hc' hocc
    case inr hgone =>
      have hocc : dm'.occupant H key' = none := by rw [occupant, hgone.2]; rfl
      simp [(get_eq hs' hc' H key').1, lookup, hocc] at hhit

end Frame

variable (H) in
-- The position of the key is occupied, or one of the slots that an insertion looks for is unused:
-- the head of the bucket, its other slots, or the free chain of the segment.
def Usable (dm : DirManager) (key : Bytes) : Prop :=
  let pos := dm.position H key
  let s := dm.segmentAt pos.segment
  dm.occupant H key ≠ none ∨ (∃ j < DirDepth, (s.dirAt (pos.bucket * DirDepth + j)).offset = 0) ∨
    s.freeStart ≠ 0

theorem Usable.setRoom (h : dm.Usable H key) (hs : dm.Shape) (hc : dm.Chained) :
    dm.SetRoom H key := by
  have ⟨hp₁, hp₂⟩ := hs.position H key
  have hm := segmentAt_mem hp₁
  have ⟨bucket, free, hch⟩ := hc _ hm
  have ⟨_, _, hb⟩ := hs.dvd hm
  rw [← hb] at hp₂
  obtain h | ⟨j, hj, h⟩ | h := h
  case inl => exact .inl h
  case inr.inr => exact .inr (.inr h)
  case inr.inl =>
    by_cases h₀ : j = 0
    case pos =>
      subst h₀
      have hnil := (hch.buckets.chains _ hp₂).eq_nil_iff.mpr h
      exact .inr (.inl (by rw [entries, hch.buckets.entries_eq hp₂, hnil]; rfl))
    case neg =>
      have hd := hch.buckets.dvd
      have hlt := head_lt hd hp₂
      -- Slots other than the head are in the free chain when they are not used.
      have hfree := hch.all _ (by simp only [DirDepth] at *; omega) (by simp only [DirDepth] at *; omega) h
      exact .inr (.inr (mt (freeStart_eq_zero_iff hch.chain).mp (List.ne_nil_of_mem hfree)))

-- `Set` installs its entry, and all it does to others is to evict them.
theorem set_exact {n : Nat} (hm : dm.Made H n) (ho : 0 < off ∧ off < 2 ^ 40)
    (hz : 0 < size ∧ size ≤ DirMaxDataSize)
    (he : dm.set H key off size phase rand = .ok (i, dm')) :
    let pos := dm.position H key
    ((dm'.get H key).hit = true ∧ (dm'.get H key).dir.offset = off ∧
      (dm'.get H key).dir.phase = phase ∧ size ≤ (dm'.get H key).dir.approxSize) ∧
    (dm'.entries pos.segment pos.bucket).filter (·.dir.tag ≠ pos.tag) =
      (dm.entries pos.segment pos.bucket).filter (·.dir.tag ≠ pos.tag) ∧
    SparesOthers dm dm' pos ∧
    (H.docKey key ≠ 0 → ∀ key', H.docKey key' ≠ H.docKey key → (dm'.get H key').hit = true →
      Lookup.Same (dm'.get H key') (dm.get H key')) ∧
    (dm.Usable H key → KeepsOthers dm dm' pos) := by
  have ⟨hs, hc⟩ := hm.shape_chained
  have ⟨_, _, hi, hspare, hkeep⟩ := set_installs hs hc ho hz he
  refine ⟨?_, ?_, hspare, fun h₀ key' hid => set_evicts hs hc ho hz he hid h₀,
    fun hu => hkeep (hu.setRoom hs hc)⟩
  case refine_1 =>
    have ⟨d, hd, hhit, hdir⟩ := get_set hs hc ho hz he
    have h {α : Type} (f : Dir → α) (hf : ∀ d, f (d.setNext 0) = f d) : f (dm'.get H key).dir = f d :=
      (hf _).symm.trans (congrArg f hdir)
    refine ⟨hhit, ?_, ?_, ?_⟩
    case refine_1 => exact (h Dir.offset fun _ => rfl).trans hd.offset
    case refine_2 => exact (h Dir.phase fun _ => rfl).trans hd.phase
    case refine_3 => exact hd.size.trans_eq (h Dir.approxSize fun _ => rfl).symm
  case refine_2 => rw [hi.own, ← hi.tag, filter_upsert]

-- The second entry of the only bucket.
theorem set_exact_sample : ∃ dm i dm',
    (init 4).run letterHash [.set [97] 512 512 true fun _ => 0] = .ok dm ∧
    dm.set letterHash [98] 1024 700 false (fun _ => 0) = .ok (i, dm') ∧
    (dm'.get letterHash [98]).hit = true ∧ (dm'.get letterHash [98]).dir.offset = 1024 ∧
    (dm'.get letterHash [97]).hit = true ∧
    Lookup.Same (dm'.get letterHash [97]) (dm.get letterHash [97]) := by
  have hd : ((init 4).run letterHash [.set [97] 512 512 true fun _ => 0]).toOption.any fun dm =>
      (dm.set letterHash [98] 1024 700 false fun _ => 0).toOption.any fun r =>
        (r.2.get letterHash [97]).hit = true := by decide +kernel
  cases hr : (init 4).run letterHash [.set [97] 512 512 true fun _ => 0]
  case error => simp [hr, Except.toOption] at hd
  case ok dm =>
    cases he : dm.set letterHash [98] 1024 700 false fun _ => 0
    case error => simp [hr, he, Except.toOption] at hd
    case ok r =>
      simp only [hr, he, Except.toOption, Option.any_some, decide_eq_true_eq] at hd
      have hm : dm.Made letterHash 4 :=
        ⟨le_refl 4, _, by simp [Op.InRange, DirMaxDataSize], hr⟩
      obtain ⟨⟨h₁, h₂, _⟩, _, _, h₃, _⟩ := set_exact hm (by decide) (by decide) he
      exact ⟨dm, r.1, r.2, rfl, he, h₁, h₂, hd, h₃ (by decide) [97] (by decide) hd⟩

end DirManager
end Bakemono
