import Bakemono.Directory.Frame

namespace Bakemono

namespace Segment

variable {s s' : Segment} {tag : BitVec 16} {phase : Bool}

-- What is left of the entries of a tag.
theorem find_filter {l : List Slot} (h : (l.map (·.dir.tag)).Nodup) :
    find (l.filter (·.dir.phase ≠ phase)) tag = (find l tag).filter (·.dir.phase ≠ phase) := by
  induction l
  case nil => rfl
  case cons x l hi =>
    have ⟨hx, hl⟩ := List.nodup_cons.mp h
    have hi := hi hl
    simp only [find] at hi ⊢
    by_cases ht : x.dir.tag = tag
    case neg =>
      rw [List.find?_cons_of_neg (by simpa using ht), ← hi, List.filter_cons]
      split
      case isTrue => rw [List.find?_cons_of_neg (by simpa using ht)]
      case isFalse => rfl
    case pos =>
      rw [List.find?_cons_of_pos (by simpa using ht), List.filter_cons, Option.filter_some]
      split
      case isTrue => rw [List.find?_cons_of_pos (by simpa using ht)]
      case isFalse =>
        -- No other entry has the tag.
        rw [List.find?_eq_none]
        intro y hy hyt
        exact hx (List.mem_map.mpr ⟨y, List.mem_of_mem_filter hy, (of_decide_eq_true hyt).trans ht.symm⟩)

-- The entries of the buckets are all there are.
theorem phase_removePhase {bucket : Nat → List Nat} {free : List Nat} {i : Nat}
    (h : s.Chained bucket free) (hd : s.Distinct) (hq : s.Sweepable phase)
    (he : s.removePhase phase = .ok s') (hi : i < s'.length) (ho : (s'.dirAt i).offset ≠ 0) :
    (s'.dirAt i).phase ≠ phase := by
  have ⟨⟨bucket', _, h'⟩, hl, hf⟩ := entries_removePhase h hd hq he
  have ⟨b, hb, hm⟩ := h'.buckets.cover i hi ho
  have hx : (s'.slotAt i).item ∈ s'.entries b := by
    rw [h'.buckets.entries_eq hb]
    exact List.mem_map_of_mem hm
  rw [hf b (by simpa [Segment.buckets, hl] using hb)] at hx
  have hp : (s'.slotAt i).item.dir.phase ≠ phase := by simpa using List.of_mem_filter hx
  exact hp

end Segment

namespace DirManager

open Segment

variable {H : Hash} {dm dm' : DirManager} {n : Nat} {phase : Bool}

theorem segmentAt_removePhase {i : Nat} (he : dm.removePhase phase = .ok dm')
    (hi : i < dm.segmentsNum) :
    (dm.segmentAt i).removePhase phase = .ok (dm'.segmentAt i) ∧
    dm'.bucketsNumPerSegment = dm.bucketsNumPerSegment ∧ dm'.segmentsNum = dm.segmentsNum := by
  have ⟨segments, hm, hd⟩ := Except.bind_eq_ok.mp he
  cases hd
  have hl := Except.length_mapM hm
  have hi' : i < segments.length := hl.symm ▸ hi
  refine ⟨?_, rfl, hl⟩
  have hi : i < dm.segments.length := hi
  have := (Except.mapM_eq_ok.mp hm).get hi hi'
  simpa [segmentAt, List.getD_eq_getElem?_getD, hi, hi'] using this

theorem occupant_removePhase {H : Hash} (h : dm.Sound) (hq : ∀ s ∈ dm.segments, s.Sweepable phase)
    (he : dm.removePhase phase = .ok dm') (key : Bytes) :
    dm'.occupant H key = (dm.occupant H key).filter (·.dir.phase ≠ phase) := by
  have ⟨hp₁, hp₂⟩ := h.shape.position H key
  have ⟨hseg, hg₁, hg₂⟩ := segmentAt_removePhase he hp₁
  have hm := segmentAt_mem hp₁
  have ⟨_, _, hch⟩ := h.chained _ hm
  have ⟨_, _, hb⟩ := h.shape.dvd hm
  have ⟨_, _, hf⟩ := entries_removePhase hch (h.distinct _ hm) (hq _ hm) hseg
  rw [occupant, occupant, position_congr hg₁ hg₂, entries, hf _ (hb ▸ hp₂)]
  exact find_filter (h.distinct _ hm _ (hb ▸ hp₂))

-- `removePhase` removes the entries of a phase and nothing else, as long as no step of the run and not
-- the sweep itself pushes a slot on an empty free chain while slot 0 of the segment is in use.
theorem removePhase_exact (H : Hash) (hn : 4 ≤ n) (hd : Reaches H n dm)
    (hq : ∀ s ∈ dm.segments, s.Sweepable phase) :
    ∃ dm', dm.removePhase phase = .ok dm' ∧
      (∀ s ∈ dm'.segments, ∀ i < s.length, (s.dirAt i).offset ≠ 0 → (s.dirAt i).phase ≠ phase) ∧
      ∀ key, (dm.get H key).hit = true → (dm.get H key).dir.phase ≠ phase →
        Lookup.Same (dm'.get H key) (dm.get H key) := by
  have h := hd.sound hn
  have ⟨dm', he, hs', hc'⟩ := removePhase_spec h.shape h.chained phase
  refine ⟨dm', he, ?_, fun key hhit hphase => same_get h.shape h.chained hs' hc' ?_⟩
  case refine_1 =>
    intro s' hm i hi ho
    have ⟨segments, hmap, hd⟩ := Except.bind_eq_ok.mp he
    cases hd
    have ⟨s, hs, he⟩ := Except.exists_of_mem_mapM hmap hm
    have ⟨_, _, hch⟩ := h.chained s hs
    exact phase_removePhase hch (h.distinct s hs) (hq s hs) he hi ho
  case refine_2 =>
    have ⟨x, hx, ho⟩ := (get_hit_iff H key h).mp hhit
    have hxp : x.dir.phase ≠ phase := by
      have hl : dm.lookup H key = some x := by simp [lookup, hx, Option.filter_some, ho]
      have hdir := (get_eq h.shape h.chained H key).2
      rw [hl] at hdir
      exact (congrArg Dir.phase hdir).symm ▸ hphase
    rw [occupant_removePhase h hq he, hx]
    simpa using hxp

-- The entry of "b" is the only one of the first phase.
def phases : List Op :=
  (List.range 4).map fun i => .set [.ofNat (97 + i)] (512 * (i + 1)) 512 (i ≠ 1) fun _ => 0

theorem removePhase_exact_sample : ∃ dm dm',
    (init 4).run letterHash (phases.take 3) = .ok dm ∧ dm.removePhase false = .ok dm' ∧
    (dm.get letterHash [99]).hit = true ∧ (dm.get letterHash [99]).dir.phase = true ∧
    Lookup.Same (dm'.get letterHash [99]) (dm.get letterHash [99]) := by
  have hd : ((init 4).run letterHash (phases.take 3)).toOption.any fun dm =>
      (∀ s ∈ dm.segments, s.Roomy) ∧ (dm.get letterHash [99]).hit = true ∧
      (dm.get letterHash [99]).dir.phase = true := by decide +kernel
  cases he : (init 4).run letterHash (phases.take 3)
  case error => simp [he, Except.toOption] at hd
  case ok dm =>
    have hr : ∀ op ∈ phases.take 3, op.InRange ∧ ∀ dm, op.Roomy letterHash dm := by
      simp [phases, List.range_succ, Op.InRange, Op.Roomy, DirMaxDataSize]
    simp only [he, Except.toOption, Option.any_some, decide_eq_true_eq] at hd
    obtain ⟨hroom, hhit, hphase⟩ := hd
    have hq : ∀ s ∈ dm.segments, s.Sweepable false := fun s hs => .inl (hroom s hs)
    obtain ⟨dm', h₁, _, h₂⟩ := removePhase_exact letterHash (le_refl 4) (.run .init hr he) hq
    exact ⟨dm, dm', rfl, h₁, hhit, hphase, h₂ [99] hhit (by simp [hphase])⟩

-- A full bucket: deleting the entry of "b" gives the first phase to the one of "a", which the sweep
-- then removes as well.
theorem removePhase_full : ∃ dm dm',
    (init 4).run letterHash phases = .ok dm ∧ dm.removePhase false = .ok dm' ∧
    (dm.get letterHash [97]).hit = true ∧ (dm.get letterHash [97]).dir.phase = true ∧
    (dm'.get letterHash [97]).hit = false := by
  have hd : ((init 4).run letterHash phases).toOption.any fun dm =>
      (dm.removePhase false).toOption.any fun dm' =>
        (dm.get letterHash [97]).hit = true ∧ (dm.get letterHash [97]).dir.phase = true ∧
        (dm'.get letterHash [97]).hit = false := by
    decide +kernel
  cases he : (init 4).run letterHash phases
  case error => simp [he, Except.toOption] at hd
  case ok dm =>
    cases hr : dm.removePhase false
    case error => simp [he, hr, Except.toOption] at hd
    case ok dm' =>
      simp only [he, hr, Except.toOption, Option.any_some, decide_eq_true_eq] at hd
      exact ⟨dm, dm', rfl, hr, hd⟩

end DirManager
end Bakemono
