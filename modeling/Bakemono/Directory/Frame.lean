import Bakemono.Directory.Entries

namespace Bakemono.DirManager

open Segment

variable {H : Hash} {dm dm' : DirManager} {key key' : Bytes} {i : Nat} {s : Segment}

def entries (dm : DirManager) (segment bucket : Nat) : List Slot :=
  (dm.segmentAt segment).entries bucket

variable (H) in
-- The entry at the position of a key.
def occupant (dm : DirManager) (key : Bytes) : Option Slot :=
  find (dm.entries (dm.position H key).segment (dm.position H key).bucket) (dm.position H key).tag

variable (H) in
-- An entry without an identity may belong to any key.
def Owned (x : Slot) (key : Bytes) : Prop := x.identity = 0 ∨ x.identity = H.docKey key

instance (H : Hash) (x : Slot) (key : Bytes) : Decidable (Owned H x key) :=
  inferInstanceAs (Decidable (_ ∨ _))

variable (H) in
def lookup (dm : DirManager) (key : Bytes) : Option Slot :=
  (dm.occupant H key).filter fun x => Owned H x key

-- The directory is well formed, and no two entries of a bucket have the same tag.
structure Sound (dm : DirManager) : Prop where
  shape    : dm.Shape
  chained  : dm.Chained
  distinct : ∀ s ∈ dm.segments, s.Distinct

theorem foreign_iff {index : Nat} :
    foreign H s index key = true ↔ ¬Owned H (s.slotAt index).item key := by
  simp [foreign, Owned, Slot.item]

theorem dir_of_miss {fuel index prev : Nat} {tag : BitVec 16}
    (h : (s.probe tag fuel index prev).hit = false) : (s.probe tag fuel index prev).dir = {} := by
  induction fuel generalizing index prev
  case zero => rfl
  case succ n hi =>
    unfold probe at h ⊢
    split_ifs at h ⊢
    all_goals first | rfl | exact hi h

-- The probes of `Get`, `Delete` and `deleteAt` in terms of the entries.
theorem probe_cases (hs : dm.Shape) (hc : dm.Chained) (H : Hash) (key : Bytes) :
    let pos := dm.position H key
    let p := (dm.segmentAt pos.segment).dirProbe pos.tag pos.bucket
    (dm.occupant H key = none ∧ p.hit = false ∧ p.dir = {}) ∨
    ∃ x, dm.occupant H key = some x ∧ p.hit = true ∧ p.dir.setNext 0 = x.dir ∧
      (foreign H (dm.segmentAt pos.segment) p.index key = true ↔ ¬Owned H x key) := by
  intro pos p
  have ⟨hp₁, hp₂⟩ := hs.position H key
  have hm := segmentAt_mem hp₁
  have ⟨bucket, free, h⟩ := hc _ hm
  have ⟨_, _, hb⟩ := hs.dvd hm
  cases dirProbe_entries h.buckets (hb ▸ hp₂) pos.tag
  case inl he => exact .inl ⟨he.1, he.2, dir_of_miss he.2⟩
  case inr he =>
    have ⟨l₁, i, l₂, _, _, _, hf, he⟩ := he
    refine .inr ⟨_, hf, ?_, ?_, ?_⟩
    case refine_1 => simp only [p, pos, he]
    case refine_2 =>
      simp only [p, pos, he]
      rfl
    case refine_3 =>
      simp only [p, pos, he]
      exact foreign_iff

theorem get_eq (hs : dm.Shape) (hc : dm.Chained) (H : Hash) (key : Bytes) :
    (dm.get H key).hit = (dm.lookup H key).isSome ∧
    (dm.get H key).dir.setNext 0 = ((dm.lookup H key).map Slot.dir).getD {} := by
  have h := probe_cases hs hc H key
  simp only [get]
  cases h
  case inl h =>
    have ⟨h₁, h₂, h₃⟩ := h
    simp only [lookup, h₁, h₂, h₃, Bool.false_and, Bool.false_eq_true, if_false, Option.filter_none]
    exact ⟨rfl, rfl⟩
  case inr h =>
    have ⟨x, h₁, h₂, h₃, h₄⟩ := h
    by_cases hx : Owned H x key
    case pos =>
      have h₄ := Bool.eq_false_iff.mpr (mt h₄.mp (not_not.mpr hx))
      simp only [lookup, h₁, h₂, h₃, h₄, hx, Bool.and_false, Bool.false_eq_true, if_false,
        Option.filter_some, decide_true, if_true]
      exact ⟨rfl, rfl⟩
    case neg =>
      have h₄ := h₄.mpr hx
      simp only [lookup, h₁, h₂, h₄, hx, Bool.and_self, if_true, Option.filter_some, decide_false,
        Bool.false_eq_true, if_false]
      exact ⟨rfl, rfl⟩

-- What `Get` reports about an object.
def Lookup.Same (a b : Lookup) : Prop :=
  a.hit = b.hit ∧ a.dir.offset = b.dir.offset ∧ a.dir.approxSize = b.dir.approxSize ∧
  a.dir.phase = b.dir.phase ∧ a.dir.tag = b.dir.tag

theorem Same.of_eq {a b : Lookup} (hh : a.hit = b.hit) (hd : a.dir.setNext 0 = b.dir.setNext 0) :
    Lookup.Same a b := by
  have h {α : Type} (f : Dir → α) (hf : ∀ d, f (d.setNext 0) = f d) : f a.dir = f b.dir :=
    (hf _).symm.trans <| (congrArg f hd).trans (hf _)
  exact ⟨hh, h Dir.offset fun _ => rfl, h Dir.approxSize fun _ => rfl, h Dir.phase fun _ => rfl,
    h Dir.tag fun _ => rfl⟩

-- `Get` only depends on the entry at the position of the key.
theorem same_get (hs : dm.Shape) (hc : dm.Chained) (hs' : dm'.Shape) (hc' : dm'.Chained)
    (ho : dm'.occupant H key = dm.occupant H key) : Lookup.Same (dm'.get H key) (dm.get H key) := by
  have ⟨h₁, h₂⟩ := get_eq hs hc H key
  have ⟨h₁', h₂'⟩ := get_eq hs' hc' H key
  refine Same.of_eq ?_ ?_
  case refine_1 => rw [h₁, h₁', lookup, lookup, ho]
  case refine_2 => rw [h₂, h₂', lookup, lookup, ho]

theorem tag_ne_of_position_ne {p q : Position} (h : p ≠ q) (hs : p.segment = q.segment)
    (hb : p.bucket = q.bucket) : p.tag ≠ q.tag := by
  cases p
  cases q
  simp_all

section SetSegment

theorem segmentAt_setSegment (hi : i < dm.segmentsNum) (j : Nat) :
    (dm.setSegment i s).segmentAt j = if j = i then s else dm.segmentAt j := by
  simp only [segmentAt, setSegment, List.getD_eq_getElem?_getD, List.getElem?_set]
  by_cases hj : j = i
  case pos =>
    have : i < dm.segments.length := hi
    simp [hj, this]
  case neg => simp [hj, Ne.symm hj]

theorem position_congr (h₁ : dm'.bucketsNumPerSegment = dm.bucketsNumPerSegment)
    (h₂ : dm'.segmentsNum = dm.segmentsNum) : dm'.position H key = dm.position H key := by
  simp only [position, h₁, h₂]

end SetSegment

section Delete

variable (H) in
-- Deleting the entry of a key does not overwrite another one.
def DeleteRoom (dm : DirManager) (key : Bytes) : Prop :=
  let pos := dm.position H key
  (dm.get H key).hit = false ∨ (dm.segmentAt pos.segment).Roomy ∨
    (dm.segmentAt pos.segment).Sole pos.bucket

variable (H) in
-- `deleteAt` leaves an entry at another offset alone.
def DeleteAtRoom (dm : DirManager) (key : Bytes) (off : Int) : Prop :=
  (dm.get H key).dir.offset ≠ off ∨ dm.DeleteRoom H key

-- Exactly the entry at the given position is removed.
structure Removes (dm dm' : DirManager) (pos : Position) : Prop where
  geometry : dm'.bucketsNumPerSegment = dm.bucketsNumPerSegment ∧ dm'.segmentsNum = dm.segmentsNum
  own      : dm'.entries pos.segment pos.bucket = eraseTag (dm.entries pos.segment pos.bucket) pos.tag
  others   : ∀ i < dm.segmentsNum, ∀ b < dm.bucketsNumPerSegment,
    (i ≠ pos.segment ∨ b ≠ pos.bucket) → dm'.entries i b = dm.entries i b

theorem dirDelete_removes (h : dm.Sound) {pos : Position} (hp : pos.segment < dm.segmentsNum)
    (hb : pos.bucket < dm.bucketsNumPerSegment)
    (hr : find (dm.entries pos.segment pos.bucket) pos.tag = none ∨
      (dm.segmentAt pos.segment).Roomy ∨ (dm.segmentAt pos.segment).Sole pos.bucket) :
    ∃ i dm', dm.dirDelete pos = .ok (i, dm') ∧ dm'.Sound ∧ Removes dm dm' pos := by
  have hm := segmentAt_mem hp
  have ⟨bucket, free, hc⟩ := h.chained _ hm
  have ⟨_, _, hb'⟩ := h.shape.dvd hm
  have ⟨i, dm', he, hs', hc'⟩ := dirDelete_spec h.shape h.chained hp hb
  have ⟨⟨i', s⟩, hd, hq⟩ := Except.bind_eq_ok.mp he
  cases hq
  have ⟨_, hl, ho, hn⟩ := entries_delete hc (hb' ▸ hb) hr hd
  have hsb : s.buckets = dm.bucketsNumPerSegment := by
    rw [Segment.buckets, hl, ← Segment.buckets, hb']
  refine ⟨i, _, he, ⟨hs', hc', fun t ht b hlt => ?_⟩, geometry_setSegment _ _ _, ?_, ?_⟩
  case refine_1 =>
    cases mem_setSegment ht
    case inl ht =>
      subst ht
      by_cases hbe : b = pos.bucket
      case pos =>
        rw [hbe, ho]
        exact (h.distinct _ hm _ (hb' ▸ hb)).sublist (List.eraseP_sublist.map _)
      case neg =>
        rw [hn b (by omega) hbe]
        exact h.distinct _ hm _ (by omega)
    case inr ht => exact h.distinct t ht b hlt
  case refine_2 => rw [entries, segmentAt_setSegment hp, if_pos rfl, ho, entries]
  case refine_3 =>
    intro j _ b hlt hne
    rw [entries, segmentAt_setSegment hp, entries]
    split
    case isTrue hj => exact hj ▸ hn b (by omega) (hne.resolve_left (· hj))
    case isFalse => rfl

theorem Removes.occupant (h : Removes dm dm' (dm.position H key)) (hs : dm.Sound) (key' : Bytes) :
    dm'.occupant H key' =
      if dm.position H key' = dm.position H key then none else dm.occupant H key' := by
  have hpos : dm'.position H key' = dm.position H key' := position_congr h.geometry.1 h.geometry.2
  have ⟨hp₁, hp₂⟩ := hs.shape.position H key'
  rw [DirManager.occupant, DirManager.occupant, hpos]
  split
  case isTrue he =>
    have hm := segmentAt_mem hp₁
    have ⟨_, _, hb⟩ := hs.shape.dvd hm
    rw [he] at hp₂ hm hb ⊢
    rw [h.own]
    exact find_eraseTag_self (hs.distinct _ hm _ (hb ▸ hp₂))
  case isFalse hne =>
    by_cases he : (dm.position H key').segment = (dm.position H key).segment ∧
        (dm.position H key').bucket = (dm.position H key).bucket
    case pos =>
      rw [he.1, he.2, h.own]
      exact find_eraseTag_ne (tag_ne_of_position_ne hne he.1 he.2)
    case neg => rw [h.others _ hp₁ _ hp₂ (by tauto)]

theorem Removes.get (h : Removes dm dm' (dm.position H key)) (hs : dm.Sound) (hs' : dm'.Sound) :
    (dm'.get H key).hit = false ∧
    ∀ key', dm.position H key' ≠ dm.position H key →
      Lookup.Same (dm'.get H key') (dm.get H key') := by
  constructor
  case left =>
    rw [(get_eq hs'.shape hs'.chained H key).1, lookup, h.occupant hs, if_pos rfl]
    rfl
  case right =>
    intro key' hne
    apply same_get hs.shape hs.chained hs'.shape hs'.chained
    rw [h.occupant hs, if_neg hne]

theorem get_hit_iff (H : Hash) (key : Bytes) (h : dm.Sound) :
    (dm.get H key).hit = true ↔ ∃ x, dm.occupant H key = some x ∧ Owned H x key := by
  rw [(get_eq h.shape h.chained H key).1, lookup, Option.isSome_iff_exists]
  simp [Option.filter_eq_some_iff]

theorem delete_cases (h : dm.Sound) (hr : dm.DeleteRoom H key) :
    (∃ x, dm.occupant H key = some x ∧ ¬Owned H x key ∧ dm.delete H key = .ok (0, dm)) ∨
    ((∀ x, dm.occupant H key = some x → Owned H x key) ∧
      ∃ i dm', dm.delete H key = .ok (i, dm') ∧ dm'.Sound ∧ Removes dm dm' (dm.position H key)) := by
  obtain ⟨hp₁, hp₂⟩ := h.shape.position H key
  have hrm (hn : dm.occupant H key = none ∨ _) := dirDelete_removes h hp₁ hp₂ hn
  simp only [delete]
  cases probe_cases h.shape h.chained H key
  case inl hp =>
    obtain ⟨i, dm', he, hs, hd⟩ := hrm (.inl hp.1)
    refine .inr ⟨by simp [hp.1], dm'.global (dm.position H key).segment i, dm', ?_, hs, hd⟩
    simp only [hp.2.1, Bool.false_and, Bool.false_eq_true, if_false, he, bind, Except.bind]
    rfl
  case inr hp =>
    obtain ⟨x, hx, hh, _, hf⟩ := hp
    by_cases ho : Owned H x key
    case neg =>
      refine .inl ⟨x, hx, ho, ?_⟩
      rw [hh, hf.mpr ho]
      rfl
    case pos =>
      have hr := hr.resolve_left (by simpa using (get_hit_iff H key h).mpr ⟨x, hx, ho⟩)
      obtain ⟨i, dm', he, hs, hd⟩ := hrm (.inr hr)
      have hf := Bool.eq_false_iff.mpr (mt hf.mp (not_not.mpr ho))
      refine .inr ⟨fun y hy => ?_, dm'.global (dm.position H key).segment i, dm', ?_, hs, hd⟩
      case refine_1 =>
        cases hx.symm.trans hy
        exact ho
      case refine_2 =>
        simp only [hf, Bool.and_false, Bool.false_eq_true, if_false, he, bind, Except.bind]
        rfl

theorem deleteAt_cases {off : Int} (h : dm.Sound) (hr : dm.DeleteAtRoom H key off) :
    (((dm.get H key).hit = false ∨ ((dm.get H key).dir.offset : Int) ≠ off) ∧
      ∃ r, dm.deleteAt H key off = .ok (r, dm)) ∨
    (((dm.get H key).hit = true ∧ ((dm.get H key).dir.offset : Int) = off) ∧
      ∃ dm', dm.deleteAt H key off = .ok (true, dm') ∧ dm'.Sound ∧
        Removes dm dm' (dm.position H key)) := by
  obtain ⟨hp₁, hp₂⟩ := h.shape.position H key
  have hg := get_hit_iff H key h
  have hdir := (get_eq h.shape h.chained H key).2
  simp only [deleteAt]
  cases probe_cases h.shape h.chained H key
  case inl hp =>
    refine .inl ⟨.inl ?_, true, ?_⟩
    case refine_1 => simpa [hp.1] using hg
    case refine_2 => simp [hp.2.1, pure, Except.pure]
  case inr hp =>
    obtain ⟨x, hx, hh, hd, hf⟩ := hp
    by_cases ho : Owned H x key
    case neg =>
      refine .inl ⟨.inl ?_, false, ?_⟩
      case refine_1 =>
        rw [Bool.eq_false_iff]
        intro hc
        obtain ⟨y, hy, hy'⟩ := hg.mp hc
        cases hx.symm.trans hy
        exact ho hy'
      case refine_2 =>
        rw [hh, hf.mpr ho]
        rfl
    case pos =>
      have hhit := hg.mpr ⟨x, hx, ho⟩
      have hf := Bool.eq_false_iff.mpr (mt hf.mp (not_not.mpr ho))
      have hoff : (dm.get H key).dir.offset = ((dm.segmentAt (dm.position H key).segment).dirProbe
          (dm.position H key).tag (dm.position H key).bucket).dir.offset := by
        have hl : dm.lookup H key = some x := by simp [lookup, hx, Option.filter_some, ho]
        rw [hl] at hdir
        have := congrArg Dir.offset (hdir.trans hd.symm)
        rwa [Dir.offset_setNext, Dir.offset_setNext] at this
      rw [hoff]
      simp only [hh, hf, Bool.and_false, Bool.false_eq_true, if_false, Bool.not_true]
      split
      case isTrue hne => exact .inl ⟨.inr hne, false, rfl⟩
      case isFalse heq =>
        have hr := hr.resolve_left (by simpa [hoff] using heq)
        have hr := hr.resolve_left (by simpa using hhit)
        obtain ⟨i, dm', he, hs, hrm⟩ := dirDelete_removes h hp₁ hp₂ (.inr hr)
        refine .inr ⟨⟨hhit, not_not.mp heq⟩, dm', ?_, hs, hrm⟩
        simp only [he, bind, Except.bind]
        rfl

end Delete

section Runs

-- `Set` keeps the tags of a bucket distinct.
theorem set_sound (h : dm.Sound) (ho : 0 < off ∧ off < 2 ^ 40)
    (hz : 0 < size ∧ size ≤ DirMaxDataSize) (he : dm.set H key off size phase rand = .ok (i, dm')) :
    dm'.Sound := by
  obtain ⟨hp₁, hp₂⟩ := h.shape.position H key
  have hm := segmentAt_mem hp₁
  obtain ⟨bucket, free, hc⟩ := h.chained _ hm
  obtain ⟨_, _, hb⟩ := h.shape.dvd hm
  obtain ⟨dir, hd, hdir⟩ := Dir.make_describes (p := phase) ho.2 hz.1 hz.2
    (H.tag_lt key dm.segmentsNum dm.bucketsNumPerSegment)
  have hd : Dir.make off size (dm.position H key).tag phase = some dir := hd
  cases set_spec H key h.shape h.chained ho hz phase rand
  case inl hf => simp [hf] at he
  case inr hf =>
    obtain ⟨_, _, hf, hs', hc'⟩ := hf
    cases he.symm.trans hf
    refine ⟨hs', hc', fun t ht b hlt => ?_⟩
    cases Segment.dirInsert_spec hc (hb ▸ hp₂) (by rw [hdir.offset]; omega) hdir.next
      (dm.position H key).tag rand
    case inl hi =>
      simp only [set, hd, hi] at he
      cases he
    case inr hi =>
      obtain ⟨j, s, bucket', free', hi, hch, hins, _⟩ := hi
      obtain ⟨_, hj⟩ := Segment.mem_of_inserts hins hch (hb ▸ hp₂)
      cases he.symm.trans (set_eq hd hi hj)
      cases mem_setSegment ht
      case inr ht => exact h.distinct t ht b hlt
      case inl ht =>
        subst ht
        obtain ⟨ho, hn⟩ := entries_insert (H.docKey key) hc (hb ▸ hp₂) hch hins hdir.tag
        have hlt : b < (dm.segmentAt (dm.position H key).segment).buckets := by
          simpa [Segment.buckets, Segment.setIdentity, hins.length] using hlt
        by_cases hbe : b = (dm.position H key).bucket
        case pos =>
          rw [hbe, ho]
          exact nodup_upsert (h.distinct _ hm _ (hbe ▸ hlt))
        case neg =>
          rw [hn b hlt hbe]
          split
          case isTrue => simp
          case isFalse => exact h.distinct _ hm _ hlt

theorem removePhase_sound (h : dm.Sound) (hq : ∀ s ∈ dm.segments, s.Sweepable phase)
    (he : dm.removePhase phase = .ok dm') : dm'.Sound := by
  have ⟨_, he', hs, hc⟩ := removePhase_spec h.shape h.chained phase
  cases he.symm.trans he'
  refine ⟨hs, hc, fun t ht b hlt => ?_⟩
  have ⟨segments, hm, hd⟩ := Except.bind_eq_ok.mp he
  cases hd
  have ⟨s, hsm, hs⟩ := Except.exists_of_mem_mapM hm ht
  have ⟨bucket, free, hch⟩ := h.chained s hsm
  have ⟨_, hl, hi⟩ := entries_removePhase hch (h.distinct s hsm) (hq s hsm) hs
  have hlt : b < s.buckets := by simpa [Segment.buckets, hl] using hlt
  rw [hi b hlt]
  exact (h.distinct s hsm b hlt).sublist (List.filter_sublist.map _)

variable (H) in
-- The steps of a run that never push a slot on an empty free chain while slot 0 is in use.
def Op.Roomy (dm : DirManager) : Op → Prop
  | .set ..            => True
  | .delete key        => dm.DeleteRoom H key
  | .deleteAt key off  => dm.DeleteAtRoom H key off
  | .removePhase phase => ∀ s ∈ dm.segments, s.Sweepable phase
  | .unmarshal _       => False

variable (H) in
inductive Reaches (n : Nat) : DirManager → Prop
  | init : Reaches n (init n)
  | step {dm dm' : DirManager} {op : Op} :
    Reaches n dm → op.InRange → op.Roomy H dm → op.exec H dm = .ok dm' → Reaches n dm'

theorem exec_sound {op : Op} (h : dm.Sound) (hi : op.InRange) (hr : op.Roomy H dm)
    (he : op.exec H dm = .ok dm') : dm'.Sound := by
  cases op
  case set =>
    have ⟨⟨_, _⟩, he, hd⟩ := Except.map_eq_ok.mp he
    exact hd ▸ set_sound h hi.1 hi.2 he
  case delete =>
    have ⟨_, he, hd⟩ := Except.map_eq_ok.mp he
    cases delete_cases h hr
    case inl hc =>
      have ⟨_, _, _, hc⟩ := hc
      cases he.symm.trans hc
      exact hd ▸ h
    case inr hc =>
      have ⟨_, _, _, hc, hs, _⟩ := hc
      cases he.symm.trans hc
      exact hd ▸ hs
  case deleteAt =>
    have ⟨_, he, hd⟩ := Except.map_eq_ok.mp he
    cases deleteAt_cases h hr
    case inl hc =>
      have ⟨_, _, hc⟩ := hc
      cases he.symm.trans hc
      exact hd ▸ h
    case inr hc =>
      have ⟨_, _, hc, hs, _⟩ := hc
      cases he.symm.trans hc
      exact hd ▸ hs
  case removePhase => exact removePhase_sound h hr he
  case unmarshal => exact hr.elim

theorem sound_init (hn : 4 ≤ n) : (init n).Sound := by
  refine ⟨shape_init hn, chained_init hn, fun s hs b hb => ?_⟩
  have hm := (shape_init hn).buckets
  have he : s = .empty (init n).bucketsNumPerSegment := List.eq_of_mem_replicate hs
  subst he
  rw [(Segment.chained_empty hm.1 hm.2).buckets.entries_eq hb]
  simp [items]

theorem Reaches.sound (hn : 4 ≤ n) (h : Reaches H n dm) : dm.Sound := by
  induction h
  case init => exact sound_init hn
  case step _ hi hr he h => exact exec_sound h hi hr he

theorem Reaches.run {ops : List Op} (h : Reaches H n dm)
    (hr : ∀ op ∈ ops, op.InRange ∧ ∀ dm, op.Roomy H dm) (he : dm.run H ops = .ok dm') :
    Reaches H n dm' := by
  induction ops generalizing dm
  case nil =>
    cases he
    exact h
  case cons op ops hi =>
    rw [DirManager.run, List.foldlM_cons, Except.bind_eq_ok] at he
    obtain ⟨dm₁, he₁, he⟩ := he
    obtain ⟨h₁, h₂⟩ := hr op (by simp)
    exact hi (h.step h₁ (h₂ dm) he₁) (fun op hop => hr op (by simp [hop])) he

end Runs

-- Deleting a key only affects its own position, as long as no step of the run and not the deletion
-- itself pushes a slot on an empty free chain while slot 0 of the segment is in use. An entry of another
-- key at the position is left alone in any case.
theorem delete_frame (H : Hash) (hn : 4 ≤ n) (hd : Reaches H n dm) :
    (dm.DeleteRoom H key → ∃ i dm', dm.delete H key = .ok (i, dm') ∧ (dm'.get H key).hit = false ∧
      ∀ key', dm.position H key' ≠ dm.position H key → Lookup.Same (dm'.get H key') (dm.get H key')) ∧
    (∀ x, dm.occupant H key = some x → ¬Owned H x key →
      dm.delete H key = .ok (0, dm) ∧ ∀ off, dm.deleteAt H key off = .ok (false, dm)) ∧
    ∀ off : Int, dm.DeleteAtRoom H key off → ∃ r dm', dm.deleteAt H key off = .ok (r, dm') ∧
      if (dm.get H key).hit ∧ (dm.get H key).dir.offset = off then
        (dm'.get H key).hit = false ∧
        ∀ key', dm.position H key' ≠ dm.position H key →
          Lookup.Same (dm'.get H key') (dm.get H key')
      else dm' = dm := by
  have h := hd.sound hn
  refine ⟨fun hr => ?_, fun x hx ho => ?_, fun off hr => ?_⟩
  case refine_1 =>
    cases delete_cases h hr
    case inl hc =>
      obtain ⟨x, hx, ho, he⟩ := hc
      refine ⟨0, dm, he, ?_, fun _ _ => Same.of_eq rfl rfl⟩
      rw [Bool.eq_false_iff]
      intro hc
      obtain ⟨y, hy, hy'⟩ := (get_hit_iff H key h).mp hc
      cases hx.symm.trans hy
      exact ho hy'
    case inr hc =>
      obtain ⟨_, i, dm', he, hs, hrm⟩ := hc
      exact ⟨i, dm', he, hrm.get h hs⟩
  case refine_2 =>
    cases probe_cases h.shape h.chained H key
    case inl hp => simp [hp.1] at hx
    case inr hp =>
      obtain ⟨y, hy, hh, _, hf⟩ := hp
      cases hx.symm.trans hy
      simp only [delete, deleteAt, hh, hf.mpr ho]
      exact ⟨rfl, fun _ => rfl⟩
  case refine_3 =>
    cases deleteAt_cases h hr
    case inl hc =>
      obtain ⟨hne, r, he⟩ := hc
      refine ⟨r, dm, he, ?_⟩
      rw [if_neg]
      rintro ⟨h₁, h₂⟩
      exact hne.elim (by simp [h₁]) (· h₂)
    case inr hc =>
      obtain ⟨hco, dm', he, hs, hrm⟩ := hc
      refine ⟨true, dm', he, ?_⟩
      rw [if_pos hco]
      exact hrm.get h hs

-- The digests of the keys "a", "b", "c" and "d".
def letterHash : Hash where
  md5
    | [97]  => 0x0cc175b9c0f1b6a831c399e269772661
    | [98]  => 0x92eb5ffee6ae2fec3ad71c777531578f
    | [99]  => 0x4a8a08f09d37b73795649038408b5f33
    | [100] => 0x8277e0910d750195b448797616e091ad
    | _     => 0
  sha256
    | [97]  => 0xca978112ca1bbdcafac231b39a23dc4da786eff8147c4e72b9807785afee48bb
    | [98]  => 0x3e23e8160039594a33894f6564e1b1348bbd7a0088d42c4acb73eeaed59c009d
    | [99]  => 0x2e7d2c03a9507ae265ecf5b5356885a53393a2029d241394997265a1a25aefc6
    | [100] => 0x18ac3e7343f016890c510e93f935261169d9e3f565436429830faf0934f4f8e4
    | _     => 0
  crc32 _ := 0

def letters (n : Nat) : List Op :=
  (List.range n).map fun i => .set [.ofNat (97 + i)] (512 * (i + 1)) 512 true fun _ => 0

theorem delete_frame_sample : ∃ dm i dm',
    (init 4).run letterHash (letters 3) = .ok dm ∧ dm.delete letterHash [98] = .ok (i, dm') ∧
    (dm'.get letterHash [98]).hit = false := by
  have hd : ((init 4).run letterHash (letters 3)).toOption.any fun dm =>
      (dm.segmentAt (dm.position letterHash [98]).segment).freeStart ≠ 0 := by decide +kernel
  cases he : (init 4).run letterHash (letters 3)
  case error => simp [he, Except.toOption] at hd
  case ok dm =>
    have hr : ∀ op ∈ letters 3, op.InRange ∧ ∀ dm, op.Roomy letterHash dm := by
      simp [letters, Op.InRange, Op.Roomy, DirMaxDataSize]
      omega
    have hd : dm.DeleteRoom letterHash [98] := .inr <| .inl <| .inl (by
      simpa [he, Except.toOption] using hd)
    obtain ⟨hframe, _⟩ := delete_frame letterHash (le_refl 4) (.run .init hr he)
    obtain ⟨i, dm', h₁, h₂, _⟩ := hframe hd
    exact ⟨dm, i, dm', rfl, h₁, h₂⟩

-- A full bucket: deleting the second entry overwrites the tag and the phase of the first one.
theorem delete_frame_full : ∃ dm i dm',
    (init 4).run letterHash (letters 4) = .ok dm ∧ dm.delete letterHash [98] = .ok (i, dm') ∧
    dm.position letterHash [97] ≠ dm.position letterHash [98] ∧
    (dm.get letterHash [97]).hit = true ∧ (dm'.get letterHash [97]).hit = false := by
  have hd : ((init 4).run letterHash (letters 4)).toOption.any fun dm =>
      (dm.delete letterHash [98]).toOption.any fun r =>
        dm.position letterHash [97] ≠ dm.position letterHash [98] ∧
        (dm.get letterHash [97]).hit = true ∧ (r.2.get letterHash [97]).hit = false := by
    decide +kernel
  cases he : (init 4).run letterHash (letters 4)
  case error => simp [he, Except.toOption] at hd
  case ok dm =>
    cases hr : dm.delete letterHash [98]
    case error => simp [he, hr, Except.toOption] at hd
    case ok r =>
      simp only [he, hr, Except.toOption, Option.any_some, decide_eq_true_eq] at hd
      exact ⟨dm, r.1, r.2, rfl, hr, hd⟩

end Bakemono.DirManager
