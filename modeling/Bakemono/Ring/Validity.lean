import Bakemono.Ring.State

namespace Bakemono

theorem odd_succ (n : Nat) : odd (n + 1) = !odd n := by
  simp only [odd]
  cases Nat.mod_two_eq_zero_or_one n
  all_goals
    rename_i h
    simp [Nat.add_mod, h]

namespace FlushTask

variable {t : FlushTask} {r : Record} {f : File}

theorem mem_place {off : Nat} {l : List (Nat × Bytes)} (h : r ∈ records.place t off l) :
    r.generation = t.generation ∧ (∃ a ∈ l, a.2 = r.data) ∧ off ≤ r.offset ∧
    r.stop ≤ off + (l.flatMap Prod.snd).length ∧
    ∀ f : File, f.Holds off (l.flatMap Prod.snd) → f.Holds r.offset r.data := by
  induction l generalizing off
  case nil => cases h
  case cons a l hi =>
    rw [List.flatMap_cons, List.length_append]
    cases h
    case head =>
      refine ⟨rfl, ⟨a, by simp, rfl⟩, le_rfl, ?_, fun f hf => (File.holds_append.mp hf).1⟩
      simp only [Record.stop, Record.offset]
      omega
    case tail h =>
      have ⟨hg, ⟨b, hb, he⟩, ho, hs, hf⟩ := hi h
      refine ⟨hg, ⟨b, by simp [hb], he⟩, by omega, by omega, fun f h => ?_⟩
      exact hf f (File.holds_append.mp h).2

theorem Follows.buffer_ne_nil {generation writePos : Nat} (h : t.Follows generation writePos) :
    t.buffer ≠ [] := by
  have ⟨a, ha⟩ := List.exists_mem_of_ne_nil _ h.nonempty
  simp only [buffer, ne_eq, List.flatMap_eq_nil_iff, not_forall]
  exact ⟨a, ha, List.ne_nil_of_length_pos (h.sizes a ha).1⟩

theorem Follows.offset_lt_stop {generation writePos : Nat} (h : t.Follows generation writePos) :
    t.offset < t.stop :=
  Nat.lt_add_of_pos_right <| List.length_pos_of_ne_nil h.buffer_ne_nil

theorem Follows.sizes_records {generation writePos : Nat} (h : t.Follows generation writePos)
    (hr : r ∈ t.records) : 0 < r.data.length ∧ r.data.length ≤ AggBufferSize := by
  have ⟨_, ⟨a, ha, he⟩, _⟩ := mem_place hr
  exact he ▸ h.sizes a ha

theorem generation_records (h : r ∈ t.records) : r.generation = t.generation := (mem_place h).1

theorem offset_records (h : r ∈ t.records) : t.offset ≤ r.offset := (mem_place h).2.2.1

theorem stop_records (h : r ∈ t.records) : r.stop ≤ t.stop := (mem_place h).2.2.2.1

theorem holds_records (hf : f.Holds t.offset t.buffer) (h : r ∈ t.records) :
    f.Holds r.offset r.data :=
  (mem_place h).2.2.2.2 f hf

end FlushTask

namespace Ring

variable {κ μ : Type} {s s' : Ring κ μ} {t : FlushTask} {r : Record} {d : Dir} {k : κ}

-- The entry describes the record it stands for.
structure Stands (d : Dir) (r : Record) : Prop where
  offset : d.offset = r.offset
  size   : r.data.length ≤ d.approxSize
  phase  : d.phase = odd r.generation

-- The record was written in the current lap, behind the write position, or in an earlier one.
def Placed (s : Ring κ μ) (r : Record) : Prop :=
  s.start ≤ r.offset ∧ r.stop ≤ s.stop ∧ 0 < r.data.length ∧ r.data.length ≤ AggBufferSize ∧
  (r.generation = s.generation ∧ r.stop ≤ s.writePos ∨ r.generation < s.generation)

-- Nothing has been written over the record.
def Live (s : Ring κ μ) (r : Record) : Prop :=
  (r.generation = s.generation ∨ r.generation + 1 = s.generation ∧ s.writePos ≤ r.offset) ∧
  ∀ t, s.task = some t → r.stop ≤ t.offset ∨ t.stop ≤ r.offset

-- The phase of the record determines its generation.
def Recent (s : Ring κ μ) (r : Record) : Prop :=
  r.generation = s.generation ∨
  r.generation + 1 = s.generation ∧ ∀ t, s.task = some t → t.generation = s.generation

-- The task that is being written.
def Writing (s : Ring κ μ) (t : FlushTask) : Prop :=
  s.writingStart = t.offset ∧ s.writingEnd = t.stop ∧ s.writingGeneration = t.generation ∧
  s.start ≤ t.offset ∧ t.stop ≤ s.stop ∧ t.Follows s.generation s.writePos

-- What holds of the log on the disk, whatever the directory says.
structure Layout (s : Ring κ μ) : Prop where
  lower  : s.start ≤ s.writePos
  upper  : s.writePos ≤ s.stop
  phase  : s.phase = odd s.generation
  idle   : s.task = none → s.writingEnd = 0
  busy   : ∀ t, s.task = some t → s.Writing t
  placed : ∀ r ∈ s.flushed, s.Placed r
  intact : s.storageErr = false → ∀ r ∈ s.flushed, s.Live r → s.disk.Holds r.offset r.data

structure Inv (s : Ring κ μ) : Prop extends Layout s where
  bound : s.stop ≤ 2 ^ 40
  entry : ∀ k e, s.dirs k = some e →
    Stands e.dir e.mark.1 ∧ e.mark.1 ∈ s.flushed ∧ s.Recent e.mark.1

theorem dirValid_iff : s.dirValid d = true ↔
    ¬(0 < s.writingEnd ∧ d.phase ≠ odd s.writingGeneration ∧ d.offset < s.writingEnd ∧
      s.writingStart < d.offset + d.approxSize) ∧
    s.storageErr = false ∧ s.closed = false ∧ s.start ≤ d.offset ∧ d.offset < s.stop ∧
    (d.phase = s.phase ∧ d.offset < s.writePos ∨ d.phase ≠ s.phase ∧ s.writePos ≤ d.offset) := by
  simp only [dirValid]
  grind

theorem allocationValid_iff {a : Allocation} {size : Nat} : s.allocationValid a size = true ↔
    ¬(0 < s.writingEnd ∧ a.generation ≠ s.writingGeneration ∧ a.offset < s.writingEnd ∧
      s.writingStart < a.offset + size) ∧
    s.start ≤ a.offset ∧ a.offset + size ≤ s.stop ∧
    (a.generation = s.generation ∧ a.offset + size ≤ s.writePos ∨
      a.generation + 1 = s.generation ∧ s.writePos ≤ a.offset) := by
  simp only [allocationValid]
  grind

section Sound

-- An entry of the current phase is of the current generation, one of the other phase is of the
-- generation before.
theorem Recent.same_phase (h : s.Recent r) (hp : odd r.generation = odd s.generation) :
    r.generation = s.generation := by
  cases h
  case inl h => exact h
  case inr h => simp [← h.1, odd_succ] at hp

theorem Recent.other_phase (h : s.Recent r) (hp : odd r.generation ≠ odd s.generation) :
    r.generation + 1 = s.generation ∧ ∀ t, s.task = some t → t.generation = s.generation := by
  cases h
  case inl h => exact absurd (congrArg odd h) hp
  case inr h => exact h

-- The interval of a task of the same generation as the record lies behind it.
theorem Placed.behind (hp : s.Placed r) (hw : s.Writing t) (hg : r.generation = s.generation)
    (ht : t.generation = s.generation) : r.stop ≤ t.offset := by
  have ⟨_, _, _, _, hl⟩ := hp
  have ⟨_, _, _, _, _, hf⟩ := hw
  have := hf.order
  omega

-- The task overlaps the entry only if `dirValid` rejects it.
theorem Inv.disjoint (h : s.Inv) (hd : Stands d r) (hv : s.dirValid d = true)
    (ht : s.task = some t) (hg : odd r.generation ≠ odd t.generation) :
    r.stop ≤ t.offset ∨ t.stop ≤ r.offset := by
  have ⟨hws, hwe, hwg, _⟩ := h.busy t ht
  have ⟨hn, _⟩ := dirValid_iff.mp hv
  have hs := hd.size
  have hl : r.stop = r.offset + r.data.length := rfl
  rw [hws, hwe, hwg, hd.offset, hd.phase] at hn
  by_contra hc
  exact hn ⟨by omega, hg, by omega, by omega⟩

theorem Inv.live (h : s.Inv) (hd : Stands d r) (hp : s.Placed r) (hr : s.Recent r)
    (hv : s.dirValid d = true) : s.Live r := by
  have ⟨_, _, _, _, _, hv'⟩ := dirValid_iff.mp hv
  rw [hd.phase, hd.offset, h.phase] at hv'
  cases hv'
  case inl hv' =>
    have hg := hr.same_phase hv'.1
    refine ⟨.inl hg, fun t ht => ?_⟩
    have hw := h.busy t ht
    by_cases hs : t.generation = s.generation
    case pos => exact .inl (hp.behind hw hg hs)
    case neg =>
      have ⟨_, _, _, _, _, hf⟩ := hw
      have ho := hf.order
      have : t.generation = r.generation + 1 := by omega
      exact h.disjoint hd hv ht (by simp [this, odd_succ])
  case inr hv' =>
    have ⟨hg, ht'⟩ := hr.other_phase hv'.1
    refine ⟨.inr ⟨hg, hv'.2⟩, fun t ht => ?_⟩
    exact h.disjoint hd hv ht (ht' t ht ▸ hv'.1)

theorem Inv.holds (h : s.Inv) {e : Entry (Record × μ)} (he : s.dirs k = some e)
    (hv : s.dirValid e.dir = true) : s.disk.Holds e.dir.offset e.mark.1.data := by
  have ⟨hd, hm, hr⟩ := h.entry k e he
  have hl := h.live hd (h.placed _ hm) hr hv
  exact hd.offset ▸ h.intact (dirValid_iff.mp hv).2.1 _ hm hl

end Sound

section Step

theorem Stands.relink (h : Stands d r) (next : BitVec 16) : Stands (d.setNext next) r where
  offset := h.offset
  size   := h.size
  phase  := h.phase

-- Operations that only take entries away.
theorem Inv.below (h : s.Inv) {dirs' : Table κ (Record × μ)} (hb : dirs'.Below s.dirs) :
    { s with dirs := dirs' }.Inv :=
  { h with
    entry := by
      intro k e' he'
      have ⟨e, next, he, hn⟩ := hb k e' he'
      have ⟨hd, hm, hr⟩ := h.entry k e he
      exact hn ▸ ⟨hd.relink next, hm, hr⟩ }

-- The entries which survive the beginning of a task have recent records: the phase that the first
-- task of a generation removes is the one of the generation before the current one.
theorem Inv.recent_begin (h : s.Inv) (hf : t.Follows s.generation s.writePos)
    {links : κ → BitVec 16} {e' : Entry (Record × μ)} (he : (s.beginFlush t links).dirs k = some e') :
    ∃ e next, s.dirs k = some e ∧ e' = e.relink next ∧
      (s.beginFlush t links).Recent e.mark.1 := by
  have hg := hf.order
  simp only [beginFlush] at he
  split at he
  case isTrue hn =>
    have ⟨e, next, he, hl, hp⟩ := Table.of_removePhase he
    have ⟨hd, _, hr⟩ := h.entry k e he
    refine ⟨e, next, he, hl, hr.imp_right fun hr => absurd hd.phase fun hd => hp ?_⟩
    have : t.generation = e.mark.1.generation + 1 + 1 := by omega
    simp [hd, this, odd_succ]
  case isFalse hn =>
    have ⟨_, _, hr⟩ := h.entry k e' he
    refine ⟨e', _, he, rfl, hr.imp_right fun hr => ⟨hr.1, ?_⟩⟩
    rintro t' ⟨⟩
    exact not_not.mp hn

theorem Layout.beginFlush (h : s.Layout) (ht : s.task = none) (hs : s.start ≤ t.offset)
    (he : t.stop ≤ s.stop) (hf : t.Follows s.generation s.writePos) (links : κ → BitVec 16) :
    (s.beginFlush t links).Layout :=
  { h with
    idle   := nofun
    busy   := by
      rintro t' ⟨⟩
      exact ⟨rfl, rfl, rfl, hs, he, hf⟩
    intact := fun hs r hr hl => h.intact hs r hr ⟨hl.1, by simp [ht]⟩ }

theorem Inv.beginFlush (h : s.Inv) (ht : s.task = none) (hs : s.start ≤ t.offset)
    (he : t.stop ≤ s.stop) (hf : t.Follows s.generation s.writePos) (links : κ → BitVec 16) :
    (s.beginFlush t links).Inv :=
  { h.toLayout.beginFlush ht hs he hf links with
    bound := h.bound
    entry := by
      intro k e' he'
      have ⟨e, next, he, hn, hr⟩ := h.recent_begin hf he'
      have ⟨hd, hm, _⟩ := h.entry k e he
      exact hn ▸ ⟨hd.relink next, hm, hr⟩ }

-- A failed write leaves the interval in an unknown state.
theorem Layout.failFlush (h : s.Layout) : s.failFlush.Layout :=
  { h with
    idle   := fun _ => rfl
    busy   := nofun
    intact := nofun }

theorem Inv.failFlush (h : s.Inv) : s.failFlush.Inv :=
  { h.toLayout.failFlush with
    bound := h.bound
    entry := by
      intro k e he
      have ⟨hd, hm, hr⟩ := h.entry k e he
      exact ⟨hd, hm, hr.imp_right fun hr => ⟨hr.1, nofun⟩⟩ }

theorem Placed.endFlush (hp : s.Placed r) (hw : s.Writing t) : (s.endFlush t).Placed r := by
  have ⟨h₁, h₂, h₃, h₄, hl⟩ := hp
  have ⟨_, _, _, _, _, hf⟩ := hw
  have ho := hf.order
  have hs := hf.offset_lt_stop
  refine ⟨h₁, h₂, h₃, h₄, ?_⟩
  simp only [Ring.endFlush]
  omega

theorem Writing.placed (hw : s.Writing t) (hr : r ∈ t.records) : (s.endFlush t).Placed r := by
  have ⟨_, _, _, hs, he, hf⟩ := hw
  have ⟨h₁, h₂⟩ := hf.sizes_records hr
  have ho := FlushTask.offset_records hr
  have ht := FlushTask.stop_records hr
  exact ⟨hs.trans ho, ht.trans he, h₁, h₂, .inl ⟨FlushTask.generation_records hr, ht⟩⟩

-- What is live after a task has been live before it, and the task did not write over it.
theorem Live.of_endFlush (hl : (s.endFlush t).Live r) (hp : s.Placed r) (hw : s.Writing t)
    (ht : s.task = some t) : s.Live r ∧ (r.stop ≤ t.offset ∨ t.stop ≤ r.offset) := by
  have ⟨hl, _⟩ := hl
  have ⟨_, _, _, _, hp⟩ := hp
  have ⟨_, _, _, _, _, hf⟩ := hw
  have ho := hf.order
  have hs := hf.offset_lt_stop
  simp only [Ring.endFlush] at hl
  have hd : r.stop ≤ t.offset ∨ t.stop ≤ r.offset := by omega
  refine ⟨⟨by omega, fun t' ht' => ?_⟩, hd⟩
  exact Option.some_inj.mp (ht.symm.trans ht') ▸ hd

theorem Recent.endFlush (hr : s.Recent r) (hw : s.Writing t) (ht : s.task = some t) :
    (s.endFlush t).Recent r := by
  have ⟨_, _, _, _, _, hf⟩ := hw
  have ho := hf.order
  simp only [Recent, Ring.endFlush]
  cases hr
  case inl hr =>
    by_cases hg : t.generation = s.generation
    case pos => exact .inl (hr.trans hg.symm)
    case neg => exact .inr ⟨by omega, nofun⟩
  case inr hr =>
    have := hr.2 t ht
    exact .inr ⟨by omega, nofun⟩

theorem Layout.endFlush (h : s.Layout) (ht : s.task = some t) : (s.endFlush t).Layout := by
  have hw := h.busy t ht
  have ⟨_, _, _, hs, he, hf⟩ := hw
  constructor
  case lower  => exact hs.trans hf.offset_lt_stop.le
  case upper  => exact he
  case phase  => rfl
  case idle   => exact fun _ => rfl
  case busy   => exact nofun
  case placed =>
    intro r hr
    cases List.mem_append.mp hr
    case inl hr => exact (h.placed r hr).endFlush hw
    case inr hr => exact hw.placed hr
  case intact =>
    intro hs r hr hl
    cases List.mem_append.mp hr
    case inl hr =>
      have ⟨hl, hd⟩ := hl.of_endFlush (h.placed r hr) hw ht
      exact (h.intact hs r hr hl).agree <| File.agree_writeAt hd
    case inr hr => exact FlushTask.holds_records (File.holds_writeAt hf.buffer_ne_nil) hr

theorem Inv.endFlush (h : s.Inv) (ht : s.task = some t) : (s.endFlush t).Inv :=
  { h.toLayout.endFlush ht with
    bound := h.bound
    entry := by
      intro k e he
      have ⟨hd, hm, hr⟩ := h.entry k e he
      exact ⟨hd, List.mem_append_left _ hm, hr.endFlush (h.busy t ht) ht⟩ }

theorem Layout.write (h : s.Layout) (ht : s.task = some t) {disk' : File}
    (h₁ : s.disk.Agree disk' 0 t.offset) (h₂ : ∀ hi, s.disk.Agree disk' t.stop hi) :
    { s with disk := disk' }.Layout :=
  { h with
    intact := by
      intro hs r hr hl
      apply (h.intact hs r hr hl).agree
      have hsize := (h₂ r.stop).size
      cases hl.2 t ht
      case inl hl => exact h₁.mono (Nat.zero_le _) hsize hl
      case inr hl => exact (h₂ r.stop).mono hl hsize le_rfl }

theorem Inv.write (h : s.Inv) (ht : s.task = some t) {disk' : File}
    (h₁ : s.disk.Agree disk' 0 t.offset) (h₂ : ∀ hi, s.disk.Agree disk' t.stop hi) :
    { s with disk := disk' }.Inv :=
  { h.toLayout.write ht h₁ h₂ with
    bound := h.bound
    entry := h.entry }

-- The log is kept in order by every step, whatever is published.
theorem Layout.step [DecidableEq κ] {e : Event κ} (h : s.Layout) (hs : s.Step e s') :
    s'.Layout ∧ s.generation ≤ s'.generation := by
  cases hs
  case begin t links ht _ hs he hf => exact ⟨h.beginFlush ht hs he hf links, le_rfl⟩
  case refuse => exact ⟨h.failFlush, le_rfl⟩
  case write ht h₁ h₂ => exact ⟨h.write ht h₁ h₂, le_rfl⟩
  case finish t ht =>
    have ⟨_, _, _, _, _, hf⟩ := h.busy t ht
    have hg : s.generation ≤ t.generation := by
      have := hf.order
      omega
    exact ⟨h.endFlush ht, hg⟩
  case fail => exact ⟨h.failFlush, le_rfl⟩
  case broken => exact ⟨{ h with intact := nofun }, le_rfl⟩
  all_goals exact ⟨{ h with }, le_rfl⟩

theorem sectors_bounds {size : Nat} : size ≤ sectors size ∧ sectors size < size + SectorSize := by
  simp only [sectors, SectorSize]
  omega

theorem Placed.stands {size : Nat} {tag : BitVec 16} (hp : s.Placed r) (hb : s.stop ≤ 2 ^ 40)
    (hs : size = r.data.length ∨ size = sectors r.data.length) (ht : tag.toNat < 2 ^ 12)
    (hd : Dir.make r.offset size tag (odd r.generation) = some d) : Stands d r := by
  have ⟨_, hst, h₀, hl, _⟩ := hp
  have ⟨hle, hlt⟩ : r.data.length ≤ size ∧ size < r.data.length + 512 := by
    cases hs
    case inl hs => omega
    case inr hs => exact hs ▸ sectors_bounds
  have hm : size ≤ DirMaxDataSize := by
    simp only [AggBufferSize] at hl
    simp only [DirMaxDataSize]
    omega
  have ho : r.offset < 2 ^ 40 := by
    simp only [Record.stop] at hst
    omega
  have ⟨d', he, hd'⟩ := Dir.make_describes ho (h₀.trans_le hle) hm ht (p := odd r.generation)
  rw [Option.some_inj.mp (hd.symm.trans he)]
  exact ⟨hd'.offset, hle.trans hd'.size, hd'.phase⟩

-- A place that is valid belongs to the current lap or to the one before. The latter is recent unless
-- the task that is being written starts another lap.
theorem Inv.recent (h : s.Inv) (hv : s.allocationValid r.allocation r.data.length = true)
    (ha : ¬(Event.publish k r).Aliases s) : s.Recent r := by
  have ⟨_, _, _, hg⟩ := allocationValid_iff.mp hv
  refine hg.imp And.left fun hg => ⟨hg.1, fun t ht => ?_⟩
  have ⟨_, hwe, hwg, _, _, hf⟩ := h.busy t ht
  have ho := hf.offset_lt_stop
  by_contra hn
  exact ha ⟨by omega, hwg.trans (hf.order.resolve_left fun hc => hn hc.1), hg.1⟩

theorem Inv.set [DecidableEq κ] (h : s.Inv) {size : Nat} {tag : BitVec 16} (hr : r ∈ s.flushed)
    (hv : s.allocationValid r.allocation r.data.length = true)
    (hs : size = r.data.length ∨ size = sectors r.data.length) (ht : tag.toNat < 2 ^ 12)
    (hd : Dir.make r.offset size tag (odd r.generation) = some d) (ha : ¬(Event.publish k r).Aliases s)
    (next : BitVec 16) (m : μ) (fate : Table.Fate κ) : (s.set k (d.setNext next) r m fate).Inv := by
  refine { h with entry := ?_ }
  intro k' e' he'
  cases Table.of_set he'
  case inl he' =>
    have hd := (h.placed r hr).stands h.bound hs ht hd
    exact he'.2 ▸ ⟨hd.relink next, hr, h.recent hv ha⟩
  case inr he' =>
    have ⟨_, e, next, he, hn⟩ := he'
    have ⟨hd, hm, hr⟩ := h.entry k' e he
    exact hn ▸ ⟨hd.relink next, hm, hr⟩

theorem Inv.step [DecidableEq κ] {e : Event κ} (h : s.Inv) (hs : s.Step e s') (ha : ¬e.Aliases s) :
    s'.Inv := by
  cases hs
  case begin t links ht _ hs he hf => exact h.beginFlush ht hs he hf links
  case refuse => exact h.failFlush
  case write ht h₁ h₂ => exact h.write ht h₁ h₂
  case finish ht => exact h.endFlush ht
  case fail => exact h.failFlush
  case broken => exact { h with intact := nofun }
  case publish hr _ hv hs ht hd => exact h.set hr hv hs ht hd ha ..
  case remove hb => exact h.below hb
  case close => exact { h with }

end Step

section Runs

-- The state after `Open`. The entries of a clean checkpoint have been checked against the disk, and
-- their generations are counted from the recovered phase.
structure Opened (s : Ring κ μ) : Prop where
  lower      : s.start ≤ s.writePos
  upper      : s.writePos ≤ s.stop
  bound      : s.stop ≤ 2 ^ 40
  generation : s.generation = if s.phase then 3 else 2
  idle       : s.task = none ∧ s.writingEnd = 0 ∧ s.storageErr = false
  flushed    : ∀ r, r ∈ s.flushed ↔ ∃ k e, s.dirs k = some e ∧ e.mark.1 = r
  placed     : ∀ r ∈ s.flushed, s.Placed r
  entry      : ∀ k e, s.dirs k = some e →
    Stands e.dir e.mark.1 ∧ s.Live e.mark.1 ∧ s.disk.Holds e.mark.1.offset e.mark.1.data

theorem Opened.inv (h : s.Opened) : s.Inv where
  lower  := h.lower
  upper  := h.upper
  bound  := h.bound
  phase  := by
    rw [h.generation]
    cases s.phase <;> rfl
  idle   := fun _ => h.idle.2.1
  busy   := fun t ht => nomatch h.idle.1.symm.trans ht
  placed := h.placed
  intact := by
    intro _ r hr _
    have ⟨k, e, he, hm⟩ := (h.flushed r).mp hr
    exact hm ▸ (h.entry k e he).2.2
  entry  := by
    intro k e he
    have ⟨hd, hl, _⟩ := h.entry k e he
    refine ⟨hd, (h.flushed _).mpr ⟨k, e, he, rfl⟩, ?_⟩
    exact hl.1.imp_right fun hl => ⟨hl.1, fun t ht => nomatch h.idle.1.symm.trans ht⟩

theorem opened_cold {skip len : Nat} (disk : File) (h₁ : metaSize len ≤ len)
    (h₂ : skip + len ≤ 2 ^ 40) : (cold skip len disk : Ring κ μ).Opened where
  lower      := le_rfl
  upper      := Nat.add_le_add_left h₁ _
  bound      := h₂
  generation := rfl
  idle       := ⟨rfl, rfl, rfl⟩
  flushed    := by simp [cold]
  placed     := nofun
  entry      := nofun

variable [DecidableEq κ] {s₀ : Ring κ μ}

theorem Opened.run (h₀ : s₀.Opened) (h : Run Step (fun s e => ¬Event.Aliases s e) s₀ s) : s.Inv :=
  h.invariant (fun _ _ _ => Inv.step) h₀.inv

-- In a run in which no publication aliases the phase of the lap that is being started, the record of
-- every entry that `dirValid` accepts is on the disk.
theorem dirValid_sound (h₀ : s₀.Opened) (h : Run Step (fun s e => ¬Event.Aliases s e) s₀ s)
    {e : Entry (Record × μ)} (he : s.dirs k = some e) (hv : s.dirValid e.dir = true) :
    s.disk.Holds e.dir.offset e.mark.1.data :=
  (h₀.run h).holds he hv

-- A task which is written without anything in between.
def lap (s : Ring κ μ) (t : FlushTask) : Ring κ μ := (s.beginFlush t fun _ => 0).endFlush t

omit [DecidableEq κ] in
theorem dirs_lap (h : t.generation = s.generation) : (s.lap t).dirs = s.dirs := by
  simp [lap, endFlush, beginFlush, h]

theorem run_lap {Ok : Ring κ μ → Event κ → Prop} (ho : ∀ s, Ok s .flush) (ht : s.task = none)
    (he : s.storageErr = false) (hs : s.start ≤ t.offset) (hst : t.stop ≤ s.stop)
    (hf : t.Follows s.generation s.writePos) : Run Step Ok s (s.lap t) := by
  apply Run.step (Run.single (.begin t (fun _ => 0) ht he hs hst hf) (ho _)) _ (ho _)
  exact .finish t rfl

end Runs

section Sample

-- The tasks of a small stripe. The record of 5000 bytes is in the part of the data area that the
-- second lap leaves out because its next record does not fit.
def sampleTask (offset generation : Nat) (sizes : List Nat) : FlushTask where
  offset     := offset
  generation := generation
  additions  := sizes.map fun n => (0, List.replicate n (UInt8.ofNat generation))

def sampleRecord : Record := ⟨⟨20512, 2, 0⟩, List.replicate 5000 2⟩

theorem stop_sampleTask (offset generation : Nat) (sizes : List Nat) :
    (sampleTask offset generation sizes).stop = offset + sizes.sum := by
  simp [FlushTask.stop, FlushTask.buffer, sampleTask, List.flatMap_map, List.length_flatMap]

theorem byte_of_holds_replicate {f : File} {off n i : Nat} {b : UInt8}
    (h : f.Holds off (List.replicate n b)) (hi : i < n) : f.byte (off + i) = b := by
  rw [h.byte (by simpa using hi)]
  simp [hi]

def sampleRing : Ring Bytes Unit := cold 0 32768 ⟨0, fun _ => 0⟩

def sampleLap : Ring Bytes Unit := sampleRing.lap (sampleTask 512 2 [20000, 5000])

theorem follows_sampleTask {offset generation generation' writePos : Nat} {sizes : List Nat}
    (h : generation = generation' ∧ writePos ≤ offset ∨ generation = generation' + 1)
    (h₀ : sizes ≠ []) (hs : ∀ n ∈ sizes, 0 < n ∧ n ≤ AggBufferSize) :
    (sampleTask offset generation sizes).Follows generation' writePos where
  order    := h
  nonempty := by simpa [sampleTask] using h₀
  sizes    := by simpa [sampleTask] using hs

theorem opened_sampleRing : sampleRing.Opened := opened_cold _ (by decide) (by decide)

theorem run_sampleLap {Ok : Ring Bytes Unit → Event Bytes → Prop} (ho : ∀ s, Ok s .flush) :
    Run Step Ok sampleRing sampleLap := by
  apply run_lap ho rfl rfl
  case hs => decide
  case hst => rw [stop_sampleTask]; decide
  case hf => exact follows_sampleTask (.inl ⟨rfl, by decide⟩) (by simp) (by simp [AggBufferSize])

theorem mem_sampleLap : sampleRecord ∈ sampleLap.flushed := by
  apply List.mem_append_right
  simp [FlushTask.records, FlushTask.records.place, sampleTask, sampleRecord,
    -List.reduceReplicate]

def sampleDir : Dir := ⟨0x5020, 0x0200, 0x2000, 0, 0⟩

theorem make_sampleDir : Dir.make sampleRecord.offset (sectors sampleRecord.data.length) 0
    (odd sampleRecord.generation) = some sampleDir := by
  have : sampleRecord.data.length = 5000 := List.length_replicate
  rw [this]
  decide

theorem length_sampleRecord : sampleRecord.data.length = 5000 := List.length_replicate

theorem allocationValid_sampleLap :
    sampleLap.allocationValid sampleRecord.allocation sampleRecord.data.length = true := by
  have hw : sampleLap.writePos = 25512 := stop_sampleTask ..
  rw [allocationValid_iff, length_sampleRecord, hw]
  exact ⟨nofun, by decide, by decide, .inl ⟨rfl, by decide⟩⟩

theorem dirValid_sampleLap : sampleLap.dirValid sampleDir = true := by
  have hw : sampleLap.writePos = 25512 := stop_sampleTask ..
  rw [dirValid_iff, hw]
  exact ⟨nofun, rfl, rfl, by decide, by decide, .inl ⟨rfl, by decide⟩⟩

theorem dirValid_sound_sample : ∃ s : Ring Bytes Unit,
    Run Step (fun s e => ¬Event.Aliases s e) sampleRing s ∧
    s.dirs [120] = some ⟨sampleDir, sampleRecord, ()⟩ ∧ s.dirValid sampleDir = true ∧
    s.disk.Holds 20512 sampleRecord.data := by
  let s := sampleLap.set [120] sampleDir sampleRecord () fun _ => none
  have h : Run Step (fun s e => ¬Event.Aliases s e) sampleRing s := by
    apply Run.step (run_sampleLap fun _ => id)
    case a =>
      exact .publish [120] sampleRecord _ 0 sampleDir 0 () _ mem_sampleLap rfl
        allocationValid_sampleLap (.inr rfl) (by decide) make_sampleDir
    case a => exact fun h => nomatch h.1
  have he : s.dirs [120] = some ⟨sampleDir, sampleRecord, ()⟩ := dirs_set_self ..
  have hv : s.dirValid sampleDir = true := dirValid_sampleLap
  exact ⟨s, h, he, hv, dirValid_sound opened_sampleRing h he hv⟩

-- The publication while the first task of the third lap is being written survives the removal of its
-- phase, and the next task of the lap makes it valid again, but over the bytes of another record.
theorem dirValid_unsound : ∃ s : Ring Bytes Unit,
    Run Step (fun _ _ => True) sampleRing s ∧
    s.dirs [120] = some ⟨sampleDir, sampleRecord, ()⟩ ∧ s.dirValid sampleDir = true ∧
    ¬s.disk.Holds 20512 sampleRecord.data := by
  let s₂ := sampleLap.lap (sampleTask 512 3 [20000])
  let s₃ := s₂.beginFlush (sampleTask 512 4 [15000]) fun _ => 0
  let s₄ := s₃.set [120] sampleDir sampleRecord () fun _ => none
  let s₅ := s₄.endFlush (sampleTask 512 4 [15000])
  let s₆ := s₅.lap (sampleTask 15512 4 [15000])
  have ht : ∀ s, (fun (_ : Ring Bytes Unit) (_ : Event Bytes) => True) s .flush := fun _ => trivial
  have h₂ : Run Step (fun _ _ => True) sampleRing s₂ := by
    apply (run_sampleLap ht).trans
    apply run_lap ht rfl rfl (by decide) (by rw [stop_sampleTask]; decide)
    exact follows_sampleTask (.inr rfl) (by simp) (by simp [AggBufferSize])
  have h₃ : Run Step (fun _ _ => True) sampleRing s₃ := by
    apply h₂.step _ trivial (e := .flush)
    apply Step.begin _ _ rfl rfl (by decide) (by rw [stop_sampleTask]; decide)
    exact follows_sampleTask (.inr rfl) (by simp) (by simp [AggBufferSize])
  have hv : s₃.allocationValid sampleRecord.allocation sampleRecord.data.length = true := by
    have hw : s₃.writePos = 20512 := stop_sampleTask ..
    have he : s₃.writingEnd = 15512 := stop_sampleTask ..
    rw [allocationValid_iff, length_sampleRecord, hw, he]
    exact ⟨fun h => absurd h.2.2.1 (by decide), by decide, by decide, .inr ⟨rfl, by decide⟩⟩
  have h₄ : Run Step (fun _ _ => True) sampleRing s₄ := by
    apply h₃.step _ trivial (e := .publish [120] sampleRecord)
    have hm : sampleRecord ∈ s₃.flushed := List.mem_append_left _ mem_sampleLap
    exact .publish _ _ _ 0 sampleDir 0 () _ hm rfl hv (.inr rfl) (by decide) make_sampleDir
  have h₅ : Run Step (fun _ _ => True) sampleRing s₅ := h₄.step (.finish _ rfl) trivial
  have h₆ : Run Step (fun _ _ => True) sampleRing s₆ := by
    apply h₅.trans
    apply run_lap ht rfl rfl (by decide) (by rw [stop_sampleTask]; decide)
    have hw : s₅.writePos = 15512 := stop_sampleTask ..
    exact follows_sampleTask (.inl ⟨rfl, hw.le⟩) (by simp) (by simp [AggBufferSize])
  have he : s₆.dirs [120] = some ⟨sampleDir, sampleRecord, ()⟩ := by
    have hs : s₄.dirs [120] = some ⟨sampleDir, sampleRecord, ()⟩ := dirs_set_self s₃ ..
    have hd : s₆.dirs = s₅.dirs := dirs_lap rfl
    exact (congrFun hd [120]).trans hs
  refine ⟨s₆, h₆, he, ?_, fun hn => ?_⟩
  case refine_1 =>
    have hw : s₆.writePos = 30512 := stop_sampleTask ..
    rw [dirValid_iff, hw]
    exact ⟨nofun, rfl, rfl, by decide, by decide, .inl ⟨rfl, by decide⟩⟩
  case refine_2 =>
    have hb : (sampleTask 15512 4 [15000]).buffer = List.replicate 15000 4 := by
      simp [FlushTask.buffer, sampleTask, -List.reduceReplicate]
    have hf : s₆.disk.Holds 15512 (List.replicate 15000 4) :=
      hb ▸ File.holds_writeAt (by simp [hb, -List.reduceReplicate])
    have h₁ : s₆.disk.byte 20512 = 4 := byte_of_holds_replicate hf (i := 5000) (by decide)
    have h₂ : s₆.disk.byte 20512 = 2 := byte_of_holds_replicate hn (i := 0) (by decide)
    exact absurd (h₁.symm.trans h₂) (by decide)

end Sample

end Ring
end Bakemono
