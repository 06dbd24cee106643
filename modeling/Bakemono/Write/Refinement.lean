import Bakemono.Lib.Except
import Bakemono.Write.AggBuffer
import Bakemono.Write.Log

namespace Bakemono

namespace Log

variable {l : Log} {lo hi pos : Nat}

theorem Fits.buffer_eq_nil_iff {t : FlushTask} (h : Fits lo hi pos t) :
    t.buffer.length = 0 ↔ t.additions = [] := by
  rw [List.length_eq_zero_iff, FlushTask.buffer, List.flatMap_eq_nil_iff]
  constructor
  case mp =>
    intro hn
    by_contra hc
    obtain ⟨a, ha⟩ := List.exists_mem_of_ne_nil _ hc
    have := h.sizes a ha
    simp [hn a ha] at this
  case mpr =>
    intro hn
    simp [hn]

end Log

namespace AggregateWriteBuffer

variable {b b' : AggregateWriteBuffer} {l l' : Log} {lo hi pos generation : Nat} {data : Bytes}

-- The task was sent for this task of the log.
structure Emits (e : Task × Bytes) (t : FlushTask) : Prop where
  offset     : e.1.offset = t.offset
  generation : e.1.generation = t.generation
  length     : e.1.length = t.buffer.length
  bytes      : e.2 = t.buffer

-- The buffer at the index holds the task of the log.
structure Gathers (b : AggregateWriteBuffer) (i : Bool) (t : FlushTask) (sequence : Nat) : Prop where
  pos   : b.bufferPos i = t.buffer.length
  bytes : (b.buffers i).Holds 0 t.buffer
  head  : t.additions ≠ [] → b.bufferStart i = t.offset ∧ b.bufferGeneration i = t.generation ∧
    b.bufferSequence i = sequence

-- The task that has been sent and is not acknowledged yet, either in the channel or with the worker.
structure Outstanding (b : AggregateWriteBuffer) (t : Task) (p : Bytes) : Prop where
  last   : b.emitted.getLast? = some (t, p)
  count  : b.acknowledged.length + 1 = b.emitted.length
  buffer : t.buffer = !b.activeIdx
  intact : b.content t = p
  owner  : b.flushChan = [t] ∧ b.worker = none ∨ b.flushChan = [] ∧ b.worker = some t

-- The aggregate buffer and the log for which it stands. After an error the active buffer is lost.
structure Represents (lo hi : Nat) (b : AggregateWriteBuffer) (l : Log) : Prop where
  bounds    : b.minOffset = lo ∧ b.maxOffset = hi
  added     : b.added = l.records
  cursor    : b.writeCursor = l.last.stop ∧ b.generation = l.last.generation
  sequence  : b.sequence = l.records.length
  emitted   : List.Forall₂ Emits b.emitted l.tasks
  size      : ∀ i, (b.buffers i).size = AggBufferSize
  active    : b.err = none → b.Gathers b.activeIdx l.last l.records.length
  errors    : b.err = none → ∀ e ∈ b.acknowledged, e = none
  completed : b.completed = ((l.tasks.take b.acknowledged.length).flatMap FlushTask.records).length
  idle      : b.isFlushing = false →
    b.flushChan = [] ∧ b.worker = none ∧ b.acknowledged.length = b.emitted.length
  busy      : b.isFlushing = true →
    b.bufferSequence (!b.activeIdx) = l.closedRecords.length ∧ ∃ t p, b.Outstanding t p

theorem represents_opened : Represents (opened lo hi pos generation).minOffset hi
    (opened lo hi pos generation) (.opened pos generation) := by
  constructor
  case bounds => exact ⟨rfl, rfl⟩
  case active =>
    intro _
    exact ⟨rfl, ⟨by simp [Log.opened, FlushTask.buffer], rfl⟩, (absurd rfl ·)⟩
  all_goals simp [opened, initPosition, setBounds, Log.opened, Log.records, Log.closedRecords,
    FlushTask.stop, FlushTask.buffer, FlushTask.records, FlushTask.records.place]

section SwapAndFlush

theorem swapAndFlush_eq_self (h : b.isFlushing = true ∨ b.bufferPos b.activeIdx = 0 ∨ b.err ≠ none) :
    b.swapAndFlush = b := by
  refine if_pos ?_
  simpa [Option.isSome_iff_ne_none] using h

theorem Represents.cut (h : Represents lo hi b l) (hf : b.isFlushing = false) (he : b.err = none)
    (hn : b.bufferPos b.activeIdx ≠ 0) : Represents lo hi b.swapAndFlush l.cut := by
  have hg := h.active he
  obtain ⟨hc, hw, ha⟩ := h.idle hf
  have hl := h.emitted.length_eq
  have hadd : l.last.additions ≠ [] := by
    intro hc
    simp [hg.pos, FlushTask.buffer, hc] at hn
  obtain ⟨hstart, hgen, hseq⟩ := hg.head hadd
  have hcont : b.content b.pending = l.last.buffer := by
    simp only [content, pending, hg.pos]
    exact hg.bytes.read
  have hswap : b.swapAndFlush = { b with
      isFlushing := true
      activeIdx  := !b.activeIdx
      bufferPos  := Function.update b.bufferPos (!b.activeIdx) 0
      flushChan  := b.flushChan ++ [b.pending]
      emitted    := b.emitted ++ [(b.pending, b.content b.pending)] } := if_neg (by simp [hf, hn, he])
  rw [hswap]
  constructor
  case bounds => exact h.bounds
  case added => rw [Log.records_cut]; exact h.added
  case cursor => exact ⟨h.cursor.1, h.cursor.2⟩
  case sequence => rw [Log.records_cut]; exact h.sequence
  case emitted =>
    refine List.rel_append h.emitted (.cons ⟨hstart, hgen, hg.pos, hcont⟩ .nil)
  case size => exact h.size
  case active =>
    intro _
    refine ⟨by simp [Log.cut, FlushTask.buffer], ⟨by simp [Log.cut, FlushTask.buffer], rfl⟩, ?_⟩
    exact (absurd rfl ·)
  case errors => exact h.errors
  case completed =>
    simp only [Log.cut, h.completed]
    rw [List.take_append_of_le_length (by omega)]
  case idle => simp
  case busy =>
    intro _
    refine ⟨?_, b.pending, b.content b.pending, ?_⟩
    case refine_1 =>
      simp only [Bool.not_not, hseq, Log.closedRecords, Log.cut, Log.records]
      simp
    case refine_2 =>
      refine ⟨by simp, by simp [ha], by simp [pending], rfl, .inl ⟨by simp [hc], hw⟩⟩

theorem Represents.pos_eq_zero_iff (h : Represents lo hi b l) (hl : Log.Fits lo hi pos l.last)
    (he : b.err = none) : b.bufferPos b.activeIdx = 0 ↔ l.last.additions = [] := by
  rw [(h.active he).pos, hl.buffer_eq_nil_iff]

-- Several steps of the log.
abbrev Steps (lo hi : Nat) : Log → Log → Prop := Relation.ReflTransGen (Log.Step lo hi)

-- If no task is outstanding, then the active buffer is empty afterwards.
theorem Represents.swapAndFlush (h : Represents lo hi b l) (hl : Log.Fits lo hi pos l.last) : ∃ l',
    Steps lo hi l l' ∧ Represents lo hi b.swapAndFlush l' ∧
    (b.isFlushing = false → b.err = none → l'.last.additions = [] ∧ l'.last.offset = l.last.stop ∧
      l'.last.generation = l.last.generation) := by
  by_cases hg : b.isFlushing = true ∨ b.bufferPos b.activeIdx = 0 ∨ b.err ≠ none
  case pos =>
    rw [swapAndFlush_eq_self hg]
    refine ⟨l, .refl, h, fun hf he => ?_⟩
    have hn : l.last.additions = [] := by
      rw [← h.pos_eq_zero_iff hl he]
      simpa [hf, he] using hg
    exact ⟨hn, by simp [FlushTask.stop, FlushTask.buffer, hn], rfl⟩
  case neg =>
    simp only [not_or, Bool.not_eq_true, not_not] at hg
    have hn := mt (h.pos_eq_zero_iff hl hg.2.2).mpr hg.2.1
    exact ⟨l.cut, .single (.cut hn), h.cut hg.1 hg.2.2 hg.2.1, fun _ _ => ⟨rfl, rfl, rfl⟩⟩

end SwapAndFlush

section Add

theorem append_eq : (b.append data).2 =
    if b.bufferPos b.activeIdx + data.length ≥ AggHighWaterMark ∧ ¬b.isFlushing then
      (b.put data).swapAndFlush
    else
      b.put data := rfl

theorem Represents.put (h : Represents lo hi b l) (hl : Log.Fits lo hi pos l.last) (he : b.err = none)
    (h₀ : 0 < data.length) (hs : b.bufferPos b.activeIdx + data.length ≤ AggBufferSize) :
    Represents lo hi (b.put data) (l.append data) := by
  have hg := h.active he
  have htake : data.take ((b.buffers b.activeIdx).size - b.bufferPos b.activeIdx) = data := by
    rw [h.size]
    exact List.take_of_length_le (by omega)
  have hidx : (!b.activeIdx) ≠ b.activeIdx := by simp
  constructor
  case bounds => exact h.bounds
  case added =>
    rw [Log.records_append, AggregateWriteBuffer.put, h.added, h.cursor.1, h.cursor.2, h.sequence]
  case cursor => exact ⟨by rw [Log.append, FlushTask.stop_append, ← h.cursor.1]; rfl, h.cursor.2⟩
  case sequence => simp [AggregateWriteBuffer.put, h.sequence]
  case emitted => exact h.emitted
  case size =>
    intro i
    simp only [AggregateWriteBuffer.put, Function.update_apply]
    split
    case isTrue hi => rw [htake, File.size_writeAt (by rw [h.size]; exact hs), h.size]
    case isFalse => exact h.size i
  case active =>
    intro _
    constructor
    case pos => simp [AggregateWriteBuffer.put, Log.append, hg.pos]
    case bytes =>
      simp only [AggregateWriteBuffer.put, Function.update_self, htake, Log.append,
        FlushTask.buffer_append]
      rw [hg.pos]
      exact hg.bytes.writeAt (List.ne_nil_of_length_pos h₀)
    case head =>
      intro _
      simp only [AggregateWriteBuffer.put, Function.update_self, h.sequence, Log.records_append,
        List.length_append, List.length_singleton, and_true]
      split
      case isTrue hz =>
        have hn := (h.pos_eq_zero_iff hl he).mp hz
        simp [Log.append, FlushTask.append, h.cursor, FlushTask.stop, FlushTask.buffer, hn]
      case isFalse hz =>
        obtain ⟨h₁, h₂, _⟩ := hg.head (mt (h.pos_eq_zero_iff hl he).mpr hz)
        exact ⟨h₁, h₂⟩
  case errors => exact h.errors
  case completed => exact h.completed
  case idle => exact h.idle
  case busy =>
    intro hf
    obtain ⟨hseq, t, p, ho⟩ := h.busy hf
    refine ⟨?_, t, p, ho.last, ho.count, ho.buffer, ?_, ho.owner⟩
    case refine_1 => exact (Function.update_of_ne hidx _ _).trans hseq
    case refine_2 =>
      rw [← ho.intact]
      simp only [content, AggregateWriteBuffer.put, ho.buffer, Function.update_of_ne hidx]

theorem Represents.append (h : Represents lo hi b l) (hv : l.Valid lo hi pos generation)
    (he : b.err = none) (h₀ : 0 < data.length) (hh : hi = 0 ∨ b.writeCursor + data.length ≤ hi)
    (hs : b.bufferPos b.activeIdx + data.length ≤ AggBufferSize) :
    ∃ l', Steps lo hi l l' ∧ Represents lo hi (b.append data).2 l' := by
  have hp := h.put hv.last he h₀ hs
  rw [h.cursor.1] at hh
  rw [(h.active he).pos] at hs
  have hstep : Log.Step lo hi l (l.append data) := .append data h₀ hh hs
  rw [append_eq]
  split
  case isTrue =>
    have ⟨l', hs', hr, _⟩ := hp.swapAndFlush (hv.step hstep).last
    exact ⟨l', .head hstep hs', hr⟩
  case isFalse => exact ⟨_, .single hstep, hp⟩

-- The place behind the end of the ring is not used.
theorem Represents.wrap (h : Represents lo hi b l) (hn : l.last.additions = []) :
    Represents lo hi b.wrap (l.wrap lo) where
  bounds    := h.bounds
  added     := (Log.records_wrap hn).symm ▸ h.added
  cursor    := ⟨h.bounds.1, congrArg (· + 1) h.cursor.2⟩
  sequence  := (Log.records_wrap hn).symm ▸ h.sequence
  emitted   := h.emitted
  size      := h.size
  active he := by
    have hg := h.active he
    have hb : (l.wrap lo).last.buffer = l.last.buffer := by simp [Log.wrap, FlushTask.buffer, hn]
    exact ⟨hb ▸ hg.pos, hb ▸ hg.bytes, (absurd rfl ·)⟩
  errors    := h.errors
  completed := h.completed
  idle      := h.idle
  busy hf   := by
    obtain ⟨hs, t, p, ho⟩ := h.busy hf
    exact ⟨hs, t, p, ho.last, ho.count, ho.buffer, ho.intact, ho.owner⟩

-- What an iteration of `addContext` can do if it does not return an error.
theorem addPass_cases {cancelled : Option Err} {pass : Pass}
    (h : b.addPass cancelled data = .ok (pass, b')) :
    b.err = none ∧
    (b' = b ∨ b' = b.swapAndFlush ∨
      b.isFlushing = false ∧ 0 < b.maxOffset ∧ b.maxOffset < b.writeCursor + data.length ∧
        b' = b.swapAndFlush.wrap ∨
      (b.maxOffset = 0 ∨ b.writeCursor + data.length ≤ b.maxOffset) ∧
        b.bufferPos b.activeIdx + data.length ≤ AggBufferSize ∧ b' = (b.append data).2) := by
  unfold addPass at h
  cases he : b.err
  case some => simp [he, throw, throwThe, MonadExceptOf.throw, bind, Except.bind] at h
  case none =>
    cases cancelled
    case some =>
      simp only [he, Except.check_bind_eq_ok] at h
      cases h.2
    case none =>
      simp only [he, Except.check_bind_eq_ok] at h
      refine ⟨rfl, ?_⟩
      replace h := h.2
      split_ifs at h <;> cases h
      case pos => exact .inl rfl
      case neg hw hf => exact .inr (.inr (.inl ⟨by simpa using hf, hw.1, hw.2, rfl⟩))
      case pos hw hs => exact .inr (.inr (.inr ⟨by omega, hs, rfl⟩))
      case pos => exact .inl rfl
      case neg => exact .inr (.inl rfl)

theorem flushPass_cases {cancelled : Option Err} {target : Nat} {done : Option Unit}
    (h : b.flushPass cancelled target = .ok (done, b')) :
    b.err = none ∧ (done = some () ∧ b.completed ≥ target ∧ b' = b ∨ done = none ∧ b' = b.swapAndFlush) := by
  unfold flushPass at h
  cases he : b.err
  case some => simp [he, throw, throwThe, MonadExceptOf.throw, bind, Except.bind] at h
  case none =>
    cases cancelled
    case some => simp [he, throw, throwThe, MonadExceptOf.throw, bind, Except.bind] at h
    case none =>
      simp only [he] at h
      refine ⟨rfl, ?_⟩
      split_ifs at h with ht <;> cases h
      case pos => exact .inl ⟨rfl, ht, rfl⟩
      case neg => exact .inr ⟨rfl, rfl⟩

theorem Represents.addPass (h : Represents lo hi b l) (hv : l.Valid lo hi pos generation)
    {cancelled : Option Err} {pass : Pass} (hf : b.fits data)
    (hp : b.addPass cancelled data = .ok (pass, b')) :
    ∃ l', Steps lo hi l l' ∧ Represents lo hi b' l' := by
  have ⟨he, hc⟩ := addPass_cases hp
  have ⟨h₀, _, hd⟩ : 0 < data.length ∧ data.length ≤ AggBufferSize ∧
      (hi = 0 ∨ lo < hi ∧ data.length ≤ hi - lo) := by
    simpa only [fits, h.bounds.1, h.bounds.2, decide_eq_true_eq] using hf
  obtain rfl | rfl | ⟨hi', hm, hw, rfl⟩ | ⟨hw, hs, rfl⟩ := hc
  case inl => exact ⟨l, .refl, h⟩
  case inr.inl =>
    have ⟨l', hs, hr, _⟩ := h.swapAndFlush hv.last
    exact ⟨l', hs, hr⟩
  case inr.inr.inl =>
    -- The record fits into the ring, so that the place at which it does not is not the first one.
    have ⟨l', hs, hr, hn⟩ := h.swapAndFlush hv.last
    have ⟨hn, ho, _⟩ := hn hi' he
    have hlt : lo < l'.last.offset := by
      rw [h.bounds.2] at hw hm
      rw [h.cursor.1] at hw
      omega
    exact ⟨l'.wrap lo, hs.tail (.wrap hn hlt), hr.wrap hn⟩
  case inr.inr.inr =>
    rw [h.bounds.2] at hw
    exact h.append hv he h₀ hw hs

end Add

theorem Represents.receive (h : Represents lo hi b l) (hc : b.flushChan = t :: rest) :
    Represents lo hi (b.receive t rest) l := by
  have hf : b.isFlushing = true := by
    by_contra hf
    have ⟨hn, _⟩ := h.idle (by simpa using hf)
    simp [hn] at hc
  have ⟨hseq, t', p, ho⟩ := h.busy hf
  have ⟨hc', _⟩ := ho.owner.resolve_right fun hn => by simp [hn.1] at hc
  obtain ⟨rfl, rfl⟩ := List.cons.inj (hc.symm.trans hc')
  exact
    { h with
      active := fun he => by
        have hg := h.active he
        exact ⟨hg.pos, hg.bytes, hg.head⟩
      idle := fun hi => by simp [AggregateWriteBuffer.receive, hf] at hi
      busy := fun _ => ⟨hseq, t, p, ho.last, ho.count, ho.buffer, ho.intact, .inr ⟨rfl, rfl⟩⟩ }

theorem Represents.notifyFlushDone (h : Represents lo hi b l) (hw : b.worker = some t)
    (err : Option Err) : Represents lo hi (b.notifyFlushDone err) l := by
  have hf : b.isFlushing = true := by
    by_contra hf
    have ⟨_, hn, _⟩ := h.idle (by simpa using hf)
    simp [hn] at hw
  have ⟨hseq, t', p, ho⟩ := h.busy hf
  have ⟨hc, _⟩ := ho.owner.resolve_left fun hn => by simp [hn.2] at hw
  have hl := h.emitted.length_eq
  have hcount := ho.count
  constructor
  case bounds => exact h.bounds
  case added => exact h.added
  case cursor => exact h.cursor
  case sequence => exact h.sequence
  case emitted => exact h.emitted
  case size => exact h.size
  case active =>
    intro he
    have ⟨he', hn⟩ : b.err = none ∧ err = none := by
      simpa [AggregateWriteBuffer.notifyFlushDone] using he
    have hg := h.active he'
    refine ⟨?_, hg.bytes, hg.head⟩
    simpa [AggregateWriteBuffer.notifyFlushDone, he', hn] using hg.pos
  case errors =>
    intro he
    have ⟨he', hn⟩ : b.err = none ∧ err = none := by
      simpa [AggregateWriteBuffer.notifyFlushDone] using he
    intro e hm
    cases List.mem_append.mp hm
    case inl hm => exact h.errors he' e hm
    case inr hm => exact (List.mem_singleton.mp hm).trans hn
  case completed =>
    simp only [AggregateWriteBuffer.notifyFlushDone, hf, if_true, hseq, List.length_append,
      List.length_singleton, hcount, hl, List.take_length]
    rfl
  case idle =>
    intro _
    exact ⟨hc, rfl, by simpa [AggregateWriteBuffer.notifyFlushDone] using hcount⟩
  case busy => exact nofun

theorem Represents.fail (h : Represents lo hi b l) (err : Err) : Represents lo hi (b.fail err) l :=
  { h with
    active := fun he => by simp [AggregateWriteBuffer.fail] at he
    errors := fun he => by simp [AggregateWriteBuffer.fail] at he
    busy   := fun hf => by
      have ⟨hs, t, p, ho⟩ := h.busy hf
      exact ⟨hs, t, p, ho.last, ho.count, ho.buffer, ho.intact, ho.owner⟩ }

theorem Represents.stopAdds (h : Represents lo hi b l) : Represents lo hi b.stopAdds l :=
  { h with
    active := fun he => by
      have hg := h.active he
      exact ⟨hg.pos, hg.bytes, hg.head⟩
    busy   := fun hf => by
      have ⟨hs, t, p, ho⟩ := h.busy hf
      exact ⟨hs, t, p, ho.last, ho.count, ho.buffer, ho.intact, ho.owner⟩ }

-- Every critical section is simulated by steps of the log.
theorem Represents.step (h : Represents lo hi b l) (hv : l.Valid lo hi pos generation) {e : Event}
    (hs : Step b e b') : ∃ l', Steps lo hi l l' ∧ Represents lo hi b' l' := by
  have hswap : ∃ l', Steps lo hi l l' ∧ Represents lo hi b.swapAndFlush l' := by
    have ⟨l', hs, hr, _⟩ := h.swapAndFlush hv.last
    exact ⟨l', hs, hr⟩
  cases hs
  case add hf hp => exact h.addPass hv hf hp
  case triggerFlush => exact hswap
  case flushThrough hp =>
    obtain ⟨_, ⟨_, _, rfl⟩ | ⟨_, rfl⟩⟩ := flushPass_cases hp
    case inl => exact ⟨l, .refl, h⟩
    case inr => exact hswap
  case receive t rest _ hc => exact ⟨l, .refl, h.receive hc⟩
  case notifyFlushDone t err hw => exact ⟨l, .refl, h.notifyFlushDone hw err⟩
  case fail err => exact ⟨l, .refl, h.fail err⟩
  case stopAdds => exact ⟨l, .refl, h.stopAdds⟩

-- The states which are reached by any interleaving of critical sections.
abbrev Reaches (b b' : AggregateWriteBuffer) : Prop := Run Step (fun _ _ => True) b b'

theorem Represents.run (h : Represents lo hi b l) (hv : l.Valid lo hi pos generation)
    (hr : Reaches b b') :
    ∃ l', Steps lo hi l l' ∧ l'.Valid lo hi pos generation ∧ Represents lo hi b' l' := by
  induction hr
  case refl => exact ⟨l, .refl, hv, h⟩
  case step hs _ hi =>
    have ⟨l₁, hs₁, hv₁, h₁⟩ := hi
    have ⟨l₂, hs₂, h₂⟩ := h₁.step hv₁ hs
    exact ⟨l₂, hs₁.trans hs₂, hv₁.steps hs₂, h₂⟩

-- The record stands in the bytes of the task, at the place and in the lap of its allocation.
structure Contains (e : Task × Bytes) (r : Record) : Prop where
  generation : r.generation = e.1.generation
  offset     : e.1.offset ≤ r.offset
  bytes      : e.2.slice (r.offset - e.1.offset) r.data.length = r.data

-- The bytes are those of the records, which all stand in them.
structure Holds (e : Task × Bytes) (records : List Record) : Prop where
  bytes    : e.2 = records.flatMap Record.data
  contains : ∀ r ∈ records, Contains e r

-- What the tasks and the active buffer are, in terms of the additions.
structure IsLog (lo hi pos generation : Nat) (b : AggregateWriteBuffer) : Prop where
  bytes       : b.err = none →
    b.emitted.flatMap Prod.snd ++ b.content b.pending = b.added.flatMap Record.data
  sequence    : b.added.map (·.allocation.sequence) = List.range' 1 b.added.length
  order       : (Log.origin pos generation :: b.added).IsChain fun r r' =>
    Continues lo r.generation r.stop r'.generation r'.offset
  disjoint    : b.added.Pairwise fun r r' =>
    r.generation < r'.generation ∨ r.generation = r'.generation ∧ r.stop ≤ r'.offset
  tasks       : ∃ (groups : List (List Record)) (rest : List Record),
    b.added = groups.flatten ++ rest ∧ (∀ g ∈ groups, g ≠ []) ∧ List.Forall₂ Holds b.emitted groups ∧
    (b.err = none → Holds (b.pending, b.content b.pending) rest)
  inside      : ∀ e ∈ b.emitted, lo ≤ e.1.offset ∧ e.1.offset + e.2.length ≤ hi
  laps        : b.emitted.IsChain fun e e' =>
    e'.1.generation = e.1.generation ∨ e'.1.generation = e.1.generation + 1
  outstanding : b.emitted.length = b.acknowledged.length + b.flushChan.length + b.worker.toList.length ∧
    b.flushChan.length + b.worker.toList.length ≤ 1
  intact      : ∀ e ∈ b.emitted.drop b.acknowledged.length, b.content e.1 = e.2

theorem Emits.holds {e : Task × Bytes} {t : FlushTask} (h : Emits e t) : Holds e t.records where
  bytes    := h.bytes.trans FlushTask.data_records.symm
  contains := fun r hr => by
    refine ⟨(FlushTask.generation_records hr).trans h.generation.symm, ?_, ?_⟩
    case refine_1 => exact h.offset ▸ FlushTask.offset_records hr
    case refine_2 => rw [h.bytes, h.offset, FlushTask.slice_records hr]

section Results

theorem Represents.emits_pending (h : Represents lo hi b l) (he : b.err = none)
    (hn : l.last.additions ≠ []) : Emits (b.pending, b.content b.pending) l.last := by
  have hg := h.active he
  have ⟨ho, hgen, _⟩ := hg.head hn
  refine ⟨ho, hgen, hg.pos, ?_⟩
  simp only [content, pending, hg.pos]
  exact hg.bytes.read

theorem Represents.holds_pending (h : Represents lo hi b l) (he : b.err = none) :
    Holds (b.pending, b.content b.pending) l.last.records := by
  by_cases hn : l.last.additions = []
  case neg => exact (h.emits_pending he hn).holds
  case pos =>
    have hr := FlushTask.records_eq_nil_iff.mpr hn
    have hp : b.bufferPos b.activeIdx = 0 := by
      rw [(h.active he).pos]
      simp [FlushTask.buffer, hn]
    rw [hr]
    exact ⟨by simp [content, pending, hp, File.read], by simp⟩

-- What is known of the tasks of the log is known of the tasks that were sent.
theorem Represents.map_emitted (h : Represents lo hi b l) {α : Type} {f : Task × Bytes → α}
    {g : FlushTask → α} (hfg : ∀ e t, Emits e t → f e = g t) : b.emitted.map f = l.tasks.map g := by
  rw [← List.forall₂_eq_eq_eq, List.forall₂_map_left_iff, List.forall₂_map_right_iff]
  exact h.emitted.imp hfg

theorem Represents.bytes (h : Represents lo hi b l) (he : b.err = none) :
    b.emitted.flatMap Prod.snd ++ b.content b.pending = b.added.flatMap Record.data := by
  have hp : b.content b.pending = l.last.records.flatMap Record.data := (h.holds_pending he).bytes
  have ht : b.emitted.flatMap Prod.snd = l.closedRecords.flatMap Record.data := by
    rw [Log.closedRecords, List.flatMap_assoc, List.flatMap_def, List.flatMap_def]
    exact congrArg List.flatten (h.map_emitted fun _ _ he => he.holds.bytes)
  rw [h.added, Log.records, List.flatMap_append, ht, hp]

theorem Represents.laps (h : Represents lo hi b l) (hv : l.Valid lo hi pos generation) :
    b.emitted.IsChain fun e e' =>
      e'.1.generation = e.1.generation ∨ e'.1.generation = e.1.generation + 1 := by
  have hm : b.emitted.map (·.1.generation) = l.tasks.map FlushTask.generation :=
    h.map_emitted fun _ _ he => he.generation
  have hc : (l.tasks.map FlushTask.generation).IsChain fun g g' => g' = g ∨ g' = g + 1 := by
    rw [List.isChain_map]
    exact hv.laps.tail.imp fun _ _ ht => ht.imp And.left And.left
  rw [← hm, List.isChain_map] at hc
  exact hc

theorem Represents.outstanding (h : Represents lo hi b l) :
    b.emitted.length = b.acknowledged.length + b.flushChan.length + b.worker.toList.length ∧
    b.flushChan.length + b.worker.toList.length ≤ 1 := by
  cases hf : b.isFlushing
  case false =>
    have ⟨hc, hw, ha⟩ := h.idle hf
    simp [hc, hw, ha]
  case true =>
    have ⟨_, t, p, ho⟩ := h.busy hf
    obtain ⟨hc, hw⟩ | ⟨hc, hw⟩ := ho.owner
    all_goals simp [hc, hw, ← ho.count]

theorem Represents.intact (h : Represents lo hi b l) :
    ∀ e ∈ b.emitted.drop b.acknowledged.length, b.content e.1 = e.2 := by
  cases hf : b.isFlushing
  case false =>
    have ⟨_, _, ha⟩ := h.idle hf
    simp [ha]
  case true =>
    have ⟨_, t, p, ho⟩ := h.busy hf
    have ⟨earlier, he⟩ := List.getLast?_eq_some_iff.mp ho.last
    have hl : b.acknowledged.length = earlier.length := by
      have := ho.count
      simp [he] at this
      exact this
    rw [he, hl, List.drop_left]
    intro e hm
    rw [List.mem_singleton.mp hm]
    exact ho.intact

theorem Represents.isLog (h : Represents lo hi b l) (hv : l.Valid lo hi pos generation)
    (hb : lo < hi) (hp : lo ≤ pos) : b.IsLog lo hi pos generation where
  bytes       := h.bytes
  sequence    := h.added ▸ hv.sequence
  order       := h.added ▸ hv.order
  disjoint    := h.added ▸ hv.disjoint
  tasks       := by
    refine ⟨l.tasks.map FlushTask.records, l.last.records, ?_, ?_, ?_, h.holds_pending⟩
    case refine_1 => rw [h.added, Log.records, Log.closedRecords, List.flatMap_def]
    case refine_2 =>
      simp only [List.mem_map, forall_exists_index, and_imp, forall_apply_eq_imp_iff₂]
      exact fun t ht => mt FlushTask.records_eq_nil_iff.mp (hv.tasks t ht).2
    case refine_3 => exact List.forall₂_map_right_iff.mpr (h.emitted.imp fun _ _ he => he.holds)
  inside      := by
    intro e he
    have hm : b.emitted.map (fun e => (e.1.offset, e.2.length)) =
        l.tasks.map fun t => (t.offset, t.buffer.length) :=
      h.map_emitted fun _ _ he => by rw [he.offset, he.bytes]
    obtain ⟨t, ht, hte⟩ := List.mem_map.mp (hm ▸ List.mem_map_of_mem he)
    obtain ⟨ho, hl⟩ := Prod.mk.inj hte
    obtain ⟨hf, hn⟩ := hv.tasks t ht
    have hlo := hf.lower
    have hhi := hf.upper hn
    rw [FlushTask.stop] at hhi
    omega
  laps        := h.laps hv
  outstanding := h.outstanding
  intact      := h.intact

-- The aggregate buffer is an append-only log of its ring, in all interleavings.
theorem refines_log {lo hi pos : Nat} (generation : Nat) (hb : lo < hi) (hp : lo ≤ pos)
    (hr : Reaches (opened lo hi pos generation) b) :
    b.IsLog lo hi pos generation ∧
    ∃ l, Steps lo hi (.opened pos generation) l ∧ Represents lo hi b l := by
  have hm : (opened lo hi pos generation).minOffset = lo := by
    have : hi ≠ 0 := by omega
    simp [opened, initPosition, setBounds, this]
  have ⟨l, hs, hv, h⟩ := represents_opened.run Log.valid_opened hr
  rw [hm] at hs hv h
  exact ⟨h.isLog hv hb hp, l, hs, h⟩

-- A record, the task that it makes, and another record behind it.
def sampleBuffer : AggregateWriteBuffer :=
  (((opened 512 1024 512 2).append [1, 2, 3]).2.swapAndFlush.append [4]).2

theorem reaches_sampleBuffer : Reaches (opened 512 1024 512 2) sampleBuffer := by
  have h₁ : Step (opened 512 1024 512 2) (.add none [1, 2, 3]) _ :=
    .add none [1, 2, 3] _ ((opened 512 1024 512 2).append [1, 2, 3]).2 (by decide) rfl
  have h₂ : Step ((opened 512 1024 512 2).append [1, 2, 3]).2 .triggerFlush _ := .triggerFlush
  have h₃ : Step ((opened 512 1024 512 2).append [1, 2, 3]).2.swapAndFlush (.add none [4]) sampleBuffer :=
    .add none [4] _ sampleBuffer (by decide) rfl
  exact .step (.step (.step .refl h₁ trivial) h₂ trivial) h₃ trivial

theorem refines_log_sample :
    sampleBuffer.emitted.flatMap Prod.snd = [1, 2, 3] ∧ sampleBuffer.IsLog 512 1024 512 2 :=
  ⟨by decide, (refines_log 2 (by decide) (le_refl 512) reaches_sampleBuffer).1⟩

end Results

end AggregateWriteBuffer
end Bakemono
