import Bakemono.Write.Refinement

namespace Bakemono.AggregateWriteBuffer

variable {b b' b₁ b₂ : AggregateWriteBuffer} {l : Log} {lo hi pos generation : Nat} {e : Event}

-- Every record up to the number stands in a task which has been acknowledged without an error.
def Durable (b : AggregateWriteBuffer) (n : Nat) : Prop :=
  ∀ r ∈ b.added, r.allocation.sequence ≤ n → ∃ (i : Nat) (e : Task × Bytes),
    b.emitted[i]? = some e ∧ Contains e r ∧ b.acknowledged[i]? = some none

-- The records of the acknowledged tasks are the first ones.
theorem Represents.mem_acknowledged (h : Represents lo hi b l) (hv : l.Valid lo hi pos generation)
    {r : Record} (hr : r ∈ b.added) (hs : r.allocation.sequence ≤ b.completed) :
    r ∈ (l.tasks.take b.acknowledged.length).flatMap FlushTask.records := by
  let n := b.acknowledged.length
  have hsplit : l.records = (l.tasks.take n).flatMap FlushTask.records ++
      ((l.tasks.drop n).flatMap FlushTask.records ++ l.last.records) := by
    rw [← List.append_assoc, ← List.flatMap_append, List.take_append_drop]
    rfl
  have hseq := hv.sequence
  rw [hsplit, List.map_append, List.length_append, ← List.range'_append_1] at hseq
  have ⟨_, hseq⟩ := List.append_inj hseq (by simp)
  rw [h.added, hsplit] at hr
  cases List.mem_append.mp hr
  case inl hr => exact hr
  case inr hr =>
    have hm := List.mem_map_of_mem (f := (·.allocation.sequence)) hr
    rw [hseq, List.mem_range'_1, ← h.completed] at hm
    omega

theorem Represents.durable (h : Represents lo hi b l) (hv : l.Valid lo hi pos generation)
    (he : b.err = none) : b.Durable b.completed := by
  intro r hr hs
  have ⟨t, ht, hrt⟩ := List.mem_flatMap.mp (h.mem_acknowledged hv hr hs)
  have ⟨i, hi, hit⟩ := List.mem_take_iff_getElem.mp ht
  have hi₁ : i < b.acknowledged.length := by omega
  have hi₂ : i < l.tasks.length := by omega
  have hi₃ : i < b.emitted.length := h.emitted.length_eq ▸ hi₂
  have hemit : Emits b.emitted[i] l.tasks[i] := h.emitted.get hi₃ hi₂
  refine ⟨i, b.emitted[i], List.getElem?_eq_getElem hi₃, ?_, ?_⟩
  case refine_1 => exact hemit.holds.contains r (hit ▸ hrt)
  case refine_2 =>
    rw [List.getElem?_eq_getElem hi₁]
    exact congrArg some (h.errors he _ (List.getElem_mem hi₁))

theorem completed_swapAndFlush : b.swapAndFlush.completed = b.completed := by
  unfold swapAndFlush
  split <;> rfl

-- Only an acknowledgement moves the barrier.
theorem Represents.completed_le (h : Represents lo hi b l) (hs : Step b e b') :
    b.completed ≤ b'.completed := by
  cases hs
  case add data _ _ hp =>
    obtain ⟨_, rfl | rfl | ⟨_, _, _, rfl⟩ | ⟨_, _, rfl⟩⟩ := addPass_cases hp
    case inl => exact le_rfl
    case inr.inl => exact completed_swapAndFlush.ge
    case inr.inr.inl => exact completed_swapAndFlush.ge
    case inr.inr.inr =>
      rw [append_eq]
      split
      case isTrue => exact (completed_swapAndFlush (b := b.put data)).ge
      case isFalse => exact le_rfl
  case triggerFlush => exact completed_swapAndFlush.ge
  case flushThrough hp =>
    obtain ⟨_, ⟨_, _, rfl⟩ | ⟨_, rfl⟩⟩ := flushPass_cases hp
    case inl => exact le_rfl
    case inr => exact completed_swapAndFlush.ge
  case receive => exact le_rfl
  case notifyFlushDone =>
    simp only [AggregateWriteBuffer.notifyFlushDone]
    split
    case isTrue hf =>
      rw [(h.busy hf).1, h.completed]
      exact (List.Sublist.flatMap (List.take_sublist ..) _).length_le
    case isFalse => exact le_rfl
  case fail => exact le_rfl
  case stopAdds => exact le_rfl

section Failure

-- An error of a completion or of `Fail`.
def Event.Reports : Event → Prop
  | .notifyFlushDone err => err ≠ none
  | .fail _              => True
  | _                    => False

-- All calls return an error from now on.
structure Failed (b : AggregateWriteBuffer) : Prop where
  add   : ∀ cancelled data, ∃ e, b.addPass cancelled data = .error e
  flush : ∀ cancelled target, ∃ e, b.flushPass cancelled target = .error e

theorem failed_of_err (h : b.err ≠ none) : b.Failed := by
  have ⟨e, he⟩ := Option.ne_none_iff_exists'.mp h
  exact ⟨fun _ _ => ⟨e, by simp [addPass, he]; rfl⟩, fun _ _ => ⟨e, by simp [flushPass, he]; rfl⟩⟩

theorem err_of_reports (hs : Step b e b') (hr : e.Reports) : b'.err ≠ none := by
  cases hs
  case notifyFlushDone err _ =>
    have ⟨e', he⟩ := Option.ne_none_iff_exists'.mp hr
    cases h : b.err
    all_goals simp [AggregateWriteBuffer.notifyFlushDone, h, he]
  case fail err =>
    cases h : b.err
    all_goals simp [AggregateWriteBuffer.fail, h]
  all_goals cases hr

-- The error stays, and nothing is added or sent any more.
theorem Failed.step (h : b.err ≠ none) (hs : Step b e b') :
    b'.err ≠ none ∧ b'.emitted = b.emitted ∧ b'.added = b.added := by
  have hswap : b.swapAndFlush = b := swapAndFlush_eq_self (.inr (.inr h))
  have ⟨e, he⟩ := Option.ne_none_iff_exists'.mp h
  cases hs
  case add hp => exact absurd (addPass_cases hp).1 h
  case triggerFlush => exact hswap.symm ▸ ⟨h, rfl, rfl⟩
  case flushThrough hp => exact absurd (flushPass_cases hp).1 h
  case receive => exact ⟨h, rfl, rfl⟩
  case notifyFlushDone => exact ⟨by simp [AggregateWriteBuffer.notifyFlushDone, he], rfl, rfl⟩
  case fail => exact ⟨by simp [AggregateWriteBuffer.fail, he], rfl, rfl⟩
  case stopAdds => exact ⟨h, rfl, rfl⟩

theorem Failed.run (h : b₁.err ≠ none) (hr : Reaches b₁ b₂) :
    b₂.err ≠ none ∧ b₂.emitted = b₁.emitted ∧ b₂.added = b₁.added := by
  induction hr
  case refl => exact ⟨h, rfl, rfl⟩
  case step hs _ hi =>
    have ⟨he, h₁, h₂⟩ := hi
    have ⟨he', h₁', h₂'⟩ := Failed.step he hs
    exact ⟨he', h₁'.trans h₁, h₂'.trans h₂⟩

end Failure

-- The barrier of `flushThrough`, for all bounds and positions of the ring.
theorem flushThrough_barrier (hr : Reaches (opened lo hi pos generation) b) :
    (∀ b', Reaches b b' → b.completed ≤ b'.completed) ∧
    (∀ cancelled n b', b.flushPass cancelled n = .ok (some (), b') → b.Durable n) ∧
    (∀ e b₁ b₂, e.Reports → Step b e b₁ → Reaches b₁ b₂ →
      b₂.Failed ∧ b₂.emitted = b₁.emitted ∧ b₂.added = b₁.added) := by
  have ⟨l, _, hv, h⟩ := represents_opened.run Log.valid_opened hr
  refine ⟨?_, ?_, ?_⟩
  case refine_1 =>
    intro b' hr'
    induction hr'
    case refl => exact le_rfl
    case step hr₁ hs _ hi =>
      have ⟨l₁, _, _, h₁⟩ := h.run hv hr₁
      exact hi.trans (h₁.completed_le hs)
  case refine_2 =>
    intro cancelled n b' hp r hr hs
    obtain ⟨he, ⟨_, hc, _⟩ | ⟨hn, _⟩⟩ := flushPass_cases hp
    case inl => exact h.durable hv he r hr (hs.trans hc)
    case inr => cases hn
  case refine_3 =>
    intro e b₁ b₂ hrep hs hr'
    have ⟨he, h₁, h₂⟩ := Failed.run (err_of_reports hs hrep) hr'
    exact ⟨failed_of_err he, h₁, h₂⟩

-- The first record of the sample is acknowledged, the second one is still in the buffer.
theorem flushThrough_barrier_sample : ∃ b, Reaches sampleBuffer b ∧ b.completed = 1 ∧ b.Durable 1 := by
  let t : Task := ⟨false, 3, 512, 2⟩
  have h₁ : Step sampleBuffer .receive (sampleBuffer.receive t []) := .receive t [] rfl rfl
  have h₂ : Step (sampleBuffer.receive t []) (.notifyFlushDone none)
      ((sampleBuffer.receive t []).notifyFlushDone none) := .notifyFlushDone t none rfl
  have hr : Reaches sampleBuffer ((sampleBuffer.receive t []).notifyFlushDone none) :=
    .step (.step .refl h₁ trivial) h₂ trivial
  have hb := flushThrough_barrier (reaches_sampleBuffer.trans hr)
  exact ⟨_, hr, rfl, hb.2.1 none 1 _ rfl⟩

end Bakemono.AggregateWriteBuffer
