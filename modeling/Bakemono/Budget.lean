import Bakemono.Lib.Count
import Bakemono.Lib.Run

namespace Bakemono

-- What a caller of a limiter does next.
inductive LimiterStep
  | idle
  -- The three selections of `Acquire`.
  | first
  | second
  | wait
  -- A slot has been taken from the queue.
  | check
  | undo
  -- The place in the queue is given up, with an error or with a slot.
  | leave
  | grant
  -- The selection of `TryAcquire`.
  | try
  | held
  deriving DecidableEq

namespace LimiterStep

-- The caller has put an element into the channel of the slots.
def holds : LimiterStep → Bool
  | check | undo | grant | held => true
  | _ => false

-- The caller has put an element into the channel of the queue.
def waits : LimiterStep → Bool
  | wait | check | undo | leave | grant => true
  | _ => false

end LimiterStep

-- The capacities and the lengths of the two channels. The last field is not one of the source.
structure Limiter (ι : Type) where
  active   : Nat
  queued   : Nat
  slots    : Nat := 0
  queue    : Nat := 0
  rejected : Nat := 0
  pc       : ι → LimiterStep := fun _ => .idle

namespace Limiter

variable {ι : Type} [DecidableEq ι]

def new (active queued : Nat) : Limiter ι := { active, queued }

def goto (l : Limiter ι) (i : ι) (pc : LimiterStep) : Limiter ι :=
  { l with pc := Function.update l.pc i pc }

-- The steps of a caller. A context may end at any moment, and a timer may fire. Sending to a channel
-- blocks while it is full, and receiving from it while it is empty.
inductive Step (l : Limiter ι) (i : ι) : Limiter ι → Prop
  | acquire : (l.pc i = .idle) → Step l i (l.goto i .first)
  | take : (l.pc i = .first) → (l.slots < l.active) → Step l i { l.goto i .held with slots := l.slots + 1 }
  | busy : (l.pc i = .first) → (l.active ≤ l.slots) → Step l i (l.goto i .second)
  | enqueue :
    (l.pc i = .second) → (l.queue < l.queued) → Step l i { l.goto i .wait with queue := l.queue + 1 }
  | overloaded :
    (l.pc i = .second) → (l.queued ≤ l.queue) → Step l i { l.goto i .idle with rejected := l.rejected + 1 }
  | granted :
    (l.pc i = .wait) → (l.slots < l.active) → Step l i { l.goto i .check with slots := l.slots + 1 }
  | cancelled : (l.pc i = .wait) → Step l i (l.goto i .leave)
  | timeout : (l.pc i = .wait) → Step l i { l.goto i .leave with rejected := l.rejected + 1 }
  | ended : (l.pc i = .check) → Step l i (l.goto i .undo)
  | live : (l.pc i = .check) → Step l i (l.goto i .grant)
  | undo : (l.pc i = .undo) → (0 < l.slots) → Step l i { l.goto i .leave with slots := l.slots - 1 }
  | leave : (l.pc i = .leave) → (0 < l.queue) → Step l i { l.goto i .idle with queue := l.queue - 1 }
  | grant : (l.pc i = .grant) → (0 < l.queue) → Step l i { l.goto i .held with queue := l.queue - 1 }
  | tryAcquire : (l.pc i = .idle) → Step l i (l.goto i .try)
  | tryTake : (l.pc i = .try) → (l.slots < l.active) → Step l i { l.goto i .held with slots := l.slots + 1 }
  | tryOverloaded : (l.pc i = .try) → (l.active ≤ l.slots) → Step l i (l.goto i .idle)
  | release : (l.pc i = .held) → (0 < l.slots) → Step l i { l.goto i .idle with slots := l.slots - 1 }

variable {l l' : Limiter ι} {i : ι}

theorem Step.capacity (h : l.Step i l') : l'.active = l.active ∧ l'.queued = l.queued := by
  cases h <;> exact ⟨rfl, rfl⟩

section Accounts

variable [Fintype ι]

-- The elements of the channels are those of the callers.
structure Accounts (l : Limiter ι) : Prop where
  slots  : l.slots = count LimiterStep.holds l.pc
  queue  : l.queue = count LimiterStep.waits l.pc
  active : l.slots ≤ l.active
  queued : l.queue ≤ l.queued

omit [DecidableEq ι] in
theorem Accounts.new (active queued : Nat) : (new active queued : Limiter ι).Accounts where
  slots  := by simp [Limiter.new, count, LimiterStep.holds]
  queue  := by simp [Limiter.new, count, LimiterStep.waits]
  active := Nat.zero_le _
  queued := Nat.zero_le _

-- The counts change by what the caller has had and by what it has now.
theorem Accounts.move {pc : LimiterStep} {slots queue rejected : Nat} (h : l.Accounts)
    (hs : slots + (l.pc i).holds.toNat = l.slots + pc.holds.toNat)
    (hq : queue + (l.pc i).waits.toNat = l.queue + pc.waits.toNat)
    (ha : slots ≤ l.active) (hb : queue ≤ l.queued) :
    Accounts { l.goto i pc with slots, queue, rejected } := by
  have h₁ := count_update LimiterStep.holds l.pc i pc
  have h₂ := count_update LimiterStep.waits l.pc i pc
  refine ⟨?_, ?_, ha, hb⟩
  case refine_1 =>
    have := h.slots
    simp only [goto]
    omega
  case refine_2 =>
    have := h.queue
    simp only [goto]
    omega

theorem Accounts.step (h : l.Accounts) (hs : l.Step i l') : l'.Accounts := by
  have := h.active
  have := h.queued
  cases hs
  all_goals
    refine h.move ?_ ?_ ?_ ?_ <;> simp [*, goto, LimiterStep.holds, LimiterStep.waits] <;> omega

end Accounts

-- In every state of a limiter the slots are those of the callers that have one, at most as many as
-- there are, and the same holds of the queue. No caller is ever stuck while it gives something back,
-- and who waits in the queue can go on if there is a free slot or waits for somebody who has one.
structure Exact [Fintype ι] (l : Limiter ι) : Prop where
  slots   : l.slots = count LimiterStep.holds l.pc ∧ l.slots ≤ l.active
  queue   : l.queue = count LimiterStep.waits l.pc ∧ l.queue ≤ l.queued
  returns : ∀ i, l.pc i ≠ .idle → l.pc i ≠ .wait → ∃ l', l.Step i l'
  waiting : ∀ i, l.pc i = .wait → 0 < l.active →
    l.Step i { l.goto i .check with slots := l.slots + 1 } ∨ ∃ j, (l.pc j).holds = true
  vacant  : (∀ i, l.pc i = .idle) → l.slots = 0 ∧ l.queue = 0

section Exact

variable [Fintype ι]

theorem Accounts.returns (h : l.Accounts) (hi : l.pc i ≠ .idle) (hw : l.pc i ≠ .wait) :
    ∃ l', l.Step i l' := by
  have hs : (l.pc i).holds = true → 0 < l.slots := fun hp => h.slots ▸ count_pos hp
  have hq : (l.pc i).waits = true → 0 < l.queue := fun hp => h.queue ▸ count_pos hp
  cases hpc : l.pc i
  case idle => exact absurd hpc hi
  case first =>
    cases Nat.lt_or_ge l.slots l.active
    case inl hlt => exact ⟨_, .take hpc hlt⟩
    case inr hle => exact ⟨_, .busy hpc hle⟩
  case second =>
    cases Nat.lt_or_ge l.queue l.queued
    case inl hlt => exact ⟨_, .enqueue hpc hlt⟩
    case inr hle => exact ⟨_, .overloaded hpc hle⟩
  case wait => exact absurd hpc hw
  case check => exact ⟨_, .ended hpc⟩
  case undo => exact ⟨_, .undo hpc (hs (by rw [hpc]; rfl))⟩
  case leave => exact ⟨_, .leave hpc (hq (by rw [hpc]; rfl))⟩
  case grant => exact ⟨_, .grant hpc (hq (by rw [hpc]; rfl))⟩
  case «try» =>
    cases Nat.lt_or_ge l.slots l.active
    case inl hlt => exact ⟨_, .tryTake hpc hlt⟩
    case inr hle => exact ⟨_, .tryOverloaded hpc hle⟩
  case held => exact ⟨_, .release hpc (hs (by rw [hpc]; rfl))⟩

theorem Accounts.exact (h : l.Accounts) : l.Exact where
  slots   := ⟨h.slots, h.active⟩
  queue   := ⟨h.queue, h.queued⟩
  returns := fun _ => h.returns
  waiting := by
    intro i hi ha
    cases Nat.lt_or_ge l.slots l.active
    case inl hlt => exact .inl (.granted hi hlt)
    case inr hle => exact .inr (exists_of_count_pos (h.slots ▸ by omega))
  vacant  := by
    intro hi
    have hpc : l.pc = fun _ => .idle := funext hi
    rw [h.slots, h.queue, hpc]
    simp [count, LimiterStep.holds, LimiterStep.waits]

-- Any number of callers use the limiter at the same time.
abbrev Reachable (active queued : Nat) (l : Limiter ι) : Prop :=
  Run Step (fun _ _ => True) (new active queued) l

theorem Reachable.accounts {active queued : Nat} (h : Reachable active queued l) : l.Accounts :=
  h.invariant (fun _ _ _ h hs _ => h.step hs) (.new active queued)

theorem reachable_exact {active queued : Nat} (h : Reachable active queued l) :
    l.Exact ∧ l.active = active ∧ l.queued = queued := by
  refine ⟨h.accounts.exact, ?_⟩
  refine h.invariant (I := fun l => l.active = active ∧ l.queued = queued) (fun l i l' h hs _ => ?_)
    ⟨rfl, rfl⟩
  obtain ⟨h₁, h₂⟩ := hs.capacity
  exact ⟨h₁.trans h.1, h₂.trans h.2⟩

-- The second caller waits for the first one.
theorem reachable_exact_sample : ∃ l : Limiter (Fin 2), l.Exact ∧ l.slots = 1 ∧ l.active = 1 ∧
    l.pc 0 = .held ∧ l.pc 1 = .wait := by
  have h : ∃ l : Limiter (Fin 2), Reachable 1 1 l ∧ l.slots = 1 ∧ l.pc 0 = .held ∧ l.pc 1 = .wait :=
    ⟨_, (((((Run.refl.step (.acquire (i := 0) rfl) trivial).step
      (.take (i := 0) rfl Nat.one_pos) trivial).step (.acquire (i := 1) rfl) trivial).step
      (.busy (i := 1) rfl le_rfl) trivial).step (.enqueue (i := 1) rfl Nat.one_pos) trivial),
      rfl, rfl, rfl⟩
  obtain ⟨l, hr, hs, h₀, h₁⟩ := h
  obtain ⟨he, ha, _⟩ := reachable_exact hr
  exact ⟨l, he, hs, ha, h₀, h₁⟩

end Exact
end Limiter
end Bakemono
