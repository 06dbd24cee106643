import Bakemono.Fill.Epochs
import Bakemono.Lib.Run
import Mathlib.Algebra.BigOperators.Group.Finset.Basic
import Mathlib.Algebra.Order.BigOperators.Group.Finset

namespace Bakemono

-- The limits of the configuration, which is checked to have no zeros.
structure FillLimits where
  maxTasks       : Nat
  maxWaiters     : Nat
  maxTasks_pos   : 1 ≤ maxTasks
  maxWaiters_pos : 1 ≤ maxWaiters

-- The channels of a task are left out. The last two fields are not fields of the source: the number of
-- callers that have joined and not left yet, and whether the producer has finished.
structure FillTask (n : Nat) where
  id        : Bytes := []
  token     : Fences n
  cancelled : Bool
  refs      : Int := 1
  callers   : Nat := 1
  finished  : Bool := false

-- The tasks that have been created are numbered. The counters of the cache are part of the state, as
-- well as the tokens that it has given out.
structure FillGroup (n : Nat) where
  epochs    : Epochs n
  issued    : List (Fences n) := []
  cancelled : Bool := false
  tasks     : Bytes → Option Nat := fun _ => none
  heap      : Nat → FillTask n
  next      : Nat := 0
  active    : Int := 0
  waiters   : Int := 0

namespace FillGroup

variable {n : Nat} (H : Hash) (limits : FillLimits)

inductive JoinError
  | cancelled
  | overloaded
  | token (e : Err)
  deriving DecidableEq

-- What `join` reads outside of its lock, in this order: the contexts and the counters of the cache.
structure Observed where
  groupDone : Bool
  taskLive  : Bool
  token     : Except Err Unit

def modify (g : FillGroup n) (p : Nat) (f : FillTask n → FillTask n) : FillGroup n :=
  { g with heap := Function.update g.heap p (f (g.heap p)) }

-- The context of a new task ends with that of the group.
def created (g : FillGroup n) (id : Bytes) (token : Fences n) : FillGroup n :=
  { g with
    heap    := Function.update g.heap g.next { id, token, cancelled := g.cancelled }
    next    := g.next + 1
    tasks   := Function.update g.tasks id g.next
    active  := g.active + 1
    waiters := g.waiters + 1 }

def subscribed (g : FillGroup n) (p : Nat) : FillGroup n :=
  { g.modify p fun t => { t with refs := t.refs + 1, callers := t.callers + 1 } with
    waiters := g.waiters + 1 }

-- The second half of `join`.
def create (g : FillGroup n) (id : Bytes) (token : Fences n) (check : Except Err Unit) :
    Except JoinError (Nat × Bool) × FillGroup n :=
  if g.active ≥ limits.maxTasks then
    (.error .overloaded, g)
  else
    match check with
    | .error e => (.error (.token e), g)
    | .ok ()   => (.ok (g.next, true), g.created id token)

def join (g : FillGroup n) (id : Bytes) (token : Fences n) (o : Observed) :
    Except JoinError (Nat × Bool) × FillGroup n :=
  if o.groupDone then
    (.error .cancelled, g)
  else
    match g.tasks id with
    | none   => create limits g id token o.token
    | some p =>
      if o.taskLive then
        if (g.heap p).refs ≥ limits.maxWaiters then
          (.error .overloaded, g)
        else
          (.ok (p, false), g.subscribed p)
      else
        create limits { g with tasks := Function.update g.tasks id none } id token o.token

def leave (g : FillGroup n) (p : Nat) : FillGroup n :=
  { g.modify p fun t =>
      { t with
        refs      := t.refs - 1
        callers   := t.callers - 1
        cancelled := t.cancelled || t.refs - 1 == 0 } with
    waiters := g.waiters - 1 }

-- The critical section of `finish`. It is preceded by the cancellation of the task.
def finish (g : FillGroup n) (p : Nat) : FillGroup n :=
  { g.modify p ({ · with finished := true }) with
    tasks  := if g.tasks (g.heap p).id = some p then Function.update g.tasks (g.heap p).id none
      else g.tasks
    active := g.active - 1 }

-- What happens without the lock of the group: contexts end, by a timeout or at their group, and the
-- counters of the cache advance, by purges and invalidations or when it is closed.
structure Later (g g' : FillGroup n) : Prop where
  epochs    : g.epochs.Le g'.epochs
  cancelled : g.cancelled → g'.cancelled
  heap      : ∀ p, ∃ c : Bool, ((g.heap p).cancelled = true → c = true) ∧
    g'.heap p = { g.heap p with cancelled := c }
  same      : g'.issued = g.issued ∧ g'.tasks = g.tasks ∧ g'.next = g.next ∧ g'.active = g.active ∧
    g'.waiters = g.waiters

inductive Event
  | later
  | issue
  | join (id : Bytes) (result : Except JoinError (Nat × Bool))
  | leave (p : Nat)
  | finish (p : Nat)

def observe (g₀ g₁ g₂ g₃ : FillGroup n) (id : Bytes) (token : Fences n) : Observed where
  groupDone := g₀.cancelled
  taskLive  := (g₀.tasks id).any fun p =>
    ((g₁.heap p).token.check H g₁.epochs).isOk && !(g₂.heap p).cancelled
  token     := token.check H g₃.epochs

inductive Step (g : FillGroup n) : Event → FillGroup n → Prop
  | later (g') : (Later g g') → Step g .later g'
  -- `BeginFill` and `DeriveFill`.
  | begin (selector) : Step g .issue { g with issued := .begin H g.epochs selector :: g.issued }
  | derive (t key) :
    (t ∈ g.issued) → Step g .issue { g with issued := t.derive H g.epochs key :: g.issued }
  | join (id token g₁ g₂ g₃ r g') :
    (token ∈ g.issued) → (Later g g₁) → (Later g₁ g₂) → (Later g₂ g₃) →
    (join limits g₃ id token (observe H g g₁ g₂ g₃ id token) = (r, g')) → Step g (.join id r) g'
  -- Once for each caller that has joined.
  | leave (p) : (p < g.next) → (0 < (g.heap p).callers) → Step g (.leave p) (g.leave p)
  -- Once for each task.
  | finish (p) :
    (p < g.next) → ((g.heap p).finished = false) → ((g.heap p).cancelled) →
    Step g (.finish p) (g.finish p)

-- The task has not finished, and neither its context nor its token has ended.
structure Live (g : FillGroup n) (p : Nat) : Prop where
  created  : p < g.next
  running  : (g.heap p).finished = false
  context  : (g.heap p).cancelled = false
  token    : (g.heap p).token.check H g.epochs = .ok ()

def sum (g : FillGroup n) (f : FillTask n → Int) : Int := ∑ p ∈ Finset.range g.next, f (g.heap p)

def refs (g : FillGroup n) : Int := g.sum FillTask.refs
def running (g : FillGroup n) : Int := g.sum fun t => if t.finished then 0 else 1

structure Inv (g : FillGroup n) : Prop where
  mapped  : ∀ id p, g.tasks id = some p →
    p < g.next ∧ (g.heap p).id = id ∧ (g.heap p).finished = false
  live    : ∀ p, g.Live H p → g.tasks (g.heap p).id = some p
  refs    : ∀ p < g.next, (g.heap p).refs = (g.heap p).callers
  left    : ∀ p < g.next, (g.heap p).callers = 0 → (g.heap p).cancelled = true
  most    : ∀ p < g.next, (g.heap p).refs ≤ limits.maxWaiters
  waiters : g.waiters = g.refs
  active  : g.active = g.running
  limit   : g.active ≤ limits.maxTasks
  issued  : ∀ t ∈ g.issued, t.Captured H g.epochs
  tokens  : ∀ p < g.next, (g.heap p).token.Captured H g.epochs

variable {H limits} {g g' : FillGroup n} {p q : Nat} {id : Bytes} {token : Fences n}

section Heap

theorem heap_modify {f : FillTask n → FillTask n} :
    (g.modify p f).heap q = if q = p then f (g.heap p) else g.heap q :=
  Function.update_apply ..

theorem sum_congr {f : FillTask n → Int} (hn : g'.next = g.next)
    (h : ∀ p < g.next, f (g'.heap p) = f (g.heap p)) : g'.sum f = g.sum f := by
  rw [sum, sum, hn]
  exact Finset.sum_congr rfl fun p hp => h p (Finset.mem_range.mp hp)

theorem sum_nonneg {f : FillTask n → Int} (h : ∀ p < g.next, 0 ≤ f (g.heap p)) : 0 ≤ g.sum f :=
  Finset.sum_nonneg fun p hp => h p (Finset.mem_range.mp hp)

-- A sum changes by the part of the task.
theorem sum_modify {f : FillTask n → Int} {m : FillTask n → FillTask n} (hn : g'.next = g.next)
    (hg : g'.heap = (g.modify p m).heap) (hp : p < g.next) :
    g'.sum f = g.sum f - f (g.heap p) + f (m (g.heap p)) := by
  have hm : p ∈ Finset.range g.next := Finset.mem_range.mpr hp
  have h₁ := Finset.add_sum_erase _ (fun q => f (g.heap q)) hm
  have h₂ := Finset.add_sum_erase _ (fun q => f (g'.heap q)) hm
  have h₃ : ∑ q ∈ (Finset.range g.next).erase p, f (g'.heap q) =
      ∑ q ∈ (Finset.range g.next).erase p, f (g.heap q) := by
    refine Finset.sum_congr rfl fun q hq => ?_
    rw [hg, heap_modify, if_neg (Finset.ne_of_mem_erase hq)]
  simp only [hg, heap_modify, if_true] at h₂ h₃
  rw [sum, sum, hn, hg]
  simp only [heap_modify]
  omega

end Heap

section Later

theorem Later.refl : Later g g where
  epochs    := .refl
  cancelled := id
  heap p    := ⟨(g.heap p).cancelled, id, rfl⟩
  same      := ⟨rfl, rfl, rfl, rfl, rfl⟩

theorem Later.trans {g₁ g₂ : FillGroup n} (h₁ : Later g g₁) (h₂ : Later g₁ g₂) : Later g g₂ where
  epochs    := h₁.epochs.trans h₂.epochs
  cancelled := h₂.cancelled ∘ h₁.cancelled
  heap p    := by
    have ⟨c₁, hc₁, he₁⟩ := h₁.heap p
    have ⟨c₂, hc₂, he₂⟩ := h₂.heap p
    refine ⟨c₂, fun hc => hc₂ ?_, by rw [he₂, he₁]⟩
    rw [he₁]
    exact hc₁ hc
  same      := by
    have ⟨a₁, b₁, c₁, d₁, e₁⟩ := h₁.same
    have ⟨a₂, b₂, c₂, d₂, e₂⟩ := h₂.same
    exact ⟨a₂.trans a₁, b₂.trans b₁, c₂.trans c₁, d₂.trans d₁, e₂.trans e₁⟩

theorem Later.context (h : Later g g') (hx : (g'.heap p).cancelled = false) :
    (g.heap p).cancelled = false := by
  have ⟨c, hc, he⟩ := h.heap p
  rw [he] at hx
  by_contra hcan
  exact absurd (hc (by simpa using hcan)) (by simpa using hx)

theorem Later.check (h : Later g g') (ht : (g.heap p).token.Captured H g.epochs)
    (hc : (g'.heap p).token.check H g'.epochs = .ok ()) :
    (g.heap p).token.check H g.epochs = .ok () := by
  have ⟨c, _, he⟩ := h.heap p
  rw [he] at hc
  exact ht.check h.epochs hc

-- A task which is live was so before.
theorem Later.live (h : Later g g') (ht : ∀ p < g.next, (g.heap p).token.Captured H g.epochs)
    (hl : g'.Live H p) : g.Live H p := by
  have ⟨c, _, he⟩ := h.heap p
  have ⟨_, _, hn, _⟩ := h.same
  have hp : p < g.next := hn ▸ hl.created
  have hr := hl.running
  rw [he] at hr
  exact ⟨hp, hr, h.context hl.context, h.check (ht p hp) hl.token⟩

theorem Inv.later (h : g.Inv H limits) (hl : Later g g') : g'.Inv H limits := by
  have ⟨hi, ht, hn, ha, hw⟩ := hl.same
  have hheap (p) : ∃ c : Bool, ((g.heap p).cancelled = true → c = true) ∧
      g'.heap p = { g.heap p with cancelled := c } := hl.heap p
  constructor
  case mapped =>
    intro id p hp
    have ⟨c, _, he⟩ := hheap p
    rw [ht] at hp
    rw [hn, he]
    exact h.mapped id p hp
  case live =>
    intro p hp
    have ⟨c, _, he⟩ := hheap p
    rw [ht, he]
    exact h.live p (hl.live h.tokens hp)
  case refs =>
    intro p hp
    have ⟨c, _, he⟩ := hheap p
    rw [he]
    exact h.refs p (hn ▸ hp)
  case left =>
    intro p hp hz
    have ⟨c, hc, he⟩ := hheap p
    rw [he] at hz ⊢
    exact hc (h.left p (hn ▸ hp) hz)
  case most =>
    intro p hp
    have ⟨c, _, he⟩ := hheap p
    rw [he]
    exact h.most p (hn ▸ hp)
  case waiters =>
    rw [hw, h.waiters]
    refine (sum_congr hn fun p _ => ?_).symm
    have ⟨c, _, he⟩ := hheap p
    rw [he]
  case active =>
    rw [ha, h.active]
    refine (sum_congr hn fun p _ => ?_).symm
    have ⟨c, _, he⟩ := hheap p
    rw [he]
  case limit => exact ha ▸ h.limit
  case issued => exact fun t htok => (h.issued t (hi ▸ htok)).mono hl.epochs
  case tokens =>
    intro p hp
    have ⟨c, _, he⟩ := hheap p
    rw [he]
    exact (h.tokens p (hn ▸ hp)).mono hl.epochs

end Later

section Join

-- The task at the place of an identity has ended, if there is one.
def Vacant (H : Hash) (g : FillGroup n) (id : Bytes) : Prop := ∀ p, g.tasks id = some p → ¬g.Live H p

theorem Inv.drop (h : g.Inv H limits) (hv : g.Vacant H id) :
    { g with tasks := Function.update g.tasks id none }.Inv H limits :=
  { h with
    mapped := by
      intro id' p hp
      simp only [Function.update_apply] at hp
      split at hp
      case isTrue => cases hp
      case isFalse => exact h.mapped id' p hp
    live   := by
      intro p hp
      have hl : g.Live H p := ⟨hp.created, hp.running, hp.context, hp.token⟩
      have hne : (g.heap p).id ≠ id := by
        rintro rfl
        exact hv p (h.live p hl) hl
      exact (Function.update_of_ne hne _ _).trans (h.live p hl) }

theorem heap_created (hp : p < g.next) : (g.created id token).heap p = g.heap p :=
  Function.update_of_ne hp.ne _ _

theorem heap_created_self :
    (g.created id token).heap g.next = { id, token, cancelled := g.cancelled } :=
  Function.update_self ..

theorem sum_created {f : FillTask n → Int} : (g.created id token).sum f =
    g.sum f + f { id, token, cancelled := g.cancelled } := by
  have hs : ∑ p ∈ Finset.range g.next, f ((g.created id token).heap p) = g.sum f :=
    Finset.sum_congr rfl fun p hp => by rw [heap_created (Finset.mem_range.mp hp)]
  rw [← heap_created_self, ← hs]
  exact Finset.sum_range_succ ..

theorem Inv.created (h : g.Inv H limits) (hv : g.Vacant H id) (ha : g.active < limits.maxTasks)
    (ht : token.Captured H g.epochs) : (g.created id token).Inv H limits := by
  have hlt {p} (hp : p < g.next + 1) : p < g.next ∨ p = g.next := by omega
  constructor
  case mapped =>
    intro id' p hp
    simp only [FillGroup.created, Function.update_apply] at hp
    split at hp
    case isTrue he =>
      cases hp
      rw [heap_created_self]
      exact ⟨Nat.lt_succ_self _, he.symm, rfl⟩
    case isFalse =>
      have ⟨h₁, h₂, h₃⟩ := h.mapped id' p hp
      rw [heap_created h₁]
      exact ⟨Nat.lt_succ_of_lt h₁, h₂, h₃⟩
  case live =>
    intro p hp
    obtain hlt | rfl := hlt hp.created
    case inl =>
      have hr := hp.running
      have hx := hp.context
      have htok := hp.token
      rw [heap_created hlt] at hr hx htok ⊢
      have hl : g.Live H p := ⟨hlt, hr, hx, htok⟩
      have hne : (g.heap p).id ≠ id := by
        rintro rfl
        exact hv p (h.live p hl) hl
      exact (Function.update_of_ne hne _ _).trans (h.live p hl)
    case inr =>
      rw [heap_created_self]
      exact Function.update_self ..
  case refs =>
    intro p hp
    obtain hlt | rfl := hlt hp
    case inl => rw [heap_created hlt]; exact h.refs p hlt
    case inr => rw [heap_created_self]; rfl
  case left =>
    intro p hp hz
    obtain hlt | rfl := hlt hp
    case inl => rw [heap_created hlt] at hz ⊢; exact h.left p hlt hz
    case inr => simp [heap_created_self] at hz
  case most =>
    intro p hp
    obtain hlt | rfl := hlt hp
    case inl => rw [heap_created hlt]; exact h.most p hlt
    case inr =>
      rw [heap_created_self]
      change (1 : Int) ≤ _
      exact_mod_cast limits.maxWaiters_pos
  case waiters =>
    rw [FillGroup.refs, sum_created]
    exact congrArg (· + 1) h.waiters
  case active =>
    rw [FillGroup.running, sum_created]
    exact congrArg (· + 1) h.active
  case limit =>
    change g.active + 1 ≤ _
    omega
  case issued => exact h.issued
  case tokens =>
    intro p hp
    obtain hlt | rfl := hlt hp
    case inl => rw [heap_created hlt]; exact h.tokens p hlt
    case inr => rw [heap_created_self]; exact ht

end Join

section Modify

-- A change of the numbers of callers, and of the context if none are left.
structure Recounts (g : FillGroup n) (p : Nat) (m : FillTask n → FillTask n) : Prop where
  id       : (m (g.heap p)).id = (g.heap p).id
  token    : (m (g.heap p)).token = (g.heap p).token
  finished : (m (g.heap p)).finished = (g.heap p).finished
  context  : (m (g.heap p)).cancelled = false → (g.heap p).cancelled = false

theorem heap_modify_field {α : Type} {f : FillTask n → α} {m : FillTask n → FillTask n}
    (h : f (m (g.heap p)) = f (g.heap p)) : f ((g.modify p m).heap q) = f (g.heap q) := by
  rw [heap_modify]
  split
  case isTrue he => rw [he, h]
  case isFalse => rfl

theorem Inv.recount {m : FillTask n → FillTask n} (h : g.Inv H limits) (hp : p < g.next)
    (hm : g.Recounts p m) (hr : (m (g.heap p)).refs = (m (g.heap p)).callers)
    (hz : (m (g.heap p)).callers = 0 → (m (g.heap p)).cancelled = true)
    (hl : (m (g.heap p)).refs ≤ limits.maxWaiters) :
    { g.modify p m with waiters := g.waiters - (g.heap p).refs + (m (g.heap p)).refs }.Inv
      H limits := by
  have hid := @heap_modify_field n g p (f := FillTask.id) (h := hm.id)
  have htoken := @heap_modify_field n g p (f := FillTask.token) (h := hm.token)
  have hfin := @heap_modify_field n g p (f := FillTask.finished) (h := hm.finished)
  constructor
  case mapped =>
    intro id q hq
    simp only [hid, hfin]
    exact h.mapped id q hq
  case live =>
    intro q hq
    have hr := hq.running
    have hc := hq.context
    have ht := hq.token
    simp only [hid, hfin, htoken] at hr ht ⊢
    refine h.live q ⟨hq.created, hr, ?_, ht⟩
    simp only [heap_modify] at hc
    split at hc
    case isTrue he => exact he ▸ hm.context hc
    case isFalse => exact hc
  case refs =>
    intro q hq
    simp only [heap_modify]
    split
    case isTrue => exact hr
    case isFalse => exact h.refs q hq
  case left =>
    intro q hq
    simp only [heap_modify]
    split
    case isTrue => exact hz
    case isFalse => exact h.left q hq
  case most =>
    intro q hq
    simp only [heap_modify]
    split
    case isTrue => exact hl
    case isFalse => exact h.most q hq
  case waiters =>
    have hs : (g.modify p m).refs = g.refs - (g.heap p).refs + (m (g.heap p)).refs :=
      sum_modify rfl rfl hp
    exact h.waiters ▸ hs.symm
  case active =>
    have hs : (g.modify p m).running = g.running := sum_congr rfl fun q _ => by rw [hfin]
    exact h.active.trans hs.symm
  case limit => exact h.limit
  case issued => exact h.issued
  case tokens =>
    intro q hq
    simp only [htoken]
    exact h.tokens q hq

theorem Inv.subscribed (h : g.Inv H limits) (hp : p < g.next)
    (hr : (g.heap p).refs < limits.maxWaiters) : (g.subscribed p).Inv H limits := by
  have hrefs := h.refs p hp
  have := h.recount hp (m := fun t => { t with refs := t.refs + 1, callers := t.callers + 1 })
    ⟨rfl, rfl, rfl, id⟩ (by simp [hrefs]) (by simp) (by simp only; omega)
  simp only at this
  convert this using 1
  rw [FillGroup.subscribed]
  congr 1
  omega

theorem Inv.leave (h : g.Inv H limits) (hp : p < g.next) (hc : 0 < (g.heap p).callers) :
    (g.leave p).Inv H limits := by
  have hrefs := h.refs p hp
  have hmost := h.most p hp
  have := h.recount hp
    (m := fun t => { t with
      refs      := t.refs - 1
      callers   := t.callers - 1
      cancelled := t.cancelled || t.refs - 1 == 0 })
    ⟨rfl, rfl, rfl, fun hx => (Bool.or_eq_false_iff.mp hx).1⟩ (by simp only; omega)
    (by simp only [Bool.or_eq_true, beq_iff_eq]; omega) (by simp only; omega)
  simp only at this
  convert this using 1
  rw [FillGroup.leave]
  congr 1
  omega

theorem tasks_finish (hq : q ≠ p) : (g.finish p).tasks id = some q ↔ g.tasks id = some q := by
  simp only [FillGroup.finish]
  split
  case isTrue he =>
    rw [Function.update_apply]
    split
    case isTrue hid => simp [hid, he, hq.symm]
    case isFalse => rfl
  case isFalse => rfl

theorem Inv.finish (h : g.Inv H limits) (hp : p < g.next) (hf : (g.heap p).finished = false) :
    (g.finish p).Inv H limits := by
  have hfield {α : Type} {f : FillTask n → α} {q : Nat}
      (hm : f { g.heap p with finished := true } = f (g.heap p)) :
      f ((g.finish p).heap q) = f (g.heap q) :=
    heap_modify_field (m := ({ · with finished := true })) hm
  have hrest {q} (hq : q ≠ p) : (g.finish p).heap q = g.heap q := Function.update_of_ne hq _ _
  constructor
  case mapped =>
    intro id q hq
    by_cases he : q = p
    case pos =>
      -- The task is not at the place of its identity any more, and it never was at another one.
      subst he
      simp only [FillGroup.finish] at hq
      split at hq
      case isTrue hid =>
        rw [Function.update_apply] at hq
        split at hq
        case isTrue => cases hq
        case isFalse hne => exact absurd (h.mapped id q hq).2.1.symm hne
      case isFalse hid => exact absurd ((h.mapped id q hq).2.1 ▸ hq) hid
    case neg =>
      rw [hrest he]
      exact h.mapped id q ((tasks_finish he).mp hq)
  case live =>
    intro q hq
    have hne : q ≠ p := by
      rintro rfl
      have := hq.running
      simp [FillGroup.finish, heap_modify] at this
    have hr := hq.running
    have hc := hq.context
    have ht := hq.token
    rw [hrest hne] at hr hc ht ⊢
    exact (tasks_finish hne).mpr (h.live q ⟨hq.created, hr, hc, ht⟩)
  case refs =>
    intro q hq
    rw [hfield (f := FillTask.refs) rfl, hfield (f := FillTask.callers) rfl]
    exact h.refs q hq
  case left =>
    intro q hq
    rw [hfield (f := FillTask.callers) rfl, hfield (f := FillTask.cancelled) rfl]
    exact h.left q hq
  case most =>
    intro q hq
    rw [hfield (f := FillTask.refs) rfl]
    exact h.most q hq
  case waiters =>
    have hs : (g.finish p).refs = g.refs := sum_congr rfl fun q _ => hfield rfl
    exact h.waiters.trans hs.symm
  case active =>
    have hs : (g.finish p).running = g.running - (if (g.heap p).finished then 0 else 1) + 0 :=
      sum_modify (f := fun t => if t.finished then 0 else 1)
        (m := ({ · with finished := true })) rfl rfl hp
    rw [hs, ← h.active, hf]
    simp [FillGroup.finish]
  case limit =>
    have := h.limit
    simp only [FillGroup.finish]
    omega
  case issued => exact h.issued
  case tokens =>
    intro q hq
    rw [hfield (f := FillTask.token) rfl]
    exact h.tokens q hq

end Modify

section Run

variable {e : Event} {r : Except JoinError (Nat × Bool)} {o : Observed} {g₁ g₂ g₃ : FillGroup n}

-- What the second half of `join` does to a group: it fails, or it creates a task.
theorem create_cases (h : create limits g id token o.token = (r, g')) :
    (∃ e, r = .error e ∧ g' = g) ∨
    (r = .ok (g.next, true) ∧ g.active < limits.maxTasks ∧ g' = g.created id token) := by
  unfold create at h
  split at h
  case isTrue => cases h; exact .inl ⟨_, rfl, rfl⟩
  case isFalse ha =>
    split at h
    case h_1 => cases h; exact .inl ⟨_, rfl, rfl⟩
    case h_2 => cases h; exact .inr ⟨rfl, by omega, rfl⟩

-- What `join` does: it takes the task of the identity, or it may drop it if it has ended, and then
-- creates another one or fails.
theorem join_cases (h : join limits g id token o = (r, g')) :
    (∃ p, r = .ok (p, false) ∧ g.tasks id = some p ∧ o.taskLive = true ∧
      (g.heap p).refs < limits.maxWaiters ∧ g' = g.subscribed p) ∨
    (∃ e, r = .error e ∧ g' = g) ∨
    ((∀ p, g.tasks id = some p → o.taskLive = false) ∧
      ((∃ e, r = .error e ∧ g' = { g with tasks := Function.update g.tasks id none }) ∨
        (r = .ok (g.next, true) ∧ g.active < limits.maxTasks ∧ g' = g.created id token))) := by
  unfold join at h
  split at h
  case isTrue => cases h; exact .inr (.inl ⟨_, rfl, rfl⟩)
  case isFalse =>
    split at h
    case h_1 hn =>
      obtain hc | hc := create_cases h
      case inl => exact .inr (.inl hc)
      case inr => exact .inr (.inr ⟨by simp [hn], .inr hc⟩)
    case h_2 p hp =>
      split at h
      case isTrue hl =>
        split at h
        case isTrue => cases h; exact .inr (.inl ⟨_, rfl, rfl⟩)
        case isFalse hr => cases h; exact .inl ⟨p, rfl, hp, hl, by omega, rfl⟩
      case isFalse hl =>
        refine .inr (.inr ⟨fun _ _ => by simpa using hl, ?_⟩)
        obtain hc | ⟨hr, ha, hc⟩ := create_cases h
        case inl => exact .inl hc
        case inr => exact .inr ⟨hr, ha, by simp [hc, created]⟩

-- A task that is found to have ended has ended, also when the lock is released. One that is not was
-- live when the lock was taken.
theorem Inv.taskLive (h : g.Inv H limits) (h₁ : Later g g₁) (h₂ : Later g₁ g₂) (h₃ : Later g₂ g₃)
    (hp : g.tasks id = some p) (hl : g₃.Live H p) :
    (observe H g g₁ g₂ g₃ id token).taskLive = true := by
  have hl₂ : g₂.Live H p := h₃.live ((h.later h₁).later h₂).tokens hl
  have hl₁ : g₁.Live H p := h₂.live (h.later h₁).tokens hl₂
  simp [observe, hp, hl₁.token, hl₂.context, Except.isOk, Except.toBool]

theorem Inv.live_of_taskLive (h : g.Inv H limits) (h₁ : Later g g₁) (h₂ : Later g₁ g₂)
    (hp : g.tasks id = some p) (hl : (observe H g g₁ g₂ g₃ id token).taskLive = true) :
    g.Live H p := by
  have ⟨hc, _, hf⟩ := h.mapped id p hp
  simp only [observe, hp, Option.any_some, Bool.and_eq_true, Bool.not_eq_true'] at hl
  exact ⟨hc, hf, (h₁.trans h₂).context hl.2, h₁.check (h.tokens p hc) (Except.isOk_iff.mp hl.1)⟩

theorem Inv.issue (h : g.Inv H limits) (ht : token.Captured H g.epochs) :
    { g with issued := token :: g.issued }.Inv H limits :=
  { h with
    live   := fun p hp => h.live p ⟨hp.created, hp.running, hp.context, hp.token⟩
    issued := List.forall_mem_cons.mpr ⟨ht, h.issued⟩ }

theorem Inv.step (h : g.Inv H limits) (hs : Step H limits g e g') : g'.Inv H limits := by
  cases hs
  case later hl => exact h.later hl
  case begin => exact h.issue Fences.captured_begin
  case derive t key ht => exact h.issue ((h.issued t ht).derive key)
  case join id token g₁ g₂ g₃ r ht h₁ h₂ h₃ hj =>
    have h' : g₃.Inv H limits := ((h.later h₁).later h₂).later h₃
    have ⟨hi, htasks, _⟩ := ((h₁.trans h₂).trans h₃).same
    have hvacant (hd : ∀ p, g₃.tasks id = some p →
        (observe H g g₁ g₂ g₃ id token).taskLive = false) : g₃.Vacant H id := by
      intro p hp hl
      have : (observe H g g₁ g₂ g₃ id token).taskLive = true :=
        h.taskLive h₁ h₂ h₃ (htasks ▸ hp) hl
      simp [hd p hp] at this
    obtain ⟨p, _, hp, _, hr, rfl⟩ | ⟨_, _, rfl⟩ | ⟨hd, ⟨_, _, rfl⟩ | ⟨_, ha, rfl⟩⟩ := join_cases hj
    case inl => exact h'.subscribed (h'.mapped id p hp).1 hr
    case inr.inl => exact h'
    case inr.inr.inl => exact h'.drop (hvacant hd)
    case inr.inr.inr => exact h'.created (hvacant hd) ha (h'.issued token (hi ▸ ht))
  case leave p hp hc => exact h.leave hp hc
  case finish p hp hf _ => exact h.finish hp hf

-- The state of a group when the cache is opened.
def opened (epochs : Epochs n) (heap : Nat → FillTask n) : FillGroup n := { epochs, heap }

theorem inv_opened (epochs : Epochs n) (heap) : (opened epochs heap).Inv H limits where
  mapped  := nofun
  live    := fun _ h => absurd h.created (Nat.not_lt_zero _)
  refs    := nofun
  left    := nofun
  most    := nofun
  waiters := rfl
  active  := rfl
  limit   := Int.natCast_nonneg _
  issued  := nofun
  tokens  := nofun

abbrev Reaches (H : Hash) (limits : FillLimits) (epochs : Epochs n) (g : FillGroup n) : Prop :=
  ∃ heap, Run (Step H limits) (fun _ _ => True) (opened epochs heap) g

theorem Inv.reaches {epochs : Epochs n} (h : Reaches H limits epochs g) : g.Inv H limits := by
  have ⟨heap, hr⟩ := h
  exact hr.invariant (fun _ _ _ hi hs _ => hi.step hs) (inv_opened epochs heap)

-- At most one task of an identity is live, and the counters are exact and within their limits.
structure Exact (H : Hash) (limits : FillLimits) (g : FillGroup n) : Prop where
  exclusive : ∀ p q, g.Live H p → g.Live H q → (g.heap p).id = (g.heap q).id → p = q
  waiters   : g.waiters = g.refs ∧ 0 ≤ g.waiters
  active    : g.active = g.running ∧ 0 ≤ g.active
  tasks     : g.active ≤ limits.maxTasks
  most      : ∀ p < g.next, (g.heap p).refs ≤ limits.maxWaiters

theorem Inv.exact (h : g.Inv H limits) : g.Exact H limits where
  exclusive p q hp hq hid := by
    have := h.live p hp
    rw [hid, h.live q hq] at this
    exact (Option.some.inj this).symm
  waiters := by
    refine ⟨h.waiters, h.waiters ▸ sum_nonneg fun p hp => ?_⟩
    rw [h.refs p hp]
    exact Int.natCast_nonneg _
  active := by
    refine ⟨h.active, h.active ▸ sum_nonneg fun p _ => ?_⟩
    split <;> decide
  tasks := h.limit
  most  := h.most

-- What a step may not do: let a caller join a task that has ended or that everybody has left, or
-- remove a task from the map when another one finishes. The state is the one in which the step takes the
-- lock of the group.
def Event.Fair (H : Hash) (g g' : FillGroup n) : Event → Prop
  | .join _ (.ok (p, false)) => g.Live H p ∧ 0 < (g.heap p).callers
  | .finish p                => ∀ id q, q ≠ p → g.tasks id = some q → g'.tasks id = some q
  | _                        => True

theorem Inv.fair (h : g.Inv H limits) (hs : Step H limits g e g') : e.Fair H g g' := by
  cases hs
  case join id token g₁ g₂ g₃ r ht h₁ h₂ h₃ hj =>
    have ⟨_, htasks, _⟩ := ((h₁.trans h₂).trans h₃).same
    obtain ⟨p, rfl, hp, hl, _⟩ | ⟨_, rfl, _⟩ | ⟨_, ⟨_, rfl, _⟩ | ⟨rfl, _⟩⟩ := join_cases hj
    case inl =>
      have hlive := h.live_of_taskLive h₁ h₂ (htasks ▸ hp) hl
      refine ⟨hlive, Nat.pos_of_ne_zero fun hz => ?_⟩
      have := h.left p hlive.created hz
      simp [hlive.context] at this
    all_goals trivial
  case finish p hp hf hx => exact fun id q hq => (tasks_finish hq).mpr
  all_goals trivial

theorem coalescing_exact {epochs : Epochs n} (h : Reaches H limits epochs g) :
    g.Exact H limits ∧ ∀ e g', Step H limits g e g' → e.Fair H g g' :=
  ⟨(Inv.reaches h).exact, fun _ _ => (Inv.reaches h).fair⟩

-- Two callers share a task.
def sampleToken : Fences 1 := .begin sampleHash sampleEpochs [97]

def sampleGroup : FillGroup 1 :=
  { opened sampleEpochs (fun _ => { token := sampleToken, cancelled := false }) with
    issued := [sampleToken] }

def sampleLimits : FillLimits := ⟨1, 2, Nat.one_pos, by decide⟩

theorem coalescing_exact_sample : ∃ g, Reaches sampleHash sampleLimits sampleEpochs g ∧
    g.waiters = 2 ∧ g.active = 1 ∧ g.Exact sampleHash sampleLimits := by
  let g := sampleGroup.created [97] sampleToken
  have h₀ : Step sampleHash sampleLimits (opened sampleEpochs _) .issue sampleGroup := .begin [97]
  have h₁ : Step sampleHash sampleLimits sampleGroup (.join [97] (.ok (0, true))) g :=
    .join _ sampleToken _ _ _ _ _ (by simp [sampleGroup]) .refl .refl .refl rfl
  have h₂ : Step sampleHash sampleLimits g (.join [97] (.ok (0, false))) (g.subscribed 0) :=
    .join _ sampleToken _ _ _ _ _ (by simp [g, sampleGroup, created]) .refl .refl .refl rfl
  have hr : Reaches sampleHash sampleLimits sampleEpochs (g.subscribed 0) :=
    ⟨_, ((Run.single h₀ trivial).step h₁ trivial).step h₂ trivial⟩
  exact ⟨_, hr, rfl, rfl, (coalescing_exact hr).1⟩

end Run

end FillGroup
end Bakemono
