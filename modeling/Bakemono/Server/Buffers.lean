import Bakemono.Lib.Count
import Bakemono.Lib.Run

namespace Bakemono

def responseBufferSize : Nat := 256 <<< 10

-- The step of `acquire` or `release` that a goroutine takes next.
inductive BufferStep
  | idle
  -- `acquire`
  | load
  | swap (active : Int)
  | lock
  | recheck
  | retry
  | register
  | unlock (changed : Nat)
  | wait (changed : Nat)
  | unregister (err : Bool)
  -- `release`
  | test
  | lockNotify
  | close
  | renew
  | unlockNotify
  deriving DecidableEq

namespace BufferStep

def holdsMutex : BufferStep → Bool
  | recheck | retry | register | unlock _ | close | renew | unlockNotify => true
  | _ => false

-- The goroutine is counted as a waiter.
def registered : BufferStep → Bool
  | unlock _ | wait _ | unregister _ => true
  | _ => false

-- The channel that a waiter has registered for.
def channel : BufferStep → Option Nat
  | unlock c | wait c => some c
  | _ => none

-- The goroutine has given back a buffer and has not notified anybody yet.
def pending : BufferStep → Bool
  | test | lockNotify | close => true
  | _ => false

end BufferStep

-- The channels that have been the current one are numbered, and those below `closed` are closed. The
-- last two fields stand for what is outside of the source's record: how many leases have been granted
-- and not been given back, and what each goroutine does next.
structure ResponseBufferPool (ι : Type) where
  capacity : Int
  inUse    : Int := 0
  waiters  : Int := 0
  mutex    : Option ι := none
  changed  : Nat := 0
  closed   : Nat := 0
  leases   : Nat := 0
  pc       : ι → BufferStep := fun _ => .idle

namespace ResponseBufferPool

variable {ι : Type} [DecidableEq ι]

def new (requests : Nat) : ResponseBufferPool ι := { capacity := requests * responseBufferSize }

def goto (p : ResponseBufferPool ι) (i : ι) (pc : BufferStep) : ResponseBufferPool ι :=
  { p with pc := Function.update p.pc i pc }

-- The steps of a goroutine.
inductive Step (p : ResponseBufferPool ι) (i : ι) : ResponseBufferPool ι → Prop
  | acquire : (p.pc i = .idle) → Step p i (p.goto i .load)
  -- The context has ended.
  | cancelled : (p.pc i = .load) → Step p i (p.goto i .idle)
  | load : (p.pc i = .load) → (p.inUse < p.capacity) → Step p i (p.goto i (.swap p.inUse))
  | full : (p.pc i = .load) → (p.capacity ≤ p.inUse) → Step p i (p.goto i .lock)
  | swapped (active) :
    (p.pc i = .swap active) → (p.inUse = active) → Step p i
      { p.goto i .idle with
        inUse  := active + responseBufferSize
        leases := p.leases + 1 }
  | lost (active) : (p.pc i = .swap active) → (p.inUse ≠ active) → Step p i (p.goto i .load)
  | lock : (p.pc i = .lock) → (p.mutex = none) → Step p i { p.goto i .recheck with mutex := some i }
  | recheck : (p.pc i = .recheck) → (p.inUse < p.capacity) → Step p i (p.goto i .retry)
  | stillFull : (p.pc i = .recheck) → (p.capacity ≤ p.inUse) → Step p i (p.goto i .register)
  | retry : (p.pc i = .retry) → Step p i { p.goto i .load with mutex := none }
  | register :
    (p.pc i = .register) → Step p i { p.goto i (.unlock p.changed) with waiters := p.waiters + 1 }
  | unlock (changed) :
    (p.pc i = .unlock changed) → Step p i { p.goto i (.wait changed) with mutex := none }
  | receive (changed) :
    (p.pc i = .wait changed) → (changed < p.closed) → Step p i (p.goto i (.unregister false))
  | done (changed) : (p.pc i = .wait changed) → Step p i (p.goto i (.unregister true))
  | resume :
    (p.pc i = .unregister false) → Step p i { p.goto i .load with waiters := p.waiters - 1 }
  | fail : (p.pc i = .unregister true) → Step p i { p.goto i .idle with waiters := p.waiters - 1 }
  | release :
    (p.pc i = .idle) → (0 < p.leases) → Step p i
      { p.goto i .test with
        inUse  := p.inUse - responseBufferSize
        leases := p.leases - 1 }
  | test : (p.pc i = .test) → (0 < p.waiters) → Step p i (p.goto i .lockNotify)
  | unneeded : (p.pc i = .test) → (p.waiters ≤ 0) → Step p i (p.goto i .idle)
  | lockNotify :
    (p.pc i = .lockNotify) → (p.mutex = none) → Step p i { p.goto i .close with mutex := some i }
  | close : (p.pc i = .close) → Step p i { p.goto i .renew with closed := p.changed + 1 }
  | renew : (p.pc i = .renew) → Step p i { p.goto i .unlockNotify with changed := p.changed + 1 }
  | unlockNotify : (p.pc i = .unlockNotify) → Step p i { p.goto i .idle with mutex := none }

variable {p p' : ResponseBufferPool ι} {i j : ι} {pc : BufferStep}

-- What is in use are the buffers of the leases.
structure Accounts (p : ResponseBufferPool ι) : Prop where
  dvd   : (responseBufferSize : Int) ∣ p.capacity
  inUse : p.inUse = responseBufferSize * p.leases
  bound : p.inUse ≤ p.capacity
  swap  : ∀ i active, p.pc i = .swap active → active < p.capacity

omit [DecidableEq ι] in
-- Since the capacity is a multiple of the buffer size there is room for one more buffer below it.
theorem Accounts.room (h : p.Accounts) (hlt : p.inUse < p.capacity) :
    p.inUse + responseBufferSize ≤ p.capacity := by
  have ⟨n, hn⟩ := h.dvd
  have hu := h.inUse
  simp only [responseBufferSize] at *
  omega

omit [DecidableEq ι] in
theorem Accounts.new (requests : Nat) : (new requests : ResponseBufferPool ι).Accounts where
  dvd := Dvd.intro_left _ rfl
  inUse := rfl
  bound := by simp only [ResponseBufferPool.new]; positivity
  swap := nofun

theorem Accounts.step (h : p.Accounts) (hs : p.Step i p') : p'.Accounts := by
  have goto {pc : BufferStep} (hpc : ∀ active, pc = .swap active → active < p.capacity) :
      ∀ j active, Function.update p.pc i pc j = .swap active → active < p.capacity :=
    (Function.forall_update_iff p.pc fun _ pc => ∀ active, pc = .swap active → active < p.capacity).mpr
      ⟨hpc, fun j _ => h.swap j⟩
  cases hs
  case load hpc hlt =>
    refine ⟨h.dvd, h.inUse, h.bound, goto fun active ha => ?_⟩
    cases ha
    exact hlt
  case swapped active hpc he =>
    have hu := h.inUse
    have hroom := h.room (he ▸ h.swap i active hpc)
    refine ⟨h.dvd, ?_, he ▸ hroom, goto nofun⟩
    simp only [responseBufferSize] at *
    omega
  case release hpc hl =>
    have hu := h.inUse
    have hb := h.bound
    refine ⟨h.dvd, ?_, ?_, goto nofun⟩ <;>
    · simp only [responseBufferSize, ResponseBufferPool.goto] at *
      omega
  all_goals exact ⟨h.dvd, h.inUse, h.bound, goto nofun⟩

section Mutex

-- The owner of the mutex is the goroutine that is inside of a critical section.
def Excludes (p : ResponseBufferPool ι) : Prop := ∀ i, p.mutex = some i ↔ (p.pc i).holdsMutex

omit [DecidableEq ι] in
theorem Excludes.eq (h : p.Excludes) (hi : (p.pc i).holdsMutex) (hj : (p.pc j).holdsMutex) : i = j := by
  have hi := (h i).mpr hi
  have hj := (h j).mpr hj
  exact Option.some.inj (hi.symm.trans hj)

-- Only the goroutine that moves can take or drop the mutex.
theorem excludes_update {owner : Option ι} (hi : owner = some i ↔ pc.holdsMutex)
    (h : ∀ j, j ≠ i → (owner = some j ↔ (p.pc j).holdsMutex)) :
    ∀ j, owner = some j ↔ (Function.update p.pc i pc j).holdsMutex :=
  (Function.forall_update_iff p.pc fun j pc => owner = some j ↔ pc.holdsMutex).mpr ⟨hi, h⟩

theorem Excludes.step (h : p.Excludes) (hs : p.Step i p') : p'.Excludes := by
  have keep {pc : BufferStep} (hpc : (p.pc i).holdsMutex = pc.holdsMutex) :
      ∀ j, p.mutex = some j ↔ (Function.update p.pc i pc j).holdsMutex :=
    excludes_update (hpc ▸ h i) fun j _ => h j
  have take {pc : BufferStep} (hn : p.mutex = none) (hpc : pc.holdsMutex) :
      ∀ j, some i = some j ↔ (Function.update p.pc i pc j).holdsMutex :=
    excludes_update (by simp [hpc]) fun j hj => by simp [← h j, hn, hj.symm]
  have drop {pc : BufferStep} (hi : (p.pc i).holdsMutex) (hpc : pc.holdsMutex = false) :
      ∀ j, none = some j ↔ (Function.update p.pc i pc j).holdsMutex :=
    excludes_update (by simp [hpc]) fun j hj => by simp [← h j, (h i).mpr hi, hj.symm]
  cases hs
  case lock hpc hn => exact take hn rfl
  case lockNotify hpc hn => exact take hn rfl
  case retry hpc => exact drop (hpc ▸ rfl) rfl
  case unlock hpc => exact drop (hpc ▸ rfl) rfl
  case unlockNotify hpc => exact drop (hpc ▸ rfl) rfl
  all_goals exact keep (by simp only [*, BufferStep.holdsMutex])

end Mutex

section Channels

theorem channel_step (h : ∀ i c, (p.pc i).channel = some c → c ≤ p.changed) (hs : p.Step i p') :
    ∀ i c, (p'.pc i).channel = some c → c ≤ p'.changed := by
  have goto {pc : BufferStep} {changed : Nat} (hle : p.changed ≤ changed)
      (hpc : ∀ c, pc.channel = some c → c ≤ changed) :
      ∀ j c, (Function.update p.pc i pc j).channel = some c → c ≤ changed :=
    (Function.forall_update_iff p.pc fun _ pc => ∀ c, pc.channel = some c → c ≤ changed).mpr
      ⟨hpc, fun j _ c hc => (h j c hc).trans hle⟩
  cases hs
  case register => exact goto le_rfl fun c hc => (Option.some.inj hc).ge
  case unlock c hpc => exact goto le_rfl fun c' hc => h i c' (hpc ▸ hc)
  case renew => exact goto (Nat.le_succ _) nofun
  all_goals exact goto le_rfl nofun

-- The current channel is closed only between its closing and its replacement.
structure Renews (p : ResponseBufferPool ι) : Prop where
  opened : (∀ i, p.pc i ≠ .renew) → p.closed = p.changed
  closed : ∀ i, p.pc i = .renew → p.closed = p.changed + 1

theorem Renews.step (h : p.Renews) (he : p.Excludes) (hs : p.Step i p') : p'.Renews := by
  have opens {pc : BufferStep} (hi : p.pc i ≠ .renew)
      (hall : ∀ j, Function.update p.pc i pc j ≠ .renew) : p.closed = p.changed := by
    have hall := ((Function.forall_update_iff p.pc fun _ pc => pc ≠ .renew).mp hall).2
    refine h.opened fun j => ?_
    by_cases hj : j = i
    case pos => exact hj ▸ hi
    case neg => exact hall j hj
  have closes {pc : BufferStep} (hpc : pc ≠ .renew) :
      ∀ j, Function.update p.pc i pc j = .renew → p.closed = p.changed + 1 :=
    (Function.forall_update_iff p.pc fun _ pc => pc = .renew → p.closed = p.changed + 1).mpr
      ⟨fun hr => absurd hr hpc, fun j _ => h.closed j⟩
  cases hs
  case close hpc =>
    refine ⟨fun hall => ?_, fun _ _ => rfl⟩
    exact absurd (Function.update_self ..) (hall i)
  case renew hpc =>
    have hother (j) : Function.update p.pc i .unlockNotify j ≠ .renew := by
      revert j
      refine (Function.forall_update_iff p.pc fun _ pc => pc ≠ .renew).mpr ⟨nofun, fun j hj hr => ?_⟩
      exact hj (he.eq (hr ▸ rfl) (hpc ▸ rfl))
    exact ⟨fun _ => h.closed i hpc, fun j hj => absurd hj (hother j)⟩
  all_goals exact ⟨opens (by simp [*]), closes nofun⟩

end Channels

section Wakeup

variable [Fintype ι]

structure Inv (p : ResponseBufferPool ι) : Prop where
  accounts : p.Accounts
  mutex    : p.Excludes
  waiters  : p.waiters = count BufferStep.registered p.pc
  channel  : ∀ i c, (p.pc i).channel = some c → c ≤ p.changed
  renews   : p.Renews

theorem waiters_step (h : p.waiters = count BufferStep.registered p.pc) (hs : p.Step i p') :
    p'.waiters = count BufferStep.registered p'.pc := by
  have hc (pc : BufferStep) : (count BufferStep.registered (Function.update p.pc i pc) : Int) =
      p.waiters + pc.registered.toNat - (p.pc i).registered.toNat := by
    have := count_update BufferStep.registered p.pc i pc
    omega
  cases hs
  all_goals simp [goto, *, BufferStep.registered]

omit [DecidableEq ι] in
theorem Inv.new (requests : Nat) : (new requests : ResponseBufferPool ι).Inv where
  accounts := .new requests
  mutex := by simp [Excludes, ResponseBufferPool.new, BufferStep.holdsMutex]
  waiters := by simp [ResponseBufferPool.new, count, BufferStep.registered]
  channel := nofun
  renews := ⟨fun _ => rfl, nofun⟩

theorem Inv.step (h : p.Inv) (hs : p.Step i p') : p'.Inv where
  accounts := h.accounts.step hs
  mutex := h.mutex.step hs
  waiters := waiters_step h.waiters hs
  channel := channel_step h.channel hs
  renews := h.renews.step h.mutex hs

-- An acquirer that is blocked on the current channel.
def Blocked (p : ResponseBufferPool ι) (i : ι) : Prop :=
  p.pc i = .wait p.changed ∧ p.closed ≤ p.changed

-- An acquirer that is blocked, or about to be.
def Waits (p : ResponseBufferPool ι) (i : ι) : Prop :=
  p.pc i = .register ∨ (p.pc i).channel = some p.changed ∧ p.closed ≤ p.changed

-- If there is room for one who waits then somebody is still to notify.
def Wakes (p : ResponseBufferPool ι) : Prop :=
  p.inUse < p.capacity → ∀ i, p.Waits i → ∃ j, (p.pc j).pending

-- The release finds nobody registered, while an acquirer has found the pool full and not registered yet.
def Overlooks (p : ResponseBufferPool ι) (i : ι) : Prop :=
  p.pc i = .test ∧ p.waiters = 0 ∧ p.inUse < p.capacity ∧ ∃ j, p.pc j = .register

theorem Wakes.step (h : p.Wakes) (hp : p.Inv) (hs : p.Step i p') (ho : ¬p.Overlooks i) : p'.Wakes := by
  -- A step that keeps the channels and gives no buffer back: who waits after it did so before it, and
  -- who had a notification to make still has.
  have keep {pc : BufferStep} (hpc : p'.pc = Function.update p.pc i pc)
      (hch : p'.changed = p.changed) (hcl : p'.closed = p.closed)
      (hu : p'.inUse < p'.capacity → p.inUse < p.capacity)
      (hw : p'.Waits i → p.Waits i) (hpend : (p.pc i).pending → pc.pending) : p'.Wakes := by
    intro hlt j hj
    have hj : p.Waits j := by
      by_cases hji : j = i
      case pos => exact hji ▸ hw (hji ▸ hj)
      case neg => simpa [Waits, hpc, hch, hcl, hji] using hj
    have ⟨k, hk⟩ := h (hu hlt) j hj
    refine ⟨k, ?_⟩
    by_cases hki : k = i
    case pos => simpa [hpc, hki] using hpend (hki ▸ hk)
    case neg => simpa [hpc, hki] using hk
  cases hs
  case stillFull hpc hfull => exact fun hlt => absurd hlt (Int.not_lt.mpr hfull)
  case register hpc => exact keep rfl rfl rfl id (fun _ => .inl hpc) (by simp [hpc, BufferStep.pending])
  case unlock c hpc =>
    refine keep rfl rfl rfl id (fun hw => .inr ?_) (by simp [hpc, BufferStep.pending])
    simpa [Waits, goto, hpc, BufferStep.channel] using hw
  case release hpc hl => exact fun _ _ _ => ⟨i, by simp [goto, BufferStep.pending]⟩
  case test hpc hw => exact fun _ _ _ => ⟨i, by simp [goto, BufferStep.pending]⟩
  case unneeded hpc hw =>
    intro hlt j hj
    have hjpc : Function.update p.pc i .idle j = p.pc j := by
      refine Function.update_of_ne (fun hji => ?_) ..
      simp [Waits, goto, hji, BufferStep.channel] at hj
    have hcount := hp.waiters
    rcases hj with hj | ⟨hj, -⟩
    case inl => exact absurd ⟨hpc, by omega, hlt, j, hjpc ▸ hj⟩ ho
    case inr =>
      -- Who has a channel is counted.
      have hreg : BufferStep.registered (p.pc j) := by
        simp only [goto, hjpc] at hj
        generalize p.pc j = pc at hj
        cases pc <;> first | rfl | cases hj
      have := count_pos hreg
      omega
  case close hpc =>
    rintro - j (hj | ⟨-, hj⟩)
    case inl =>
      have hji : j ≠ i := fun hji => by simp [goto, hji] at hj
      simp only [goto, Function.update_of_ne hji] at hj
      exact absurd (hp.mutex.eq (hj ▸ rfl) (hpc ▸ rfl)) hji
    case inr => exact absurd hj (Nat.not_succ_le_self _)
  case renew hpc =>
    rintro - j hj
    have hji : j ≠ i := fun hji => by simp [Waits, goto, hji, BufferStep.channel] at hj
    rcases hj with hj | ⟨hj, -⟩
    case inl =>
      simp only [goto, Function.update_of_ne hji] at hj
      exact absurd (hp.mutex.eq (hj ▸ rfl) (hpc ▸ rfl)) hji
    case inr =>
      simp only [goto, Function.update_of_ne hji] at hj
      exact absurd (hp.channel j _ hj) (Nat.not_succ_le_self _)
  case swapped active hpc he =>
    refine keep rfl rfl rfl (fun hlt => ?_) (by simp [Waits, goto, BufferStep.channel])
      (by simp [hpc, BufferStep.pending])
    simp only [goto, responseBufferSize] at hlt
    omega
  all_goals
    exact keep rfl rfl rfl id (by simp [Waits, goto, BufferStep.channel])
      (by simp [*, BufferStep.pending])

omit [DecidableEq ι] [Fintype ι] in
theorem Wakes.new (requests : Nat) : (new requests : ResponseBufferPool ι).Wakes := by
  rintro - i (hi | ⟨hi, -⟩) <;> cases hi

omit [DecidableEq ι] [Fintype ι] in
theorem Blocked.waits (h : p.Blocked i) : p.Waits i :=
  .inr ⟨h.1 ▸ rfl, h.2⟩

theorem no_lost_wakeup (requests : Nat) (p : ResponseBufferPool ι) :
    (Run Step (fun _ _ => True) (new requests) p →
      p.inUse = responseBufferSize * p.leases ∧ p.inUse ≤ p.capacity) ∧
    (Run Step (fun p i => ¬p.Overlooks i) (new requests) p →
      ∀ i, p.Blocked i → p.inUse < p.capacity → ∃ j, (p.pc j).pending) := by
  constructor
  case left =>
    intro hr
    have h := hr.invariant (fun _ _ _ h hs _ => Inv.step h hs) (.new requests)
    exact ⟨h.accounts.inUse, h.accounts.bound⟩
  case right =>
    intro hr i hi hlt
    have ⟨_, h⟩ := hr.invariant (I := fun p => p.Inv ∧ p.Wakes)
      (fun _ _ _ h hs ho => ⟨h.1.step hs, h.2.step h.1 hs ho⟩) ⟨.new requests, .new requests⟩
    exact h hlt i hi.waits

end Wakeup

section Sample

-- The only buffer is leased to the first goroutine. The second one has found the pool full twice.
def registering : ResponseBufferPool (Fin 2) where
  capacity := responseBufferSize
  inUse    := responseBufferSize
  mutex    := some 1
  leases   := 1
  pc       := ![.idle, .register]

theorem run_registering : Run Step (fun p i => ¬p.Overlooks i) (new 1) registering := by
  have h : Run Step (fun p i => ¬p.Overlooks i) (new 1) (new 1 : ResponseBufferPool (Fin 2)) := .refl
  have h := h.step (.acquire (i := 0) rfl) nofun
  have h := h.step (.load (i := 0) rfl (by decide)) nofun
  have h := h.step (.swapped (i := 0) _ rfl rfl) nofun
  have h := h.step (.acquire (i := 1) rfl) nofun
  have h := h.step (.full (i := 1) rfl (by decide)) nofun
  have h := h.step (.lock (i := 1) rfl rfl) nofun
  have h := h.step (.stillFull (i := 1) rfl (by decide)) nofun
  convert h using 1
  refine ResponseBufferPool.mk.injEq .. ▸ ?_
  refine ⟨rfl, rfl, rfl, rfl, rfl, rfl, rfl, ?_⟩
  funext j
  fin_cases j <;> rfl

-- The second goroutine is registered when the buffer is given back.
theorem no_lost_wakeup_sample : ∃ p : ResponseBufferPool (Fin 2),
    Run Step (fun p i => ¬p.Overlooks i) (new 1) p ∧ p.Blocked 1 ∧ p.inUse < p.capacity ∧
    ∃ j, (p.pc j).pending := by
  have h := run_registering.step (.register (i := 1) rfl) nofun
  have h := h.step (.unlock (i := 1) _ rfl) nofun
  have h := h.step (.release (i := 0) rfl (by decide)) nofun
  refine ⟨_, h, ⟨rfl, by decide⟩, by decide, ?_⟩
  exact (no_lost_wakeup 1 _).2 h 1 ⟨rfl, by decide⟩ (by decide)

-- The buffer is given back before, and the release sees no waiter.
theorem wakeup_lost : ∃ p : ResponseBufferPool (Fin 2),
    Run Step (fun _ _ => True) (new 1) p ∧ p.Blocked 1 ∧ p.inUse < p.capacity ∧
    ∀ j, ¬(p.pc j).pending := by
  have h := run_registering.mono fun _ _ _ => trivial
  have h := h.step (.release (i := 0) rfl (by decide)) trivial
  have h := h.step (.unneeded (i := 0) rfl (by decide)) trivial
  have h := h.step (.register (i := 1) rfl) trivial
  have h := h.step (.unlock (i := 1) _ rfl) trivial
  exact ⟨_, h, ⟨rfl, by decide⟩, by decide, by decide⟩

end Sample

end ResponseBufferPool
end Bakemono
