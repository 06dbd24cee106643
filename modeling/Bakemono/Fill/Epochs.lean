import Bakemono.Error
import Bakemono.Hash
import Bakemono.Lib.Except

namespace Bakemono

-- The counters with which the stripes of a cache fence unfinished fills: the generations of their
-- open directories and the policy epochs, of which there is a fixed number.
structure Epochs (n : Nat) where
  closing    : Fin n → Bool
  generation : Fin n → Nat
  policy     : Fin n → Fin 1024 → Nat

-- The counters of an example: a stripe on which nothing has been invalidated.
def sampleEpochs : Epochs 1 :=
  { closing := fun _ => false, generation := fun _ => 0, policy := fun _ _ => 0 }

-- Counters only grow, and a stripe is not opened again.
structure Epochs.Le {n : Nat} (e e' : Epochs n) : Prop where
  closing    : ∀ i, e.closing i → e'.closing i
  generation : ∀ i, e.generation i ≤ e'.generation i
  policy     : ∀ i j, e.policy i j ≤ e'.policy i j

-- The counters that a fill token has captured for its selector.
structure Fence (n : Nat) where
  selector    : Bytes
  generations : Fin n → Nat
  policies    : Fin n → Nat

-- The part of a fill token that `checkFillEpochsLocked` reads. A derived token keeps the fence of its
-- parent, which has no parent itself.
structure Fences (n : Nat) where
  own    : Fence n
  parent : Option (Fence n) := none

section

variable {n : Nat} (H : Hash)

namespace Fence

def check (f : Fence n) (e : Epochs n) : Except Err Unit :=
  forM (List.finRange n) fun i => do
    if e.closing i then throw .cacheClosed
    if f.generations i ≠ e.generation i ∨ f.policies i ≠ e.policy i (H.policySlot f.selector) then
      throw .invalidated

def capture (e : Epochs n) (selector : Bytes) : Fence n where
  selector    := selector
  generations := e.generation
  policies i  := e.policy i (H.policySlot selector)

-- The counters had the values of the fence once.
structure Captured (f : Fence n) (e : Epochs n) : Prop where
  generations : ∀ i, f.generations i ≤ e.generation i
  policies    : ∀ i, f.policies i ≤ e.policy i (H.policySlot f.selector)

end Fence

namespace Fences

def check (t : Fences n) (e : Epochs n) : Except Err Unit := do
  if let some p := t.parent then p.check H e
  t.own.check H e

-- The fences of `BeginFill` and `deriveFillLocked`.
def begin (e : Epochs n) (selector : Bytes) : Fences n where
  own := .capture H e selector

def derive (t : Fences n) (e : Epochs n) (key : Bytes) : Fences n where
  own    := { Fence.capture H e key with generations := t.own.generations }
  parent := some t.own

structure Captured (t : Fences n) (e : Epochs n) : Prop where
  own    : t.own.Captured H e
  parent : ∀ p ∈ t.parent, p.Captured H e

end Fences

end

variable {n : Nat} {H : Hash} {e e' e'' : Epochs n} {f : Fence n} {t : Fences n}

namespace Epochs.Le

theorem refl : Epochs.Le e e := ⟨fun _ => id, fun _ => le_rfl, fun _ _ => le_rfl⟩

theorem trans (h : e.Le e') (h' : e'.Le e'') : e.Le e'' where
  closing i    := h'.closing i ∘ h.closing i
  generation i := (h.generation i).trans (h'.generation i)
  policy i j   := (h.policy i j).trans (h'.policy i j)

end Epochs.Le

namespace Fence

theorem check_eq_ok : f.check H e = .ok () ↔ ∀ i, e.closing i = false ∧
    f.generations i = e.generation i ∧ f.policies i = e.policy i (H.policySlot f.selector) := by
  rw [check, Except.forM_eq_ok]
  simp only [List.mem_finRange, true_implies]
  refine forall_congr' fun i => ?_
  rw [Except.check_bind_eq_ok, Except.check_eq_ok]
  simp only [Bool.not_eq_true, not_or, not_not]
  exact and_congr_right fun _ => and_iff_left rfl

theorem captured_capture {selector : Bytes} : (capture H e selector).Captured H e :=
  ⟨fun _ => le_rfl, fun _ => le_rfl⟩

theorem Captured.mono (h : f.Captured H e) (he : e.Le e') : f.Captured H e' where
  generations i := (h.generations i).trans (he.generation i)
  policies i    := (h.policies i).trans (he.policy i _)

-- A fence that has fallen stays down.
theorem Captured.check (h : f.Captured H e) (he : e.Le e') (hc : f.check H e' = .ok ()) :
    f.check H e = .ok () := by
  rw [check_eq_ok] at hc ⊢
  intro i
  have ⟨h₁, h₂, h₃⟩ := hc i
  have := h.generations i
  have := h.policies i
  have := he.generation i
  have := he.policy i (H.policySlot f.selector)
  refine ⟨?_, by omega, by omega⟩
  by_contra hcl
  simp [he.closing i (by simpa using hcl)] at h₁

end Fence

namespace Fences

theorem check_eq_ok : t.check H e = .ok () ↔
    (∀ p ∈ t.parent, p.check H e = .ok ()) ∧ t.own.check H e = .ok () := by
  cases hp : t.parent
  case none => simp [check, hp]
  case some p =>
    simp only [check, hp, Except.bind_eq_ok, Option.mem_some_iff, forall_eq']
    exact ⟨fun ⟨_, h₁, h₂⟩ => ⟨h₁, h₂⟩, fun ⟨h₁, h₂⟩ => ⟨_, h₁, h₂⟩⟩

theorem Captured.mono (h : t.Captured H e) (he : e.Le e') : t.Captured H e' :=
  ⟨h.own.mono he, fun p hp => (h.parent p hp).mono he⟩

theorem Captured.check (h : t.Captured H e) (he : e.Le e') (hc : t.check H e' = .ok ()) :
    t.check H e = .ok () := by
  rw [check_eq_ok] at hc ⊢
  exact ⟨fun p hp => (h.parent p hp).check he (hc.1 p hp), h.own.check he hc.2⟩

theorem captured_begin {selector : Bytes} : (begin H e selector).Captured H e :=
  ⟨Fence.captured_capture, nofun⟩

theorem Captured.derive (h : t.Captured H e) (key : Bytes) : (t.derive H e key).Captured H e where
  own    := ⟨h.own.generations, fun _ => le_rfl⟩
  parent := fun p hp => by
    cases hp
    exact h.own

end Fences

end Bakemono
