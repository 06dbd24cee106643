import Mathlib.Tactic.Basic

-- Pre- and postconditions of computations that change a state and may fail. The state of a failed
-- computation is kept.

namespace EStateM

variable {ε σ α β : Type} {P P' : σ → Prop} {Q Q' : α → σ → Prop} {R : β → σ → Prop}
  {E E' : ε → σ → Prop} {x y : EStateM ε σ α} {f : α → EStateM ε σ β} {s : σ}

-- The statements of the monad, applied to a state.
theorem get_apply (s : σ) : (EStateM.get : EStateM ε σ σ) s = .ok s s := rfl

theorem throw_apply (e : ε) (s : σ) : (EStateM.throw e : EStateM ε σ α) s = .error e s := rfl

theorem modifyGet_apply (f : σ → α × σ) (s : σ) :
    (EStateM.modifyGet f : EStateM ε σ α) s = .ok (f s).1 (f s).2 := rfl

theorem tryCatch_apply (x : EStateM ε σ α) (handle : ε → EStateM ε σ α) (s : σ) :
    EStateM.tryCatch x handle s = match x s with
      | .ok a s'    => .ok a s'
      | .error e s' => handle e s' := by
  have h : EStateM.tryCatch x handle s = EStateM.tryCatch (fun _ => x s) handle s := rfl
  rw [h]
  cases x s <;> rfl

def Spec (P : σ → Prop) (x : EStateM ε σ α) (Q : α → σ → Prop) (E : ε → σ → Prop) : Prop :=
  ∀ s, P s → match x s with
    | .ok a s'    => Q a s'
    | .error e s' => E e s'

namespace Spec

theorem mono (h : Spec P x Q E) (hp : ∀ s, P' s → P s) (hq : ∀ a s, Q a s → Q' a s)
    (he : ∀ e s, E e s → E' e s) : Spec P' x Q' E' := by
  intro s hs
  have := h s (hp s hs)
  revert this
  cases x s
  case ok a s' => exact hq a s'
  case error e s' => exact he e s'

theorem bind (hx : Spec P x Q E) (hf : ∀ a, Spec (Q a) (f a) R E) : Spec P (x >>= f) R E := by
  intro s hs
  have hx := hx s hs
  simp only [Bind.bind, EStateM.bind]
  revert hx
  cases x s
  case ok a s' => exact hf a s'
  case error e s' => exact id

theorem ite {c : Prop} [Decidable c] (hx : c → Spec P x Q E) (hy : ¬c → Spec P y Q E) :
    Spec P (if c then x else y) Q E := by
  by_cases h : c
  case pos => rw [if_pos h]; exact hx h
  case neg => rw [if_neg h]; exact hy h

-- A failed computation whose error is handled.
theorem tryCatch {h : ε → EStateM ε σ α} (hx : Spec P x Q E) (hh : ∀ e, Spec (E e) (h e) Q E') :
    Spec P (tryCatchThe ε x h) Q E' := by
  intro s hs
  have hx := hx s hs
  simp only [tryCatchThe, MonadExceptOf.tryCatch, tryCatch_apply]
  revert hx
  cases x s
  case ok a s' => exact id
  case error e s' => exact hh e s'

-- The statements, at a given state.
theorem at_state (h : ∀ s, P s → Spec (· = s) x Q E) : Spec P x Q E := fun s hs => h s hs s rfl

theorem ret {a : α} (h : Q a s) : Spec (· = s) (pure a) Q E := fun _ hs => hs ▸ h

theorem fail {e : ε} (h : E e s) : Spec (· = s) (throw e) Q E := fun _ hs => hs ▸ h

theorem read {g : σ → EStateM ε σ α} (h : Spec (· = s) (g s) Q E) : Spec (· = s) (get >>= g) Q E :=
  fun _ hs => hs ▸ h s rfl

theorem update {g : σ → σ} {Q : PUnit → σ → Prop} (h : Q ⟨⟩ (g s)) :
    Spec (· = s) (modify g) Q E := fun _ hs => hs ▸ h

end Spec

-- The state that a computation leaves behind.
def Result.state : Result ε σ α → σ
  | .ok _ s    => s
  | .error _ s => s

theorem Spec.state (h : Spec (· = s) x Q E) : (∃ a, Q a (x s).state) ∨ ∃ e, E e (x s).state := by
  have := h s rfl
  revert this
  cases x s
  case ok a s' => exact fun h => .inl ⟨a, h⟩
  case error e s' => exact fun h => .inr ⟨e, h⟩

end EStateM
