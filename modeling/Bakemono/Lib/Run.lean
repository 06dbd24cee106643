import Mathlib.Logic.Relation

-- Runs of a labelled transition system all of whose steps meet a condition.

variable {σ ε : Type*}

inductive Run (Step : σ → ε → σ → Prop) (Ok : σ → ε → Prop) (s : σ) : σ → Prop
  | refl : Run Step Ok s s
  | step {s₁ s₂ e} : Run Step Ok s s₁ → Step s₁ e s₂ → Ok s₁ e → Run Step Ok s s₂

namespace Run

variable {Step : σ → ε → σ → Prop} {Ok Ok' : σ → ε → Prop} {s s₁ s₂ : σ} {e : ε}

theorem single (h : Step s e s₁) (ho : Ok s e) : Run Step Ok s s₁ :=
  .step .refl h ho

theorem trans (h₁ : Run Step Ok s s₁) (h₂ : Run Step Ok s₁ s₂) : Run Step Ok s s₂ := by
  induction h₂
  case refl => exact h₁
  case step h ho hi => exact .step hi h ho

theorem mono (h : ∀ s e, Ok s e → Ok' s e) (hr : Run Step Ok s s₁) : Run Step Ok' s s₁ := by
  induction hr
  case refl => exact .refl
  case step hs ho hi => exact .step hi hs (h _ _ ho)

theorem invariant {I : σ → Prop} (hr : Run Step Ok s s₁)
    (h : ∀ s e s', I s → Step s e s' → Ok s e → I s') (hs : I s) : I s₁ := by
  induction hr
  case refl => exact hs
  case step h' ho hi => exact h _ _ _ hi h' ho

-- The invariant rule for a relation between the states of a run and its first state.
theorem relation {R : σ → σ → Prop} (hs : Run Step Ok s s₁) (hr : ∀ s, R s s)
    (ht : ∀ {a b c}, R a b → R b c → R a c) (h : ∀ s e s', Step s e s' → Ok s e → R s s') :
    R s s₁ := by
  induction hs
  case refl => exact hr s
  case step h' ho hi => exact ht hi (h _ _ _ h' ho)

end Run
