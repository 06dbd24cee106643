import Mathlib.Tactic

-- Loops that run while a condition holds, for at most a given number of rounds.

variable {σ : Type*}

def whileLoop (c : σ → Bool) (f : σ → σ) : Nat → σ → Option σ
  | 0,     _ => none
  | n + 1, s => if c s then whileLoop c f n (f s) else some s

variable {c : σ → Bool} {f : σ → σ} {I : σ → Prop} {m : σ → Nat} {s : σ} {n : Nat}

-- A loop returns if a measure gets smaller in every round.
theorem whileLoop_total (h : ∀ s, I s → c s = true → I (f s) ∧ m (f s) < m s) (hs : I s) :
    ∃ s', I s' ∧ c s' = false ∧ ∀ n, m s < n → whileLoop c f n s = some s' := by
  induction hm : m s using Nat.strong_induction_on generalizing s
  case _ k hi =>
    subst hm
    cases hc : c s
    case false =>
      refine ⟨s, hs, hc, fun n hn => ?_⟩
      obtain ⟨n, rfl⟩ := Nat.exists_eq_succ_of_ne_zero (by omega : n ≠ 0)
      simp [whileLoop, hc]
    case true =>
      have ⟨hf, hlt⟩ := h s hs hc
      have ⟨s', hs', hc', hw⟩ := hi _ hlt hf rfl
      refine ⟨s', hs', hc', fun n hn => ?_⟩
      obtain ⟨n, rfl⟩ := Nat.exists_eq_succ_of_ne_zero (by omega : n ≠ 0)
      simpa [whileLoop, hc] using hw n (by omega)
