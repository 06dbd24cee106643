import Mathlib.Algebra.BigOperators.Group.Finset.Basic
import Mathlib.Data.Fintype.BigOperators
import Mathlib.Tactic

-- Counting the members of a finite family, one of which is replaced.

open Finset

variable {ι α : Type*} [Fintype ι] [DecidableEq ι]

theorem sum_update (f : ι → Nat) (i : ι) (x : Nat) :
    (∑ j, Function.update f i x j) + f i = (∑ j, f j) + x := by
  rw [sum_update_of_mem (mem_univ i), ← add_sum_erase univ f (mem_univ i), sdiff_singleton_eq_erase]
  omega

def count (p : α → Bool) (f : ι → α) : Nat := ∑ j, (p (f j)).toNat

omit [DecidableEq ι] in
theorem count_pos {p : α → Bool} {f : ι → α} {i : ι} (h : p (f i) = true) : 0 < count p f := by
  refine sum_pos' (fun _ _ => Nat.zero_le _) ⟨i, mem_univ i, ?_⟩
  simp [h]

omit [DecidableEq ι] in
theorem exists_of_count_pos {p : α → Bool} {f : ι → α} (h : 0 < count p f) : ∃ i, p (f i) = true := by
  obtain ⟨i, _, hi⟩ := exists_ne_zero_of_sum_ne_zero h.ne'
  exact ⟨i, by simpa using hi⟩

theorem count_update (p : α → Bool) (f : ι → α) (i : ι) (x : α) :
    count p (Function.update f i x) + (p (f i)).toNat = count p f + (p x).toNat := by
  have h : (fun j => (p (Function.update f i x j)).toNat) =
      Function.update (fun j => (p (f j)).toNat) i (p x).toNat :=
    funext fun j => Function.apply_update (fun _ a => (p a).toNat) f i x j
  simp only [count, h]
  exact sum_update ..
