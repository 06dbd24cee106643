import Mathlib.Tactic

-- Fields of bits in a word.

namespace BitVec

variable {n s s' w w' i : Nat} {x y : BitVec n}

-- The `w` bits at the position `s`.
def field (s w : Nat) (x : BitVec n) : BitVec w := x.extractLsb' s w

def setField (s : Nat) (x : BitVec n) (v : BitVec w) : BitVec n :=
  (x &&& ~~~((allOnes w).setWidth n <<< s)) ||| v.setWidth n <<< s

theorem getLsbD_field : (field s w x).getLsbD i = (decide (i < w) && x.getLsbD (s + i)) := by
  rw [field, getLsbD_extractLsb']

theorem getLsbD_setField {v : BitVec w} (hi : i < n) : (setField s x v).getLsbD i =
    if s ≤ i ∧ i < s + w then v.getLsbD (i - s) else x.getLsbD i := by
  simp only [setField, getLsbD_or, getLsbD_and, getLsbD_not, getLsbD_shiftLeft, getLsbD_setWidth,
    getLsbD_allOnes]
  by_cases hs : s ≤ i
  case neg => simp [hi, hs, Nat.not_le.mp hs]
  case pos =>
    by_cases hw : i < s + w
    case pos =>
      have h₁ : i - s < w := by omega
      have h₂ : i - s < n := by omega
      simp [hi, hs, hw, h₁, h₂, Nat.not_lt.mpr hs]
    case neg =>
      have h₁ : ¬i - s < w := by omega
      simp [hi, hs, hw, h₁, getLsbD_of_ge v (i - s) (by omega)]

theorem field_setField_self {v : BitVec w} (h : s + w ≤ n) : field s w (setField s x v) = v := by
  apply eq_of_getLsbD_eq
  intro i hi
  rw [getLsbD_field, getLsbD_setField (by omega), if_pos (by omega), Nat.add_sub_cancel_left]
  simp [hi]

theorem field_setField_of_disjoint {v : BitVec w} (h : s' + w' ≤ n) (hd : s' + w' ≤ s ∨ s + w ≤ s') :
    field s' w' (setField s x v) = field s' w' x := by
  apply eq_of_getLsbD_eq
  intro i hi
  rw [getLsbD_field, getLsbD_field, getLsbD_setField (by omega), if_neg (by omega)]

theorem toNat_field_lt : (field s w x).toNat < 2 ^ w := isLt _

-- The usual ways to read and to write a field, with masks.
theorem toNat_ushiftRight_and {m : BitVec n} (hm : m.toNat = 2 ^ w - 1) :
    (x >>> s &&& m).toNat = (field s w x).toNat := by
  rw [toNat_and, hm, Nat.and_two_pow_sub_one_eq_mod, toNat_ushiftRight, field, extractLsb'_toNat]

theorem setField_ofNat {m : BitVec n} {v : Nat} (hm : m = ~~~((allOnes w).setWidth n <<< s))
    (hv : v < 2 ^ w) : (x &&& m) ||| BitVec.ofNat n v <<< s = setField s x (.ofNat w v) := by
  have hw : (BitVec.ofNat w v).setWidth n = .ofNat n v := by
    apply eq_of_toNat_eq
    rw [toNat_setWidth, toNat_ofNat, toNat_ofNat, Nat.mod_eq_of_lt hv]
  rw [setField, hw, hm]

theorem toNat_field_setField {v : Nat} (h : s + w ≤ n) (hv : v < 2 ^ w) :
    (field s w (setField s x (.ofNat w v))).toNat = v := by
  rw [field_setField_self h, toNat_ofNat, Nat.mod_eq_of_lt hv]

-- The highest bit of a field.
theorem le_toNat_field : 2 ^ w ≤ (field s (w + 1) x).toNat ↔ x.getLsbD (s + w) = true := by
  have h : (field s (w + 1) x).getLsbD w = x.getLsbD (s + w) := by
    rw [getLsbD_field, decide_eq_true (Nat.lt_succ_self w), Bool.true_and]
  have hm := msb_eq_decide (field s (w + 1) x)
  rw [msb_eq_getLsbD_last, Nat.add_sub_cancel, h] at hm
  rw [hm, decide_eq_true_iff]

theorem getLsbD_one_shiftLeft (hi : i < n) : (1#n <<< s).getLsbD i = decide (i = s) := by
  rw [← twoPow_eq, getLsbD_twoPow]
  by_cases hs : i = s
  case pos => simp [← hs, hi]
  case neg => simp [hs, Ne.symm hs]

-- The field of a single bit.
theorem or_one_shiftLeft : x ||| 1#n <<< s = setField s x (1#1) := by
  apply eq_of_getLsbD_eq
  intro i hi
  rw [getLsbD_setField hi, getLsbD_or, getLsbD_one_shiftLeft hi]
  by_cases hs : i = s
  case pos => simp [hs]
  case neg =>
    rw [if_neg (by omega)]
    simp [hs]

theorem and_not_one_shiftLeft : x &&& ~~~(1#n <<< s) = setField s x (0#1) := by
  apply eq_of_getLsbD_eq
  intro i hi
  rw [getLsbD_setField hi, getLsbD_and, getLsbD_not, getLsbD_one_shiftLeft hi]
  by_cases hs : i = s
  case pos => simp [hs]
  case neg =>
    rw [if_neg (by omega)]
    simp [hs, hi]

-- A word is given by fields that cover it.
theorem eq_of_fields (fs : List (Nat × Nat)) (hc : ∀ i < n, ∃ f ∈ fs, f.1 ≤ i ∧ i < f.1 + f.2)
    (h : ∀ f ∈ fs, field f.1 f.2 x = field f.1 f.2 y) : x = y := by
  apply eq_of_getLsbD_eq
  intro i hi
  have ⟨f, hf, hl, hu⟩ := hc i hi
  have hb : (field f.1 f.2 x).getLsbD (i - f.1) = (field f.1 f.2 y).getLsbD (i - f.1) := by rw [h f hf]
  have hlt : i - f.1 < f.2 := Nat.sub_lt_left_of_lt_add hl hu
  rwa [getLsbD_field, getLsbD_field, Nat.add_sub_cancel' hl, decide_eq_true hlt, Bool.true_and,
    Bool.true_and] at hb

end BitVec
