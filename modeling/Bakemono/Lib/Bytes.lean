import Mathlib.Tactic

-- Fixed-width encodings of numbers as bytes.

abbrev Bytes := List UInt8

namespace Bytes

instance lawfulBEq : LawfulBEq Bytes := inferInstance

-- The `w` little-endian bytes of `n`.
def le : Nat → Nat → Bytes
  | 0,     _ => []
  | w + 1, n => .ofNat n :: le w (n / 256)

def ofLE : Bytes → Nat
  | []     => 0
  | b :: l => b.toNat + 256 * ofLE l

-- The big-endian encoding has the same bytes in the opposite order.
def be (w n : Nat) : Bytes := (le w n).reverse

def ofBE (l : Bytes) : Nat := ofLE l.reverse

variable {w n : Nat} {l : Bytes}

@[simp] theorem length_le : (le w n).length = w := by
  induction w generalizing n <;> simp [le, *]

@[simp] theorem length_be : (be w n).length = w := by
  simp [be]

theorem ofLE_le : ofLE (le w n) = n % 256 ^ w := by
  induction w generalizing n
  case zero => simp [le, ofLE, Nat.mod_one]
  case succ w hi =>
    have h : (UInt8.ofNat n).toNat = n % 256 := UInt8.toNat_ofNat'
    rw [le, ofLE, hi, h, pow_succ', Nat.mod_mul]

theorem ofBE_be : ofBE (be w n) = n % 256 ^ w := by
  rw [ofBE, be, List.reverse_reverse, ofLE_le]

theorem ofLE_lt : ofLE l < 256 ^ l.length := by
  induction l
  case nil => simp [ofLE]
  case cons b l hi =>
    have := b.toNat_lt
    rw [ofLE, List.length_cons, pow_succ]
    omega

theorem ofBE_lt : ofBE l < 256 ^ l.length := by
  simpa [ofBE] using ofLE_lt (l := l.reverse)

theorem le_ofLE : le l.length (ofLE l) = l := by
  induction l
  case nil => rfl
  case cons b l hi =>
    have hb := b.toNat_lt
    have h₁ : UInt8.ofNat (b.toNat + 256 * ofLE l) = b := by
      apply UInt8.toNat_inj.mp
      simp only [UInt8.toNat_ofNat']
      omega
    have h₂ : (b.toNat + 256 * ofLE l) / 256 = ofLE l := by omega
    simp only [List.length_cons, le, ofLE, h₁, h₂, hi]

theorem be_ofBE : be l.length (ofBE l) = l := by
  have := le_ofLE (l := l.reverse)
  rw [List.length_reverse] at this
  rw [be, ofBE, this, List.reverse_reverse]

-- The `n` bytes at the given offset.
def slice (l : Bytes) (off n : Nat) : Bytes := (l.drop off).take n

@[simp] theorem length_slice : (slice l off n).length = min n (l.length - off) := by
  simp [slice]

theorem slice_append_right (l₁ l₂ : Bytes) : slice (l₁ ++ l₂) (l₁.length + off) n = slice l₂ off n := by
  simp [slice]

theorem slice_append_left {l₁ l₂ : Bytes} (h : off + n ≤ l₁.length) :
    slice (l₁ ++ l₂) off n = slice l₁ off n := by
  rw [slice, slice, List.drop_append_of_le_length (by omega), List.take_append_of_le_length]
  simp
  omega

theorem slice_self (l : Bytes) : slice l 0 l.length = l := by
  simp [slice]

-- The elements of a list that are encoded one after the other.
theorem slice_flatMap {f : α → Bytes} {l : List α} (hf : ∀ x ∈ l, (f x).length = n)
    (hj : j < l.length) : slice (l.flatMap f ++ r) (n * j) n = f l[j] := by
  induction l generalizing j
  case nil => simp at hj
  case cons x l hi =>
    have hx := hf x (by simp)
    cases j
    case zero =>
      rw [List.flatMap_cons, List.append_assoc, Nat.mul_zero, slice_append_left (by omega), ← hx]
      exact slice_self _
    case succ j =>
      have : n * (j + 1) = (f x).length + n * j := by rw [hx]; ring
      rw [List.flatMap_cons, List.append_assoc, this, slice_append_right]
      exact hi (fun y hy => hf y (by simp [hy])) (by simpa using hj)

theorem length_flatMap {f : α → Bytes} {l : List α} (hf : ∀ x ∈ l, (f x).length = n) :
    (l.flatMap f).length = n * l.length := by
  induction l
  case nil => simp
  case cons x l hi =>
    simp only [List.flatMap_cons, List.length_append, List.length_cons, hf x (by simp),
      hi fun y hy => hf y (by simp [hy])]
    ring

-- The elements of a list that are the consecutive parts of some bytes.
theorem flatMap_slices {f : α → Bytes} {l : List α} {b : Bytes}
    (h : ∀ i x, l[i]? = some x → f x = b.slice (i * n) n) : l.flatMap f = b.take (l.length * n) := by
  induction l generalizing b
  case nil => simp
  case cons x l hi =>
    have hx : f x = b.take n := by simpa [slice] using h 0 x rfl
    have hl : l.flatMap f = (b.drop n).take (l.length * n) := by
      refine hi fun i y hy => (h (i + 1) y hy).trans ?_
      rw [slice, slice, List.drop_drop, Nat.succ_mul, Nat.add_comm]
    rw [List.flatMap_cons, hx, hl, List.length_cons, Nat.succ_mul, Nat.add_comm, List.take_add]

-- Records of big-endian fields, each of which is given by its width and its value.
def encode (fields : List (Nat × Nat)) : Bytes := fields.flatMap fun f => be f.1 f.2

def decode : List Nat → Bytes → List Nat
  | [],      _ => []
  | w :: ws, l => ofBE (l.take w) :: decode ws (l.drop w)

@[simp] theorem length_encode {fields : List (Nat × Nat)} :
    (encode fields).length = (fields.map Prod.fst).sum := by
  simp [encode, List.length_flatMap]

theorem decode_encode (fields : List (Nat × Nat)) (l : Bytes) :
    decode (fields.map Prod.fst) (encode fields ++ l) = fields.map fun f => f.2 % 256 ^ f.1 := by
  induction fields
  case nil => rfl
  case cons f fields hi =>
    have ht : (be f.1 f.2 ++ (encode fields ++ l)).take f.1 = be f.1 f.2 := by simp
    have hd : (be f.1 f.2 ++ (encode fields ++ l)).drop f.1 = encode fields ++ l := by simp
    simp only [encode, List.flatMap_cons, List.append_assoc, List.map_cons, decode]
    rw [← encode, ht, hd, hi, ofBE_be]

end Bytes
