import Mathlib.Tactic

namespace Bakemono

-- The sizes of `cache/const.go`.
def SectorSize : Nat := 512
def DirDataSizeLv0 : Nat := 512
def DirDataSizeLv1 : Nat := 4096
def DirDataSizeLv2 : Nat := 32768
def DirDataSizeLv3 : Nat := 262144
def DirMaxDataSize : Nat := 16 * 1024 * 1024
def DirDepth : Nat := 4
def MaxBucketsPerSegment : Nat := 16384
def TargetFragmentSize : Nat := 1024 * 1024

-- A directory entry is five 16 bit words. While the entry is unused, `raw2` holds the index of the
-- previous entry in the free chain, otherwise it packs the tag and the phase, head, pinned and token
-- bits.
@[ext]
structure Dir where
  raw0 : BitVec 16 := 0
  raw1 : BitVec 16 := 0
  raw2 : BitVec 16 := 0
  raw3 : BitVec 16 := 0
  raw4 : BitVec 16 := 0
  deriving DecidableEq, Repr

instance : Inhabited Dir where
  default := {}

namespace Dir

def clear (_ : Dir) : Dir := {}

def offset (d : Dir) : Nat :=
  d.raw0.toNat ||| (d.raw1 &&& 0xff).toNat <<< 16 ||| d.raw4.toNat <<< 24

-- The conversions of the 64 bit offset to `uint16` truncate.
def setOffset (d : Dir) (offset : Nat) : Dir :=
  { d with
    raw0 := .ofNat 16 offset
    raw1 := .ofNat 16 ((offset >>> 16) &&& 0xff) ||| (d.raw1 &&& 0xff00)
    raw4 := .ofNat 16 (offset >>> 24) }

def prev (d : Dir) : BitVec 16 := d.raw2
def setPrev (d : Dir) (prev : BitVec 16) : Dir := { d with raw2 := prev }

def bigInternal (d : Dir) : BitVec 8 := (d.raw1 >>> 8 &&& 0x3).setWidth 8
def setBigInternal (d : Dir) (big : BitVec 8) : Dir :=
  { d with raw1 := (d.raw1 &&& 0xfcff) ||| big.setWidth 16 <<< 8 }

-- The mask of `setSizeInternal` keeps the top bit of the field.
def sizeInternal (d : Dir) : BitVec 8 := (d.raw1 >>> 10 &&& 0x3f).setWidth 8
def setSizeInternal (d : Dir) (size : BitVec 8) : Dir :=
  { d with raw1 := (d.raw1 &&& 0x83ff) ||| size.setWidth 16 <<< 10 }

def tag (d : Dir) : BitVec 16 := d.raw2 &&& 0xfff
def setTag (d : Dir) (tag : BitVec 16) : Dir :=
  { d with raw2 := (d.raw2 &&& 0xf000) ||| (tag &&& 0xfff) }

def phase (d : Dir) : Bool := d.raw2 >>> 12 &&& 1 == 1
def setPhase (d : Dir) (phase : Bool) : Dir :=
  { d with raw2 := if phase then d.raw2 ||| 1#16 <<< 12 else d.raw2 &&& ~~~(1#16 <<< 12) }

-- Clearing the head (or the pinned) bit keeps that bit only.
def head (d : Dir) : Bool := d.raw2 >>> 13 &&& 1 == 1
def setHead (d : Dir) (head : Bool) : Dir :=
  { d with raw2 := if head then d.raw2 ||| 1#16 <<< 13 else d.raw2 &&& 1#16 <<< 13 }

def pinned (d : Dir) : Bool := d.raw2 >>> 14 &&& 1 == 1
def setPinned (d : Dir) (pinned : Bool) : Dir :=
  { d with raw2 := if pinned then d.raw2 ||| 1#16 <<< 14 else d.raw2 &&& 1#16 <<< 14 }

def token (d : Dir) : Bool := d.raw2 >>> 15 &&& 1 == 1
def setToken (d : Dir) (token : Bool) : Dir :=
  { d with raw2 := if token then d.raw2 ||| 1#16 <<< 15 else d.raw2 &&& ~~~(1#16 <<< 15) }

def next (d : Dir) : BitVec 16 := d.raw3
def setNext (d : Dir) (next : BitVec 16) : Dir := { d with raw3 := next }

-- `size - 1` wraps around in `uint64` for an empty size, and the quotient is truncated to `uint8`.
def sizeUnits (size unit : Nat) : BitVec 8 :=
  .ofNat 8 ((size + (2 ^ 64 - 1)) % 2 ^ 64 / unit)

-- Sizes above `DirMaxDataSize` panic.
def setApproxSize (d : Dir) (size : Nat) : Option Dir :=
  if size > DirMaxDataSize then
    none
  else if size ≤ DirDataSizeLv0 then
    some <| d.setBigInternal 0 |>.setSizeInternal (sizeUnits size DirDataSizeLv0)
  else if size ≤ DirDataSizeLv1 then
    some <| d.setBigInternal 1 |>.setSizeInternal (sizeUnits size DirDataSizeLv1)
  else if size ≤ DirDataSizeLv2 then
    some <| d.setBigInternal 2 |>.setSizeInternal (sizeUnits size DirDataSizeLv2)
  else
    some <| d.setBigInternal 3 |>.setSizeInternal (sizeUnits size DirDataSizeLv3)

def approxSize (d : Dir) : Nat :=
  (SectorSize <<< (d.bigInternal.toNat * 3)) * (d.sizeInternal + 1).toNat

-- The entry that `DirManager.Set` writes.
def make (offset size : Nat) (tag : BitVec 16) (phase : Bool) : Option Dir :=
  (setOffset {} offset).setApproxSize size |>.map
    fun d => d.setHead true |>.setTag tag |>.setPhase phase

@[simp] theorem offset_setNext (d : Dir) (n : BitVec 16) : (d.setNext n).offset = d.offset := rfl
@[simp] theorem offset_setPrev (d : Dir) (n : BitVec 16) : (d.setPrev n).offset = d.offset := rfl
@[simp] theorem offset_clear (d : Dir) : d.clear.offset = 0 := by simp [clear, offset]
@[simp] theorem next_setNext (d : Dir) (n : BitVec 16) : (d.setNext n).next = n := rfl
@[simp] theorem next_setPrev (d : Dir) (n : BitVec 16) : (d.setPrev n).next = d.next := rfl
@[simp] theorem next_clear (d : Dir) : d.clear.next = 0 := rfl
@[simp] theorem prev_setNext (d : Dir) (n : BitVec 16) : (d.setNext n).prev = d.prev := rfl
@[simp] theorem prev_setPrev (d : Dir) (n : BitVec 16) : (d.setPrev n).prev = n := rfl
@[simp] theorem prev_clear (d : Dir) : d.clear.prev = 0 := rfl
@[simp] theorem tag_setNext (d : Dir) (n : BitVec 16) : (d.setNext n).tag = d.tag := rfl
@[simp] theorem phase_setNext (d : Dir) (n : BitVec 16) : (d.setNext n).phase = d.phase := rfl
@[simp] theorem approxSize_setNext (d : Dir) (n : BitVec 16) :
    (d.setNext n).approxSize = d.approxSize := rfl
@[simp] theorem setNext_setNext (d : Dir) (n m : BitVec 16) :
    (d.setNext n).setNext m = d.setNext m := rfl
@[simp] theorem setNext_next (d : Dir) : d.setNext d.next = d := rfl

theorem offset_eq (d : Dir) :
    d.offset = d.raw0.toNat + 2 ^ 16 * (d.raw1 &&& 0xff).toNat + 2 ^ 24 * d.raw4.toNat := by
  have h : (d.raw1 &&& 0xff).toNat < 2 ^ 8 := by
    rw [BitVec.toNat_and]
    exact Nat.and_lt_two_pow _ (by decide)
  have h₁ : d.raw0.toNat ||| (d.raw1 &&& 0xff).toNat <<< 16 =
      (d.raw1 &&& 0xff).toNat <<< 16 + d.raw0.toNat := by
    rw [Nat.or_comm, ←Nat.shiftLeft_add_eq_or_of_lt d.raw0.isLt]
  have h₂ : (d.raw1 &&& 0xff).toNat <<< 16 + d.raw0.toNat < 2 ^ 24 := by
    rw [Nat.shiftLeft_eq]
    omega
  rw [offset, h₁, Nat.or_comm, ←Nat.shiftLeft_add_eq_or_of_lt h₂, Nat.shiftLeft_eq, Nat.shiftLeft_eq]
  omega

theorem offset_setOffset (d : Dir) (o : Nat) : (d.setOffset o).offset = o % 2 ^ 40 := by
  have h : (d.setOffset o).raw1 &&& 0xff = .ofNat 16 ((o >>> 16) &&& 0xff) := by
    apply BitVec.eq_of_getLsbD_eq
    intro i hi
    simp only [setOffset, BitVec.getLsbD_and, BitVec.getLsbD_or]
    interval_cases i <;> simp
  rw [offset_eq, h]
  simp only [setOffset, BitVec.toNat_ofNat, Nat.shiftRight_eq_div_pow]
  rw [show 0xff = 2 ^ 8 - 1 from rfl, Nat.and_two_pow_sub_one_eq_mod]
  omega

theorem getElem_of_toNat_lt {x : BitVec w} (h : x.toNat < 2 ^ k) (hi : i < w) (hl : k ≤ i) :
    x[i] = false :=
  Nat.testBit_lt_two_pow <| h.trans_le <| Nat.pow_le_pow_right (n := 2) (by decide) hl

-- A fresh entry has no bit above the offset in its second word, so that the size fields read back.
theorem bigInternal_set (d : Dir) (big size : BitVec 8) (h : big.toNat < 4) :
    ((d.setBigInternal big).setSizeInternal size).bigInternal = big := by
  have hb (i : Nat) (hi : i < 8) (hl : 2 ≤ i) : big[i] = false := getElem_of_toNat_lt h hi hl
  apply BitVec.eq_of_getLsbD_eq
  intro i hi
  simp only [setBigInternal, setSizeInternal, bigInternal, BitVec.getLsbD_and, BitVec.getLsbD_or,
    BitVec.getLsbD_setWidth, BitVec.getLsbD_shiftLeft, BitVec.getLsbD_ushiftRight]
  interval_cases i <;> simp [hb]

theorem sizeInternal_set (d : Dir) (big size : BitVec 8) (hd : d.raw1[15] = false)
    (h : big.toNat < 4) (hs : size.toNat < 64) :
    ((d.setBigInternal big).setSizeInternal size).sizeInternal = size := by
  have hb (i : Nat) (hi : i < 8) (hl : 2 ≤ i) : big[i] = false := getElem_of_toNat_lt h hi hl
  have hz (i : Nat) (hi : i < 8) (hl : 6 ≤ i) : size[i] = false := getElem_of_toNat_lt hs hi hl
  apply BitVec.eq_of_getLsbD_eq
  intro i hi
  simp only [setBigInternal, setSizeInternal, sizeInternal, BitVec.getLsbD_and, BitVec.getLsbD_or,
    BitVec.getLsbD_setWidth, BitVec.getLsbD_shiftLeft, BitVec.getLsbD_ushiftRight]
  interval_cases i <;> simp [hb, hz, hd]

theorem sizeUnits_toNat {size : Nat} (unit : Nat) (h₀ : 0 < size) (h : (size - 1) / unit < 256)
    (hs : size < 2 ^ 64) : (sizeUnits size unit).toNat = (size - 1) / unit := by
  have : (size + (2 ^ 64 - 1)) % 2 ^ 64 = size - 1 := by omega
  rw [sizeUnits, this, BitVec.toNat_ofNat, Nat.mod_eq_of_lt h]

variable {o size : Nat} {t : BitVec 16} {p : Bool} {d : Dir}

theorem exists_approxSize (d : Dir) (h₀ : 0 < size) (h : size ≤ DirMaxDataSize) :
    ∃ big units : BitVec 8, big.toNat < 4 ∧ units.toNat < 64 ∧
      d.setApproxSize size = some ((d.setBigInternal big).setSizeInternal units) ∧
      size ≤ (SectorSize <<< (big.toNat * 3)) * (units.toNat + 1) := by
  have hm : size ≤ 16777216 := h
  rw [setApproxSize, if_neg (Nat.not_lt.mpr h)]
  by_cases h₁ : size ≤ DirDataSizeLv0
  case pos =>
    have h₁' : size ≤ 512 := h₁
    have hu := sizeUnits_toNat 512 h₀ (by omega) (by omega)
    refine ⟨0, sizeUnits size 512, by decide, by omega, if_pos h₁, ?_⟩
    simp [hu, SectorSize, Nat.shiftLeft_eq]; omega
  rw [if_neg h₁]
  by_cases h₂ : size ≤ DirDataSizeLv1
  case pos =>
    have h₂' : size ≤ 4096 := h₂
    have hu := sizeUnits_toNat 4096 h₀ (by omega) (by omega)
    refine ⟨1, sizeUnits size 4096, by decide, by omega, if_pos h₂, ?_⟩
    simp [hu, SectorSize, Nat.shiftLeft_eq]; omega
  rw [if_neg h₂]
  by_cases h₃ : size ≤ DirDataSizeLv2
  case pos =>
    have h₃' : size ≤ 32768 := h₃
    have hu := sizeUnits_toNat 32768 h₀ (by omega) (by omega)
    refine ⟨2, sizeUnits size 32768, by decide, by omega, if_pos h₃, ?_⟩
    simp [hu, SectorSize, Nat.shiftLeft_eq]; omega
  case neg =>
    have hu := sizeUnits_toNat 262144 h₀ (by omega) (by omega)
    refine ⟨3, sizeUnits size 262144, by decide, by omega, if_neg h₃, ?_⟩
    simp [hu, SectorSize, Nat.shiftLeft_eq]; omega

-- What `DirManager.Set` writes reads back: the offset exactly, the size rounded up.
structure Describes (d : Dir) (o size : Nat) (t : BitVec 16) (p : Bool) : Prop where
  offset : d.offset = o
  size   : size ≤ d.approxSize
  tag    : d.tag = t
  phase  : d.phase = p
  next   : d.next = 0

-- The setters of the third word leave the others alone, and only the offset is in the low byte of
-- the second.
theorem offset_setSize (d : Dir) (big units : BitVec 8) :
    ((d.setBigInternal big).setSizeInternal units).offset = d.offset := by
  have h : ((d.setBigInternal big).setSizeInternal units).raw1 &&& 0xff = d.raw1 &&& 0xff := by
    apply BitVec.eq_of_getLsbD_eq
    intro i hi
    simp only [setBigInternal, setSizeInternal, BitVec.getLsbD_and, BitVec.getLsbD_or,
      BitVec.getLsbD_shiftLeft]
    interval_cases i <;> simp
  rw [offset, h]
  rfl

theorem tag_lt (d : Dir) : d.tag.toNat < 2 ^ 12 := by
  rw [tag, BitVec.toNat_and]
  exact Nat.and_le_right.trans_lt (by decide)

theorem tag_setPhase_setTag (d : Dir) (ht : t.toNat < 2 ^ 12) : ((d.setTag t).setPhase p).tag = t := by
  have hb (i : Nat) (hi : i < 16) (hl : 12 ≤ i) : t[i] = false := getElem_of_toNat_lt ht hi hl
  apply BitVec.eq_of_getLsbD_eq
  intro i hi
  cases p <;> simp only [setTag, setPhase, tag, BitVec.getLsbD_and]
  all_goals interval_cases i <;> simp [hb]

theorem phase_setPhase (d : Dir) : (d.setPhase p).phase = p := by
  cases p
  case false =>
    have : (d.raw2 &&& ~~~(1#16 <<< 12)) >>> 12 &&& 1 = 0 := by
      apply BitVec.eq_of_getLsbD_eq
      intro i hi
      simp only [BitVec.getLsbD_and, BitVec.getLsbD_ushiftRight]
      interval_cases i <;> simp
    rw [phase, setPhase, beq_eq_decide, decide_eq_false_iff_not]
    exact this ▸ (by decide)
  case true =>
    have : (d.raw2 ||| 1#16 <<< 12) >>> 12 &&& 1 = 1 := by
      apply BitVec.eq_of_getLsbD_eq
      intro i hi
      simp only [BitVec.getLsbD_and, BitVec.getLsbD_ushiftRight]
      interval_cases i <;> simp
    rw [phase, setPhase, beq_eq_decide, decide_eq_true_iff]
    exact this

-- The offset is cut to its width.
theorem offset_make {d : Dir} (h : make o size t p = some d) : d.offset = o % 2 ^ 40 := by
  have ⟨d', hd, he⟩ := Option.map_eq_some_iff.mp h
  have hs : ∃ big units, d' = ((setOffset {} o).setBigInternal big).setSizeInternal units := by
    unfold setApproxSize at hd
    split_ifs at hd
    all_goals exact ⟨_, _, (Option.some.inj hd).symm⟩
  have ⟨big, units, hs⟩ := hs
  calc d.offset
    _ = d'.offset := by rw [← he]; rfl
    _ = (setOffset {} o).offset := by rw [hs, offset_setSize]
    _ = o % 2 ^ 40 := offset_setOffset ..

theorem exists_make (h₀ : 0 < size) (h : size ≤ DirMaxDataSize) : ∃ d, make o size t p = some d := by
  have ⟨_, _, _, _, he, _⟩ := exists_approxSize (setOffset {} o) h₀ h
  have hd := congrArg (Option.map fun d => (d.setHead true |>.setTag t |>.setPhase p)) he
  exact ⟨_, hd⟩

theorem make_eq (h₀ : 0 < size) (h : size ≤ DirMaxDataSize) (ht : t.toNat < 2 ^ 12) :
    ∃ d, make o size t p = some d ∧ d.Describes (o % 2 ^ 40) size t p := by
  have ⟨big, units, hb, hu, he, hs⟩ := exists_approxSize (setOffset {} o) h₀ h
  have hd := congrArg (Option.map fun d => (d.setHead true |>.setTag t |>.setPhase p)) he
  refine ⟨_, hd, offset_make hd, ?_, tag_setPhase_setTag _ ht, phase_setPhase _, rfl⟩
  have hf : (setOffset {} o).raw1[15] = false := by simp [setOffset]
  have h₁ := bigInternal_set (setOffset {} o) big units hb
  have h₂ := sizeInternal_set _ big units hf hb hu
  have : (units + 1).toNat = units.toNat + 1 := by
    rw [BitVec.toNat_add]
    exact Nat.mod_eq_of_lt (by simp; omega)
  calc
    size ≤ SectorSize <<< (big.toNat * 3) * (units + 1).toNat := this ▸ hs
    _ = ((setOffset {} o).setBigInternal big |>.setSizeInternal units).approxSize := by
      rw [approxSize, h₁, h₂]

theorem make_describes (ho : o < 2 ^ 40) (h₀ : 0 < size) (h : size ≤ DirMaxDataSize)
    (ht : t.toNat < 2 ^ 12) : ∃ d, make o size t p = some d ∧ d.Describes o size t p := by
  have h := make_eq (o := o) (p := p) h₀ h ht
  rwa [Nat.mod_eq_of_lt ho] at h

-- The entry has been made for the values.
structure Makes (d : Dir) (o n : Nat) (t : BitVec 16) (p : Bool) : Prop extends d.Describes o n t p where
  made : make o n t p = some d

end Dir
end Bakemono
