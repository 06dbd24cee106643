import Bakemono.Lib.Bytes

-- Files that are read and written at explicit offsets.

structure File where
  size : Nat
  byte : Nat → UInt8

namespace File

def read (f : File) (off n : Nat) : Bytes := (List.range n).map fun i => f.byte (off + i)

-- A read that would cross the end of the file returns `io.EOF`.
def readAt (f : File) (off n : Nat) : Option Bytes :=
  if off + n ≤ f.size then some (f.read off n) else none

def writeAt (f : File) (off : Nat) (p : Bytes) : File where
  size   := if p = [] then f.size else max f.size (off + p.length)
  byte i := if off ≤ i ∧ i < off + p.length then p.getD (i - off) 0 else f.byte i

-- The bytes `p` are at offset `off` of the file.
structure Holds (f : File) (off : Nat) (p : Bytes) : Prop where
  size : off + p.length ≤ f.size
  read : f.read off p.length = p

-- Both files have the same bytes in an interval which lies inside of the second one if it lies
-- inside of the first one.
structure Agree (f g : File) (lo hi : Nat) : Prop where
  size : hi ≤ f.size → hi ≤ g.size
  byte : ∀ i, lo ≤ i → i < hi → g.byte i = f.byte i

variable {f g : File} {off n : Nat} {p q : Bytes}

@[simp] theorem length_read : (f.read off n).length = n := by
  simp [read]

theorem read_congr (h : ∀ i, i < n → g.byte (off + i) = f.byte (off + i)) :
    g.read off n = f.read off n := by
  simp only [read, List.map_inj_left, List.mem_range]
  exact h

theorem read_add (m : Nat) : f.read off (m + n) = f.read off m ++ f.read (off + m) n := by
  simp [read, List.range_add, Nat.add_assoc]

theorem readAt_eq_some : f.readAt off n = some p ↔ p.length = n ∧ f.Holds off p := by
  unfold readAt
  split
  case isTrue h =>
    constructor
    case mp =>
      intro he
      cases he
      exact ⟨length_read, by simpa using h, by simp⟩
    case mpr =>
      intro ⟨hn, hp⟩
      rw [← hn, hp.read]
  case isFalse h =>
    constructor
    case mp => exact nofun
    case mpr =>
      intro ⟨hn, hp⟩
      exact absurd (hn ▸ hp.size) h

theorem Holds.readAt (h : f.Holds off p) : f.readAt off p.length = some p :=
  readAt_eq_some.mpr ⟨rfl, h⟩

theorem Holds.agree (h : f.Holds off p) (ha : f.Agree g off (off + p.length)) :
    g.Holds off p where
  size := ha.size h.size
  read := by
    refine (read_congr fun i hi => ?_).trans h.read
    exact ha.byte _ (Nat.le_add_right ..) (Nat.add_lt_add_left hi _)

theorem Holds.byte (h : f.Holds off p) {i : Nat} (hi : i < p.length) :
    f.byte (off + i) = p.getD i 0 := by
  have : (f.read off p.length).getD i 0 = f.byte (off + i) := by simp [File.read, hi]
  rw [← this, h.read]

theorem holds_append : f.Holds off (p ++ q) ↔ f.Holds off p ∧ f.Holds (off + p.length) q := by
  constructor
  case mp =>
    intro ⟨hs, hr⟩
    rw [List.length_append] at hs
    rw [List.length_append, read_add] at hr
    have ⟨h₁, h₂⟩ := List.append_inj hr length_read
    exact ⟨⟨by omega, h₁⟩, ⟨by omega, h₂⟩⟩
  case mpr =>
    intro ⟨⟨_, h₁⟩, ⟨hs, h₂⟩⟩
    exact ⟨by simpa [Nat.add_assoc] using hs, by rw [List.length_append, read_add, h₁, h₂]⟩

theorem Holds.take (h : f.Holds off p) (n : Nat) : f.Holds off (p.take n) := by
  rw [← List.take_append_drop n p, holds_append] at h
  exact h.1

theorem Holds.unique (h : f.Holds off p) (h' : f.Holds off q) (hl : p.length = q.length) : p = q := by
  rw [← h.read, ← h'.read, hl]

theorem Agree.mono {lo hi lo' hi' : Nat} (h : f.Agree g lo hi) (hl : lo ≤ lo')
    (hs : hi' ≤ f.size → hi' ≤ g.size) (hh : hi' ≤ hi) : f.Agree g lo' hi' where
  size := hs
  byte i h₁ h₂ := h.byte i (hl.trans h₁) (h₂.trans_le hh)

theorem size_le_writeAt : f.size ≤ (f.writeAt off p).size := by
  simp only [writeAt]
  split <;> omega

theorem holds_writeAt (hp : p ≠ []) : (f.writeAt off p).Holds off p where
  size := by simp [writeAt, hp]
  read := by
    refine List.ext_getElem length_read fun i h₁ h₂ => ?_
    simp [read, writeAt, h₂]

-- A write changes nothing outside of the interval it covers.
theorem agree_writeAt {lo hi : Nat} (h : hi ≤ off ∨ off + p.length ≤ lo) :
    f.Agree (f.writeAt off p) lo hi where
  size hs := hs.trans size_le_writeAt
  byte i h₁ h₂ := if_neg (by omega)

-- A write directly behind the bytes that a file is known to hold.
theorem Holds.writeAt (h : f.Holds 0 p) (hq : q ≠ []) :
    (f.writeAt p.length q).Holds 0 (p ++ q) := by
  refine holds_append.mpr ⟨h.agree (agree_writeAt (.inl (by omega))), ?_⟩
  rw [Nat.zero_add]
  exact holds_writeAt hq

theorem size_writeAt (h : off + p.length ≤ f.size) : (f.writeAt off p).size = f.size := by
  simp only [writeAt]
  split <;> omega

end File
