import Bakemono.Hash

namespace Bakemono

def rangeLayoutVersion : Nat := 2

def validETag (tag : Bytes) : Bool :=
  let tag := Bytes.trimPrefix (.text "W/") tag
  2 ≤ tag.length && tag.head? == some 34 && tag.getLast? == some 34 &&
    (tag.drop 1).dropLast.all fun c => c != 34 && 33 ≤ c && c != 127

def strongRangeTag (tag : Bytes) : Bool := validETag tag && !(Bytes.text "W/").isPrefixOf tag

-- A manifest that `readRangeManifestData` has accepted, or that `ensureRangeManifest` writes. Origins
-- are called by their URLs and variants are JSON texts, so neither of them has a zero byte. The limits
-- of the configuration are far below those of the integers.
structure RangeManifest where
  blockSize     : Nat
  total         : Nat
  etag          : Bytes
  origin        : Bytes
  variant       : Bytes
  incarnation   : Bytes
  blockSize_pos : 0 < blockSize
  fits          : total + blockSize < 2 ^ 63
  strong        : strongRangeTag etag = true
  origin_text   : 0 ∉ origin
  variant_text  : 0 ∉ variant
  length_incarnation : incarnation.length = 32

def rangeManifestKey (H : Hash) (root origin variant : Bytes) (size : Nat) : Bytes :=
  root ++ .text "\nrange:manifest:v" ++ .decimal rangeLayoutVersion ++ .text ":" ++ .decimal size ++
    .text ":" ++ H.sha256Hex (origin ++ 0 :: variant)

namespace RangeManifest

-- What the key of a block is the digest of.
def identity (m : RangeManifest) : Bytes :=
  m.origin ++ 0 :: (m.variant ++ 0 :: (m.etag ++ 0 :: (m.incarnation ++
    (.text ":" ++ .decimal rangeLayoutVersion ++ .text ":" ++ .decimal m.blockSize))))

def key (H : Hash) (root : Bytes) (m : RangeManifest) : Bytes :=
  rangeManifestKey H root m.origin m.variant m.blockSize

-- The interval that is requested from the origin for a block, and the number of its bytes.
def blockStart (m : RangeManifest) (index : Nat) : Nat := index * m.blockSize

def blockEnd (m : RangeManifest) (index : Nat) : Nat :=
  min (m.blockStart index + m.blockSize) m.total - 1

def blockLen (m : RangeManifest) (index : Nat) : Nat :=
  min m.blockSize (m.total - index * m.blockSize)

-- The manifests differ at most in the length of the representation.
structure Similar (m m' : RangeManifest) : Prop where
  blockSize   : m.blockSize = m'.blockSize
  etag        : m.etag = m'.etag
  origin      : m.origin = m'.origin
  variant     : m.variant = m'.variant
  incarnation : m.incarnation = m'.incarnation

end RangeManifest

def rangeBlockKey (H : Hash) (root : Bytes) (m : RangeManifest) (index : Nat) : Bytes :=
  root ++ .text "\nrange:block:" ++ H.sha256Hex m.identity ++ .text ":" ++ .decimal index

-- SHA-256 has no collisions among the identities of some manifests.
def Hash.Separates (H : Hash) (ms : Set RangeManifest) : Prop :=
  Set.InjOn H.sha256 (RangeManifest.identity '' ms)

section Keys

variable {H : Hash} {root root' : Bytes} {m m' : RangeManifest} {ms : Set RangeManifest}
  {index index' : Nat}

theorem length_sha256Hex {l : Bytes} : (H.sha256Hex l).length = 64 := by
  simp [Hash.sha256Hex]

theorem sha256Hex_inj {l l' : Bytes} (h : H.sha256Hex l = H.sha256Hex l') :
    H.sha256 l = H.sha256 l' := by
  have hb := congrArg Bytes.ofBE (Bytes.hex_inj h)
  rw [Bytes.ofBE_be, Bytes.ofBE_be] at hb
  have := (H.sha256 l).isLt
  have := (H.sha256 l').isLt
  exact BitVec.eq_of_toNat_eq (by omega)

theorem zero_notMem_etag {tag : Bytes} (h : strongRangeTag tag = true) : 0 ∉ tag := by
  simp only [strongRangeTag, validETag, Bool.and_eq_true, Bool.not_eq_true'] at h
  have ⟨⟨⟨⟨hlen, hhead⟩, hlast⟩, hall⟩, hw⟩ := h
  simp only [Bytes.trimPrefix, hw, Bool.false_eq_true, if_false, decide_eq_true_eq,
    beq_iff_eq] at hlen hhead hlast hall
  -- The tag is a quoted text.
  obtain ⟨front, rfl⟩ := List.getLast?_eq_some_iff.mp hlast
  cases front
  case nil => exact absurd hlen (by decide)
  case cons q body =>
    obtain rfl : q = 34 := by simpa using hhead
    simp only [List.cons_append, List.drop_one, List.tail_cons, List.dropLast_concat,
      List.all_eq_true] at hall
    intro h0
    have hbody : (0 : UInt8) ∈ body := by simpa using h0
    exact absurd (hall 0 hbody) (by decide)

theorem RangeManifest.identity_inj (h : m.identity = m'.identity) : m.Similar m' := by
  have ⟨ho, h⟩ := Bytes.split_first m.origin_text m'.origin_text h
  have ⟨hv, h⟩ := Bytes.split_first m.variant_text m'.variant_text h
  have ⟨he, h⟩ := Bytes.split_first (zero_notMem_etag m.strong) (zero_notMem_etag m'.strong) h
  have ⟨hi, h⟩ := List.append_inj h (by rw [m.length_incarnation, m'.length_incarnation])
  have hb := Bytes.decimal_inj (List.append_cancel_left h)
  exact ⟨hb, he, ho, hv, hi⟩

theorem rangeBlockKey_inj (hs : H.Separates ms) (hm : m ∈ ms) (hm' : m' ∈ ms)
    (h : rangeBlockKey H root m index = rangeBlockKey H root' m' index') :
    root = root' ∧ m.Similar m' ∧ index = index' := by
  have hc : Bytes.text ":" = [58] := by decide
  simp only [rangeBlockKey, hc, List.append_assoc, List.singleton_append] at h
  simp only [← List.append_assoc] at h
  have ⟨h, hi⟩ := Bytes.split_last (Bytes.notMem_decimal (by decide)) (Bytes.notMem_decimal (by decide)) h
  have ⟨h, hd⟩ := List.append_inj' h (by rw [length_sha256Hex, length_sha256Hex])
  have hid := hs ⟨m, hm, rfl⟩ ⟨m', hm', rfl⟩ (sha256Hex_inj hd)
  exact ⟨List.append_cancel_right h, RangeManifest.identity_inj hid, Bytes.decimal_inj hi⟩

end Keys

section Blocks

variable {m : RangeManifest} {index : Nat}

theorem RangeManifest.blockLen_eq (h : m.blockStart index < m.total) :
    m.blockLen index = m.blockEnd index - m.blockStart index + 1 ∧
      m.blockStart index ≤ m.blockEnd index ∧ m.blockEnd index < m.total := by
  have := m.blockSize_pos
  rw [blockLen, blockEnd, blockStart] at *
  omega

-- Every byte of a representation belongs to one block.
theorem RangeManifest.blocks_tile {x : Nat} (h : x < m.total) :
    ∃! index, m.blockStart index ≤ x ∧ x ≤ m.blockEnd index := by
  have hb := m.blockSize_pos
  refine ⟨x / m.blockSize, ?_, fun index hi => ?_⟩
  case refine_1 =>
    have h₁ := Nat.div_mul_le_self x m.blockSize
    have h₂ := Nat.lt_div_mul_add hb (a := x)
    simp only [blockEnd, blockStart]
    omega
  case refine_2 =>
    simp only [blockEnd, blockStart] at hi
    refine (Nat.div_eq_of_lt_le hi.1 ?_).symm
    rw [Nat.add_mul, Nat.one_mul]
    omega

end Blocks

end Bakemono
