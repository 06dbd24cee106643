import Bakemono.Doc
import Bakemono.Stripe.Identities

namespace Bakemono

def checkpointMagic : UInt64 := 0x424b434845434b33
def checkpointVersion : UInt32 := 1
def StripeHeaderMagic : Nat := 0xBADBABE
def StripeHeaderVer : Nat := 2

-- The part of a file that a stripe uses.
structure Geometry where
  skip : Nat
  len  : Nat

namespace Geometry

def start (g : Geometry) : Nat := g.skip + metaSize g.len

def stop (g : Geometry) : Nat := g.skip + g.len

theorem marker_le_start (g : Geometry) : g.skip + StripeHeaderSize ≤ g.start := by
  have : StripeHeaderSize ≤ metaSize g.len := by
    simp only [metaSize, sectors, SectorSize]
    omega
  simp only [start]
  omega

end Geometry

-- A small stripe for examples.
def sampleGeometry : Geometry := ⟨0, 32768⟩

-- What a checkpoint keeps of a stripe.
structure Volume where
  dirMgr   : DirManager
  index    : DirTrie
  writePos : Nat
  phase    : Bool

-- The offsets are integers with a sign in the source, but none of them is negative.
structure CheckpointHeader where
  magic    : UInt64
  version  : UInt32
  clean    : UInt32
  skip     : UInt64
  length   : UInt64
  start    : UInt64
  writePos : UInt64
  phase    : UInt32
  dirBytes : UInt64
  entries  : UInt32
  mapBytes : UInt64
  session  : BitVec 128
  checksum : UInt32 := 0
  deriving DecidableEq

namespace CheckpointHeader

def size : Nat := 92

def fields (h : CheckpointHeader) : List (Nat × Nat) :=
  [(8, h.magic.toNat), (4, h.version.toNat), (4, h.clean.toNat), (8, h.skip.toNat),
   (8, h.length.toNat), (8, h.start.toNat), (8, h.writePos.toNat), (4, h.phase.toNat),
   (8, h.dirBytes.toNat), (4, h.entries.toNat), (8, h.mapBytes.toNat), (16, h.session.toNat),
   (4, h.checksum.toNat)]

def marshal (h : CheckpointHeader) : Bytes := .encode h.fields

def unmarshal (data : Bytes) : CheckpointHeader :=
  let field := (Bytes.decode [8, 4, 4, 8, 8, 8, 8, 4, 8, 4, 8, 16, 4] data).getD
  { magic    := .ofNat (field 0 0)
    version  := .ofNat (field 1 0)
    clean    := .ofNat (field 2 0)
    skip     := .ofNat (field 3 0)
    length   := .ofNat (field 4 0)
    start    := .ofNat (field 5 0)
    writePos := .ofNat (field 6 0)
    phase    := .ofNat (field 7 0)
    dirBytes := .ofNat (field 8 0)
    entries  := .ofNat (field 9 0)
    mapBytes := .ofNat (field 10 0)
    session  := .ofNat 128 (field 11 0)
    checksum := .ofNat (field 12 0) }

theorem length_marshal (h : CheckpointHeader) : h.marshal.length = size := by
  simp [marshal, fields, size]

theorem unmarshal_marshal (h : CheckpointHeader) (l : Bytes) : unmarshal (h.marshal ++ l) = h := by
  have hd := Bytes.decode_encode h.fields l
  have hw : h.fields.map Prod.fst = [8, 4, 4, 8, 8, 8, 8, 4, 8, 4, 8, 16, 4] := rfl
  rw [hw] at hd
  have h₁ (x : UInt64) : UInt64.ofNat (x.toNat % 256 ^ 8) = x := by
    rw [Nat.mod_eq_of_lt (by simpa using x.toNat_lt), UInt64.ofNat_toNat]
  have h₂ (x : UInt32) : UInt32.ofNat (x.toNat % 256 ^ 4) = x := by
    rw [Nat.mod_eq_of_lt (by simpa using x.toNat_lt), UInt32.ofNat_toNat]
  have h₃ (x : BitVec 128) : BitVec.ofNat 128 (x.toNat % 256 ^ 16) = x := by
    rw [Nat.mod_eq_of_lt (by simpa using x.isLt), BitVec.ofNat_toNat, BitVec.setWidth_eq]
  rw [unmarshal, marshal, hd]
  simp only [fields, List.map_cons, List.map_nil, List.getD_cons_zero, List.getD_cons_succ, h₁, h₂, h₃]

-- The checksum is computed over the header without it.
theorem marshal_cleared (h : CheckpointHeader) (checksum : UInt32) (l : Bytes) :
    let data := { h with checksum }.marshal ++ l
    data.take (size - 4) ++ .replicate 4 0 ++ data.drop size = { h with checksum := 0 }.marshal ++ l := by
  have hm (c : UInt32) : { h with checksum := c }.marshal =
      Bytes.encode (h.fields.take 12) ++ Bytes.be 4 c.toNat := by
    simp [marshal, fields, Bytes.encode]
  have hl : (Bytes.encode (h.fields.take 12)).length = size - 4 := by simp [fields, size]
  have hz : Bytes.be 4 (0 : UInt32).toNat = List.replicate 4 0 := rfl
  have hd : ({ h with checksum }.marshal ++ l).drop size = l :=
    List.drop_left' (length_marshal _)
  have ht : ({ h with checksum }.marshal ++ l).take (size - 4) = Bytes.encode (h.fields.take 12) := by
    rw [hm, List.append_assoc]
    exact List.take_left' hl
  dsimp only
  rw [hd, ht, hm, hz]

end CheckpointHeader

section Mapping

def encodeEntry (e : Bytes × Bytes) : Bytes := .be 4 e.1.length ++ .be 4 e.2.length ++ e.1 ++ e.2

def MaxMapBytes : Nat := MaxIndexBytes + 8 * MaxIndexEntries

def encodeMapping (entries : List (Bytes × Bytes)) : Except Err Bytes := do
  if ∃ e ∈ entries, e.1.length > MaxIndexKeyBytes ∨ e.2.length > MaxIndexKeyBytes then
    throw (.other "checkpoint key limit")
  let mapping := entries.flatMap encodeEntry
  if entries.length > MaxIndexEntries ∨ mapping.length > MaxMapBytes then
    throw (.other "checkpoint mapping limit")
  return mapping

-- The given number of entries, and the bytes behind them.
def decodeMapping : Nat → Bytes → Except Err (List (Bytes × Bytes) × Bytes)
  | 0,     data => .ok ([], data)
  | n + 1, data => do
    let keyLen := Bytes.ofBE (data.slice 0 4)
    let selectorLen := Bytes.ofBE (data.slice 4 4)
    let data' : Bytes := data.drop 8
    if data.length < 8 ∨ keyLen = 0 ∨ keyLen > MaxIndexKeyBytes ∨ selectorLen > MaxIndexKeyBytes ∨
        keyLen + selectorLen > data'.length then
      throw (.other "invalid checkpoint key length")
    let (entries, rest) ← decodeMapping n (data'.drop (keyLen + selectorLen))
    return ((data'.take keyLen, data'.slice keyLen selectorLen) :: entries, rest)

variable {entries : List (Bytes × Bytes)} {mapping : Bytes}

theorem encodeMapping_eq_ok : encodeMapping entries = .ok mapping ↔
    (∀ e ∈ entries, e.1.length ≤ MaxIndexKeyBytes ∧ e.2.length ≤ MaxIndexKeyBytes) ∧
    entries.length ≤ MaxIndexEntries ∧ mapping = entries.flatMap encodeEntry ∧
    mapping.length ≤ MaxMapBytes := by
  simp only [encodeMapping, Except.check_bind_eq_ok, not_exists, not_and, not_or, not_lt, gt_iff_lt]
  constructor
  case mp =>
    rintro ⟨hk, ⟨hn, hl⟩, he⟩
    cases he
    exact ⟨hk, hn, rfl, hl⟩
  case mpr =>
    rintro ⟨hk, hn, rfl, hl⟩
    exact ⟨hk, ⟨hn, hl⟩, rfl⟩

-- The entries are read back one after the other, if no key is empty.
theorem decodeMapping_flatMap (h : ∀ e ∈ entries, e.1 ≠ [] ∧ e.1.length ≤ MaxIndexKeyBytes ∧
    e.2.length ≤ MaxIndexKeyBytes) (rest : Bytes) :
    decodeMapping entries.length (entries.flatMap encodeEntry ++ rest) = .ok (entries, rest) := by
  induction entries
  case nil => rfl
  case cons e entries hi =>
    have ⟨h₀, hk, hs⟩ := h e (.head _)
    have hi := hi fun e he => h e (.tail _ he)
    have hnum (n : Nat) (hn : n ≤ MaxIndexKeyBytes) : Bytes.ofBE (Bytes.be 4 n) = n := by
      rw [Bytes.ofBE_be, Nat.mod_eq_of_lt (hn.trans_lt (by decide))]
    generalize hr : entries.flatMap encodeEntry ++ rest = data at hi
    have hd : (e :: entries).flatMap encodeEntry ++ rest =
        Bytes.be 4 e.1.length ++ (Bytes.be 4 e.2.length ++ (e.1 ++ (e.2 ++ data))) := by
      simp [encodeEntry, ← hr]
    have h₁ : Bytes.slice (Bytes.be 4 e.1.length ++ (Bytes.be 4 e.2.length ++ (e.1 ++ (e.2 ++ data)))) 0 4 =
        Bytes.be 4 e.1.length := by simp [Bytes.slice]
    have h₂ : Bytes.slice (Bytes.be 4 e.1.length ++ (Bytes.be 4 e.2.length ++ (e.1 ++ (e.2 ++ data)))) 4 4 =
        Bytes.be 4 e.2.length := by simp [Bytes.slice]
    have h₃ : (Bytes.be 4 e.1.length ++ (Bytes.be 4 e.2.length ++ (e.1 ++ (e.2 ++ data)))).drop 8 =
        e.1 ++ (e.2 ++ data) := by
      rw [← List.append_assoc]
      exact List.drop_left' (by simp)
    have h₄ : (e.1 ++ (e.2 ++ data)).drop (e.1.length + e.2.length) = data := by
      rw [← List.append_assoc]
      exact List.drop_left' (by simp)
    have h₅ : Bytes.slice (e.1 ++ (e.2 ++ data)) e.1.length e.2.length = e.2 := by simp [Bytes.slice]
    rw [List.length_cons, decodeMapping, hd, h₁, h₂, h₃, hnum _ hk, hnum _ hs, if_neg, h₄, hi, h₅]
    case hnc =>
      have := List.length_pos_iff.mpr h₀
      simp only [List.length_append, Bytes.length_be]
      omega
    simp [bind, Except.bind, pure, Except.pure]

end Mapping

section Checkpoint

variable (H : Hash) (g : Geometry)

-- A checkpoint that is not clean has no directory.
def encodeCheckpoint (v : Volume) (session : BitVec 128) (clean : Bool) : Except Err Bytes := do
  let dirs := if clean then v.dirMgr.marshalBinary else []
  let entries := if clean then v.index.snapshot else []
  let mapping ← encodeMapping entries
  let header : CheckpointHeader :=
    { magic    := checkpointMagic
      version  := checkpointVersion
      clean    := if clean then 1 else 0
      skip     := .ofNat g.skip
      length   := .ofNat g.len
      start    := .ofNat g.start
      writePos := .ofNat v.writePos
      phase    := if v.phase then 1 else 0
      dirBytes := .ofNat dirs.length
      entries  := .ofNat entries.length
      mapBytes := .ofNat mapping.length
      session }
  let checksum := .ofBitVec (H.crc32 (header.marshal ++ dirs ++ mapping))
  return { header with checksum }.marshal ++ dirs ++ mapping

-- The bytes that `markSession` writes in front of a stripe.
def markerOf (session : BitVec 128) : Bytes :=
  .be 4 StripeHeaderMagic ++ .be 4 StripeHeaderVer ++ .be 16 session.toNat

end Checkpoint
end Bakemono
