import Bakemono.Error
import Bakemono.Hash
import Bakemono.Lib.Except
import Bakemono.Ring.State

namespace Bakemono

-- The slice `p[lo:hi]` of the source.
def slice (p : Bytes) (lo hi : Nat) : Except Err Bytes :=
  if lo ≤ hi ∧ hi ≤ p.length then .ok (p.slice lo (hi - lo)) else .error .panic

def DocMagic : UInt32 := 0x5F129B13
def DocHeaderSize : Nat := 72
def docIdentityVersion : UInt8 := 3

-- The header of a fragment on the disk. It is followed by `hlen` bytes of metadata and by the data.
structure Doc where
  magic       : UInt32 := 0
  len         : UInt32 := 0
  totalLen    : UInt64 := 0
  firstKey    : Ident  := 0
  key         : Ident  := 0
  hlen        : UInt32 := 0
  docType     : UInt8  := 0
  vmajor      : UInt8  := 0
  vminor      : UInt8  := 0
  unused      : UInt8  := 0
  syncSerial  : UInt32 := 0
  writeSerial : UInt32 := 0
  pinned      : UInt32 := 0
  checksum    : UInt32 := 0
  deriving DecidableEq, Repr

namespace Doc

def fields (d : Doc) : List (Nat × Nat) :=
  [(4, d.magic.toNat), (4, d.len.toNat), (8, d.totalLen.toNat), (16, d.firstKey.toNat),
   (16, d.key.toNat), (4, d.hlen.toNat), (1, d.docType.toNat), (1, d.vmajor.toNat),
   (1, d.vminor.toNat), (1, d.unused.toNat), (4, d.syncSerial.toNat), (4, d.writeSerial.toNat),
   (4, d.pinned.toNat), (4, d.checksum.toNat)]

def marshal (d : Doc) : Bytes := .encode d.fields

def unmarshal (data : Bytes) : Doc :=
  let field := (Bytes.decode [4, 4, 8, 16, 16, 4, 1, 1, 1, 1, 4, 4, 4, 4] data).getD
  { magic       := .ofNat (field 0 0)
    len         := .ofNat (field 1 0)
    totalLen    := .ofNat (field 2 0)
    firstKey    := .ofNat 128 (field 3 0)
    key         := .ofNat 128 (field 4 0)
    hlen        := .ofNat (field 5 0)
    docType     := .ofNat (field 6 0)
    vmajor      := .ofNat (field 7 0)
    vminor      := .ofNat (field 8 0)
    unused      := .ofNat (field 9 0)
    syncSerial  := .ofNat (field 10 0)
    writeSerial := .ofNat (field 11 0)
    pinned      := .ofNat (field 12 0)
    checksum    := .ofNat (field 13 0) }

def dataLen (d : Doc) : UInt32 := d.len - 72 - d.hlen

-- The writer version is spread over two fields.
def version (d : Doc) : UInt64 := d.syncSerial.toUInt64 <<< 32 ||| d.writeSerial.toUInt64

variable (H : Hash)

def calculateChecksum (d : Doc) (data : Bytes) : UInt32 :=
  if d.len.toNat < DocHeaderSize ∨ data.length < d.len.toNat - DocHeaderSize then
    0
  else
    let header := { d with checksum := 0 }
    .ofBitVec <| H.crc32 (header.marshal ++ data.take (d.len.toNat - DocHeaderSize))

def validate (d : Doc) (data : Bytes) : Except Err Unit := do
  if d.magic ≠ DocMagic ∨ d.vmajor ≠ docIdentityVersion ∨ d.vminor ≠ 0 ∨ d.unused ≠ 0 then
    throw (.other "unsupported cache document")
  if d.len.toNat < DocHeaderSize ∨ d.len.toNat > AggBufferSize ∨ d.len.toNat > data.length ∨
      d.hlen > d.len - 72 ∨ d.dataLen.toNat > TargetFragmentSize then
    throw (.other "invalid cache fragment length")
  let body ← slice data DocHeaderSize data.length
  if d.checksum ≠ d.calculateChecksum H body then
    throw (.other "cache document checksum mismatch")

variable {H}

theorem dataLen_toNat {d : Doc} (h : d.hlen.toNat + DocHeaderSize ≤ d.len.toNat) :
    d.dataLen.toNat = d.len.toNat - DocHeaderSize - d.hlen.toNat := by
  simp only [DocHeaderSize] at h
  have h₁ : (72 : UInt32) ≤ d.len := by
    rw [UInt32.le_iff_toNat_le]
    show 72 ≤ _
    omega
  have h₂ : (d.len - 72).toNat = d.len.toNat - 72 := UInt32.toNat_sub_of_le _ _ h₁
  have h₃ : d.hlen ≤ d.len - 72 := by
    rw [UInt32.le_iff_toNat_le]
    omega
  rw [dataLen, UInt32.toNat_sub_of_le _ _ h₃, h₂, DocHeaderSize]

-- The lengths of a valid document fit into each other and into the buffer.
structure Fits (d : Doc) (size : Nat) : Prop where
  max  : d.len.toNat ≤ AggBufferSize
  size : d.len.toNat ≤ size
  hlen : d.hlen.toNat + DocHeaderSize ≤ d.len.toNat
  data : d.dataLen.toNat ≤ TargetFragmentSize

def Supported (d : Doc) : Prop :=
  d.magic = DocMagic ∧ d.vmajor = docIdentityVersion ∧ d.vminor = 0 ∧ d.unused = 0

theorem fits_iff {d : Doc} {size : Nat} : d.Fits size ↔
    ¬(d.len.toNat < DocHeaderSize ∨ d.len.toNat > AggBufferSize ∨ d.len.toNat > size ∨
      d.hlen > d.len - 72 ∨ d.dataLen.toNat > TargetFragmentSize) := by
  -- The difference of the lengths does not wrap around.
  have hc (h : DocHeaderSize ≤ d.len.toNat) : (d.len - 72).toNat = d.len.toNat - DocHeaderSize :=
    UInt32.toNat_sub_of_le _ _ (UInt32.le_iff_toNat_le.mpr h)
  have hl : d.hlen > d.len - 72 ↔ (d.len - 72).toNat < d.hlen.toNat := UInt32.lt_iff_toNat_lt
  rw [hl]
  constructor
  case mp =>
    intro ⟨h₁, h₂, h₃, h₄⟩
    have := hc (by omega)
    omega
  case mpr =>
    intro h
    push Not at h
    have := hc (by omega)
    constructor <;> omega

theorem validate_eq_ok {d : Doc} {data : Bytes} : d.validate H data = .ok () ↔
    d.Supported ∧ d.Fits data.length ∧
    d.checksum = d.calculateChecksum H (data.drop DocHeaderSize) := by
  have hs : d.Supported ↔
      ¬(d.magic ≠ DocMagic ∨ d.vmajor ≠ docIdentityVersion ∨ d.vminor ≠ 0 ∨ d.unused ≠ 0) := by
    simp [Supported]
  simp only [validate, Except.check_bind_eq_ok, ← hs, ← fits_iff]
  refine and_congr_right fun _ => and_congr_right fun hf => ?_
  have := hf.size
  have := hf.hlen
  have hb : slice data DocHeaderSize data.length = .ok (data.drop DocHeaderSize) := by
    simp [slice, Bytes.slice, show DocHeaderSize ≤ data.length by omega]
  simp [hb, Except.bind_eq_ok, pure, Except.pure]

theorem length_marshal (d : Doc) : d.marshal.length = DocHeaderSize := by
  simp [marshal, fields, DocHeaderSize]

theorem unmarshal_marshal (d : Doc) (l : Bytes) : unmarshal (d.marshal ++ l) = d := by
  have h := Bytes.decode_encode d.fields l
  have hw : d.fields.map Prod.fst = [4, 4, 8, 16, 16, 4, 1, 1, 1, 1, 4, 4, 4, 4] := rfl
  rw [hw] at h
  have hk (x : Ident) : BitVec.ofNat 128 (x.toNat % 256 ^ 16) = x := by
    have : x.toNat < 256 ^ 16 := x.isLt
    rw [Nat.mod_eq_of_lt this]
    simp
  cases d
  simp only [unmarshal, marshal, h]
  simpa [fields] using ⟨hk _, hk _⟩

end Doc
end Bakemono
