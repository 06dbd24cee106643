import Bakemono.Lib.Text

namespace Bakemono

-- The hash functions of the standard library. Nothing below depends on what they compute.
structure Hash where
  md5    : Bytes → BitVec 128
  sha256 : Bytes → BitVec 256
  crc32  : Bytes → BitVec 32

-- A hash for examples, which has few collisions.
def sampleHash : Hash where
  md5 _    := 0
  sha256 p := .ofNat 256 (((p.headD 0).toNat + 1) <<< 128)
  crc32 _  := 0

abbrev Ident := BitVec 128

namespace Hash

variable (H : Hash)

-- The first 16 bytes of the digest.
def docKey (key : Bytes) : Ident := (H.sha256 key).extractLsb' 128 128

def fragmentKey (firstKey : Bytes) (idx : Nat) : Bytes :=
  if idx = 0 then firstKey else .be 16 (H.md5 (firstKey ++ .be 8 idx)).toNat

-- The digest as it is printed.
def sha256Hex (l : Bytes) : Bytes := .hex (.be 32 (H.sha256 l).toNat)

-- The slot of `policyEpoch` is made of the first byte of the digest and two bits of the second one.
def policySlot (selector : Bytes) : Fin 1024 :=
  let digest := H.sha256 selector
  (digest.extractLsb' 248 8 ++ digest.extractLsb' 240 2).toFin

end Hash

-- The place of a key in the directory.
structure Position where
  segment : Nat
  bucket  : Nat
  tag     : BitVec 16
  deriving DecidableEq, Repr

def Hash.calcDirHashPosition (H : Hash) (key : Bytes) (segmentsNum bucketsNumPerSegment : Nat) :
    Position :=
  let keyInt64 := ((H.md5 key).extractLsb' 64 64).toNat
  { segment := (keyInt64 >>> 32) % segmentsNum
    bucket  := (keyInt64 &&& 0xffffffff) % bucketsNumPerSegment
    tag     := .ofNat 16 (keyInt64 >>> 52) }

theorem Hash.tag_lt (H : Hash) (key : Bytes) (m n : Nat) :
    (H.calcDirHashPosition key m n).tag.toNat < 2 ^ 12 := by
  have h := ((H.md5 key).extractLsb' 64 64).isLt
  simp only [calcDirHashPosition, BitVec.toNat_ofNat, Nat.shiftRight_eq_div_pow]
  omega

end Bakemono
