import Bakemono.Directory.Segment

namespace Bakemono

-- The flat arrays `Dirs` and `identities` are kept as the list of their segments.
structure DirManager where
  bucketsNumPerSegment : Nat
  segments             : List Segment
  deriving DecidableEq, Repr

-- The result of `Get`. The offset of a hit is an index of the flat array, otherwise it is an index of
-- the segment.
structure Lookup where
  hit       : Bool
  dirOffset : Nat
  dir       : Dir
  deriving DecidableEq, Repr

namespace DirManager

def segmentsNum (dm : DirManager) : Nat := dm.segments.length
def fragmentsNum (dm : DirManager) : Nat := dm.bucketsNumPerSegment * DirDepth * dm.segmentsNum
def segmentAt (dm : DirManager) (i : Nat) : Segment := dm.segments.getD i ⟨[], 0⟩
def setSegment (dm : DirManager) (i : Nat) (s : Segment) : DirManager :=
  { dm with segments := dm.segments.set i s }

def init (dirNum : Nat) : DirManager :=
  let bucketsNum := dirNum / DirDepth
  let segmentsNum := (bucketsNum + MaxBucketsPerSegment - 1) / MaxBucketsPerSegment
  let bucketsNumPerSegment := (bucketsNum + segmentsNum - 1) / segmentsNum
  { bucketsNumPerSegment, segments := List.replicate segmentsNum (.empty bucketsNumPerSegment) }

variable (H : Hash)

def position (dm : DirManager) (key : Bytes) : Position :=
  H.calcDirHashPosition key dm.segmentsNum dm.bucketsNumPerSegment

def global (dm : DirManager) (segment offset : Nat) : Nat :=
  dm.bucketsNumPerSegment * DirDepth * segment + offset

-- The slot at the index belongs to another key. A slot without an identity may belong to any key.
def foreign (s : Segment) (index : Nat) (key : Bytes) : Bool :=
  (s.slotAt index).identity ≠ 0 ∧ (s.slotAt index).identity ≠ H.docKey key

def get (dm : DirManager) (key : Bytes) : Lookup :=
  let pos := dm.position H key
  let s := dm.segmentAt pos.segment
  let p := s.dirProbe pos.tag pos.bucket
  if p.hit && foreign H s p.index key then
    { hit := false, dirOffset := p.index, dir := {} }
  else
    { hit := p.hit, dirOffset := dm.global pos.segment p.index, dir := p.dir }

def set (dm : DirManager) (key : Bytes) (off size : Nat) (phase : Bool) (rand : Nat → Fin 10) :
    Except Panic (Nat × DirManager) := do
  let pos := dm.position H key
  let some dir := Dir.make off size pos.tag phase | throw .approxSize
  let (offset, s) ← (dm.segmentAt pos.segment).dirInsert pos.tag pos.bucket dir rand
  let s ← s.modifySlot offset ({ · with identity := H.docKey key })
  return (dm.global pos.segment offset, dm.setSegment pos.segment s)

def dirDelete (dm : DirManager) (pos : Position) : Except Panic (Nat × DirManager) := do
  let (offset, s) ← (dm.segmentAt pos.segment).dirDelete pos.tag pos.bucket
  return (offset, dm.setSegment pos.segment s)

def delete (dm : DirManager) (key : Bytes) : Except Panic (Nat × DirManager) := do
  let pos := dm.position H key
  let s := dm.segmentAt pos.segment
  let p := s.dirProbe pos.tag pos.bucket
  if p.hit && foreign H s p.index key then return (0, dm)
  let (offset, dm) ← dm.dirDelete pos
  return (dm.global pos.segment offset, dm)

def deleteAt (dm : DirManager) (key : Bytes) (expected : Int) : Except Panic (Bool × DirManager) := do
  let pos := dm.position H key
  let s := dm.segmentAt pos.segment
  let p := s.dirProbe pos.tag pos.bucket
  if p.hit && foreign H s p.index key then return (false, dm)
  if !p.hit then return (true, dm)
  if p.dir.offset ≠ expected then return (false, dm)
  let (_, dm) ← dm.dirDelete pos
  return (true, dm)

def removePhase (dm : DirManager) (phase : Bool) : Except Panic DirManager := do
  let segments ← dm.segments.mapM (Segment.removePhase · phase)
  return { dm with segments }

end DirManager

-- The fixed little-endian representation of the directory, without the identities.

namespace Dir

def size : Nat := 10

def marshal (d : Dir) : Bytes :=
  [d.raw0, d.raw1, d.raw2, d.raw3, d.raw4].flatMap fun v => Bytes.le 2 v.toNat

def unmarshal (data : Bytes) : Dir :=
  let raw i := .ofNat 16 (Bytes.ofLE (data.slice (2 * i) 2))
  { raw0 := raw 0, raw1 := raw 1, raw2 := raw 2, raw3 := raw 3, raw4 := raw 4 }

end Dir

namespace Segment

def binarySize (buckets : Nat) : Nat := buckets * DirDepth * Dir.size + 2

def marshal (s : Segment) : Bytes :=
  s.dirs.flatMap Dir.marshal ++ .le 2 s.freeStart.toNat

def unmarshal (buckets : Nat) (data : Bytes) : Segment where
  slots     := (List.range (buckets * DirDepth)).map fun j =>
    { dir := .unmarshal (data.slice (Dir.size * j) Dir.size) }
  freeStart := .ofNat 16 (Bytes.ofLE (data.slice (Dir.size * (buckets * DirDepth)) 2))

end Segment

namespace DirManager

def binarySize (dm : DirManager) : Nat :=
  dm.segmentsNum * Segment.binarySize dm.bucketsNumPerSegment

def marshalBinary (dm : DirManager) : Bytes := dm.segments.flatMap Segment.marshal

-- All segments are checked before the first one is replaced.
def unmarshalBinary (dm : DirManager) (data : Bytes) : Except String DirManager := do
  if data.length ≠ dm.binarySize then throw "invalid directory size"
  let segments ← (List.range dm.segmentsNum).mapM segment
  return { dm with segments }
where
  segment (i : Nat) : Except String Segment := do
    let size := Segment.binarySize dm.bucketsNumPerSegment
    let s := Segment.unmarshal dm.bucketsNumPerSegment (data.slice (size * i) size)
    validateDirectory s.dirs s.freeStart
    return s

end DirManager
end Bakemono
