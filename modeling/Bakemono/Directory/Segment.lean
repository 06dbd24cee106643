import Bakemono.Dir
import Bakemono.Hash

namespace Bakemono

-- The run-time panics of the directory code. `fuel` marks a walk that did not end.
inductive Panic
  | index
  | dirNotEmpty
  | freeChainPop
  | approxSize
  | fuel
  deriving DecidableEq, Repr

-- One entry of `DirManager.Dirs` together with the one of `DirManager.identities` at its index.
structure Slot where
  dir      : Dir := {}
  identity : Ident := 0
  deriving DecidableEq, Repr

-- The slice of the directory that `getSegmentDirs` returns, with its start of the free chain.
@[ext]
structure Segment where
  slots     : List Slot
  freeStart : BitVec 16
  deriving DecidableEq, Repr

namespace Segment

def length (s : Segment) : Nat := s.slots.length
def buckets (s : Segment) : Nat := s.length / DirDepth
def slotAt (s : Segment) (i : Nat) : Slot := s.slots.getD i {}
def dirAt (s : Segment) (i : Nat) : Dir := (s.slotAt i).dir
def next (s : Segment) (i : Nat) : Nat := (s.dirAt i).next.toNat
def prev (s : Segment) (i : Nat) : Nat := (s.dirAt i).prev.toNat
def dirs (s : Segment) : List Dir := s.slots.map Slot.dir

def update (s : Segment) (i : Nat) (f : Slot → Slot) : Segment :=
  { s with slots := s.slots.modify i f }

-- Reading and writing a slot panics outside of the slice.
def get (s : Segment) (i : Nat) : Except Panic Dir :=
  if i < s.length then .ok (s.dirAt i) else .error .index

def modifySlot (s : Segment) (i : Nat) (f : Slot → Slot) : Except Panic Segment :=
  if i < s.length then .ok (s.update i f) else .error .index

def modify (s : Segment) (i : Nat) (f : Dir → Dir) : Except Panic Segment :=
  s.modifySlot i fun x => { x with dir := f x.dir }

-- The indices of the entries that are not the head of a bucket, in the order of the nested loops
-- over the buckets and their depth.
def nonHeads (s : Segment) : List Nat :=
  (List.range s.buckets).flatMap fun b => (List.range' 1 (DirDepth - 1)).map (b * DirDepth + ·)

-- `InitEmptyDirs` for a segment: `linkEmptyDirs` links all non-heads of the empty entries in both
-- directions. The first of them has no predecessor and the last one no successor.
def emptyDir (buckets i : Nat) : Dir :=
  if i % DirDepth = 0 then
    {}
  else
    let last := i + 1 = buckets * DirDepth
    let next := if last then 0 else if i % DirDepth = DirDepth - 1 then i + 2 else i + 1
    let prev := if i = 1 then 0 else if i % DirDepth = 1 then i - 2 else i - 1
    (Dir.setNext {} (.ofNat 16 next)).setPrev (.ofNat 16 prev)

def empty (buckets : Nat) : Segment where
  slots     := (List.range (buckets * DirDepth)).map fun i => { dir := emptyDir buckets i }
  freeStart := 1

def freeChainDelete (s : Segment) (i : Nat) : Except Panic Segment := do
  let d ← s.get i
  if d.offset ≠ 0 then throw .dirNotEmpty
  let prev := d.prev
  let s ← if prev = 0 then pure { s with freeStart := d.next } else s.modify prev.toNat (·.setNext d.next)
  let next := (← s.get i).next
  if next ≠ 0 then s.modify next.toNat (·.setPrev prev) else return s

-- The empty free chain starts at 0, which is the head slot of the first bucket.
def freeChainSet (s : Segment) (i : Nat) : Except Panic Segment := do
  if (← s.get i).offset ≠ 0 then throw .dirNotEmpty
  let index := s.freeStart
  let s ← s.modify index.toNat (·.setPrev (.ofNat 16 i))
  let s ← s.modify i (·.setNext index)
  return { s with freeStart := .ofNat 16 i }

structure Probe where
  hit   : Bool := false
  index : Nat := 0
  prev  : Nat := 0
  dir   : Dir := {}
  deriving DecidableEq, Repr

-- The first argument is the number of iterations that the counter of the loop still allows.
def probe (s : Segment) (tag : BitVec 16) : Nat → (index prev : Nat) → Probe
  | 0,     _,     _    => {}
  | n + 1, index, prev =>
    if index ≥ s.length then
      {}
    else if (s.dirAt index).offset = 0 then
      { index, prev }
    else if (s.dirAt index).tag = tag then
      { hit := true, index, prev, dir := s.dirAt index }
    else if s.next index = 0 then
      { index := 0, prev := index }
    else
      s.probe tag n (s.next index) index

def dirProbe (s : Segment) (tag : BitVec 16) (bucket : Nat) : Probe :=
  s.probe tag s.length (bucket * DirDepth) 0

def freeChainRebuild (s : Segment) : Except Panic (Nat × Segment) :=
  go s.nonHeads { s with freeStart := 0 } 0 0
where
  go : List Nat → Segment → (prev counter : Nat) → Except Panic (Nat × Segment)
    | [], s, _, counter => return (counter, s)
    | i :: l, s, prev, counter => do
      if (← s.get i).offset = 0 then
        let s := if s.freeStart = 0 then { s with freeStart := .ofNat 16 i } else s
        let s ← s.modify i (·.clear.setPrev (.ofNat 16 prev))
        let s ← if prev ≠ 0 then s.modify prev (·.setNext (.ofNat 16 i)) else pure s
        go l s i (counter + 1)
      else
        go l s prev counter

def purgeBucket (s : Segment) : (fuel index : Nat) → Except Panic Segment
  | 0,     _     => throw .fuel
  | n + 1, index => do
    let next := (← s.get index).next.toNat
    let s ← s.modify index Dir.clear
    if next = 0 then return s else s.purgeBucket n next

-- Purging clears whole buckets, but not the identities of their slots.
def purgeBuckets (s : Segment) (skip : Nat → Bool) : Except Panic Segment := do
  let s ← List.foldlM purge s (List.range s.buckets)
  return (← s.freeChainRebuild).2
where
  purge (s : Segment) (i : Nat) : Except Panic Segment :=
    if skip i then pure s else s.purgeBucket (s.length + 1) (i * DirDepth)

instance neZero_ten : NeZero 10 := ⟨by decide⟩

def purgeRandom10 (s : Segment) (whiteList : Nat) (randomIndex : Fin 10) : Except Panic Segment :=
  s.purgeBuckets fun i => (s.buckets > 10 && i % 10 ≠ randomIndex) || i = whiteList

def purgeRandom100 (s : Segment) (whiteList : Nat) : Except Panic Segment :=
  s.purgeBuckets fun i => i = whiteList

-- `rand` gives the results of the calls to `rand.Intn`, by the number of the iteration. The first
-- argument of `findFreeDir` bounds the iterations; the counter `loop` panics before it is used up.
def findFreeDir (whiteList : Nat) (rand : Nat → Fin 10) :
    (fuel loop : Nat) → Segment → Except Panic (Nat × Segment)
  | 0,     _,    _ => throw .fuel
  | n + 1, loop, s => do
    let loop := loop + 1
    let s ← purge loop s
    if loop > 50 then throw .freeChainPop
    if s.freeStart = 0 then
      let (foundFreeDir, s) ← s.freeChainRebuild
      if foundFreeDir = 0 then
        findFreeDir whiteList rand n loop (← s.purgeRandom10 whiteList (rand loop))
      else
        pop s
    else
      pop s
where
  purge (loop : Nat) (s : Segment) : Except Panic Segment :=
    if loop > 49 then s.purgeRandom100 whiteList else pure s
  pop (s : Segment) : Except Panic (Nat × Segment) := do
    let index := s.freeStart.toNat
    return (index, ← s.freeChainDelete index)

def freeChainPop (s : Segment) (whiteList : Nat) (rand : Nat → Fin 10) :
    Except Panic (Nat × Segment) :=
  findFreeDir whiteList rand 51 0 s

def getFreeDir (s : Segment) (bucket : Nat) (rand : Nat → Fin 10) :
    Except Panic (Nat × Segment) := do
  let index := bucket * DirDepth
  if (← s.get index).offset = 0 then return (index, s)
  match (List.range' 1 (DirDepth - 1)).find? fun i => (s.dirAt (index + i)).offset = 0 with
  | some i => return (index + i, ← s.freeChainDelete (index + i))
  | none   => s.freeChainPop bucket rand

def lastDirOfBucket (s : Segment) : (fuel index : Nat) → Except Panic Nat
  | 0,     _     => throw .fuel
  | n + 1, index => do
    let next := (← s.get index).next.toNat
    if next ≠ 0 then s.lastDirOfBucket n next else return index

def dirInsert (s : Segment) (tag : BitVec 16) (bucket : Nat) (dir : Dir) (rand : Nat → Fin 10) :
    Except Panic (Nat × Segment) := do
  let p := s.dirProbe tag bucket
  if p.hit then
    let next := (← s.get p.index).next
    return (p.index, ← s.modify p.index fun _ => dir.setNext next)
  let (free, s) ← s.getFreeDir bucket rand
  let s ← s.modify free fun _ => dir
  if free = bucket * DirDepth then return (free, s)
  let last ← s.lastDirOfBucket (s.length + 1) (bucket * DirDepth)
  return (free, ← s.modify last (·.setNext (.ofNat 16 free)))

-- Deleting the head of a bucket moves the second entry of its chain to the head, together with the
-- identity.
def dirDelete (s : Segment) (tag : BitVec 16) (bucket : Nat) : Except Panic (Nat × Segment) := do
  let p := s.dirProbe tag bucket
  if !p.hit then return (p.index, s)
  let s ← s.modifySlot p.index ({ · with identity := 0 })
  if p.index = bucket * DirDepth then
    let next := (← s.get p.index).next.toNat
    if next ≠ 0 then
      let _ ← s.get next
      let moved := s.slotAt next
      let s ← s.modifySlot p.index fun _ => moved
      let s ← s.modifySlot next fun _ => {}
      return (p.index, ← s.freeChainSet next)
    else
      return (p.index, ← s.modify p.index Dir.clear)
  let next := (← s.get p.index).next
  let s ← s.modify p.prev (·.setNext next)
  let s ← s.modify p.index Dir.clear
  return (p.index, ← s.freeChainSet p.index)

def removePhaseFrom (phase : Bool) (bucket : Nat) :
    (fuel index : Nat) → Segment → Except Panic Segment
  | 0,     _,     _ => throw .fuel
  | n + 1, index, s => do
    let d ← s.get index
    if d.offset = 0 then
      return s
    else if d.phase = phase then
      removePhaseFrom phase bucket n (bucket * DirDepth) (← s.dirDelete d.tag bucket).2
    else if d.next = 0 then
      return s
    else
      removePhaseFrom phase bucket n d.next.toNat s

def removePhase (s : Segment) (phase : Bool) : Except Panic Segment :=
  List.foldlM remove s (List.range s.buckets)
where
  remove (s : Segment) (bucket : Nat) : Except Panic Segment :=
    removePhaseFrom phase bucket ((s.length + 1) * (s.length + 1)) (bucket * DirDepth) s

end Segment

-- `seen` lists the entries that the walks of `validateDirectory` have marked. A walk marks each entry
-- once, so that it ends within one iteration more than there are entries.
def validateChain (dirs : List Dir) (bucket : Nat) :
    (fuel i : Nat) → (seen : List Nat) → Except String (List Nat)
  | 0,     _, _    => throw "invalid directory chain"
  | n + 1, i, seen => do
    let d := dirs.getD i {}
    if i ≥ dirs.length ∨ i ∈ seen ∨ (i ≠ bucket ∧ i % DirDepth = 0) ∨ d.offset = 0 then
      throw "invalid directory chain"
    if d.next = 0 then
      return i :: seen
    else
      validateChain dirs bucket n d.next.toNat (i :: seen)

def validateBucket (dirs : List Dir) (seen : List Nat) (bucket : Nat) : Except String (List Nat) := do
  let d := dirs.getD bucket {}
  if d.offset = 0 then
    if d.next ≠ 0 then throw "empty directory bucket has chain"
    return seen
  validateChain dirs bucket (dirs.length + 1) bucket seen

def validateFree (dirs : List Dir) :
    (fuel : Nat) → (free prev : BitVec 16) → (seen : List Nat) → Except String (List Nat)
  | 0,     _,    _,    _    => throw "invalid directory free chain"
  | n + 1, free, prev, seen => do
    if free = 0 then return seen
    let i := free.toNat
    let d := dirs.getD i {}
    if i ≥ dirs.length ∨ i ∈ seen ∨ i % DirDepth = 0 ∨ d.offset ≠ 0 ∨ d.prev ≠ prev then
      throw "invalid directory free chain"
    validateFree dirs n d.next free (i :: seen)

def validateDirectory (dirs : List Dir) (free : BitVec 16) : Except String Unit := do
  let seen ← List.foldlM (validateBucket dirs) [] <|
    (List.range ((dirs.length + DirDepth - 1) / DirDepth)).map (· * DirDepth)
  let seen ← validateFree dirs (dirs.length + 1) free 0 seen
  if ∃ i < dirs.length, i ∉ seen ∧ (i % DirDepth ≠ 0 ∨ (dirs.getD i {}).offset ≠ 0) then
    throw "unreachable directory entry"

end Bakemono
