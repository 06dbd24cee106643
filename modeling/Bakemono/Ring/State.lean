import Bakemono.Directory.Manager
import Bakemono.Directory.Table
import Bakemono.Lib.File
import Bakemono.Lib.Run

namespace Bakemono

def AggBufferSize : Nat := 4 * 1024 * 1024
def StripeHeaderSize : Nat := 24

def sectors (size : Nat) : Nat := (size + SectorSize - 1) / SectorSize * SectorSize

-- The bytes of a stripe in front of its data area.
def metaSize (len : Nat) : Nat :=
  sectors (StripeHeaderSize + (DirManager.init (len / 8192)).binarySize)

-- The place the aggregate buffer gives to an addition.
structure Allocation where
  offset     : Nat
  generation : Nat
  sequence   : Nat
  deriving DecidableEq, Repr

structure Record where
  allocation : Allocation
  data       : Bytes
  deriving DecidableEq

namespace Record

def offset (r : Record) : Nat := r.allocation.offset
def generation (r : Record) : Nat := r.allocation.generation
def stop (r : Record) : Nat := r.offset + r.data.length

end Record

-- A flush task is a run of additions, each given by its sequence number and its bytes.
structure FlushTask where
  offset     : Nat
  generation : Nat
  additions  : List (Nat × Bytes)

namespace FlushTask

def buffer (t : FlushTask) : Bytes := t.additions.flatMap Prod.snd

def stop (t : FlushTask) : Nat := t.offset + t.buffer.length

def records (t : FlushTask) : List Record := place t.offset t.additions
where
  place (offset : Nat) : List (Nat × Bytes) → List Record
    | []          => []
    | (q, p) :: l => ⟨⟨offset, t.generation, q⟩, p⟩ :: place (offset + p.length) l

-- What the aggregate buffer promises about the task after a write that ended at `writePos`:
-- generations grow by at most one, and the offsets ascend within a generation.
structure Follows (t : FlushTask) (generation writePos : Nat) : Prop where
  order    : t.generation = generation ∧ writePos ≤ t.offset ∨ t.generation = generation + 1
  nonempty : t.additions ≠ []
  sizes    : ∀ a ∈ t.additions, 0 < a.2.length ∧ a.2.length ≤ AggBufferSize

end FlushTask

-- The phase bit of a generation.
def odd (generation : Nat) : Bool := generation % 2 != 0

-- What a stripe knows about its ring. The task which is being written and the records of the
-- acknowledged tasks are not fields of the source: the former is a variable of `handleFlushTask`,
-- the latter are held by their publishers. An entry is marked with the record it stands for and
-- with what its publisher knows about it.
structure Ring (κ μ : Type) where
  start             : Nat
  stop              : Nat
  writePos          : Nat
  generation        : Nat
  phase             : Bool
  writingStart      : Nat := 0
  writingEnd        : Nat := 0
  writingGeneration : Nat := 0
  storageErr        : Bool := false
  closed            : Bool := false
  disk              : File
  dirs              : Table κ (Record × μ)
  task              : Option FlushTask := none
  flushed           : List Record

namespace Ring

variable {κ μ : Type}

-- A place is valid if its lap has passed it and the next lap has not reached it yet. The task which
-- is being written counts as part of the next lap.
def allocationValid (s : Ring κ μ) (a : Allocation) (size : Nat) : Bool :=
  if 0 < s.writingEnd ∧ a.generation ≠ s.writingGeneration ∧ a.offset < s.writingEnd ∧
      s.writingStart < a.offset + size then
    false
  else if a.offset < s.start ∨ s.stop < a.offset + size then
    false
  else
    a.generation = s.generation ∧ a.offset + size ≤ s.writePos ∨
    a.generation + 1 = s.generation ∧ s.writePos ≤ a.offset

def dirValid (s : Ring κ μ) (d : Dir) : Bool :=
  if 0 < s.writingEnd ∧ d.phase ≠ odd s.writingGeneration ∧ d.offset < s.writingEnd ∧
      s.writingStart < d.offset + d.approxSize then
    false
  else if s.storageErr ∨ s.closed ∨ d.offset < s.start ∨ s.stop ≤ d.offset then
    false
  else if d.phase = s.phase then
    d.offset < s.writePos
  else
    s.writePos ≤ d.offset

-- `Init` followed by an `Open` which recovers nothing.
def cold (skip len : Nat) (disk : File) : Ring κ μ where
  start      := skip + metaSize len
  stop       := skip + len
  writePos   := skip + metaSize len
  generation := 2
  phase      := false
  disk       := disk
  dirs       := fun _ => none
  flushed    := []

-- The first critical section of `handleFlushTask`.
def beginFlush (s : Ring κ μ) (t : FlushTask) (links : κ → BitVec 16) : Ring κ μ :=
  { s with
    dirs              := if t.generation ≠ s.generation then
                           s.dirs.removePhase (odd t.generation) links
                         else s.dirs
    writingStart      := t.offset
    writingEnd        := t.stop
    writingGeneration := t.generation
    task              := some t }

-- The second critical section after a successful write.
def endFlush (s : Ring κ μ) (t : FlushTask) : Ring κ μ :=
  { s with
    disk         := s.disk.writeAt t.offset t.buffer
    writingStart := 0
    writingEnd   := 0
    writePos     := t.stop
    generation   := t.generation
    phase        := odd t.generation
    task         := none
    flushed      := s.flushed ++ t.records }

-- The second critical section after a failed write, and `failLocked`.
def failFlush (s : Ring κ μ) : Ring κ μ :=
  { s with
    writingStart := 0
    writingEnd   := 0
    storageErr   := true
    task         := none }

def set [DecidableEq κ] (s : Ring κ μ) (k : κ) (d : Dir) (r : Record) (m : μ) (fate : Table.Fate κ) :
    Ring κ μ :=
  { s with dirs := s.dirs.set k ⟨d, r, m⟩ fate }

@[simp] theorem dirs_set_self [DecidableEq κ] (s : Ring κ μ) (k : κ) (d : Dir) (r : Record) (m : μ)
    (fate : Table.Fate κ) : (s.set k d r m fate).dirs k = some ⟨d, r, m⟩ := by
  simp [set]

inductive Event (κ : Type)
  | flush
  | publish (k : κ) (r : Record)
  | remove

inductive Step [DecidableEq κ] (s : Ring κ μ) : Event κ → Ring κ μ → Prop
  | begin (t links) :
    (s.task = none) → (s.storageErr = false) → (s.start ≤ t.offset) → (t.stop ≤ s.stop) →
    (t.Follows s.generation s.writePos) → Step s .flush (s.beginFlush t links)
  -- A task outside of the data area, or one that arrives after a failure, is not written.
  | refuse (t : FlushTask) :
    (s.task = none) → (s.storageErr = true ∨ t.offset < s.start ∨ s.stop < t.stop) →
    Step s .flush s.failFlush
  -- Any part of the interval may have been written already.
  | write (t disk') :
    (s.task = some t) → (s.disk.Agree disk' 0 t.offset) →
    (∀ hi, s.disk.Agree disk' t.stop hi) → Step s .flush { s with disk := disk' }
  | finish (t) : (s.task = some t) → Step s .flush (s.endFlush t)
  | fail (t) : (s.task = some t) → Step s .flush s.failFlush
  -- A checkpoint that could not be saved.
  | broken : Step s .flush { s with storageErr := true }
  -- Except for `evacuate`, the publishers round the size up to whole sectors.
  | publish (k r size tag d next m fate) :
    (r ∈ s.flushed) → (s.storageErr = false) → (s.allocationValid r.allocation r.data.length) →
    (size = r.data.length ∨ size = sectors r.data.length) → (tag.toNat < 2 ^ 12) →
    (Dir.make r.offset size tag (odd r.generation) = some d) →
    Step s (.publish k r) (s.set k (d.setNext next) r m fate)
  -- `Delete`, `deleteAt`, the evictions of a failed `Set`, and whatever else only takes entries away.
  | remove (dirs') : (Table.Below dirs' s.dirs) → Step s .remove { s with dirs := dirs' }
  | close : Step s .remove { s with closed := true }

-- The phase of a generation is used again two generations later. While the first task of a
-- generation is written, entries of that phase have been removed already, but the records of the
-- generation before the current one can still be published.
def Event.Aliases (s : Ring κ μ) : Event κ → Prop
  | .publish _ r =>
    0 < s.writingEnd ∧ s.writingGeneration = s.generation + 1 ∧ r.generation + 1 = s.generation
  | _ => False

end Ring
end Bakemono
