import Bakemono.Ram.Entry

namespace Bakemono

def maxRAMKeyBytes : Nat := 64 * 1024

inductive FifoSegment
  | small
  | main
  | ghost
  deriving DecidableEq, Repr

structure FifoEntry where
  key     : Bytes := []
  value   : Option RamEntry := none
  charge  : Nat := 0
  freq    : Nat := 0
  segment : FifoSegment := .small

-- What must not happen: an unsigned sum or difference that wraps around, an access through a nil
-- pointer, or a loop that does not end.
inductive Fault
  | wrap
  | nil
  | fuel
  deriving DecidableEq, Repr

-- Entries are known by their address on the heap. `bytes` stands for `smallBytes`, `mainBytes` and
-- `ghostBytes`. The counters of the statistics are left out.
structure S3FIFO where
  capacity      : Nat
  entryLimit    : Nat
  bytes         : FifoSegment → Nat := fun _ => 0
  payloadBytes  : Nat := 0
  ghostMetadata : Nat := 0
  entries       : Bytes → Option Nat := fun _ => none
  queues        : FifoSegment → List Nat := fun _ => []
  heap          : Nat → FifoEntry := fun _ => {}
  next          : Nat := 0

namespace S3FIFO

def new (capacity : Nat) : S3FIFO where
  capacity   := capacity
  entryLimit := min capacity 65536

def add (a b : Nat) : Except Fault Nat := if a + b < 2 ^ 64 then .ok (a + b) else .error .wrap
def sub (a b : Nat) : Except Fault Nat := if b ≤ a then .ok (a - b) else .error .wrap

variable (c : S3FIFO)

def modify (p : Nat) (f : FifoEntry → FifoEntry) : S3FIFO :=
  { c with heap := Function.update c.heap p (f (c.heap p)) }

def get (key : Bytes) : Option RamEntry × S3FIFO :=
  match c.entries key with
  | none   => (none, c)
  | some p =>
    if (c.heap p).segment = .ghost then (none, c)
    else ((c.heap p).value, c.modify p fun e => { e with freq := min 3 (e.freq + 1) })

def unlink (p : Nat) : Except Fault S3FIFO := do
  let e := c.heap p
  let bytes ← sub (c.bytes e.segment) e.charge
  let c := { c with
    queues  := Function.update c.queues e.segment ((c.queues e.segment).erase p)
    bytes   := Function.update c.bytes e.segment bytes
    entries := Function.update c.entries e.key none }
  match e.segment with
  | .ghost => return { c with ghostMetadata := ← sub c.ghostMetadata (128 + e.key.length) }
  | _      =>
    let some v := e.value | throw .nil
    return { c with payloadBytes := ← sub c.payloadBytes v.data.length }

def append (p : Nat) (segment : FifoSegment) : Except Fault S3FIFO := do
  let e := c.heap p
  let bytes ← add (c.bytes segment) e.charge
  let c := { c with
    heap    := Function.update c.heap p { e with segment }
    queues  := Function.update c.queues segment (c.queues segment ++ [p])
    bytes   := Function.update c.bytes segment bytes
    entries := Function.update c.entries e.key (some p) }
  match segment with
  | .ghost => return { c with ghostMetadata := ← add c.ghostMetadata (128 + e.key.length) }
  | _      =>
    let some v := e.value | throw .nil
    return { c with payloadBytes := ← add c.payloadBytes v.data.length }

def ghostOver : Bool :=
  c.bytes .ghost > c.capacity ∨ c.ghostMetadata > max 128 (c.capacity / 10) ∨
  (c.queues .ghost).length > c.entryLimit

def trimGhost : (fuel : Nat) → S3FIFO → Except Fault S3FIFO
  | 0,        _ => throw .fuel
  | fuel + 1, c =>
    if c.ghostOver then
      match c.queues .ghost with
      | []     => throw .nil
      | p :: _ => do trimGhost fuel (← c.unlink p)
    else
      return c

-- The first entry of the main queue loses one of its uses and goes to the end of the queue.
def rotate (p : Nat) (rest : List Nat) : S3FIFO :=
  { c with
    heap   := Function.update c.heap p { c.heap p with freq := (c.heap p).freq - 1 }
    queues := Function.update c.queues .main (rest ++ [p]) }

-- The loop over the main queue. It returns true if it has evicted an entry.
def evictMain : (fuel : Nat) → S3FIFO → Except Fault (Bool × S3FIFO)
  | 0,        _ => throw .fuel
  | fuel + 1, c =>
    match c.queues .main with
    | []        => return (false, c)
    | p :: rest =>
      if (c.heap p).freq > 0 then
        evictMain fuel (c.rotate p rest)
      else
        return (true, ← c.unlink p)

-- An entry of the small queue that has been used goes to the main queue. Of others only the key is
-- remembered.
def promote (e : FifoEntry) : FifoEntry := { e with freq := 0 }
def demote (e : FifoEntry) : FifoEntry := { e with value := none, freq := 0 }

-- The loop over the small queue.
def evictSmall : (fuel : Nat) → S3FIFO → Except Fault S3FIFO
  | 0,        _ => throw .fuel
  | fuel + 1, c =>
    match c.queues .small with
    | []     => return c
    | p :: _ => do
      let c ← c.unlink p
      if (c.heap p).freq ≥ 2 then
        let c ← (c.modify p promote).append p .main
        evictSmall fuel c
      else
        let c ← (c.modify p demote).append p .ghost
        trimGhost ((c.queues .ghost).length + 1) c

-- Each iteration over the main queue either lowers the frequency of an entry or is the last one.
def mainFuel : Nat := ((c.queues .main).map fun p => (c.heap p).freq).sum + 1

def evict : Except Fault S3FIFO := do
  let (done, c) ←
    if c.bytes .main > c.capacity * 9 / 10 ∨ (c.queues .small).length = 0 then
      evictMain c.mainFuel c
    else
      pure (false, c)
  if done then return c
  evictSmall ((c.queues .small).length + 1) c

-- The two loops of `put`. An entry is evicted twice at most, once from each resident queue.
def evictWhile (full : S3FIFO → Bool) : (fuel : Nat) → S3FIFO → Except Fault S3FIFO
  | 0,        _ => throw .fuel
  | fuel + 1, c => do if full c then evictWhile full fuel (← c.evict) else return c

def roomFuel : Nat := 2 * (c.queues .small).length + (c.queues .main).length + 1

def overweight : Bool := c.bytes .small + c.bytes .main > c.capacity

def crowded (charge : Nat) : Bool :=
  c.bytes .small + c.bytes .main + charge > c.capacity ∨
  (c.queues .small).length + (c.queues .main).length ≥ c.entryLimit

-- The new entry of `put`, before it is appended.
def allocate (key : Bytes) (value : RamEntry) : S3FIFO :=
  { c with
    heap := Function.update c.heap c.next { key, value, charge := value.weight }
    next := c.next + 1 }

-- The part of `put` for a key that is not resident.
def insert (key : Bytes) (value : RamEntry) (segment : FifoSegment) : Except Fault S3FIFO := do
  let c ← evictWhile (·.crowded value.weight) c.roomFuel c
  (c.allocate key value).append c.next segment

-- A resident entry gets a new value and stays where it is.
def replace (p : Nat) (value : RamEntry) (payloadBytes bytes : Nat) : S3FIFO :=
  let old := c.heap p
  { c with
    payloadBytes
    bytes := Function.update c.bytes old.segment bytes
    heap  := Function.update c.heap p
      { old with value, charge := value.weight, freq := min 3 (old.freq + 1) } }

def put (key : Bytes) (value : RamEntry) : Except Fault S3FIFO := do
  match c.entries key with
  | none   => c.insert key value .small
  | some p =>
    let old := c.heap p
    if old.segment = .ghost then
      (← c.unlink p).insert key value .main
    else
      let some v := old.value | throw .nil
      let payloadBytes ← add (← sub c.payloadBytes v.data.length) value.data.length
      let bytes ← add (← sub (c.bytes old.segment) old.charge) value.weight
      let c := c.replace p value payloadBytes bytes
      evictWhile overweight c.roomFuel c

def delete (key : Bytes) : Except Fault S3FIFO :=
  match c.entries key with
  | none   => .ok c
  | some p => c.unlink p

-- The operations of `RamCache` with this policy.
inductive Op
  | put (key value : Bytes)
  | get (key : Bytes)
  | delete (key : Bytes)

def Op.exec (c : S3FIFO) : Op → Except Fault S3FIFO
  | .put key value =>
    if c.capacity = 0 ∨ value.length > c.capacity ∨ value.length > 2 ^ 32 - 1 ∨
        key.length > maxRAMKeyBytes then
      c.delete key
    else
      let entry := RamEntry.new value
      if entry.weight > c.capacity then c.delete key else c.put key entry
  | .get key    => .ok (c.get key).2
  | .delete key => c.delete key

def run (c : S3FIFO) (ops : List Op) : Except Fault S3FIFO := ops.foldlM Op.exec c

end S3FIFO
end Bakemono
