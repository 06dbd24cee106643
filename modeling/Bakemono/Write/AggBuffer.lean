import Bakemono.Error
import Bakemono.Ring.State

namespace Bakemono

def AggHighWaterMark : Nat := AggBufferSize / 2

namespace AggregateWriteBuffer

-- A `FlushTask` of the source. Its bytes are a slice of one of the two buffers, which are numbered by
-- `false` and `true`.
structure Task where
  buffer     : Bool
  length     : Nat
  offset     : Nat
  generation : Nat
  deriving DecidableEq, Repr

end AggregateWriteBuffer

-- No caller of `addContext` passes a writer, so that `pendingWriters` is left out. The channel is not
-- bounded here. The last four fields are not fields of the source: the task the disk worker deals
-- with, the additions that have been made, the tasks that have been sent with the bytes they had then,
-- and the errors with which they have been acknowledged.
structure AggregateWriteBuffer where
  buffers          : Bool → File := fun _ => ⟨AggBufferSize, fun _ => 0⟩
  bufferPos        : Bool → Nat := fun _ => 0
  bufferStart      : Bool → Nat := fun _ => 0
  bufferGeneration : Bool → Nat := fun _ => 0
  bufferSequence   : Bool → Nat := fun _ => 0
  activeIdx        : Bool := false
  writeCursor      : Nat := 0
  generation       : Nat := 0
  sequence         : Nat := 0
  completed        : Nat := 0
  flushChan        : List AggregateWriteBuffer.Task := []
  isFlushing       : Bool := false
  minOffset        : Nat := 0
  maxOffset        : Nat := 0
  err              : Option Err := none
  closed           : Bool := false
  worker           : Option AggregateWriteBuffer.Task := none
  added            : List Record := []
  emitted          : List (AggregateWriteBuffer.Task × Bytes) := []
  acknowledged     : List (Option Err) := []

namespace AggregateWriteBuffer

def initPosition (b : AggregateWriteBuffer) (offset generation : Nat) : AggregateWriteBuffer :=
  { b with
    writeCursor := offset
    minOffset   := if b.maxOffset = 0 then offset else b.minOffset
    generation  := generation }

def setBounds (b : AggregateWriteBuffer) (lo hi : Nat) : AggregateWriteBuffer :=
  { b with
    minOffset   := lo
    maxOffset   := hi
    writeCursor := if b.writeCursor < lo then lo else b.writeCursor }

-- The calls of `Init` and `Open`.
def opened (lo hi pos generation : Nat) : AggregateWriteBuffer :=
  ((initPosition {} lo 0).setBounds lo hi).initPosition pos generation

variable (b : AggregateWriteBuffer)

-- The bytes of a task, as long as it is not acknowledged.
def content (t : Task) : Bytes := (b.buffers t.buffer).read 0 t.length

-- The task that would be made of the active buffer.
def pending : Task where
  buffer     := b.activeIdx
  length     := b.bufferPos b.activeIdx
  offset     := b.bufferStart b.activeIdx
  generation := b.bufferGeneration b.activeIdx

def swapAndFlush : AggregateWriteBuffer :=
  if b.isFlushing ∨ b.bufferPos b.activeIdx = 0 ∨ b.err.isSome then
    b
  else
    { b with
      isFlushing := true
      activeIdx  := !b.activeIdx
      bufferPos  := Function.update b.bufferPos (!b.activeIdx) 0
      flushChan  := b.flushChan ++ [b.pending]
      emitted    := b.emitted ++ [(b.pending, b.content b.pending)] }

-- The addition itself. `copy` stops at the end of the buffer.
def put (data : Bytes) : AggregateWriteBuffer :=
  let idx := b.activeIdx
  let pos := b.bufferPos idx
  let buf := b.buffers idx
  { b with
    bufferStart      := if pos = 0 then Function.update b.bufferStart idx b.writeCursor else b.bufferStart
    bufferGeneration :=
      if pos = 0 then Function.update b.bufferGeneration idx b.generation else b.bufferGeneration
    buffers          := Function.update b.buffers idx (buf.writeAt pos (data.take (buf.size - pos)))
    bufferPos        := Function.update b.bufferPos idx (pos + data.length)
    sequence         := b.sequence + 1
    bufferSequence   := Function.update b.bufferSequence idx (b.sequence + 1)
    writeCursor      := b.writeCursor + data.length
    added            := b.added ++ [⟨⟨b.writeCursor, b.generation, b.sequence + 1⟩, data⟩] }

-- The part of `addContext` behind its loop.
def append (data : Bytes) : Allocation × AggregateWriteBuffer :=
  let b' := b.put data
  (⟨b.writeCursor, b.generation, b.sequence + 1⟩,
    if b.bufferPos b.activeIdx + data.length ≥ AggHighWaterMark ∧ ¬b'.isFlushing then b'.swapAndFlush
    else b')

-- The next addition starts a new lap.
def wrap : AggregateWriteBuffer :=
  { b with writeCursor := b.minOffset, generation := b.generation + 1 }

-- The check in front of the loop of `addContext`.
def fits (data : Bytes) : Bool :=
  0 < data.length ∧ data.length ≤ AggBufferSize ∧
  (b.maxOffset = 0 ∨ b.minOffset < b.maxOffset ∧ data.length ≤ b.maxOffset - b.minOffset)

-- What an iteration of the loop ends with. The lock is only released if it waits.
inductive Pass
  | added (a : Allocation)
  | again
  | wait

-- One iteration, with the error of the context.
def addPass (cancelled : Option Err) (data : Bytes) : Except Err (Pass × AggregateWriteBuffer) := do
  if let some e := b.err then throw e
  if b.closed then throw .cacheClosed
  if let some e := cancelled then throw e
  if b.maxOffset > 0 ∧ b.writeCursor + data.length > b.maxOffset then
    if b.isFlushing then return (.wait, b)
    return (.again, b.swapAndFlush.wrap)
  if b.bufferPos b.activeIdx + data.length ≤ AggBufferSize then
    let (a, b) := b.append data
    return (.added a, b)
  if ¬b.isFlushing then return (.again, b.swapAndFlush)
  return (.wait, b)

-- One iteration of the loop of `flushThrough`. It returns nothing before it waits.
def flushPass (cancelled : Option Err) (target : Nat) :
    Except Err (Option Unit × AggregateWriteBuffer) := do
  if let some e := b.err then throw e
  if let some e := cancelled then throw e
  if b.completed ≥ target then return (some (), b)
  return (none, b.swapAndFlush)

-- The worker calls `NotifyFlushDone` at the end of `handleFlushTask`.
def notifyFlushDone (err : Option Err) : AggregateWriteBuffer :=
  let failed := b.err <|> err
  { b with
    err          := failed
    completed    := if b.isFlushing then b.bufferSequence (!b.activeIdx) else b.completed
    isFlushing   := false
    bufferPos    := if failed.isSome then Function.update b.bufferPos b.activeIdx 0 else b.bufferPos
    worker       := none
    acknowledged := b.acknowledged ++ [err] }

def fail (err : Err) : AggregateWriteBuffer := { b with err := b.err <|> some err }

def stopAdds : AggregateWriteBuffer := { b with closed := true }

-- The disk worker takes a task out of the channel.
def receive (t : Task) (l : List Task) : AggregateWriteBuffer :=
  { b with flushChan := l, worker := some t }

inductive Event
  | add (cancelled : Option Err) (data : Bytes)
  | triggerFlush
  | flushThrough (cancelled : Option Err) (target : Nat)
  | receive
  | notifyFlushDone (err : Option Err)
  | fail (err : Err)
  | stopAdds

-- The critical sections of all goroutines. Between two iterations of a loop there may be others even
-- if the iteration does not wait. An iteration that returns an error changes nothing.
inductive Step (b : AggregateWriteBuffer) : Event → AggregateWriteBuffer → Prop
  | add (cancelled data pass b') :
    (b.fits data) → (b.addPass cancelled data = .ok (pass, b')) → Step b (.add cancelled data) b'
  | triggerFlush : Step b .triggerFlush b.swapAndFlush
  | flushThrough (cancelled target done b') :
    (b.flushPass cancelled target = .ok (done, b')) → Step b (.flushThrough cancelled target) b'
  | receive (t l) : (b.worker = none) → (b.flushChan = t :: l) → Step b .receive (b.receive t l)
  | notifyFlushDone (t err) :
    (b.worker = some t) → Step b (.notifyFlushDone err) (b.notifyFlushDone err)
  | fail (err) : Step b (.fail err) (b.fail err)
  | stopAdds : Step b .stopAdds b.stopAdds

end AggregateWriteBuffer
end Bakemono
