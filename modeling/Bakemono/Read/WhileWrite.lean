import Bakemono.Lib.Run
import Bakemono.Write.Pieces

namespace Bakemono

namespace CacheWriter

variable {σ : Type}

-- What a lock section of `ReadAtContext` comes to.
inductive Section
  | data (p : Bytes)
  | disk
  | fail (e : Err)
  | again
  | wait

-- The section under the lock for reading. The error of the context is given.
def firstSection (w : CacheWriter σ) (ctxErr : Option Err) (offset n : Nat) : Section :=
  match ctxErr, w.err with
  | some e, _      => .fail e
  | none,   some e => .fail e
  | none,   none   =>
    if offset < w.totalWritten then
      let bufferStart := w.totalWritten - w.buffer.length
      if bufferStart ≤ offset then
        .data (w.buffer.slice (offset - bufferStart) (min n (w.totalWritten - offset)))
      else
        let frag0Data := w.frag0Data.getD []
        if offset < frag0Data.length then
          .data (frag0Data.slice offset (min n (frag0Data.length - offset)))
        else
          .disk
    else if w.closed then
      .fail .eof
    else
      .wait

-- The section under the lock for writing.
def secondSection (w : CacheWriter σ) (ctxErr : Option Err) (offset : Nat) : Section :=
  match ctxErr with
  | some e => .fail e
  | none   =>
    if w.closed then .fail (w.err.getD .eof)
    else if offset < w.totalWritten then .again
    else .wait

end CacheWriter

namespace CacheReader

variable (H : Hash) (start stop : Nat) (key : Bytes)

-- `loadFragment` for a reader with a writer, whose version it has and whose length it does not know.
def loadWriting (version : UInt64) (v : View) (index : Nat) : Except Err Bytes := do
  let (_, buf, _) ← handleRead start stop v (H.fragmentKey key index) index
  if buf.length < DocHeaderSize then throw (.other "buffer too small for doc header")
  let doc := header buf
  doc.validate H buf
  if doc.key ≠ H.docKey (H.fragmentKey key index) ∨ doc.firstKey ≠ H.docKey key then
    throw (.other "cache document identity mismatch")
  if doc.totalLen.toNat > stop - start then throw (.other "cache object exceeds stripe bounds")
  let dataLen := doc.dataLen.toNat
  if index = 0 ∧ dataLen ≠ min doc.totalLen.toNat TargetFragmentSize then
    throw (.other "invalid head fragment length")
  if index ≠ 0 ∧ (doc.hlen ≠ 0 ∨ dataLen = 0 ∨
      doc.totalLen.toNat ≠ index * TargetFragmentSize + dataLen) then
    throw (.other "invalid fragment chain")
  if version ≠ doc.version then throw (.other "cache object replaced during read")
  trim buf doc.len.toNat

-- The bytes of a loaded fragment from an offset on.
def readLoaded (q : Bytes) (offset n : Nat) : Except Err Bytes :=
  let from' := DocHeaderSize + (header q).hlen.toNat + offset
  if q.length ≤ from' then
    .error (.other "inconsistent state: writer said disk, but disk empty")
  else
    .ok (q.slice from' (min n (q.length - from')))

-- The part of `readFromWriter` behind `ErrReadFromDisk`.
def readFlushed (version : UInt64) (v : View) (totalRead n : Nat) : Except Err Bytes := do
  let q ← loadWriting H start stop key version v (totalRead / TargetFragmentSize)
  readLoaded q (totalRead % TargetFragmentSize) n

end CacheReader

-- Where a call of `Read` is, for a buffer of the given size.
inductive StreamPhase
  | idle
  | first (n : Nat)
  | second (n : Nat)
  | waiting (n : Nat)
  | disk (n : Nat)

-- A writer and a reader that is attached to it. The last two fields are not fields of the source: the
-- bytes that calls of `Read` have returned, and whether one of them has returned `io.EOF`.
structure Streaming (σ : Type) where
  writer    : CacheWriter σ
  phase     : StreamPhase := .idle
  totalRead : Nat := 0
  readErr   : Option Err := none
  delivered : Bytes := []
  ended     : Bool := false

namespace Streaming

variable {σ : Type} (H : Hash) (start stop : Nat) (key : Bytes) (S : Storage σ)

def attached (stripe : σ) (version : UInt64) : Streaming σ := { writer := { stripe, version } }

def deliver (s : Streaming σ) (p : Bytes) : Streaming σ :=
  { s with phase := .idle, totalRead := s.totalRead + p.length, delivered := s.delivered ++ p }

-- The deferred function of `Read` does not keep `io.EOF`.
def fail (s : Streaming σ) (e : Err) : Streaming σ :=
  { s with
    phase   := .idle
    readErr := if e = .eof then s.readErr else some e
    ended   := s.ended || e = .eof }

-- `loadFragment` keeps every error.
def failLoad (s : Streaming σ) (e : Err) : Streaming σ := { s.fail e with readErr := some e }

-- The reader after a lock section.
def proceed (s : Streaming σ) (n : Nat) : CacheWriter.Section → StreamPhase → Streaming σ
  | .data p, _    => s.deliver p
  | .disk,   _    => { s with phase := .disk n }
  | .fail e, _    => s.fail e
  | .again,  _    => { s with phase := .first n }
  | .wait,   next => { s with phase := next }

-- The stripe has no document with the version of the writer that the writer has not handed to it.
def Unforged (w : CacheWriter σ) (v : View) : Prop :=
  ∀ i q, CacheReader.Seen H start stop key v i q → CacheReader.Fragment H key i w.version q →
    (i, q) ∈ w.documents

inductive Event
  | write (p : Bytes)
  | close
  | abort (e : Option Err)
  | setHTTPInfo
  | call (n : Nat)
  | first
  | second
  | wake
  | load (v : View)

-- The calls of the writer hold its lock. A load does not need it, but a load that sees a document can be
-- moved behind the call which has written the document.
inductive Step (s : Streaming σ) : Event → Streaming σ → Prop
  | write (ctxErr p) :
    (CtxErr ctxErr) →
    Step s (.write p)
      { s with writer := (CacheWriter.write H start stop key S ctxErr p s.writer).state }
  | close : Step s .close { s with writer := (CacheWriter.close H key S s.writer).state }
  | abort (e) : Step s (.abort e) { s with writer := s.writer.abort S e }
  | setHTTPInfo (info) : Step s .setHTTPInfo { s with writer := s.writer.setHTTPInfo info }
  | refuse (n e) : (s.phase = .idle) → (s.readErr = some e) → Step s (.call n) (s.fail e)
  | call (n) : (s.phase = .idle) → (s.readErr = none) → Step s (.call n) { s with phase := .first n }
  -- With an empty buffer, `readFromWriter` loops for ever.
  | spin : (s.phase = .first 0) → Step s .first s
  | first (ctxErr n) :
    (s.phase = .first n) → (n ≠ 0) → (CtxErr ctxErr) →
    Step s .first
      (s.proceed n (s.writer.firstSection ctxErr s.totalRead n) (.second n))
  | second (ctxErr n) :
    (s.phase = .second n) → (CtxErr ctxErr) →
    Step s .second (s.proceed n (s.writer.secondSection ctxErr s.totalRead) (.waiting n))
  | wake (n) : (s.phase = .waiting n) → Step s .wake { s with phase := .first n }
  | load (v n p) :
    (s.phase = .disk n) → (Unforged H start stop key s.writer v) →
    (CacheReader.readFlushed H start stop key s.writer.version v s.totalRead n = .ok p) →
    Step s (.load v) (s.deliver p)
  | loadFailed (v n e) :
    (s.phase = .disk n) → (Unforged H start stop key s.writer v) →
    (CacheReader.readFlushed H start stop key s.writer.version v s.totalRead n = .error e) →
    Step s (.load v) (s.failLoad e)

end Streaming
end Bakemono
