import Bakemono.Read.Committed

namespace Bakemono

-- What a writer needs of its stripe: the part of `writeFragment` behind the construction of the
-- document, and the part of `abortLocked` which removes what has been published.
structure Storage (σ : Type) where
  publish : Nat → Bytes → EStateM Err σ Unit
  abandon : σ → σ

-- The errors of a context.
def CtxErr (e : Option Err) : Prop :=
  e ∈ [none, some (.other "context canceled"), some (.other "context deadline exceeded")]

-- The last two fields are not fields of the source: the bytes that the writer has accepted, and the
-- documents it has handed to the stripe.
structure CacheWriter (σ : Type) where
  stripe       : σ
  version      : UInt64
  info         : Option CacheHTTPInfo := none
  buffer       : Bytes := []
  frag0Data    : Option Bytes := none
  nextFragIdx  : Nat := 0
  totalWritten : Nat := 0
  closed       : Bool := false
  err          : Option Err := none
  accepted     : Bytes := []
  documents    : List (Nat × Bytes) := []

abbrev WriterM (σ : Type) := EStateM Err (CacheWriter σ)

namespace CacheWriter

-- The header of a fragment. The object has the given length up to its end.
def documentHeader (H : Hash) (key : Bytes) (version : UInt64) (totalLen idx : Nat)
    (data info : Bytes) : Doc :=
  let doc : Doc :=
    { magic       := DocMagic
      vmajor      := docIdentityVersion
      len         := .ofNat (DocHeaderSize + info.length + data.length)
      totalLen    := .ofNat totalLen
      firstKey    := H.docKey key
      key         := H.docKey (H.fragmentKey key idx)
      hlen        := .ofNat info.length
      syncSerial  := (version >>> 32).toUInt32
      writeSerial := version.toUInt32 }
  { doc with checksum := doc.calculateChecksum H (info ++ data) }

def document (H : Hash) (key : Bytes) (version : UInt64) (totalLen idx : Nat) (data info : Bytes) :
    Bytes :=
  (documentHeader H key version totalLen idx data info).marshal ++ (info ++ data)

variable {σ : Type} (H : Hash) (start stop : Nat) (key : Bytes) (S : Storage σ)

def abortLocked (e : Err) (w : CacheWriter σ) : CacheWriter σ :=
  { w with
    err       := some e
    closed    := true
    buffer    := []
    frag0Data := none
    stripe    := S.abandon w.stripe }

def abort (e : Option Err) (w : CacheWriter σ) : CacheWriter σ :=
  if w.closed then w else w.abortLocked S (e.getD (.other "cache write aborted"))

def setHTTPInfo (info : Option CacheHTTPInfo) (w : CacheWriter σ) : CacheWriter σ :=
  if w.closed then w else { w with info }

-- The writer after it has handed a document to its stripe.
def handed (w : CacheWriter σ) (stripe : σ) (idx : Nat) (doc : Bytes) : CacheWriter σ :=
  { w with stripe, documents := w.documents ++ [(idx, doc)] }

def writeFragment (idx : Nat) (data info : Bytes) : WriterM σ Unit := fun w =>
  let doc := document H key w.version w.totalWritten idx data info
  match S.publish idx doc w.stripe with
  | .ok () stripe   => .ok () (w.handed stripe idx doc)
  | .error e stripe => .error e (w.handed stripe idx doc)

-- The first fragment is held back.
def processChunk : WriterM σ Unit := do
  let w ← get
  if w.nextFragIdx = 0 then
    modify ({ · with frag0Data := some (w.buffer.take TargetFragmentSize) })
  else
    writeFragment H key S w.nextFragIdx (w.buffer.take TargetFragmentSize) []

def advanced (w : CacheWriter σ) : CacheWriter σ :=
  { w with buffer := w.buffer.drop TargetFragmentSize, nextFragIdx := w.nextFragIdx + 1 }

-- The number of iterations is that of the full fragments in the buffer.
def processBuffer : Nat → WriterM σ Unit
  | 0     => pure ()
  | n + 1 => do
    processChunk H key S
    modify advanced
    processBuffer n

def appended (p : Bytes) (w : CacheWriter σ) : CacheWriter σ :=
  { w with
    buffer       := w.buffer ++ p
    totalWritten := w.totalWritten + p.length
    accepted     := w.accepted ++ p }

-- One iteration of the loop of `Write`, and what is left of the caller's buffer.
def writeChunk (p : Bytes) : WriterM σ Bytes := do
  let w ← get
  let take := min (TargetFragmentSize - w.buffer.length) p.length
  modify (appended (p.take take))
  processBuffer H key S ((w.buffer.length + take) / TargetFragmentSize)
  return p.drop take

def writeLoop : Nat → Bytes → WriterM σ Bytes
  | 0,        p => pure p
  | fuel + 1, p => do
    if p = [] then
      return p
    else
      let p ← writeChunk H key S p
      writeLoop fuel p

-- An error of the computation aborts the writer.
def aborting {α : Type} (x : WriterM σ α) : WriterM σ α :=
  tryCatchThe Err x fun e => do
    modify (abortLocked S e)
    throw e

-- The number of bytes which have been written is returned. The error of the context is given.
def write (ctxErr : Option Err) (p : Bytes) : WriterM σ Nat := do
  let w ← get
  if w.closed then
    throw (w.err.getD (.other "writer closed"))
  else
    aborting S do
      if let some e := ctxErr then
        throw e
      else if p.length + w.totalWritten > stop - start then
        throw (.other "object exceeds stripe data area")
      else
        let rest ← writeLoop H key S p.length p
        return p.length - rest.length

def infoBytes (w : CacheWriter σ) : WriterM σ Bytes :=
  match w.info with
  | none      => pure []
  | some info =>
    match info.marshal with
    | .ok bytes => pure bytes
    | .error _  => throw (.other "failed to marshal http info")

-- The bytes that are left in the buffer are the first or the last fragment.
def closeBuffer : WriterM σ Unit := do
  let w ← get
  if w.buffer = [] then
    return
  else if w.nextFragIdx = 0 then
    modify fun w => { w with frag0Data := some w.buffer, buffer := [] }
  else
    writeFragment H key S w.nextFragIdx w.buffer []
    modify fun w => { w with nextFragIdx := w.nextFragIdx + 1, buffer := [] }

-- The head is written last, also for an empty object.
def closeHead (info : Bytes) : WriterM σ Unit := do
  let w ← get
  match if w.frag0Data = none ∧ w.totalWritten = 0 then some [] else w.frag0Data with
  | none      => return
  | some data => writeFragment H key S 0 data info

def close : WriterM σ Unit := do
  let w ← get
  if w.closed then
    match w.err with
    | some e => throw e
    | none   => return
  else
    aborting S do
      let info ← infoBytes w
      closeBuffer H key S
      closeHead H key S info
      modify ({ · with closed := true, buffer := [], frag0Data := none })

end CacheWriter
end Bakemono
