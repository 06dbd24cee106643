import Bakemono.Fill.Epochs
import Bakemono.Lib.Run
import Bakemono.Range.Manifest

namespace Bakemono

-- The errors of the range cache and of the cache below it.
inductive RangeErr
  | bypass
  | changed
  | exceeds
  | unexpectedEOF
  | eof
  | cache (e : Err)

section Bounds

def decimalValue (value : Bytes) : Except RangeErr Nat :=
  if value = [] ∨ value.any fun c => c < 48 || 57 < c then
    .error .bypass
  else
    let n := value.foldl (fun n c => 10 * n + (c.toNat - 48)) 0
    if n < 2 ^ 63 then .ok n else .error .bypass

-- `rangeBounds` for the two sides of the dash.
def boundsOf (left right : Bytes) (total : Nat) : Except RangeErr (Nat × Nat) :=
  if left = [] then do
    let suffix ← decimalValue right
    if suffix = 0 ∨ total = 0 then throw .bypass
    return (total - suffix, total - 1)
  else do
    let start ← decimalValue left
    if start ≥ total then throw .bypass
    if right = [] then
      return (start, total - 1)
    else
      let stop ← decimalValue right
      if stop < start then throw .bypass
      return (start, min stop (total - 1))

-- The value is cut at its first dash.
def rangeBounds (value : Bytes) (total : Nat) : Except RangeErr (Nat × Nat) := do
  let value := Bytes.trimPrefix (.text "bytes=") value
  if 45 ∉ value then throw .bypass
  boundsOf (value.takeWhile (· ≠ 45)) ((value.dropWhile (· ≠ 45)).drop 1) total

end Bounds

section Blocks

-- The bytes of a body, and the error at its end if there is one.
structure Body where
  data : Bytes
  err  : Option RangeErr := none

def readExactRange (body : Body) (size : Nat) : Except RangeErr Bytes :=
  if body.data.length < size then
    .error (body.err.getD (if body.data = [] then .eof else .unexpectedEOF))
  else if size < body.data.length then
    .error .exceeds
  else
    match body.err with
    | some e => .error e
    | none   => .ok body.data

-- What a response of an origin is accepted or rejected for. The stored tag is the one behind the
-- removal of connection headers, `safe` is the result of `responsePolicy`.
structure OriginResponse where
  status           : Nat
  contentRanges    : List Bytes
  etags            : List Bytes
  contentLength    : Int
  identityEncoding : Bool
  trailers         : Nat
  lateTrailers     : Nat
  safe             : Bool
  storedTag        : Bytes
  body             : Body

-- The object of a block in the cache.
structure CachedBlock where
  status : Nat
  etag   : Bytes
  data   : Bytes

def contentRange (start stop total : Nat) : Bytes :=
  .text "bytes " ++ .decimal start ++ .text "-" ++ .decimal stop ++ .text "/" ++ .decimal total

-- The producer of `ensureRangeBlock` behind its request. The result of `checkRangeVersion` is given.
def acceptBlock (m : RangeManifest) (index : Nat) (resp : OriginResponse)
    (version : Except RangeErr Unit) : Except RangeErr CachedBlock := do
  let start := m.blockStart index
  let stop := m.blockEnd index
  if resp.status ≠ 206 ∨ resp.contentRanges ≠ [contentRange start stop m.total] ∨
      resp.etags ≠ [m.etag] ∨ resp.contentLength ≠ stop - start + 1 ∨ ¬resp.identityEncoding ∨
      resp.trailers ≠ 0 then
    throw (if resp.status = 200 then .bypass else .changed)
  if ¬resp.safe then throw .bypass
  let data ← readExactRange resp.body (stop - start + 1)
  if data.length ≠ stop - start + 1 ∨ resp.lateTrailers ≠ 0 then throw .unexpectedEOF
  version
  return { status := 206, etag := resp.storedTag, data }

def readRangeBlockData (m : RangeManifest) (index : Nat) (cached : Except RangeErr CachedBlock) :
    Except RangeErr Bytes := do
  let block ← cached
  let size := m.blockLen index
  if block.status ≠ 206 ∨ block.etag ≠ m.etag then throw .changed
  let data ← readExactRange { data := block.data } size
  if data.length ≠ size then throw .unexpectedEOF
  return data

end Blocks

-- What all requests share: the counters of the cache, its blocks, and its manifests as
-- `readRangeManifestData` reads them.
structure RangeWorld (n : Nat) where
  epochs    : Epochs n
  blocks    : Bytes → Option CachedBlock := fun _ => none
  manifests : Bytes → Option RangeManifest := fun _ => none

-- A request whose source, manifest and interval are fixed. The ends of the interval are those of
-- `rangeBounds`, or of the whole object for a `GET` without a range.
structure BlockRequest (n : Nat) where
  root     : Bytes
  manifest : RangeManifest
  parent   : Fences n
  start    : Nat
  stop     : Nat
  le       : start ≤ stop
  lt       : stop < manifest.total

-- Where the representation of a tag comes from.
structure Source where
  root    : Bytes
  origin  : Bytes
  variant : Bytes
  etag    : Bytes

def RangeManifest.source (m : RangeManifest) (root : Bytes) : Source :=
  { root, origin := m.origin, variant := m.variant, etag := m.etag }

-- A strong tag at an origin identifies bytes, and a part of them is what the origin says it is.
def OriginResponse.Honest (rep : Source → Bytes) (resp : OriginResponse) (source : Source) : Prop :=
  ∀ start stop total, resp.status = 206 → resp.etags = [source.etag] →
    resp.contentRanges = [contentRange start stop total] → resp.body.err = none →
    resp.body.data.length = stop - start + 1 →
    resp.body.data = (rep source).slice start (stop - start + 1)

namespace RangeWorld

variable {n : Nat} (H : Hash) (rep : Source → Bytes) (ms : Set RangeManifest)

inductive Event
  | commit
  | evict
  | manifest
  | advance
  | restart
  deriving DecidableEq

-- What other requests, their producers and those of this one do, as well as purges and the cache.
inductive Step (w : RangeWorld n) : Event → RangeWorld n → Prop
  | commit (root m index resp version block) :
    (m ∈ ms) → (m.blockStart index < m.total) → (resp.Honest rep (m.source root)) →
    (acceptBlock m index resp version = .ok block) →
    Step w .commit { w with blocks := Function.update w.blocks (rangeBlockKey H root m index) block }
  | evict (key) : Step w .evict { w with blocks := Function.update w.blocks key none }
  | manifest (key m) : Step w .manifest { w with manifests := Function.update w.manifests key m }
  | advance (epochs) : (w.epochs.Le epochs) → Step w .advance { w with epochs }
  -- The cache is opened again. Its objects may still be there.
  | restart (epochs) : Step w .restart { w with epochs }

end RangeWorld

-- The loop of `serveBlocks`, for one block after the other.
inductive ServePhase
  -- `ensureRangeBlock` or its result from the prefetch.
  | prepare
  -- `readPreparedRangeBlock`: the first read, the two parts of `checkRangeVersion`, the recovery of the
  -- block and the second read.
  | read
  | guard
  | guardVersion
  | recover
  | reread
  -- The two parts of `checkRangeVersion`, for the bytes that are about to be sent.
  | check (data : Bytes)
  | version (data : Bytes)
  | send (rest : Bytes)
  | done
  -- The answer is an error, or the connection is closed.
  | failed
  deriving DecidableEq

-- The last field is not a variable of the source. The header is sent after a first check.
structure Serving (n : Nat) where
  world   : RangeWorld n
  index   : Nat
  phase   : ServePhase := .prepare
  started : Bool := false
  sent    : Bytes := []

namespace Serving

variable {n : Nat} (H : Hash) (rep : Source → Bytes) (ms : Set RangeManifest) (r : BlockRequest n)

-- The bounds of the slice of a block.
def low (index : Nat) : Int := max (r.start - index * r.manifest.blockSize) 0

def high (index : Nat) (data : Bytes) : Int :=
  min (r.stop - index * r.manifest.blockSize + 1) data.length

def last : Nat := r.stop / r.manifest.blockSize

-- The second half of `checkRangeVersion`. A manifest which cannot be read is unknown.
def checkManifest (current : Option RangeManifest) : Except RangeErr Unit :=
  if current.any fun c => c.etag ≠ r.manifest.etag || c.total ≠ r.manifest.total then
    .error .changed
  else
    .ok ()

def opened (w : RangeWorld n) : Serving n :=
  { world := w, index := r.start / r.manifest.blockSize }

-- The object of a key, or an error.
def Fetches (s : Serving n) (cached : Except RangeErr CachedBlock) : Prop :=
  ∀ block, cached = .ok block →
    s.world.blocks (rangeBlockKey H r.root r.manifest s.index) = some block

-- The manifest of the key, or none if it cannot be read.
def Looks (s : Serving n) (current : Option RangeManifest) : Prop :=
  ∀ m, current = some m → s.world.manifests (r.manifest.key H r.root) = some m

inductive Event
  | world (e : RangeWorld.Event)
  | serve
  -- A check has found a purge or another version.
  | observed

inductive Step (s : Serving n) : Event → Serving n → Prop
  | world (e w) : (RangeWorld.Step H rep ms s.world e w) → Step s (.world e) { s with world := w }
  -- Any operation may fail, for one thing because the client has gone.
  | fail : (s.phase ≠ .done) → Step s .serve { s with phase := .failed }
  | purged (data) :
    (s.phase = .guard ∨ s.phase = .check data) → (r.parent.check H s.world.epochs ≠ .ok ()) →
    Step s .observed { s with phase := .failed }
  | changed (data current) :
    (s.phase = .guardVersion ∨ s.phase = .version data) → (s.Looks H r current) →
    (checkManifest r current ≠ .ok ()) → Step s .observed { s with phase := .failed }
  | prepare : (s.phase = .prepare) → Step s .serve { s with phase := .read }
  | read (cached data) :
    (s.phase = .read ∨ s.phase = .reread) → (s.Fetches H r cached) →
    (readRangeBlockData r.manifest s.index cached = .ok data) →
    Step s .serve { s with phase := .check data }
  | missing (cached e) :
    (s.phase = .read) → (s.Fetches H r cached) →
    (readRangeBlockData r.manifest s.index cached = .error (.cache e)) →
    Step s .serve { s with phase := .guard }
  | guard :
    (s.phase = .guard) → (r.parent.check H s.world.epochs = .ok ()) →
    Step s .serve { s with phase := .guardVersion }
  | guardVersion (current) :
    (s.phase = .guardVersion) → (s.Looks H r current) → (checkManifest r current = .ok ()) →
    Step s .serve { s with phase := .recover }
  | recover : (s.phase = .recover) → Step s .serve { s with phase := .reread }
  | check (data) :
    (s.phase = .check data) → (r.parent.check H s.world.epochs = .ok ()) →
    Step s .serve { s with phase := .version data }
  -- The first block is checked twice.
  | start (data current) :
    (s.phase = .version data) → (s.started = false) → (s.Looks H r current) →
    (checkManifest r current = .ok ()) →
    Step s .serve { s with phase := .check data, started := true }
  | version (data current) :
    (s.phase = .version data) → (s.started = true) → (s.Looks H r current) →
    (checkManifest r current = .ok ()) →
    Step s .serve
      { s with phase := .send (data.extract (low r s.index).toNat (high r s.index data).toNat) }
  | send (chunk rest) :
    (s.phase = .send (chunk ++ rest)) →
    Step s .serve { s with phase := .send rest, sent := s.sent ++ chunk }
  | next :
    (s.phase = .send []) → (s.index < last r) →
    Step s .serve { s with phase := .prepare, index := s.index + 1 }
  | done : (s.phase = .send []) → (last r ≤ s.index) → Step s .serve { s with phase := .done }

end Serving

end Bakemono
