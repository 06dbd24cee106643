import Bakemono.Ram.Entry

namespace Bakemono

-- What the lock of the stripe lets a reader see of its state. Nothing is assumed about the contents
-- of the directory, the memory and the disk.
structure View where
  storageErr : Option Err
  closed     : Bool
  get        : Bytes → Option Dir
  dirValid   : Dir → Bool
  ram        : Bytes → Option RamEntry
  readAt     : Nat → Nat → Except Err Bytes
  -- `ReadAt` fills the whole buffer or returns an error.
  length_readAt : ∀ {off n p}, readAt off n = .ok p → p.length = n
  no_panic      : storageErr ≠ some .panic ∧ ∀ off n, readAt off n ≠ .error .panic

-- Neither the stripe nor its disk ever reports the error.
structure View.Never (v : View) (e : Err) : Prop where
  storageErr : v.storageErr ≠ some e
  readAt     : ∀ off n, Except.Avoids e (v.readAt off n)

-- The reader of a committed object. The number of loads is not a field of the source.
structure CacheReader where
  fragmentIndex : Nat := 0
  offset        : Nat := 0
  totalRead     : Nat := 0
  totalLen      : Nat := 0
  version       : Option UInt64 := none
  buf           : Bytes := []
  dir           : Dir := {}
  ram           : Option RamEntry := none
  info          : Option CacheHTTPInfo := none
  readErr       : Option Err := none
  loads         : Nat := 0

namespace CacheReader

-- A stripe has its data area in `[start, stop)`.
variable (H : Hash) (start stop : Nat) (firstKey : Bytes)

def loadFromDisk (v : View) (d : Dir) : Except Err Bytes := do
  let header ← v.readAt d.offset DocHeaderSize
  let doc := Doc.unmarshal header
  if doc.len.toNat < DocHeaderSize ∨ doc.len.toNat > AggBufferSize ∨
      doc.len.toNat > d.approxSize ∨ doc.len.toNat > stop - d.offset then
    throw (.other "invalid fragment bounds")
  v.readAt d.offset doc.len.toNat

def handleRead (v : View) (key : Bytes) (index : Nat) : Except Err (Dir × Bytes × Option RamEntry) := do
  if let some e := v.storageErr then throw e
  if v.closed then throw .cacheClosed
  let some d := v.get key | throw (.notResident s!"fragment {index} missing")
  if d.offset < start ∨ d.offset ≥ stop then
    throw (.other "invalid fragment directory offset")
  if ¬v.dirValid d then throw (.notResident s!"fragment {index} overwritten")
  match v.ram key with
  | some e => return (d, e.data, some e)
  | none   => return (d, ← loadFromDisk stop v d, none)

-- No load of a fragment of the object ends with the error.
def Spares (v : View) (e : Err) : Prop :=
  ∀ index, Except.Avoids e (handleRead start stop v (H.fragmentKey firstKey index) index)

def parseDocFromBuf (r : CacheReader) : Except Err Doc := do
  if r.buf.length < DocHeaderSize then throw (.other "buffer too small for doc header")
  return .unmarshal (← slice r.buf 0 DocHeaderSize)

-- The lengths that the head and the other fragments of an object must have.
def checkLengths (r : CacheReader) (doc : Doc) : Except Err Unit := do
  let dataLen := doc.dataLen.toNat
  if r.fragmentIndex = 0 then
    if dataLen ≠ min doc.totalLen.toNat TargetFragmentSize then
      throw (.other "invalid head fragment length")
  else
    let stop := r.fragmentIndex * TargetFragmentSize + dataLen
    if doc.hlen ≠ 0 ∨ dataLen = 0 ∨ doc.totalLen.toNat ≠ stop then
      throw (.other "invalid fragment chain")
    if stop > r.totalLen ∨
        dataLen ≠ min TargetFragmentSize (r.totalLen - r.fragmentIndex * TargetFragmentSize) then
      throw (.other "inconsistent fragment chain length")

def trim (buf : Bytes) (n : Nat) : Except Err Bytes :=
  if buf.length > n then slice buf 0 n else .ok buf

def parseDoc (key : Bytes) (r : CacheReader) : Except Err CacheReader := do
  let doc ← r.parseDocFromBuf
  doc.validate H r.buf
  if doc.key ≠ H.docKey key ∨ doc.firstKey ≠ H.docKey firstKey then
    throw (.other "cache document identity mismatch")
  if doc.totalLen.toNat > stop - start then throw (.other "cache object exceeds stripe bounds")
  r.checkLengths doc
  if r.version.any (· ≠ doc.version) then throw (.other "cache object replaced during read")
  let buf ← trim r.buf doc.len.toNat
  return { r with
    version  := doc.version
    totalLen := if r.fragmentIndex = 0 then doc.totalLen.toNat else r.totalLen
    buf }

-- The part of `loadFragment` in front of its deferred function.
def load (v : View) (index : Nat) (r : CacheReader) : Except Err CacheReader := do
  let key := H.fragmentKey firstKey index
  let (dir, buf, ram) ← handleRead start stop v key index
  parseDoc H start stop firstKey key
    { r with fragmentIndex := index, loads := r.loads + 1, dir, buf, ram }

-- An unsuccessful load leaves no bytes for a later read.
def loadFailed (index : Nat) (e : Err) (r : CacheReader) : CacheReader :=
  { r with
    fragmentIndex := index
    loads         := r.loads + 1
    buf           := []
    ram           := none
    readErr       := some e }

-- The bytes a call has read, its error and the state it leaves behind.
abbrev Result := Bytes × Option Err × CacheReader

-- All bytes of the object have been read.
def atEnd (acc : Bytes) (r : CacheReader) : Result :=
  (acc, if acc = [] then some .eof else none, r)

-- The second half of the loop body of `Read`. The buffer is not empty.
def copy (n : Nat) (acc : Bytes) (r : CacheReader) (next : Bytes → CacheReader → Option Result) :
    Option Result :=
  match r.parseDocFromBuf with
  | .error e => some (acc, some e, r)
  | .ok doc =>
    let from' := DocHeaderSize + doc.hlen.toNat + r.offset
    if r.buf.length ≤ from' then
      if r.totalLen ≤ r.totalRead then some (atEnd acc r) else next acc { r with buf := [] }
    else
      let toRead := min (n - acc.length) (r.buf.length - from')
      match slice r.buf from' (from' + toRead) with
      | .error e => some (acc, some e, r)
      | .ok src  => next (acc ++ src)
        { r with offset := r.offset + src.length, totalRead := r.totalRead + src.length }

-- The loop of `Read`. It returns nothing if it has run out of fuel. The `j`th load of a reader sees
-- the state `env j`.
def readLoop (env : Nat → View) (n : Nat) : Nat → Bytes → CacheReader → Option Result
  | 0,        _,   _ => none
  | fuel + 1, acc, r =>
    if n ≤ acc.length then
      some (acc, none, r)
    else if r.buf = [] then
      if r.totalLen ≤ r.totalRead then
        some (atEnd acc r)
      else
        match r.load H start stop firstKey (env r.loads) (r.fragmentIndex + 1) with
        | .error e => some (acc, some e, r.loadFailed (r.fragmentIndex + 1) e)
        | .ok r    => copy n acc { r with offset := 0 } (readLoop env n fuel)
    else
      copy n acc r (readLoop env n fuel)

-- The deferred function of `Read`.
def deferred : Result → Result
  | (p, some e, r) => (p, some e, if e = .eof then r else { r with readErr := some e, buf := [] })
  | (p, none, r)   => (p, none, r)

-- Every two iterations copy at least one byte or end the loop.
def readFuel (n : Nat) : Nat := 2 * n + 2

def read (env : Nat → View) (n : Nat) (r : CacheReader) : Option Result :=
  match r.readErr with
  | some e => some ([], some e, r)
  | none   =>
    if r.buf = [] then
      match r.load H start stop firstKey (env r.loads) 0 with
      | .error e => some (deferred ([], some e, r.loadFailed 0 e))
      | .ok r    => (readLoop H start stop firstKey env n (readFuel n) [] r).map deferred
    else
      (readLoop H start stop firstKey env n (readFuel n) [] r).map deferred

def parseInfo (r : CacheReader) : Except Err CacheHTTPInfo := do
  let doc ← r.parseDocFromBuf
  match r.ram with
  | some { info := some info, checksum, .. } =>
    if checksum = doc.checksum then return info else decode doc
  | _ => decode doc
where
  decode (doc : Doc) : Except Err CacheHTTPInfo :=
    if doc.hlen = 0 then
      .ok .new
    else if DocHeaderSize + doc.hlen.toNat ≤ r.buf.length then do
      CacheHTTPInfo.unmarshal (← slice r.buf DocHeaderSize (DocHeaderSize + doc.hlen.toNat))
    else
      .error (.other "buffer too small for http info")

def loadHTTPInfo (env : Nat → View) (r : CacheReader) : Except Err CacheHTTPInfo × CacheReader :=
  match r.readErr, r.info with
  | some e, _ => (.error e, r)
  | none, some info => (.ok info, r)
  | none, none =>
    match r.load H start stop firstKey (env r.loads) 0 with
    | .error e => (.error e, r.loadFailed 0 e)
    | .ok r =>
      match r.parseInfo with
      | .error e => (.error e, r)
      | .ok info => (.ok info, { r with info := some info })

-- Some calls of `LoadHTTPInfo` on a new reader.
def infoCalls (env : Nat → View) : Nat → CacheReader
  | 0     => {}
  | k + 1 => (loadHTTPInfo H start stop firstKey env (infoCalls env k)).2

-- Calls of `Read` with buffers of the given sizes, and what each of them returns.
def readCalls (env : Nat → View) : List Nat → CacheReader → Option (List (Bytes × Option Err))
  | [],         _ => some []
  | n :: sizes, r => do
    let (p, e, r) ← r.read H start stop firstKey env n
    return (p, e) :: (← readCalls env sizes r)

-- The bytes that some calls have returned.
def delivered (calls : List (Bytes × Option Err)) : Bytes := calls.flatMap Prod.fst

end CacheReader

-- The views agree on the fragments of an object.
structure View.Alike (H : Hash) (key : Bytes) (v v' : View) : Prop where
  storageErr : v'.storageErr = v.storageErr
  closed     : v'.closed = v.closed
  get        : ∀ idx, v'.get (H.fragmentKey key idx) = v.get (H.fragmentKey key idx)
  dirValid   : ∀ d, v'.dirValid d = v.dirValid d
  ram        : ∀ idx, v'.ram (H.fragmentKey key idx) = v.ram (H.fragmentKey key idx)
  readAt     : v'.readAt = v.readAt

namespace CacheReader

-- A reader looks at nothing else.
section

variable {H : Hash} {start stop : Nat} {key : Bytes} {v v' : View} {env env' : Nat → View}

theorem handleRead_alike (h : v.Alike H key v') (index : Nat) :
    handleRead start stop v' (H.fragmentKey key index) index =
      handleRead start stop v (H.fragmentKey key index) index := by
  simp only [handleRead, loadFromDisk, h.storageErr, h.closed, h.get, h.dirValid, h.ram, h.readAt]

theorem load_alike (h : v.Alike H key v') (index : Nat) (r : CacheReader) :
    load H start stop key v' index r = load H start stop key v index r := by
  simp only [load, handleRead_alike h]

theorem readLoop_alike (h : ∀ j, (env j).Alike H key (env' j)) (n fuel : Nat) (acc : Bytes) (r : CacheReader) :
    readLoop H start stop key env' n fuel acc r = readLoop H start stop key env n fuel acc r := by
  induction fuel generalizing acc r
  case zero => rfl
  case succ fuel hi =>
    have hi : readLoop H start stop key env' n fuel = readLoop H start stop key env n fuel :=
      funext fun acc => funext (hi acc)
    simp only [readLoop, load_alike (h _), hi]

theorem read_alike (h : ∀ j, (env j).Alike H key (env' j)) (n : Nat) (r : CacheReader) :
    read H start stop key env' n r = read H start stop key env n r := by
  simp only [read, load_alike (h _), readLoop_alike h]

theorem loadHTTPInfo_alike (h : ∀ j, (env j).Alike H key (env' j)) (r : CacheReader) :
    loadHTTPInfo H start stop key env' r = loadHTTPInfo H start stop key env r := by
  simp only [loadHTTPInfo, load_alike (h _)]

theorem infoCalls_alike (h : ∀ j, (env j).Alike H key (env' j)) (k : Nat) :
    infoCalls H start stop key env' k = infoCalls H start stop key env k := by
  induction k
  case zero => rfl
  case succ k hi => rw [infoCalls, infoCalls, loadHTTPInfo_alike h, hi]

theorem readCalls_alike (h : ∀ j, (env j).Alike H key (env' j)) (sizes : List Nat) (r : CacheReader) :
    readCalls H start stop key env' sizes r = readCalls H start stop key env sizes r := by
  induction sizes generalizing r
  case nil => rfl
  case cons n sizes hi => simp only [readCalls, read_alike h, hi]

end

end CacheReader
end Bakemono
