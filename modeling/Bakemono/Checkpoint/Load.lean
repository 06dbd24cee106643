import Bakemono.Checkpoint.Format
import Bakemono.Directory.Invariant
import Bakemono.Read.Reader

namespace Bakemono

-- `InitEmptyDirs`.
def DirManager.initEmptyDirs (dm : DirManager) : DirManager :=
  { dm with segments := dm.segments.map fun _ => .empty dm.bucketsNumPerSegment }

section Source

variable (H : Hash) (g : Geometry) (disk : File)

-- The header of a checkpoint that can be trusted.
def CheckpointHeader.Trusted (h : CheckpointHeader) (v : Volume) : Prop :=
  h.magic = checkpointMagic ∧ h.version = checkpointVersion ∧ h.clean = 1 ∧ h.skip.toNat = g.skip ∧
  h.length.toNat = g.len ∧ h.start.toNat = g.start ∧ g.start ≤ h.writePos.toNat ∧
  h.writePos.toNat ≤ g.stop ∧ h.phase ≤ 1 ∧ h.dirBytes.toNat = v.dirMgr.binarySize ∧
  h.entries.toNat ≤ min v.dirMgr.fragmentsNum MaxIndexEntries ∧ h.mapBytes.toNat ≤ MaxMapBytes

instance (h : CheckpointHeader) (v : Volume) : Decidable (h.Trusted g v) :=
  inferInstanceAs (Decidable (_ ∧ _))

-- The part of `loadCheckpoint` that changes nothing: the header, the directory and the entries.
def readCheckpoint (checkpoint : Option Bytes) (v : Volume) :
    Except Err (CheckpointHeader × Bytes × List (Bytes × Bytes)) := do
  let some data := checkpoint | throw (.other "no such file or directory")
  if data.length < CheckpointHeader.size then throw (if data = [] then .eof else .unexpectedEOF)
  let h := CheckpointHeader.unmarshal data
  let some marker := disk.readAt g.skip StripeHeaderSize | throw .eof
  if Bytes.ofBE (marker.slice 0 4) ≠ StripeHeaderMagic ∨
      Bytes.ofBE (marker.slice 4 4) ≠ StripeHeaderVer ∨ marker.drop 8 ≠ Bytes.be 16 h.session.toNat then
    throw (.other "checkpoint session mismatch")
  if ¬h.Trusted g v then throw (.other "untrusted checkpoint")
  if data.length ≠ CheckpointHeader.size + h.dirBytes.toNat + h.mapBytes.toNat then
    throw (.other "checkpoint length mismatch")
  let cleared := data.take (CheckpointHeader.size - 4) ++ .replicate 4 0 ++ data.drop CheckpointHeader.size
  if H.crc32 cleared ≠ h.checksum.toBitVec then throw (.other "checkpoint checksum mismatch")
  let (entries, rest) ← decodeMapping h.entries.toNat (data.drop (CheckpointHeader.size + h.dirBytes.toNat))
  if rest ≠ [] then throw (.other "trailing checkpoint mapping")
  return (h, data.slice CheckpointHeader.size h.dirBytes.toNat, entries)

-- Nothing is being written while the stripe is loaded, and nothing is in memory yet.
def Volume.ring (v : Volume) : Ring Empty Unit where
  start      := g.start
  stop       := g.stop
  writePos   := v.writePos
  generation := 0
  phase      := v.phase
  disk       := disk
  dirs       := nofun
  flushed    := []

def Volume.view (v : Volume) : View where
  storageErr := none
  closed     := false
  get key    := if (v.dirMgr.get H key).hit then some (v.dirMgr.get H key).dir else none
  dirValid   := Ring.dirValid (v.ring g disk)
  ram _      := none
  readAt off n := (disk.readAt off n).elim (.error .eof) .ok
  length_readAt {off n p} h := by
    cases hr : disk.readAt off n
    case none => simp [hr] at h
    case some q =>
      simp only [hr, Option.elim_some, Except.ok.injEq] at h
      exact h ▸ (File.readAt_eq_some.mp hr).1
  no_panic   := by
    refine ⟨nofun, fun off n h => ?_⟩
    cases hr : disk.readAt off n <;> simp [hr] at h

-- `io.Copy(io.Discard, r)` reads until there is an error. It returns nothing if it has run out of fuel,
-- and no error at the end of the object.
def CacheReader.discard (key : Bytes) (env : Nat → View) : Nat → CacheReader → Option (Option Err)
  | 0,        _ => none
  | fuel + 1, r => do
    match ← r.read H g.start g.stop key env 8192 with
    | (_, none, r)   => discard key env fuel r
    | (_, some e, _) => return if e = .eof then none else some e

-- The fragments of an object that can be read completely.
def recoverEntry (v : Volume) (key : Bytes) : Except Err (Option (List (Bytes × Dir))) :=
  let env := fun _ => v.view H g disk
  match CacheReader.loadHTTPInfo H g.start g.stop key env {} with
  | (.error _, _) => .ok none
  | (.ok _, r)    =>
    let fragments := max 1 ((r.totalLen + TargetFragmentSize - 1) / TargetFragmentSize)
    if fragments > v.dirMgr.fragmentsNum then .ok none
    else match r.discard H g key env (r.totalLen + 2) with
      | some none => do
        let dirs ← (List.range fragments).mapM fun idx =>
          let k := H.fragmentKey key idx
          let l := v.dirMgr.get H k
          if l.hit then .ok (k, l.dir) else .error (.other "checkpoint changed during recovery")
        return some dirs
      | _ => .ok none

-- The fragments and the entries of all such objects.
def recoverEntries (v : Volume) :
    List (Bytes × Bytes) → Except Err (List (Bytes × Dir) × List (Bytes × Bytes))
  | []           => .ok ([], [])
  | e :: entries => do
    let dirs ← recoverEntry H g disk v e.1
    let (recovered, valid) ← recoverEntries v entries
    match dirs with
    | none      => return (recovered, valid)
    | some dirs => return (dirs ++ recovered, e :: valid)

def installDirs (rand : Nat → Nat → Fin 10) (dm : DirManager) (recovered : List (Bytes × Dir)) :
    Except Err DirManager :=
  recovered.zipIdx.foldlM (fun dm ((k, d), i) =>
    match dm.set H k d.offset d.approxSize d.phase (rand i) with
    | .ok (_, dm) => .ok dm
    | .error _    => .error .panic) dm.initEmptyDirs

-- An error comes with the state that is left behind.
def loadCheckpoint (rand : Nat → Nat → Fin 10) (checkpoint : Option Bytes) (v : Volume) :
    Except (Err × Volume) Volume := do
  let (h, dirs, entries) ← (readCheckpoint H g disk checkpoint v).mapError (·, v)
  let index ← (v.index.restore entries).mapError (·, v)
  let v := { v with index }
  let dirMgr ← (v.dirMgr.unmarshalBinary dirs).mapError fun e => (.other e, v)
  let v := { v with dirMgr, writePos := h.writePos.toNat, phase := h.phase = 1 }
  let (recovered, valid) ← (recoverEntries H g disk v entries).mapError (·, v)
  let dirMgr ← (installDirs H rand v.dirMgr recovered).mapError (·, v)
  let v := { v with dirMgr }
  let index ← (v.index.restore valid).mapError (·, v)
  return { v with index }

-- Whatever has been loaded in vain is dropped again.
def Volume.reset (v : Volume) : Volume where
  dirMgr   := v.dirMgr.initEmptyDirs
  index    := (v.index.restore []).toOption.getD v.index
  writePos := g.start
  phase    := false

def Volume.load (rand : Nat → Nat → Fin 10) (checkpoint : Option Bytes) (v : Volume) : Option Err × Volume :=
  match loadCheckpoint H g disk rand checkpoint v with
  | .ok v         => (none, v)
  | .error (e, v) => (some e, v.reset g)

-- A stripe behind `Init`.
def Volume.cold : Volume :=
  let dirMgr := DirManager.init (g.len / 8192)
  { dirMgr
    index    := newDirTrie (some dirMgr.fragmentsNum)
    writePos := g.start
    phase    := false }

end Source

section Marker

theorem length_markerOf (session : BitVec 128) : (markerOf session).length = StripeHeaderSize := by
  simp [markerOf, StripeHeaderSize]

theorem markerOf_inj {n m : BitVec 128} (h : markerOf n = markerOf m) : n = m := by
  have h : Bytes.be 16 n.toNat = Bytes.be 16 m.toNat := List.append_cancel_left h
  have h := congrArg Bytes.ofBE h
  rw [Bytes.ofBE_be, Bytes.ofBE_be, Nat.mod_eq_of_lt (by simpa using n.isLt),
    Nat.mod_eq_of_lt (by simpa using m.isLt)] at h
  exact BitVec.eq_of_toNat_eq h

-- A marker has one session.
theorem session_unique {f : File} {off : Nat} {n m : BitVec 128} (hn : f.Holds off (markerOf n))
    (hm : f.Holds off (markerOf m)) : n = m :=
  markerOf_inj (hn.unique hm (by rw [length_markerOf, length_markerOf]))

theorem marker_eq {marker : Bytes} {session : BitVec 128} (hl : marker.length = StripeHeaderSize)
    (h : ¬(Bytes.ofBE (marker.slice 0 4) ≠ StripeHeaderMagic ∨
      Bytes.ofBE (marker.slice 4 4) ≠ StripeHeaderVer ∨ marker.drop 8 ≠ Bytes.be 16 session.toNat)) :
    marker = markerOf session := by
  simp only [not_or, not_not] at h
  obtain ⟨h₁, h₂, h₃⟩ := h
  have part (i : Nat) (hi : i + 4 ≤ StripeHeaderSize) :
      Bytes.be 4 (Bytes.ofBE (marker.slice i 4)) = marker.slice i 4 := by
    have hs : (marker.slice i 4).length = 4 := by
      rw [Bytes.length_slice]
      omega
    have h := Bytes.be_ofBE (l := marker.slice i 4)
    rwa [hs] at h
  rw [markerOf, ← h₁, ← h₂, ← h₃, part 0 (by decide), part 4 (by decide)]
  simp only [Bytes.slice, List.drop_zero, ← List.take_add, List.take_append_drop]

theorem parts_markerOf (session : BitVec 128) :
    ¬(Bytes.ofBE (Bytes.slice (markerOf session) 0 4) ≠ StripeHeaderMagic ∨
      Bytes.ofBE (Bytes.slice (markerOf session) 4 4) ≠ StripeHeaderVer ∨
      (markerOf session).drop 8 ≠ Bytes.be 16 session.toNat) := by
  have h₁ : Bytes.slice (markerOf session) 0 4 = Bytes.be 4 StripeHeaderMagic := by
    simp [markerOf, Bytes.slice]
  have h₂ : Bytes.slice (markerOf session) 4 4 = Bytes.be 4 StripeHeaderVer := by
    simp [markerOf, Bytes.slice]
  have h₃ : (markerOf session).drop 8 = Bytes.be 16 session.toNat := List.drop_left' (by simp)
  rw [h₁, h₂, h₃, Bytes.ofBE_be, Bytes.ofBE_be]
  simp [StripeHeaderMagic, StripeHeaderVer]

end Marker

section Load

variable {H : Hash} {g : Geometry} {disk : File} {v v' : Volume} {dm' : DirManager} {checkpoint : Option Bytes}
  {rand : Nat → Nat → Fin 10} {session : BitVec 128} {clean : Bool} {data : Bytes}

-- What is known about a checkpoint that is loaded.
theorem of_readCheckpoint {h : CheckpointHeader} {dirs : Bytes} {entries : List (Bytes × Bytes)}
    (hr : readCheckpoint H g disk checkpoint v = .ok (h, dirs, entries)) :
    ∃ data, checkpoint = some data ∧ h = .unmarshal data ∧ h.Trusted g v ∧
      disk.Holds g.skip (markerOf h.session) := by
  cases checkpoint
  case none => cases hr
  case some data =>
    cases hm : disk.readAt g.skip StripeHeaderSize
    case none =>
      simp only [readCheckpoint, hm, Except.check_bind_eq_ok] at hr
      cases hr.2
    case some marker =>
      simp only [readCheckpoint, hm, Except.check_bind_eq_ok, Except.bind_eq_ok] at hr
      obtain ⟨_, hmark, ht, _, _, x, _, _, he⟩ := hr
      cases he
      have ⟨hl, hh⟩ := File.readAt_eq_some.mp hm
      exact ⟨data, rfl, rfl, not_not.mp ht, marker_eq hl hmark ▸ hh⟩

theorem of_encodeCheckpoint (h : encodeCheckpoint H g v session clean = .ok data) :
    (CheckpointHeader.unmarshal data).session = session ∧
    ((CheckpointHeader.unmarshal data).clean = 1 → clean = true) := by
  simp only [encodeCheckpoint, Except.bind_eq_ok] at h
  obtain ⟨mapping, _, h⟩ := h
  cases h
  rw [List.append_assoc, CheckpointHeader.unmarshal_marshal]
  refine ⟨rfl, fun hc => ?_⟩
  cases clean
  case true => rfl
  case false => simp at hc

theorem DirManager.geometry_unmarshalBinary {dm : DirManager} {data : Bytes}
    (h : dm.unmarshalBinary data = .ok dm') :
    dm'.bucketsNumPerSegment = dm.bucketsNumPerSegment ∧ dm'.segmentsNum = dm.segmentsNum := by
  simp only [DirManager.unmarshalBinary, Except.check_bind_eq_ok, Except.bind_eq_ok] at h
  obtain ⟨_, segments, hm, h⟩ := h
  cases h
  refine ⟨rfl, ?_⟩
  rw [DirManager.segmentsNum, Except.length_mapM hm, List.length_range]

theorem DirManager.geometry_set {dm : DirManager} {key : Bytes} {off size i : Nat} {phase : Bool}
    {rand : Nat → Fin 10} (h : dm.set H key off size phase rand = .ok (i, dm')) :
    dm'.bucketsNumPerSegment = dm.bucketsNumPerSegment ∧ dm'.segmentsNum = dm.segmentsNum := by
  simp only [DirManager.set] at h
  split at h
  case h_1 =>
    simp only [Except.bind_eq_ok] at h
    obtain ⟨_, _, _, _, h⟩ := h
    cases h
    exact geometry_setSegment ..
  case h_2 => cases h

theorem geometry_installDirs {dm : DirManager} {recovered : List (Bytes × Dir)}
    (h : installDirs H rand dm recovered = .ok dm') :
    dm'.bucketsNumPerSegment = dm.bucketsNumPerSegment ∧ dm'.segmentsNum = dm.segmentsNum := by
  refine Except.foldlM_invariant (fun dm' => dm'.bucketsNumPerSegment = dm.bucketsNumPerSegment ∧
    dm'.segmentsNum = dm.segmentsNum) ?_ ⟨rfl, ?_⟩ h
  case refine_1 =>
    rintro ⟨⟨k, d⟩, i⟩ dm₁ dm₂ ⟨hb, hn⟩ hs
    simp only at hs
    split at hs
    case h_1 he =>
      cases hs
      have ⟨hb', hn'⟩ := DirManager.geometry_set he
      exact ⟨hb'.trans hb, hn'.trans hn⟩
    case h_2 => cases hs
  case refine_2 => simp [DirManager.initEmptyDirs, DirManager.segmentsNum]

-- A volume with the directory and the index of a stripe.
structure Volume.Shaped (g : Geometry) (v : Volume) : Prop where
  buckets  : v.dirMgr.bucketsNumPerSegment = (Volume.cold g).dirMgr.bucketsNumPerSegment
  segments : v.dirMgr.segmentsNum = (Volume.cold g).dirMgr.segmentsNum
  capacity : v.index.capacity = (Volume.cold g).index.capacity

namespace Volume.Shaped

theorem cold (g : Geometry) : (Volume.cold g).Shaped g := ⟨rfl, rfl, rfl⟩

theorem restore {entries : List (Bytes × Bytes)} {index : DirTrie} (h : v.Shaped g)
    (hr : v.index.restore entries = .ok index) : Shaped g { v with index } := by
  simp only [DirTrie.restore, Except.bind_eq_ok] at hr
  obtain ⟨_, _, hr⟩ := hr
  cases hr
  exact ⟨h.buckets, h.segments, h.capacity⟩

theorem dirMgr {dirMgr : DirManager} {writePos : Nat} {phase : Bool} (h : v.Shaped g)
    (hb : dirMgr.bucketsNumPerSegment = v.dirMgr.bucketsNumPerSegment)
    (hn : dirMgr.segmentsNum = v.dirMgr.segmentsNum) :
    Shaped g { v with dirMgr, writePos, phase } :=
  ⟨hb.trans h.buckets, hn.trans h.segments, h.capacity⟩

-- Nothing is left of what has been loaded.
theorem reset (h : v.Shaped g) : v.reset g = Volume.cold g := by
  have hd : v.dirMgr.initEmptyDirs = (Volume.cold g).dirMgr := by
    have hs : v.dirMgr.segments.length = (Volume.cold g).dirMgr.segments.length := h.segments
    simp only [DirManager.initEmptyDirs, h.buckets, List.map_const', hs]
    simp [Volume.cold, DirManager.init]
  have hi : (v.index.restore []).toOption.getD v.index = (Volume.cold g).index := by
    have he : v.index.restore [] = .ok { capacity := v.index.capacity } := rfl
    rw [he, h.capacity]
    rfl
  rw [Volume.reset, hd, hi]
  rfl

-- The state that is left behind is that of a stripe.
theorem of_error {e : Err} (h : v.Shaped g)
    (hl : loadCheckpoint H g disk rand checkpoint v = .error (e, v')) :
    v'.Shaped g := by
  simp only [loadCheckpoint, Except.bind_eq_error, Except.mapError_eq_error, Except.mapError_eq_ok] at hl
  -- The steps which may fail, in the order of the source.
  obtain ⟨_, _, he⟩ | ⟨⟨header, dirs, entries⟩, _, hl⟩ := hl
  case inl =>
    cases he
    exact h
  obtain ⟨_, _, he⟩ | ⟨index, hi, hl⟩ := hl
  case inl =>
    cases he
    exact h
  have h₁ := h.restore hi
  obtain ⟨_, _, he⟩ | ⟨dm₁, hm, hl⟩ := hl
  case inl =>
    cases he
    exact h₁
  have ⟨hb, hn⟩ := DirManager.geometry_unmarshalBinary hm
  have h₂ : Shaped g ⟨dm₁, index, header.writePos.toNat, header.phase = 1⟩ := h₁.dirMgr hb hn
  obtain ⟨_, _, he⟩ | ⟨⟨recovered, valid⟩, _, hl⟩ := hl
  case inl =>
    cases he
    exact h₂
  obtain ⟨_, _, he⟩ | ⟨dm₂, hs, hl⟩ := hl
  case inl =>
    cases he
    exact h₂
  have ⟨hb, hn⟩ := geometry_installDirs hs
  obtain ⟨_, _, he⟩ | ⟨_, _, hl⟩ := hl
  case inl =>
    cases he
    exact h₂.dirMgr hb hn
  cases hl

end Volume.Shaped

section Encoded

-- A directory is smaller than the stripe.
theorem binarySize_cold (hl : 32768 ≤ g.len) : (Volume.cold g).dirMgr.binarySize ≤ g.len := by
  have hb : 0 < g.len / 8192 / 4 := by omega
  have hseg : (g.len / 8192 / 4 + 16384 - 1) / 16384 ≤ g.len / 8192 / 4 := by omega
  have hmul : (g.len / 8192 / 4 + (g.len / 8192 / 4 + 16384 - 1) / 16384 - 1) /
      ((g.len / 8192 / 4 + 16384 - 1) / 16384) * ((g.len / 8192 / 4 + 16384 - 1) / 16384) ≤
      g.len / 8192 / 4 + (g.len / 8192 / 4 + 16384 - 1) / 16384 - 1 := Nat.div_mul_le_self ..
  simp only [Volume.cold, DirManager.init, DirManager.binarySize, DirManager.segmentsNum,
    List.length_replicate, Segment.binarySize, DirDepth, MaxBucketsPerSegment, Dir.size]
  generalize (g.len / 8192 / 4 + 16384 - 1) / 16384 = segments at *
  generalize (g.len / 8192 / 4 + segments - 1) / segments = buckets at *
  have : segments * (buckets * 4 * 10 + 2) = 40 * (buckets * segments) + 2 * segments := by ring
  omega

theorem Volume.Shaped.binarySize (h : v.Shaped g) :
    v.dirMgr.binarySize = (Volume.cold g).dirMgr.binarySize := by
  rw [DirManager.binarySize, DirManager.binarySize, h.buckets, h.segments]

theorem DirTrie.mem_snapshot {t : DirTrie} {e : Bytes × Bytes} :
    e ∈ t.snapshot ↔ t.lookup e.1 = some e.2 := by
  have hp : t.snapshot.Perm (t.entries.entries.map fun e => (e.1, e.2)) := List.mergeSort_perm ..
  rw [hp.mem_iff, List.mem_map]
  constructor
  case mp =>
    rintro ⟨x, hx, rfl⟩
    exact AList.mem_lookup_iff.mpr hx
  case mpr => exact fun h => ⟨⟨e.1, e.2⟩, AList.mem_lookup_iff.mp h, rfl⟩

theorem DirTrie.length_snapshot {t : DirTrie} : t.snapshot.length = t.entries.keys.length := by
  simp [snapshot, AList.keys, List.keys]

-- A stripe whose state can be saved.
structure Volume.Regular (g : Geometry) (v : Volume) : Prop extends v.Shaped g where
  len      : 32768 ≤ g.len
  stop     : g.stop < 2 ^ 63
  shape    : v.dirMgr.Shape
  chained  : v.dirMgr.Chained
  index    : v.index.Exact
  writePos : g.start ≤ v.writePos ∧ v.writePos ≤ g.stop

theorem Volume.Regular.cold (hl : 32768 ≤ g.len) (hs : g.stop < 2 ^ 63) (h : g.start ≤ g.stop) :
    (Volume.cold g).Regular g where
  toShaped := .cold g
  len      := hl
  stop     := hs
  shape    := DirManager.shape_init (by omega)
  chained  := DirManager.chained_init (by omega)
  index    := DirTrie.exact_new _
  writePos := ⟨le_refl _, h⟩

-- The limits of a checkpoint are not below those of the index.
theorem Volume.Regular.exists_encodeCheckpoint (h : v.Regular g) (H : Hash) (session : BitVec 128) :
    ∃ data, encodeCheckpoint H g v session true = .ok data := by
  have hp : v.index.snapshot.Perm (v.index.entries.entries.map DirTrie.pair) := List.mergeSort_perm ..
  have hlen (l : List (Sigma fun _ : Bytes => Bytes)) :
      ((l.map DirTrie.pair).flatMap encodeEntry).length = (l.map DirTrie.size).sum + 8 * l.length := by
    induction l
    case nil => rfl
    case cons e l hi =>
      simp only [List.map_cons, List.flatMap_cons, List.length_append, hi, encodeEntry, DirTrie.pair,
        DirTrie.size, Bytes.length_be, List.sum_cons, List.length_cons]
      ring
  have hcount : v.index.entries.keys.length ≤ MaxIndexEntries := h.index.count.trans h.index.capacity
  have hkeys : v.index.entries.keys.length = v.index.entries.entries.length := List.length_map ..
  have hm : encodeMapping v.index.snapshot = .ok (v.index.snapshot.flatMap encodeEntry) := by
    refine encodeMapping_eq_ok.mpr ⟨fun e he => ?_, ?_, rfl, ?_⟩
    case refine_1 =>
      have hacc := h.index.accepted ⟨e.1, e.2⟩ (AList.mem_lookup_iff.mp (DirTrie.mem_snapshot.mp he))
      obtain ⟨_, _, hk, hs⟩ := DirTrie.validateIdentity_eq_ok.mp hacc
      exact ⟨hk, hs⟩
    case refine_2 =>
      rw [DirTrie.length_snapshot]
      exact hcount
    case refine_3 =>
      rw [(hp.flatMap_right encodeEntry).length_eq, hlen, ← h.index.sum, MaxMapBytes]
      have := h.index.bytes
      omega
  simp only [encodeCheckpoint, if_true, hm, bind, Except.bind]
  exact ⟨_, rfl⟩

theorem Volume.Regular.snapshot_le (h : v.Regular g) :
    v.index.snapshot.length ≤ min (Volume.cold g).dirMgr.fragmentsNum MaxIndexEntries := by
  rw [DirTrie.length_snapshot]
  refine h.index.count.trans (h.capacity.le.trans ?_)
  simp only [Volume.cold, newDirTrie, DirTrie.new]
  split <;> omega

-- The checkpoint of the session in the marker is read back.
theorem readCheckpoint_encode (h : v.Regular g) (hm : disk.Holds g.skip (markerOf session))
    (he : encodeCheckpoint H g v session true = .ok data) :
    ∃ header, header.writePos.toNat = v.writePos ∧ decide (header.phase = 1) = v.phase ∧
      readCheckpoint H g disk (some data) (Volume.cold g) =
        .ok (header, v.dirMgr.marshalBinary, v.index.snapshot) := by
  simp only [encodeCheckpoint, Except.bind_eq_ok, if_true] at he
  obtain ⟨mapping, hmap, he⟩ := he
  have ⟨hkeys, hcount, hmapping, hbytes⟩ := encodeMapping_eq_ok.mp hmap
  have hdirs : v.dirMgr.marshalBinary.length = (Volume.cold g).dirMgr.binarySize :=
    (DirManager.length_marshalBinary h.shape).trans h.binarySize
  have hsize := binarySize_cold h.len
  have hstop := h.stop
  have hlen : g.len ≤ g.stop := Nat.le_add_left ..
  have ⟨hw₁, hw₂⟩ := h.writePos
  have hnum (n : Nat) (hn : n < 2 ^ 63) : (UInt64.ofNat n).toNat = n := by
    rw [UInt64.toNat_ofNat']
    omega
  have hnum' (n : Nat) (hn : n ≤ MaxIndexEntries) : (UInt32.ofNat n).toNat = n := by
    rw [UInt32.toNat_ofNat']
    exact Nat.mod_eq_of_lt (hn.trans_lt (by decide))
  have hmap' : mapping.length < 2 ^ 63 := hbytes.trans_lt (by decide)
  let header : CheckpointHeader :=
    { magic    := checkpointMagic
      version  := checkpointVersion
      clean    := 1
      skip     := .ofNat g.skip
      length   := .ofNat g.len
      start    := .ofNat g.start
      writePos := .ofNat v.writePos
      phase    := if v.phase then 1 else 0
      dirBytes := .ofNat v.dirMgr.marshalBinary.length
      entries  := .ofNat v.index.snapshot.length
      mapBytes := .ofNat mapping.length
      session }
  have ⟨checksum, hsum, hd⟩ : ∃ checksum : UInt32,
      H.crc32 (header.marshal ++ (v.dirMgr.marshalBinary ++ mapping)) = checksum.toBitVec ∧
      data = { header with checksum }.marshal ++ (v.dirMgr.marshalBinary ++ mapping) := by
    refine ⟨.ofBitVec (H.crc32 (header.marshal ++ v.dirMgr.marshalBinary ++ mapping)), ?_, ?_⟩
    case refine_1 => rw [List.append_assoc]
    case refine_2 =>
      rw [← List.append_assoc]
      exact (Except.ok.inj he).symm
  have hu : CheckpointHeader.unmarshal data = { header with checksum } := by
    rw [hd, CheckpointHeader.unmarshal_marshal]
  have hw : header.writePos.toNat = v.writePos := hnum _ (by omega)
  have hb : header.dirBytes.toNat = v.dirMgr.marshalBinary.length := hnum _ (by omega)
  have hn : header.entries.toNat = v.index.snapshot.length := hnum' _ hcount
  have hl : header.mapBytes.toNat = mapping.length := hnum _ hmap'
  refine ⟨{ header with checksum }, hw, ?_, ?_⟩
  case refine_1 =>
    show decide ((if v.phase then (1 : UInt32) else 0) = 1) = v.phase
    cases v.phase <;> rfl
  have htrust : CheckpointHeader.Trusted g { header with checksum } (Volume.cold g) := by
    refine ⟨rfl, rfl, rfl, hnum _ ?_, hnum _ ?_, hnum _ ?_, hw.symm ▸ hw₁, hw.symm ▸ hw₂, ?_,
      hb.trans hdirs, hn.symm ▸ h.snapshot_le, hl.symm ▸ hbytes⟩
    case refine_1 =>
      simp only [Geometry.stop] at hstop
      omega
    case refine_2 => omega
    case refine_3 => omega
    case refine_4 =>
      show (if v.phase then (1 : UInt32) else 0) ≤ 1
      cases v.phase <;> decide
  have hsz : { header with checksum }.marshal.length = CheckpointHeader.size :=
    CheckpointHeader.length_marshal _
  have hlen : data.length = CheckpointHeader.size + header.dirBytes.toNat + header.mapBytes.toNat := by
    rw [hd, List.length_append, List.length_append, hsz, hb, hl, Nat.add_assoc]
  have hcleared : H.crc32 (data.take (CheckpointHeader.size - 4) ++ .replicate 4 0 ++
      data.drop CheckpointHeader.size) = checksum.toBitVec := by
    rw [hd, CheckpointHeader.marshal_cleared]
    exact hsum
  have hdrop : data.drop CheckpointHeader.size = v.dirMgr.marshalBinary ++ mapping := by
    rw [hd]
    exact List.drop_left' hsz
  have hslice : data.slice CheckpointHeader.size header.dirBytes.toNat = v.dirMgr.marshalBinary := by
    rw [Bytes.slice, hdrop]
    exact List.take_left' hb.symm
  have hrest : data.drop (CheckpointHeader.size + header.dirBytes.toNat) = mapping := by
    rw [← List.drop_drop, hdrop]
    exact List.drop_left' hb.symm
  have hdecode : decodeMapping header.entries.toNat mapping = .ok (v.index.snapshot, []) := by
    rw [hn, hmapping, ← List.append_nil (v.index.snapshot.flatMap encodeEntry)]
    refine decodeMapping_flatMap (fun e he => ⟨?_, hkeys e he⟩) []
    have hacc := h.index.accepted ⟨e.1, e.2⟩ (AList.mem_lookup_iff.mp (DirTrie.mem_snapshot.mp he))
    exact (DirTrie.validateIdentity_eq_ok.mp hacc).1
  have hread : disk.readAt g.skip StripeHeaderSize = some (markerOf session) := by
    rw [← length_markerOf session]
    exact hm.readAt
  simp only [readCheckpoint, hread, hu, Except.check_bind_eq_ok, Except.bind_eq_ok]
  refine ⟨?_, ?_, not_not.mpr htrust, not_not.mpr hlen, not_not.mpr hcleared, ⟨v.index.snapshot, []⟩,
    ?_, ?_, ?_⟩
  case refine_1 =>
    rw [hlen, not_lt, Nat.add_assoc]
    exact Nat.le_add_right ..
  case refine_2 => exact parts_markerOf session
  case refine_3 => rw [hrest, hdecode]
  case refine_4 => exact not_not.mpr rfl
  case refine_5 => rw [hslice]; rfl

-- The directory as it is written, without the identities.
def DirManager.forget (dm : DirManager) : DirManager := { dm with segments := dm.segments.map Segment.forget }

-- What is loaded, before the objects are checked.
theorem loadCheckpoint_encode (rand : Nat → Nat → Fin 10) (h : v.Regular g) (hm : disk.Holds g.skip (markerOf session))
    (he : encodeCheckpoint H g v session true = .ok data) :
    ∃ index, index.Exact ∧ index.Same v.index ∧
      ∀ u, u = { v with dirMgr := v.dirMgr.forget, index } →
        loadCheckpoint H g disk rand (some data) (Volume.cold g) = do
          let (recovered, valid) ← (recoverEntries H g disk u v.index.snapshot).mapError (·, u)
          let dirMgr ← (installDirs H rand u.dirMgr recovered).mapError (·, u)
          let index ← (u.index.restore valid).mapError (·, { u with dirMgr })
          return { u with dirMgr, index } := by
  have ⟨header, hw, hp, hr⟩ := readCheckpoint_encode h hm he
  have ⟨index, hi, hsame⟩ := h.index.restore_snapshot
  have hi' : (Volume.cold g).index.restore v.index.snapshot = .ok index := by
    have hv : (Volume.cold g).index.Valid := DirTrie.valid_new _
    rw [← hi, DirTrie.restore_eq_replacement h.index.toValid, DirTrie.restore_eq_replacement hv, h.capacity]
  have hd : (Volume.cold g).dirMgr.unmarshalBinary v.dirMgr.marshalBinary = .ok v.dirMgr.forget :=
    DirManager.unmarshalBinary_marshalBinary h.shape ((DirManager.valid_iff h.shape).mpr h.chained)
      h.buckets.symm h.segments.symm
  refine ⟨index, h.index.restore hi, hsame, fun u hu => ?_⟩
  subst hu
  simp only [loadCheckpoint, hr, hi', hd, hw, hp, Except.mapError, bind, Except.bind]

end Encoded

-- A checkpoint is loaded in the session it was saved in, or the stripe is as new.
theorem load_cases {e : Option Err} {v : Volume}
    (h : (Volume.cold g).load H g disk rand checkpoint = (e, v)) :
    e = none ∧ (∃ data, checkpoint = some data ∧ (CheckpointHeader.unmarshal data).clean = 1 ∧
      disk.Holds g.skip (markerOf (CheckpointHeader.unmarshal data).session)) ∨
    e ≠ none ∧ v = Volume.cold g := by
  unfold Volume.load at h
  split at h
  case h_1 hl =>
    cases h
    simp only [loadCheckpoint, Except.bind_eq_ok, Except.mapError_eq_ok] at hl
    obtain ⟨⟨header, dirs, entries⟩, hr, _⟩ := hl
    have ⟨data, hc, hh, ht, hm⟩ := of_readCheckpoint hr
    exact .inl ⟨rfl, data, hc, hh ▸ ht.2.2.1, hh ▸ hm⟩
  case h_2 hl =>
    cases h
    exact .inr ⟨nofun, ((Volume.Shaped.cold g).of_error hl).reset⟩

end Load
end Bakemono
