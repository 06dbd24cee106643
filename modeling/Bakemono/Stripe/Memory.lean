import Bakemono.Read.Object
import Bakemono.Stripe.Effect
import Bakemono.Write.Document

namespace Bakemono

@[simp] theorem RamEntry.data_new (p : Bytes) : (RamEntry.new p).data = p := by
  simp only [new]
  split_ifs
  case pos => rfl
  case pos => rfl
  case neg =>
    split
    case h_1 => rfl
    case h_2 => split_ifs <;> rfl

-- A reader sees the stripe through its lock.
structure View.Shows (v : View) (s : Stripe) : Prop where
  storageErr : v.storageErr.isSome = s.ring.storageErr
  closed     : v.closed = (s.closing || s.ring.closed)
  get        : ∀ k, v.get k = (s.dirs k).map Entry.dir
  dirValid   : ∀ d, v.dirValid d = s.ring.dirValid d
  ram        : v.ram = s.ram
  disk       : ∀ off n p, s.ring.disk.readAt off n = some p → v.readAt off n = .ok p

-- What a reader sees of a stripe.
def Stripe.view (s : Stripe) : View where
  storageErr := if s.ring.storageErr then some .cacheClosed else none
  closed     := s.closing || s.ring.closed
  get k      := (s.dirs k).map Entry.dir
  dirValid   := s.ring.dirValid
  ram        := s.ram
  readAt off n :=
    match s.ring.disk.readAt off n with
    | some p => .ok p
    | none   => .error .eof
  length_readAt := by
    intro off n p h
    cases hr : s.ring.disk.readAt off n
    case none => simp [hr] at h
    case some q =>
      simp only [hr, Except.ok.injEq] at h
      exact h ▸ (File.readAt_eq_some.mp hr).1
  no_panic := by
    refine ⟨by split <;> simp, fun off n => ?_⟩
    cases s.ring.disk.readAt off n <;> simp

theorem Stripe.shows_view (s : Stripe) : s.view.Shows s where
  storageErr := by
    simp only [Stripe.view]
    cases s.ring.storageErr <;> rfl
  closed         := rfl
  get _          := rfl
  dirValid _     := rfl
  ram            := rfl
  disk off n p h := by simp only [Stripe.view, h]

-- The same without memory.
def View.cold (v : View) : View := { v with ram := fun _ => none }

namespace CacheReader

variable {H : Hash} {start stop index : Nat} {key p : Bytes} {v v' : View} {d : Dir} {r r' : CacheReader}

theorem parseDoc_ram {k : Bytes} {x : Option RamEntry} :
    parseDoc H start stop k key { r with ram := x } =
      (fun r => { r with ram := x }) <$> parseDoc H start stop k key r := by
  simp only [parseDoc, map_bind, apply_ite (Functor.map _)]
  rfl

-- The part of `handleRead` which does not depend on the memory and the disk.
def locate (start stop : Nat) (v : View) (key : Bytes) (index : Nat) : Except Err Dir := do
  if let some e := v.storageErr then throw e
  if v.closed then throw .cacheClosed
  let some d := v.get key | throw (.notResident s!"fragment {index} missing")
  if d.offset < start ∨ d.offset ≥ stop then
    throw (.other "invalid fragment directory offset")
  if ¬v.dirValid d then throw (.notResident s!"fragment {index} overwritten")
  return d

def fetch (stop : Nat) (v : View) (key : Bytes) (d : Dir) :
    Except Err (Dir × Bytes × Option RamEntry) :=
  match v.ram key with
  | some e => .ok (d, e.data, some e)
  | none   => (d, ·, none) <$> loadFromDisk stop v d

theorem handleRead_eq : handleRead start stop v key index =
    locate start stop v key index >>= fetch stop v key := by
  simp only [handleRead, locate]
  cases v.storageErr
  case some => rfl
  case none =>
    cases v.closed
    case true => rfl
    case false =>
      cases v.get key
      case none => rfl
      case some d =>
        by_cases h : d.offset < start ∨ d.offset ≥ stop
        case pos => simp [h]; rfl
        case neg =>
          cases hd : v.dirValid d
          case false => simp [h, hd]; rfl
          case true =>
            simp only [h, hd, fetch, pure_bind, not_true, if_false, Bool.false_eq_true]
            cases v.ram key <;> rfl

theorem locate_eq_ok : locate start stop v key index = .ok d ↔
    v.storageErr = none ∧ v.closed = false ∧ v.get key = some d ∧
    (start ≤ d.offset ∧ d.offset < stop) ∧ v.dirValid d = true := by
  cases hs : v.storageErr
  case some => simp [locate, hs, throw, throwThe, MonadExceptOf.throw, bind, Except.bind]
  case none =>
    cases hc : v.closed
    case true => simp [locate, hs, hc, throw, throwThe, MonadExceptOf.throw, bind, Except.bind]
    case false =>
      cases hg : v.get key
      case none => simp [locate, hs, hc, hg]
      case some d' =>
        simp only [locate, hs, hc, hg, Bool.false_eq_true, if_false, Except.check_bind_eq_ok, not_or,
          not_not, not_lt, ge_iff_le, not_le, true_and, Option.some.injEq]
        constructor
        case mp =>
          intro ⟨hb, hv, he⟩
          cases he
          exact ⟨rfl, hb, hv⟩
        case mpr =>
          intro ⟨he, hb, hv⟩
          cases he
          exact ⟨hb, hv, rfl⟩

theorem get_of_locate (h : locate start stop v key index = .ok d) : v.get key = some d :=
  (locate_eq_ok.mp h).2.2.1

-- Nothing is cut off from a document.
theorem buf_parseDoc {k : Bytes} (h : parseDoc H start stop k key r = .ok r')
    (hl : r.buf.length = (header r.buf).len.toNat) : r'.buf = r.buf ∧ r'.ram = r.ram := by
  simp only [parseDoc, Except.bind_eq_ok, parseDocFromBuf_eq_ok, Except.check_bind_eq_ok] at h
  obtain ⟨doc, ⟨_, hd⟩, _, _, _, _, _, _, _, buf, hb, he⟩ := h
  rw [hd, ← hl, trim_eq le_rfl, List.take_length] at hb
  cases he
  exact ⟨(Except.ok.inj hb).symm, rfl⟩

theorem fst_loadHTTPInfo : (loadHTTPInfo H start stop key (fun _ => v) {}).1 =
    handleRead start stop v key 0 >>= fun (d, p, x) =>
      parseDoc H start stop key key { loads := 1, dir := d, buf := p, ram := x } >>= parseInfo := by
  have hl : load H start stop key v 0 {} = handleRead start stop v key 0 >>= fun (d, p, x) =>
      parseDoc H start stop key key { loads := 1, dir := d, buf := p, ram := x } := by
    simp only [load, Hash.fragmentKey, if_true]
  have hb : (loadHTTPInfo H start stop key (fun _ => v) {}).1 =
      load H start stop key v 0 {} >>= parseInfo := by
    simp only [loadHTTPInfo]
    cases load H start stop key v 0 {}
    case error => rfl
    case ok r =>
      simp only [bind, Except.bind]
      cases r.parseInfo <;> rfl
  rw [hb, hl, bind_assoc]

-- The metadata is the same whether a document comes from memory or from the disk.
theorem loadHTTPInfo_eq (hl : p.length = (header p).len.toNat)
    (h : handleRead start stop v key 0 = .ok (d, p, some (.new p)))
    (h' : handleRead start stop v' key 0 = .ok (d, p, none)) :
    (loadHTTPInfo H start stop key (fun _ => v) {}).1 =
      (loadHTTPInfo H start stop key (fun _ => v') {}).1 := by
  let r : CacheReader := { loads := 1, dir := d, buf := p }
  have hm : parseDoc H start stop key key { r with ram := some (.new p) } = _ := parseDoc_ram
  rw [fst_loadHTTPInfo, fst_loadHTTPInfo, h, h']
  refine (congrArg (· >>= parseInfo) hm).trans ?_
  show _ = parseDoc H start stop key key r >>= parseInfo
  cases hr : parseDoc H start stop key key r
  case error => rfl
  case ok r' =>
    have ⟨hb, hx⟩ := buf_parseDoc hr hl
    have ⟨_, hloads⟩ := parseDoc_eq_ok (v := v') (r := r) hr fun q hq => ⟨d, p, none, h', hq⟩
    have hf := hloads.fragment
    rw [hb] at hf
    have h₁ : { r' with ram := some (.new p) }.parseInfo = infoOf p :=
      hf.parseInfo hb fun e he => (Option.some.inj he).symm
    have h₂ : r'.parseInfo = infoOf p := hf.parseInfo hb fun e he => by simp [hx, r] at he
    exact h₁.trans h₂.symm

-- A document which stands on the disk at the place of its entry can be loaded.
theorem loadFromDisk_eq {f : File} (hv : ∀ off n p, f.readAt off n = some p → v.readAt off n = .ok p)
    (hf : Stripe.Formed H p) (hd : f.Holds d.offset p) (ha : p.length ≤ d.approxSize)
    (hs : d.offset + p.length ≤ stop) : loadFromDisk stop v d = .ok p := by
  have ⟨_, hfit, _⟩ := Doc.validate_eq_ok.mp hf.valid
  have hh : DocHeaderSize ≤ p.length := by
    have := hfit.hlen
    have := hf.length
    omega
  have h₁ : v.readAt d.offset DocHeaderSize = .ok (p.take DocHeaderSize) := by
    apply hv
    rw [File.readAt_eq_some]
    exact ⟨by simp [hh], hd.take _⟩
  have h₂ : v.readAt d.offset p.length = .ok p := hv _ _ _ hd.readAt
  have hlen : (Doc.unmarshal (p.take DocHeaderSize)).len.toNat = p.length := hf.length.symm
  have hmax : p.length ≤ AggBufferSize := hf.length.trans_le hfit.max
  simp only [loadFromDisk, h₁, bind, Except.bind, hlen]
  rw [if_neg (by omega)]
  exact h₂

end CacheReader

namespace Stripe

variable {H : Hash} {s s' s₀ : Stripe} {e : Event}

theorem Formed.bounds {p : Bytes} (h : Formed H p) :
    DocHeaderSize ≤ p.length ∧ p.length ≤ AggBufferSize := by
  have ⟨_, hf, _⟩ := Doc.validate_eq_ok.mp h.valid
  rw [h.length]
  exact ⟨(Nat.le_add_left ..).trans hf.hlen, hf.max⟩

-- The entry leads to a document which fits into the stripe.
structure Leads (H : Hash) (s : Stripe) (x : Entry (Record × Mark)) : Prop where
  formed : Formed H x.mark.1.data
  size   : x.mark.1.data.length ≤ x.dir.approxSize
  stop   : x.dir.offset + x.mark.1.data.length ≤ s.ring.stop

-- The memory agrees with the directory.
structure Agrees (H : Hash) (s : Stripe) : Prop where
  ram    : ∀ k x m, s.dirs k = some x → s.ram k = some m → m = .new x.mark.1.data
  leads  : ∀ k x, s.dirs k = some x → s.Leads H x
  copies : ∀ v ∈ s.evacuations, Formed H v.data

-- A stripe that has just been opened.
structure Fresh (H : Hash) (s : Stripe) : Prop where
  ram         : ∀ k, s.ram k = none
  evacuations : s.evacuations = []
  leads       : ∀ k x, s.dirs k = some x → s.Leads H x

theorem Fresh.agrees (h : s.Fresh H) : s.Agrees H where
  ram k _ _ _ hm := by simp [h.ram k] at hm
  leads          := h.leads
  copies         := by simp [h.evacuations]

theorem Leads.relink {x : Entry (Record × Mark)} (h : s.Leads H x) (hs : s'.ring.stop = s.ring.stop)
    (next : BitVec 16) : s'.Leads H (x.relink next) :=
  ⟨h.formed, h.size, hs ▸ h.stop⟩

theorem Places.leads {r : Record} {size : Nat} {d : Dir} {m : Mark} (h : s.Places r size d)
    (hs : size = r.data.length ∨ size = sectors r.data.length) (hf : Formed H r.data) :
    s.Leads H ⟨d, r, m⟩ := by
  obtain ⟨tag, d', next, ht, hm, hd⟩ := h.dir
  obtain ⟨_, _, hstop, _⟩ := Ring.allocationValid_iff.mp h.allocation
  obtain ⟨hlo, hhi⟩ := hf.bounds
  obtain ⟨h₁, h₂⟩ : r.data.length ≤ size ∧ size < r.data.length + SectorSize := by
    cases hs
    case inl hs => simp [hs, SectorSize]
    case inr hs => exact hs ▸ Ring.sectors_bounds
  have hle : size ≤ DirMaxDataSize := by
    simp only [AggBufferSize, SectorSize] at hhi h₂
    simp only [DirMaxDataSize]
    omega
  have hpos : 0 < size := by
    simp only [DocHeaderSize] at hlo
    omega
  obtain ⟨d'', he, hd''⟩ : ∃ d'', Dir.make r.offset size tag (odd r.generation) = some d'' ∧ _ :=
    Dir.make_eq hpos hle ht
  cases hm.symm.trans he
  refine ⟨hf, ?_, ?_⟩
  case refine_1 => exact h₁.trans (hd ▸ hd''.size)
  case refine_2 =>
    have : d.offset = r.offset % 2 ^ 40 := hd ▸ hd''.offset
    have := Nat.mod_le r.offset (2 ^ 40)
    have hr : r.offset = r.allocation.offset := rfl
    show d.offset + r.data.length ≤ _
    omega

theorem Agrees.effect (h : s.Agrees H) (he : Effect H s e s') : s'.Agrees H := by
  have hs := he.bounds.2
  have hc : ∀ v ∈ s'.evacuations, Formed H v.data := fun v hv =>
    (he.copies hv).elim (h.copies v) fun ⟨_, hx⟩ => hx.formed
  obtain ⟨k₀, d, r, m₀, fate, kept, size, hp, hsize, hf, hd, hr⟩ | ⟨hb, hr⟩ := he.put_or_below
  case inl =>
    have hf : Formed H r.data := hf.elim id fun ⟨v, hv, he⟩ => he ▸ h.copies v hv
    have old {k x'} (hx : s'.dirs k = some x') (hk : k ≠ k₀) :
        ∃ x next, s.dirs k = some x ∧ x' = x.relink next :=
      ((Table.of_set (hd ▸ hx)).resolve_left fun h => hk h.1).2
    have new {x'} (hx : s'.dirs k₀ = some x') : x' = ⟨d, r, m₀⟩ :=
      ((Table.of_set (hd ▸ hx)).resolve_right fun h => h.1 rfl).2
    refine ⟨fun k x' m hx hm => ?_, fun k x' hx => ?_, hc⟩
    case refine_1 =>
      rw [hr] at hm
      by_cases hk : k = k₀
      case pos =>
        subst hk
        rw [new hx]
        rw [Function.update_self] at hm
        cases kept
        case false => cases hm
        case true => exact (Option.some.inj hm).symm
      case neg =>
        rw [Function.update_of_ne hk] at hm
        have ⟨x, next, hx, hx'⟩ := old hx hk
        exact hx' ▸ h.ram k x m hx hm
    case refine_2 =>
      by_cases hk : k = k₀
      case pos =>
        subst hk
        rw [new hx]
        have hl : s.Leads H ⟨d, r, m₀⟩ := hp.leads hsize hf
        exact ⟨hl.formed, hl.size, hs ▸ hl.stop⟩
      case neg =>
        have ⟨x, next, hx, hx'⟩ := old hx hk
        exact hx' ▸ (h.leads k x hx).relink hs next
  case inr =>
    refine ⟨fun k x' m hx hm => ?_, fun k x' hx => ?_, hc⟩
    all_goals have ⟨x, next, hx, hx'⟩ := hb k x' hx
    case refine_1 => exact hx' ▸ h.ram k x m hx (hr k m hm)
    case refine_2 => exact hx' ▸ (h.leads k x hx).relink hs next

theorem Agrees.run {Ok : Stripe → Event → Prop} (h₀ : s₀.Agrees H) (h : Run (Step H) Ok s₀ s) :
    s.Agrees H :=
  h.invariant (fun _ _ _ hi hs _ => hi.effect hs.effect) h₀

theorem Agrees.fetch (h : s.Agrees H) {v : View} (hv : v.Shows s) {key : Bytes}
    {x : Entry (Record × Mark)} (hx : s.dirs key = some x)
    (hd : s.ring.disk.Holds x.dir.offset x.mark.1.data) :
    ∃ ram, (ram = none ∨ ram = some (.new x.mark.1.data)) ∧
      CacheReader.fetch s.ring.stop v key x.dir = .ok (x.dir, x.mark.1.data, ram) ∧
      CacheReader.fetch s.ring.stop v.cold key x.dir = .ok (x.dir, x.mark.1.data, none) := by
  have ⟨hf, ha, hs⟩ := h.leads key x hx
  have hdisk (v : View) (hv : ∀ off n p, s.ring.disk.readAt off n = some p → v.readAt off n = .ok p)
      (hn : v.ram key = none) :
      CacheReader.fetch s.ring.stop v key x.dir = .ok (x.dir, x.mark.1.data, none) := by
    simp only [CacheReader.fetch, hn, CacheReader.loadFromDisk_eq hv hf hd ha hs]
    rfl
  have hcold := hdisk v.cold hv.disk rfl
  cases hm : v.ram key
  case none => exact ⟨none, .inl rfl, hdisk v hv.disk hm, hcold⟩
  case some m =>
    have he := h.ram key x m hx (hv.ram ▸ hm)
    exact ⟨some m, .inr (congrArg some he), by simp [CacheReader.fetch, hm, he], hcold⟩

-- What a reader finds of a fragment, if the record of its entry is on the disk.
theorem Agrees.handleRead (h : s.Agrees H) {v : View} (hv : v.Shows s) {key : Bytes} (index : Nat)
    (hd : ∀ x, s.dirs key = some x → s.ring.disk.Holds x.dir.offset x.mark.1.data) :
    (∃ e, CacheReader.handleRead s.ring.start s.ring.stop v key index = .error e ∧
      CacheReader.handleRead s.ring.start s.ring.stop v.cold key index = .error e) ∨
    ∃ x ram, s.dirs key = some x ∧ (ram = none ∨ ram = some (.new x.mark.1.data)) ∧
      CacheReader.handleRead s.ring.start s.ring.stop v key index =
        .ok (x.dir, x.mark.1.data, ram) ∧
      CacheReader.handleRead s.ring.start s.ring.stop v.cold key index =
        .ok (x.dir, x.mark.1.data, none) := by
  rw [CacheReader.handleRead_eq, CacheReader.handleRead_eq]
  have hl : CacheReader.locate s.ring.start s.ring.stop v.cold key index =
      CacheReader.locate s.ring.start s.ring.stop v key index := rfl
  rw [hl]
  cases hd' : CacheReader.locate s.ring.start s.ring.stop v key index
  case error e => exact .inl ⟨e, rfl, rfl⟩
  case ok d =>
    have hg := CacheReader.get_of_locate hd'
    rw [hv.get] at hg
    have ⟨x, hx, he⟩ := Option.map_eq_some_iff.mp hg
    subst he
    have ⟨ram, hr, hw, hc⟩ := h.fetch hv hx (hd x hx)
    exact .inr ⟨x, ram, hx, hr, hw, hc⟩

-- A valid entry can be read.
theorem Agrees.handleRead_valid (h : s.Agrees H) {v : View} (hv : v.Shows s) {key : Bytes}
    (index : Nat) {x : Entry (Record × Mark)} (hc : s.closing = false) (hx : s.dirs key = some x)
    (hd : s.ring.dirValid x.dir = true) (hh : s.ring.disk.Holds x.dir.offset x.mark.1.data) :
    ∃ ram, (ram = none ∨ ram = some (.new x.mark.1.data)) ∧
      CacheReader.handleRead s.ring.start s.ring.stop v key index =
        .ok (x.dir, x.mark.1.data, ram) := by
  have ⟨_, he, hcl, hlo, hhi, _⟩ := Ring.dirValid_iff.mp hd
  have hl : CacheReader.locate s.ring.start s.ring.stop v key index = .ok x.dir := by
    refine CacheReader.locate_eq_ok.mpr ⟨?_, ?_, ?_, ⟨hlo, hhi⟩, ?_⟩
    case refine_1 => simpa [he] using hv.storageErr
    case refine_2 => simp [hv.closed, hc, hcl]
    case refine_3 => simp [hv.get, hx]
    case refine_4 => rw [hv.dirValid, hd]
  have ⟨ram, hr, hw, _⟩ := h.fetch hv hx hh
  exact ⟨ram, hr, by rw [CacheReader.handleRead_eq, hl]; exact hw⟩

-- In every reachable state the bytes in memory are the record which was published together with the
-- entry of the directory, and a reader gets the same document and the same metadata from memory as
-- from a disk that is not corrupted.
theorem memory_agrees (h₀ : s₀.Fresh H) (h : Run (Step H) (fun _ _ => True) s₀ s) :
    (∀ k x m, s.dirs k = some x → s.ram k = some m → m.data = x.mark.1.data) ∧
    ∀ v : View, v.Shows s → ∀ key index,
      (∀ x, s.dirs (H.fragmentKey key index) = some x →
        s.ring.disk.Holds x.dir.offset x.mark.1.data) →
      let read (v : View) := CacheReader.handleRead s.ring.start s.ring.stop v
        (H.fragmentKey key index) index
      let info (v : View) := (CacheReader.loadHTTPInfo H s.ring.start s.ring.stop key (fun _ => v) {}).1
      ((fun r => (r.1, r.2.1)) <$> read v = (fun r => (r.1, r.2.1)) <$> read v.cold) ∧
      (index = 0 → info v = info v.cold) := by
  have h := h₀.agrees.run h
  refine ⟨fun k x m hx hm => by simp [h.ram k x m hx hm], fun v hv key index hd => ?_⟩
  intro read info
  obtain ⟨e, h₁, h₂⟩ | ⟨x, ram, hx, hm, h₁, h₂⟩ := h.handleRead hv index hd
  case inl =>
    refine ⟨by simp only [read, h₁, h₂], fun hi => ?_⟩
    subst hi
    simp only [info, CacheReader.fst_loadHTTPInfo]
    exact congrArg (· >>= _) (h₁.trans h₂.symm)
  case inr =>
    refine ⟨by simp only [read, h₁, h₂]; rfl, fun hi => ?_⟩
    subst hi
    obtain rfl | rfl := hm
    case inl =>
      simp only [info, CacheReader.fst_loadHTTPInfo]
      exact congrArg (· >>= _) (h₁.trans h₂.symm)
    case inr => exact CacheReader.loadHTTPInfo_eq (h.leads _ x hx).formed.length h₁ h₂

section Sample

variable {Ok : Stripe → Event → Prop} {t : FlushTask}

-- A task which is written without anything in between, and without copies.
def lap (s : Stripe) (t : FlushTask) : Stripe :=
  { s with ring := (s.ring.beginFlush t fun _ => 0).endFlush t }

theorem run_lap (ho : ∀ s, Ok s .flush) (h : Run (Step H) Ok s₀ s) (ht : s.ring.task = none)
    (he : s.ring.storageErr = false) (hs : s.ring.start ≤ t.offset) (hst : t.stop ≤ s.ring.stop)
    (hf : t.Follows s.ring.generation s.ring.writePos)
    (hc : Continues s.ring.start s.ring.generation s.ring.writePos t.generation t.offset) :
    Run (Step H) Ok s₀ (s.lap t) := by
  have h₁ := h.step (.begin t (fun _ => 0) [] ht he hs hst hf hc nofun) (ho _)
  rw [collectEvacuationData, List.append_nil] at h₁
  exact h₁.step (.finish t rfl) (ho _)

-- An empty stripe.
def sampleStripe : Stripe where
  ring         := .cold 0 32768 ⟨0, fun _ => 0⟩
  ram _        := none
  index        := .new 4
  generation   := 0
  policyEpochs := fun _ => 0
  entries _    := none
  writers      := []
  closing      := false
  evacuations  := []
  fragmentsNum := 4
  removals     := 0
  clock        := 0

def sampleWriter : Writer :=
  { key := [97], selector := [97], generation := 0, policy := 0, version := 1 }

-- A document with one byte of data, which is the version of its writer.
def sampleDocument (version : UInt64) : Bytes :=
  CacheWriter.document sampleHash [97] version 1 0 [version.toUInt8] []

theorem fragment_sampleDocument (version : UInt64) :
    CacheReader.Fragment sampleHash [97] 0 version (sampleDocument version) :=
  CacheWriter.fragment_document ⟨by simp [DocHeaderSize, AggBufferSize], by simp [TargetFragmentSize]⟩

def sampleTask : FlushTask := ⟨512, 2, [(1, sampleDocument 1)]⟩

def sampleRecord : Record := ⟨⟨512, 2, 1⟩, sampleDocument 1⟩

def sampleDir : Dir := (Dir.make 512 512 0 false).getD {}

theorem length_sampleDocument (version : UInt64) : (sampleDocument version).length = 73 :=
  CacheWriter.length_document

theorem stop_sampleTask : sampleTask.stop = 585 := by
  simp [FlushTask.stop, FlushTask.buffer, sampleTask, length_sampleDocument]

-- The writer has been opened and its document is on the disk.
def sampleWritten : Stripe := (sampleStripe.openWrite sampleWriter).lap sampleTask

theorem run_sampleWritten (ho : ∀ s, Ok s .flush) (ho' : ∀ s, Ok s (.openWrite [97] [97])) :
    Run (Step sampleHash) Ok sampleStripe sampleWritten := by
  have h : Run (Step sampleHash) Ok sampleStripe (sampleStripe.openWrite sampleWriter) :=
    Run.refl.step (.openWrite sampleWriter rfl rfl rfl rfl nofun rfl rfl rfl) (ho' _)
  apply run_lap ho h rfl rfl
  case hs => decide
  case hst => rw [stop_sampleTask]; decide
  case hf =>
    refine ⟨.inl ⟨rfl, le_rfl⟩, by simp [sampleTask], ?_⟩
    simp [sampleTask, length_sampleDocument, AggBufferSize]
  case hc => exact .inl ⟨rfl, rfl⟩

theorem places_sampleRecord :
    sampleWritten.Places sampleRecord (sectors sampleRecord.data.length) sampleDir := by
  have hw : sampleWritten.ring.writePos = 585 := stop_sampleTask
  have hl : sampleRecord.data.length = 73 := length_sampleDocument 1
  refine ⟨.head _, ?_, 0, sampleDir, 0, by decide, ?_, by decide⟩
  case refine_1 =>
    rw [Ring.allocationValid_iff, hw, hl]
    exact ⟨nofun, by decide, by decide, .inl ⟨rfl, by decide⟩⟩
  case refine_2 =>
    rw [hl]
    decide

def samplePublished : Stripe :=
  sampleWritten.publish sampleHash 0 sampleWriter 0 sampleRecord sampleDir (fun _ => none) true

theorem dirs_samplePublished : samplePublished.dirs [97] =
    some ⟨sampleDir, sampleRecord, sampleWritten.markOf sampleWriter 0⟩ := by
  rw [samplePublished, dirs_publish]
  exact Table.set_self _

theorem ram_samplePublished : samplePublished.ram [97] = some (.new sampleRecord.data) := by
  rw [samplePublished, ram_publish]
  exact Function.update_self ..

theorem memory_agrees_sample : ∃ s x m,
    Run (Step sampleHash) (fun _ _ => True) sampleStripe s ∧ s.dirs [97] = some x ∧
      s.ram [97] = some m ∧ m.data = x.mark.1.data := by
  have h₀ : sampleStripe.Fresh sampleHash := ⟨fun _ => rfl, rfl, nofun⟩
  have h : Run (Step sampleHash) (fun _ _ => True) sampleStripe samplePublished :=
    (run_sampleWritten (fun _ => trivial) fun _ => trivial).step
      (.publish 0 sampleWriter 0 sampleRecord sampleDir (fun _ => none) true rfl rfl
        ⟨rfl, rfl, nofun, rfl, rfl, rfl⟩ places_sampleRecord (fragment_sampleDocument 1)
        fun _ => nofun) trivial
  have ha := (memory_agrees h₀ h).1 [97] _ _ dirs_samplePublished ram_samplePublished
  exact ⟨_, _, _, h, dirs_samplePublished, ram_samplePublished, ha⟩

end Sample

end Stripe

end Bakemono
