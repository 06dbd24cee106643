import Bakemono.Read.Complete
import Bakemono.Stripe.Memory
import Bakemono.Write.Commit

namespace Bakemono

open CacheReader (header payload metadata infoOf pieceLen Fragment Object Serves)
open CacheWriter (document tail tails head count documentsOf Encodes Fitting publishAll_concat
  publishAll_error close_spec)

namespace Ring

variable {κ μ : Type} {s s' : Ring κ μ} {r : Record} {d : Dir}

-- A task begins where the last one has ended, or at the start of the data area.
def Flows (s : Ring κ μ) : Prop :=
  0 < s.writingEnd → s.writingStart = s.writePos ∧ s.writingGeneration = s.generation ∨
    s.writingStart = s.start ∧ s.writingGeneration = s.generation + 1

-- What a publisher accepts can be read. The sizes of the entries have been rounded up, but no task
-- begins behind a record that it does not overlap.
theorem dirValid_of_allocationValid (hl : s.Layout) (hf : s.Flows) (hd : Stands d r)
    (hs : s.storageErr = false) (hc : s.closed = false) (h₀ : 0 < r.data.length)
    (hv : s.allocationValid r.allocation r.data.length = true) : s.dirValid d = true := by
  obtain ⟨hn, hlo, hhi, hg⟩ := allocationValid_iff.mp hv
  have ho : d.offset = r.allocation.offset := hd.offset
  have hp : d.phase = odd r.allocation.generation := hd.phase
  rw [dirValid_iff]
  refine ⟨?_, hs, hc, by omega, by omega, ?_⟩
  case refine_1 =>
    rintro ⟨h₁, h₂, h₃, h₄⟩
    have hne : r.allocation.generation ≠ s.writingGeneration := fun hc => h₂ (by rw [hp, hc])
    obtain ⟨hw, hwg⟩ | ⟨hw, _⟩ := hf h₁
    case inl =>
      obtain hg | hg := hg
      case inl => exact hne (hg.1.trans hwg.symm)
      case inr => exact hn ⟨h₁, hne, by omega, by omega⟩
    case inr => exact hn ⟨h₁, hne, by omega, by omega⟩
  case refine_2 =>
    rw [hp, hl.phase, ho]
    obtain ⟨hg, hw⟩ | ⟨hg, hw⟩ := hg
    case inl => exact .inl ⟨by rw [hg], by omega⟩
    case inr => exact .inr ⟨by simp [← hg, odd_succ], hw⟩

theorem Layout.live_of_allocationValid (hl : s.Layout)
    (hv : s.allocationValid r.allocation r.data.length = true) : s.Live r := by
  obtain ⟨hn, _, _, hg⟩ := allocationValid_iff.mp hv
  have hst : r.stop = r.allocation.offset + r.data.length := rfl
  have ho : r.offset = r.allocation.offset := rfl
  have hgen : r.generation = r.allocation.generation := rfl
  refine ⟨by omega, fun t ht => ?_⟩
  obtain ⟨hws, hwe, hwg, _, _, hf⟩ := hl.busy t ht
  have := hf.order
  have := hf.offset_lt_stop
  by_cases hgt : r.generation = t.generation
  case pos => omega
  case neg =>
    by_contra hc
    exact hn ⟨by omega, by omega, by omega, by omega⟩

theorem Step.flushed_subset [DecidableEq κ] {e : Event κ} (h : s.Step e s') : s.flushed ⊆ s'.flushed := by
  cases h
  case finish => exact List.subset_append_left ..
  all_goals exact List.Subset.refl _

-- What a run of the log keeps.
structure Grows (s s' : Ring κ μ) : Prop where
  layout  : s.Layout → s'.Layout
  flushed : s.flushed ⊆ s'.flushed
  area    : s'.start = s.start ∧ s'.stop = s.stop

theorem grows [DecidableEq κ] (h : Run Step (fun _ _ => True) s s') : Grows s s' := by
  refine h.relation (fun _ => ⟨id, List.Subset.refl _, rfl, rfl⟩) (fun h₁ h₂ => ?_) fun s e s' h _ => ?_
  case refine_1 =>
    exact ⟨h₂.layout ∘ h₁.layout, List.Subset.trans h₁.flushed h₂.flushed, h₂.area.1.trans h₁.area.1,
      h₂.area.2.trans h₁.area.2⟩
  case refine_2 => exact ⟨fun hl => (hl.step h).1, h.flushed_subset, h.bounds⟩

end Ring

section Store

variable {H : Hash} {s s' : Store} {k : Bytes} {r : Record} {v : View}

-- What a reader sees of the stripe.
structure Store.Shown (H : Hash) (s : Store) (v : View) : Prop where
  storageErr : v.storageErr = s.storageErr
  closed     : v.closed = (s.closing || s.ring.closed)
  get        : ∀ k, v.get k = if (s.dirMgr.get H k).hit then some (s.dirMgr.get H k).dir else none
  dirValid   : ∀ d, v.dirValid d = s.ring.dirValid d
  ram        : v.ram = s.ram
  readAt     : ∀ off n, v.readAt off n = (s.ring.disk.readAt off n).elim (.error .eof) .ok

-- The stripe works.
structure Store.Healthy (s : Store) : Prop where
  layout     : s.ring.Layout
  flows      : s.ring.Flows
  storageErr : s.storageErr = none ∧ s.ring.storageErr = false
  opened     : s.closing = false ∧ s.ring.closed = false

-- The entry of the key stands for the record, if there is one, and so does what is in memory.
structure Store.Tracks (H : Hash) (s : Store) (k : Bytes) (r : Record) : Prop where
  flushed : r ∈ s.ring.flushed
  stands  : (s.dirMgr.get H k).hit = true → Ring.Stands (s.dirMgr.get H k).dir r
  ram     : ∀ e, s.ram k = some e → e = .new r.data

-- Others may use the stripe at the same time. They add to the log, and they drop entries of the given
-- keys or leave them alone.
structure Store.Spares (H : Hash) (K : Bytes → Prop) (s s' : Store) : Prop where
  log  : Run Ring.Step (fun _ _ => True) s.ring s'.ring
  dirs : ∀ k, K k → (s'.dirMgr.get H k).hit = true →
    DirManager.Lookup.Same (s'.dirMgr.get H k) (s.dirMgr.get H k)
  ram  : ∀ k, K k → s'.ram k = s.ram k ∨ s'.ram k = none

theorem Ring.Stands.same {a b : Lookup} (h : Ring.Stands b.dir r) (hs : DirManager.Lookup.Same a b) :
    Ring.Stands a.dir r where
  offset := hs.2.1.trans h.offset
  size   := hs.2.2.1.symm ▸ h.size
  phase  := hs.2.2.2.1.trans h.phase

theorem Store.Spares.tracks {K : Bytes → Prop} (h : s.Spares H K s') (hk : K k) (ht : s.Tracks H k r) :
    s'.Tracks H k r where
  flushed := (Ring.grows h.log).flushed ht.flushed
  stands  := fun hhit => by
    have hs := h.dirs k hk hhit
    exact (ht.stands (hs.1.symm.trans hhit)).same hs
  ram     := fun e he => by
    obtain hr | hr := h.ram k hk
    case inl => exact ht.ram e (hr.symm.trans he)
    case inr => simp [hr] at he

theorem Store.Shown.readAt_holds (h : s.Shown H v) {off : Nat} {p : Bytes} (hp : s.ring.disk.Holds off p) :
    v.readAt off p.length = .ok p := by
  rw [h.readAt, hp.readAt]
  rfl

theorem Store.Shown.loadFromDisk {p : Bytes} {d : Dir} (h : s.Shown H v)
    (hp : s.ring.disk.Holds d.offset p) (hl : p.length = (header p).len.toNat)
    (h₀ : DocHeaderSize ≤ p.length) (hmax : p.length ≤ AggBufferSize) (hd : p.length ≤ d.approxSize)
    (hend : d.offset + p.length ≤ s.ring.stop) :
    CacheReader.loadFromDisk s.ring.stop v d = .ok p := by
  have hh : v.readAt d.offset DocHeaderSize = .ok (p.take DocHeaderSize) := by
    have := h.readAt_holds (hp.take DocHeaderSize)
    rwa [List.length_take, min_eq_left h₀] at this
  have hu : Doc.unmarshal (p.take DocHeaderSize) = header p := rfl
  have hb : ¬((header p).len.toNat < DocHeaderSize ∨ (header p).len.toNat > AggBufferSize ∨
      (header p).len.toNat > d.approxSize ∨ (header p).len.toNat > s.ring.stop - d.offset) := by
    omega
  simp only [CacheReader.loadFromDisk, hh, bind, Except.bind, hu, if_neg hb]
  rw [← hl]
  exact h.readAt_holds hp

-- A reader finds the document in memory or on the disk.
theorem Store.Tracks.handleRead (h : s.Tracks H k r) (hs : s.Healthy) (hm : s.Maps H (k, r))
    (hv : s.Shown H v) (hl : r.data.length = (header r.data).len.toNat)
    (h₀ : DocHeaderSize ≤ r.data.length) (hmax : r.data.length ≤ AggBufferSize) (i : Nat) :
    ∃ dir ram, CacheReader.handleRead s.ring.start s.ring.stop v k i = .ok (dir, r.data, ram) ∧
      ∀ e, ram = some e → e = .new r.data := by
  obtain ⟨hhit, ho, _, hval⟩ := hm
  dsimp only at hval
  have hst := h.stands hhit
  obtain ⟨_, hlo, hhi, _⟩ := Ring.allocationValid_iff.mp hval
  have hpos : 0 < r.data.length := Nat.lt_of_lt_of_le (by decide) h₀
  have hdv := Ring.dirValid_of_allocationValid hs.layout hs.flows hst hs.storageErr.2 hs.opened.2 hpos hval
  have hdisk := hs.layout.intact hs.storageErr.2 r h.flushed (hs.layout.live_of_allocationValid hval)
  rw [← hst.offset] at hdisk
  have hoff : (s.dirMgr.get H k).dir.offset = r.allocation.offset := ho
  have hin : ¬((s.dirMgr.get H k).dir.offset < s.ring.start ∨
      (s.dirMgr.get H k).dir.offset ≥ s.ring.stop) := by omega
  have hload := hv.loadFromDisk hdisk hl h₀ hmax hst.size (by omega)
  cases hram : s.ram k
  case some e =>
    have he := h.ram e hram
    refine ⟨(s.dirMgr.get H k).dir, some e, ?_, fun e' he' => Option.some_inj.mp he' ▸ he⟩
    simp [CacheReader.handleRead, hv.storageErr, hs.storageErr.1, hv.closed, hs.opened, hv.get, hhit, hin,
      hv.dirValid, hdv, hv.ram, hram, he]
    rfl
  case none =>
    refine ⟨(s.dirMgr.get H k).dir, none, ?_, fun _ he => by cases he⟩
    simp [CacheReader.handleRead, hv.storageErr, hs.storageErr.1, hv.closed, hs.opened, hv.get, hhit, hin,
      hv.dirValid, hdv, hv.ram, hram, hload]

end Store

namespace CacheWriter

section Object

variable {H : Hash} {start stop i n : Nat} {key body info q : Bytes} {version : UInt64}

-- The documents of an object in the order of its fragments.
def fragments (H : Hash) (key : Bytes) (version : UInt64) (body info : Bytes) : List Bytes :=
  (head H key version body info).2 :: (tails H key version body (count body.length)).map Prod.snd

theorem count_pos (n : Nat) : 0 < count n := Nat.lt_of_lt_of_le Nat.one_pos (Nat.le_max_left ..)

theorem lt_count (hi : i ≠ 0) : i < count n ↔ i * TargetFragmentSize < n := by
  simp only [count, TargetFragmentSize]
  omega

theorem length_tails : (tails H key version body n).length = n - 1 := by
  rw [tails, List.length_map, List.length_range']

theorem length_fragments : (fragments H key version body info).length = count body.length := by
  rw [fragments, List.length_cons, List.length_map, length_tails, Nat.sub_add_cancel (count_pos _)]

theorem mem_tails (h₁ : 1 ≤ i) (hi : i < n) :
    tail H key version body i ∈ tails H key version body n :=
  List.mem_map_of_mem (List.mem_range'_1.mpr ⟨h₁, by omega⟩)

theorem of_mem_tails {d : Nat × Bytes} (h : d ∈ tails H key version body n) :
    d.1 ≠ 0 ∧ 0 < d.2.length := by
  obtain ⟨j, hj, rfl⟩ := List.mem_map.mp h
  refine ⟨Nat.ne_zero_of_lt (List.mem_range'_1.mp hj).1, ?_⟩
  rw [tail, length_document, DocHeaderSize]
  omega

theorem getElem?_tails {d : Nat × Bytes} (h : (tails H key version body n)[i]? = some d) :
    i + 1 < n ∧ d = tail H key version body (i + 1) := by
  rw [tails, List.getElem?_map, Option.map_eq_some_iff] at h
  obtain ⟨j, hj, hd⟩ := h
  obtain ⟨hi, hj⟩ := List.getElem?_eq_some_iff.mp hj
  rw [List.getElem_range'] at hj
  rw [List.length_range'] at hi
  obtain rfl : j = i + 1 := by omega
  exact ⟨by omega, hd.symm⟩

theorem getElem?_fragments (h : (fragments H key version body info)[i]? = some q) :
    i = 0 ∧ q = (head H key version body info).2 ∨
    i ≠ 0 ∧ i < count body.length ∧ q = (tail H key version body i).2 := by
  cases i
  case zero =>
    rw [fragments, List.getElem?_cons_zero, Option.some_inj] at h
    exact .inl ⟨rfl, h.symm⟩
  case succ i =>
    rw [fragments, List.getElem?_cons_succ, List.getElem?_map, Option.map_eq_some_iff] at h
    obtain ⟨d, hd, hq⟩ := h
    obtain ⟨hi, hd⟩ := getElem?_tails hd
    exact .inr ⟨Nat.succ_ne_zero i, hi, by rw [← hq, hd]⟩

theorem length_slice :
    (body.slice (i * TargetFragmentSize) TargetFragmentSize).length = pieceLen body.length i := by
  simp [Bytes.slice, pieceLen]

-- All documents of the object fit into a buffer.
structure Storable (H : Hash) (start stop : Nat) (key : Bytes) (version : UInt64) (body info : Bytes) :
    Prop where
  fits  : body.length ≤ stop - start
  range : stop ≤ 2 ^ 40
  docs  : ∀ d ∈ documentsOf H key version body info, d.2.length ≤ AggBufferSize

theorem Storable.fitting_head (h : Storable H start stop key version body info) :
    Fitting (body.take TargetFragmentSize) info where
  len  := by
    have := h.docs (head H key version body info) (List.mem_append_right _ (.head _))
    rwa [head, length_document] at this
  data := List.length_take_le ..

theorem Storable.fitting_tail (h : Storable H start stop key version body info) (h₀ : i ≠ 0)
    (hi : i < count body.length) :
    Fitting (body.slice (i * TargetFragmentSize) TargetFragmentSize) [] where
  len  := by
    have := h.docs _ (List.mem_append_left _ (mem_tails (Nat.pos_of_ne_zero h₀) hi))
    rwa [tail, length_document] at this
  data := List.length_take_le ..

-- The fragments have their parts of the body.
theorem Storable.fragment (h : Storable H start stop key version body info)
    (hq : (fragments H key version body info)[i]? = some q) :
    Fragment H key i version q ∧ payload q = body.slice (i * TargetFragmentSize) TargetFragmentSize := by
  obtain ⟨rfl, rfl⟩ | ⟨h₀, hi, rfl⟩ := getElem?_fragments hq
  case inl =>
    have hf : Fragment H key 0 version (head H key version body info).2 := fragment_document h.fitting_head
    refine ⟨hf, (payload_document hf).trans ?_⟩
    rw [Nat.zero_mul, Bytes.slice, List.drop_zero]
  case inr =>
    have hf : Fragment H key i version (tail H key version body i).2 :=
      fragment_document (h.fitting_tail h₀ hi)
    exact ⟨hf, payload_document hf⟩

theorem Storable.object (h : Storable H start stop key version body info) :
    Object H start stop key version body info (fragments H key version body info) where
  fragment := fun i q hq => (h.fragment hq).1
  length   := fun i q hq => by rw [(h.fragment hq).2, length_slice]
  head     := by
    intro q hq
    obtain ⟨_, rfl⟩ | ⟨h₀, _⟩ := getElem?_fragments hq
    case inl =>
      refine ⟨?_, metadata_document h.fitting_head⟩
      rw [head, header_document, documentHeader]
      have hf := h.fits
      have hr := h.range
      exact (UInt64.toNat_ofNat' ..).trans (Nat.mod_eq_of_lt (by omega))
    case inr => exact absurd rfl h₀
  tail     := by
    intro i q hq h₀
    obtain ⟨hi, _⟩ | ⟨_, hi, rfl⟩ := getElem?_fragments hq
    case inl => exact absurd hi h₀
    case inr =>
      have hlt := (lt_count h₀).mp hi
      have hl : (body.slice (i * TargetFragmentSize) TargetFragmentSize).length =
          min TargetFragmentSize (body.length - i * TargetFragmentSize) := length_slice
      rw [(h.fragment hq).2, tail, header_document]
      refine ⟨rfl, ?_, ?_⟩
      case refine_1 =>
        rw [hl]
        exact lt_min (by decide) (by omega)
      case refine_2 =>
        have hf := h.fits
        have hr := h.range
        exact (UInt64.toNat_ofNat' ..).trans (Nat.mod_eq_of_lt (by omega))
  complete := by
    intro i hi
    rw [length_fragments]
    obtain rfl | hi := hi
    case inl => exact count_pos _
    case inr =>
      by_cases h₀ : i = 0
      case pos => exact h₀ ▸ count_pos _
      case neg => exact (lt_count h₀).mpr hi
  payloads := by
    rw [Bytes.flatMap_slices fun i q hq => (h.fragment hq).2, length_fragments]
    refine List.take_of_length_le ?_
    simp only [count, TargetFragmentSize]
    omega
  fits     := h.fits

end Object

end CacheWriter

open CacheWriter (fragments getElem?_fragments mem_tails of_mem_tails)

section Room

variable {σ : Type} {H : Hash} {start stop : Nat} {key : Bytes} {S : Storage σ} {s₀ : σ}
  {w : CacheWriter σ}

namespace CacheWriter

theorem closed_write {ctxErr : Option Err} {p : Bytes} (hc : w.closed = false)
    (hp : p.length + w.totalWritten > stop - start) :
    (write H start stop key S ctxErr p w).state.closed = true := by
  have hx : ¬w.closed = true := by simp [hc]
  cases ctxErr
  all_goals
    simp only [write, bind, EStateM.bind, get, getThe, MonadStateOf.get, EStateM.get_apply, if_neg hx,
      aborting, tryCatchThe, MonadExceptOf.tryCatch, EStateM.tryCatch_apply, if_pos hp]
    rfl

-- An open writer has not accepted more than the data area can hold.
theorem Reached.room (h : w.Reached H key S s₀) (hb : w.closed = false → w.accepted.length ≤ stop - start)
    (calls : List Call) (hc : (w.performAll H start stop key S calls).closed = false) :
    (w.performAll H start stop key S calls).accepted.length ≤ stop - start := by
  induction calls generalizing w
  case nil => exact hb hc
  case cons c calls hi =>
    cases h
    case closed s hx ht hs =>
      have hw : c.perform H start stop key S w = w := perform_closed hx c
      refine hi (w := c.perform H start stop key S w) ?_ ?_ hc
      all_goals rw [hw]
      case refine_1 => exact .closed s hx ht hs
      case refine_2 => exact hb
    case opened ho =>
      refine hi (ho.perform c) (fun hopen => ?_) hc
      cases c
      case write ctxErr hctx p =>
        have hspec : EStateM.Spec (· = w) (write H start stop key S ctxErr p) _ _ := write_spec ho hctx p
        obtain ⟨_, _, ha, _⟩ | ⟨_, hf⟩ := hspec.state
        case inl =>
          have hp : ¬p.length + w.totalWritten > stop - start := fun hp =>
            absurd (closed_write ho.layout.opened.1 hp) (by simpa [Call.perform] using hopen)
          rw [Call.perform, ha, List.length_append, ho.layout.total]
          omega
        case inr => exact absurd hf.closed.closed (by simpa [Call.perform] using hopen)
      case setHTTPInfo info =>
        have hx : ¬w.closed = true := by simp [ho.layout.opened.1]
        simp only [Call.perform, setHTTPInfo, if_neg hx]
        exact hb ho.layout.opened.1
      case abort e =>
        simp [Call.perform, abort, abortLocked, ho.layout.opened.1] at hopen
      case close =>
        obtain ⟨_, hx, _⟩ | ⟨_, hf⟩ := (close_spec ho).state
        case inl => exact absurd hx.closed (by simpa [Call.perform] using hopen)
        case inr => exact absurd hf.closed.closed (by simpa [Call.perform] using hopen)

end CacheWriter

end Room

-- What others do while the writer waits for its documents to be flushed. They leave the fragments of
-- its object alone or drop them.
structure Env.Spares (H : Hash) (key : Bytes) (env : Env) : Prop where
  store   : ∀ {k s doc t}, env k s doc = .ok t →
    s.Spares H (fun key' => ∃ j, 1 ≤ j ∧ key' = H.fragmentKey key j) t.store
  flushed : ∀ {k s doc t}, env k s doc = .ok t → ⟨t.allocation, doc⟩ ∈ t.store.ring.flushed

-- The identities of the fragments of an object.
structure Identified (H : Hash) (key : Bytes) (n : Nat) : Prop where
  distinct : ∀ i < n, ∀ j < n, i ≠ j →
    H.docKey (H.fragmentKey key i) ≠ H.docKey (H.fragmentKey key j)
  nonzero  : ∀ i < n, H.docKey (H.fragmentKey key i) ≠ 0

namespace Session

section Tracked

variable {H : Hash} {i idx n m start stop : Nat} {env : Env} {x x' : Session} {doc : Bytes} {t : Turn}
  {dirMgr : DirManager} {ids : List Nat}

-- What the writer has published, all of it with numbers in the list.
structure Tracked (H : Hash) (n start stop : Nat) (x : Session) (ids : List Nat) : Prop where
  sound  : x.store.Sound H n
  layout : x.store.ring.Layout
  area   : x.store.ring.start = start ∧ x.store.ring.stop = stop
  keys   : ∀ p ∈ x.writer.published, ∃ j ∈ ids, p.1 = H.fragmentKey x.writer.key j
  tracks : ∀ p ∈ x.writer.published, x.store.Tracks H p.1 p.2

-- A new document is where its entry says.
theorem Installs.tracks_self (he : env.Sound H n) (hsp : env.Spares H x.writer.key)
    (hs : x.store.Sound H n) (hd : 0 < doc.length) (h : Installs H i env x idx doc t dirMgr x') :
    x'.store.Tracks H (H.fragmentKey x.writer.key idx) ⟨t.allocation, doc⟩ := by
  obtain ⟨hshape, hchained⟩ := (he.keep h.turn hs).made.shape_chained
  obtain ⟨ho, hz⟩ := h.inRange he hs hd
  obtain ⟨_, hset⟩ := h.set
  obtain ⟨d, hdesc, _, hget⟩ := DirManager.get_set hshape hchained ho hz hset
  rw [h.store]
  refine ⟨hsp.flushed h.turn, fun _ => ⟨?_, ?_, ?_⟩, fun e hram => ?_⟩
  case refine_1 => exact (congrArg Dir.offset hget).trans hdesc.offset
  case refine_2 =>
    refine (Ring.sectors_bounds.1.trans hdesc.size).trans_eq ?_
    exact (congrArg Dir.approxSize hget).symm
  case refine_3 => exact (congrArg Dir.phase hget).trans hdesc.phase
  case refine_4 =>
    simp only [Store.put, Function.update_self] at hram
    split at hram
    case isTrue => exact (Option.some_inj.mp hram).symm
    case isFalse => cases hram

-- The other fragments are left alone or lose their entries.
theorem Installs.tracks (he : env.Sound H n) (hsp : env.Spares H x.writer.key)
    (hs : x.store.Sound H n) (hd : 0 < doc.length) (hid : Identified H x.writer.key m) (hidx : idx < m)
    (h : Installs H i env x idx doc t dirMgr x') {j : Nat} {r : Record} (h₁ : 1 ≤ j) (hj : j < m)
    (hne : j ≠ idx) (ht : x.store.Tracks H (H.fragmentKey x.writer.key j) r) :
    x'.store.Tracks H (H.fragmentKey x.writer.key j) r := by
  obtain ⟨hshape, hchained⟩ := (he.keep h.turn hs).made.shape_chained
  obtain ⟨ho, hz⟩ := h.inRange he hs hd
  obtain ⟨_, hset⟩ := h.set
  have hdk := hid.distinct j hj idx hidx hne
  have ht := (hsp.store h.turn).tracks ⟨j, h₁, rfl⟩ ht
  have hk : H.fragmentKey x.writer.key j ≠ H.fragmentKey x.writer.key idx := fun hc => hdk (by rw [hc])
  rw [h.store]
  refine ⟨ht.flushed, fun hhit => ?_, fun e hram => ?_⟩
  case refine_1 =>
    have hsame := DirManager.set_evicts hshape hchained ho hz hset hdk (hid.nonzero idx hidx) hhit
    exact (ht.stands (hsame.1.symm.trans hhit)).same hsame
  case refine_2 =>
    simp only [Store.put, Function.update_of_ne hk] at hram
    exact ht.ram e hram

theorem Tracked.installs (he : env.Sound H n) (hsp : env.Spares H x.writer.key)
    (hid : Identified H x.writer.key m) (hx : x.Tracked H n start stop ids) (hd : 0 < doc.length)
    (hids : ∀ j ∈ ids, 1 ≤ j ∧ j < m) (hidx : idx < m) (hnew : idx ∉ ids)
    (h : Installs H i env x idx doc t dirMgr x') : x'.Tracked H n start stop (ids ++ [idx]) where
  sound  := h.sound he hx.sound hd
  layout := by
    rw [h.store]
    exact (Ring.grows (hsp.store h.turn).log).layout hx.layout
  area   := by
    have ⟨h₁, h₂⟩ := (Ring.grows (hsp.store h.turn).log).area
    rw [h.store]
    exact ⟨h₁.trans hx.area.1, h₂.trans hx.area.2⟩
  keys   := by
    intro p hp
    rw [h.writer] at hp ⊢
    obtain hp | hp := List.mem_append.mp hp
    case inl =>
      obtain ⟨j, hj, hk⟩ := hx.keys p hp
      exact ⟨j, List.mem_append_left _ hj, hk⟩
    case inr => exact ⟨idx, by simp, by rw [List.mem_singleton.mp hp]⟩
  tracks := by
    intro p hp
    rw [h.published] at hp
    obtain hp | hp := List.mem_append.mp hp
    case inl =>
      obtain ⟨j, hj, hk⟩ := hx.keys p hp
      obtain ⟨h₁, hm⟩ := hids j hj
      have ht := hx.tracks p hp
      rw [hk] at ht ⊢
      exact h.tracks he hsp hx.sound hd hid hidx h₁ hm (fun hc => hnew (hc ▸ hj)) ht
    case inr =>
      rw [List.mem_singleton.mp hp]
      exact h.tracks_self he hsp hx.sound hd

-- A run of fragments behind the first one.
theorem Tracked.publishAll {l : List (Nat × Bytes)} (he : env.Sound H n)
    (hsp : env.Spares H x.writer.key) (hid : Identified H x.writer.key m) (hx : x.Tracked H n start stop ids)
    (hids : ∀ j ∈ ids ++ l.map Prod.fst, 1 ≤ j ∧ j < m) (hnd : (ids ++ l.map Prod.fst).Nodup)
    (hd : ∀ d ∈ l, 0 < d.2.length) (h : (storage H i env).publishAll l x = .ok () x') :
    x'.Tracked H n start stop (ids ++ l.map Prod.fst) := by
  induction l generalizing x ids
  case nil =>
    cases h
    simpa using hx
  case cons d l hi =>
    simp only [Storage.publishAll, Bind.bind, EStateM.bind] at h
    cases hp : (storage H i env).publish d.1 d.2 x
    case error => simp [hp] at h
    case ok x₁ =>
      rw [hp] at h
      obtain ⟨t, dirMgr, hin⟩ := installs_of_ok hp
      have hkey : x₁.writer.key = x.writer.key := by rw [hin.writer]
      have hl : ids ++ (d :: l).map Prod.fst = ids ++ [d.1] ++ l.map Prod.fst := by simp
      rw [hl] at hids hnd ⊢
      have hnew : d.1 ∉ ids := fun hm =>
        (List.nodup_append.mp (List.nodup_append.mp hnd).1).2.2 _ hm _ (by simp) rfl
      have hx₁ := hx.installs he hsp hid (hd d (by simp)) (fun j hj => hids j (by simp [hj]))
        (hids d.1 (by simp)).2 hnew hin
      exact hi (hkey ▸ hsp) (hkey ▸ hid) hx₁ hids hnd (fun d hm => hd d (by simp [hm])) h

theorem fits_publishAll {l : List (Nat × Bytes)} (he : env.Sound H n)
    (h : (storage H i env).publishAll l x = .ok () x') : ∀ d ∈ l, d.2.length ≤ AggBufferSize := by
  induction l generalizing x
  case nil => simp
  case cons d l hi =>
    simp only [Storage.publishAll, Bind.bind, EStateM.bind] at h
    cases hp : (storage H i env).publish d.1 d.2 x
    case error => simp [hp] at h
    case ok x₁ =>
      rw [hp] at h
      obtain ⟨t, dirMgr, hin⟩ := installs_of_ok hp
      exact List.forall_mem_cons.mpr ⟨he.fits hin.turn, hi h⟩

-- When the head has been inserted, all fragments are in place. The writer has looked at the others under
-- the same lock, and the head does not take their place.
theorem Installs.maps (he : env.Sound H n) (hs : x.store.Sound H n) (hd : 0 < doc.length)
    (h : Installs H i env x 0 doc t dirMgr x') (hroom : t.store.dirMgr.SetRoom H x.writer.key)
    (hpos : ∀ p ∈ x.writer.published,
      t.store.dirMgr.position H p.1 ≠ t.store.dirMgr.position H x.writer.key) :
    ∀ p ∈ x'.writer.published, x'.store.Maps H p := by
  obtain ⟨hshape, hchained⟩ := (he.keep h.turn hs).made.shape_chained
  obtain ⟨ho, hz⟩ := h.inRange he hs hd
  obtain ⟨_, hset⟩ := h.set
  obtain ⟨_, _, _, _, hvalid, hmaps⟩ := Store.admission_eq_ok.mp h.admitted
  intro p hp
  rw [h.published] at hp
  rw [h.store]
  obtain hp | hp := List.mem_append.mp hp
  case inl =>
    have hm := hmaps rfl p hp
    have hsame := DirManager.set_frame hshape hchained ho hz hset (.inl hroom) (hpos p hp)
    exact ⟨hsame.1.trans hm.1, hsame.2.1.trans hm.2.1, hsame.2.2.2.1.trans hm.2.2.1, hm.2.2.2⟩
  case inr =>
    obtain ⟨d, hdesc, hhit, hget⟩ := DirManager.get_set hshape hchained ho hz hset
    rw [List.mem_singleton.mp hp]
    exact ⟨hhit, (congrArg Dir.offset hget).trans hdesc.offset, (congrArg Dir.phase hget).trans hdesc.phase,
      hvalid⟩

end Tracked

end Session

section Reads

variable {H : Hash} {key body info : Bytes} {version : UInt64} {c : Commit} {s : Store} {v : View}

-- All fragments of the object are in place at its commit.
def Commit.Holds (H : Hash) (key : Bytes) (c : Commit) (frags : List Bytes) : Prop :=
  ∀ j q, frags[j]? = some q → ∃ r : Record, (H.fragmentKey key j, r) ∈ c.published ∧ r.data = q ∧
    c.store.Tracks H (H.fragmentKey key j) r ∧ c.store.Maps H (H.fragmentKey key j, r)

-- The stripe at some time after the commit. Others may have used it since, but the fragments are still
-- in place.
structure Commit.Kept (H : Hash) (key : Bytes) (c : Commit) (s : Store) : Prop where
  healthy : s.Healthy
  spares  : c.store.Spares H (fun key' => ∃ j, key' = H.fragmentKey key j) s
  maps    : ∀ p ∈ c.published, s.Maps H p

theorem Commit.Holds.handleRead {frags : List Bytes} (h : c.Holds H key frags) (hk : c.Kept H key s)
    (hv : s.Shown H v) {j : Nat} {q : Bytes} (hq : frags[j]? = some q) (hf : Fragment H key j version q) :
    ∃ dir ram, CacheReader.handleRead c.store.ring.start c.store.ring.stop v (H.fragmentKey key j) j =
        .ok (dir, q, ram) ∧ ∀ e, ram = some e → e = .new q := by
  obtain ⟨r, hr, rfl, ht, _⟩ := h j q hq
  obtain ⟨hstart, hstop⟩ := (Ring.grows hk.spares.log).area
  have ht := hk.spares.tracks ⟨j, rfl⟩ ht
  obtain ⟨_, hfit, _⟩ := Doc.validate_eq_ok.mp hf.valid
  have hl := hf.length
  rw [← hstart, ← hstop]
  exact ht.handleRead hk.healthy (hk.maps _ hr) hv hl
    ((Nat.le_add_right ..).trans hf.size) (hl ▸ hfit.max) j

theorem infoOf_head {start stop : Nat} {o : Option CacheHTTPInfo}
    (h : CacheWriter.Storable H start stop key version body info) (he : Encodes o info)
    (hl : ∀ i, o = some i → i.Lossless) :
    infoOf (head H key version body info).2 = .ok (o.getD .new) := by
  have hh : (header (head H key version body info).2).hlen = .ofNat info.length := by
    rw [head, CacheWriter.header_document]
    rfl
  have hm : metadata (head H key version body info).2 = info := CacheWriter.metadata_document h.fitting_head
  rw [infoOf, hh, hm]
  cases o
  case none =>
    have he : info = [] := he
    simp [he]
  case some i =>
    have he : i.marshal = .ok info := he
    have hne : ¬UInt32.ofNat info.length = 0 := by
      intro hc
      have hz : info.length = 0 := h.fitting_head.toNat.2.symm.trans (congrArg UInt32.toNat hc)
      have hi := congrArg List.length (CacheHTTPInfo.of_marshal he).2.2.2.2
      rw [hz, List.length_append, CacheHTTPInfo.signed, Bytes.length_be] at hi
      omega
    rw [if_neg hne, CacheHTTPInfo.unmarshal_marshal (hl i rfl) he]
    rfl

end Reads

namespace Session

variable {H : Hash} {i n start stop : Nat} {env : Env} {x : Session} {version : UInt64}
  {w w' : CacheWriter Session}

-- A writer that has just been opened.
structure Fresh (H : Hash) (n start stop : Nat) (x : Session) : Prop where
  sound     : x.store.Sound H n
  layout    : x.store.ring.Layout
  area      : x.store.ring.start = start ∧ x.store.ring.stop = stop
  published : x.writer.published = []
  commits   : x.commits = []

theorem Fresh.tracked (h : x.Fresh H n start stop) : x.Tracked H n start stop [] where
  sound  := h.sound
  layout := h.layout
  area   := h.area
  keys   := by simp [h.published]
  tracks := by simp [h.published]

-- The documents of an object are published one after the other, the head at last.
theorem exists_installs {l : List (Nat × Bytes)} {d : Bytes} {x' : Session}
    (h : (storage H i env).publishAll (l ++ [(0, d)]) x = .ok () x') :
    ∃ x₁ t dirMgr, (storage H i env).publishAll l x = .ok () x₁ ∧ Installs H i env x₁ 0 d t dirMgr x' := by
  cases hp : (storage H i env).publishAll l x
  case error e x₁ => simp [publishAll_error hp] at h
  case ok x₁ =>
    rw [publishAll_concat hp] at h
    obtain ⟨t, dirMgr, hin⟩ := installs_of_ok h
    exact ⟨x₁, t, dirMgr, rfl, hin⟩

theorem map_fst_tails {key body : Bytes} {m : Nat} :
    (tails H key version body m).map Prod.fst = List.range' 1 (m - 1) := by
  rw [tails, List.map_map, show Prod.fst ∘ tail H key version body = id from rfl, List.map_id]

-- The fragments behind the first one have been published.
theorem Fresh.publish_tails {m : Nat} {body : Bytes} {x₁ : Session} (hx : x.Fresh H n start stop)
    (he : env.Sound H n) (hsp : env.Spares H x.writer.key) (hid : Identified H x.writer.key m)
    (h : (storage H i env).publishAll (tails H x.writer.key version body m) x = .ok () x₁) :
    x₁.Tracked H n start stop (List.range' 1 (m - 1)) ∧ x₁.commits = [] := by
  constructor
  case left =>
    rw [← map_fst_tails]
    refine hx.tracked.publishAll he hsp hid ?_ ?_ (fun _ hd => (of_mem_tails hd).2) h
    case refine_1 =>
      intro j hj
      rw [map_fst_tails, List.nil_append, List.mem_range'_1] at hj
      omega
    case refine_2 =>
      rw [map_fst_tails, List.nil_append]
      exact List.nodup_range'
  case right =>
    have hc := commits_publishAll H i env x (l := tails H x.writer.key version body m) fun _ hd =>
      (of_mem_tails hd).1
    rw [h] at hc
    exact hc.trans hx.commits

-- The head has been published behind all other fragments.
theorem Tracked.commit {m : Nat} {d : Bytes} {t : Turn} {dirMgr : DirManager} {x' : Session}
    (hx : x.Tracked H n start stop (List.range' 1 (m - 1))) (hc : x.commits = []) (he : env.Sound H n)
    (hsp : env.Spares H x.writer.key) (hid : Identified H x.writer.key m) (hm : 0 < m) (hd : 0 < d.length)
    (h : Installs H i env x 0 d t dirMgr x') :
    ∃ c, x'.commits = [c] ∧ c.published = x'.writer.published ∧
      (c.store.ring.start = start ∧ c.store.ring.stop = stop) ∧
      (c.before.SetRoom H x.writer.key →
        (∀ j < m, 1 ≤ j →
          c.before.position H (H.fragmentKey x.writer.key j) ≠ c.before.position H x.writer.key) →
        ∀ p ∈ c.published, c.store.Tracks H p.1 p.2 ∧ c.store.Maps H p) := by
  have hids : ∀ j ∈ List.range' 1 (m - 1), 1 ≤ j ∧ j < m := by
    intro j hj
    rw [List.mem_range'_1] at hj
    omega
  have hx' := hx.installs he hsp hid hd hids hm (fun h₀ => absurd (hids 0 h₀).1 (by decide)) h
  have harea := hx'.area
  have htracks := hx'.tracks
  have hcs := h.store
  refine ⟨_, by rw [h.commits, if_pos rfl, hc, List.nil_append], rfl, ?_, fun hroom hpos p hp => ?_⟩
  case refine_1 => rwa [hcs] at harea
  case refine_2 =>
    have hmaps := h.maps he hx.sound hd hroom fun p hp => by
      obtain ⟨j, hj, hk⟩ := hx.keys p hp
      rw [hk]
      exact hpos j (hids j hj).2 (hids j hj).1
    have ht := htracks p hp
    have hm := hmaps p hp
    rw [hcs] at ht hm
    exact ⟨⟨ht.flushed, ht.stands, ht.ram⟩, hm⟩

-- After a successful `Close` there is one commit, and it has the whole object if the head has another
-- position than the other fragments and could be inserted without a purge.
theorem commit_of_close (he : env.Sound H n) (hsp : env.Spares H x.writer.key)
    (hx : x.Fresh H n start stop) (ho : w.Open H x.writer.key (storage H i env) x)
    (hc : CacheWriter.close H x.writer.key (storage H i env) w = .ok () w')
    (hid : Identified H x.writer.key (count w.accepted.length)) :
    ∃ c info, w'.stripe.commits = [c] ∧ Encodes w.info info ∧
      (c.store.ring.start = start ∧ c.store.ring.stop = stop) ∧
      (∀ d ∈ documentsOf H x.writer.key w.version w.accepted info, d.2.length ≤ AggBufferSize) ∧
      (c.before.SetRoom H x.writer.key →
        (∀ j < count w.accepted.length, 1 ≤ j →
          c.before.position H (H.fragmentKey x.writer.key j) ≠ c.before.position H x.writer.key) →
        (∀ p ∈ c.published, c.store.Maps H p) ∧
        c.Holds H x.writer.key (fragments H x.writer.key w.version w.accepted info)) := by
  have hspec := close_spec ho w rfl
  rw [hc] at hspec
  obtain ⟨_, _, _, _, info, henc, hdocs, hpub⟩ := hspec
  rw [hdocs] at hpub
  obtain ⟨x₁, t, dirMgr, htails, hin⟩ := exists_installs hpub
  obtain ⟨hkey, _, hdoc⟩ := publishAll_extends htails
  obtain ⟨ht₁, hc₁⟩ := hx.publish_tails he hsp hid htails
  have hlen : 0 < (head H x.writer.key w.version w.accepted info).2.length := by
    rw [head, CacheWriter.length_document, DocHeaderSize]
    omega
  rw [← hkey] at hsp hid ⊢
  obtain ⟨c, hcs, hcp, harea, hall⟩ := ht₁.commit hc₁ he hsp hid (CacheWriter.count_pos _) hlen hin
  refine ⟨c, info, hcs, henc, harea, hkey ▸ fits_publishAll he hpub, fun hroom hpos => ?_⟩
  refine ⟨fun p hp => (hall hroom hpos p hp).2, fun j q hq => ?_⟩
  rw [hcp, hin.published] at hall
  rw [hcp, hin.published]
  suffices ∃ r : Record, (H.fragmentKey x₁.writer.key j, r) ∈ x₁.writer.published ++
      [(H.fragmentKey x₁.writer.key 0,
        ⟨t.allocation, (head H x.writer.key w.version w.accepted info).2⟩)] ∧ r.data = q by
    obtain ⟨r, hr, hq⟩ := this
    exact ⟨r, hr, hq, hall hroom hpos _ hr⟩
  rw [hkey] at hq
  obtain ⟨rfl, rfl⟩ | ⟨h₀, hj, rfl⟩ := getElem?_fragments hq
  case inl => exact ⟨_, List.mem_append_right _ (.head _), rfl⟩
  case inr =>
    obtain ⟨r, hr, hdata⟩ := hdoc _ (mem_tails (Nat.pos_of_ne_zero h₀) hj)
    rw [hkey]
    exact ⟨r, List.mem_append_left _ hr, hdata⟩

section Sample

-- Nobody else uses the stripe, and documents are not refused.
def solo : Env := fun k s doc =>
  if s.ring.task.isNone = true ∧ s.ring.storageErr = false ∧ s.ring.start ≤ s.ring.writePos ∧
      0 < doc.length then
    quiet k s doc
  else
    .error (.other "stripe in use")

theorem solo_eq_ok {k : Nat} {s : Store} {doc : Bytes} {t : Turn} (h : solo k s doc = .ok t) :
    s.ring.task = none ∧ s.ring.storageErr = false ∧ s.ring.start ≤ s.ring.writePos ∧ 0 < doc.length ∧
      doc.length ≤ AggBufferSize ∧ s.ring.writePos + doc.length ≤ s.ring.stop ∧ t = alone k s doc := by
  simp only [solo] at h
  split at h
  case isFalse => cases h
  case isTrue h₁ =>
    simp only [quiet] at h
    split at h
    case isFalse => cases h
    case isTrue h₂ =>
      cases h
      exact ⟨Option.isNone_iff_eq_none.mp h₁.1, h₁.2.1, h₁.2.2.1, h₁.2.2.2, h₂.1, h₂.2, rfl⟩

theorem sound_solo (H : Hash) (n : Nat) : solo.Sound H n where
  fits := fun h => (solo_eq_ok h).2.2.2.2.1
  keep := fun h hs => by
    obtain ⟨_, _, _, _, _, _, rfl⟩ := solo_eq_ok h
    exact ⟨hs.made, hs.range⟩

theorem run_alone {k : Nat} {s : Store} {doc : Bytes} (ht : s.ring.task = none)
    (he : s.ring.storageErr = false) (hs : s.ring.start ≤ s.ring.writePos) (hd : 0 < doc.length)
    (hf : doc.length ≤ AggBufferSize) (hst : s.ring.writePos + doc.length ≤ s.ring.stop) :
    Run Ring.Step (fun _ _ => True) s.ring (alone k s doc).store.ring := by
  refine Ring.run_lap (fun _ => trivial) ht he hs ?_ ⟨.inl ⟨rfl, le_rfl⟩, by simp, by simp [hd, hf]⟩
  simpa [FlushTask.stop, FlushTask.buffer] using hst

theorem spares_solo (H : Hash) (key : Bytes) : solo.Spares H key where
  store   := fun h => by
    obtain ⟨ht, he, hs, hd, hf, hst, rfl⟩ := solo_eq_ok h
    exact ⟨run_alone ht he hs hd hf hst, fun _ _ _ => ⟨rfl, rfl, rfl, rfl, rfl⟩, fun _ _ => .inl rfl⟩
  flushed := fun h => by
    obtain ⟨_, _, _, _, _, _, rfl⟩ := solo_eq_ok h
    simp [alone, Ring.lap, Ring.endFlush, Ring.beginFlush, FlushTask.records, FlushTask.records.place]

theorem publish_congr {env' : Env} {idx : Nat} {doc : Bytes}
    (h : env x.turns x.store doc = env' x.turns x.store doc) :
    publish H i env idx doc x = publish H i env' idx doc x := by
  simp only [publish, h]

theorem fresh_sampleSession (H : Hash) (key : Bytes) :
    (sampleSession key).Fresh H 256 3072 2097152 where
  sound     := (calm_sampleSession H key).sound
  layout    := (Ring.opened_cold _ (by rw [metaSize_sample]; decide) (by decide)).inv.toLayout
  area      := by simp [sampleSession, Ring.cold, metaSize_sample]
  published := rfl
  commits   := rfl

-- A writer that has got three bytes.
def sampleWriter (x : Session) : CacheWriter Session where
  stripe       := x
  version      := 1
  buffer       := [1, 2, 3]
  totalWritten := 3
  accepted     := [1, 2, 3]

theorem performAll_sampleWriter {key : Bytes} {S : Storage Session} :
    CacheWriter.performAll H 3072 2097152 key S [.write none (.head _) [1, 2, 3]]
      { stripe := x, version := 1 } = sampleWriter x :=
  CacheWriter.write_chunk rfl (by simp) (by simp)
    (CacheWriter.writeChunk_partial (by simp [TargetFragmentSize]))

theorem close_sampleWriter {key : Bytes} {S : Storage Session} {x' : Session}
    (h : S.publish 0 (document H key 1 3 0 [1, 2, 3] []) x = .ok () x') :
    CacheWriter.close H key S (sampleWriter x) = .ok () { sampleWriter x with
      stripe    := x'
      buffer    := []
      closed    := true
      documents := [(0, document H key 1 3 0 [1, 2, 3] [])] } := by
  simp [CacheWriter.close, sampleWriter, bind, EStateM.bind, get, getThe, MonadStateOf.get, EStateM.get_apply,
    CacheWriter.aborting, tryCatchThe, MonadExceptOf.tryCatch, EStateM.tryCatch_apply, CacheWriter.infoBytes,
    CacheWriter.closeBuffer, CacheWriter.closeHead, CacheWriter.writeFragment, h, CacheWriter.handed, pure,
    EStateM.pure, modify, modifyGet, MonadStateOf.modifyGet, EStateM.modifyGet_apply]

theorem publish_sample (H : Hash) {key d : Bytes} {index : DirTrie} (hd : 0 < d.length ∧ d.length ≤ 100)
    (hi : (DirTrie.new 256).setIdentity key key = .ok index) :
    ∃ x', (storage H 0 solo).publish 0 d (sampleSession key) = .ok () x' ∧
      ∃ c, x'.commits = [c] ∧ c.before = .init 256 ∧ c.store.Healthy := by
  have hcalm := calm_sampleSession H key
  have hw : (sampleSession key).store.ring.writePos = 3072 := (Nat.zero_add _).trans metaSize_sample
  have hs : (sampleSession key).store.ring.stop = 2097152 := rfl
  have hfit : 0 < d.length ∧ d.length ≤ AggBufferSize := ⟨hd.1, hd.2.trans (by decide)⟩
  have hend : (sampleSession key).store.ring.writePos + d.length ≤ (sampleSession key).store.ring.stop := by
    rw [hw, hs]
    omega
  have hsolo : solo (sampleSession key).turns (sampleSession key).store d =
      quiet (sampleSession key).turns (sampleSession key).store d := if_pos ⟨rfl, rfl, hcalm.lower, hd.1⟩
  have hroom : (sampleSession key).store.dirMgr.SetRoom H (H.fragmentKey key 0) :=
    DirManager.setRoom_init (by decide)
  obtain ⟨_, dirMgr, _, hpub, _⟩ := publish_quiet hcalm hfit hend hroom (fun _ => by simp [sampleSession])
  rw [enlist_head (x := (sampleSession key).installed H 0 d (alone (sampleSession key).turns
    (sampleSession key).store d) dirMgr) hi] at hpub
  refine ⟨_, (publish_congr hsolo).trans hpub, _, rfl, rfl, ?_, ?_, ⟨rfl, rfl⟩, ⟨rfl, rfl⟩⟩
  case refine_1 =>
    exact (Ring.grows (run_alone (k := 0) rfl rfl hcalm.lower hd.1 hfit.2 hend)).layout
      (fresh_sampleSession H key).layout
  case refine_2 => exact fun h => absurd h (Nat.lt_irrefl 0)

end Sample

end Session

end Bakemono
