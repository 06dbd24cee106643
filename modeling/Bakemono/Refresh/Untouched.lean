import Bakemono.Refresh.Update

namespace Bakemono

namespace Stripe

variable {H : Hash} {s s' s₀ : Stripe} {e : Event}

section Log

theorem bounds_run {Ok : Stripe → Event → Prop} (h : Run (Step H) Ok s s') :
    s'.ring.start = s.ring.start ∧ s'.ring.stop = s.ring.stop := by
  refine h.invariant
    (I := fun s' => s'.ring.start = s.ring.start ∧ s'.ring.stop = s.ring.stop) ?_ ⟨rfl, rfl⟩
  intro _ _ _ ⟨h₁, h₂⟩ hs _
  have ⟨h₃, h₄⟩ := hs.effect.bounds
  exact ⟨h₃.trans h₁, h₄.trans h₂⟩

-- A stripe that has just been opened, whatever its size.
structure Mounted (s : Stripe) : Prop where
  layout     : s.ring.Layout
  generation : s.ring.generation = if s.ring.phase then 3 else 2

theorem Opened.mounted (h : s.Opened H) : s.Mounted := ⟨h.ring.inv.toLayout, h.ring.generation⟩

theorem Mounted.run (h₀ : s₀.Mounted) (h : Run (Step H) (fun _ _ => True) s₀ s) :
    s.ring.Layout ∧ 2 ≤ s.ring.generation := by
  refine h.invariant (I := fun s => s.ring.Layout ∧ 2 ≤ s.ring.generation) ?_ ⟨h₀.layout, ?_⟩
  case refine_1 =>
    intro s e s' ⟨hl, hg⟩ hs _
    exact (hs.layout hl).imp_right hg.trans
  case refine_2 =>
    rw [h₀.generation]
    split <;> omega

theorem Step.flushed (h : Step H s e s') (hl : s.ring.Layout) {r : Record} (hr : r ∈ s'.ring.flushed) :
    r ∈ s.ring.flushed ∨ s.ring.generation ≤ r.generation := by
  cases h.effect
  case shrinks hs => exact .inl (by rwa [hs.ring] at hr)
  case begin hq _ _ => exact .inl (by rwa [hq] at hr)
  case put hq _ _ => exact .inl (by rwa [hq] at hr)
  case close hq _ _ => exact .inl (by rwa [hq] at hr)
  case flush hs _ _ _ =>
    generalize s'.ring = ring at hs hr
    cases hs
    case finish t ht =>
      refine (List.mem_append.mp hr).imp_right fun hr => ?_
      have ⟨_, _, _, _, _, hf⟩ := hl.busy t ht
      have := hf.order
      rw [FlushTask.generation_records hr]
      omega
    all_goals exact .inl hr

-- The records that are written during a run are not older than its first state.
theorem newer {Ok : Stripe → Event → Prop} (h : Run (Step H) Ok s s') (hl : s.ring.Layout) {r : Record}
    (hr : r ∈ s'.ring.flushed) : r ∈ s.ring.flushed ∨ s.ring.generation ≤ r.generation := by
  have ⟨_, _, hi⟩ : s'.ring.Layout ∧ s.ring.generation ≤ s'.ring.generation ∧
      ∀ r ∈ s'.ring.flushed, r ∈ s.ring.flushed ∨ s.ring.generation ≤ r.generation := by
    refine h.invariant (I := fun s' => s'.ring.Layout ∧ s.ring.generation ≤ s'.ring.generation ∧
      ∀ r ∈ s'.ring.flushed, r ∈ s.ring.flushed ∨ s.ring.generation ≤ r.generation) ?_
      ⟨hl, le_rfl, fun _ => .inl⟩
    intro s₁ e s₂ ⟨hl, hg, hi⟩ hs _
    have ⟨hl₂, hg₂⟩ := hs.layout hl
    exact ⟨hl₂, hg.trans hg₂, fun r hr => (hs.flushed hl hr).elim (hi r) fun h => .inr (hg.trans h)⟩
  exact hi r hr

-- The tasks of the aggregate buffer have been written, and none of them has started another lap.
structure Flushed (H : Hash) (s s' : Stripe) : Prop where
  run        : Run (Step H) Event.IsFlush s s'
  generation : s'.ring.generation = s.ring.generation
  task       : s'.ring.task = none
  storageErr : s'.ring.storageErr = false

theorem Flushed.rest (h : Flushed H s s') :
    s' = { s with ring := s'.ring, evacuations := s'.evacuations } := by
  refine h.run.relation
    (R := fun s s' => s' = { s with ring := s'.ring, evacuations := s'.evacuations }) (fun _ => rfl)
    (fun h₁ h₂ => by rw [h₂, h₁]) ?_
  intro s e s' hs he
  cases he
  cases hs
  all_goals rfl

-- A flush has failed, another lap has begun, or the directory has not been touched.
inductive Kept (s s' : Stripe) : Prop
  | failed : (s'.ring.storageErr = true) → Kept s s'
  | passed : (s.ring.generation < s'.ring.generation) → Kept s s'
  | begun (t) : (s'.ring.task = some t) → (s.ring.generation < t.generation) → Kept s s'
  | same :
    (s'.ring.generation = s.ring.generation) → (s'.ring.dirs = s.ring.dirs) →
    (s'.ring.phase = s.ring.phase) →
    (∀ t, s'.ring.task = some t → t.generation = s.ring.generation) → Kept s s'

theorem Kept.step {s'' : Stripe} (h : Kept s s') (hl : s'.ring.Layout) (hs : Step H s' .flush s'') :
    Kept s s'' := by
  cases hs
  case begin t links _ ht he _ _ hf _ _ =>
    cases h
    case failed h => cases he.symm.trans h
    case passed h => exact .passed h
    case begun t' ht' _ => cases ht.symm.trans ht'
    case same hg hd hp _ =>
      rcases hf.order with ⟨hq, _⟩ | hq
      case inl =>
        refine .same hg ?_ hp fun t' ht' => Option.some.inj ht' ▸ hq.trans hg
        simp only [Ring.beginFlush, hq, ne_eq, not_true_eq_false, if_false]
        exact hd
      case inr => exact .begun t rfl (by omega)
  case refuse => exact .failed rfl
  case write =>
    cases h
    case failed h => exact .failed h
    case passed h => exact .passed h
    case begun t ht h => exact .begun t ht h
    case same hg hd hp ht => exact .same hg hd hp ht
  case finish t ht =>
    obtain ⟨_, _, _, _, _, hf⟩ := hl.busy t ht
    cases h
    case failed h => exact .failed h
    case passed h =>
      have := hf.order
      exact .passed (by simp only [Ring.endFlush]; omega)
    case begun t' ht' h =>
      cases ht.symm.trans ht'
      exact .passed h
    case same hg hd hp ht' =>
      have hq := ht' t ht
      refine .same hq hd ?_ (fun _ h => by cases h)
      simp only [Ring.endFlush, hq, ← hg, ← hp, hl.phase]
  case fail => exact .failed rfl
  case broken => exact .failed rfl

theorem Flushed.dirs (h : Flushed H s s') (hl : s.ring.Layout) :
    s'.dirs = s.dirs ∧ s'.ring.phase = s.ring.phase := by
  have hk : Kept s s' ∧ s'.ring.Layout := by
    refine h.run.invariant (I := fun s' => Kept s s' ∧ s'.ring.Layout) ?_ ⟨?_, hl⟩
    case refine_1 =>
      intro s₁ e s₂ ⟨hk, hl⟩ hs he
      cases he
      exact ⟨hk.step hl hs, (hs.layout hl).1⟩
    case refine_2 =>
      cases ht : s.ring.task
      case none => exact .same rfl rfl rfl (by simp [ht])
      case some t =>
        have ⟨_, _, _, _, _, hf⟩ := hl.busy t ht
        rcases hf.order with ⟨hq, _⟩ | hq
        case inl => exact .same rfl rfl rfl fun t' ht' => Option.some.inj (ht.symm.trans ht') ▸ hq
        case inr => exact .begun t ht (by omega)
  cases hk.1
  case failed hf => cases h.storageErr.symm.trans hf
  case passed hg => exact absurd h.generation hg.ne'
  case begun t ht _ => cases h.task.symm.trans ht
  case same _ hd hp _ => exact ⟨hd, hp⟩

theorem Flushed.bounds (h : Flushed H s s') :
    s'.ring.start = s.ring.start ∧ s'.ring.stop = s.ring.stop :=
  bounds_run h.run

theorem Flushed.layout (h : Flushed H s s') (hl : s.ring.Layout) : s'.ring.Layout :=
  h.run.invariant (I := fun s => s.ring.Layout) (fun _ _ _ hl hs _ => (hs.layout hl).1) hl

-- A record that has been written meanwhile belongs to the lap.
theorem Flushed.record (h : Flushed H s s') (hl : s.ring.Layout) {r : Record}
    (hr : r ∈ s'.ring.flushed) (hn : r ∉ s.ring.flushed) :
    r.generation = s'.ring.generation ∧ s'.ring.allocationValid r.allocation r.data.length = true ∧
      0 < r.data.length ∧ r.data.length ≤ AggBufferSize := by
  have hl' := h.layout hl
  have hge := (newer h.run hl hr).resolve_left hn
  have ⟨h₁, h₂, h₃, h₄, h₅⟩ := hl'.placed r hr
  have ⟨hg, hw⟩ := h₅.resolve_right (by have := h.generation; omega)
  refine ⟨hg, Ring.allocationValid_iff.mpr ⟨?_, h₁, h₂, .inl ⟨hg, hw⟩⟩, h₃, h₄⟩
  rw [hl'.idle h.task]
  exact fun h => Nat.lt_irrefl 0 h.1

end Log

-- A stripe has been initialized for its length.
def Sized (s : Stripe) : Prop :=
  ∃ len, 32768 ≤ len ∧ s.ring.stop - s.ring.start ≤ len ∧
    s.fragmentsNum = (DirManager.init (len / 8192)).fragmentsNum

-- The directory has room for the fragments of every object that fits into the stripe.
theorem Sized.fragments (h : s.Sized) :
    s.ring.stop - s.ring.start ≤ s.fragmentsNum * TargetFragmentSize := by
  have ⟨len, hlen, hle, hn⟩ := h
  let buckets := len / 8192 / DirDepth
  let segments := (buckets + MaxBucketsPerSegment - 1) / MaxBucketsPerSegment
  let each := (buckets + segments - 1) / segments
  have hb : len < 32768 * (buckets + 1) := by
    simp only [buckets, DirDepth]
    omega
  have hpos : 0 < segments := by
    simp only [segments, MaxBucketsPerSegment]
    omega
  have hround : buckets ≤ segments * each := by
    have h₁ := Nat.div_add_mod (buckets + segments - 1) segments
    have h₂ := Nat.mod_lt (buckets + segments - 1) hpos
    simp only [each]
    omega
  have hfrag : s.fragmentsNum = 4 * (segments * each) := by
    rw [hn]
    simp only [DirManager.fragmentsNum, DirManager.init, DirManager.segmentsNum, List.length_replicate,
      DirDepth, each, segments, buckets]
    ring
  rw [hfrag, TargetFragmentSize]
  generalize segments * each = slots at hround
  omega

end Stripe

namespace CacheReader

variable {H : Hash} {start stop i : Nat} {key p : Bytes} {v : View} {d : Dir} {r r' : CacheReader}
  {ram : Option RamEntry}

theorem locate_of_handleRead (h : handleRead start stop v key i = .ok (d, p, ram)) :
    locate start stop v key i = .ok d := by
  rw [handleRead_eq] at h
  obtain ⟨d', hd, hf⟩ := Except.bind_eq_ok.mp h
  suffices d' = d from this ▸ hd
  simp only [fetch] at hf
  split at hf
  case h_1 => exact congrArg Prod.fst (Except.ok.inj hf)
  case h_2 =>
    obtain ⟨_, _, he⟩ := Except.map_eq_ok.mp hf
    exact congrArg Prod.fst he

theorem handleRead_of_load (h : r.load H start stop key v i = .ok r') :
    ∃ p ram, handleRead start stop v (H.fragmentKey key i) i = .ok (r'.dir, p, ram) := by
  simp only [load, Except.bind_eq_ok] at h
  obtain ⟨⟨d, p, ram⟩, hr, h⟩ := h
  refine ⟨p, ram, ?_⟩
  simp only [parseDoc, Except.bind_eq_ok, Except.check_bind_eq_ok] at h
  obtain ⟨_, _, _, _, _, _, _, _, _, _, _, he⟩ := h
  cases he
  exact hr

theorem load_of_loadHTTPInfo {env : Nat → View} {info : CacheHTTPInfo} (he : r.readErr = none)
    (hi : r.info = none) (h : loadHTTPInfo H start stop key env r = (.ok info, r')) :
    ∃ r₁, r.load H start stop key (env r.loads) 0 = .ok r₁ ∧ r' = { r₁ with info := some info } := by
  simp only [loadHTTPInfo, he, hi] at h
  cases hl : r.load H start stop key (env r.loads) 0
  case error e => simp [hl] at h
  case ok r₁ =>
    refine ⟨r₁, rfl, ?_⟩
    simp only [hl] at h
    cases hp : r₁.parseInfo
    case error e => simp [hp] at h
    case ok info' =>
      simp only [hp, Prod.mk.injEq, Except.ok.injEq] at h
      exact h.1 ▸ h.2.symm

end CacheReader

namespace Refresh

open CacheReader (header payload)

variable {n : Nat} {H : Hash} {c c' : Cache n} {token : FillToken n} {src : CacheVC n} {v : View}
  {info : CacheHTTPInfo} {w : UInt64} {body metadata encoded : Bytes} {frags : List Bytes} {i : Nat}

-- A committed object that can be read completely, and a new reader that has been asked for its
-- metadata.
structure Subject (H : Hash) (c : Cache n) (src : CacheVC n) (v : View) (w : UInt64)
    (body metadata : Bytes) (frags : List Bytes) : Prop where
  reached : ∃ s₀ : Stripe, s₀.Mounted ∧ Run (Stripe.Step H) (fun _ _ => True) s₀ (c src.stripe)
  sized   : (c src.stripe).Sized
  bound   : (c src.stripe).ring.stop < 2 ^ 63
  shown   : v.Shows (c src.stripe)
  object  : CacheReader.Object H (c src.stripe).ring.start (c src.stripe).ring.stop src.key w body
    metadata frags
  served  : CacheReader.Serves H (c src.stripe).ring.start (c src.stripe).ring.stop src.key
    (fun _ => v) frags
  loaded  : ∃ info, CacheReader.loadHTTPInfo H (c src.stripe).ring.start (c src.stripe).ring.stop
    src.key (fun _ => v) {} = (.ok info, src.reader)
  opened  : src.reading = true ∧ src.closed = false ∧ src.attached = false ∧
    src.generation = (c src.stripe).generation

-- Every fragment has an entry, which is valid.
theorem Subject.entry (h : Subject H c src v w body metadata frags)
    (hi : i = 0 ∨ i * TargetFragmentSize < body.length) :
    ∃ x, (c src.stripe).dirs (H.fragmentKey src.key i) = some x ∧
      (c src.stripe).ring.dirValid x.dir = true := by
  have hq := List.getElem?_eq_getElem (h.object.complete i hi)
  have ⟨d, _, hr, _⟩ := h.served 0 i _ hq
  have ⟨_, _, hg, _, hv⟩ := CacheReader.locate_eq_ok.mp (CacheReader.locate_of_handleRead hr)
  rw [h.shown.get] at hg
  have ⟨x, hx, hd⟩ := Option.map_eq_some_iff.mp hg
  exact ⟨x, hx, by rw [hd, ← h.shown.dirValid, hv]⟩

-- The reader has the head in its buffer.
theorem Subject.reader (h : Subject H c src v w body metadata frags) :
    frags[0]? = some src.reader.buf ∧ src.reader.info ≠ none ∧
    (src.reader.fragmentIndex = 0 ∧ src.reader.totalRead = 0 ∧ src.reader.offset = 0) ∧
    ((c src.stripe).dirs src.key).map Entry.dir = some src.reader.dir := by
  have ⟨info, hl⟩ := h.loaded
  have ⟨r₁, hr₁, hr⟩ := CacheReader.load_of_loadHTTPInfo rfl rfl hl
  have hq := List.getElem?_eq_getElem (h.object.complete 0 (.inl rfl))
  have ⟨r₂, hr₂, hb, _⟩ := h.object.load (r := {}) h.served hq (absurd rfl) (fun _ h => nomatch h) 0
  cases hr₁.symm.trans hr₂
  have ⟨_, hloads⟩ := CacheReader.load_eq_ok hr₁
  have ⟨_, _, hread⟩ := CacheReader.handleRead_of_load hr₁
  have ⟨_, _, hg, _⟩ := CacheReader.locate_eq_ok.mp (CacheReader.locate_of_handleRead hread)
  rw [hr]
  refine ⟨hq.trans (congrArg some hb.symm), nofun, ⟨hloads.index, hloads.read, hloads.offset⟩, ?_⟩
  rw [← h.shown.get]
  simpa [Hash.fragmentKey] using hg

-- The number of fragments is computed in 64 bits.
theorem fragments_toNat (doc : Doc) (h : doc.totalLen.toNat < 2 ^ 63) : (fragments doc).toNat =
    (doc.totalLen.toNat + TargetFragmentSize - 1) / TargetFragmentSize := by
  have ht : (UInt64.ofNat TargetFragmentSize).toNat = TargetFragmentSize :=
    UInt64.toNat_ofNat_of_lt (by decide)
  have h₁ : (1 : UInt64).toNat = 1 := rfl
  simp only [fragments, UInt64.toNat_div, UInt64.toNat_sub, UInt64.toNat_add, ht, h₁]
  simp only [TargetFragmentSize]
  omega

theorem Subject.count (h : Subject H c src v w body metadata frags) :
    (fragments (header src.reader.buf)).toNat =
      (body.length + TargetFragmentSize - 1) / TargetFragmentSize ∧
    (fragments (header src.reader.buf)).toNat ≤ (c src.stripe).fragmentsNum := by
  have ⟨hq, _⟩ := h.reader
  have ht := (h.object.head _ hq).1
  have hfit := h.object.fits
  have hroom := h.sized.fragments
  have hb := h.bound
  have hn := fragments_toNat (header src.reader.buf) (by omega)
  rw [ht] at hn
  refine ⟨hn, hn ▸ ?_⟩
  simp only [TargetFragmentSize] at hroom ⊢
  omega

theorem Subject.index (h : Subject H c src v w body metadata frags) :
    i ∈ List.range' 1 ((fragments (header src.reader.buf)).toNat - 1) ↔
      0 < i ∧ i * TargetFragmentSize < body.length := by
  rw [List.mem_range'_1, h.count.1]
  simp only [TargetFragmentSize]
  omega

-- What nobody else does while the document is written: the other stripes stay as they are, this one
-- writes its log, and the document ends there without having reached one of the fragments.
structure Quiet (H : Hash) (c c' : Cache n) (src : CacheVC n) (body : Bytes) (r : Record) : Prop where
  others  : ∀ i, i ≠ src.stripe → c' i = c i
  flushed : Stripe.Flushed H (c src.stripe) (c' src.stripe)
  written : r ∈ (c' src.stripe).ring.flushed ∧ r ∉ (c src.stripe).ring.flushed
  last    : (c' src.stripe).ring.writePos = r.stop
  spared  : ∀ i x, i * TargetFragmentSize < body.length →
    (c src.stripe).dirs (H.fragmentKey src.key i) = some x → x.dir.phase ≠ (c src.stripe).ring.phase →
    (c' src.stripe).ring.writePos ≤ x.dir.offset

theorem Quiet.same {r : Record} (h : Quiet H c c' src body r) (hl : (c src.stripe).ring.Layout) :
    c.Same c' := by
  have ⟨hd, _⟩ := h.flushed.dirs hl
  have hr := h.flushed.rest
  have hg := h.flushed.generation
  have hi (i) : (c' i).closing = (c i).closing ∧ (c' i).generation = (c i).generation ∧
      (c' i).policyEpochs = (c i).policyEpochs ∧ (c' i).ring.generation = (c i).ring.generation ∧
      (c' i).index = (c i).index ∧ (c' i).dirs = (c i).dirs ∧ (c' i).entries = (c i).entries := by
    by_cases hi : i = src.stripe
    case pos =>
      subst hi
      rw [hr]
      exact ⟨rfl, rfl, rfl, hg, rfl, hd, rfl⟩
    case neg => simp [h.others i hi]
  constructor
  case epochs => simp only [Cache.epochs, hi]
  case wraps => funext i; exact (hi i).2.2.2.1
  case index => exact fun i => (hi i).2.2.2.2.1
  case dirs => exact fun i => (hi i).2.2.2.2.2.1
  case entries => exact fun i => (hi i).2.2.2.2.2.2

theorem Subject.exists_retain (h : Subject H c src v w body metadata frags)
    (hi : i * TargetFragmentSize < body.length) :
    ∃ t, retain H (c src.stripe) src.key i = .ok t := by
  have ⟨s₀, hs₀, hrun⟩ := h.reached
  have ⟨_, hg⟩ := hs₀.run hrun
  have ⟨x, hx, hv⟩ := h.entry (.inr hi)
  exact ⟨_, retain_eq_ok.mpr ⟨x, hx, hv, fun _ => by omega, rfl⟩⟩

-- The first critical section succeeds, and retains every fragment behind the head.
theorem Subject.prepare {key selector : Bytes} (h : Subject H c src v w body metadata frags)
    (hm : info.marshal = .ok encoded) (hl : encoded.length ≤ 64 <<< 10)
    (ht : c.beginFill H key selector = .ok token)
    (hk : src.key ∈ (c src.stripe).index.keysOf selector)
    (hw : ∀ head ∈ token.snapshot, head.writer = none) :
    ∃ draft, prepare H c token src info = .ok draft ∧ draft.head = src.reader.dir ∧
      draft.data = document H (header src.reader.buf) encoded (payload src.reader.buf) ∧
      ∀ t, t ∈ draft.tails ↔ ∃ i, (0 < i ∧ i * TargetFragmentSize < body.length) ∧
        retain H (c src.stripe) src.key i = .ok t := by
  obtain ⟨hq, hi, hu, hd⟩ := h.reader
  obtain ⟨hread, hclosed, hatt, hgen⟩ := h.opened
  obtain ⟨hcheck, hsel⟩ := Cache.checkFillLocked_beginFill ht
  obtain ⟨_, _, hsnap⟩ := Cache.checkFillLocked_eq_ok.mp hcheck
  obtain ⟨e, he, hv⟩ := h.entry (i := 0) (.inl rfl)
  rw [Hash.fragmentKey, if_pos rfl] at he
  have hdir : e.dir = src.reader.dir := by simpa [he] using hd
  have howned : Owned token src := by
    have hmem : c.fillHead src.stripe src.key ∈ token.snapshot :=
      (Cache.mem_fillSnapshotLocked hsnap).mpr ⟨src.stripe, src.key, hsel ▸ hk, rfl⟩
    have hnone := hw _ hmem
    simp only [Cache.fillHead] at hmem hnone
    rw [hnone, hd] at hmem
    exact hmem
  have hdoc : DocHeaderSize + (header src.reader.buf).hlen.toNat ≤ src.reader.buf.length := by
    obtain ⟨_, hfit, _⟩ := Doc.validate_eq_ok.mp (h.object.fragment 0 _ hq).valid
    exact (Nat.add_comm ..).trans_le (hfit.hlen.trans hfit.size)
  obtain ⟨tails, hmap⟩ := Except.exists_mapM (l := List.range' 1 _) fun i hi =>
    h.exists_retain (h.index.mp hi).2
  refine ⟨⟨src.reader.dir, tails, _⟩, prepare_eq_ok.mpr ⟨encoded, e, ⟨⟨hread, hclosed, hatt⟩, hi, hu, hdoc⟩,
    ⟨hcheck, howned, hgen, he, hdir, hv, h.count.2⟩, hm, hl, rfl, hmap, rfl⟩, rfl, rfl, fun t => ?_⟩
  simp only [← h.index]
  exact Except.mem_mapM hmap

-- Whether a retained fragment passes the check of the second critical section.
theorem Quiet.holds_iff {r : Record} {x : Entry (Record × Mark)} {t : Retained}
    (h : Quiet H c c' src body r) (hlay : (c src.stripe).ring.Layout)
    (hg : 2 ≤ (c src.stripe).ring.generation) (hi : i * TargetFragmentSize < body.length)
    (hx : (c src.stripe).dirs (H.fragmentKey src.key i) = some x)
    (ht : retain H (c src.stripe) src.key i = .ok t) :
    Retained.Holds t (c' src.stripe) ↔
      x.dir.offset + x.dir.approxSize ≤ (c src.stripe).ring.stop ∧
      (x.dir.phase = (c src.stripe).ring.phase →
        x.dir.offset + x.dir.approxSize ≤ (c' src.stripe).ring.writePos) := by
  have ⟨x', hx', hv, _, ht⟩ := retain_eq_ok.mp ht
  cases hx.symm.trans hx'
  subst ht
  have ⟨hd, _⟩ := h.flushed.dirs hlay
  have ⟨hstart, hstop⟩ := h.flushed.bounds
  have hgen := h.flushed.generation
  have hidle := (h.flushed.layout hlay).idle h.flushed.task
  have ⟨_, _, _, hlo, _, _⟩ := Ring.dirValid_iff.mp hv
  have hsp := h.spared i x hi hx
  simp only [Retained.Holds, hd, hx, Option.map_some, true_and, Ring.allocationValid_iff, hidle,
    Nat.lt_irrefl, false_and, not_false_eq_true, hstart, hstop, hgen, hlo]
  by_cases hp : x.dir.phase = (c src.stripe).ring.phase
  case pos =>
    simp only [hp, if_true, true_and, forall_const]
    exact and_congr_right fun _ => ⟨fun h => by omega, .inl⟩
  case neg =>
    have := hsp hp
    simp only [hp, if_false, false_imp_iff, and_true]
    exact ⟨And.left, fun h => ⟨h, .inr ⟨by omega, this⟩⟩⟩

-- The call has been given everything it needs, and nobody else touches the cache.
structure Untouched (H : Hash) (c c' : Cache n) (token : FillToken n) (src : CacheVC n)
    (info : CacheHTTPInfo) (write : Bytes → Except Err Allocation) (body : Bytes) : Prop where
  subject : ∃ v w metadata frags, Subject H c src v w body metadata frags
  family  : ∃ key selector, c.beginFill H key selector = .ok token ∧
    src.key ∈ (c src.stripe).index.keysOf selector
  writers : ∀ head ∈ token.snapshot, head.writer = none
  quiet   : ∃ encoded a, info.marshal = .ok encoded ∧ encoded.length ≤ 64 <<< 10 ∧
    let data := document H (header src.reader.buf) encoded (payload src.reader.buf)
    write data = .ok a ∧ Quiet H c c' src body ⟨a, data⟩

-- The rounded size of no fragment behind the head exceeds the stripe, or that part of it which has
-- been written in the lap of the fragment.
def Contained (H : Hash) (c c' : Cache n) (src : CacheVC n) (body : Bytes) : Prop :=
  ∀ i x, 0 < i → i * TargetFragmentSize < body.length →
    (c src.stripe).dirs (H.fragmentKey src.key i) = some x →
    x.dir.offset + x.dir.approxSize ≤ (c src.stripe).ring.stop ∧
    (x.dir.phase = (c src.stripe).ring.phase →
      x.dir.offset + x.dir.approxSize ≤ (c' src.stripe).ring.writePos)

variable {write : Bytes → Except Err Allocation} {kept : Bool}

-- The second critical section gets as far as the check of the fragments.
theorem Untouched.error_eq (h : Untouched H c c' token src info write body) (kept : Bool) :
    ∃ tails : List Retained,
      (updateHTTPInfo H token info write none kept c c' src).1 =
        (if ∃ t ∈ tails, ¬Retained.Holds t (c' src.stripe) then some .invalidated else none) ∧
      ∀ t, t ∈ tails ↔ ∃ i, (0 < i ∧ i * TargetFragmentSize < body.length) ∧
        retain H (c src.stripe) src.key i = .ok t := by
  obtain ⟨v, w, metadata, frags, hs⟩ := h.subject
  obtain ⟨_, _, ht, hk⟩ := h.family
  obtain ⟨encoded, a, hm, hl, ha, hq⟩ := h.quiet
  obtain ⟨s₀, hs₀, hrun⟩ := hs.reached
  obtain ⟨hlay, hg⟩ := hs₀.run hrun
  obtain ⟨draft, hp, hhead, hdata, htails⟩ := hs.prepare hm hl ht hk h.writers
  obtain ⟨_, e, _, hf, _⟩ := prepare_eq_ok.mp hp
  have hsame := hq.same hlay
  obtain ⟨hgen, hplace, hpos, hmax⟩ := hq.flushed.record hlay hq.written.1 hq.written.2
  rw [← hdata] at hplace hpos hmax
  have hsec : 0 < sectors draft.data.length ∧ sectors draft.data.length ≤ DirMaxDataSize := by
    obtain ⟨h₁, h₂⟩ : draft.data.length ≤ sectors draft.data.length ∧
        sectors draft.data.length < draft.data.length + SectorSize := Ring.sectors_bounds
    simp only [AggBufferSize, DirMaxDataSize, SectorSize] at *
    omega
  obtain ⟨d, hd⟩ := Dir.exists_make (o := a.offset) (t := e.dir.tag) (p := odd a.generation) hsec.1 hsec.2
  have hgen' : src.generation = (c' src.stripe).generation := by
    have hr := congrArg Stripe.generation hq.flushed.rest
    exact hf.generation.trans hr.symm
  have hadm : Admits H c' token src draft a e d :=
    ⟨hsame.checkFillLocked.trans hf.check, (congrFun (hsame.dirs _) _).trans hf.entry,
      hf.head.trans hhead.symm, hgen', hplace, hd⟩
  refine ⟨draft.tails, ?_, htails⟩
  simp only [updateHTTPInfo, hp, hdata ▸ ha, commit_eq, recheck_eq hadm]
  split_ifs <;> rfl

theorem Untouched.holds_iff (h : Untouched H c c' token src info write body) {tails : List Retained}
    (htails : ∀ t, t ∈ tails ↔ ∃ i, (0 < i ∧ i * TargetFragmentSize < body.length) ∧
      retain H (c src.stripe) src.key i = .ok t) :
    (∀ t ∈ tails, Retained.Holds t (c' src.stripe)) ↔ Contained H c c' src body := by
  have ⟨v, w, metadata, frags, hs⟩ := h.subject
  have ⟨_, _, _, _, _, hq⟩ := h.quiet
  have ⟨s₀, hs₀, hrun⟩ := hs.reached
  have ⟨hlay, hg⟩ := hs₀.run hrun
  constructor
  case mp =>
    intro hall i x h₀ hi hx
    have ⟨t, hret⟩ := hs.exists_retain hi
    exact (hq.holds_iff hlay hg hi hx hret).mp (hall t ((htails t).mpr ⟨i, ⟨h₀, hi⟩, hret⟩))
  case mpr =>
    intro hall t ht
    have ⟨i, ⟨h₀, hi⟩, hret⟩ := (htails t).mp ht
    have ⟨x, hx, _⟩ := retain_eq_ok.mp hret
    exact (hq.holds_iff hlay hg hi hx hret).mpr (hall i x h₀ hi hx)

theorem Untouched.cases (h : Untouched H c c' token src info write body) (kept : Bool) :
    Contained H c c' src body ∧ (updateHTTPInfo H token info write none kept c c' src).1 = none ∨
    ¬Contained H c c' src body ∧
      (updateHTTPInfo H token info write none kept c c' src).1 = some .invalidated := by
  have ⟨tails, he, htails⟩ := h.error_eq kept
  have hc := h.holds_iff htails
  rw [he, ← hc]
  by_cases hall : ∀ t ∈ tails, Retained.Holds t (c' src.stripe)
  case pos => exact .inl ⟨hall, if_neg (by simpa using hall)⟩
  case neg => exact .inr ⟨hall, if_pos (by simpa using hall)⟩

-- On an object that nobody touches the call succeeds if and only if it is contained.
theorem updateHTTPInfo_untouched (h : Untouched H c c' token src info write body) :
    (updateHTTPInfo H token info write none kept c c' src).1 = none ↔ Contained H c c' src body := by
  obtain ⟨hc, he⟩ | ⟨hc, he⟩ := h.cases kept
  case inl => simp [hc, he]
  case inr => simp [hc, he]

section Sample

open Stripe (sampleStripe)

-- An object of two fragments. The second one was written at the end of a lap, and the head at the
-- beginning of the next one. The stripe has been closed and opened again since then.
def edgeHead (p : Bytes) : Bytes :=
  CacheWriter.document sampleHash [97] 1 (TargetFragmentSize + 1) 0 p []

def edgeTail : Bytes :=
  CacheWriter.document sampleHash [97] 1 (TargetFragmentSize + 1) 1 [0] []

def edgeDir : Dir := (Dir.make 5632 1049088 0 true).getD {}

def edgeEntry (p : Bytes) : Entry (Record × Mark) where
  dir  := edgeDir
  mark := (⟨⟨5632, 3, 2⟩, edgeHead p⟩, ⟨true, [97], 0, 1⟩)

-- Whether there is another sector behind the fragment.
def edgeOffset (near : Bool) : Nat := if near then 4194204 else 4193280

def edgeTailEntry (near : Bool) : Entry (Record × Mark) where
  dir  := (Dir.make (edgeOffset near) 512 0 false).getD {}
  mark := (⟨⟨edgeOffset near, 2, 1⟩, edgeTail⟩, ⟨false, [97], 0, 0⟩)

def edgeDisk (near : Bool) (p : Bytes) : File :=
  (File.writeAt ⟨0, fun _ => 0⟩ 5632 (edgeHead p)).writeAt (edgeOffset near) edgeTail

def edgeRing (near : Bool) (p : Bytes) : Ring Bytes Mark where
  start      := 5632
  stop       := 4194304
  writePos   := 1054280
  generation := 3
  phase      := true
  disk       := edgeDisk near p
  dirs       := fun k =>
    if k = [97] then some (edgeEntry p)
    else if k = sampleHash.fragmentKey [97] 1 then some (edgeTailEntry near)
    else none
  flushed    := [(edgeEntry p).mark.1, (edgeTailEntry near).mark.1]

def edgeStripe (near : Bool) (p : Bytes) : Stripe :=
  { sampleStripe with
    ring         := edgeRing near p
    index        := ((DirTrie.new 512).setIdentity [97] [97]).toOption.getD (.new 512)
    fragmentsNum := (DirManager.init 512).fragmentsNum }

variable {near : Bool} {p : Bytes}

theorem length_edgeHead (hp : p.length = TargetFragmentSize) : (edgeHead p).length = 1048648 := by
  rw [edgeHead, CacheWriter.length_document, hp]
  rfl

theorem length_edgeTail : edgeTail.length = 73 := CacheWriter.length_document

theorem dirs_edgeHead : (edgeStripe near p).dirs [97] = some (edgeEntry p) := rfl

theorem dirs_edgeTail :
    (edgeStripe near p).dirs (sampleHash.fragmentKey [97] 1) = some (edgeTailEntry near) := rfl

theorem of_dirs_edgeStripe {k : Bytes} {x : Entry (Record × Mark)}
    (h : (edgeStripe near p).dirs k = some x) : x = edgeEntry p ∨ x = edgeTailEntry near := by
  have h : (if k = [97] then some (edgeEntry p)
    else if k = sampleHash.fragmentKey [97] 1 then some (edgeTailEntry near) else none) = some x := h
  split_ifs at h
  case pos => exact .inl (Option.some.inj h).symm
  case pos => exact .inr (Option.some.inj h).symm

theorem stands_edgeEntry (hp : p.length = TargetFragmentSize) :
    Ring.Stands (edgeEntry p).dir (edgeEntry p).mark.1 := by
  have h : edgeDir.offset = 5632 ∧ 1048648 ≤ edgeDir.approxSize ∧ edgeDir.phase = odd 3 := by decide
  exact ⟨h.1, (length_edgeHead hp).trans_le h.2.1, h.2.2⟩

theorem stands_edgeTailEntry : Ring.Stands (edgeTailEntry near).dir (edgeTailEntry near).mark.1 := by
  refine ⟨by cases near <;> decide, ?_, by cases near <;> decide⟩
  show edgeTail.length ≤ _
  rw [length_edgeTail]
  cases near <;> decide

theorem edgeOffset_bounds (near : Bool) : 4193280 ≤ edgeOffset near ∧ edgeOffset near ≤ 4194204 := by
  cases near <;> decide

theorem holds_edgeDisk (near : Bool) (hp : p.length = TargetFragmentSize) :
    (edgeDisk near p).Holds 5632 (edgeHead p) ∧ (edgeDisk near p).Holds (edgeOffset near) edgeTail := by
  have hh := length_edgeHead hp
  have ht := length_edgeTail
  have ho := edgeOffset_bounds near
  refine ⟨(File.holds_writeAt ?_).agree (File.agree_writeAt (.inl ?_)), File.holds_writeAt ?_⟩
  case refine_1 => exact List.ne_nil_of_length_pos (by omega)
  case refine_2 => omega
  case refine_3 => exact List.ne_nil_of_length_pos (by omega)

theorem fitting_edgeHead (hp : p.length = TargetFragmentSize) : CacheWriter.Fitting p [] := by
  refine ⟨?_, hp.le⟩
  rw [hp]
  decide

theorem fragment_edgeHead (hp : p.length = TargetFragmentSize) :
    CacheReader.Fragment sampleHash [97] 0 1 (edgeHead p) :=
  CacheWriter.fragment_document (fitting_edgeHead hp)

theorem fragment_edgeTail : CacheReader.Fragment sampleHash [97] 1 1 edgeTail :=
  CacheWriter.fragment_document ⟨by decide, by decide⟩

theorem opened_edgeRing (near : Bool) (hp : p.length = TargetFragmentSize) : (edgeRing near p).Opened := by
  have hh := length_edgeHead hp
  have ht := length_edgeTail
  have ho := edgeOffset_bounds near
  obtain ⟨hd₀, hd₁⟩ := holds_edgeDisk near hp
  have hplaced : (edgeRing near p).Placed (edgeEntry p).mark.1 ∧
      (edgeRing near p).Placed (edgeTailEntry near).mark.1 := by
    constructor
    all_goals simp only [Ring.Placed, Record.stop, Record.offset, Record.generation, edgeRing,
      edgeEntry, edgeTailEntry, AggBufferSize, true_and]
    all_goals omega
  have hb : 5632 ≤ 1054280 ∧ 1054280 ≤ 4194304 ∧ 4194304 ≤ 2 ^ 40 := by decide
  refine ⟨hb.1, hb.2.1, hb.2.2, rfl, ⟨rfl, rfl, rfl⟩, fun r => ?_, fun r hr => ?_, fun k e he => ?_⟩
  case refine_1 =>
    constructor
    case mp =>
      intro hr
      simp only [edgeRing, List.mem_cons, List.not_mem_nil, or_false] at hr
      rcases hr with rfl | rfl
      case inl => exact ⟨[97], _, dirs_edgeHead, rfl⟩
      case inr => exact ⟨_, _, dirs_edgeTail (p := p), rfl⟩
    case mpr =>
      rintro ⟨k, e, he, hr⟩
      subst hr
      rcases of_dirs_edgeStripe he with rfl | rfl
      case inl => simp [edgeRing]
      case inr => simp [edgeRing]
  case refine_2 =>
    simp only [edgeRing, List.mem_cons, List.not_mem_nil, or_false] at hr
    rcases hr with rfl | rfl
    case inl => exact hplaced.1
    case inr => exact hplaced.2
  case refine_3 =>
    rcases of_dirs_edgeStripe he with rfl | rfl
    case inl => exact ⟨stands_edgeEntry hp, ⟨.inl rfl, fun _ h => by cases h⟩, hd₀⟩
    case inr =>
      refine ⟨stands_edgeTailEntry, ⟨.inr ⟨rfl, ?_⟩, fun _ h => by cases h⟩, hd₁⟩
      show 1054280 ≤ edgeOffset near
      omega

theorem opened_edgeStripe (near : Bool) (hp : p.length = TargetFragmentSize) :
    (edgeStripe near p).Opened sampleHash := by
  have ht := length_edgeTail
  have ho := edgeOffset_bounds near
  have hr := opened_edgeRing near hp
  refine ⟨⟨fun _ => rfl, rfl, fun k x hx => ?_⟩, hr, ?_⟩
  case refine_1 =>
    have ⟨hs, _⟩ := hr.entry k x hx
    have hf : Stripe.Formed sampleHash x.mark.1.data := by
      rcases of_dirs_edgeStripe hx with rfl | rfl
      case inl => exact Stripe.formed_fragment (fragment_edgeHead hp)
      case inr => exact Stripe.formed_fragment fragment_edgeTail
    have ⟨_, hstop, _⟩ := hr.placed x.mark.1 ((hr.flushed _).mpr ⟨k, x, hx, rfl⟩)
    exact ⟨hf, hs.size, by rw [hs.offset]; exact hstop⟩
  case refine_2 =>
    intro r h r' h'
    simp only [edgeStripe, edgeRing, List.mem_cons, List.not_mem_nil, or_false] at h h'
    rcases h with rfl | rfl <;> rcases h' with rfl | rfl
    case inl.inl => exact fun _ _ => rfl
    case inl.inr => exact fun hg => nomatch hg
    case inr.inl => exact fun hg => nomatch hg
    case inr.inr => exact fun _ _ => rfl

theorem sized_edgeStripe : (edgeStripe near p).Sized := by
  have h : 4194304 - 5632 ≤ 4194304 := by decide
  exact ⟨4194304, by decide, h, rfl⟩

theorem header_edgeHead : (header (edgeHead p)).totalLen = 1048577 ∧ (header (edgeHead p)).hlen = 0 := by
  rw [edgeHead, CacheWriter.header_document]
  exact ⟨rfl, rfl⟩

theorem payload_edgeHead (hp : p.length = TargetFragmentSize) : payload (edgeHead p) = p :=
  CacheWriter.payload_document (fragment_edgeHead hp)

theorem payload_edgeTail : payload edgeTail = [0] := CacheWriter.payload_document fragment_edgeTail

theorem object_edge (hp : p.length = TargetFragmentSize) :
    CacheReader.Object sampleHash 5632 4194304 [97] 1 (p ++ [0]) [] [edgeHead p, edgeTail] := by
  have hl : (p ++ [0]).length = TargetFragmentSize + 1 := by rw [List.length_append, hp]; rfl
  have cases {i : Nat} {q : Bytes} (h : [edgeHead p, edgeTail][i]? = some q) :
      i = 0 ∧ q = edgeHead p ∨ i = 1 ∧ q = edgeTail := by
    match i with
    | 0     => exact .inl ⟨rfl, (Option.some.inj h).symm⟩
    | 1     => exact .inr ⟨rfl, (Option.some.inj h).symm⟩
    | i + 2 => cases h
  constructor
  case fragment =>
    intro i q h
    rcases cases h with ⟨rfl, rfl⟩ | ⟨rfl, rfl⟩
    case inl => exact fragment_edgeHead hp
    case inr => exact fragment_edgeTail
  case length =>
    intro i q h
    rw [hl]
    rcases cases h with ⟨rfl, rfl⟩ | ⟨rfl, rfl⟩
    case inl => rw [payload_edgeHead hp, hp]; rfl
    case inr => rw [payload_edgeTail]; rfl
  case head =>
    intro q h
    cases h
    rw [hl, header_edgeHead.1]
    exact ⟨rfl, CacheWriter.metadata_document (fitting_edgeHead hp)⟩
  case tail =>
    intro i q h h₀
    rcases cases h with ⟨rfl, rfl⟩ | ⟨rfl, rfl⟩
    case inl => exact absurd rfl h₀
    case inr =>
      rw [payload_edgeTail, edgeTail, CacheWriter.header_document]
      exact ⟨rfl, by decide, rfl⟩
  case complete =>
    intro i hi
    rw [hl] at hi
    simp only [TargetFragmentSize] at hi
    show i < 2
    omega
  case payloads =>
    simp [payload_edgeHead hp, payload_edgeTail]
  case fits =>
    rw [hl]
    decide

theorem dirValid_edge (hp : p.length = TargetFragmentSize) {k : Bytes} {x : Entry (Record × Mark)}
    (hx : (edgeStripe near p).dirs k = some x) : (edgeRing near p).dirValid x.dir = true := by
  have hr := opened_edgeRing near hp
  have ho := edgeOffset_bounds near
  have ⟨hs, _⟩ := hr.entry k x hx
  rw [Ring.dirValid_iff, hs.offset, hs.phase]
  refine ⟨fun h => absurd h.1 (Nat.lt_irrefl 0), rfl, rfl, ?_⟩
  rcases of_dirs_edgeStripe hx with rfl | rfl
  case inl =>
    have h : 5632 ≤ 5632 ∧ 5632 < 4194304 ∧ (odd 3 = true ∧ 5632 < 1054280 ∨ odd 3 ≠ true ∧ 1054280 ≤ 5632) := by
      decide
    exact h
  case inr =>
    have h : 5632 ≤ edgeOffset near ∧ edgeOffset near < 4194304 ∧
        (odd 2 = true ∧ edgeOffset near < 1054280 ∨ odd 2 ≠ true ∧ 1054280 ≤ edgeOffset near) := by
      refine ⟨by omega, by omega, .inr ⟨by decide, by omega⟩⟩
    exact h

theorem serves_edge (near : Bool) (hp : p.length = TargetFragmentSize) :
    CacheReader.Serves sampleHash 5632 4194304 [97] (fun _ => (edgeStripe near p).view)
      [edgeHead p, edgeTail] := by
  have hs := opened_edgeStripe near hp
  have read (k : Bytes) (x) (hx : (edgeStripe near p).dirs k = some x) (i : Nat) : ∃ dir ram,
      CacheReader.handleRead 5632 4194304 (edgeStripe near p).view k i = .ok (dir, x.mark.1.data, ram) ∧
      ∀ e, ram = some e → e = .new x.mark.1.data := by
    have ⟨hst, _, hd⟩ := hs.ring.entry k x hx
    have ⟨ram, hr, hok⟩ := hs.toFresh.agrees.handleRead_valid (Stripe.shows_view _) i rfl hx
      (dirValid_edge hp hx) (hst.offset ▸ hd)
    refine ⟨x.dir, ram, hok, ?_⟩
    rcases hr with rfl | rfl
    case inl => exact fun _ h => nomatch h
    case inr => exact fun _ h => (Option.some.inj h).symm
  intro j i q hq
  match i with
  | 0 => cases hq; exact read _ _ dirs_edgeHead 0
  | 1 => cases hq; exact read _ _ dirs_edgeTail 1
  | i + 2 => cases hq

-- A new reader that has been asked for its metadata, of which there is none.
def edgeSource (near : Bool) (p : Bytes) : CacheVC 1 where
  stripe     := ⟨0, Nat.one_pos⟩
  key        := [97]
  generation := 0
  reader     := (CacheReader.loadHTTPInfo sampleHash 5632 4194304 [97]
    (fun _ => (edgeStripe near p).view) {}).2

theorem fst_loadHTTPInfo_edge (hp : p.length = TargetFragmentSize) :
    (CacheReader.loadHTTPInfo sampleHash 5632 4194304 [97] (fun _ => (edgeStripe near p).view) {}).1 =
      .ok .new := by
  have ⟨r, hr, hb, _, _, hram⟩ := (object_edge hp).load (r := {}) (serves_edge near hp)
    (i := 0) rfl (absurd rfl) (fun _ h => nomatch h) 0
  have hi : r.parseInfo = .ok .new := by
    rw [(fragment_edgeHead hp).parseInfo hb hram, CacheReader.infoOf, header_edgeHead.2, if_pos rfl]
  generalize hr₀ : ({} : CacheReader) = r₀ at hr
  have h₀ : r₀.readErr = none ∧ r₀.info = none := by rw [← hr₀]; exact ⟨rfl, rfl⟩
  simp only [CacheReader.loadHTTPInfo, h₀, hr, hi]

theorem subject_edge (near : Bool) (hp : p.length = TargetFragmentSize) :
    Subject sampleHash (fun _ => edgeStripe near p) (edgeSource near p) (edgeStripe near p).view 1 (p ++ [0]) []
      [edgeHead p, edgeTail] where
  reached := ⟨_, (opened_edgeStripe near hp).mounted, .refl⟩
  sized   := sized_edgeStripe
  bound   := by
    have h : 4194304 < 2 ^ 63 := by decide
    exact h
  shown   := Stripe.shows_view _
  object  := object_edge hp
  served  := serves_edge near hp
  loaded  := ⟨.new, Prod.ext (fst_loadHTTPInfo_edge hp) rfl⟩
  opened  := ⟨rfl, rfl, rfl, rfl⟩

-- The document of the call, and the place that is written next.
def edgeDocument (p : Bytes) : Bytes :=
  document sampleHash (header (edgeHead p)) (CacheHTTPInfo.new.marshal.toOption.getD []) p

def edgeTask (p : Bytes) : FlushTask := ⟨1054280, 3, [(3, edgeDocument p)]⟩

theorem length_edgeDocument (hp : p.length = TargetFragmentSize) : (edgeDocument p).length = 1048672 := by
  rw [edgeDocument, length_document, hp]
  rfl

theorem stop_edgeTask (hp : p.length = TargetFragmentSize) : (edgeTask p).stop = 2102952 := by
  simp [FlushTask.stop, FlushTask.buffer, edgeTask, length_edgeDocument hp]

theorem flushed_edge (hp : p.length = TargetFragmentSize) :
    Stripe.Flushed sampleHash (edgeStripe near p) ((edgeStripe near p).lap (edgeTask p)) where
  run := by
    have h₁ : 5632 ≤ 1054280 := by decide
    have h₂ : 2102952 ≤ 4194304 := by decide
    refine Stripe.run_lap (fun _ => rfl) .refl rfl rfl h₁ ((stop_edgeTask hp).trans_le h₂) ?_ (.inl ⟨rfl, rfl⟩)
    refine ⟨.inl ⟨rfl, le_rfl⟩, by simp [edgeTask], ?_⟩
    simp [edgeTask, length_edgeDocument hp, AggBufferSize]
  generation := rfl
  task       := rfl
  storageErr := rfl

theorem quiet_edge (hp : p.length = TargetFragmentSize) :
    Quiet sampleHash (fun _ => edgeStripe near p) (fun _ => (edgeStripe near p).lap (edgeTask p))
      (edgeSource near p) (p ++ [0]) ⟨⟨1054280, 3, 3⟩, edgeDocument p⟩ := by
  have ho := edgeOffset_bounds near
  refine ⟨fun i hi => absurd (Subsingleton.elim _ _) hi, flushed_edge hp, ⟨?_, ?_⟩, ?_, ?_⟩
  case refine_1 =>
    show _ ∈ _ ++ _
    exact List.mem_append_right _ (.head _)
  case refine_2 =>
    intro h
    have h : (⟨⟨1054280, 3, 3⟩, edgeDocument p⟩ : Record) ∈
      [(edgeEntry p).mark.1, (edgeTailEntry near).mark.1] := h
    simp [edgeEntry, edgeTailEntry] at h
  case refine_3 =>
    refine (stop_edgeTask hp).trans ?_
    simp only [Record.stop, Record.offset, length_edgeDocument hp]
  case refine_4 =>
    intro i x _ hx hph
    show (edgeTask p).stop ≤ _
    rw [stop_edgeTask hp]
    rcases of_dirs_edgeStripe hx with rfl | rfl
    case inl =>
      have h : edgeDir.phase = true := by decide
      exact absurd h hph
    case inr =>
      rw [stands_edgeTailEntry.offset]
      show 2102952 ≤ edgeOffset near
      omega

theorem untouched_edge (near : Bool) (hp : p.length = TargetFragmentSize) : ∃ token,
    Untouched sampleHash (fun _ => edgeStripe near p) (fun _ => (edgeStripe near p).lap (edgeTask p)) token
      (edgeSource near p) .new (fun _ => .ok ⟨1054280, 3, 3⟩) (p ++ [0]) := by
  have hs := subject_edge near hp
  have hb : (edgeSource near p).reader.buf = edgeHead p := (Option.some.inj hs.reader.1).symm
  refine ⟨_, ⟨_, _, _, _, hs⟩, ⟨[97], [97], rfl, .head _⟩, ?_, _, _, rfl, ?_, rfl, ?_⟩
  case refine_1 =>
    intro head hh
    have ⟨_, _, h⟩ := List.mem_map.mp hh
    exact h ▸ rfl
  case refine_2 => decide
  case refine_3 =>
    rw [hb, payload_edgeHead hp]
    exact quiet_edge hp

theorem contained_edge (near : Bool) (hp : p.length = TargetFragmentSize) :
    Contained sampleHash (fun _ => edgeStripe near p) (fun _ => (edgeStripe near p).lap (edgeTask p))
      (edgeSource near p) (p ++ [0]) ↔ near = false := by
  have hl : (p ++ [0]).length = TargetFragmentSize + 1 := by rw [List.length_append, hp]; rfl
  have ht : (edgeTailEntry near).dir.approxSize = 512 ∧ (edgeTailEntry near).dir.phase = false := by
    cases near <;> decide
  have hc : Contained sampleHash (fun _ => edgeStripe near p)
      (fun _ => (edgeStripe near p).lap (edgeTask p)) (edgeSource near p) (p ++ [0]) ↔
      edgeOffset near + 512 ≤ 4194304 := by
    constructor
    case mp =>
      intro h
      obtain ⟨h, _⟩ := h 1 (edgeTailEntry near) Nat.one_pos (by rw [hl]; decide) dirs_edgeTail
      rwa [stands_edgeTailEntry.offset, ht.1] at h
    case mpr =>
      intro h i x h₀ hi hx
      rw [hl] at hi
      have hi : i = 1 := by
        simp only [TargetFragmentSize] at hi
        omega
      subst hi
      cases dirs_edgeTail.symm.trans hx
      rw [stands_edgeTailEntry.offset, ht.1, ht.2]
      exact ⟨h, fun h => by cases h⟩
  rw [hc]
  cases near <;> decide

theorem updateHTTPInfo_untouched_sample : ∃ p token, p.length = TargetFragmentSize ∧
    Untouched sampleHash (fun _ => edgeStripe false p) (fun _ => (edgeStripe false p).lap (edgeTask p))
      token (edgeSource false p) .new (fun _ => .ok ⟨1054280, 3, 3⟩) (p ++ [0]) ∧
    (updateHTTPInfo sampleHash token .new (fun _ => .ok ⟨1054280, 3, 3⟩) none true
      (fun _ => edgeStripe false p) (fun _ => (edgeStripe false p).lap (edgeTask p))
      (edgeSource false p)).1 = none := by
  have hp : (List.replicate TargetFragmentSize (0 : UInt8)).length = TargetFragmentSize :=
    List.length_replicate
  have ⟨token, h⟩ := untouched_edge false hp
  exact ⟨_, token, hp, h, (updateHTTPInfo_untouched h).mpr ((contained_edge false hp).mpr rfl)⟩

-- There is no sector behind the last byte of the second fragment, but the size of its entry is a
-- whole one.
theorem updateHTTPInfo_refused : ∃ p token, p.length = TargetFragmentSize ∧
    Untouched sampleHash (fun _ => edgeStripe true p) (fun _ => (edgeStripe true p).lap (edgeTask p))
      token (edgeSource true p) .new (fun _ => .ok ⟨1054280, 3, 3⟩) (p ++ [0]) ∧
    (updateHTTPInfo sampleHash token .new (fun _ => .ok ⟨1054280, 3, 3⟩) none true
      (fun _ => edgeStripe true p) (fun _ => (edgeStripe true p).lap (edgeTask p))
      (edgeSource true p)).1 = some .invalidated := by
  have hp : (List.replicate TargetFragmentSize (0 : UInt8)).length = TargetFragmentSize :=
    List.length_replicate
  have ⟨token, h⟩ := untouched_edge true hp
  have hn := mt (contained_edge true hp).mp nofun
  exact ⟨_, token, hp, h, ((h.cases _).resolve_left fun h => hn h.1).2⟩

end Sample

end Refresh
end Bakemono
