import Bakemono.Range.Serve

namespace Bakemono

theorem boundsOf_valid {left right : Bytes} {total start stop : Nat}
    (h : boundsOf left right total = .ok (start, stop)) : start ≤ stop ∧ stop < total := by
  unfold boundsOf at h
  split at h
  case isTrue =>
    simp only [Except.bind_eq_ok, Except.check_bind_eq_ok] at h
    have ⟨suffix, _, hs, h⟩ := h
    cases h
    omega
  case isFalse =>
    simp only [Except.bind_eq_ok, Except.check_bind_eq_ok] at h
    have ⟨start', _, hs, h⟩ := h
    split at h
    case isTrue =>
      cases h
      omega
    case isFalse =>
      simp only [Except.bind_eq_ok, Except.check_bind_eq_ok] at h
      have ⟨stop', _, hs', h⟩ := h
      cases h
      omega

theorem readExactRange_eq_ok {body : Body} {size : Nat} {data : Bytes} :
    readExactRange body size = .ok data ↔
      body.data = data ∧ body.data.length = size ∧ body.err = none := by
  unfold readExactRange
  split
  case isTrue h => simp [h.ne]
  case isFalse h =>
    split
    case isTrue h' => simp [h'.ne']
    case isFalse h' =>
      have hl : body.data.length = size := by omega
      cases body.err <;> simp [hl]

section Blocks

variable {H : Hash} {rep : Source → Bytes} {ms : Set RangeManifest} {root : Bytes} {n : Nat}
  {m m' : RangeManifest} {index : Nat} {resp : OriginResponse} {version : Except RangeErr Unit}
  {block : CachedBlock} {w w' : RangeWorld n}

-- A producer stores the bytes of the representation.
theorem data_acceptBlock (ho : resp.Honest rep (m.source root))
    (h : acceptBlock m index resp version = .ok block) :
    block.data <+: (rep (m.source root)).drop (m.blockStart index) := by
  simp only [acceptBlock, Except.check_bind_eq_ok, Except.bind_eq_ok, readExactRange_eq_ok] at h
  have ⟨hc, _, data, ⟨hd, hl, he⟩, _, _, _, hb⟩ := h
  simp only [not_or, not_not] at hc
  have := ho _ _ _ hc.1 hc.2.2.1 hc.2.1 he hl
  cases hb
  rw [← hd, this]
  exact List.take_prefix ..

theorem data_readRangeBlockData {cached : Except RangeErr CachedBlock} {data : Bytes}
    (h : readRangeBlockData m index cached = .ok data) :
    ∃ block, cached = .ok block ∧ block.data = data ∧ data.length = m.blockLen index := by
  simp only [readRangeBlockData, Except.check_bind_eq_ok, Except.bind_eq_ok,
    readExactRange_eq_ok] at h
  have ⟨block, hc, _, data', ⟨hd, hl, _⟩, _, h⟩ := h
  cases h
  exact ⟨block, hc, hd, hd ▸ hl⟩

-- The blocks of the cache are parts of the representations that their keys stand for.
def RangeWorld.Valid (H : Hash) (rep : Source → Bytes) (ms : Set RangeManifest) (w : RangeWorld n) :
    Prop :=
  ∀ root, ∀ m ∈ ms, ∀ index block, w.blocks (rangeBlockKey H root m index) = some block →
    block.data <+: (rep (m.source root)).drop (m.blockStart index)

theorem RangeWorld.Valid.step {e : Event} (hs : H.Separates ms) (h : w.Valid H rep ms)
    (hw : Step H rep ms w e w') : w'.Valid H rep ms := by
  cases hw
  case commit root' m' index' resp version block' hm' _ ho ha =>
    intro root m hm index block hb
    simp only [Function.update_apply] at hb
    split at hb
    case isTrue hk =>
      have ⟨hr, hsim, hi⟩ := rangeBlockKey_inj hs hm hm' hk
      have hd := data_acceptBlock ho ha
      cases hb
      rw [RangeManifest.source, hsim.origin, hsim.variant, hsim.etag, hr, hi,
        RangeManifest.blockStart, hsim.blockSize]
      exact hd
    case isFalse => exact h root m hm index block hb
  case evict key =>
    intro root m hm index block hb
    simp only [Function.update_apply] at hb
    split at hb
    case isTrue => cases hb
    case isFalse => exact h root m hm index block hb
  all_goals exact h

end Blocks

namespace Serving

variable {n : Nat} {H : Hash} {rep : Source → Bytes} {ms : Set RangeManifest} {r : BlockRequest n}
  {s s' : Serving n} {e : Event}

-- The number of bytes in front of a block, and in front of the next one.
def before (r : BlockRequest n) (index : Nat) : Nat :=
  max r.start (r.manifest.blockStart index) - r.start

def behind (r : BlockRequest n) (index : Nat) : Nat :=
  min (r.stop + 1) (r.manifest.blockStart index + r.manifest.blockLen index) - r.start

-- The representation that the manifest of a request names.
def content (rep : Source → Bytes) (r : BlockRequest n) : Bytes := rep (r.manifest.source r.root)

-- What has been sent in each phase.
def Progress (rep : Source → Bytes) (r : BlockRequest n) (index : Nat) (sent : Bytes) :
    ServePhase → Prop
  | .check data | .version data =>
    sent.length = before r index ∧ data.length = r.manifest.blockLen index ∧
      data <+: (content rep r).drop (r.manifest.blockStart index)
  | .send rest =>
    sent.length + rest.length = behind r index ∧ sent ++ rest <+: (content rep r).drop r.start
  | .done   => sent.length = r.stop + 1 - r.start
  | .failed => sent.length ≤ r.stop + 1 - r.start
  | _       => sent.length = before r index

-- The block has bytes of the interval.
structure Meets (r : BlockRequest n) (index : Nat) : Prop where
  first : r.start / r.manifest.blockSize ≤ index
  last  : index ≤ last r

structure Inv (H : Hash) (rep : Source → Bytes) (ms : Set RangeManifest) (r : BlockRequest n)
    (s : Serving n) : Prop where
  world    : s.world.Valid H rep ms
  parent   : r.parent.Captured H s.world.epochs
  meets    : Meets r s.index
  sent     : s.sent <+: (content rep r).drop r.start
  progress : Progress rep r s.index s.sent s.phase

section Arithmetic

variable {index : Nat} {data : Bytes}

theorem Meets.start_lt (h : Meets r index) :
    r.start < r.manifest.blockStart index + r.manifest.blockSize := by
  have h₁ := Nat.lt_div_mul_add r.manifest.blockSize_pos (a := r.start)
  have h₂ := Nat.mul_le_mul_right r.manifest.blockSize h.first
  rw [RangeManifest.blockStart]
  omega

theorem Meets.blockStart_le (h : Meets r index) : r.manifest.blockStart index ≤ r.stop :=
  (Nat.mul_le_mul_right _ h.last).trans (Nat.div_mul_le_self ..)

theorem blockLen_eq_min : r.manifest.blockLen index =
    min r.manifest.blockSize (r.manifest.total - r.manifest.blockStart index) := rfl

-- The slice of a block is within its bounds.
theorem Meets.bounds (h : Meets r index) (hd : data.length = r.manifest.blockLen index) :
    0 ≤ low r index ∧ low r index ≤ high r index data ∧ high r index data ≤ data.length ∧
      (low r index).toNat = r.start - r.manifest.blockStart index ∧
      (high r index data).toNat = min (r.stop + 1 - r.manifest.blockStart index) data.length := by
  have h₁ := h.start_lt
  have h₂ := h.blockStart_le
  have h₃ := r.le
  have h₄ := r.lt
  have h₅ := r.manifest.blockSize_pos
  have h₆ : ((r.manifest.blockStart index : Nat) : Int) = index * r.manifest.blockSize := by
    simp [RangeManifest.blockStart]
  rw [blockLen_eq_min] at hd
  simp only [low, high, ← h₆]
  omega

theorem Meets.before_le (h : Meets r index) : before r index ≤ r.stop + 1 - r.start := by
  have := h.blockStart_le
  have := r.le
  rw [before]
  omega

theorem behind_le : behind r index ≤ r.stop + 1 - r.start := by
  rw [behind]
  omega

theorem Meets.behind_eq_before (h : Meets r index) (hl : index < Serving.last r) :
    behind r index = before r (index + 1) := by
  have h₁ := h.start_lt
  have h₂ : r.manifest.blockStart (index + 1) ≤ r.stop :=
    Meets.blockStart_le ⟨h.first.trans (Nat.le_succ _), hl⟩
  have h₃ : r.manifest.blockStart (index + 1) = r.manifest.blockStart index + r.manifest.blockSize :=
    Nat.succ_mul ..
  have h₄ := r.lt
  rw [behind, before, blockLen_eq_min]
  omega

theorem Meets.behind_eq (h : Meets r index) (hl : Serving.last r ≤ index) :
    behind r index = r.stop + 1 - r.start := by
  have h₁ : index = r.stop / r.manifest.blockSize := le_antisymm h.last hl
  have h₂ := Nat.lt_div_mul_add r.manifest.blockSize_pos (a := r.stop)
  have h₃ := r.lt
  rw [← h₁] at h₂
  rw [behind, blockLen_eq_min, RangeManifest.blockStart]
  omega

end Arithmetic

-- A part which starts where another one ends.
theorem append_prefix {a b l : Bytes} (ha : a <+: l) (hb : b <+: l.drop a.length) : a ++ b <+: l := by
  obtain ⟨t, rfl⟩ := ha
  rw [List.drop_left] at hb
  exact (List.prefix_append_right_inj a).mpr hb

-- The slice of a block continues what has been sent.
theorem Inv.slice {data : Bytes} (h : s.Inv H rep ms r) (hp : s.phase = .version data) :
    Progress rep r s.index s.sent
      (.send (data.extract (low r s.index).toNat (high r s.index data).toNat)) := by
  have ⟨hsent, hlen, hdata⟩ : Progress rep r s.index s.sent (.version data) := hp ▸ h.progress
  have ⟨_, hle, hhi, hlow, hhigh⟩ := h.meets.bounds hlen
  have h₁ := h.meets.start_lt
  have h₂ := h.meets.blockStart_le
  have h₃ := r.lt
  have h₄ := r.le
  rw [List.extract_eq_take_drop]
  constructor
  case left =>
    rw [List.length_take, List.length_drop, hlow, hhigh, hsent, before, behind, ← hlen]
    have : r.manifest.blockLen s.index = _ := blockLen_eq_min
    omega
  case right =>
    refine append_prefix h.sent ((List.take_prefix ..).trans ?_)
    have he : r.start + before r s.index = r.manifest.blockStart s.index + (low r s.index).toNat := by
      rw [hlow, before]
      omega
    rw [List.drop_drop, hsent, he, ← List.drop_drop]
    exact hdata.drop _

theorem Inv.length_sent (h : s.Inv H rep ms r) : s.sent.length ≤ r.stop + 1 - r.start := by
  have hp := h.progress
  have hb := h.meets.before_le
  cases hph : s.phase
  case send rest =>
    rw [hph] at hp
    have : behind r s.index ≤ _ := behind_le
    have := hp.1
    omega
  case check | version =>
    rw [hph] at hp
    exact hp.1.trans_le hb
  case done =>
    rw [hph] at hp
    exact le_of_eq hp
  case failed =>
    rw [hph] at hp
    exact hp
  all_goals
    rw [hph] at hp
    exact le_of_eq_of_le hp hb

theorem Inv.step (hs : H.Separates ms) (hm : r.manifest ∈ ms) (h : s.Inv H rep ms r)
    (hst : Step H rep ms r s e s') (he : e ≠ .world .restart) : s'.Inv H rep ms r := by
  have hp := h.progress
  cases hst
  case world e w hw =>
    refine { h with world := h.world.step hs hw, parent := ?_ }
    cases hw
    case advance epochs hle => exact h.parent.mono hle
    case restart => exact absurd rfl he
    all_goals exact h.parent
  case fail | purged | changed => exact { h with progress := h.length_sent }
  case read cached data hph hf hr =>
    have ⟨block, hc, hd, hl⟩ := data_readRangeBlockData hr
    have hb := h.world r.root r.manifest hm s.index block (hf block hc)
    have hsent : s.sent.length = before r s.index := by
      obtain hph | hph := hph
      all_goals
        rw [hph] at hp
        exact hp
    exact { h with progress := ⟨hsent, hl, hd ▸ hb⟩ }
  case version data current hph _ _ _ => exact { h with progress := h.slice hph }
  case send chunk rest hph =>
    rw [hph] at hp
    have hpre := hp.2
    rw [← List.append_assoc] at hpre
    refine { h with sent := (List.prefix_append ..).trans hpre, progress := ⟨?_, hpre⟩ }
    have := hp.1
    simp only [List.length_append] at this ⊢
    omega
  case next hph hl =>
    rw [hph] at hp
    refine { h with meets := ⟨h.meets.first.trans (Nat.le_succ _), hl⟩, progress := ?_ }
    exact hp.1.trans (h.meets.behind_eq_before hl)
  case done hph hl =>
    rw [hph] at hp
    exact { h with progress := hp.1.trans (h.meets.behind_eq hl) }
  case prepare hph | missing hph _ _ | guard hph _ | guardVersion hph _ _ | recover hph =>
    rw [hph] at hp
    exact { h with progress := hp }
  case check data hph _ | start data _ hph _ _ _ =>
    rw [hph] at hp
    exact { h with progress := hp }

theorem inv_opened {w : RangeWorld n} (hw : w.Valid H rep ms)
    (hp : r.parent = .begin H w.epochs r.root) : (opened r w).Inv H rep ms r where
  world    := hw
  parent   := hp ▸ Fences.captured_begin
  meets    := ⟨le_rfl, Nat.div_le_div_right r.le⟩
  sent     := List.nil_prefix
  progress := by
    have := Nat.div_mul_le_self r.start r.manifest.blockSize
    simp only [opened, Progress, before, RangeManifest.blockStart, List.length_nil]
    omega

-- The states of a request that begins in a state of the cache which some requests have left behind.
def Reaches (H : Hash) (rep : Source → Bytes) (ms : Set RangeManifest) (r : BlockRequest n)
    (s : Serving n) : Prop :=
  ∃ epochs w, Run (RangeWorld.Step H rep ms) (fun _ _ => True) { epochs } w ∧
    r.parent = .begin H w.epochs r.root ∧
    Run (Step H rep ms r) (fun _ e => e ≠ .world .restart) (opened r w) s

theorem Inv.reaches (hs : H.Separates ms) (hm : r.manifest ∈ ms) (h : Reaches H rep ms r s) :
    s.Inv H rep ms r := by
  have ⟨epochs, w, hw, hp, hr⟩ := h
  have hv : w.Valid H rep ms :=
    hw.invariant (fun _ _ _ hv hst _ => RangeWorld.Valid.step hs hv hst) nofun
  exact hr.invariant (fun _ _ _ hi hst he => hi.step hs hm hst he) (inv_opened hv hp)

-- The request does not send anything any more.
def Silent (H : Hash) (rep : Source → Bytes) (ms : Set RangeManifest) (r : BlockRequest n)
    (s : Serving n) : Prop :=
  ∀ s', Run (Step H rep ms r) (fun _ e => e ≠ .world .restart) s s' → s'.sent = s.sent

-- A check has failed, or the next one for the bytes in question will.
def Fenced (H : Hash) (r : BlockRequest n) (s : Serving n) : Prop :=
  s.phase = .failed ∨ r.parent.check H s.world.epochs ≠ .ok () ∧
    ∀ data, s.phase ≠ .version data ∧ s.phase ≠ .send data

theorem Inv.fenced_step (h : s.Inv H rep ms r) (hf : s.Fenced H r) (hst : Step H rep ms r s e s')
    (he : e ≠ .world .restart) : s'.Fenced H r ∧ s'.sent = s.sent := by
  cases hst
  case world e w hw =>
    refine ⟨hf.imp_right fun ⟨hc, hp⟩ => ⟨fun hc' => hc ?_, hp⟩, rfl⟩
    cases hw
    case advance epochs hle => exact h.parent.check hle hc'
    case restart => exact absurd rfl he
    all_goals exact hc'
  case fail | purged | changed => exact ⟨.inl rfl, rfl⟩
  case prepare hph | missing hph _ _ | recover hph =>
    obtain hf | ⟨hc, _⟩ := hf
    case inl => simp [hph] at hf
    case inr => exact ⟨.inr ⟨hc, fun _ => by simp⟩, rfl⟩
  case read hph _ _ =>
    obtain hf | ⟨hc, _⟩ := hf
    case inl => simp [hf] at hph
    case inr => exact ⟨.inr ⟨hc, fun _ => by simp⟩, rfl⟩
  case guard hph hok | check hph hok =>
    obtain hf | ⟨hc, _⟩ := hf
    case inl => simp [hph] at hf
    case inr => exact absurd hok hc
  case guardVersion hph _ _ =>
    obtain hf | ⟨hc, _⟩ := hf
    case inl => simp [hph] at hf
    case inr => exact ⟨.inr ⟨hc, fun _ => by simp⟩, rfl⟩
  case start data _ hph _ _ _ | version data _ hph _ _ _ =>
    obtain hf | ⟨_, hn⟩ := hf
    case inl => simp [hph] at hf
    case inr => exact absurd hph (hn data).1
  case send chunk rest hph =>
    obtain hf | ⟨_, hn⟩ := hf
    case inl => simp [hph] at hf
    case inr => exact absurd hph (hn _).2
  case next hph _ | done hph _ =>
    obtain hf | ⟨_, hn⟩ := hf
    case inl => simp [hph] at hf
    case inr => exact absurd hph (hn _).2

theorem Inv.silent (hs : H.Separates ms) (hm : r.manifest ∈ ms) (h : s.Inv H rep ms r)
    (hf : s.Fenced H r) : s.Silent H rep ms r := by
  intro s' hr
  have : s'.Inv H rep ms r ∧ s'.Fenced H r ∧ s'.sent = s.sent := by
    refine hr.invariant (I := fun s' => s'.Inv H rep ms r ∧ s'.Fenced H r ∧ s'.sent = s.sent) ?_
      ⟨h, hf, rfl⟩
    rintro s₁ e s₂ ⟨hi, hf, hsent⟩ hst he
    have ⟨hf', hsent'⟩ := hi.fenced_step hf hst he
    exact ⟨hi.step hs hm hst he, hf', hsent'.trans hsent⟩
  exact this.2.2

-- What has been sent is a prefix of the interval, and all of it at the end. Slices are within their
-- bounds, and nothing is sent behind a fence or after a check that has failed.
structure Exact (H : Hash) (rep : Source → Bytes) (ms : Set RangeManifest) (r : BlockRequest n)
    (s : Serving n) : Prop where
  sent     : s.sent <+: (content rep r).slice r.start (r.stop - r.start + 1)
  done     : s.phase = .done → s.sent = (content rep r).slice r.start (r.stop - r.start + 1) ∧
    s.sent.length = r.stop - r.start + 1
  slices   : ∀ data, s.phase = .version data →
    0 ≤ low r s.index ∧ low r s.index ≤ high r s.index data ∧ high r s.index data ≤ data.length
  fenced   : s.Fenced H r → s.Silent H rep ms r
  observed : ∀ s', Step H rep ms r s .observed s' → s'.sent = s.sent ∧ s'.Silent H rep ms r

theorem Inv.exact (hs : H.Separates ms) (hm : r.manifest ∈ ms) (h : s.Inv H rep ms r) :
    s.Exact H rep ms r where
  sent := by
    have := h.length_sent
    have := r.le
    exact List.prefix_take_iff.mpr ⟨h.sent, by omega⟩
  done hd := by
    have hp := h.progress
    have := r.le
    rw [hd] at hp
    have hl : s.sent.length = r.stop - r.start + 1 := by
      simp only [Progress] at hp
      omega
    exact ⟨by rw [Bytes.slice, ← hl]; exact List.prefix_iff_eq_take.mp h.sent, hl⟩
  slices data hv := by
    have hp := h.progress
    rw [hv] at hp
    obtain ⟨h₁, h₂, h₃, _⟩ := h.meets.bounds hp.2.1
    exact ⟨h₁, h₂, h₃⟩
  fenced := h.silent hs hm
  observed s' hst := by
    have hi : s'.Inv H rep ms r := h.step hs hm hst (by simp)
    cases hst
    all_goals exact ⟨rfl, hi.silent hs hm (.inl rfl)⟩

-- The origin is asked for all bytes, and for none of them twice.
structure Tiles (m : RangeManifest) : Prop where
  nonempty : ∀ index, m.blockStart index < m.total →
    m.blockStart index ≤ m.blockEnd index ∧ m.blockEnd index < m.total
  unique   : ∀ x < m.total, ∃! index, m.blockStart index ≤ x ∧ x ≤ m.blockEnd index

theorem serveBlocks_exact (hs : H.Separates ms) (hm : r.manifest ∈ ms)
    (h : Reaches H rep ms r s) : s.Exact H rep ms r ∧ Tiles r.manifest :=
  ⟨(Inv.reaches hs hm h).exact hs hm, fun _ hi => (RangeManifest.blockLen_eq hi).2,
    fun _ => RangeManifest.blocks_tile⟩

-- A representation of two bytes, the second of which is requested.
section Sample

def sampleManifest : RangeManifest where
  blockSize          := 2
  total              := 2
  etag               := .text "\"v\""
  origin             := .text "http://o"
  variant            := []
  incarnation        := .replicate 32 48
  blockSize_pos      := by decide
  fits               := by decide
  strong             := by decide
  origin_text        := by decide
  variant_text       := by decide
  length_incarnation := by decide

def sampleResponse : OriginResponse where
  status           := 206
  contentRanges    := [.text "bytes 0-1/2"]
  etags            := [sampleManifest.etag]
  contentLength    := 2
  identityEncoding := true
  trailers         := 0
  lateTrailers     := 0
  safe             := true
  storedTag        := sampleManifest.etag
  body             := { data := [5, 6] }

def sampleBlock : CachedBlock := { status := 206, etag := sampleManifest.etag, data := [5, 6] }

def sampleWorld : RangeWorld 1 where
  epochs := sampleEpochs
  blocks := Function.update (fun _ => none) (rangeBlockKey sampleHash [] sampleManifest 0) sampleBlock

def sampleRequest : BlockRequest 1 where
  root     := []
  manifest := sampleManifest
  parent   := .begin sampleHash sampleEpochs []
  start    := 1
  stop     := 1
  le       := Nat.one_pos
  lt       := by decide

def sampleRep (_ : Source) : Bytes := [5, 6]

theorem contentRange_inj {start stop total start' stop' total' : Nat}
    (h : contentRange start stop total = contentRange start' stop' total') :
    start = start' ∧ stop = stop' ∧ total = total' := by
  have hd : Bytes.text "-" = [45] := by decide
  have hs : Bytes.text "/" = [47] := by decide
  simp only [contentRange, hd, hs, List.append_assoc, List.singleton_append] at h
  have ⟨h₁, h⟩ := Bytes.split_first (Bytes.notMem_decimal (by decide))
    (Bytes.notMem_decimal (by decide)) (List.append_cancel_left h)
  have ⟨h₂, h⟩ := Bytes.split_first (Bytes.notMem_decimal (by decide))
    (Bytes.notMem_decimal (by decide)) h
  exact ⟨Bytes.decimal_inj h₁, Bytes.decimal_inj h₂, Bytes.decimal_inj h⟩

theorem honest_sampleResponse : sampleResponse.Honest sampleRep (sampleManifest.source []) := by
  intro start stop total _ _ hc _ _
  have he : contentRange 0 1 2 = contentRange start stop total := by
    refine Eq.trans ?_ (List.singleton_inj.mp hc)
    decide
  obtain ⟨rfl, rfl, rfl⟩ := contentRange_inj he
  rfl

theorem serveBlocks_exact_sample : ∃ s,
    Reaches sampleHash sampleRep {sampleManifest} sampleRequest s ∧ s.phase = .done ∧ s.sent = [6] ∧
      s.Exact sampleHash sampleRep {sampleManifest} sampleRequest := by
  have hs : sampleHash.Separates {sampleManifest} := by simp [Hash.Separates]
  let next (phase : ServePhase) (started : Bool) (sent : Bytes) : Serving 1 :=
    { world := sampleWorld, index := 0, phase, started, sent }
  have hf : (next .read false []).Fetches sampleHash sampleRequest (.ok sampleBlock) := by
    intro block hb
    cases hb
    simp [next, sampleWorld, sampleRequest]
  have hw : Run (RangeWorld.Step sampleHash sampleRep {sampleManifest}) (fun _ _ => True)
      { epochs := sampleEpochs } sampleWorld :=
    .single (.commit [] sampleManifest 0 sampleResponse (.ok ()) sampleBlock rfl (by decide)
      honest_sampleResponse rfl) trivial
  have hr : Reaches sampleHash sampleRep {sampleManifest} sampleRequest (next .done true [6]) := by
    refine ⟨sampleEpochs, sampleWorld, hw, rfl, ?_⟩
    have h₁ : Run (Step sampleHash sampleRep {sampleManifest} sampleRequest)
        (fun _ e => e ≠ .world .restart) (opened sampleRequest sampleWorld) (next .read false []) :=
      Run.refl.step (.prepare rfl) nofun
    have h₂ := h₁.step (.read (.ok sampleBlock) [5, 6] (.inl rfl) hf rfl) nofun
    have h₃ := h₂.step (.check [5, 6] rfl rfl) nofun
    have h₄ := h₃.step (.start [5, 6] none rfl rfl nofun rfl) nofun
    have h₅ := h₄.step (.check [5, 6] rfl rfl) nofun
    have h₆ := h₅.step (.version [5, 6] none rfl rfl nofun rfl) nofun
    have h₇ := h₆.step (.send [6] [] rfl) nofun
    exact h₇.step (.done rfl (by decide)) nofun
  exact ⟨_, hr, rfl, rfl, (serveBlocks_exact hs (Set.mem_singleton _) hr).1⟩

end Sample

end Serving
end Bakemono
