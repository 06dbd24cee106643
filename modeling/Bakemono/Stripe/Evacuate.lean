import Bakemono.Stripe.Backed
import Bakemono.Stripe.Memory

namespace Bakemono

namespace FlushTask

-- Records of a task at the same offset are the same.
theorem place_unique {t : FlushTask} {off : Nat} {l : List (Nat × Bytes)} {r r' : Record}
    (hl : ∀ a ∈ l, 0 < a.2.length) (h : r ∈ records.place t off l) (h' : r' ∈ records.place t off l)
    (ho : r.offset = r'.offset) : r = r' := by
  induction l generalizing off
  case nil => cases h
  case cons a l hi =>
    have ⟨hpos, hl⟩ := List.forall_mem_cons.mp hl
    have later {r : Record} (h : r ∈ records.place t (off + a.2.length) l) : off < r.offset := by
      have := (mem_place h).2.2.1
      omega
    cases h
    case head =>
      cases h'
      case head => rfl
      case tail h' => exact absurd ho (later h').ne
    case tail h =>
      cases h'
      case head => exact absurd ho (later h).ne'
      case tail h' => exact hi hl h h'

end FlushTask

namespace Ring

variable {κ μ : Type} {s s' : Ring κ μ} {t : FlushTask} {r : Record}

-- No two records have been written at the same place in the same lap.
def Unique (s : Ring κ μ) : Prop :=
  ∀ r ∈ s.flushed, ∀ r' ∈ s.flushed, r.generation = r'.generation → r.offset = r'.offset → r = r'

theorem Unique.endFlush (h : s.Unique) (hl : s.Layout) (ht : s.task = some t) :
    (s.endFlush t).Unique := by
  have ⟨_, _, _, _, _, hf⟩ := hl.busy t ht
  have apart {r r' : Record} (hr : r ∈ s.flushed) (hr' : r' ∈ t.records)
      (hg : r.generation = r'.generation) : r.offset ≠ r'.offset := by
    have hp := hl.placed r hr
    have ⟨_, _, hpos, _, hgen⟩ := hp
    have := FlushTask.generation_records hr'
    have := FlushTask.offset_records hr'
    have := hf.order
    have hst : r.stop = r.offset + r.data.length := rfl
    omega
  intro r hr r' hr' hg ho
  cases List.mem_append.mp hr
  case inl hr =>
    cases List.mem_append.mp hr'
    case inl hr' => exact h r hr r' hr' hg ho
    case inr hr' => exact absurd ho (apart hr hr' hg)
  case inr hr =>
    cases List.mem_append.mp hr'
    case inl hr' => exact absurd ho.symm (apart hr' hr hg.symm)
    case inr hr' => exact FlushTask.place_unique (fun a ha => (hf.sizes a ha).1) hr hr' ho

-- Only the end of a task adds records.
theorem Step.flushed [DecidableEq κ] {e : Event κ} (h : s.Step e s') (hu : s.Unique) (hl : s.Layout) :
    s'.Unique ∧ s.flushed ⊆ s'.flushed := by
  cases h
  case finish t ht => exact ⟨hu.endFlush hl ht, List.subset_append_left ..⟩
  all_goals exact ⟨hu, List.Subset.refl _⟩

-- A live record is the last one that was written at its offset.
theorem Layout.generation_le (h : s.Layout) (hl : s.Live r) {r' : Record} (hr' : r' ∈ s.flushed)
    (ho : r'.offset = r.offset) : r'.generation ≤ r.generation := by
  have ⟨_, _, hpos, _, hg⟩ := h.placed r' hr'
  have hst : r'.stop = r'.offset + r'.data.length := rfl
  have := hl.1
  omega

end Ring

namespace Stripe

variable {H : Hash} {s s' s₀ : Stripe} {e : Event} {v : EvacuationRecord} {r : Record}

-- Documents at the same place of the disk are the same.
theorem Formed.unique {f : File} {off : Nat} {p q : Bytes} (hp : Formed H p) (hq : Formed H q)
    (h : f.Holds off p) (h' : f.Holds off q) : p = q := by
  have ⟨h₁, _⟩ := hp.bounds
  have ⟨h₂, _⟩ := hq.bounds
  have hh : p.take DocHeaderSize = q.take DocHeaderSize :=
    (h.take _).unique (h'.take _) (by simp [h₁, h₂])
  refine h.unique h' ?_
  rw [hp.length, hq.length, CacheReader.header, CacheReader.header, hh]

section Counters

-- Every removal advances the generation of the open directory.
structure Counts (s s' : Stripe) : Prop where
  generation : s.generation ≤ s'.generation
  removals   : s.removals ≤ s'.removals
  both       : s'.removals + s.generation ≤ s'.generation + s.removals

theorem Counts.of_eq (hg : s'.generation = s.generation) (hr : s'.removals = s.removals) :
    Counts s s' := ⟨hg.ge, hr.ge, by omega⟩

theorem Counts.trans {s'' : Stripe} (h : Counts s s') (h' : Counts s' s'') : Counts s s'' := by
  have ⟨h₁, h₂, h₃⟩ := h
  have ⟨h₁', h₂', h₃'⟩ := h'
  exact ⟨h₁.trans h₁', h₂.trans h₂', by omega⟩

theorem Drops.counts (h : Drops s s') : Counts s s' :=
  .of_eq (by rw [h.rest]) (by rw [h.rest])

theorem counts_removeLocked {key : Bytes} : Counts s (s.removeLocked H key) := by
  have h : Counts s { s.detach key with index := s.index.delete key } := .of_eq rfl rfl
  exact h.trans drops_removeFragments.counts

theorem counts_purge {keys : List Bytes} : Counts s (keys.foldl (removeLocked H) s) := by
  induction keys generalizing s
  case nil => exact .of_eq rfl rfl
  case cons k keys hi => exact counts_removeLocked.trans hi

theorem counts_counted : Counts s { s.advance with removals := s.removals + 1 } :=
  ⟨Nat.le_succ _, Nat.le_succ _, by simp only [advance]; omega⟩

theorem counts_abortLocked {i : Nat} {w : Writer} : Counts s (s.abortLocked i w) := by
  have h := (Drops.foldl (s := s) (fun _ => drops_retract) w.published).counts
  have hd (s : Stripe) : Counts s (s.disown i w) := by
    unfold disown
    split
    all_goals exact .of_eq rfl rfl
  exact (h.trans (hd _)).trans (.of_eq rfl rfl)

theorem counts_openWrite {w : Writer} : Counts s (s.openWrite w) := by
  unfold openWrite
  split
  all_goals exact .of_eq rfl rfl

theorem Step.counts (h : Step H s e s') : Counts s s' := by
  cases h
  case abort => exact counts_abortLocked
  case openWrite => exact counts_openWrite
  case remove => exact counts_counted.trans counts_removeLocked
  case purge => exact counts_counted.trans counts_purge
  case removeLocked => exact counts_removeLocked
  case abortOpenWriters => exact ⟨Nat.le_succ _, le_rfl, by simp only [advance]; omega⟩
  case drop h => exact h.counts
  all_goals exact .of_eq rfl rfl

end Counters

section Trace

-- What holds of the log in every state, whatever has been published.
theorem Step.layout (h : Step H s e s') (hl : s.ring.Layout) :
    s'.ring.Layout ∧ s.ring.generation ≤ s'.ring.generation := by
  cases h.effect
  case shrinks hs => exact hs.ring ▸ ⟨{ hl with }, le_rfl⟩
  case begin hs _ _ hr _ _ => exact hr ▸ hl.step hs
  case flush hs _ _ _ => exact hl.step hs
  case put hr _ _ => exact hr ▸ ⟨{ hl with }, le_rfl⟩
  case close hr _ _ => exact hr ▸ ⟨{ hl with }, le_rfl⟩

-- The copy was made of the record.
structure Owns (s : Stripe) (v : EvacuationRecord) (r : Record) : Prop where
  source       : v.source = some r
  flushed      : r ∈ s.ring.flushed
  data         : v.data = r.data
  offset       : v.old.offset = r.offset
  phase        : v.old.phase = odd r.generation
  generation   : v.generation = r.generation
  removals     : v.removals ≤ s.removals
  invalidation : s.removals + v.invalidation ≤ s.generation + v.removals

-- Every entry and every copy can be traced back to the record it was made of.
structure Traced (H : Hash) (s : Stripe) : Prop where
  ring   : s.ring.Inv
  unique : s.ring.Unique
  agrees : s.Agrees H
  copies : ∀ v ∈ s.evacuations, ∃ r, s.Owns v r

theorem latest_eq (h : s.ring.Layout) (hu : s.ring.Unique) (hr : r ∈ s.ring.flushed)
    (hl : s.ring.Live r) : s.latest r.offset = some r := by
  have le {r' : Record} (h' : r' ∈ s.ring.flushed.filter fun r' => r'.offset = r.offset) :
      r' ∈ s.ring.flushed ∧ r'.offset = r.offset ∧ r'.generation ≤ r.generation := by
    have ⟨hm, ho⟩ := List.mem_filter.mp h'
    have ho := of_decide_eq_true ho
    exact ⟨hm, ho, h.generation_le hl hm ho⟩
  apply List.argmax_eq_some_iff.mpr
  refine ⟨List.mem_filter.mpr ⟨hr, decide_eq_true rfl⟩, fun r' h' => (le h').2.2, ?_⟩
  intro r' h' hg
  have ⟨hm, ho, hle⟩ := le h'
  rw [hu r hr r' hm (hg.antisymm hle) ho.symm]

-- The generation of a record follows from the phase of its entry.
theorem Traced.generation_eq (h : s.Traced H) {key : Bytes} {x : Entry (Record × Mark)}
    (hx : s.dirs key = some x) :
    (if x.dir.phase = s.ring.phase then s.ring.generation else s.ring.generation - 1) =
      x.mark.1.generation := by
  have ⟨hd, _, hr⟩ := h.ring.entry key x hx
  rw [hd.phase, h.ring.phase]
  split
  case isTrue hp => exact (hr.same_phase hp).symm
  case isFalse hp => exact Nat.sub_eq_of_eq_add (hr.other_phase hp).1.symm

-- The bytes of a copy are those of the entry, since `dirValid` has accepted the entry.
theorem Traced.owns_of_copied (h : s.Traced H) {x : Entry (Record × Mark)} (hc : Copied H s v x) :
    s.Owns v x.mark.1 := by
  have ⟨hd, hm, hr⟩ := h.ring.entry v.key x hc.entry
  have hl := h.ring.live hd (h.ring.placed _ hm) hr hc.valid
  have hdata := h.ring.holds hc.entry hc.valid
  constructor
  case source => rw [hc.source, hd.offset, latest_eq h.ring.toLayout h.unique hm hl]
  case flushed => exact hm
  case data => exact hc.formed.unique (h.agrees.leads _ x hc.entry).formed hc.disk hdata
  case offset => rw [hc.old, hd.offset]
  case phase => rw [hc.old, hd.phase]
  case generation => exact hc.generation.trans (h.generation_eq hc.entry)
  case removals => exact hc.removals.le
  case invalidation => rw [hc.invalidation, hc.removals, Nat.add_comm]

theorem Owns.mono (h : s.Owns v r) (hc : Counts s s') (hf : s.ring.flushed ⊆ s'.ring.flushed) :
    s'.Owns v r :=
  { h with
    flushed      := hf h.flushed
    removals     := h.removals.trans hc.removals
    invalidation := by
      have := h.invalidation
      have := hc.both
      omega }

theorem Traced.ring_effect (h : s.Traced H) (he : Effect H s e s') (ha : ¬e.Aliases s) :
    s'.ring.Inv ∧ s'.ring.Unique ∧ s.ring.flushed ⊆ s'.ring.flushed := by
  have same {dirs' : Table Bytes (Record × Mark)} (hi : s'.ring.Inv)
      (hr : s'.ring = { s.ring with dirs := dirs' }) :
      s'.ring.Inv ∧ s'.ring.Unique ∧ s.ring.flushed ⊆ s'.ring.flushed := by
    have hf : s'.ring.flushed = s.ring.flushed := by rw [hr]
    exact ⟨hi, by rw [Ring.Unique, hf]; exact h.unique, hf ▸ List.Subset.refl _⟩
  cases he
  case shrinks hs => exact same (hs.ring ▸ h.ring.below hs.dirs) hs.ring
  case begin hs _ _ hr _ _ =>
    have hi := h.ring.step hs id
    have ⟨hu, hf⟩ := hs.flushed h.unique h.ring.toLayout
    exact hr ▸ ⟨hi, hu, hf⟩
  case flush hs _ _ _ =>
    have ⟨hu, hf⟩ := hs.flushed h.unique h.ring.toLayout
    exact ⟨h.ring.step hs id, hu, hf⟩
  case put k d r m fate kept size he hp hs _ hr _ _ =>
    have ⟨tag, d', next, ht, hm, hd⟩ := hp.dir
    refine same ?_ hr
    rw [hr, hd]
    exact h.ring.set hp.flushed hp.allocation hs ht hm (fun hc => ha ⟨k, r, he, hc⟩) next m fate
  case close hr _ _ =>
    rw [hr]
    exact ⟨{ h.ring with }, h.unique, List.Subset.refl _⟩

theorem Traced.effect (h : s.Traced H) (he : Effect H s e s') (hc : Counts s s')
    (ha : ¬e.Aliases s) : s'.Traced H := by
  have ⟨hr, hu, hf⟩ := h.ring_effect he ha
  refine ⟨hr, hu, h.agrees.effect he, fun v hv => ?_⟩
  have ⟨r, hr⟩ : ∃ r, s.Owns v r :=
    (he.copies hv).elim (h.copies v) fun ⟨x, hx⟩ => ⟨x.mark.1, h.owns_of_copied hx⟩
  exact ⟨r, hr.mono hc hf⟩

theorem Traced.step (h : s.Traced H) (hs : Step H s e s') (ha : ¬e.Aliases s) : s'.Traced H :=
  h.effect hs.effect hs.counts ha

-- A stripe that has just been opened. Different entries of a checkpoint have different places.
structure Opened (H : Hash) (s : Stripe) : Prop extends Fresh H s where
  ring   : s.ring.Opened
  unique : s.ring.Unique

theorem Opened.traced (h : s.Opened H) : s.Traced H where
  ring   := h.ring.inv
  unique := h.unique
  agrees := h.toFresh.agrees
  copies := by simp [h.evacuations]

theorem Opened.run (h₀ : s₀.Opened H) (h : Run (Step H) (fun s e => ¬e.Aliases s) s₀ s) :
    s.Traced H :=
  h.invariant (fun _ _ _ => Traced.step) h₀.traced

-- The offset, the phase and the generation determine the record of an entry.
theorem Traced.record_at (h : s.Traced H) (hr : r ∈ s.ring.flushed) {key : Bytes}
    {x : Entry (Record × Mark)} (hx : s.dirs key = some x) (hoff : x.dir.offset = r.offset)
    (hphase : x.dir.phase = odd r.generation) (hg : s.ring.generation ≤ r.generation + 1) :
    x.mark.1 = r := by
  have ⟨hd, hm, hrec⟩ := h.ring.entry key x hx
  have ⟨_, _, _, _, hle⟩ := h.ring.placed r hr
  have hp : odd x.mark.1.generation = odd r.generation := by rw [← hd.phase, hphase]
  have hrec : x.mark.1.generation = s.ring.generation ∨ x.mark.1.generation + 1 = s.ring.generation :=
    hrec.imp_right And.left
  have hgen : x.mark.1.generation = r.generation := by
    simp only [odd] at hp
    have : x.mark.1.generation % 2 = r.generation % 2 := by grind
    omega
  exact h.unique _ hm _ hr hgen (by rw [← hd.offset, hoff])

theorem Traced.record_eq (h : s.Traced H) (ho : s.Owns v r) {x : Entry (Record × Mark)}
    (hx : s.dirs v.key = some x) (hoff : x.dir.offset = v.old.offset)
    (hphase : x.dir.phase = v.old.phase) (hg : s.ring.generation ≤ v.generation + 1) :
    x.mark.1 = r :=
  h.record_at ho.flushed hx (hoff.trans ho.offset) (hphase.trans ho.phase) (ho.generation ▸ hg)

-- What a reader finds is the record of the entry.
theorem Traced.handleRead (h : s.Traced H) {w : View} (hw : w.Shows s) {key p : Bytes} {i : Nat}
    {d : Dir} {ram : Option RamEntry}
    (hr : CacheReader.handleRead s.ring.start s.ring.stop w key i = .ok (d, p, ram)) :
    ∃ x, s.dirs key = some x ∧ s.ring.dirValid x.dir = true ∧ d = x.dir ∧ p = x.mark.1.data := by
  rw [CacheReader.handleRead_eq] at hr
  have ⟨d', hl, hf⟩ := Except.bind_eq_ok.mp hr
  have ⟨_, _, hg, _, hv⟩ := CacheReader.locate_eq_ok.mp hl
  rw [hw.get] at hg
  have ⟨x, hx, he⟩ := Option.map_eq_some_iff.mp hg
  subst he
  rw [hw.dirValid] at hv
  have ⟨_, _, hf', _⟩ := h.agrees.fetch hw hx (h.ring.holds hx hv)
  cases hf.symm.trans hf'
  exact ⟨x, hx, hv, rfl, rfl⟩

end Trace

-- `evacuate` replaces the entry it has made the copy of, no removal has happened since then, and the
-- new record has the bytes of the old one.
theorem Traced.evacuate (h : s.Traced H) (hs : Step H s (.evacuate v r) s') :
    ∃ x x', s.dirs v.key = some x ∧ s'.dirs v.key = some x' ∧ x'.mark.1 = r ∧
      v.source = some x.mark.1 ∧ v.data = x.mark.1.data ∧ v.removals = s.removals ∧
      r.data = x.mark.1.data := by
  cases hs
  case evacuate x d fate kept _ _ hv hi hx ho hp hg _ hd =>
    have ⟨r₀, how⟩ := h.copies v hv
    have hr := h.record_eq how hx ho hp hg
    refine ⟨x, _, hx, Table.set_self fate, rfl, hr ▸ how.source, hr ▸ how.data, ?_, ?_⟩
    case refine_1 =>
      have := how.removals
      have := how.invalidation
      omega
    case refine_2 => rw [hd, hr, how.data]

-- In a run in which no publication aliases the phase of the lap that is being started and no call
-- overwrites a slot of the directory, `evacuate` only relocates what it has copied.
theorem evacuate_exact {K : KeySpace H} {b₀ b b' : Backed Stripe} (h₀ : b₀.state.Opened H)
    (hm : b₀.Mirrored K id)
    (h : Run (Backed.Step K id (Step H)) (fun b e => ¬e.Aliases b.state) b₀ b)
    (hs : Backed.Step K id (Step H) b (.evacuate v r) b') :
    ∃ x x', b.Finds H id v.key x ∧ b'.Finds H id v.key x' ∧ x'.mark.1 = r ∧
      v.source = some x.mark.1 ∧ v.data = x.mark.1.data ∧ v.removals = b.state.removals ∧
      r.data = x.mark.1.data := by
  have hr : Run (Step H) (fun s e => ¬e.Aliases s) b₀.state b.state :=
    Backed.run_state h fun _ => Event.not_aliases rfl
  have hm := Backed.mirrored_run h hm
  have hk := hs.key_mem rfl
  obtain ⟨s, hn, hkeep⟩ := hs.entry hm
  obtain ⟨x, x', hx, hx', hrest⟩ := (h₀.run hr).evacuate hn
  obtain ⟨next, hf⟩ := hkeep v.key hk x' hx'
  exact ⟨x, _, hm.finds hk hx, hf, hrest⟩

section Sample

variable {Ok : Stripe → Event → Prop} {t : FlushTask} {x : Entry (Record × Mark)} {g w : Nat}
  {p key : Bytes}

-- A document which is found at the place of a valid entry is copied.
theorem copyOf_eq {lo hi bytes : Nat} (hx : s.dirs key = some x) (hv : s.ring.dirValid x.dir = true)
    (hf : Formed H p) (hk : (CacheReader.header p).key = H.docKey key)
    (hd : s.ring.disk.Holds x.dir.offset p) (hs : x.dir.offset + p.length ≤ s.ring.stop)
    (hb : bytes + p.length ≤ AggBufferSize) (hl : p.length + hi - lo ≤ s.ring.stop - s.ring.start)
    (ht : (CacheReader.header p).totalLen.toNat ≤ s.ring.stop - s.ring.start)
    (hg : s.ring.generation ≠ 0) :
    ∃ v, s.copyOf H lo hi bytes key x.dir.offset = some v ∧ v.key = key ∧ v.data = p := by
  have ⟨hlo, hhi⟩ := hf.bounds
  have ⟨⟨hm, hmaj, _, _⟩, hfit, _⟩ := Doc.validate_eq_ok.mp hf.valid
  have hhlen := hfit.hlen
  have hlen : (Doc.unmarshal (p.take DocHeaderSize)).len.toNat = p.length := hf.length.symm
  have h₁ : s.ring.disk.readAt x.dir.offset DocHeaderSize = some (p.take DocHeaderSize) :=
    File.readAt_eq_some.mpr ⟨by simp [hlo], hd.take _⟩
  have h₂ : s.ring.disk.readAt x.dir.offset (Doc.unmarshal (p.take DocHeaderSize)).len.toNat =
      some p := hlen ▸ hd.readAt
  let g := if x.dir.phase = s.ring.phase then s.ring.generation else s.ring.generation - 1
  refine ⟨⟨key, p, x.dir, g, s.generation, s.latest x.dir.offset, x.mark.2, s.removals⟩, ?_, rfl, rfl⟩
  simp only [copyOf, Option.bind_eq_bind, Option.bind_eq_some_iff, Option.guard_eq_some',
    exists_const]
  refine ⟨x, hx, ⟨rfl, hv⟩, _, h₁, ⟨hm, hmaj, hk⟩, ?_, p, h₂, ⟨?_, ht⟩, .inr hg, rfl⟩
  case refine_1 =>
    have hh : (Doc.unmarshal (p.take DocHeaderSize)).hlen.toNat + DocHeaderSize ≤ p.length :=
      hlen ▸ hhlen
    rw [hlen]
    omega
  case refine_2 => exact Except.isOk_iff.mpr hf.valid

-- No task is being written, and the log has reached a position of a small stripe.
structure Ready (s : Stripe) (g w : Nat) : Prop where
  task       : s.ring.task = none
  idle       : s.ring.writingEnd = 0
  storageErr : s.ring.storageErr = false
  closed     : s.ring.closed = false
  closing    : s.closing = false
  start      : s.ring.start = 512
  stop       : s.ring.stop = 32768
  generation : s.ring.generation = g
  phase      : s.ring.phase = odd g
  writePos   : s.ring.writePos = w

-- Entries may be changed while the task is being written.
theorem Ready.finish (h : s.Ready g w) (s' : Stripe)
    (hr : s'.ring = { s.ring.beginFlush t (fun _ => 0) with dirs := s'.ring.dirs })
    (hc : s'.closing = s.closing) :
    Ready { s' with ring := s'.ring.endFlush t } t.generation t.stop := by
  rw [hr]
  exact ⟨rfl, rfl, h.storageErr, h.closed, hc.trans h.closing, h.start, h.stop, rfl, rfl, rfl⟩

theorem Ready.lap (h : s.Ready g w) : (s.lap t).Ready t.generation t.stop :=
  h.finish { s with ring := s.ring.beginFlush t fun _ => 0 } rfl rfl

-- A task which follows what has been written before.
structure Fits (g w : Nat) (t : FlushTask) : Prop where
  place    : Continues 512 g w t.generation t.offset
  lower    : 512 ≤ t.offset
  upper    : t.stop ≤ 32768
  nonempty : t.additions ≠ []
  sizes    : ∀ a ∈ t.additions, 0 < a.2.length ∧ a.2.length ≤ AggBufferSize

theorem Fits.follows (h : Fits g w t) : t.Follows g w :=
  ⟨h.place.imp (fun h => ⟨h.1, h.2.ge⟩) And.left, h.nonempty, h.sizes⟩

theorem Ready.begin (h : s.Ready g w) (ht : Fits g w t) (candidates : List (Bytes × Nat))
    (hc : ∀ c ∈ candidates, t.offset ≤ c.2 ∧ c.2 < t.stop) : Step H s .flush
      { s with
        ring        := s.ring.beginFlush t fun _ => 0
        evacuations := s.evacuations ++ s.collectEvacuationData H t.offset t.stop 0 candidates } := by
  refine .begin t _ candidates h.task h.storageErr (h.start ▸ ht.lower) (h.stop ▸ ht.upper) ?_ ?_ hc
  case refine_1 => rw [h.generation, h.writePos]; exact ht.follows
  case refine_2 => rw [h.start, h.generation, h.writePos]; exact ht.place

theorem Ready.run (h : s.Ready g w) (ht : Fits g w t) (ho : ∀ s, Ok s .flush)
    (hr : Run (Step H) Ok s₀ s) : Run (Step H) Ok s₀ (s.lap t) := by
  apply run_lap ho hr h.task h.storageErr (h.start ▸ ht.lower) (h.stop ▸ ht.upper)
  case hf => rw [h.generation, h.writePos]; exact ht.follows
  case hc => rw [h.start, h.generation, h.writePos]; exact ht.place

theorem exists_places (hr : r ∈ s.ring.flushed)
    (ha : s.ring.allocationValid r.allocation r.data.length = true) (n : Nat) (h₀ : 0 < n)
    (hm : n ≤ DirMaxDataSize) :
    ∃ d, s.Places r n d ∧ d.offset = r.offset % 2 ^ 40 ∧ d.phase = odd r.generation := by
  have ⟨d, hd, he⟩ := Dir.make_eq h₀ hm (by decide : (0 : BitVec 16).toNat < 2 ^ 12) (o := r.offset)
    (p := odd r.generation)
  exact ⟨d.setNext 0, ⟨hr, ha, 0, d, 0, by decide, hd, rfl⟩, he.offset, he.phase⟩

-- A record of the current lap can be published.
theorem Ready.allocationValid (h : s.Ready g w) (hg : r.generation = g) (hl : 512 ≤ r.offset)
    (hs : r.stop ≤ w) (hw : w ≤ 32768) :
    s.ring.allocationValid r.allocation r.data.length = true := by
  rw [Ring.allocationValid_iff, h.start, h.stop, h.writePos, h.generation, h.idle]
  exact ⟨nofun, hl, hs.trans hw, .inl ⟨hg, hs⟩⟩

-- What has been written in the current lap can be read.
theorem Ready.dirValid {d : Dir} (h : s.Ready g w) (hl : 512 ≤ d.offset) (hu : d.offset < w) (hw : w ≤ 32768)
    (hp : d.phase = odd g) : s.ring.dirValid d = true := by
  rw [Ring.dirValid_iff, h.idle, h.start, h.stop, h.phase, h.writePos]
  exact ⟨by simp, h.storageErr, h.closed, hl, hu.trans_le hw, .inl ⟨hp, hu⟩⟩

-- The first task of a lap removes the entries of its phase.
theorem dirs_lap : (s.lap t).dirs = if t.generation ≠ s.ring.generation then
    s.dirs.removePhase (odd t.generation) fun _ => 0 else s.dirs :=
  rfl

theorem dirs_lap_same (h : t.generation = s.ring.generation) : (s.lap t).dirs = s.dirs := by
  rw [dirs_lap, if_neg (not_not.mpr h)]

theorem dirs_lap_next (h : t.generation ≠ s.ring.generation) (hx : s.dirs key = some x)
    (hp : x.dir.phase ≠ odd t.generation) : (s.lap t).dirs key = some (x.relink 0) := by
  rw [dirs_lap, if_pos h]
  simp [Table.removePhase, hx, hp]

theorem fits_sampleTask {offset g' : Nat} {sizes : List Nat} (h : Continues 512 g w g' offset)
    (hl : 512 ≤ offset) (hu : offset + sizes.sum ≤ 32768) (h₀ : sizes ≠ [])
    (hs : ∀ n ∈ sizes, 0 < n ∧ n ≤ AggBufferSize) : Fits g w (Ring.sampleTask offset g' sizes) where
  place    := h
  lower    := hl
  upper    := by rwa [Ring.stop_sampleTask]
  nonempty := by simpa [Ring.sampleTask] using h₀
  sizes    := by simpa [Ring.sampleTask] using hs

-- The beginning of a lap, which leaves a part of the stripe to the second task.
def sampleFill (g : Nat) : FlushTask := Ring.sampleTask 512 g [20000]

theorem stop_sampleFill : (sampleFill g).stop = 20512 := Ring.stop_sampleTask ..

theorem fits_sampleFill {g' : Nat} (h : Continues 512 g w g' 512) : Fits g w (sampleFill g') :=
  fits_sampleTask h le_rfl (by decide) (by simp) (by simp [AggBufferSize])

def sampleAddition (offset g : Nat) (version : UInt64) : FlushTask :=
  ⟨offset, g, [(1, sampleDocument version)]⟩

theorem buffer_sampleAddition {offset : Nat} {version : UInt64} :
    (sampleAddition offset g version).buffer = sampleDocument version := by
  simp [FlushTask.buffer, sampleAddition]

theorem stop_sampleAddition {offset : Nat} {version : UInt64} :
    (sampleAddition offset g version).stop = offset + 73 := by
  rw [FlushTask.stop, buffer_sampleAddition, length_sampleDocument]
  rfl

-- The only record of the task.
def sampleCopy (offset g : Nat) (version : UInt64) : Record :=
  ⟨⟨offset, g, 1⟩, sampleDocument version⟩

theorem length_sampleCopy {offset : Nat} {version : UInt64} :
    (sampleCopy offset g version).data.length = 73 :=
  length_sampleDocument version

theorem stop_sampleCopy {offset : Nat} {version : UInt64} :
    (sampleCopy offset g version).stop = offset + 73 := by
  rw [Record.stop, length_sampleCopy]
  rfl

theorem mem_lap_sampleAddition {offset : Nat} {version : UInt64} :
    sampleCopy offset g version ∈ (s.lap (sampleAddition offset g version)).ring.flushed :=
  List.mem_append_right _ (.head _)

theorem fits_sampleAddition {version : UInt64} (h₁ : 512 ≤ w) (h₂ : w + 73 ≤ 32768) :
    Fits g w (sampleAddition w g version) where
  place    := .inl ⟨rfl, rfl⟩
  lower    := h₁
  upper    := by rwa [stop_sampleAddition]
  nonempty := by simp [sampleAddition]
  sizes    := by simp [sampleAddition, length_sampleDocument, AggBufferSize]

theorem dirValid_ready (h : s.Ready g w) (ho : w ≤ x.dir.offset ∧ 512 ≤ w ∧ x.dir.offset < 32768)
    (hp : x.dir.phase ≠ odd g) : s.ring.dirValid x.dir = true := by
  rw [Ring.dirValid_iff, h.idle, h.start, h.stop, h.phase, h.writePos]
  exact ⟨nofun, h.storageErr, h.closed, by omega, by omega, .inr ⟨hp, ho.1⟩⟩

-- A document in front of the log is copied by the next task.
theorem exists_copy {version : UInt64} (h : s.Ready g 20512) (hg : g ≠ 0)
    (hx : s.dirs [97] = some x) (hoff : x.dir.offset = 20512) (hp : x.dir.phase ≠ odd g)
    (hd : s.ring.disk.Holds 20512 (sampleDocument version)) :
    ∃ v, s.copyOf sampleHash 20512 20612 0 [97] 20512 = some v ∧ v.key = [97] ∧
      v.data = sampleDocument version ∧ Copied sampleHash s v x := by
  have hlen := length_sampleDocument version
  have hf := fragment_sampleDocument version
  have hv := dirValid_ready h (by omega) hp
  obtain ⟨v, hc, hk, hdata⟩ : ∃ v, s.copyOf sampleHash 20512 20612 0 [97] x.dir.offset = some v ∧
      v.key = [97] ∧ v.data = sampleDocument version := by
    apply copyOf_eq hx hv (formed_fragment hf) hf.identity (hoff ▸ hd)
    case hs => rw [hoff, hlen, h.stop]; decide
    case hb => simp [hlen, AggBufferSize]
    case hl => rw [hlen, h.start, h.stop]; decide
    case ht =>
      rw [sampleDocument, CacheWriter.header_document, h.start, h.stop]
      exact (by decide : 1 ≤ 32768 - 512)
    case hg => rwa [h.generation]
  obtain ⟨x', hcopy⟩ := copied_copyOf hc
  cases (hk ▸ hcopy.entry).symm.trans hx
  rw [hoff] at hc
  exact ⟨v, hc, hk, hdata, hcopy⟩

def Event.IsFlush (_ : Stripe) (e : Event) : Prop := e = .flush

theorem isFlush (s : Stripe) : Event.IsFlush s .flush := rfl

theorem holds_lap_sampleAddition {offset : Nat} {version : UInt64} :
    (s.lap (sampleAddition offset g version)).ring.disk.Holds offset (sampleDocument version) := by
  have hn : sampleDocument version ≠ [] :=
    List.ne_nil_of_length_pos (by simp [length_sampleDocument])
  have h : (s.ring.disk.writeAt offset (sampleDocument version)).Holds offset (sampleDocument version) :=
    File.holds_writeAt hn
  have hd : (s.lap (sampleAddition offset g version)).ring.disk =
      s.ring.disk.writeAt offset (sampleAddition offset g version).buffer := rfl
  rwa [hd, buffer_sampleAddition]

theorem holds_lap_sampleFill (h : s.ring.disk.Holds 20512 p) :
    (s.lap (sampleFill g)).ring.disk.Holds 20512 p :=
  h.agree (File.agree_writeAt (.inr stop_sampleFill.le))

-- A writer has been opened and its document is on the disk, behind the part that the next laps use
-- for their first task.
def sampleLog (version : UInt64) : Stripe :=
  ((sampleStripe.openWrite { sampleWriter with version }).lap (sampleFill 2)).lap
    (sampleAddition 20512 2 version)

-- A document with one byte of data, which is added to the log for any key.
def headDocument (H : Hash) (key : Bytes) : Bytes := CacheWriter.document H key 1 1 0 [0] []

def headTask (H : Hash) (key : Bytes) (offset g : Nat) : FlushTask := ⟨offset, g, [(1, headDocument H key)]⟩

def headRecord (H : Hash) (key : Bytes) (offset g : Nat) : Record := ⟨⟨offset, g, 1⟩, headDocument H key⟩

theorem length_headDocument : (headDocument H key).length = 73 := CacheWriter.length_document

theorem fragment_headDocument : CacheReader.Fragment H key 0 1 (headDocument H key) :=
  CacheWriter.fragment_document ⟨by simp [DocHeaderSize, AggBufferSize], by simp [TargetFragmentSize]⟩

theorem stop_headTask {offset : Nat} : (headTask H key offset g).stop = offset + 73 := by
  simp [FlushTask.stop, FlushTask.buffer, headTask, length_headDocument]

theorem Ready.head (h : s.Ready g w) (H : Hash) (key : Bytes) (h₁ : 512 ≤ w) (h₂ : w + 73 ≤ 32768) :
    Run (Step H) Event.IsFlush s (s.lap (headTask H key w g)) ∧
    (s.lap (headTask H key w g)).Ready g (w + 73) ∧
    ∃ d, (s.lap (headTask H key w g)).Places (headRecord H key w g)
        (sectors (headRecord H key w g).data.length) d ∧
      d.offset = w ∧ d.phase = odd g ∧ d.next = 0 := by
  have hfits : Fits g w (headTask H key w g) :=
    { place    := .inl ⟨rfl, rfl⟩
      lower    := h₁
      upper    := by rwa [stop_headTask]
      nonempty := by simp [headTask]
      sizes    := by simp [headTask, length_headDocument, AggBufferSize] }
  have hready : (s.lap (headTask H key w g)).Ready g (w + 73) :=
    { h.lap (t := headTask H key w g) with writePos := stop_headTask }
  have hlen : (headRecord H key w g).data.length = 73 := length_headDocument
  have hstop : (headRecord H key w g).stop = w + 73 := by
    rw [Record.stop, hlen]
    rfl
  have hr : headRecord H key w g ∈ (s.lap (headTask H key w g)).ring.flushed :=
    List.mem_append_right _ (.head _)
  have ha := hready.allocationValid (r := headRecord H key w g) rfl h₁ hstop.le h₂
  obtain ⟨d, hd, hoff, hphase⟩ := exists_places hr ha (sectors (headRecord H key w g).data.length)
    (by rw [hlen]; decide) (by rw [hlen]; decide)
  obtain ⟨tag, d', next, htag, hmake, he⟩ := hd.dir
  refine ⟨h.run hfits isFlush .refl, hready, d.setNext 0, ⟨hr, ha, tag, d', 0, htag, hmake, ?_⟩, ?_⟩
  case refine_1 => rw [he, Dir.setNext_setNext]
  case refine_2 =>
    have hoff : d.offset = w % 2 ^ 40 := hoff
    exact ⟨by rw [Dir.offset_setNext, hoff]; omega, hphase, rfl⟩

theorem flushes_sampleLog (version : UInt64) :
    Run (Step sampleHash) Event.IsFlush
      (sampleStripe.openWrite { sampleWriter with version }) (sampleLog version) ∧
    (sampleLog version).Ready 2 20585 := by
  let w := { sampleWriter with version }
  have h₀ : (sampleStripe.openWrite w).Ready 2 512 := ⟨rfl, rfl, rfl, rfl, rfl, rfl, rfl, rfl, rfl, rfl⟩
  have h₁ : ((sampleStripe.openWrite w).lap (sampleFill 2)).Ready 2 20512 :=
    stop_sampleFill (g := 2) ▸ h₀.lap (t := sampleFill 2)
  have h : Run (Step sampleHash) Event.IsFlush (sampleStripe.openWrite w) (sampleStripe.openWrite w) :=
    .refl
  have h := h₀.run (fits_sampleFill (.inl ⟨rfl, rfl⟩)) isFlush h
  have h := h₁.run (t := sampleAddition 20512 2 version)
    (fits_sampleAddition (by decide) (by decide)) isFlush h
  exact ⟨h, { h₁.lap (t := sampleAddition 20512 2 version) with writePos := stop_sampleAddition }⟩

-- The entry of the document that a writer has published.
structure Published (s : Stripe) (version : UInt64) (x : Entry (Record × Mark)) : Prop where
  entry  : s.dirs [97] = some x
  record : x.mark.1 = sampleCopy 20512 2 version
  offset : x.dir.offset = 20512
  phase  : x.dir.phase = false

theorem Published.lap {version : UInt64} (h : s.Published version x)
    (ht : t.generation ≠ s.ring.generation) (ho : odd t.generation = true) :
    (s.lap t).Published version (x.relink 0) where
  entry  := dirs_lap_next ht h.entry (by simp [h.phase, ho])
  record := h.record
  offset := h.offset
  phase  := h.phase

theorem Published.finish {version : UInt64} (h : s.Published version x) :
    Published { s with ring := s.ring.endFlush t } version x :=
  ⟨h.entry, h.record, h.offset, h.phase⟩

theorem published_publish {version : UInt64} {w : Writer} {d : Dir} {fate : Table.Fate Bytes}
    (hw : w.key = [97]) (ho : d.offset = 20512) (hp : d.phase = odd 2) :
    (s.publish sampleHash 0 w 0 (sampleCopy 20512 2 version) d fate true).Published version
      ⟨d, sampleCopy 20512 2 version, s.markOf w 0⟩ where
  entry  := by
    rw [dirs_publish, hw]
    exact Table.set_self _
  record := rfl
  offset := ho
  phase  := hp.trans (by decide)

theorem length_sectors_sampleCopy {offset : Nat} {version : UInt64} :
    sectors (sampleCopy offset g version).data.length = 512 := by
  rw [length_sampleCopy]
  rfl

theorem places_sampleLog (version : UInt64) : ∃ d,
    (sampleLog version).Places (sampleCopy 20512 2 version)
      (sectors (sampleCopy 20512 2 version).data.length) d ∧ d.offset = 20512 ∧ d.phase = odd 2 := by
  have hr := (flushes_sampleLog version).2
  have ha := hr.allocationValid (r := sampleCopy 20512 2 version) rfl (by decide : 512 ≤ 20512)
    stop_sampleCopy.le (by decide)
  have hm : sampleCopy 20512 2 version ∈ (sampleLog version).ring.flushed := mem_lap_sampleAddition
  rw [length_sectors_sampleCopy]
  exact exists_places hm ha 512 (by decide) (by decide)

-- The first task of the lap after the next one is being written.
def sampleTurn : Stripe :=
  let s := (sampleLog 2).lap (sampleFill 3)
  { s with ring := s.ring.beginFlush (sampleFill 4) fun _ => 0 }

theorem ready_beforeTurn : ((sampleLog 2).lap (sampleFill 3)).Ready 3 20512 :=
  stop_sampleFill (g := 3) ▸ (flushes_sampleLog 2).2.lap (t := sampleFill 3)

theorem flushes_sampleTurn : Run (Step sampleHash) Event.IsFlush
    (sampleStripe.openWrite { sampleWriter with version := 2 }) sampleTurn := by
  have ⟨h₂, hr₂⟩ := flushes_sampleLog 2
  have h₃ := hr₂.run (t := sampleFill 3) (fits_sampleFill (.inr ⟨rfl, rfl⟩)) isFlush h₂
  have hs := ready_beforeTurn.begin (H := sampleHash) (t := sampleFill 4)
    (fits_sampleFill (.inr ⟨rfl, rfl⟩)) [] nofun
  rw [collectEvacuationData, List.append_nil] at hs
  exact h₃.step hs rfl

-- The document, which is behind the part that the laps have written, can still be published.
theorem places_sampleTurn : ∃ d,
    sampleTurn.Places (sampleCopy 20512 2 2) (sectors (sampleCopy 20512 2 2).data.length) d ∧
    d.offset = 20512 ∧ d.phase = odd 2 := by
  have hr₃ := ready_beforeTurn
  let r := sampleCopy 20512 2 2
  have ha : sampleTurn.ring.allocationValid r.allocation r.data.length = true := by
    have hend : sampleTurn.ring.writingEnd = 20512 := stop_sampleFill
    have hstart : sampleTurn.ring.start = 512 := hr₃.start
    have hstop : sampleTurn.ring.stop = 32768 := hr₃.stop
    have hgen : sampleTurn.ring.generation = 3 := hr₃.generation
    have hw : sampleTurn.ring.writePos = 20512 := hr₃.writePos
    rw [Ring.allocationValid_iff, length_sampleCopy, hend, hstart, hstop, hgen, hw]
    exact ⟨fun h => absurd h.2.2.1 (by decide), by decide, by decide, .inr ⟨rfl, by decide⟩⟩
  have hm : r ∈ (sampleLog 2).ring.flushed := mem_lap_sampleAddition
  have hm : r ∈ sampleTurn.ring.flushed := List.mem_append_left _ hm
  rw [length_sectors_sampleCopy]
  exact exists_places hm ha 512 (by decide) (by decide)

theorem ready_afterTurn (s' : Stripe) (hr : s'.ring = { sampleTurn.ring with dirs := s'.ring.dirs })
    (hc : s'.closing = false) : Ready { s' with ring := s'.ring.endFlush (sampleFill 4) } 4 20512 :=
  stop_sampleFill (g := 4) ▸
    ready_beforeTurn.finish (t := sampleFill 4) s' hr (hc.trans ready_beforeTurn.closing.symm)

theorem opened_sampleStripe : sampleStripe.Opened H where
  ram _       := rfl
  evacuations := rfl
  leads       := nofun
  ring        := Ring.opened_cold _ (by decide) (by decide)
  unique      := nofun

-- The writer commits and gives up its entry.
def finished (s : Stripe) (i : Nat) (w : Writer) : Stripe :=
  { s with writers := s.writers.set i { w with closed := true } }.detach w.key

theorem dirs_finished {i : Nat} {w : Writer} : (finished s i w).dirs = s.dirs := rfl

theorem run_finished {i : Nat} {w : Writer} (hw : s.writers[i]? = some w) (hc : w.closed = false)
    (he : s.entries w.key = some i) :
    Run (Step H) (fun _ e => e = .other) s (finished s i w) := by
  have h : Run (Step H) (fun _ e => e = .other) s _ := .single (.close i w hw hc) rfl
  refine h.step (.release i { w with closed := true } ?_ rfl he) rfl
  exact List.getElem?_set_self (List.getElem?_eq_some_iff.mp hw).1

section Backed

open DirManager (Performs)

-- The steps of a small stripe with its directory.
abbrev SampleStep : Backed Stripe → Event → Backed Stripe → Prop :=
  Backed.Step Backed.sampleSpace id (Step sampleHash)

variable {Ok : Backed Stripe → Event → Prop} {dm dm' : DirManager} {b₀ : Backed Stripe} {version : UInt64}
  {calls : List Call} {o : Nat}

theorem alone_lap (h : Backed.Alone dm s) : Backed.Alone dm (s.lap t) := by
  have hle (k : Bytes) (x' : Entry (Record × Mark)) (hx : (s.lap t).dirs k = some x') :
      ∃ x, s.dirs k = some x ∧ (x' = x ∨ x' = x.relink 0) := by
    rw [dirs_lap] at hx
    split at hx
    case isFalse => exact ⟨x', hx, .inl rfl⟩
    case isTrue =>
      simp only [Table.removePhase, Option.map_eq_some_iff, Option.filter_eq_some_iff] at hx
      obtain ⟨x, ⟨hx, _⟩, he⟩ := hx
      exact ⟨x, hx, .inr he.symm⟩
  constructor
  case only =>
    intro k hk
    by_contra hc
    obtain ⟨x', hx'⟩ := Option.ne_none_iff_exists'.mp hc
    obtain ⟨x, hx, _⟩ := hle k x' hx'
    cases (h.only k hk).symm.trans hx
  case entry =>
    intro x' hx'
    obtain ⟨x, hx, he⟩ := hle [97] x' hx'
    obtain ⟨hs, hn⟩ := h.entry x hx
    have hd : x'.dir = x.dir := by
      rcases he with rfl | rfl
      case inl => rfl
      case inr => exact hn
    exact hd ▸ ⟨hs, hn⟩

theorem alone_begin (h : Backed.Alone dm s) :
    Backed.Alone dm { s with ring := s.ring.beginFlush t fun _ => 0 } :=
  (alone_lap (t := t) h).congr rfl

theorem alone_finish (h : Backed.Alone dm s) : Backed.Alone dm { s with ring := s.ring.endFlush t } :=
  h.congr rfl

theorem backed_finish (h : Backed.Alone dm s) (ht : s.ring.task = some t) :
    SampleStep ⟨s, dm⟩ .flush ⟨{ s with ring := s.ring.endFlush t }, dm⟩ :=
  (alone_finish h).stripe (.finish t ht) (.none _ _ rfl rfl) .nil

theorem backed_finished {i : Nat} {w : Writer} (ha : Backed.Alone dm s)
    (hw : s.writers[i]? = some w) (hc : w.closed = false) (he : s.entries w.key = some i) :
    Run SampleStep (fun _ e => e = .other) ⟨s, dm⟩ ⟨finished s i w, dm⟩ := by
  let w' : Writer := { w with closed := true }
  let s₁ : Stripe := { s with writers := s.writers.set i w' }
  have ha₁ : Backed.Alone dm s₁ := ha.congr rfl
  have hw₁ : s₁.writers[i]? = some w' := List.getElem?_set_self (List.getElem?_eq_some_iff.mp hw).1
  have ha₂ : Backed.Alone dm (finished s i w) := ha.congr rfl
  have h : Run SampleStep (fun _ e => e = .other) ⟨s, dm⟩ ⟨s₁, dm⟩ :=
    .single (ha₁.stripe (.close i w hw hc) (.none _ _ rfl rfl) .nil) rfl
  exact h.step (ha₂.stripe (.release i w' hw₁ rfl he) (.none _ _ rfl rfl) .nil) rfl

-- What the sweep of a lap leaves of the directory.
def Sweeps (dm : DirManager) (t : FlushTask) (s : Stripe) : Prop :=
  Performs Backed.sampleSpace
    (if t.generation ≠ s.ring.generation then [.op (.removePhase (odd t.generation))] else []) dm dm

theorem sweeps_same (h : s.Ready g w) (ht : t.generation = g) : Sweeps dm t s := by
  rw [Sweeps, if_neg (not_not.mpr (ht.trans h.generation.symm))]
  exact .nil

theorem sweeps_next (hroom : ∀ seg ∈ dm.segments, seg.Roomy)
    (he : dm.removePhase (odd t.generation) = .ok dm) : Sweeps dm t s := by
  rw [Sweeps]
  split
  case isTrue => exact .op (fun _ h => by cases h) trivial (fun seg h => .inl (hroom seg h)) he .nil
  case isFalse => exact .nil

-- A task is begun.
theorem Ready.backed_begin (h : s.Ready g w) (ht : Fits g w t) (candidates : List (Bytes × Nat))
    (hc : ∀ c ∈ candidates, c.1 = [97] ∧ t.offset ≤ c.2 ∧ c.2 < t.stop) (hd : Sweeps dm t s)
    (ha : Backed.Alone dm s) : SampleStep ⟨s, dm⟩ .flush
      ⟨{ s with
          ring        := s.ring.beginFlush t fun _ => 0
          evacuations := s.evacuations ++ s.collectEvacuationData sampleHash t.offset t.stop 0 candidates },
        dm⟩ := by
  refine Backed.Alone.stripe ((alone_begin (t := t) ha).congr rfl)
    (h.begin ht candidates fun c hm => (hc c hm).2)
    (.begin t _ candidates) ((DirManager.performs_gets fun k hk => ?_).append hd)
  obtain ⟨c, hm, rfl⟩ := List.mem_map.mp hk
  rw [(hc c hm).1]
  exact Backed.mem_sampleSpace

theorem Ready.backed (h : s.Ready g w) (ht : Fits g w t) (hd : Sweeps dm t s) (ha : Backed.Alone dm s)
    (ho : ∀ b, Ok b .flush) (hr : Run SampleStep Ok b₀ ⟨s, dm⟩) : Run SampleStep Ok b₀ ⟨s.lap t, dm⟩ := by
  have hs := h.backed_begin ht [] (by simp) hd ha
  rw [collectEvacuationData, List.append_nil] at hs
  exact (hr.step hs (ho _)).step (backed_finish (alone_begin ha) rfl) (ho _)

theorem alone_sampleOpen {w : Writer} : Backed.Alone dm (sampleStripe.openWrite w) := by
  refine .of_none fun k => ?_
  by_contra hc
  obtain ⟨x, hx⟩ := Option.ne_none_iff_exists'.mp hc
  obtain ⟨_, _, h, _⟩ := shrinks_openWrite.dirs k x hx
  cases h

-- A writer is opened.
theorem backed_sampleOpen (version : UInt64) :
    SampleStep ⟨sampleStripe, .init 4⟩ (.openWrite [97] [97])
      ⟨sampleStripe.openWrite { sampleWriter with version }, .init 4⟩ :=
  alone_sampleOpen.stripe
    (.openWrite { sampleWriter with version } rfl rfl rfl rfl (absurd rfl) rfl rfl rfl)
    (.openWrite { sampleWriter with version }) Backed.performs_sampleDelete

-- Its document is on the disk, and the directory is empty.
theorem backed_sampleLog (version : UInt64) (ho : ∀ b, Ok b .flush) :
    Run SampleStep Ok ⟨sampleStripe.openWrite { sampleWriter with version }, .init 4⟩
      ⟨sampleLog version, .init 4⟩ := by
  have ha : Backed.Alone (.init 4) (sampleStripe.openWrite { sampleWriter with version }) := alone_sampleOpen
  have h₀ : (sampleStripe.openWrite { sampleWriter with version }).Ready 2 512 :=
    ⟨rfl, rfl, rfl, rfl, rfl, rfl, rfl, rfl, rfl, rfl⟩
  have h₁ := stop_sampleFill (g := 2) ▸ h₀.lap (t := sampleFill 2)
  have hr : Run SampleStep Ok ⟨sampleStripe.openWrite { sampleWriter with version }, .init 4⟩ _ :=
    h₀.backed (fits_sampleFill (.inl ⟨rfl, rfl⟩)) (sweeps_same h₀ rfl) ha ho .refl
  exact h₁.backed (t := sampleAddition 20512 2 version) (fits_sampleAddition (by decide) (by decide))
    (sweeps_same h₁ rfl) (alone_lap ha) ho hr

-- The directory with the entry of the document.
def sampleLinks : DirManager := Backed.sampleSet (.init 4) 20512 512 false

theorem get_sampleLinks :
    sampleLinks.get sampleHash [97] = ⟨true, 0, (Dir.make 20512 512 0 false).getD {}⟩ := by
  decide +kernel

-- The writer publishes its head.
def enters (s : Stripe) (i o g : Nat) (version : UInt64) (dm : DirManager) : Stripe :=
  s.publish sampleHash i { sampleWriter with version } 0 (sampleCopy o g version)
    (dm.get sampleHash [97]).dir (dm.fate sampleHash) true

theorem step_enters {i : Nat} (hw : s.writers[i]? = some { sampleWriter with version })
    (ha : s.Admits sampleHash i { sampleWriter with version })
    (hr : sampleCopy o g version ∈ s.ring.flushed)
    (hv : s.ring.allocationValid ⟨o, g, 1⟩ 73 = true) (hs : dm.Sound)
    (hset : Performs Backed.sampleSpace [.op (.set [97] o 512 (odd g) fun _ => 0)] dm dm') :
    Step sampleHash s (.publish [97] (sampleCopy o g version)) (s.enters i o g version dm') ∧
    Calls sampleHash dm' s (.publish [97] (sampleCopy o g version)) (s.enters i o g version dm')
      [.op (.set [97] o 512 (odd g) fun _ => 0)] := by
  rw [← length_sampleDocument version] at hv
  have hc : Calls sampleHash dm' s (.publish [97] (sampleCopy o g version)) (s.enters i o g version dm') _ :=
    .publish i { sampleWriter with version } 0 (sampleCopy o g version) true (fun _ => 0) [97] rfl
  rw [length_sectors_sampleCopy] at hc
  have hset : Performs Backed.sampleSpace
    ([].map .get ++ [.op (.set [97] o 512 (odd g) fun _ => 0)]) dm dm' := hset
  have hplaces : s.Places (sampleCopy o g version) (sectors (sampleCopy o g version).data.length)
      (dm'.get sampleHash [97]).dir := by
    rw [length_sectors_sampleCopy]
    exact places_set hs hr hv hset
  exact ⟨.publish i _ 0 _ _ _ true hw rfl ha hplaces (fragment_sampleDocument version)
    (fun _ _ h => by cases h), hc⟩

theorem alone_enters {i : Nat} (h : Backed.Alone dm s) (hh : (dm'.get sampleHash [97]).hit = true)
    (hn : (dm'.get sampleHash [97]).dir.setNext 0 = (dm'.get sampleHash [97]).dir) :
    Backed.Alone dm' (s.enters i o g version dm') :=
  h.set dirs_publish hh hn

-- The directory with the entry of a copy.
def sampleMoved : DirManager := Backed.sampleSet sampleLinks 20612 73 true

theorem get_sampleMoved :
    sampleMoved.get sampleHash [97] = ⟨true, 0, (Dir.make 20612 73 0 true).getD {}⟩ := by
  decide +kernel

def moves (s : Stripe) (v : EvacuationRecord) (g : Nat) (version : UInt64) : Stripe :=
  s.put v.key (sampleMoved.get sampleHash v.key).dir (sampleCopy 20612 g version) v.mark
    (sampleMoved.fate sampleHash) false

-- The log runs over the entry, whose document is copied and written again. The copy is published.
theorem backed_evacuate (h : s.Ready g 20512) (hodd : odd g = true) (hx : s.dirs [97] = some x)
    (hoff : x.dir.offset = 20512) (hp : x.dir.phase = false)
    (hd : s.ring.disk.Holds 20512 (sampleDocument version)) (ha : Backed.Alone sampleLinks s)
    (hm₀ : b₀.Mirrored Backed.sampleSpace id) (ho : ∀ b, Ok b .flush)
    (hr : Run SampleStep Ok b₀ ⟨s, sampleLinks⟩) :
    ∃ s' v, Run SampleStep Ok b₀ ⟨s', sampleLinks⟩ ∧
      SampleStep ⟨s', sampleLinks⟩ (.evacuate v (sampleCopy 20612 g version))
        ⟨s'.moves v g version, sampleMoved⟩ ∧
      s'.Ready g 20685 ∧ s' = { s with ring := s'.ring, evacuations := s'.evacuations } ∧
      s'.dirs [97] = some x ∧ v.key = [97] ∧ v.source = s.latest 20512 := by
  have hg : g ≠ 0 := by
    rintro rfl
    cases hodd
  have hp : x.dir.phase ≠ odd g := by simp [hp, hodd]
  have hset : Performs Backed.sampleSpace ([[97]].map .get ++ [.op (.set [97] 20612 73 (odd g) fun _ => 0)])
      sampleLinks sampleMoved := by
    rw [hodd]
    exact Backed.performs_sampleSet (List.forall_mem_singleton.mpr Backed.mem_sampleSpace) (by decide)
      (by decide) rfl
  obtain ⟨v, hc, hk, hdata, hcopy⟩ := exists_copy h hg hx hoff hp hd
  let t := Ring.sampleTask 20512 g [100]
  have hstop : t.stop = 20612 := Ring.stop_sampleTask ..
  have ht : Fits g 20512 t :=
    fits_sampleTask (.inl ⟨rfl, rfl⟩) (by decide) (by decide) (by simp) (by simp [AggBufferSize])
  have hb := h.backed_begin ht [([97], 20512)] (List.forall_mem_singleton.mpr ⟨rfl, le_rfl,
    hstop ▸ (by decide : 20512 < 20612)⟩) (sweeps_same h rfl) ha
  have hc : s.collectEvacuationData sampleHash t.offset t.stop 0 [([97], 20512)] = [v] := by
    have hc : s.copyOf sampleHash t.offset t.stop 0 [97] 20512 = some v := hstop ▸ hc
    simp only [collectEvacuationData, hc]
  rw [hc] at hb
  let s₁ : Stripe := { s.lap t with evacuations := s.evacuations ++ [v] }
  have ha₁ : Backed.Alone sampleLinks s₁ := (alone_lap (t := t) ha).congr rfl
  have h₁ : Run SampleStep Ok b₀ ⟨s₁, sampleLinks⟩ :=
    (hr.step hb (ho _)).step (backed_finish ((alone_begin (t := t) ha).congr rfl) rfl) (ho _)
  have hr₁ : s₁.Ready g 20612 := { h.lap (t := t) with writePos := hstop }
  have h₂ := hr₁.backed (t := sampleAddition 20612 g version) (fits_sampleAddition (by decide) (by decide))
    (sweeps_same hr₁ rfl) ha₁ ho h₁
  have hr₂ : (s₁.lap (sampleAddition 20612 g version)).Ready g 20685 :=
    { hr₁.lap (t := sampleAddition 20612 g version) with writePos := stop_sampleAddition }
  have hdirs : (s₁.lap (sampleAddition 20612 g version)).dirs = s.dirs :=
    (dirs_lap_same hr₁.generation.symm).trans (dirs_lap_same (t := t) h.generation.symm)
  have hm : sampleCopy 20612 g version ∈ (s₁.lap (sampleAddition 20612 g version)).ring.flushed :=
    mem_lap_sampleAddition
  have hv := hr₂.allocationValid (r := sampleCopy 20612 g version) rfl (by decide : 512 ≤ 20612)
    stop_sampleCopy.le (by decide)
  rw [← show (sampleCopy 20612 g version).data.length = 73 from length_sampleCopy, ← hk] at hset
  have hgen : g ≤ v.generation + 1 := by
    rw [hcopy.generation, h.phase, if_neg hp, h.generation]
    omega
  have ha₂ : Backed.Alone sampleMoved ((s₁.lap (sampleAddition 20612 g version)).moves v g version) :=
    (alone_lap ha₁).set (by rw [moves, dirs_put, hk]) (by rw [get_sampleMoved])
      (by rw [get_sampleMoved]; decide +kernel)
  refine ⟨_, v, h₂, ha₂.stripe
    (.evacuate v x _ _ (sampleMoved.fate sampleHash) false (List.mem_append_right _ (.head _)) hr₂.closing
      hr₂.storageErr hcopy.invalidation (by rw [hdirs, hk, hx]) (by rw [hcopy.old]) (by rw [hcopy.old])
      (hr₂.generation.symm ▸ hgen) hdata.symm (places_set (Backed.mirrored_run hr hm₀).sound hm hv hset))
    (.evacuate v _ false _) hset, hr₂, rfl, by rw [hdirs, hx], hk, by rw [hcopy.source, hoff]⟩

-- The entry of the document.
def sampleEntry (s : Stripe) (version : UInt64) : Entry (Record × Mark) :=
  ⟨(sampleLinks.get sampleHash [97]).dir, sampleCopy 20512 2 version,
    s.markOf { sampleWriter with version } 0⟩

-- The writer publishes it.
structure Enters (s s' : Stripe) (version : UInt64) : Prop where
  step     : Step sampleHash s (.publish [97] (sampleCopy 20512 2 version)) s'
  calls    : Calls sampleHash sampleLinks s (.publish [97] (sampleCopy 20512 2 version)) s'
    [.op (.set [97] 20512 512 (odd 2) fun _ => 0)]
  performs : Performs Backed.sampleSpace [.op (.set [97] 20512 512 (odd 2) fun _ => 0)] (.init 4) sampleLinks
  alone    : Backed.Alone sampleLinks s'
  entry    : s'.Published version (sampleEntry s version)

theorem enters_sampleLinks (hw : s.writers[0]? = some { sampleWriter with version })
    (ha : s.Admits sampleHash 0 { sampleWriter with version })
    (hr : sampleCopy 20512 2 version ∈ s.ring.flushed) (hv : s.ring.allocationValid ⟨20512, 2, 1⟩ 73 = true) (hl : Backed.Alone (.init 4) s) :
    Enters s (s.enters 0 20512 2 version sampleLinks) version := by
  have hset : Performs Backed.sampleSpace ([].map .get ++ [.op (.set [97] 20512 512 (odd 2) fun _ => 0)])
      (.init 4) sampleLinks := Backed.performs_sampleSet (by simp) (by decide) (by decide) rfl
  have ⟨hs, hc⟩ := step_enters hw ha hr hv (DirManager.sound_init le_rfl) hset
  exact ⟨hs, hc, hset, alone_enters hl (congrArg Lookup.hit get_sampleLinks) (by decide +kernel),
    published_publish rfl (by rw [get_sampleLinks]; decide +kernel) (by rw [get_sampleLinks]; decide +kernel)⟩

-- The head of the object in the lap in which it was written.
def sampleLogged (version : UInt64) : Stripe := (sampleLog version).enters 0 20512 2 version sampleLinks

theorem enters_sampleLog (version : UInt64) : Enters (sampleLog version) (sampleLogged version) version := by
  have hv := (flushes_sampleLog version).2.allocationValid (r := sampleCopy 20512 2 version) rfl
    (by decide : 512 ≤ 20512) stop_sampleCopy.le (by decide)
  exact enters_sampleLinks rfl ⟨rfl, rfl, absurd rfl, rfl, rfl, rfl⟩ mem_lap_sampleAddition
    (length_sampleCopy ▸ hv) (alone_lap (alone_lap alone_sampleOpen))

theorem ready_sampleLogged (version : UInt64) : (sampleLogged version).Ready 2 20585 :=
  { (flushes_sampleLog version).2 with }

theorem mirrored_sampleStripe : Backed.Mirrored Backed.sampleSpace id ⟨sampleStripe, .init 4⟩ :=
  Backed.mirrored_init le_rfl fun _ => rfl

theorem sweeps_init : Sweeps (.init 4) t s := by
  refine sweeps_next (by decide +kernel) ?_
  cases odd t.generation
  all_goals rfl

theorem sweeps_sampleLinks (hg : odd t.generation = true) : Sweeps sampleLinks t s :=
  sweeps_next (by decide +kernel) (hg ▸ rfl)

-- The entry is evacuated in the lap after the one it was written in.
theorem Published.evacuate (hx : s.Published version x) (h : s.Ready 2 w)
    (hd : s.ring.disk.Holds 20512 (sampleDocument version)) (ha : Backed.Alone sampleLinks s)
    (hm₀ : b₀.Mirrored Backed.sampleSpace id) (ho : ∀ b, Ok b .flush)
    (hr : Run SampleStep Ok b₀ ⟨s, sampleLinks⟩) :
    ∃ s' v, Run SampleStep Ok b₀ ⟨s', sampleLinks⟩ ∧
      SampleStep ⟨s', sampleLinks⟩ (.evacuate v (sampleCopy 20612 3 version))
        ⟨s'.moves v 3 version, sampleMoved⟩ ∧
      s'.Ready 3 20685 ∧
      s' = { s.lap (sampleFill 3) with ring := s'.ring, evacuations := s'.evacuations } ∧ v.key = [97] := by
  have h₁ := h.backed (t := sampleFill 3) (fits_sampleFill (.inr ⟨rfl, rfl⟩)) (sweeps_sampleLinks rfl) ha
    ho hr
  have hr₁ := stop_sampleFill (g := 3) ▸ h.lap (t := sampleFill 3)
  have hx₁ := hx.lap (t := sampleFill 3) (by rw [h.generation]; decide) rfl
  obtain ⟨s', v, h, hs, hr₂, he, _, hk, _⟩ := backed_evacuate hr₁ rfl hx₁.entry hx₁.offset hx₁.phase
    (holds_lap_sampleFill hd) (alone_lap ha) hm₀ ho h₁
  exact ⟨s', v, h, hs, hr₂, he, hk⟩

theorem evacuate_exact_sample : ∃ b b' v r x x',
    Run SampleStep (fun b e => ¬e.Aliases b.state) ⟨sampleStripe, .init 4⟩ b ∧
      SampleStep b (.evacuate v r) b' ∧
      b.Finds sampleHash id v.key x ∧ b'.Finds sampleHash id v.key x' ∧
      x'.mark.1 = r ∧ v.source = some x.mark.1 ∧ v.data = x.mark.1.data ∧
      v.removals = b.state.removals ∧ r.data = x.mark.1.data := by
  let Ok : Backed Stripe → Event → Prop := fun b e => ¬e.Aliases b.state
  have ho : ∀ b, Ok b .flush := fun _ => Event.not_aliases rfl
  have hent := enters_sampleLog 1
  have ha := hent.alone
  have hx := hent.entry
  have h₁ := ((Run.single (backed_sampleOpen 1) (Event.not_aliases rfl)).trans (backed_sampleLog 1 ho)).step
    (ha.stripe hent.step hent.calls hent.performs)
    fun ⟨_, _, _, hlt, _⟩ => absurd (flushes_sampleLog 1).2.idle hlt.ne'
  have hr₁ := ready_sampleLogged 1
  have hdisk : (sampleLog 1).ring.disk.Holds 20512 (sampleDocument 1) := holds_lap_sampleAddition
  have hdisk : (sampleLogged 1).ring.disk.Holds 20512 (sampleDocument 1) := hdisk
  generalize sampleLogged 1 = s at *
  obtain ⟨s', v, h, hs, _⟩ := hx.evacuate hr₁ hdisk ha mirrored_sampleStripe ho h₁
  have h₀ : (⟨sampleStripe, .init 4⟩ : Backed Stripe).state.Opened sampleHash := opened_sampleStripe
  have ⟨x, x', hx⟩ := evacuate_exact h₀ mirrored_sampleStripe h hs
  exact ⟨_, _, v, _, x, x', h, hs, hx⟩

-- The head of the second version is published while the first task of the lap after the next one is
-- being written. Later in that lap, a copy of the first version is appended to the log at the same
-- place, from where it is evacuated as if it were the second version.
theorem evacuate_unsound : ∃ b b' v r x,
    Run SampleStep (fun _ _ => True) ⟨sampleStripe, .init 4⟩ b ∧ SampleStep b (.evacuate v r) b' ∧
      b.Finds sampleHash id v.key x ∧ v.source ≠ some x.mark.1 ∧ x.mark.1.data = sampleDocument 2 ∧
      r.data = sampleDocument 1 := by
  let Ok : Backed Stripe → Event → Prop := fun _ _ => True
  have ho : ∀ b, Ok b .flush := fun _ => trivial
  have ha : Backed.Alone (.init 4) (sampleLog 2) := alone_lap (alone_lap alone_sampleOpen)
  have h₁ := (Run.single (backed_sampleOpen 2) trivial).trans (backed_sampleLog 2 ho)
  have hr₁ := (flushes_sampleLog 2).2
  have h₂ := hr₁.backed (t := sampleFill 3) (fits_sampleFill (.inr ⟨rfl, rfl⟩)) sweeps_init ha ho h₁
  have hb := ready_beforeTurn.backed_begin (t := sampleFill 4) (fits_sampleFill (.inr ⟨rfl, rfl⟩)) []
    (by simp) sweeps_init (alone_lap ha)
  rw [collectEvacuationData, List.append_nil] at hb
  have h₃ : Run SampleStep Ok ⟨sampleStripe, .init 4⟩ ⟨sampleTurn, .init 4⟩ := h₂.step hb trivial
  obtain ⟨_, hplaces, _⟩ := places_sampleTurn
  have hent : Enters sampleTurn _ 2 := enters_sampleLinks rfl
    ⟨rfl, rfl, absurd rfl, rfl, rfl, rfl⟩ hplaces.flushed (length_sampleCopy ▸ hplaces.allocation)
    (alone_begin (alone_lap ha))
  let s₅ := sampleTurn.enters 0 20512 2 2 sampleLinks
  let s₆ : Stripe := { s₅ with ring := s₅.ring.endFlush (sampleFill 4) }
  have ha₆ : Backed.Alone sampleLinks s₆ := alone_finish hent.alone
  have h₆ : Run SampleStep Ok ⟨sampleStripe, .init 4⟩ ⟨s₆, sampleLinks⟩ :=
    (h₃.step (hent.alone.stripe hent.step hent.calls hent.performs) trivial).step
      (backed_finish hent.alone rfl) trivial
  have hr₆ : s₆.Ready 4 20512 := ready_afterTurn s₅ rfl rfl
  have hx₆ : s₆.Published 2 (sampleEntry sampleTurn 2) := hent.entry.finish
  generalize s₆ = s₆ at *
  let s₇ := s₆.lap (sampleAddition 20512 4 1)
  have h₇ := hr₆.backed (t := sampleAddition 20512 4 1) (fits_sampleAddition (by decide) (by decide))
    (sweeps_same hr₆ rfl) ha₆ ho h₆
  have hr₇ : s₇.Ready 4 20585 :=
    { hr₆.lap (t := sampleAddition 20512 4 1) with writePos := stop_sampleAddition }
  have hx₇ : s₇.Published 2 (sampleEntry sampleTurn 2) :=
    { hx₆ with entry := (congrFun (dirs_lap_same hr₆.generation.symm) _).trans hx₆.entry }
  let s₈ := s₇.lap (sampleFill 5)
  have h₈ := hr₇.backed (t := sampleFill 5) (fits_sampleFill (.inr ⟨rfl, rfl⟩)) (sweeps_sampleLinks rfl)
    (alone_lap ha₆) ho h₇
  have hr₈ : s₈.Ready 5 20512 := stop_sampleFill (g := 5) ▸ hr₇.lap (t := sampleFill 5)
  have hx₈ := hx₇.lap (t := sampleFill 5) (by rw [hr₇.generation]; decide) rfl
  have hdisk : s₇.ring.disk.Holds 20512 (sampleDocument 1) := holds_lap_sampleAddition
  obtain ⟨s', v, h, hs, _, _, hx, hk, hsource⟩ := backed_evacuate hr₈ rfl hx₈.entry hx₈.offset hx₈.phase
    (holds_lap_sampleFill hdisk) (alone_lap (alone_lap ha₆)) mirrored_sampleStripe ho h₈
  have hfinds := (Backed.mirrored_run h mirrored_sampleStripe).finds Backed.mem_sampleSpace hx
  refine ⟨_, _, v, _, _, h, hs, hk ▸ hfinds, ?_, by rw [hx₈.record]; rfl, rfl⟩
  -- The copy of the first version has been written later than the record of the entry.
  rw [hsource, hx₈.record]
  intro hl
  have hm : sampleCopy 20512 4 1 ∈ s₇.ring.flushed := mem_lap_sampleAddition
  have hm : sampleCopy 20512 4 1 ∈ s₈.ring.flushed := List.mem_append_left _ hm
  have := List.le_of_mem_argmax (List.mem_filter.mpr ⟨hm, decide_eq_true rfl⟩) hl
  exact absurd this (by decide : ¬4 ≤ 2)

end Backed

end Sample

end Stripe
end Bakemono
