import Bakemono.Stripe.Ledger

namespace Bakemono.Stripe

variable {H : Hash} {s s' : Stripe} {e : Event} {k : Bytes} {p : Bytes × Record} {i j : Nat} {w : Writer}

section Retract

-- The fragment has a valid place, and the directory maps its key to this place.
def Hits (s : Stripe) (p : Bytes × Record) (k : Bytes) : Prop :=
  p.1 = k ∧ s.ring.allocationValid p.2.allocation p.2.data.length = true ∧
  ∃ x, s.dirs k = some x ∧ x.dir.offset = p.2.offset

-- The fragment has a valid place, but its key has no entry.
def Misses (s : Stripe) (p : Bytes × Record) (k : Bytes) : Prop :=
  p.1 = k ∧ s.ring.allocationValid p.2.allocation p.2.data.length = true ∧ s.dirs k = none

theorem retract_of_hits (h : s.Hits p k) :
    (s.retract p).dirs k = none ∧ (s.retract p).ram k = none := by
  have ⟨hk, hv, x, hx, ho⟩ := h
  subst hk
  have he : s.retract p = (s.delete p.1).forget p.1 := by simp [retract, hv, hx, ho]
  rw [he]
  exact ⟨Function.update_self .., Function.update_self ..⟩

theorem dirs_retract (h : ¬s.Hits p k) : (s.retract p).dirs k = s.dirs k := by
  unfold retract
  split
  case isTrue => rfl
  case isFalse hv =>
    split
    case h_1 => rfl
    case h_2 x hx =>
      split
      case isFalse => rfl
      case isTrue ho =>
        by_cases hk : p.1 = k
        case pos => exact absurd ⟨hk, not_not.mp hv, x, hk ▸ hx, ho⟩ h
        case neg => exact Function.update_of_ne (Ne.symm hk) ..

theorem ram_retract (h : ¬s.Hits p k) (h' : ¬s.Misses p k) : (s.retract p).ram k = s.ram k := by
  unfold retract
  split
  case isTrue => rfl
  case isFalse hv =>
    by_cases hk : p.1 = k
    case neg =>
      split
      case h_1 => exact Function.update_of_ne (Ne.symm hk) ..
      case h_2 =>
        split
        case isFalse => rfl
        case isTrue => exact Function.update_of_ne (Ne.symm hk) ..
    case pos =>
      split
      case h_1 hx => exact absurd ⟨hk, not_not.mp hv, hk ▸ hx⟩ h'
      case h_2 x hx =>
        split
        case isFalse => rfl
        case isTrue ho => exact absurd ⟨hk, not_not.mp hv, x, hk ▸ hx, ho⟩ h

theorem allocationValid_retract {a : Allocation} {size : Nat} :
    (s.retract p).ring.allocationValid a size = s.ring.allocationValid a size := by
  rw [(drops_retract p).rest]
  rfl

theorem hits_congr (hd : s'.dirs k = s.dirs k)
    (hv : ∀ a size, s'.ring.allocationValid a size = s.ring.allocationValid a size) :
    s'.Hits p k ↔ s.Hits p k := by
  rw [Hits, Hits, hd, hv]

theorem misses_congr (hd : s'.dirs k = s.dirs k)
    (hv : ∀ a size, s'.ring.allocationValid a size = s.ring.allocationValid a size) :
    s'.Misses p k ↔ s.Misses p k := by
  rw [Misses, Misses, hd, hv]

variable {ps : List (Bytes × Record)}

theorem drops_retracts : Drops s (ps.foldl retract s) := Drops.foldl (fun _ => drops_retract) ps

theorem retracts_of_hits (hp : p ∈ ps) (h : s.Hits p k) :
    (ps.foldl retract s).dirs k = none ∧ (ps.foldl retract s).ram k = none := by
  induction ps generalizing s
  case nil => cases hp
  case cons a ps hi =>
    by_cases ha : s.Hits a k
    case pos =>
      -- What is gone does not come back.
      have ⟨hd, hm⟩ := retract_of_hits ha
      have hdrop : Drops (s.retract a) (ps.foldl retract (s.retract a)) := drops_retracts
      constructor
      case left =>
        by_contra hc
        have ⟨x, hx⟩ := Option.ne_none_iff_exists'.mp hc
        have ⟨_, _, hx, _⟩ := hdrop.dirs k x hx
        cases hd.symm.trans hx
      case right =>
        by_contra hc
        have ⟨x, hx⟩ := Option.ne_none_iff_exists'.mp hc
        cases hm.symm.trans (hdrop.ram k x hx)
    case neg =>
      have hm : p ∈ ps := by
        cases hp
        case head => exact absurd h ha
        case tail hp => exact hp
      exact hi hm ((hits_congr (dirs_retract ha) fun _ _ => allocationValid_retract).mpr h)

theorem dirs_retracts (h : ∀ p ∈ ps, ¬s.Hits p k) : (ps.foldl retract s).dirs k = s.dirs k := by
  induction ps generalizing s
  case nil => rfl
  case cons a ps hi =>
    have ⟨ha, h⟩ := List.forall_mem_cons.mp h
    have hd := dirs_retract ha
    rw [List.foldl_cons, hi, hd]
    exact fun p hp => mt (hits_congr hd fun _ _ => allocationValid_retract).mp (h p hp)

theorem ram_retracts (h : ∀ p ∈ ps, ¬s.Hits p k ∧ ¬s.Misses p k) :
    (ps.foldl retract s).ram k = s.ram k := by
  induction ps generalizing s
  case nil => rfl
  case cons a ps hi =>
    have ⟨ha, h⟩ := List.forall_mem_cons.mp h
    have hd := dirs_retract ha.1
    rw [List.foldl_cons, hi, ram_retract ha.1 ha.2]
    intro p hp
    have ⟨h₁, h₂⟩ := h p hp
    exact ⟨mt (hits_congr hd fun _ _ => allocationValid_retract).mp h₁,
      mt (misses_congr hd fun _ _ => allocationValid_retract).mp h₂⟩

end Retract

section Abort

theorem ram_abortLocked : (s.abortLocked i w).ram = (w.published.foldl retract s).ram := by
  simp only [abortLocked, disown]
  split
  all_goals rfl

-- The index loses the key of the writer if it is still the one in the open directory.
theorem lookup_abortLocked (h : k ≠ w.key ∨ s.entries w.key ≠ some i) :
    (s.abortLocked i w).index.lookup k = s.index.lookup k := by
  have hd : Drops s (w.published.foldl retract s) := drops_retracts
  have hr := hd.rest
  have he : (w.published.foldl retract s).entries = s.entries := by rw [hr]
  have hi : (w.published.foldl retract s).index = s.index := by rw [hr]
  simp only [abortLocked, disown, he]
  split
  case isTrue ho =>
    rw [hi, DirTrie.lookup_delete, if_neg (h.resolve_right (not_not.mpr ho))]
  case isFalse => rw [hi]

theorem exact_abortLocked : Exact s (s.abortLocked i w) := by
  intro k hd hn
  rw [dirs_abortLocked] at hn
  rw [ram_abortLocked]
  by_cases h : ∃ p ∈ w.published, s.Hits p k
  case pos =>
    have ⟨p, hp, h⟩ := h
    exact (retracts_of_hits hp h).2
  case neg =>
    rw [dirs_retracts fun p hp hh => h ⟨p, hp, hh⟩] at hn
    exact absurd hn hd

namespace Ledger

variable {l l' l₀ : Ledger} {q : Publication} {o : Bytes}

-- The place of a fragment is valid, but its key has no entry: the first task of a lap has removed the
-- entries of this phase, or the key is also one of another object.
def Clears (l : Ledger) (w : Writer) : Prop :=
  ∃ p ∈ w.published, l.stripe.Misses p p.1 ∧
    (l.stripe.ring.Turning ∧ p.2.generation + 1 = l.stripe.ring.generation ∨
      ∃ q j o, l.last p.1 = some q ∧ q.owner = some (j, o) ∧ o ≠ w.key)

theorem Inv.exists_last (h : l.Inv H) (hw : l.stripe.writers[i]? = some w) (hp : p ∈ w.published) :
    ∃ q, l.last p.1 = some q ∧
      (q = ⟨some (i, w.key), p.1, p.2⟩ ∨ After q ⟨some (i, w.key), p.1, p.2⟩) := by
  have hm := h.writers i w hw p hp
  have hs : (l.last p.1).isSome := List.find?_isSome.mpr ⟨_, hm, decide_eq_true rfl⟩
  have ⟨q, hq⟩ := Option.isSome_iff_exists.mp hs
  exact ⟨q, hq, (after_last h.order hq hm rfl).imp_left Eq.symm⟩

-- An entry at the valid place of a fragment is the one of the fragment, however many laps have passed.
theorem Inv.last_of_hits (h : l.Inv H) (hw : l.stripe.writers[i]? = some w) (hp : p ∈ w.published)
    (hh : l.stripe.Hits p k) : l.last k = some ⟨some (i, w.key), p.1, p.2⟩ := by
  have ⟨hk, hv, x, hx, ho⟩ := hh
  subst hk
  have ⟨q, hq, hafter⟩ := h.exists_last hw hp
  refine hq.trans (congrArg some (hafter.resolve_right fun ha => ha.record ?_))
  have hm := (mem_of_last hq).1
  have ⟨hstands, _, _⟩ := h.traced.ring.entry _ x hx
  have hrec := h.entries _ x q hx hq
  have hoff : p.2.offset = q.record.offset := by rw [← ho, hstands.offset, hrec]
  have hlap := ha.lap hoff
  have hle := h.traced.ring.toLayout.generation_le_of_valid hv (h.flushed q hm) hoff.symm
  exact h.traced.unique _ (h.flushed _ (h.writers i w hw p hp)) _ (h.flushed q hm) (hlap.antisymm hle)
    hoff

-- Memory of another writer of the object can only be in danger while a lap is started.
theorem Inv.clears_of_misses (h : l.Inv H) (hw : l.stripe.writers[i]? = some w) (hp : p ∈ w.published)
    (hm : l.stripe.Misses p k) (hq : l.last k = some q) (ho : q.owner = some (j, o)) (hne : j ≠ i)
    (hk : l.stripe.ram k ≠ none) : l.Clears w := by
  obtain ⟨hpk, hv, hd⟩ := hm
  subst hpk
  refine ⟨p, hp, ⟨rfl, hv, hd⟩, ?_⟩
  by_cases hkey : o = w.key
  case neg => exact .inr ⟨q, j, o, hq, ho, hkey⟩
  subst hkey
  have ⟨q', hq', hafter⟩ := h.exists_last hw hp
  cases hq.symm.trans hq'
  have hne' : q ≠ ⟨some (i, w.key), p.1, p.2⟩ := by
    intro hc
    rw [hc] at ho
    cases ho
    exact hne rfl
  have hle := (hafter.resolve_left hne').rival i j w.key ho rfl (Ne.symm hne)
  have hle : p.2.generation ≤ q.record.generation := hle
  have ⟨q', hq', hpass⟩ := h.memory _ hk
  cases hq.symm.trans hq'
  have ⟨_, _, _, hg⟩ := Ring.allocationValid_iff.mp hv
  have hrg : p.2.allocation.generation = p.2.generation := rfl
  cases hpass hd
  case inl hg' => omega
  case inr hg' => exact .inl ⟨hg'.2, by omega⟩

-- The fragment has been published, and nothing valid is left of it.
structure Lost (l : Ledger) (p : Bytes × Record) : Prop where
  used    : ¬l.Unused p.2
  flushed : p.2 ∈ l.stripe.ring.flushed
  gone    : l.stripe.ring.Dead p.2 ∨ ∀ x, l.stripe.dirs p.1 = some x → x.mark.1 ≠ p.2

theorem Lost.invalid (hl : l.Lost p) (h : l.Inv H) {x : Entry (Record × Mark)}
    (hx : l.stripe.dirs p.1 = some x) (hr : x.mark.1 = p.2) : l.stripe.ring.dirValid x.dir = false := by
  have ⟨hd, hm, hrec⟩ := h.traced.ring.entry _ x hx
  have hdead := hl.gone.resolve_right fun hg => hg x hx hr
  by_contra hv
  have hv := Bool.eq_true_of_not_eq_false hv
  have hlive := h.traced.ring.live hd (h.traced.ring.placed _ hm) hrec hv
  cases hdead
  case inl he => simp [(Ring.dirValid_iff.mp hv).2.1] at he
  case inr hn => exact hn (hr ▸ hlive)

theorem Lost.step (hl : l.Lost p) (h : l.Inv H) (hs : Step H l e l') (ha : ¬e.Aliases l.stripe) :
    l'.Lost p := by
  obtain ⟨hused, hflushed, hgone⟩ := hl
  have quiet {s'} (hs : Stripe.Step H l.stripe e s') (hp : e.publication = none) :
      (l.next s').Lost p := by
    obtain ⟨hd, _⟩ := below_effect hs.effect hp
    refine ⟨hused, (h.traced.ring_effect hs.effect ha).2.2 hflushed, ?_⟩
    refine hgone.imp (passed_effect hs.effect hp h.traced.ring hflushed).2 fun hg x' hx' => ?_
    obtain ⟨x, _, hx, hr⟩ := hd _ x' hx'
    rw [hr]
    exact hg x hx
  have put {q : Publication} {s'} (hs : Stripe.Step H l.stripe e s')
      (hp : e.publication = some (q.key, q.record)) (hu : l.Unused q.record) : (l.enter q s').Lost p := by
    obtain ⟨d, m, fate, _, _, _, hring, _⟩ := hs.put hp
    have hne : q.record ≠ p.2 := fun hc => hused (hc ▸ hu)
    refine ⟨fun hu' => hused fun q' hq' => hu' q' (.tail _ hq'), ?_, ?_⟩
    case refine_1 =>
      show _ ∈ s'.ring.flushed
      rw [hring]
      exact hflushed
    case refine_2 =>
      have hdirs : s'.dirs = l.stripe.dirs.set q.key ⟨d, q.record, m⟩ fate := by rw [dirs, hring]; rfl
      refine hgone.imp (fun hd => ?_) fun hg x hx => ?_
      case refine_1 =>
        show s'.ring.Dead _
        rw [hring]
        exact hd
      case refine_2 =>
        cases Table.of_set (hdirs ▸ hx)
        case inl hk => rw [hk.2]; exact hne
        case inr hk =>
          obtain ⟨_, x₀, _, hx₀, hr⟩ := hk
          rw [hr]
          exact hg x₀ hx₀
  cases hs
  case flush s' hs => exact quiet hs rfl
  case other s' hx hs hp => exact quiet hs hp
  case publish i w idx r d fate kept hs _ _ _ hu _ => exact put hs rfl hu
  case copy key r s' _ _ hu _ hs hp => exact put hs hp hu

theorem Inv.lost (h : l.Inv H) (hw : l.stripe.writers[i]? = some w) (hp : p ∈ w.published) :
    (l.next (l.stripe.abortLocked i w)).Lost p := by
  have hm := h.writers i w hw p hp
  have hf := h.flushed _ hm
  have hring : (l.stripe.abortLocked i w).ring =
      { l.stripe.ring with dirs := (l.stripe.abortLocked i w).dirs } := shrinks_abortLocked.ring
  refine ⟨fun hu => hu _ hm rfl, ?_, ?_⟩
  case refine_1 =>
    show _ ∈ (l.stripe.abortLocked i w).ring.flushed
    rw [hring]
    exact hf
  case refine_2 =>
    by_cases hv : l.stripe.ring.allocationValid p.2.allocation p.2.data.length = true
    case neg =>
      have hd : l.stripe.ring.Dead p.2 :=
        .inr (mt (h.traced.ring.toLayout.allocationValid_of_live (h.traced.ring.placed _ hf)) hv)
      refine .inl ?_
      show (l.stripe.abortLocked i w).ring.Dead _
      rw [hring]
      exact hd
    case pos =>
      refine .inr fun x hx hr => ?_
      have hx : (l.stripe.abortLocked i w).dirs p.1 = some x := hx
      have ⟨x₀, _, hx₀, hrel⟩ := shrinks_abortLocked.dirs _ x hx
      have ⟨hstands, _, _⟩ := h.traced.ring.entry _ x₀ hx₀
      have ho : x₀.dir.offset = p.2.offset := by
        rw [hstands.offset, ← hr, hrel]
        rfl
      rw [dirs_abortLocked, (retracts_of_hits hp ⟨rfl, hv, x₀, hx₀, ho⟩).1] at hx
      cases hx

-- `Abort` of a writer takes away what the writer has published and nothing else, in every run in which
-- no publication aliases the phase of the lap that is being started.
theorem abort_exact (h₀ : l₀.Opened H)
    (h : Run (Step H) (fun l e => ¬e.Aliases l.stripe) l₀ l)
    (hw : l.stripe.writers[i]? = some w) (hc : w.closed = false) (hn : ¬l.Clears w) :
    let s' := l.stripe.abortLocked i w
    (∀ k, (∀ q o, l.last k = some q → q.owner ≠ some (i, o)) → s'.dirs k = l.stripe.dirs k) ∧
    (∀ k q j o, l.last k = some q → q.owner = some (j, o) → j ≠ i → s'.ram k = l.stripe.ram k) ∧
    (∀ k, (∀ p ∈ w.published, p.1 ≠ k) → s'.ram k = l.stripe.ram k) ∧
    (∀ k, (k ≠ w.key ∨ l.stripe.entries w.key ≠ some i) →
      s'.index.lookup k = l.stripe.index.lookup k) ∧
    ∀ l', Run (Step H) (fun l e => ¬e.Aliases l.stripe) (l.next s') l' → ∀ p ∈ w.published, ∀ x,
      l'.stripe.dirs p.1 = some x → x.mark.1 = p.2 → l'.stripe.ring.dirValid x.dir = false := by
  have hi := h₀.run h
  intro s'
  refine ⟨fun k ho => ?_, fun k q j o hq ho hne => ?_, fun k hk => ?_,
    fun k => lookup_abortLocked, fun l' hr p hp x hx he => ?_⟩
  case refine_1 =>
    rw [dirs_abortLocked, dirs_retracts fun p hp hh => ?_]
    exact ho _ w.key (hi.last_of_hits hw hp hh) rfl
  case refine_2 =>
    rw [ram_abortLocked]
    by_cases hm : l.stripe.ram k = none
    case pos =>
      rw [hm]
      by_contra hc
      have ⟨x, hx⟩ := Option.ne_none_iff_exists'.mp hc
      cases hm.symm.trans (drops_retracts.ram k x hx)
    case neg =>
      apply ram_retracts
      intro p hp
      refine ⟨fun hh => hne ?_, fun hmiss => hn (hi.clears_of_misses hw hp hmiss hq ho hne hm)⟩
      cases hq.symm.trans (hi.last_of_hits hw hp hh)
      cases ho
      rfl
  case refine_3 =>
    rw [ram_abortLocked]
    exact ram_retracts fun p hp => ⟨fun hh => hk p hp hh.1, fun hh => hk p hp hh.1⟩
  case refine_4 =>
    have hs : Step H l .other (l.next s') := .other _ _ (.abort i w hw hc) rfl exact_abortLocked
    have hi' : (l.next s').Inv H := hi.step hs (Event.not_aliases rfl)
    have ⟨hi'', hl⟩ : l'.Inv H ∧ l'.Lost p :=
      hr.invariant (I := fun l => l.Inv H ∧ l.Lost p)
        (fun _ _ _ h hs ho => ⟨h.1.step hs ho, h.2.step h.1 hs ho⟩) ⟨hi', hi.lost hw hp⟩
    exact hl.invalid hi'' hx he

section Sample

variable {Ok : Ledger → Event → Prop}

theorem writers_flush (h : Stripe.Step H s .flush s') : s'.writers = s.writers := by
  cases h
  all_goals rfl

theorem closing_abortLocked : (s.abortLocked i w).closing = s.closing := by
  have h : (w.published.foldl retract s).closing = s.closing := by rw [drops_retracts.rest]
  simp only [abortLocked, disown]
  split
  all_goals exact h

theorem ready_abortLocked {g pos : Nat} (h : s.Ready g pos) : (s.abortLocked i w).Ready g pos := by
  have hring : (s.abortLocked i w).ring = { s.ring with dirs := (s.abortLocked i w).dirs } :=
    shrinks_abortLocked.ring
  constructor
  case closing => rw [closing_abortLocked, h.closing]
  all_goals rw [hring]
  case task => exact h.task
  case idle => exact h.idle
  case storageErr => exact h.storageErr
  case closed => exact h.closed
  case start => exact h.start
  case stop => exact h.stop
  case generation => exact h.generation
  case phase => exact h.phase
  case writePos => exact h.writePos

theorem run_flushes (ho : ∀ l, Ok l .flush) (h : Run (Step H) Ok l₀ l)
    (hs : Run (Stripe.Step H) Event.IsFlush l.stripe s') :
    ∃ l', Run (Step H) Ok l₀ l' ∧ l'.stripe = s' ∧ l'.publications = l.publications ∧
      l'.stripe.writers = l.stripe.writers ∧ ∀ i < l.stripe.writers.length, l'.opened i = l.opened i := by
  induction hs
  case refl => exact ⟨l, h, rfl, rfl, rfl, fun _ _ => rfl⟩
  case step s₁ s₂ e _ hs he hi =>
    have ⟨l₁, hr, hl, hp, hw, hopen⟩ := hi
    have he : e = .flush := he
    subst he hl
    refine ⟨l₁.next s₂, hr.step (.flush s₂ hs) (ho _), rfl, hp, (writers_flush hs).trans hw, fun i hlt => ?_⟩
    rw [← hopen i hlt]
    exact if_pos (hw ▸ hlt)

-- A publication that keeps all other entries.
theorem exact_publish {idx : Nat} {r : Record} {d : Dir} {kept : Bool} :
    Exact s (s.publish H i w idx r d (fun _ => some 0) kept) := by
  intro k hk hn
  rw [dirs_publish] at hn
  unfold Table.set at hn
  split at hn
  case isTrue => cases hn
  case isFalse =>
    have ⟨x, hx⟩ := Option.ne_none_iff_exists'.mp hk
    simp [hx] at hn

def sampleLedger : Ledger := ⟨sampleStripe, [], fun _ => 0⟩

theorem opened_sampleLedger : sampleLedger.Opened sampleHash :=
  ⟨opened_sampleStripe, rfl, rfl, fun _ => rfl⟩

-- The writer that has published its document.
def samplePublisher (version : UInt64) (r : Record) : Writer :=
  { sampleWriter with version, published := [([97], r)] }

-- A writer is opened, some tasks are written, and the writer publishes its document.
theorem exists_entered {version : UInt64} {d : Dir} (ho : ∀ l, Ok l .flush)
    (ho' : ∀ l, Ok l (.openWrite [97] [97]))
    (hok : ∀ l, l.stripe = s → Ok l (.publish [97] (sampleCopy 20512 2 version)))
    (hs : Run (Stripe.Step sampleHash) Event.IsFlush
      (sampleStripe.openWrite { sampleWriter with version }) s)
    (hw : s.writers = [{ sampleWriter with version }])
    (ha : s.Admits sampleHash 0 { sampleWriter with version })
    (hd : s.Places (sampleCopy 20512 2 version) (sectors (sampleCopy 20512 2 version).data.length) d) :
    ∃ l, Run (Step sampleHash) Ok sampleLedger l ∧
      l.stripe = s.publish sampleHash 0 { sampleWriter with version } 0 (sampleCopy 20512 2 version) d
        (fun _ => some 0) true ∧
      l.stripe.writers[0]? = some (samplePublisher version (sampleCopy 20512 2 version)) := by
  let w := { sampleWriter with version }
  have h : Run (Step sampleHash) Ok sampleLedger (sampleLedger.next (sampleStripe.openWrite w)) := by
    have hx : Exact sampleStripe (sampleStripe.openWrite w) := fun _ hk => absurd rfl hk
    exact .single (.other (.openWrite [97] [97]) _ (.openWrite w rfl rfl rfl rfl nofun rfl rfl rfl) rfl hx)
      (ho' _)
  have ⟨l, h, hl, hp, _, hopen⟩ := run_flushes ho h hs
  subst hl
  have hp : l.publications = [] := hp
  have hopen : l.opened 0 = 2 := hopen 0 Nat.one_pos
  have hw₀ : l.stripe.writers[0]? = some w := by rw [hw]; rfl
  have hs : Stripe.Step sampleHash l.stripe (.publish [97] (sampleCopy 20512 2 version))
      (l.stripe.publish sampleHash 0 w 0 (sampleCopy 20512 2 version) d (fun _ => some 0) true) :=
    .publish 0 w 0 _ d _ true hw₀ rfl ha hd (fragment_sampleDocument version) fun _ => nofun
  refine ⟨_, h.step (.publish 0 w 0 _ d _ true hs hw₀ ha hopen.le ?_ exact_publish) (hok l rfl), rfl, ?_⟩
  case refine_1 => simp [Unused, hp]
  case refine_2 =>
    show (l.stripe.writers.set 0 _)[0]? = _
    rw [hw]
    rfl

-- The entry of a document which has just been published is valid, until its writer aborts.
theorem abort_exact_sample : ∃ l x,
    Run (Step sampleHash) (fun l e => ¬e.Aliases l.stripe) sampleLedger l ∧
    l.stripe.writers[0]? = some (samplePublisher 1 (sampleCopy 20512 2 1)) ∧
    l.stripe.dirs [97] = some x ∧ x.mark.1 = sampleCopy 20512 2 1 ∧
    l.stripe.ring.dirValid x.dir = true ∧
    ∀ l', Run (Step sampleHash) (fun l e => ¬e.Aliases l.stripe)
      (l.next (l.stripe.abortLocked 0 (samplePublisher 1 (sampleCopy 20512 2 1)))) l' → ∀ x,
      l'.stripe.dirs [97] = some x → x.mark.1 = sampleCopy 20512 2 1 →
      l'.stripe.ring.dirValid x.dir = false := by
  let Ok : Ledger → Event → Prop := fun l e => ¬e.Aliases l.stripe
  have ⟨hf, hr⟩ := flushes_sampleLog 1
  have ⟨d, hd, hoff, hph⟩ := places_sampleLog 1
  have hok (l : Ledger) (hl : l.stripe = sampleLog 1) : Ok l (.publish [97] (sampleCopy 20512 2 1)) := by
    rintro ⟨_, _, _, hpos, _⟩
    simp [hl, hr.idle] at hpos
  have ⟨l, h, hl, hw⟩ : ∃ l, Run (Step sampleHash) Ok sampleLedger l ∧ _ :=
    exists_entered (fun _ => Event.not_aliases rfl) (fun _ => Event.not_aliases rfl) hok hf rfl
      ⟨rfl, rfl, nofun, rfl, rfl, rfl⟩ hd
  have hr' : l.stripe.Ready 2 20585 := hl ▸ { hr with }
  have hx : Published ((sampleLog 1).publish sampleHash 0 { sampleWriter with version := 1 } 0
      (sampleCopy 20512 2 1) d (fun _ => some 0) true) 1 _ := published_publish rfl hoff hph
  rw [← hl] at hx
  have hn : ¬l.Clears (samplePublisher 1 (sampleCopy 20512 2 1)) := by
    rintro ⟨p, hp, ⟨_, _, hd⟩, _⟩
    cases List.mem_singleton.mp hp
    cases hd.symm.trans hx.entry
  have ⟨_, _, _, _, hlost⟩ := abort_exact opened_sampleLedger h hw rfl hn
  refine ⟨l, _, h, hw, hx.entry, hx.record, ?_, fun l' hl' x => hlost l' hl' ([97], _) (.head _) x⟩
  rw [Ring.dirValid_iff, hr'.idle, hr'.start, hr'.stop, hr'.phase, hr'.writePos, hoff, hph]
  exact ⟨nofun, hr'.storageErr, hr'.closed, by decide, by decide, .inl ⟨rfl, by decide⟩⟩

-- The document is published while the first task of the lap after the next one is being written. Then
-- its writer aborts, but leaves the entry, whose place is not valid any more. The entry becomes valid
-- as soon as the lap has written something else there.
theorem abort_leaves : ∃ l l' x,
    Run (Step sampleHash) (fun _ _ => True) sampleLedger l ∧
    l.stripe.writers[0]? = some (samplePublisher 2 (sampleCopy 20512 2 2)) ∧
    Run (Step sampleHash) (fun _ _ => True)
      (l.next (l.stripe.abortLocked 0 (samplePublisher 2 (sampleCopy 20512 2 2)))) l' ∧
    l'.stripe.dirs [97] = some x ∧ x.mark.1 = sampleCopy 20512 2 2 ∧
    l'.stripe.ring.dirValid x.dir = true ∧ ¬l'.stripe.ring.disk.Holds 20512 (sampleDocument 2) := by
  let Ok : Ledger → Event → Prop := fun _ _ => True
  have ho : ∀ l, Ok l .flush := fun _ => trivial
  have ⟨d, hd, hoff, hph⟩ := places_sampleTurn
  have ⟨l₅, h₅, hl₅, hw₅⟩ : ∃ l, Run (Step sampleHash) Ok sampleLedger l ∧ _ :=
    exists_entered ho (fun _ => trivial) (fun _ _ => trivial) flushes_sampleTurn rfl
      ⟨rfl, rfl, nofun, rfl, rfl, rfl⟩ hd
  -- The task is completed.
  have hf₅ : Stripe.Step sampleHash l₅.stripe .flush _ := .finish (sampleFill 4) (by rw [hl₅]; rfl)
  have ⟨l₆, h₆, hl₆, _, hw₆, _⟩ := run_flushes ho h₅ (.single hf₅ rfl)
  have hr₆ : l₆.stripe.Ready 4 20512 := by
    rw [hl₆]
    exact ready_afterTurn l₅.stripe (by rw [hl₅]; rfl) (by rw [hl₅]; rfl)
  have hx : Published (sampleTurn.publish sampleHash 0 { sampleWriter with version := 2 } 0
      (sampleCopy 20512 2 2) d (fun _ => some 0) true) 2 _ := published_publish rfl hoff hph
  rw [← hl₅] at hx
  have hx₆ := hx.finish (t := sampleFill 4)
  rw [← hl₆] at hx₆
  -- The writer aborts.
  let w := samplePublisher 2 (sampleCopy 20512 2 2)
  have hr₇ : (l₆.stripe.abortLocked 0 w).Ready 4 20512 := ready_abortLocked hr₆
  have hd₇ : (l₆.stripe.abortLocked 0 w).dirs [97] = l₆.stripe.dirs [97] := by
    rw [dirs_abortLocked, dirs_retracts]
    intro p hp hh
    cases List.mem_singleton.mp hp
    have ⟨_, _, _, hg⟩ := Ring.allocationValid_iff.mp hh.2.1
    rw [hr₆.generation] at hg
    have hg : 2 = 4 ∧ _ ∨ 2 + 1 = 4 ∧ _ := hg
    omega
  have hf₇ := hr₇.run (H := sampleHash) (t := sampleAddition 20512 4 1)
    (fits_sampleAddition (by decide) (by decide)) isFlush .refl
  have h₇ : Run (Step sampleHash) Ok (l₆.next (l₆.stripe.abortLocked 0 w))
      (l₆.next (l₆.stripe.abortLocked 0 w)) := .refl
  have ⟨l₈, h₈, hl₈, _⟩ := run_flushes ho h₇ hf₇
  have hr₈ := hr₇.lap (t := sampleAddition 20512 4 1)
  rw [stop_sampleAddition] at hr₈
  have hd₈ : l₈.stripe.dirs [97] = l₆.stripe.dirs [97] := by
    rw [hl₈, dirs_lap_same hr₇.generation.symm, hd₇]
  refine ⟨l₆, l₈, _, h₆, hw₆ ▸ hw₅, h₈, hd₈.trans hx₆.entry, hx₆.record, ?_, ?_⟩
  case refine_1 =>
    rw [hl₈, Ring.dirValid_iff, hr₈.idle, hr₈.start, hr₈.stop, hr₈.phase, hr₈.writePos, hx₆.offset,
      hx₆.phase]
    exact ⟨nofun, hr₈.storageErr, hr₈.closed, by decide, by decide, .inl ⟨by decide, by decide⟩⟩
  case refine_2 =>
    have hdisk : l₈.stripe.ring.disk.Holds 20512 (sampleDocument 1) := by
      rw [hl₈]
      exact holds_lap_sampleAddition
    intro hc
    have h := (formed_fragment (fragment_sampleDocument 2)).unique
      (formed_fragment (fragment_sampleDocument 1)) hc hdisk
    exact absurd (congrArg List.getLast? h) (by decide)

end Sample

end Ledger

end Abort

end Bakemono.Stripe
