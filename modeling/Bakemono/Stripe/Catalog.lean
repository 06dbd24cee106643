import Bakemono.Stripe.Identities
import Bakemono.Stripe.Journal

namespace Bakemono

-- Since the tasks follow each other without gaps, an entry which is not valid stands for a record
-- that has been overwritten.
theorem Ring.Inv.dead_of_dirValid {κ μ : Type} {s : Ring κ μ} {k : κ} {x : Entry (Record × μ)}
    (h : s.Inv)
    (hc : ∀ t, s.task = some t → Continues s.start s.generation s.writePos t.generation t.offset)
    (hn : s.closed = false) (hx : s.dirs k = some x) (hv : s.dirValid x.dir = false) :
    s.Dead x.mark.1 := by
  have ⟨hd, hm, _⟩ := h.entry k x hx
  have ⟨hlo, hhi, hpos, _, hg⟩ := h.placed _ hm
  have hst : x.mark.1.stop = x.mark.1.offset + x.mark.1.data.length := rfl
  by_contra hdead
  have ⟨hok, hl, hapart⟩ : s.storageErr = false ∧ s.Live x.mark.1 := by simpa [Dead] using hdead
  have hvalid : s.dirValid x.dir = true := by
    rw [dirValid_iff, hd.offset, hd.phase, h.phase]
    refine ⟨fun ⟨hw, hp, hlt, _⟩ => ?_, hok, hn, hlo, by omega, ?_⟩
    case refine_1 =>
      -- The task in front of which the record lies begins at the write position or at the start.
      cases ht : s.task
      case none => simp [h.idle ht] at hw
      case some t =>
        have ⟨_, hwe, hwg, hstart, _⟩ := h.busy t ht
        have hne : x.mark.1.generation ≠ t.generation := fun he => hp (by rw [he, hwg])
        have hgap := hapart t ht
        have hcont := hc t ht
        unfold Continues at hcont
        omega
    case refine_2 =>
      cases hl
      case inl hl => exact .inl ⟨by rw [hl], by omega⟩
      case inr hl => exact .inr ⟨by simp [← hl.1, odd_succ], hl.2⟩
  cases hv.symm.trans hvalid

namespace DirTrie

variable {t : DirTrie} {k : Bytes} {keys : List Bytes}

theorem lookup_deletes : (keys.foldl delete t).lookup k = if k ∈ keys then none else t.lookup k := by
  induction keys generalizing t
  case nil => simp
  case cons key keys hi =>
    rw [List.foldl_cons, hi, lookup_delete]
    by_cases hk : k = key
    case pos => simp [hk]
    case neg => simp [hk]

theorem Exact.foldl {α : Type} {f : DirTrie → α → DirTrie} (h : t.Exact)
    (hf : ∀ t a, t.Exact → (f t a).Exact) (l : List α) : (l.foldl f t).Exact := by
  induction l generalizing t
  case nil => exact h
  case cons a l hi => exact hi (hf t a h)

-- The selector of a key can be set again, which changes nothing.
theorem Exact.lookup_again (h : t.Exact) {key selector : Bytes} (hl : t.lookup key = some selector) :
    ∃ t', t.setIdentity key selector = .ok t' ∧ ∀ k, t'.lookup k = t.lookup k := by
  have hm : ⟨key, selector⟩ ∈ t.entries.entries := AList.mem_lookup_iff.mp hl
  have ⟨t', ht'⟩ := setIdentity_self h.toValid hl (h.accepted _ hm)
  refine ⟨t', ht', fun k => ?_⟩
  rw [lookup_setIdentity ht']
  split
  case isTrue hk => rw [hk, hl]
  case isFalse => rfl

end DirTrie

namespace Stripe

variable {H : Hash} {s s' : Stripe} {e : Event} {k key selector : Bytes} {r : Record} {i : Nat} {w : Writer}
  {x : Entry (Record × Mark)} {v : EvacuationRecord}

section Removals

variable {keys : List Bytes}

theorem rest_removeLocked (H : Hash) (s : Stripe) (key : Bytes) :
    (s.removeLocked H key).index = s.index.delete key ∧
    (s.removeLocked H key).fragmentsNum = s.fragmentsNum ∧
    (s.removeLocked H key).closing = s.closing := by
  have hd : Drops { s.detach key with index := s.index.delete key } (s.removeLocked H key) :=
    drops_removeFragments
  rw [hd.rest]
  exact ⟨rfl, rfl, rfl⟩

theorem rest_removals (keys : List Bytes) :
    (keys.foldl (Stripe.removeLocked H) s).index = keys.foldl DirTrie.delete s.index ∧
    (keys.foldl (Stripe.removeLocked H) s).fragmentsNum = s.fragmentsNum ∧
    (keys.foldl (Stripe.removeLocked H) s).closing = s.closing := by
  induction keys generalizing s
  case nil => exact ⟨rfl, rfl, rfl⟩
  case cons key keys hi =>
    have ⟨h₁, h₂, h₃⟩ := rest_removeLocked H s key
    have ⟨h₁', h₂', h₃'⟩ := hi (s := s.removeLocked H key)
    exact ⟨h₁'.trans (by rw [h₁]; rfl), h₂'.trans h₂, h₃'.trans h₃⟩

theorem shrinks_removals (keys : List Bytes) : Shrinks s (keys.foldl (Stripe.removeLocked H) s) :=
  .foldl (fun _ _ => shrinks_removeLocked) keys

theorem entries_removals (keys : List Bytes) : (keys.foldl (Stripe.removeLocked H) s).entries k =
    if k ∈ keys then none else s.entries k := by
  induction keys generalizing s
  case nil => simp
  case cons key keys hi =>
    rw [List.foldl_cons, hi, (writers_removeLocked key).2]
    by_cases hk : k = key
    case pos => simp [detach, hk]
    case neg => simp [detach, hk]

-- The objects that are removed lose their heads.
theorem dirs_removals_of_mem (hn : s.fragmentsNum ≠ 0) (hk : k ∈ keys) :
    (keys.foldl (Stripe.removeLocked H) s).dirs k = none := by
  induction keys generalizing s
  case nil => cases hk
  case cons key keys hi =>
    by_cases hm : k ∈ keys
    case pos => exact hi (by rwa [(rest_removeLocked H s key).2.1]) hm
    case neg =>
      have hk : k = key := (List.mem_cons.mp hk).resolve_right hm
      subst hk
      by_contra hc
      have ⟨x, hx⟩ := Option.ne_none_iff_exists'.mp hc
      have ⟨_, _, hx, _⟩ := (shrinks_removals keys).dirs k x hx
      cases (dirs_removeLocked hn).symm.trans hx

end Removals

section Regular

-- What holds of a stripe in every state, whatever is published.
structure Regular (s : Stripe) : Prop where
  room   : s.fragmentsNum ≠ 0
  exact  : s.index.Exact
  closed : s.ring.closed = true → s.closing = true
  task   : ∀ t, s.ring.task = some t →
    Continues s.ring.start s.ring.generation s.ring.writePos t.generation t.offset

namespace Regular

theorem of_shrinks (h : s.Regular) (hs : Shrinks s s') (hn : s'.fragmentsNum = s.fragmentsNum)
    (hc : s'.closing = s.closing) (hx : s'.index.Exact) : s'.Regular where
  room   := hn ▸ h.room
  exact  := hx
  closed := by rw [hs.ring, hc]; exact h.closed
  task   := by rw [hs.ring]; exact h.task

theorem drops (h : s.Regular) (hd : Drops s s') : s'.Regular :=
  h.of_shrinks hd.shrinks (by rw [hd.rest]) (by rw [hd.rest]) (by rw [hd.rest]; exact h.exact)

theorem removals (h : s.Regular) (keys : List Bytes) : (keys.foldl (Stripe.removeLocked H) s).Regular := by
  have ⟨hi, hn, hc⟩ := rest_removals (H := H) (s := s) keys
  exact h.of_shrinks (shrinks_removals keys) hn hc (hi ▸ h.exact.foldl (fun _ _ h => h.deleteLocked) keys)

theorem abortLocked (h : s.Regular) : (s.abortLocked i w).Regular := by
  have hd : Drops s (w.published.foldl retract s) := drops_retracts
  have hrest : (s.abortLocked i w).fragmentsNum = s.fragmentsNum ∧
      (s.abortLocked i w).closing = s.closing ∧ (s.abortLocked i w).index.Exact := by
    simp only [Stripe.abortLocked, disown]
    split
    all_goals rw [hd.rest]
    case isTrue => exact ⟨rfl, rfl, h.exact.deleteLocked⟩
    case isFalse => exact ⟨rfl, rfl, h.exact⟩
  exact h.of_shrinks shrinks_abortLocked hrest.1 hrest.2.1 hrest.2.2

theorem reserveIdentityLocked (h : s.index.Exact) : (s.reserveIdentityLocked key selector).2.Exact := by
  have hp : s.prune.Exact := by
    refine h.foldl (fun t k ht => ?_) _
    split
    case isTrue => exact ht.deleteLocked
    case isFalse => exact ht
  unfold Stripe.reserveIdentityLocked
  split
  case h_1 hs => exact h.setIdentity hs
  case h_2 =>
    split
    case isFalse => exact h
    case isTrue =>
      split
      case h_1 hs => exact hp.setIdentity hs
      case h_2 => exact hp

theorem openWrite (h : s.Regular) : (s.openWrite w).Regular := by
  have hx : (s.reserveIdentityLocked w.key w.selector).2.Exact := reserveIdentityLocked h.exact
  have hrest : (s.openWrite w).closing = s.closing ∧ (s.openWrite w).index.Exact := by
    unfold Stripe.openWrite
    split
    all_goals
      rename_i hr
      rw [hr] at hx
      exact ⟨rfl, hx⟩
  exact h.of_shrinks shrinks_openWrite fragmentsNum_openWrite hrest.1 hrest.2

theorem publish {idx : Nat} {d : Dir} {fate : Table.Fate Bytes} {kept : Bool} (h : s.Regular) :
    (s.publish H i w idx r d fate kept).Regular := by
  refine ⟨h.room, ?_, h.closed, h.task⟩
  simp only [Stripe.publish]
  split
  case isFalse => exact h.exact
  case isTrue =>
    cases hs : s.index.setIdentity w.key w.selector
    case error => exact h.exact
    case ok => exact h.exact.setIdentity hs

theorem step (h : s.Regular) (hs : Step H s e s') : s'.Regular := by
  cases hs
  case begin t _ _ _ _ _ _ _ hc _ => exact ⟨h.room, h.exact, h.closed, fun _ ht => Option.some_inj.mp ht ▸ hc⟩
  case refuse => exact ⟨h.room, h.exact, h.closed, nofun⟩
  case finish => exact ⟨h.room, h.exact, h.closed, nofun⟩
  case fail => exact ⟨h.room, h.exact, h.closed, nofun⟩
  case publish => exact h.publish
  case abort => exact h.abortLocked
  case openWrite => exact h.openWrite
  case remove key _ =>
    have h' : Regular { s.advance with removals := s.removals + 1 } := { h with }
    exact h'.removals [key]
  case purge selector asPrefix _ =>
    have h' : Regular { s.advance with removals := s.removals + 1 } := { h with }
    exact h'.removals _
  case removeLocked key _ => exact h.removals [key]
  case closing => exact ⟨h.room, h.exact, fun _ => rfl, h.task⟩
  case disk hc => exact ⟨h.room, h.exact, fun _ => hc, h.task⟩
  case drop hd => exact h.drops hd
  all_goals exact ⟨h.room, h.exact, h.closed, h.task⟩

end Regular

end Regular

section Pending

-- The copy may still be published in place of the entry.
structure Awaits (s : Stripe) (v : EvacuationRecord) (x : Entry (Record × Mark)) : Prop where
  invalidation : v.invalidation = s.generation
  offset       : x.dir.offset = v.old.offset
  phase        : x.dir.phase = v.old.phase
  generation   : s.ring.generation ≤ v.generation + 1

def Pending (s : Stripe) (k : Bytes) (x : Entry (Record × Mark)) : Prop :=
  ∃ v ∈ s.evacuations, v.key = k ∧ s.Awaits v x

-- The entry cannot be read any more, and no copy will take its place.
structure Forsaken (s : Stripe) (k : Bytes) (x : Entry (Record × Mark)) : Prop where
  dead    : s.ring.Dead x.mark.1
  pending : ¬s.Pending k x

theorem Forsaken.step {next : BitVec 16} (h : s.Forsaken k x) (ht : s.Traced H) (hs : Step H s e s')
    (hx : s.dirs k = some x) : s'.Forsaken k (x.relink next) := by
  refine ⟨hs.dead ht (ht.ring.entry k x hx).2.1 h.dead, fun ⟨v, hv, hk, ha⟩ => ?_⟩
  cases hs.effect.copies hv
  case inl hv =>
    have ⟨r, ho⟩ := ht.copies v hv
    have hi : v.invalidation = s.generation := by
      have := ho.invalidation
      have := ho.removals
      have := hs.counts.generation
      have := ha.invalidation
      omega
    have hg := (hs.layout ht.ring.toLayout).2.trans ha.generation
    exact h.pending ⟨v, hv, hk, hi, ha.offset, ha.phase, hg⟩
  case inr hc =>
    have ⟨x', hc⟩ := hc
    cases (hk ▸ hc.entry).symm.trans hx
    exact ht.not_dead hx hc.valid h.dead

end Pending

section Cases

-- A critical section that opens, closes and publishes nothing keeps the identity of a key, or removes
-- its object.
theorem other_cases (hs : Stripe.Step H s e s') (hp : e.publication = none)
    (ho : ∀ key selector, e ≠ .openWrite key selector) (hw : s'.writers = s.writers)
    (hn : s.fragmentsNum ≠ 0) (k : Bytes) :
    (s'.index.lookup k = s.index.lookup k ∧ (s'.entries k = s.entries k ∨ s'.entries k = none)) ∨
    (s'.entries k = none ∧ s'.dirs k = none) := by
  -- The objects of some keys are removed, perhaps after the generation has been advanced.
  have removals {s₁ : Stripe} (keys : List Bytes) (hi : s₁.index = s.index) (he : s₁.entries = s.entries)
      (hn : s₁.fragmentsNum ≠ 0) :
      let s' := keys.foldl (Stripe.removeLocked H) s₁
      (s'.index.lookup k = s.index.lookup k ∧ (s'.entries k = s.entries k ∨ s'.entries k = none)) ∨
      (s'.entries k = none ∧ s'.dirs k = none) := by
    dsimp only
    rw [(rest_removals keys).1, DirTrie.lookup_deletes, entries_removals, hi, he]
    by_cases hk : k ∈ keys
    case pos => exact .inr ⟨if_pos hk, dirs_removals_of_mem hn hk⟩
    case neg => exact .inl ⟨if_neg hk, .inl (if_neg hk)⟩
  -- Somebody who closes a writer changes it.
  have changes {i : Nat} {w w' : Writer} (hi : s.writers[i]? = some w) (hc : w.closed = false)
      (hc' : w'.closed = true) (hset : s.writers.set i w' = s.writers) : False := by
    have h := List.getElem?_set_self (a := w') (List.getElem?_eq_some_iff.mp hi).1
    rw [hset, hi] at h
    cases h
    cases hc.symm.trans hc'
  cases hs
  case publish => cases hp
  case refresh => cases hp
  case evacuate => cases hp
  case openWrite => exact absurd rfl (ho _ _)
  case abort i w hi hc => exact (changes hi hc rfl (writers_abortLocked.1.symm.trans hw)).elim
  case close i w hi hc => exact (changes hi hc rfl hw).elim
  case release w _ _ _ =>
    refine .inl ⟨rfl, ?_⟩
    by_cases hk : k = w.key
    case pos => exact .inr (by simp [detach, hk])
    case neg => exact .inl (by simp [detach, hk])
  case remove key _ => exact removals [key] rfl rfl hn
  case purge => exact removals _ rfl rfl hn
  case removeLocked key _ => exact removals [key] rfl rfl hn
  case abortOpenWriters => exact .inl ⟨rfl, .inr rfl⟩
  case drop hd => exact .inl ⟨by rw [hd.rest], .inl (by rw [hd.rest])⟩
  all_goals exact .inl ⟨rfl, .inl rfl⟩

-- The entry of a key is replaced by that of a copy, which has been made of it.
inductive Moved (s : Stripe) (k : Bytes) (x : Entry (Record × Mark)) (m : Mark) : Prop
  | refreshed :
    (x.mark.2.head = true) → (s.index.lookup k ≠ none) → (s.entries k = none) →
    (m = { x.mark.2 with stamp := s.clock }) → Moved s k x m
  | evacuated (v : EvacuationRecord) :
    (v ∈ s.evacuations) → (v.key = k) → (s.Awaits v x) → (m = v.mark) → Moved s k x m

theorem copy_cases (hs : Stripe.Step H s e s') (hp : e.publication = some (k, r))
    (hw : s'.writers = s.writers) :
    s'.index = s.index ∧ s'.entries = s.entries ∧ ∃ x d m fate,
      s.dirs k = some x ∧ s'.dirs = s.dirs.set k ⟨d, r, m⟩ fate ∧ Moved s k x m := by
  cases hs
  case publish i w idx r d fate kept hi _ _ _ _ _ =>
    have h := List.getElem?_set_self
      (a := { w with published := w.published ++ [(H.fragmentKey w.key idx, r)] })
      (List.getElem?_eq_some_iff.mp hi).1
    have hw : s.writers.set i { w with published := w.published ++ [(H.fragmentKey w.key idx, r)] } =
      s.writers := hw
    rw [hw, hi] at h
    have := congrArg (fun w => (w.map (·.published.length)).getD 0) h
    simp at this
  case refresh key x version r d fate kept _ hx hh hl he _ _ =>
    cases hp
    exact ⟨rfl, rfl, x, d, _, fate, hx, rfl, .refreshed hh hl he rfl⟩
  case evacuate v x r d fate kept hv _ _ hi hx ho hph hg _ _ =>
    cases hp
    exact ⟨rfl, rfl, x, d, _, fate, hx, rfl, .evacuated v hv rfl ⟨hi, ho, hph, hg⟩ rfl⟩
  all_goals cases hp

-- Nothing is pruned while the index has room.
theorem lookup_of_room (hf : s.index.setIdentity key selector ≠ .error .indexFull)
    (hk : k ≠ key ∨ (s.reserveIdentityLocked key selector).1 ≠ none) :
    (s.reserveIdentityLocked key selector).2.lookup k = s.index.lookup k := by
  unfold reserveIdentityLocked at hk ⊢
  cases hs : s.index.setIdentity key selector
  case ok index =>
    have hk : k ≠ key := by simpa [hs] using hk
    exact (DirTrie.lookup_setIdentity hs).trans (if_neg hk)
  case error e =>
    have he : e ≠ .indexFull := fun he => hf (he ▸ hs)
    simp only [he, if_false]

theorem lookup_reserved (h : (s.reserveIdentityLocked key selector).1 = none) :
    (s.reserveIdentityLocked key selector).2.lookup key = some selector := by
  unfold reserveIdentityLocked at h ⊢
  split
  case h_1 hs => exact (DirTrie.lookup_setIdentity hs).trans (if_pos rfl)
  case h_2 e hs =>
    rw [hs] at h
    dsimp only at h
    split at h
    case isFalse => cases h
    case isTrue he =>
      rw [if_pos he]
      split
      case h_1 hp => exact (DirTrie.lookup_setIdentity hp).trans (if_pos rfl)
      case h_2 hp =>
        rw [hp] at h
        cases h

-- A writer that is opened leaves a key alone, finds the index full and drops its identity, or takes it.
theorem openWrite_cases (w : Writer) (k : Bytes) :
    ((s.openWrite w).index.lookup k = s.index.lookup k ∧ (s.openWrite w).entries k = s.entries k) ∨
    ((s.openWrite w).index.lookup k = none ∧ (s.openWrite w).entries k = none ∧ s.entries k = none ∧
      s.lost k = true ∧ s.index.setIdentity w.key w.selector = .error .indexFull) ∨
    (k = w.key ∧ (s.openWrite w).index.lookup k = some w.selector ∧ (s.openWrite w).dirs k = none ∧
      (s.openWrite w).entries k = some s.writers.length ∧
      (s.openWrite w).writers[s.writers.length]? = some w) := by
  have hi : (s.openWrite w).index = (s.reserveIdentityLocked w.key w.selector).2 := by
    unfold Stripe.openWrite
    split
    case h_1 hr => rw [hr]
    case h_2 hr =>
      rw [hr]
      rfl
  by_cases ht : k = w.key ∧ (s.reserveIdentityLocked w.key w.selector).1 = none
  case pos =>
    obtain ⟨rfl, hr⟩ := ht
    have ⟨h₁, h₂, h₃⟩ := openWrite_spec hr
    exact .inr (.inr ⟨rfl, hi ▸ lookup_reserved hr, h₁, h₂, h₃⟩)
  case neg =>
    have hk : k ≠ w.key ∨ (s.reserveIdentityLocked w.key w.selector).1 ≠ none := not_and_or.mp ht
    have he : (s.openWrite w).entries k = s.entries k := by
      unfold Stripe.openWrite
      split
      case h_1 => rfl
      case h_2 hr => exact Function.update_of_ne (hk.resolve_right fun hc => hc (by rw [hr])) ..
    by_cases hf : s.index.setIdentity w.key w.selector = .error .indexFull
    case neg => exact .inl ⟨hi ▸ lookup_of_room hf hk, he⟩
    case pos =>
      cases lookup_reserveIdentityLocked (s := s) w.key w.selector hk
      case inl hl => exact .inl ⟨hi ▸ hl, he⟩
      case inr hl => exact .inr (.inl ⟨hi ▸ hl.1, he.trans hl.2.1, hl.2.1, hl.2.2, hf⟩)

theorem writers_openWrite {j : Nat} {w' : Writer} (h : s.writers[j]? = some w') :
    (s.openWrite w).writers[j]? = some w' := by
  unfold Stripe.openWrite
  split
  case h_1 => exact h
  case h_2 => exact (List.getElem?_append_left (List.getElem?_eq_some_iff.mp h).1).trans h

end Cases

-- A journal, and the writers whose heads have been published. Such a writer is closed before anybody
-- else can abort it, since `Close` holds its lock.
structure Catalog extends Journal where
  committed : Nat → Bool

namespace Catalog

variable {c c' c₀ c₁ c₂ : Catalog}

-- The critical sections of a stripe.
inductive Step (H : Hash) (c : Catalog) : Event → Catalog → Prop
  | publish (i : Nat) (w : Writer) (idx : Nat) (r : Record) (d : Dir) (fate : Table.Fate Bytes)
      (kept : Bool) :
    (Stripe.Step H c.stripe (.publish (H.fragmentKey w.key idx) r)
      (c.stripe.publish H i w idx r d fate kept)) →
    (c.stripe.writers[i]? = some w) → (w.closed = false) → (c.stripe.Admits H i w) →
    (c.committed i = false) → (r ∉ c.used) →
    Step H c (.publish (H.fragmentKey w.key idx) r)
      { stripe    := c.stripe.publish H i w idx r d fate kept
        used      := r :: c.used
        committed :=
          if idx = 0 ∧ (c.stripe.index.setIdentity w.key w.selector).isOk then
            Function.update c.committed i true
          else c.committed }
  -- `UpdateHTTPInfo` and `evacuate`.
  | copy (e : Event) (k : Bytes) (r : Record) (s' : Stripe) :
    (Stripe.Step H c.stripe e s') → (e.publication = some (k, r)) → (s'.writers = c.stripe.writers) →
    (r ∉ c.used) → Step H c e { c with stripe := s', used := r :: c.used }
  | abort (i : Nat) (w : Writer) :
    (c.stripe.writers[i]? = some w) → (w.closed = false) → (c.committed i = false) →
    Step H c .other { c with stripe := c.stripe.abortLocked i w }
  | close (i : Nat) (w : Writer) :
    (c.stripe.writers[i]? = some w) → (w.closed = false) →
    Step H c .other
      { c with stripe := { c.stripe with writers := c.stripe.writers.set i { w with closed := true } } }
  | openWrite (w : Writer) :
    (Stripe.Step H c.stripe (.openWrite w.key w.selector) (c.stripe.openWrite w)) →
    (c.stripe.closing = false) → (c.stripe.entries w.key = none) →
    Step H c (.openWrite w.key w.selector) { c with stripe := c.stripe.openWrite w }
  | other (e : Event) (s' : Stripe) :
    (Stripe.Step H c.stripe e s') → (e.publication = none) →
    (∀ key selector, e ≠ .openWrite key selector) → (s'.writers = c.stripe.writers) →
    Step H c e { c with stripe := s' }

theorem Step.journal (h : Step H c e c') : Journal.Step H c.toJournal e c'.toJournal := by
  cases h
  case publish hs _ _ _ _ hr => exact .publish _ _ _ _ hs rfl hr
  case copy hw hr hs hp => exact .publish _ _ _ _ hs hp hr
  case abort i w hw hc _ => exact .other _ _ (.abort i w hw hc) rfl
  case close i w hw hc => exact .other _ _ (.close i w hw hc) rfl
  case openWrite hs _ _ => exact .other _ _ hs rfl
  case other hs hp _ => exact .other _ _ hs hp

-- Nothing is published for the lap which is being started, and a writer that finds the index full
-- does not drop the identity of an object which is waiting to be evacuated.
structure Allowed (c : Catalog) (e : Event) : Prop where
  aliases : ¬e.Aliases c.stripe
  pending : ∀ key selector, e = .openWrite key selector →
    c.stripe.index.setIdentity key selector = .error .indexFull →
    ∀ k x, c.stripe.index.lookup k ≠ none → c.stripe.entries k = none → c.stripe.dirs k = some x →
      c.stripe.ring.dirValid x.dir = false → ¬c.stripe.Pending k x

-- The heads are listed with the selectors they were written with.
structure Inv (H : Hash) (c : Catalog) : Prop where
  traced   : c.stripe.Traced H
  regular  : c.stripe.Regular
  used     : ∀ k x, c.stripe.dirs k = some x → x.mark.1 ∈ c.used
  copies   : ∀ v ∈ c.stripe.evacuations, ∃ r ∈ c.used, c.stripe.Owns v r ∧
    ∀ x, c.stripe.dirs v.key = some x → x.mark.1 = r → x.mark.2 = v.mark
  attached : ∀ k i, c.stripe.entries k = some i → ∃ w, c.stripe.writers[i]? = some w ∧ w.key = k ∧
    (w.closed = false → c.stripe.index.lookup k = some w.selector)
  fresh    : ∀ k i, c.stripe.entries k = some i → c.committed i = false →
    ∀ x, c.stripe.dirs k = some x → x.mark.2.head = false
  listed   : ∀ k x, c.stripe.dirs k = some x → x.mark.2.head = true →
    c.stripe.index.lookup k = some x.mark.2.selector ∨
    c.stripe.index.lookup k = none ∧ c.stripe.Forsaken k x

section Inv

variable {x' : Entry (Record × Mark)}

theorem Step.stripe (h : Step H c e c') : Stripe.Step H c.stripe e c'.stripe := h.journal.stripe

theorem Step.committed (h : Step H c e c') (hi : c.committed i = true) : c'.committed i = true := by
  cases h
  case publish =>
    dsimp only
    split
    case isTrue =>
      rw [Function.update_apply]
      split
      case isTrue => rfl
      case isFalse => exact hi
    case isFalse => exact hi
  all_goals exact hi

-- The writer that publishes a head has reserved its identity, which it sets again.
theorem Inv.lookup_publish {w : Writer} (h : c.Inv H) (hw : c.stripe.writers[i]? = some w)
    (hc : w.closed = false) (ha : c.stripe.Admits H i w) :
    c.stripe.index.lookup w.key = some w.selector ∧
    ∃ t, c.stripe.index.setIdentity w.key w.selector = .ok t ∧
      ∀ k, t.lookup k = c.stripe.index.lookup k := by
  obtain ⟨w', hw', _, hl⟩ := h.attached w.key i ha.entry
  cases hw.symm.trans hw'
  exact ⟨hl hc, h.regular.exact.lookup_again (hl hc)⟩

-- Where the heads come from.
inductive Head (H : Hash) (c c' : Catalog) (k : Bytes) (x' : Entry (Record × Mark)) : Prop
  | kept (x : Entry (Record × Mark)) (next : BitVec 16) :
    (c.stripe.dirs k = some x) → (x' = x.relink next) → Head H c c' k x'
  | written (i : Nat) (w : Writer) :
    (c.stripe.index.lookup k = some w.selector) → (c.stripe.entries k = some i) →
    (w.generation = c.stripe.generation) → (x'.mark.2.selector = w.selector) →
    (x'.mark.2.generation = w.generation) → (c'.committed i = true) →
    (∀ k, c'.stripe.index.lookup k = c.stripe.index.lookup k) →
    (c'.stripe.entries = c.stripe.entries) → Head H c c' k x'
  | moved (x : Entry (Record × Mark)) :
    (c.stripe.dirs k = some x) → (x.mark.2.head = true) →
    (x'.mark.2.selector = x.mark.2.selector) → (x'.mark.2.generation = x.mark.2.generation) →
    (c.stripe.index.lookup k ≠ none ∨ c.stripe.Pending k x) →
    (c'.stripe.index = c.stripe.index) → (c'.stripe.entries = c.stripe.entries) →
    (c'.committed = c.committed) → Head H c c' k x'

theorem Inv.head_cases (h : c.Inv H) (hs : Step H c e c') (hx : c'.stripe.dirs k = some x')
    (hh : x'.mark.2.head = true) : Head H c c' k x' := by
  -- If nothing is published then the entry is an old one.
  have old (hp : e.publication = none) : Head H c c' k x' := by
    obtain ⟨x, next, hx, he⟩ := (Ledger.below_effect hs.stripe.effect hp).1 k x' hx
    exact .kept x next hx he
  cases hs
  case publish i w idx r d fate kept _ hw hc ha _ _ =>
    cases Table.of_set (show c.stripe.dirs.set _ ⟨d, r, c.stripe.markOf w idx⟩ fate k = some x' from hx)
    case inr hold =>
      obtain ⟨_, x, next, hx, he⟩ := hold
      exact .kept x next hx he
    case inl hnew =>
      obtain ⟨rfl, rfl⟩ := hnew
      have hi : idx = 0 := of_decide_eq_true hh
      subst hi
      obtain ⟨hl, t, ht, hlt⟩ := h.lookup_publish hw hc ha
      refine .written i w hl ha.entry ha.generation rfl rfl ?_ ?_ rfl
      case refine_1 => simp [ht, Except.isOk, Except.toBool]
      case refine_2 => simpa [Stripe.publish, ht, Except.toOption] using hlt
  case copy k₁ r hw _ hs hp =>
    obtain ⟨hi, he, x, d, m, fate, hx₀, hd, hm⟩ := copy_cases hs hp hw
    cases Table.of_set (hd ▸ hx)
    case inr hold =>
      obtain ⟨_, x, next, hx, he⟩ := hold
      exact .kept x next hx he
    case inl hnew =>
      obtain ⟨rfl, rfl⟩ := hnew
      cases hm
      case refreshed hhead hl _ hm =>
        subst hm
        exact .moved x hx₀ hhead rfl rfl (.inl hl) hi he rfl
      case evacuated v hv hk ha hm =>
        subst hm hk
        obtain ⟨r, _, ho, hmark⟩ := h.copies v hv
        have hm : x.mark.2 = v.mark :=
          hmark x hx₀ (h.traced.record_eq ho hx₀ ha.offset ha.phase ha.generation)
        exact .moved x hx₀ (hm ▸ hh) (by rw [hm]) (by rw [hm]) (.inr ⟨v, hv, rfl, ha⟩) hi he rfl
  case abort => exact old rfl
  case close => exact old rfl
  case openWrite => exact old rfl
  case other hp _ => exact old hp

-- The identity of a key is kept, its head is removed, or no head is left that could be read again.
theorem Inv.index_cases (h : c.Inv H) (hs : Step H c e c') (ha : c.Allowed e) (k : Bytes) :
    c'.stripe.index.lookup k = c.stripe.index.lookup k ∨ c'.stripe.dirs k = none ∨
    c'.stripe.index.lookup k = none ∧
      ∀ x, c.stripe.dirs k = some x → x.mark.2.head = true → c.stripe.Forsaken k x := by
  cases hs
  case publish i w idx r d fate kept hs hw hc hadm _ _ =>
    obtain ⟨_, t, ht, hl⟩ := h.lookup_publish hw hc hadm
    refine .inl ?_
    simp only [Stripe.publish, ht, Except.toOption, Option.getD_some]
    split
    case isTrue => exact hl k
    case isFalse => rfl
  case copy k₁ r hw _ hs hp => exact .inl (by rw [(copy_cases hs hp hw).1])
  case abort i w hw hc hcom =>
    by_cases hk : k ≠ w.key ∨ c.stripe.entries w.key ≠ some i
    case pos => exact .inl (lookup_abortLocked hk)
    case neg =>
      -- The writer has not published its head yet.
      push Not at hk
      obtain ⟨rfl, he⟩ := hk
      refine .inr (.inr ⟨?_, fun x hx hh => ?_⟩)
      case refine_1 =>
        have hd : Drops c.stripe (w.published.foldl retract c.stripe) := drops_retracts
        have he : (w.published.foldl retract c.stripe).entries w.key = some i := by rw [hd.rest]; exact he
        simp [Stripe.abortLocked, disown, he]
      case refine_2 => cases hh.symm.trans (h.fresh w.key i he hcom x hx)
  case close => exact .inl rfl
  case openWrite w hs hcl _ =>
    rcases openWrite_cases (s := c.stripe) w k with hsame | hpruned | htaken
    case inl => exact .inl hsame.1
    case inr.inr => exact .inr (.inl htaken.2.2.1)
    case inr.inl =>
      obtain ⟨hl, _, he, hlost, hfull⟩ := hpruned
      by_cases hn : c.stripe.index.lookup k = none
      case pos => exact .inl (hl.trans hn.symm)
      case neg =>
        refine .inr (.inr ⟨hl, fun x hx _ => ?_⟩)
        have hv : c.stripe.ring.dirValid x.dir = false := by simpa [lost, hx] using hlost
        have hcl : c.stripe.ring.closed = false := by
          by_contra hc
          cases hcl.symm.trans (h.regular.closed (by simpa using hc))
        exact ⟨h.traced.ring.dead_of_dirValid h.regular.task hcl hx hv,
          ha.pending _ _ rfl hfull k x hn he hx hv⟩
  case other hw hs hp ho =>
    cases other_cases hs hp ho hw h.regular.room k
    case inl hk => exact .inl hk.1
    case inr hk => exact .inr (.inl hk.2)

theorem Inv.listed_step (h : c.Inv H) (hs : Step H c e c') (ha : c.Allowed e)
    (hx : c'.stripe.dirs k = some x') (hh : x'.mark.2.head = true) :
    c'.stripe.index.lookup k = some x'.mark.2.selector ∨
    c'.stripe.index.lookup k = none ∧ c'.stripe.Forsaken k x' := by
  cases h.head_cases hs hx hh
  case kept x next hx₀ he =>
    subst he
    have forsaken (hf : c.stripe.Forsaken k x) : c'.stripe.Forsaken k (x.relink next) :=
      hf.step h.traced hs.stripe hx₀
    rcases h.index_cases hs ha k with hl | hn | ⟨hl, hf⟩
    case inl =>
      rw [hl]
      exact (h.listed k x hx₀ hh).imp_right fun hn => ⟨hn.1, forsaken hn.2⟩
    case inr.inl => cases hn.symm.trans hx
    case inr.inr => exact .inr ⟨hl, forsaken (hf x hx₀ hh)⟩
  case written i w hl _ _ hm _ _ hi _ =>
    rw [hi, hm]
    exact .inl hl
  case moved x hx₀ hh₀ hm _ hor hi _ _ =>
    rw [hi, hm]
    refine .inl ((h.listed k x hx₀ hh₀).resolve_right fun hn => ?_)
    exact hor.elim (fun hl => hl hn.1) hn.2.pending

theorem Inv.used_step (h : c.Inv H) (hs : Step H c e c') (hx : c'.stripe.dirs k = some x') :
    x'.mark.1 ∈ c'.used := by
  cases hs.stripe.entry_cases hx
  case inl hold =>
    obtain ⟨x, next, hx₀, rfl⟩ := hold
    exact hs.journal.used_subset (h.used k x hx₀)
  case inr hnew =>
    obtain ⟨_, hp, _⟩ := hnew
    exact (hs.journal.used_of_publication hp).2

-- An entry of the record that a copy was made of is not published again.
theorem Inv.copies_step {v : EvacuationRecord} (h : c.Inv H) (hs : Step H c e c') (ha : ¬e.Aliases c.stripe)
    (hv : v ∈ c'.stripe.evacuations) : ∃ r ∈ c'.used, c'.stripe.Owns v r ∧
      ∀ x, c'.stripe.dirs v.key = some x → x.mark.1 = r → x.mark.2 = v.mark := by
  obtain ⟨_, _, hf⟩ := h.traced.ring_effect hs.stripe.effect ha
  obtain ⟨r, hr, ho, hm⟩ : ∃ r ∈ c.used, c.stripe.Owns v r ∧
      ∀ x, c.stripe.dirs v.key = some x → x.mark.1 = r → x.mark.2 = v.mark := by
    cases hs.stripe.effect.copies hv
    case inl hv => exact h.copies v hv
    case inr hc =>
      obtain ⟨x, hc⟩ := hc
      refine ⟨x.mark.1, h.used _ x hc.entry, h.traced.owns_of_copied hc, fun x' hx' _ => ?_⟩
      cases hc.entry.symm.trans hx'
      exact hc.mark.symm
  refine ⟨r, hs.journal.used_subset hr, ho.mono hs.stripe.counts hf, fun x' hx' he => ?_⟩
  cases hs.stripe.entry_cases hx'
  case inl hold =>
    obtain ⟨x, next, hx, rfl⟩ := hold
    exact hm x hx he
  case inr hnew =>
    obtain ⟨_, hp, _⟩ := hnew
    exact absurd (he ▸ hr) (hs.journal.used_of_publication hp).1

-- An open writer whose entry is in the open directory has its identity in the index.
theorem Inv.attached_step (h : c.Inv H) (hs : Step H c e c') (hi : c'.stripe.entries k = some i) :
    ∃ w, c'.stripe.writers[i]? = some w ∧ w.key = k ∧
      (w.closed = false → c'.stripe.index.lookup k = some w.selector) := by
  -- A writer is replaced by another one of its key and its selector.
  have set {j : Nat} {w₀ w₁ : Writer} (hj : c.stripe.writers[j]? = some w₀)
      (hw : c'.stripe.writers = c.stripe.writers.set j w₁) (hk : w₁.key = w₀.key)
      (hsel : w₁.selector = w₀.selector) (hcl : w₁.closed = false → w₀.closed = false)
      (he : c'.stripe.entries = c.stripe.entries)
      (hl : i ≠ j ∨ w₁.closed = false → c'.stripe.index.lookup k = c.stripe.index.lookup k) :
      ∃ w, c'.stripe.writers[i]? = some w ∧ w.key = k ∧
        (w.closed = false → c'.stripe.index.lookup k = some w.selector) := by
    obtain ⟨w, hw₀, hkey, hlook⟩ := h.attached k i (he ▸ hi)
    by_cases hij : i = j
    case pos =>
      subst hij
      cases hj.symm.trans hw₀
      refine ⟨w₁, ?_, hk.trans hkey, fun hc => ?_⟩
      case refine_1 => rw [hw, List.getElem?_set_self (List.getElem?_eq_some_iff.mp hj).1]
      case refine_2 => rw [hl (.inr hc), hsel, hlook (hcl hc)]
    case neg =>
      refine ⟨w, ?_, hkey, fun hc => ?_⟩
      case refine_1 => rw [hw, List.getElem?_set_ne (Ne.symm hij), hw₀]
      case refine_2 => rw [hl (.inl hij), hlook hc]
  cases hs
  case publish j w idx r d fate kept _ hw hc hadm _ _ =>
    refine set hw rfl rfl rfl id rfl fun _ => ?_
    obtain ⟨_, t, ht, hl⟩ := h.lookup_publish hw hc hadm
    simp only [Stripe.publish, ht, Except.toOption, Option.getD_some]
    split
    case isTrue => exact hl k
    case isFalse => rfl
  case copy k₁ r hw _ hs hp =>
    obtain ⟨hindex, hentries, _⟩ := copy_cases hs hp hw
    dsimp only at hi ⊢
    rw [hw, hindex]
    exact h.attached k i (hentries ▸ hi)
  case abort j w hw hc _ =>
    obtain ⟨hws, hes⟩ := writers_abortLocked (s := c.stripe) (i := j) (w := w)
    refine set hw hws rfl rfl (fun hc => by cases hc) hes fun hij => lookup_abortLocked ?_
    -- The entry of another key belongs to another writer.
    by_contra hk
    push Not at hk
    obtain ⟨rfl, he⟩ := hk
    have hi : c.stripe.entries w.key = some i := hes ▸ hi
    exact hij.elim (fun hne => hne (Option.some.inj (hi.symm.trans he))) fun hc => by cases hc
  case close j w hw hc => exact set hw rfl rfl rfl (fun hc => by cases hc) rfl fun _ => rfl
  case openWrite w hs _ _ =>
    rcases openWrite_cases (s := c.stripe) w k with hsame | hpruned | htaken
    case inl =>
      obtain ⟨w', hw', hk, hl⟩ := h.attached k i (hsame.2 ▸ hi)
      exact ⟨w', writers_openWrite hw', hk, fun hc => hsame.1.trans (hl hc)⟩
    case inr.inl => cases hpruned.2.1.symm.trans hi
    case inr.inr =>
      obtain ⟨rfl, hl, _, he, hw'⟩ := htaken
      cases he.symm.trans hi
      exact ⟨w, hw', rfl, fun _ => hl⟩
  case other hw hs hp ho =>
    dsimp only at hi ⊢
    rw [hw]
    cases other_cases hs hp ho hw h.regular.room k
    case inl hk =>
      rw [hk.1]
      exact h.attached k i (hk.2.elim (· ▸ hi) fun hn => by cases hn.symm.trans hi)
    case inr hk => cases hk.1.symm.trans hi

-- The entry of an open directory is an old one, or the head has just been removed.
theorem Inv.entries_cases (h : c.Inv H) (hs : Step H c e c') (hi : c'.stripe.entries k = some i) :
    c.stripe.entries k = some i ∨ c'.stripe.dirs k = none := by
  cases hs
  case publish => exact .inl hi
  case copy k₁ r hw _ hs hp => exact .inl ((copy_cases hs hp hw).2.1 ▸ hi)
  case abort => exact .inl (writers_abortLocked.2 ▸ hi)
  case close => exact .inl hi
  case openWrite w hs _ _ =>
    rcases openWrite_cases (s := c.stripe) w k with hsame | hpruned | htaken
    case inl => exact .inl (hsame.2 ▸ hi)
    case inr.inl => cases hpruned.2.1.symm.trans hi
    case inr.inr => exact .inr htaken.2.2.1
  case other hw hs hp ho =>
    cases other_cases hs hp ho hw h.regular.room k
    case inl hk => exact .inl (hk.2.elim (· ▸ hi) fun hn => nomatch hn.symm.trans hi)
    case inr hk => exact .inr hk.2

theorem Inv.fresh_step (h : c.Inv H) (hs : Step H c e c') (hi : c'.stripe.entries k = some i)
    (hc : c'.committed i = false) (hx : c'.stripe.dirs k = some x') : x'.mark.2.head = false := by
  by_contra hh
  have hh : x'.mark.2.head = true := by simpa using hh
  have hc₀ : c.committed i = false := by
    by_contra hn
    cases hc.symm.trans (hs.committed (by simpa using hn))
  have hi₀ : c.stripe.entries k = some i := (h.entries_cases hs hi).resolve_right (by simp [hx])
  cases h.head_cases hs hx hh
  case kept x next hx₀ he =>
    subst he
    cases hh.symm.trans (h.fresh k i hi₀ hc₀ x hx₀)
  case written j w _ hj _ _ _ hcom _ _ =>
    cases hj.symm.trans hi₀
    cases hc.symm.trans hcom
  case moved x hx₀ hh₀ _ _ _ _ _ _ => cases hh₀.symm.trans (h.fresh k i hi₀ hc₀ x hx₀)

theorem Inv.step (h : c.Inv H) (hs : Step H c e c') (ha : c.Allowed e) : c'.Inv H where
  traced   := h.traced.step hs.stripe ha.aliases
  regular  := h.regular.step hs.stripe
  used     := fun _ _ => h.used_step hs
  copies   := fun _ => h.copies_step hs ha.aliases
  attached := fun _ _ => h.attached_step hs
  fresh    := fun _ _ hi hc _ => h.fresh_step hs hi hc
  listed   := fun _ _ => h.listed_step hs ha

end Inv

section Purge

-- The selectors whose objects are purged together with a selector.
def Covers (selector selector' : Bytes) : Prop := selector' = selector ∨ rangePrefix selector <+: selector'

-- An object of these selectors is newer than the purge, or it is gone for good.
structure Purged (c : Catalog) (selector : Bytes) (generation : Nat) : Prop where
  le   : generation ≤ c.stripe.generation
  gone : ∀ k x, c.stripe.dirs k = some x → x.mark.2.head = true → Covers selector x.mark.2.selector →
    generation ≤ x.mark.2.generation ∨ c.stripe.index.lookup k = none ∧ c.stripe.Forsaken k x

theorem Inv.lookup_none_step (h : c.Inv H) (hs : Step H c e c') (ha : c.Allowed e)
    (hl : c.stripe.index.lookup k = none) (hx : c'.stripe.dirs k ≠ none) :
    c'.stripe.index.lookup k = none := by
  rcases h.index_cases hs ha k with hsame | hn | hl'
  case inl => exact hsame.trans hl
  case inr.inl => exact absurd hn hx
  case inr.inr => exact hl'.1

theorem Purged.step {generation : Nat} (hp : c.Purged selector generation) (h : c.Inv H)
    (hs : Step H c e c') (ha : c.Allowed e) : c'.Purged selector generation := by
  refine ⟨hp.le.trans hs.stripe.counts.generation, fun k x' hx hh hcov => ?_⟩
  cases h.head_cases hs hx hh
  case kept x next hx₀ he =>
    subst he
    refine (hp.gone k x hx₀ hh hcov).imp_right fun ⟨hl, hf⟩ => ⟨?_, hf.step h.traced hs.stripe hx₀⟩
    exact h.lookup_none_step hs ha hl (by simp [hx])
  case written i w _ _ hg _ hm _ _ _ =>
    rw [hm, hg]
    exact .inl hp.le
  case moved x hx₀ hh₀ hsel hm hor _ _ _ =>
    rw [hm]
    refine .inl ((hp.gone k x hx₀ hh₀ (hsel ▸ hcov)).resolve_right fun hn => ?_)
    exact hor.elim (fun hl => hl hn.1) hn.2.pending

-- `PurgeSelector` finds the objects in the index.
theorem Inv.purged (h : c.Inv H) (hs : Step H c (.purge selector false) c₁)
    (ha : c.Allowed (.purge selector false)) :
    c₁.Purged selector c₁.stripe.generation := by
  refine ⟨le_rfl, fun k x' hx hh hcov => .inr ?_⟩
  obtain ⟨x, next, hx₀, rfl⟩ := (Ledger.below_effect hs.stripe.effect rfl).1 k x' hx
  have hf : c.stripe.index.lookup k = none ∧ c.stripe.Forsaken k x := by
    refine (h.listed k x hx₀ hh).resolve_left fun hl => ?_
    have hn : c₁.stripe.dirs k = none := by
      have hst := hs.stripe
      generalize c₁.stripe = s₁ at hst ⊢
      cases hst
      case purge =>
        refine dirs_removals_of_mem h.regular.room (List.mem_append.mpr ?_)
        refine hcov.imp (fun he => ?_) fun hp => ?_
        case refine_1 => exact h.regular.exact.mem_keysForSelector.mpr (he ▸ hl)
        case refine_2 => exact h.regular.exact.mem_get.mpr ⟨_, hl, hp⟩
    cases hn.symm.trans hx
  exact ⟨h.lookup_none_step hs ha hf.1 (by simp [hx]), hf.2.step h.traced hs.stripe hx₀⟩

end Purge

-- A stripe that has just been opened, with the objects of the checkpoint in its index.
structure Opened (H : Hash) (c : Catalog) : Prop where
  stripe    : c.stripe.Opened H
  regular   : c.stripe.Regular
  used      : c.used = c.stripe.ring.flushed
  entries   : ∀ k, c.stripe.entries k = none
  listed    : ∀ k x, c.stripe.dirs k = some x → x.mark.2.head = true →
    c.stripe.index.lookup k = some x.mark.2.selector

theorem Opened.inv (h : c.Opened H) : c.Inv H where
  traced   := h.stripe.traced
  regular  := h.regular
  used     := fun k x hx => h.used ▸ (h.stripe.traced.ring.entry k x hx).2.1
  copies   := by simp [h.stripe.evacuations]
  attached := by simp [h.entries]
  fresh    := by simp [h.entries]
  listed   := fun k x hx hh => .inl (h.listed k x hx hh)

theorem Inv.listed_of_valid (h : c.Inv H) (hx : c.stripe.dirs k = some x) (hh : x.mark.2.head = true)
    (hv : c.stripe.ring.dirValid x.dir = true) : c.stripe.index.lookup k = some x.mark.2.selector ∧
      k ∈ c.stripe.index.keysOf x.mark.2.selector := by
  have hl := (h.listed k x hx hh).resolve_right fun hn => h.traced.not_dead hx hv hn.2.dead
  exact ⟨hl, (h.regular.exact.listed _ _).mpr hl⟩

theorem Inv.later_of_valid {selector : Bytes} (h : c.Inv H) (hs : Step H c (.purge selector false) c₁)
    (hr : Run (Step H) Allowed c₁ c₂) (hx : c₂.stripe.dirs k = some x) (hh : x.mark.2.head = true)
    (hv : c₂.stripe.ring.dirValid x.dir = true) (hc : Covers selector x.mark.2.selector) :
    c₁.stripe.generation ≤ x.mark.2.generation := by
  have ha : c.Allowed (.purge selector false) := ⟨Event.not_aliases rfl, nofun⟩
  have ⟨h₂, hp⟩ : c₂.Inv H ∧ c₂.Purged selector c₁.stripe.generation :=
    hr.invariant (I := fun c => c.Inv H ∧ c.Purged selector c₁.stripe.generation)
      (fun _ _ _ h hs ha => ⟨h.1.step hs ha, h.2.step h.1 hs ha⟩) ⟨h.step hs ha, h.purged hs ha⟩
  exact (hp.gone k x hx hh hc).resolve_right fun hn => h₂.traced.not_dead hx hv hn.2.dead

section Sample

-- Tasks of a stripe with its directory.
theorem backed_flushes {K : KeySpace H} {b b' : Backed Stripe} (c : Catalog)
    (h : Run (Backed.Step K id (Stripe.Step H)) (fun _ e => e = .flush) b b') :
    Run (Backed.Step K (·.stripe) (Step H)) (fun b e => b.state.Allowed e)
      ⟨{ c with stripe := b.state }, b.dirMgr⟩ ⟨{ c with stripe := b'.state }, b'.dirMgr⟩ := by
  induction h
  case refl => exact .refl
  case step hs he hi =>
    cases hs with | mk s s' dm calls hn hc hp hd hv =>
    subst he
    have hv : s' = s.follow H dm := hv
    have hw : s'.writers = s.writers := by
      rw [hv]
      rfl
    have h₁ (s₀) (hn : Stripe.Step H s₀ .flush s) :
        Step H { c with stripe := s₀ } .flush { c with stripe := s } :=
      .other .flush s hn rfl nofun (Ledger.writers_flush hn)
    have h₂ : Step H { c with stripe := s } .other { c with stripe := s' } := .other .other s' hd rfl nofun hw
    exact hi.step (.mk _ _ dm calls (h₁ _ hn) hc hp h₂ hv) ⟨Event.not_aliases rfl, nofun⟩

def sampleCatalog : Catalog := { stripe := sampleStripe, used := [], committed := fun _ => false }

theorem opened_sampleCatalog : sampleCatalog.Opened sampleHash where
  stripe  := opened_sampleStripe
  regular := ⟨nofun, DirTrie.exact_new 4, nofun, nofun⟩
  used    := rfl
  entries := fun _ => rfl
  listed  := nofun

end Sample

end Catalog

end Stripe
end Bakemono
