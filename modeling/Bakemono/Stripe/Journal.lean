import Bakemono.Stripe.Abort

namespace Bakemono

-- The key is not that of a fragment behind the head of some object.
def Hash.Plain (H : Hash) (key : Bytes) : Prop := ∀ k idx, idx ≠ 0 → H.fragmentKey k idx ≠ key

theorem Hash.Plain.of_fragmentKey {H : Hash} {k key : Bytes} {idx : Nat} (h : H.Plain key)
    (hk : key = H.fragmentKey k idx) : idx = 0 ∧ k = key := by
  by_cases hi : idx = 0
  case pos =>
    subst hi
    exact ⟨rfl, hk.symm⟩
  case neg => exact absurd hk.symm (h k idx hi)

namespace Stripe

variable {H : Hash} {s s' : Stripe} {e : Event} {k key : Bytes} {r : Record} {i : Nat}

-- An entry is an old one up to its link, or the one which has just been published.
theorem Step.entry_cases (h : Step H s e s') {x' : Entry (Record × Mark)} (hx : s'.dirs k = some x') :
    (∃ x next, s.dirs k = some x ∧ x' = x.relink next) ∨
    ∃ size, e.publication = some (k, x'.mark.1) ∧ s.Places x'.mark.1 size x'.dir := by
  cases hp : e.publication
  case none => exact .inl ((Ledger.below_effect h.effect hp).1 k x' hx)
  case some p =>
    have ⟨d, m, fate, kept, size, hpl, hr, _⟩ := h.put (hp : _ = some (p.1, p.2))
    have hdirs : s'.dirs = s.dirs.set p.1 ⟨d, p.2, m⟩ fate := by rw [dirs, hr]; rfl
    cases Table.of_set (hdirs ▸ hx)
    case inl hnew =>
      rw [hnew.1, hnew.2]
      exact .inr ⟨size, rfl, hpl⟩
    case inr hold => exact .inl hold.2

-- What has been overwritten stays so.
theorem Step.dead (h : Step H s e s') (ht : s.Traced H) (hr : r ∈ s.ring.flushed)
    (hd : s.ring.Dead r) : s'.ring.Dead r := by
  cases hp : e.publication
  case none => exact (Ledger.passed_effect h.effect hp ht.ring hr).2 hd
  case some p =>
    have ⟨_, _, _, _, _, _, hr, _⟩ := h.put (hp : _ = some (p.1, p.2))
    rw [hr]
    exact hd

theorem Traced.not_dead (h : s.Traced H) {x : Entry (Record × Mark)} (hx : s.dirs k = some x)
    (hv : s.ring.dirValid x.dir = true) : ¬s.ring.Dead x.mark.1 := by
  have ⟨hd, hm, hr⟩ := h.ring.entry k x hx
  intro hdead
  cases hdead
  case inl he => cases he.symm.trans (Ring.dirValid_iff.mp hv).2.1
  case inr hl => exact hl (h.ring.live hd (h.ring.placed _ hm) hr hv)

section Writers

def names (s : Stripe) : List Bytes := s.writers.map Writer.key

-- A critical section opens a writer, or leaves the keys of the writers as they are.
inductive Enrols (s : Stripe) (e : Event) (s' : Stripe) : Prop
  | same :
    (s'.names = s.names) → (∀ k j, s'.entries k = some j → s.entries k = some j) → Enrols s e s'
  | opens (key selector : Bytes) :
    (e = .openWrite key selector) → (s'.names = s.names ++ [key]) →
    (s'.entries = Function.update s.entries key (some s.names.length)) → Enrols s e s'

theorem Enrols.of_eq (hw : s'.writers = s.writers) (he : s'.entries = s.entries) : Enrols s e s' :=
  .same (by rw [names, hw, names]) (fun _ _ h => he ▸ h)

theorem Enrols.name (h : Enrols s e s') (hi : s.names[i]? = some key) : s'.names[i]? = some key := by
  cases h
  case same hn _ => rw [hn, hi]
  case opens hn _ => rw [hn, List.getElem?_append_left (List.getElem?_eq_some_iff.mp hi).1, hi]

theorem names_set {w w' : Writer} (hw : s.writers[i]? = some w) (hk : w'.key = w.key) :
    (s.writers.set i w').map Writer.key = s.names := by
  have hi : s.names[i]? = some w.key := by simp [names, hw]
  have ⟨hlt, he⟩ := List.getElem?_eq_some_iff.mp hi
  rw [List.map_set, hk, ← he]
  exact List.set_getElem_self hlt

theorem entries_detach {j : Nat} (h : (s.detach key).entries k = some j) : s.entries k = some j := by
  by_cases hk : k = key
  case pos => simp [detach, hk] at h
  case neg => simpa [detach, hk] using h

theorem writers_abortLocked {w : Writer} : (s.abortLocked i w).writers =
    s.writers.set i { w with closed := true, published := [] } ∧
    (s.abortLocked i w).entries = s.entries := by
  have hd := Drops.foldl (s := s) (fun _ => drops_retract) w.published
  simp only [abortLocked, disown]
  split
  all_goals
    rw [hd.rest]
    exact ⟨rfl, rfl⟩

theorem writers_removeLocked (key : Bytes) : (s.removeLocked H key).writers = s.writers ∧
    (s.removeLocked H key).entries = (s.detach key).entries := by
  have hd : Drops _ (s.removeLocked H key) := drops_removeFragments
  rw [hd.rest]
  exact ⟨rfl, rfl⟩

theorem writers_removals (keys : List Bytes) :
    (keys.foldl (Stripe.removeLocked H) s).writers = s.writers ∧
    ∀ k j, (keys.foldl (Stripe.removeLocked H) s).entries k = some j → s.entries k = some j := by
  induction keys generalizing s
  case nil => exact ⟨rfl, fun _ _ => id⟩
  case cons key keys hi =>
    have ⟨hw, he⟩ := writers_removeLocked (H := H) (s := s) key
    have ⟨hw', he'⟩ := hi (s := s.removeLocked H key)
    exact ⟨hw'.trans hw, fun k j h => entries_detach (he ▸ he' k j h)⟩

-- The generation may have been advanced before.
theorem Enrols.removals (keys : List Bytes) {s₁ : Stripe} (hw : s₁.writers = s.writers)
    (he : s₁.entries = s.entries) : Enrols s e (keys.foldl (Stripe.removeLocked H) s₁) := by
  have ⟨hw', he'⟩ := writers_removals (H := H) (s := s₁) keys
  exact .same (by rw [names, hw', hw, names]) (he ▸ he')

theorem Enrols.openWrite {w : Writer} :
    Enrols s (.openWrite w.key w.selector) (s.openWrite w) := by
  unfold Stripe.openWrite
  split
  case h_1 => exact .of_eq rfl rfl
  case h_2 =>
    refine .opens w.key w.selector rfl ?_ ?_
    case refine_1 => simp [names, forget, delete]
    case refine_2 => simp [names, forget, delete]

theorem Step.enrols (h : Step H s e s') : Enrols s e s' := by
  cases h
  case publish i w idx r d fate kept hw _ _ _ _ _ => exact .same (names_set hw rfl) (fun _ _ => id)
  case abort i w hw _ =>
    have ⟨h₁, h₂⟩ := writers_abortLocked (s := s) (i := i) (w := w)
    refine .same ?_ (fun _ _ h => h₂ ▸ h)
    rw [names, h₁]
    exact names_set hw rfl
  case close i w hw _ => exact .same (names_set hw rfl) (fun _ _ => id)
  case release => exact .same rfl (fun _ _ => entries_detach)
  case openWrite => exact .openWrite
  case remove key _ => exact .removals [key] rfl rfl
  case purge selector asPrefix _ => exact .removals _ rfl rfl
  case removeLocked key _ => exact .removals [key] rfl rfl
  case abortOpenWriters => exact .same rfl nofun
  case drop h => exact .of_eq (by rw [h.rest]) (by rw [h.rest])
  all_goals exact .of_eq rfl rfl

-- What a writer has published it has published before or in this critical section, in which it has an
-- entry.
theorem Step.published (h : Step H s e s') {w' : Writer} {p : Bytes × Record}
    (hw : s'.writers[i]? = some w') (hp : p ∈ w'.published) :
    (∃ w, s.writers[i]? = some w ∧ w.key = w'.key ∧ p ∈ w.published) ∨
    (e.publication = some p ∧ s.entries w'.key = some i ∧ ∃ idx, p.1 = H.fragmentKey w'.key idx) := by
  cases he : e.publication
  case none => exact .inl ((h.staff he).writers i w' hw p hp)
  case some q =>
    cases h
    case refresh => exact .inl ⟨w', hw, rfl, hp⟩
    case evacuate => exact .inl ⟨w', hw, rfl, hp⟩
    case publish j w idx r d fate kept hj _ hadm _ _ _ =>
      cases he
      have hw : (s.writers.set j
        { w with published := w.published ++ [(H.fragmentKey w.key idx, r)] })[i]? = some w' := hw
      by_cases hji : j = i
      case neg => exact .inl ⟨w', by rwa [List.getElem?_set_ne hji] at hw, rfl, hp⟩
      case pos =>
        subst hji
        rw [List.getElem?_set_self (List.getElem?_eq_some_iff.mp hj).1] at hw
        cases hw
        cases List.mem_append.mp hp
        case inl hp => exact .inl ⟨w, hj, rfl, hp⟩
        case inr hp =>
          cases List.mem_singleton.mp hp
          exact .inr ⟨rfl, hadm.entry, idx, rfl⟩
    all_goals cases he

end Writers

section Admission

variable {w : Writer}

-- Only identities whose heads are lost are pruned.
theorem lookup_prune : s.prune.lookup k = s.index.lookup k ∨
    s.prune.lookup k = none ∧ s.entries k = none ∧ s.lost k = true := by
  have go (keys : List Bytes) (t : DirTrie)
      (ht : t.lookup k = s.index.lookup k ∨ t.lookup k = none ∧ s.entries k = none ∧ s.lost k = true) :
      let t' := keys.foldl (fun t k => if s.entries k = none ∧ s.lost k then t.delete k else t) t
      t'.lookup k = s.index.lookup k ∨ t'.lookup k = none ∧ s.entries k = none ∧ s.lost k = true := by
    induction keys generalizing t
    case nil => exact ht
    case cons k' keys hi =>
      refine hi _ ?_
      beta_reduce
      split
      case isFalse => exact ht
      case isTrue hk =>
        rw [DirTrie.lookup_delete]
        split
        case isTrue he => exact .inr ⟨rfl, he ▸ hk⟩
        case isFalse => exact ht
  exact go _ _ (.inl rfl)

-- The index after an attempt to add an identity, as far as other keys are concerned.
theorem lookup_reserveIdentityLocked (key selector : Bytes) (hk : k ≠ key ∨
      (s.reserveIdentityLocked key selector).1 ≠ none) :
    (s.reserveIdentityLocked key selector).2.lookup k = s.index.lookup k ∨
    (s.reserveIdentityLocked key selector).2.lookup k = none ∧ s.entries k = none ∧
      s.lost k = true := by
  unfold reserveIdentityLocked at hk ⊢
  cases hs : s.index.setIdentity key selector
  case ok index =>
    have hk : k ≠ key := by simpa [hs] using hk
    simp only
    rw [DirTrie.lookup_setIdentity hs, if_neg hk]
    exact .inl rfl
  case error e =>
    by_cases he : e = .indexFull
    case neg =>
      simp only [he, if_false]
      exact .inl trivial
    case pos =>
      cases hp : s.prune.setIdentity key selector
      case error => simpa only [he, if_true, hp] using lookup_prune
      case ok index =>
        have hk : k ≠ key := by simpa [hs, he, hp] using hk
        simp only [he, if_true]
        rw [DirTrie.lookup_setIdentity hp, if_neg hk]
        exact lookup_prune

theorem openWrite_spec (h : (s.reserveIdentityLocked w.key w.selector).1 = none) :
    (s.openWrite w).dirs w.key = none ∧ (s.openWrite w).entries w.key = some s.writers.length ∧
    (s.openWrite w).writers[s.writers.length]? = some w := by
  cases hr : s.reserveIdentityLocked w.key w.selector with | mk e index =>
  rw [hr] at h
  cases h
  simp only [openWrite, hr]
  exact ⟨Function.update_self .., Function.update_self .., by simp [forget, delete]⟩

theorem fragmentsNum_openWrite : (s.openWrite w).fragmentsNum = s.fragmentsNum := by
  unfold openWrite
  split
  all_goals rfl

end Admission

-- A stripe and the records that have been published, by whomever.
structure Journal where
  stripe : Stripe
  used   : List Record

namespace Journal

variable {j j' j₀ : Journal}

-- The critical sections of a stripe. A record is published once, by the one who has added it to the
-- log.
inductive Step (H : Hash) (j : Journal) : Event → Journal → Prop
  | other (e : Event) (s' : Stripe) :
    (Stripe.Step H j.stripe e s') → (e.publication = none) → Step H j e { j with stripe := s' }
  | publish (e : Event) (k : Bytes) (r : Record) (s' : Stripe) :
    (Stripe.Step H j.stripe e s') → (e.publication = some (k, r)) → (r ∉ j.used) →
    Step H j e ⟨s', r :: j.used⟩

-- The entries of the first lap after an opening have been recovered and are not published again.
structure Opened (H : Hash) (j : Journal) : Prop where
  stripe  : j.stripe.Opened H
  used    : j.used = j.stripe.ring.flushed
  heads   : ∀ k x, j.stripe.dirs k = some x → x.mark.2.head = true → H.Plain k
  writers : j.stripe.writers = []
  entries : ∀ k, j.stripe.entries k = none

-- Nothing is published for the lap which is being started, and objects do not have the keys of
-- fragments.
structure Allowed (H : Hash) (j : Journal) (e : Event) : Prop where
  aliases : ¬e.Aliases j.stripe
  plain   : ∀ key selector, e = .openWrite key selector → H.Plain key

structure Inv (H : Hash) (j : Journal) : Prop where
  traced   : j.stripe.Traced H
  flushed  : ∀ r ∈ j.used, r ∈ j.stripe.ring.flushed
  entries  : ∀ k x, j.stripe.dirs k = some x → x.mark.1 ∈ j.used ∧ (x.mark.2.head = true → H.Plain k)
  copies   : ∀ v ∈ j.stripe.evacuations, v.mark.head = true → H.Plain v.key
  names    : ∀ key ∈ j.stripe.names, H.Plain key
  writers  : ∀ (i : Nat) (w : Writer), j.stripe.writers[i]? = some w → ∀ p ∈ w.published,
    p.2 ∈ j.used ∧ (p.1 = w.key ∨ ¬H.Plain p.1)
  attached : ∀ k i, j.stripe.entries k = some i → j.stripe.names[i]? = some k

theorem Opened.inv (h : j.Opened H) : j.Inv H where
  traced   := h.stripe.traced
  flushed  := by rw [h.used]; exact fun _ => id
  entries  := fun k x hx => ⟨h.used ▸ (h.stripe.traced.ring.entry k x hx).2.1, h.heads k x hx⟩
  copies   := by simp [h.stripe.evacuations]
  names    := by simp [Stripe.names, h.writers]
  writers  := by simp [h.writers]
  attached := by simp [h.entries]

theorem Step.stripe (h : Step H j e j') : Stripe.Step H j.stripe e j'.stripe := by
  cases h
  all_goals assumption

theorem Step.used_subset (h : Step H j e j') : j.used ⊆ j'.used := by
  cases h
  case other => exact List.Subset.refl _
  case publish => exact List.subset_cons_self ..

-- The record that is published is a new one.
theorem Step.used_of_publication (h : Step H j e j') (hp : e.publication = some (k, r)) :
    r ∉ j.used ∧ r ∈ j'.used := by
  cases h
  case other hn => cases hn.symm.trans hp
  case publish _ hp' hu =>
    cases hp'.symm.trans hp
    exact ⟨hu, .head _⟩

theorem Step.used_cases (h : Step H j e j') (hr : r ∈ j'.used) :
    r ∈ j.used ∨ ∃ k, e.publication = some (k, r) := by
  cases h
  case other => exact .inl hr
  case publish k _ s' _ hp _ =>
    cases hr
    case head => exact .inr ⟨k, hp⟩
    case tail hr => exact .inl hr

section

variable (h : j.Inv H) (hs : Step H j e j')
include h hs

theorem Inv.names_step (ha : Allowed H j e) (key : Bytes) (hk : key ∈ j'.stripe.names) :
    H.Plain key := by
  cases hs.stripe.enrols
  case same hn _ => exact h.names key (hn ▸ hk)
  case opens key' selector he hn _ =>
    rw [hn, List.mem_append, List.mem_singleton] at hk
    exact hk.elim (h.names key) fun hk => hk ▸ ha.plain key' selector he

theorem Inv.attached_step (k : Bytes) (i : Nat) (hi : j'.stripe.entries k = some i) :
    j'.stripe.names[i]? = some k := by
  cases hs.stripe.enrols
  case same hn he => exact hn ▸ h.attached k i (he k i hi)
  case opens key selector _ hn he =>
    rw [he] at hi
    by_cases hk : k = key
    case pos =>
      subst hk
      rw [Function.update_self] at hi
      cases hi
      simp [hn]
    case neg =>
      rw [Function.update_of_ne hk] at hi
      exact hs.stripe.enrols.name (h.attached k i hi)

theorem Inv.writers_step (i : Nat) (w : Writer) (hw : j'.stripe.writers[i]? = some w)
    (p : Bytes × Record) (hp : p ∈ w.published) :
    p.2 ∈ j'.used ∧ (p.1 = w.key ∨ ¬H.Plain p.1) := by
  cases hs.stripe.published hw hp
  case inl hold =>
    have ⟨w₀, hw₀, hk, hp⟩ := hold
    have ⟨hu, hn⟩ := h.writers i w₀ hw₀ p hp
    exact ⟨hs.used_subset hu, hk ▸ hn⟩
  case inr hnew =>
    have ⟨he, _, idx, hk⟩ := hnew
    refine ⟨(hs.used_of_publication (k := p.1) (r := p.2) he).2, ?_⟩
    by_cases hi : idx = 0
    case pos =>
      subst hi
      exact .inl hk
    case neg => exact .inr fun hplain => hplain w.key idx hi hk.symm

theorem Inv.flushed_step (ha : ¬e.Aliases j.stripe) (r : Record) (hr : r ∈ j'.used) :
    r ∈ j'.stripe.ring.flushed := by
  have ⟨_, _, hf⟩ := h.traced.ring_effect hs.stripe.effect ha
  cases hs.used_cases hr
  case inl hr => exact hf (h.flushed r hr)
  case inr hk =>
    have ⟨k, hk⟩ := hk
    have ⟨_, _, _, _, _, hp, _⟩ := hs.stripe.put hk
    exact hf hp.flushed

theorem Inv.copies_step (v : EvacuationRecord) (hv : v ∈ j'.stripe.evacuations)
    (hm : v.mark.head = true) : H.Plain v.key := by
  cases hs.stripe.effect.copies hv
  case inl hv => exact h.copies v hv hm
  case inr hx =>
    have ⟨x, hx⟩ := hx
    exact (h.entries v.key x hx.entry).2 (hx.mark ▸ hm)

-- The head of an object is published under the key of the object.
omit hs in
theorem Inv.plain_publication {s' : Stripe} {x : Entry (Record × Mark)}
    (hs : Stripe.Step H j.stripe e s') (hp : e.publication = some (k, r)) (hx : s'.dirs k = some x)
    (hm : x.mark.2.head = true) : H.Plain k := by
  cases hs
  case publish i w idx r d fate kept hw _ _ _ _ _ =>
    cases hp
    rw [dirs_publish, Table.set_self] at hx
    cases hx
    have hi : idx = 0 := by simpa [markOf] using hm
    subst hi
    exact h.names _ (List.mem_map_of_mem (List.mem_of_getElem? hw))
  case refresh key x₀ _ r d fate kept _ hx₀ hm₀ _ _ _ _ =>
    cases hp
    exact (h.entries k x₀ hx₀).2 hm₀
  case evacuate v _ r d fate kept hv _ _ _ _ _ _ _ _ _ =>
    cases hp
    rw [dirs_put, Table.set_self] at hx
    cases hx
    exact h.copies v hv hm
  all_goals cases hp

theorem Inv.entries_step (k : Bytes) (x : Entry (Record × Mark)) (hx : j'.stripe.dirs k = some x) :
    x.mark.1 ∈ j'.used ∧ (x.mark.2.head = true → H.Plain k) := by
  cases hs.stripe.entry_cases hx
  case inl hold =>
    have ⟨x₀, _, hx₀, he⟩ := hold
    have ⟨hu, hm⟩ := h.entries k x₀ hx₀
    rw [he]
    exact ⟨hs.used_subset hu, hm⟩
  case inr hnew =>
    have ⟨_, he, _⟩ := hnew
    exact ⟨(hs.used_of_publication he).2, h.plain_publication hs.stripe he hx⟩

theorem Inv.step (ha : Allowed H j e) : j'.Inv H where
  traced   := h.traced.step hs.stripe ha.aliases
  flushed  := h.flushed_step hs ha.aliases
  entries  := h.entries_step hs
  copies   := h.copies_step hs
  names    := h.names_step hs ha
  writers  := h.writers_step hs
  attached := h.attached_step hs

end

theorem Opened.run (h₀ : j₀.Opened H) (h : Run (Step H) (Allowed H) j₀ j) : j.Inv H :=
  h.invariant (fun _ _ _ => Inv.step) h₀.inv

theorem Inv.run (h : j.Inv H) (hr : Run (Step H) (Allowed H) j j') : j'.Inv H :=
  hr.invariant (fun _ _ _ => Inv.step) h

theorem used_subset {Ok : Journal → Event → Prop} (h : Run (Step H) Ok j j') : j.used ⊆ j'.used :=
  h.relation (R := fun j j' => j.used ⊆ j'.used) (fun _ => List.Subset.refl _)
    (fun h₁ h₂ => List.Subset.trans h₁ h₂) (fun _ _ _ hs _ => hs.used_subset)

-- Critical sections that publish nothing.
theorem run_other {Ok : Stripe → Event → Prop} {Ok' : Journal → Event → Prop}
    (ho : ∀ s e, Ok s e → e.publication = none ∧ ∀ used, Ok' ⟨s, used⟩ e)
    (h : Run (Stripe.Step H) Ok s s') (used : List Record) :
    Run (Step H) Ok' ⟨s, used⟩ ⟨s', used⟩ := by
  induction h
  case refl => exact .refl
  case step s₁ s₂ e _ hs hok hi =>
    have ⟨hp, ho⟩ := ho s₁ e hok
    exact hi.step (.other e s₂ hs hp) (ho used)

section Abort

-- The entries of the key are those of old records, or of records that have been written after the
-- ones in a list.
structure Renewed (old used : List Record) (key : Bytes) (j : Journal) : Prop where
  subset  : used ⊆ j.used
  entries : ∀ x, j.stripe.dirs key = some x → x.mark.1 ∈ old ∨ x.mark.1 ∉ used ∧
    ∀ r ∈ used, r.offset = x.mark.1.offset → r.generation ≤ x.mark.1.generation

variable {old used : List Record}

theorem Renewed.step (h : Renewed old used key j) (hi : j.Inv H) (hs : Step H j e j') :
    Renewed old used key j' := by
  refine ⟨List.Subset.trans h.subset hs.used_subset, fun x hx => ?_⟩
  cases hs.stripe.entry_cases hx
  case inl hold =>
    have ⟨x₀, _, hx₀, hx⟩ := hold
    rw [hx]
    exact h.entries x₀ hx₀
  case inr hnew =>
    have ⟨_, he, hp⟩ := hnew
    refine .inr ⟨fun hm => (hs.used_of_publication he).1 (h.subset hm), fun r hr ho => ?_⟩
    exact hi.traced.ring.toLayout.generation_le_of_valid hp.allocation (hi.flushed r (h.subset hr)) ho

theorem Renewed.run (h : Renewed old used key j) (hi : j.Inv H)
    (hr : Run (Step H) (Allowed H) j j') : Renewed old used key j' := by
  refine (hr.invariant (I := fun j => j.Inv H ∧ Renewed old used key j) ?_ ⟨hi, h⟩).2
  intro _ _ _ ⟨hi, h⟩ hs ha
  exact ⟨hi.step hs ha, h.step hi hs⟩

-- A place which is valid is the one that was written last at its offset.
theorem Renewed.not_hits (h : Renewed old used key j) (hi : j.Inv H) {p : Bytes × Record}
    {x : Entry (Record × Mark)} (hp : p.2 ∈ used) (hx : j.stripe.dirs key = some x)
    (ho : x.mark.1 ∉ old) : ¬j.stripe.Hits p key := by
  intro ⟨_, hv, x', hx', hoff⟩
  cases hx.symm.trans hx'
  have ⟨hn, hg⟩ := (h.entries x hx).resolve_left ho
  have ⟨hd, hm, _⟩ := hi.traced.ring.entry key x hx
  have hoff : x.mark.1.offset = p.2.offset := hd.offset ▸ hoff
  have hle := hi.traced.ring.toLayout.generation_le_of_valid hv hm hoff
  have heq := hi.traced.unique _ (hi.flushed _ (h.subset hp)) _ hm
    ((hg p.2 hp hoff.symm).antisymm hle) hoff.symm
  exact hn (heq ▸ hp)

-- A writer that has been detached publishes nothing any more.
structure Retired (used : List Record) (key : Bytes) (i : Nat) (j : Journal) : Prop where
  name      : j.stripe.names[i]? = some key
  entries   : ∀ k, j.stripe.entries k ≠ some i
  published : ∀ w, j.stripe.writers[i]? = some w → ∀ p ∈ w.published, p.2 ∈ used

theorem Retired.step (h : Retired used key i j) (hs : Step H j e j') : Retired used key i j' := by
  constructor
  case name => exact hs.stripe.enrols.name h.name
  case entries =>
    intro k hk
    cases hs.stripe.enrols
    case same he => exact h.entries k (he k i hk)
    case opens key' _ _ hn he =>
      have hlt := (List.getElem?_eq_some_iff.mp h.name).1
      rw [he] at hk
      by_cases hkey : k = key'
      case pos =>
        rw [hkey, Function.update_self] at hk
        cases hk
        exact lt_irrefl _ hlt
      case neg =>
        rw [Function.update_of_ne hkey] at hk
        exact h.entries k hk
  case published =>
    intro w hw p hp
    cases hs.stripe.published hw hp
    case inl hold =>
      have ⟨w₀, hw₀, _, hp⟩ := hold
      exact h.published w₀ hw₀ p hp
    case inr hnew => exact absurd hnew.2.1 (h.entries w.key)

theorem Retired.run {Ok : Journal → Event → Prop} (h : Retired used key i j)
    (hr : Run (Step H) Ok j j') : Retired used key i j' :=
  hr.invariant (fun _ _ _ h hs _ => Retired.step h hs) h

-- If the key of the writer had an old entry at most when it was detached, it takes no other head away
-- when it is aborted.
theorem Renewed.abortLocked {w : Writer} {x : Entry (Record × Mark)} (h : Renewed old used key j)
    (hr : Retired used key i j) (hi : j.Inv H) (hw : j.stripe.writers[i]? = some w)
    (hx : j.stripe.dirs k = some x) (hm : x.mark.2.head = true) (ho : x.mark.1 ∉ old) :
    (j.stripe.abortLocked i w).dirs k = some x := by
  have hkey : w.key = key := by
    have hn := hr.name
    rw [names, List.getElem?_map, hw] at hn
    exact Option.some_inj.mp hn
  rw [dirs_abortLocked, dirs_retracts, hx]
  intro p hp hhit
  cases (hi.writers i w hw p hp).2
  case inl hp₁ =>
    have hk : k = key := by rw [← hhit.1, hp₁, hkey]
    subst hk
    exact h.not_hits hi (hr.published w hw p hp) hx ho hhit
  case inr hn => exact hn (hhit.1 ▸ (hi.entries k x hx).2 hm)

end Abort

end Journal
end Stripe
end Bakemono
