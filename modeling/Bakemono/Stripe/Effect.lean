import Bakemono.Stripe.State

namespace Bakemono

theorem Ring.Step.bounds {κ μ : Type} [DecidableEq κ] {s s' : Ring κ μ} {e : Ring.Event κ}
    (h : s.Step e s') : s'.start = s.start ∧ s'.stop = s.stop := by
  cases h
  all_goals exact ⟨rfl, rfl⟩

theorem Ring.below_beginFlush {κ μ : Type} {s : Ring κ μ} {t : FlushTask} {links : κ → BitVec 16} :
    (s.beginFlush t links).dirs.Below s.dirs := by
  simp only [Ring.beginFlush]
  split
  case isTrue =>
    intro k x h
    obtain ⟨x₀, next, h₀, hx, _⟩ := Table.of_removePhase h
    exact ⟨x₀, next, h₀, hx⟩
  case isFalse => exact .refl

namespace Stripe

variable {H : Hash} {s s' s'' : Stripe} {k key : Bytes} {e : Event}

-- The bytes are those of a document and of nothing else.
structure Formed (H : Hash) (p : Bytes) : Prop where
  valid  : (CacheReader.header p).validate H p = .ok ()
  length : p.length = (CacheReader.header p).len.toNat

theorem formed_fragment {i : Nat} {version : UInt64} {p : Bytes}
    (h : CacheReader.Fragment H key i version p) : Formed H p :=
  ⟨h.valid, h.length⟩

section Drops

namespace Drops

theorem refl : Drops s s := ⟨rfl, .refl, fun _ _ => id⟩

theorem trans (h : Drops s s') (h' : Drops s' s'') : Drops s s'' where
  rest := by rw [h'.rest, h.rest]
  dirs := h'.dirs.trans h.dirs
  ram  := fun k x => h.ram k x ∘ h'.ram k x

theorem foldl {α : Type} {f : Stripe → α → Stripe} (hf : ∀ s a, Drops s (f s a)) (l : List α) :
    Drops s (l.foldl f s) := by
  induction l generalizing s
  case nil => exact refl
  case cons a l hi => exact (hf s a).trans hi

end Drops

theorem below_update {μ : Type} {t : Table Bytes μ} : Table.Below (Function.update t k none) t := by
  intro k' e h
  by_cases hk : k' = k
  case pos => simp [hk] at h
  case neg =>
    rw [Function.update_of_ne hk] at h
    exact ⟨e, e.dir.next, h, rfl⟩

theorem drops_forget : Drops s (s.forget key) where
  rest := rfl
  dirs := .refl
  ram  := by
    intro k x h
    by_cases hk : k = key
    case pos => simp [forget, hk] at h
    case neg => simpa [forget, hk] using h

theorem drops_delete : Drops s (s.delete key) := ⟨rfl, below_update, fun _ _ => id⟩

theorem drops_retract (p : Bytes × Record) : Drops s (s.retract p) := by
  unfold retract
  split
  case isTrue => exact .refl
  case isFalse =>
    split
    case h_1 => exact drops_forget
    case h_2 =>
      split
      case isTrue => exact drops_delete.trans drops_forget
      case isFalse => exact .refl

theorem drops_removeFragments {n idx : Nat} : Drops s (removeFragments H key n idx s) := by
  induction n generalizing idx s
  case zero => exact .refl
  case succ n hi =>
    simp only [removeFragments]
    split
    case isTrue => exact drops_forget
    case isFalse => exact (drops_forget.trans drops_delete).trans hi

end Drops

section Shrinks

-- Entries and memory are only taken away.
structure Shrinks (s s' : Stripe) : Prop where
  ring        : s'.ring = { s.ring with dirs := s'.dirs }
  dirs        : s'.dirs.Below s.dirs
  ram         : ∀ k x, s'.ram k = some x → s.ram k = some x
  evacuations : s'.evacuations = s.evacuations

namespace Shrinks

theorem of_eq (hr : s'.ring = s.ring) (hm : s'.ram = s.ram) (he : s'.evacuations = s.evacuations) :
    Shrinks s s' where
  ring        := by rw [Stripe.dirs, hr]
  dirs        := by rw [Stripe.dirs, hr]; exact .refl
  ram         := by rw [hm]; exact fun _ _ => id
  evacuations := he

theorem trans (h : Shrinks s s') (h' : Shrinks s' s'') : Shrinks s s'' where
  ring        := by rw [h'.ring, h.ring]
  dirs        := h'.dirs.trans h.dirs
  ram         := fun k x => h.ram k x ∘ h'.ram k x
  evacuations := h'.evacuations.trans h.evacuations

theorem foldl {α : Type} {f : Stripe → α → Stripe} (hf : ∀ s a, Shrinks s (f s a)) (l : List α) :
    Shrinks s (l.foldl f s) := by
  induction l generalizing s
  case nil => exact of_eq rfl rfl rfl
  case cons a l hi => exact (hf s a).trans hi

end Shrinks

theorem Drops.shrinks (h : Drops s s') : Shrinks s s' where
  ring        := by rw [h.rest]; rfl
  dirs        := h.dirs
  ram         := h.ram
  evacuations := by rw [h.rest]

theorem shrinks_disown {i : Nat} {w : Writer} : Shrinks s (s.disown i w) := by
  unfold disown
  split
  all_goals exact .of_eq rfl rfl rfl

theorem shrinks_abortLocked {i : Nat} {w : Writer} : Shrinks s (s.abortLocked i w) := by
  have h : Shrinks s ((w.published.foldl retract s).disown i w) :=
    (Drops.foldl (fun _ => drops_retract) _).shrinks.trans shrinks_disown
  exact ⟨h.ring, h.dirs, h.ram, h.evacuations⟩

theorem shrinks_removeLocked : Shrinks s (s.removeLocked H key) := by
  have h : Shrinks s { s.detach key with index := s.index.delete key } := .of_eq rfl rfl rfl
  exact h.trans drops_removeFragments.shrinks

theorem shrinks_counted : Shrinks s { s.advance with removals := s.removals + 1 } :=
  .of_eq rfl rfl rfl

theorem shrinks_remove : Shrinks s (s.remove H key) := shrinks_counted.trans shrinks_removeLocked

theorem shrinks_purgeSelector {selector : Bytes} {asPrefix : Bool} :
    Shrinks s (s.purgeSelector H selector asPrefix) :=
  shrinks_counted.trans (.foldl (fun _ _ => shrinks_removeLocked) _)

theorem shrinks_openWrite {w : Writer} : Shrinks s (s.openWrite w) := by
  unfold openWrite
  split
  case h_1 => exact .of_eq rfl rfl rfl
  case h_2 =>
    have h {s₁ : Stripe} (h : Shrinks s s₁) : Shrinks s ((s₁.delete w.key).forget w.key) :=
      h.trans (drops_delete.trans drops_forget).shrinks
    exact h (.of_eq rfl rfl rfl)

end Shrinks

section Removal

-- Only fragments of the object are removed.
theorem removeFragments_other {n idx : Nat} (h : ∀ i, k ≠ H.fragmentKey key i) :
    (removeFragments H key n idx s).dirs k = s.dirs k ∧
    (removeFragments H key n idx s).ram k = s.ram k := by
  induction n generalizing idx s
  case zero => exact ⟨rfl, rfl⟩
  case succ n hi =>
    have hram : (s.forget (H.fragmentKey key idx)).ram k = s.ram k :=
      Function.update_of_ne (h idx) ..
    simp only [removeFragments]
    split
    case isTrue => exact ⟨rfl, hram⟩
    case isFalse =>
      rw [hi.1, hi.2]
      exact ⟨Function.update_of_ne (h idx) .., hram⟩

theorem removeLocked_other (h : ∀ i, k ≠ H.fragmentKey key i) :
    (s.removeLocked H key).dirs k = s.dirs k ∧ (s.removeLocked H key).ram k = s.ram k :=
  removeFragments_other h

theorem dirs_removeLocked (h : s.fragmentsNum ≠ 0) : (s.removeLocked H key).dirs key = none := by
  have ⟨n, hn⟩ := Nat.exists_eq_succ_of_ne_zero h
  have hk : H.fragmentKey key 0 = key := rfl
  rw [removeLocked, hn, removeFragments, hk]
  split
  case isTrue hd => exact hd
  case isFalse =>
    by_contra hc
    have ⟨x, hx⟩ := Option.ne_none_iff_exists'.mp hc
    have ⟨_, _, hx, _⟩ := drops_removeFragments.dirs key x hx
    cases (Function.update_self ..).symm.trans hx

end Removal

section Evacuation

variable {lo hi bytes offset : Nat} {v : EvacuationRecord} {candidates : List (Bytes × Nat)}

-- What is known about a copy when it is taken.
structure Copied (H : Hash) (s : Stripe) (v : EvacuationRecord) (x : Entry (Record × Mark)) :
    Prop where
  entry        : s.dirs v.key = some x
  valid        : s.ring.dirValid x.dir = true
  old          : v.old = x.dir
  formed       : Formed H v.data
  disk         : s.ring.disk.Holds x.dir.offset v.data
  generation   : v.generation =
    if x.dir.phase = s.ring.phase then s.ring.generation else s.ring.generation - 1
  invalidation : v.invalidation = s.generation
  source       : v.source = s.latest x.dir.offset
  mark         : v.mark = x.mark.2
  removals     : v.removals = s.removals

theorem copied_copyOf (h : s.copyOf H lo hi bytes key offset = some v) : ∃ x, Copied H s v x := by
  simp only [copyOf, Option.bind_eq_bind, Option.bind_eq_some_iff, Option.guard_eq_some',
    exists_const] at h
  obtain ⟨x, hx, ⟨ho, hv⟩, p, hp, _, hb, q, hq, ⟨hval, _⟩, _, he⟩ := h
  cases he
  have ⟨hpl, hpd⟩ := File.readAt_eq_some.mp hp
  have ⟨hql, hqd⟩ := File.readAt_eq_some.mp hq
  have hh : q.take DocHeaderSize = p := (hqd.take _).unique hpd (by simp [hpl, hql]; omega)
  refine ⟨x, hx, hv, rfl, ⟨?_, ?_⟩, ho ▸ hqd, rfl, rfl, by rw [ho], rfl, rfl⟩
  case refine_1 =>
    rw [CacheReader.header, hh]
    exact Except.isOk_iff.mp hval
  case refine_2 =>
    rw [CacheReader.header, hh]
    exact hql

theorem copied_of_mem (h : v ∈ s.collectEvacuationData H lo hi bytes candidates) :
    ∃ x, Copied H s v x := by
  induction candidates generalizing bytes
  case nil => cases h
  case cons c others hi =>
    simp only [collectEvacuationData] at h
    split at h
    case h_1 v' hv =>
      cases h
      case head => exact copied_copyOf hv
      case tail h => exact hi h
    case h_2 => exact hi h

end Evacuation

-- What a critical section can do to the entries and to the memory.
inductive Effect (H : Hash) (s : Stripe) (e : Event) (s' : Stripe) : Prop
  | shrinks : (Shrinks s s') → Effect H s e s'
  | begin (t links candidates) :
    (s.ring.Step .flush (s.ring.beginFlush t links)) →
    (s.ring.task = none) →
    (Continues s.ring.start s.ring.generation s.ring.writePos t.generation t.offset) →
    (s'.ring = s.ring.beginFlush t links) → (s'.ram = s.ram) →
    (s'.evacuations =
      s.evacuations ++ s.collectEvacuationData H t.offset t.stop 0 candidates) → Effect H s e s'
  | flush :
    (s.ring.Step .flush s'.ring) → (s'.ring.dirs = s.ring.dirs) → (s'.ram = s.ram) →
    (s'.evacuations = s.evacuations) → Effect H s e s'
  | put (k d r m fate) (kept : Bool) (size) :
    (e.publication = some (k, r)) → (s.Places r size d) → (size = r.data.length ∨ size = sectors r.data.length) →
    (Formed H r.data ∨ ∃ v ∈ s.evacuations, r.data = v.data) →
    (s'.ring = s.ring.set k d r m fate) →
    (s'.ram = Function.update s.ram k (if kept then some (.new r.data) else none)) →
    (s'.evacuations = s.evacuations) → Effect H s e s'
  | close :
    (s'.ring = { s.ring with closed := true }) → (s'.ram = s.ram) →
    (s'.evacuations = s.evacuations) → Effect H s e s'

theorem Step.effect (h : Step H s e s') : Effect H s e s' := by
  cases h
  case begin t links candidates ht he h₁ h₂ hf hc _ =>
    exact .begin t links candidates (.begin t links ht he h₁ h₂ hf) ht hc rfl rfl rfl
  case refuse t ht ho => exact .flush (.refuse t ht ho) rfl rfl rfl
  case write t disk' ht h₁ h₂ => exact .flush (.write t disk' ht h₁ h₂) rfl rfl rfl
  case finish t ht => exact .flush (.finish t ht) rfl rfl rfl
  case fail t ht => exact .flush (.fail t ht) rfl rfl rfl
  case broken => exact .flush .broken rfl rfl rfl
  case publish i w idx r d fate kept _ _ _ hp hf _ =>
    exact .put _ d r _ fate kept _ rfl hp (.inr rfl) (.inl (formed_fragment hf)) rfl rfl rfl
  case refresh key _ _ r d fate kept _ _ _ _ _ hp hf =>
    exact .put key d r _ fate kept _ rfl hp (.inr rfl) (.inl (formed_fragment hf)) rfl rfl rfl
  case evacuate v _ r d fate kept hv _ _ _ _ _ _ _ hd hp =>
    exact .put v.key d r _ fate kept _ rfl hp (.inl rfl) (.inr ⟨v, hv, hd⟩) rfl rfl rfl
  case abort => exact .shrinks shrinks_abortLocked
  case openWrite => exact .shrinks shrinks_openWrite
  case remove => exact .shrinks shrinks_remove
  case purge => exact .shrinks shrinks_purgeSelector
  case removeLocked => exact .shrinks shrinks_removeLocked
  case disk => exact .close rfl rfl rfl
  case drop h => exact .shrinks h.shrinks
  all_goals exact .shrinks (.of_eq rfl rfl rfl)

namespace Effect

theorem bounds (h : Effect H s e s') :
    s'.ring.start = s.ring.start ∧ s'.ring.stop = s.ring.stop := by
  cases h
  case shrinks h => rw [h.ring]; exact ⟨rfl, rfl⟩
  case begin hr _ _ => rw [hr]; exact ⟨rfl, rfl⟩
  case flush hs _ _ _ => exact hs.bounds
  case put hr _ _ => rw [hr]; exact ⟨rfl, rfl⟩
  case close hr _ _ => rw [hr]; exact ⟨rfl, rfl⟩

-- A record is published in the directory and in memory, or nothing is added to them.
theorem put_or_below (h : Effect H s e s') :
    (∃ k d r m fate, ∃ kept : Bool, ∃ size, s.Places r size d ∧
      (size = r.data.length ∨ size = sectors r.data.length) ∧
      (Formed H r.data ∨ ∃ v ∈ s.evacuations, r.data = v.data) ∧
      s'.dirs = s.dirs.set k ⟨d, r, m⟩ fate ∧
      s'.ram = Function.update s.ram k (if kept then some (.new r.data) else none)) ∨
    s'.dirs.Below s.dirs ∧ ∀ k x, s'.ram k = some x → s.ram k = some x := by
  cases h
  case shrinks h => exact .inr ⟨h.dirs, h.ram⟩
  case begin hr hm _ =>
    rw [dirs, hr, hm]
    exact .inr ⟨Ring.below_beginFlush, fun _ _ => id⟩
  case flush _ hd hm _ =>
    rw [dirs, hd, hm]
    exact .inr ⟨.refl, fun _ _ => id⟩
  case put k d r m fate kept size _ hp hs hf hr hm _ =>
    rw [dirs, hr, hm]
    exact .inl ⟨k, d, r, m, fate, kept, size, hp, hs, hf, rfl, rfl⟩
  case close hr hm _ =>
    rw [dirs, hr, hm]
    exact .inr ⟨.refl, fun _ _ => id⟩

theorem copies (h : Effect H s e s') {v : EvacuationRecord} (hv : v ∈ s'.evacuations) :
    v ∈ s.evacuations ∨ ∃ x, Copied H s v x := by
  cases h
  case shrinks h => exact .inl (h.evacuations ▸ hv)
  case begin he =>
    rw [he, List.mem_append] at hv
    exact hv.imp_right copied_of_mem
  all_goals exact .inl (by simp_all)

end Effect

end Stripe
end Bakemono
