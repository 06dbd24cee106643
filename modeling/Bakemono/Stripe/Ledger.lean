import Bakemono.Stripe.Evacuate

namespace Bakemono

namespace Ring

variable {κ μ : Type} {s s' : Ring κ μ} {t : FlushTask} {r r' : Record}

-- The first task of a lap has removed the entries of its phase, but the lap has not begun.
def Turning (s : Ring κ μ) : Prop :=
  s.storageErr = true ∨ 0 < s.writingEnd ∧ s.writingGeneration = s.generation + 1

-- The entries of the generation of the record have been removed.
def Passed (s : Ring κ μ) (r : Record) : Prop :=
  r.generation + 2 ≤ s.generation ∨ r.generation + 1 = s.generation ∧ s.Turning

-- Nothing can be found at the place of the record any more.
def Dead (s : Ring κ μ) (r : Record) : Prop := s.storageErr = true ∨ ¬s.Live r

-- A record which can be published is the last one that was written at its offset.
theorem Layout.generation_le_of_valid (h : s.Layout)
    (hv : s.allocationValid r.allocation r.data.length = true) (hr : r' ∈ s.flushed)
    (ho : r'.offset = r.offset) : r'.generation ≤ r.generation := by
  have ⟨_, _, hpos, _, hg⟩ := h.placed r' hr
  have ⟨_, _, _, hv⟩ := allocationValid_iff.mp hv
  have hst : r'.stop = r'.offset + r'.data.length := rfl
  have hro : r.allocation.offset = r.offset := rfl
  have hrg : r.allocation.generation = r.generation := rfl
  omega

theorem Layout.allocationValid_of_live (h : s.Layout) (hp : s.Placed r) (hl : s.Live r) :
    s.allocationValid r.allocation r.data.length = true := by
  have ⟨hlo, hhi, hpos, _, hg⟩ := hp
  have hst : r.stop = r.allocation.offset + r.data.length := rfl
  have hro : r.offset = r.allocation.offset := rfl
  have hrg : r.generation = r.allocation.generation := rfl
  refine allocationValid_iff.mpr ⟨?_, hlo, hhi, ?_⟩
  case refine_1 =>
    cases ht : s.task
    case none => simp [h.idle ht]
    case some t =>
      have ⟨hws, hwe, _⟩ := h.busy t ht
      have := hl.2 t ht
      omega
  case refine_2 =>
    have := hl.1
    omega

theorem Passed.step [DecidableEq κ] (h : s.Passed r) (hl : s.Layout) (hs : s.Step .flush s') :
    s'.Passed r := by
  cases hs
  case begin t links ht he _ _ _ =>
    refine h.imp_right fun h => absurd h.2 ?_
    simp [Turning, he, hl.idle ht]
  case refuse => exact h.imp_right fun h => ⟨h.1, .inl rfl⟩
  case write => exact h
  case fail => exact h.imp_right fun h => ⟨h.1, .inl rfl⟩
  case broken => exact h.imp_right fun h => ⟨h.1, .inl rfl⟩
  case finish t ht =>
    have ⟨_, _, hwg, _, _, hf⟩ := hl.busy t ht
    have ho := hf.order
    have hg : (s.endFlush t).generation = t.generation := rfl
    rw [Passed, hg]
    obtain h | ⟨h, ht | ht⟩ := h
    case inl => exact .inl (by omega)
    case inr.inr => exact .inl (by omega)
    case inr.inl =>
      by_cases hn : t.generation = s.generation
      case pos => exact .inr ⟨by omega, .inl ht⟩
      case neg => exact .inl (by omega)

theorem Dead.step [DecidableEq κ] (h : s.Dead r) (hl : s.Layout) (hr : r ∈ s.flushed)
    (hs : s.Step .flush s') : s'.Dead r := by
  cases hs
  case begin t links ht _ _ _ _ => exact h.imp_right (mt fun hl => ⟨hl.1, by simp [ht]⟩)
  case refuse => exact .inl rfl
  case write => exact h
  case fail => exact .inl rfl
  case broken => exact .inl rfl
  case finish t ht => exact h.imp_right (mt fun hv => (hv.of_endFlush (hl.placed r hr) (hl.busy t ht) ht).1)

-- The entries which the beginning of a task takes away are those of a generation that is over.
theorem Inv.passed_begin (h : s.Inv) {links : κ → BitVec 16} {k : κ} {e : Entry (Record × μ)}
    (hf : t.Follows s.generation s.writePos) (he : s.dirs k = some e)
    (hn : (s.beginFlush t links).dirs k = none) : (s.beginFlush t links).Passed e.mark.1 := by
  have ⟨hd, hm, hr⟩ := h.entry k e he
  have ho := hf.order
  have hlt := hf.offset_lt_stop
  simp only [Ring.beginFlush] at hn
  split at hn
  case isFalse => simp [he] at hn
  case isTrue hg =>
    have hg : t.generation = s.generation + 1 := by omega
    have hp : e.dir.phase = odd t.generation := by
      by_contra hp
      simp [Table.removePhase, he, hp] at hn
    have hne : e.mark.1.generation ≠ s.generation := by
      intro hc
      simp [hd.phase, hc, hg, odd_succ] at hp
    have hturn : (s.beginFlush t links).Turning := .inr ⟨Nat.zero_lt_of_lt hlt, hg⟩
    exact .inr ⟨(hr.resolve_left hne).1, hturn⟩

end Ring

namespace Stripe

variable {H : Hash} {s s' s'' : Stripe} {e : Event} {k key : Bytes} {r : Record}

section Steps

-- The publications put their record at their key.
theorem Step.put (h : Step H s e s') (hp : e.publication = some (key, r)) :
    ∃ d m fate, ∃ kept : Bool, ∃ size, s.Places r size d ∧ s'.ring = s.ring.set key d r m fate ∧
      s'.ram = Function.update s.ram key (if kept then some (.new r.data) else none) := by
  cases h
  case publish i w idx r d fate kept _ _ _ hpl _ _ =>
    cases hp
    exact ⟨d, _, fate, kept, _, hpl, rfl, rfl⟩
  case refresh key _ _ r d fate kept _ _ _ _ _ hpl _ =>
    cases hp
    exact ⟨d, _, fate, kept, _, hpl, rfl, rfl⟩
  case evacuate v _ r d fate kept _ _ _ _ _ _ _ _ _ hpl =>
    cases hp
    exact ⟨d, _, fate, kept, _, hpl, rfl, rfl⟩
  all_goals cases hp

-- What a critical section that publishes nothing does to the writers: it opens one, or it takes
-- something away.
structure Staff (s s' : Stripe) : Prop where
  length  : s.writers.length ≤ s'.writers.length
  writers : ∀ (i : Nat) (w' : Writer), s'.writers[i]? = some w' → ∀ p ∈ w'.published,
    ∃ w : Writer, s.writers[i]? = some w ∧ w.key = w'.key ∧ p ∈ w.published
  entries : ∀ k j, s'.entries k = some j →
    s.entries k = some j ∨ s.writers.length ≤ j ∧ j < s'.writers.length

namespace Staff

theorem of_eq (hw : s'.writers = s.writers) (he : s'.entries = s.entries) : Staff s s' where
  length  := hw ▸ le_rfl
  writers := fun _ w' h _ hp => ⟨w', hw ▸ h, rfl, hp⟩
  entries := fun _ _ h => .inl (he ▸ h)

theorem trans (h : Staff s s') (h' : Staff s' s'') : Staff s s'' where
  length  := h.length.trans h'.length
  writers := by
    intro i w' hw p hp
    have ⟨w₁, hw₁, hk₁, hp₁⟩ := h'.writers i w' hw p hp
    have ⟨w₀, hw₀, hk₀, hp₀⟩ := h.writers i w₁ hw₁ p hp₁
    exact ⟨w₀, hw₀, hk₀.trans hk₁, hp₀⟩
  entries := by
    intro k j hj
    have hl := h.length
    have hl' := h'.length
    obtain hj | hj := h'.entries k j hj
    case inr => exact .inr (by omega)
    case inl => exact (h.entries k j hj).imp_right fun hj => by omega

theorem detach : Staff s (s.detach key) where
  length  := le_rfl
  writers := fun _ w' h _ hp => ⟨w', h, rfl, hp⟩
  entries := by
    intro k j h
    by_cases hk : k = key
    case pos => simp [Stripe.detach, hk] at h
    case neg => exact .inl (by simpa [Stripe.detach, hk] using h)

-- Replacing a writer by one that has published at most the same.
theorem set {i : Nat} {w w₁ : Writer} (hw : s.writers[i]? = some w) (hk : w₁.key = w.key)
    (hp : w₁.published ⊆ w.published) : Staff s { s with writers := s.writers.set i w₁ } where
  length  := by simp
  writers := by
    intro j w' h p hmem
    by_cases hj : i = j
    case pos =>
      subst hj
      have hlt := (List.getElem?_eq_some_iff.mp hw).1
      simp only [List.getElem?_set_self hlt, Option.some_inj] at h
      subst h
      exact ⟨w, hw, hk.symm, hp hmem⟩
    case neg =>
      rw [List.getElem?_set_ne hj] at h
      exact ⟨w', h, rfl, hmem⟩
  entries := fun _ _ => .inl

theorem removeLocked : Staff s (s.removeLocked H key) := by
  have h : Staff s { s.detach key with index := s.index.delete key } := detach.trans (.of_eq rfl rfl)
  have hd : Drops _ (removeFragments H key s.fragmentsNum 0
      { s.detach key with index := s.index.delete key }) := drops_removeFragments
  exact h.trans (.of_eq (by rw [Stripe.removeLocked, hd.rest]) (by rw [Stripe.removeLocked, hd.rest]))

theorem purge {keys : List Bytes} : Staff s (keys.foldl (Stripe.removeLocked H) s) := by
  induction keys generalizing s
  case nil => exact .of_eq rfl rfl
  case cons k keys hi => exact removeLocked.trans hi

theorem abortLocked {i : Nat} {w : Writer} (hw : s.writers[i]? = some w) :
    Staff s (s.abortLocked i w) := by
  have hd := Drops.foldl (s := s) (fun _ => drops_retract) w.published
  have h₁ : Staff s (w.published.foldl retract s) := .of_eq (by rw [hd.rest]) (by rw [hd.rest])
  have h₂ : Staff s ((w.published.foldl retract s).disown i w) := by
    refine h₁.trans ?_
    unfold disown
    split
    all_goals exact .of_eq rfl rfl
  have hw' : ((w.published.foldl retract s).disown i w).writers[i]? = some w := by
    have he : ((w.published.foldl retract s).disown i w).writers = s.writers := by
      unfold disown
      split
      all_goals rw [hd.rest]
    rw [he, hw]
  exact h₂.trans (set hw' rfl (List.nil_subset _))

theorem openWrite {w : Writer} (hw : w.published = []) : Staff s (s.openWrite w) := by
  unfold Stripe.openWrite
  split
  case h_1 => exact .of_eq rfl rfl
  case h_2 index _ =>
    constructor
    case length => simp [forget, delete]
    case writers =>
      intro i w' h p hp
      have h : (s.writers ++ [w])[i]? = some w' := h
      by_cases hi : i < s.writers.length
      case pos => exact ⟨w', by rwa [List.getElem?_append_left hi] at h, rfl, hp⟩
      case neg =>
        rw [List.getElem?_append_right (Nat.le_of_not_lt hi)] at h
        have h := List.mem_singleton.mp (List.mem_of_getElem? h)
        simp [h, hw] at hp
    case entries =>
      intro k j h
      have h : Function.update s.entries w.key (some s.writers.length) k = some j := h
      by_cases hk : k = w.key
      case pos =>
        rw [hk, Function.update_self] at h
        cases h
        exact .inr ⟨le_rfl, by simp [forget, delete]⟩
      case neg => exact .inl (by rwa [Function.update_of_ne hk] at h)

end Staff

theorem Step.staff (h : Step H s e s') (hp : e.publication = none) : Staff s s' := by
  cases h
  case publish => cases hp
  case refresh => cases hp
  case evacuate => cases hp
  case abort i w hw _ => exact .abortLocked hw
  case close i w hw _ => exact .set hw rfl (List.Subset.refl _)
  case release => exact .detach
  case openWrite hw _ => exact .openWrite hw
  case remove key _ =>
    have h : Staff s { s.advance with removals := s.removals + 1 } := .of_eq rfl rfl
    exact h.trans .removeLocked
  case purge =>
    have h : Staff s { s.advance with removals := s.removals + 1 } := .of_eq rfl rfl
    exact h.trans .purge
  case removeLocked => exact .removeLocked
  case abortOpenWriters => exact ⟨le_rfl, fun _ w' h _ hp => ⟨w', h, rfl, hp⟩, nofun⟩
  case drop h => exact .of_eq (by rw [h.rest]) (by rw [h.rest])
  all_goals exact .of_eq rfl rfl

end Steps

-- Who has published a record, and under which key. The owner is the number of a writer and the key of
-- its object. `UpdateHTTPInfo` and `evacuate` are not writers.
structure Publication where
  owner  : Option (Nat × Bytes)
  key    : Bytes
  record : Record

-- A stripe and its history: the publications, the latest of which comes first, and the generation of
-- the ring at the time a writer was opened.
structure Ledger where
  stripe       : Stripe
  publications : List Publication
  opened       : Nat → Nat

-- The directory is an exact map: it loses entries by deletions only, which also forget the memory of
-- the key.
def Exact (s s' : Stripe) : Prop := ∀ k, s.dirs k ≠ none → s'.dirs k = none → s'.ram k = none

namespace Ledger

variable {l l' l₀ : Ledger} {q q' : Publication} {i j : Nat} {w : Writer}

-- What is found in the directory and in memory has been published last.
def last (l : Ledger) (k : Bytes) : Option Publication := l.publications.find? (·.key = k)

def Unused (l : Ledger) (r : Record) : Prop := ∀ q ∈ l.publications, q.record ≠ r

def next (l : Ledger) (s' : Stripe) : Ledger where
  stripe       := s'
  publications := l.publications
  opened i     := if i < l.stripe.writers.length then l.opened i else l.stripe.ring.generation

def enter (l : Ledger) (q : Publication) (s' : Stripe) : Ledger :=
  { l.next s' with publications := q :: l.publications }

-- The critical sections of a stripe. A record is published once and by the one who has added it to
-- the log, which a writer does after it has been opened.
inductive Step (H : Hash) (l : Ledger) : Event → Ledger → Prop
  | flush (s' : Stripe) : (Stripe.Step H l.stripe .flush s') → Step H l .flush (l.next s')
  | other (e : Event) (s' : Stripe) :
    (Stripe.Step H l.stripe e s') → (e.publication = none) → (Exact l.stripe s') →
    Step H l e (l.next s')
  | publish (i : Nat) (w : Writer) (idx : Nat) (r : Record) (d : Dir) (fate : Table.Fate Bytes) (kept : Bool) :
    (Stripe.Step H l.stripe (.publish (H.fragmentKey w.key idx) r)
      (l.stripe.publish H i w idx r d fate kept)) →
    (l.stripe.writers[i]? = some w) → (l.stripe.Admits H i w) → (l.opened i ≤ r.generation) →
    (l.Unused r) → (Exact l.stripe (l.stripe.publish H i w idx r d fate kept)) →
    Step H l (.publish (H.fragmentKey w.key idx) r)
      (l.enter ⟨some (i, w.key), H.fragmentKey w.key idx, r⟩ (l.stripe.publish H i w idx r d fate kept))
  | copy (e : Event) (key : Bytes) (r : Record) (s' : Stripe) :
    (Stripe.Step H l.stripe e s') → (e.publication = some (key, r)) →
    (s'.writers = l.stripe.writers) → (s'.entries = l.stripe.entries) → (l.Unused r) →
    (Exact l.stripe s') → Step H l e (l.enter ⟨none, key, r⟩ s')

-- What is known about an earlier publication.
structure After (q q' : Publication) : Prop where
  record : q'.record ≠ q.record
  lap    : q'.record.offset = q.record.offset → q'.record.generation ≤ q.record.generation
  rival  : ∀ i j o, q.owner = some (j, o) → q'.owner = some (i, o) → i ≠ j →
    q'.record.generation ≤ q.record.generation

structure Inv (H : Hash) (l : Ledger) : Prop where
  traced   : l.stripe.Traced H
  order    : l.publications.Pairwise After
  flushed  : ∀ q ∈ l.publications, q.record ∈ l.stripe.ring.flushed
  entries  : ∀ k e q, l.stripe.dirs k = some e → l.last k = some q → e.mark.1 = q.record
  writers  : ∀ (i : Nat) (w : Writer), l.stripe.writers[i]? = some w → ∀ p ∈ w.published,
    ⟨some (i, w.key), p.1, p.2⟩ ∈ l.publications
  attached : ∀ k j, l.stripe.entries k = some j → j < l.stripe.writers.length ∧
    ∀ q ∈ l.publications, ∀ i, q.owner = some (i, k) → i ≠ j → q.record.generation ≤ l.opened j
  memory   : ∀ k, l.stripe.ram k ≠ none → ∃ q, l.last k = some q ∧
    (l.stripe.dirs k = none → l.stripe.ring.Passed q.record)

section Last

theorem last_enter : (l.enter q s').last k = if q.key = k then some q else l.last k := by
  simp only [last, enter, List.find?_cons]
  by_cases hk : q.key = k
  case pos => simp [hk]
  case neg => simp [hk]

theorem mem_of_last (h : l.last k = some q) : q ∈ l.publications ∧ q.key = k :=
  ⟨List.mem_of_find?_eq_some h, by simpa using List.find?_some h⟩

-- The last publication of a key comes after all others.
theorem after_last (ho : l.publications.Pairwise After) (hl : l.last k = some q)
    (hq : q' ∈ l.publications) (hk : q'.key = k) : q' = q ∨ After q q' := by
  have ⟨_, as, bs, hs, hn⟩ := List.find?_eq_some_iff_append.mp hl
  rw [hs] at hq ho
  have hm : q' ∉ as := fun hm => by simpa [hk] using hn q' hm
  cases (List.mem_append.mp hq).resolve_left hm
  case head => exact .inl rfl
  case tail hm =>
    have hp := (List.pairwise_append.mp ho).2.1
    exact .inr ((List.pairwise_cons.mp hp).1 q' hm)

end Last

theorem Inv.generation_le (h : l.Inv H) (hq : q ∈ l.publications) :
    q.record.generation ≤ l.stripe.ring.generation := by
  have ⟨_, _, _, _, hg⟩ := h.traced.ring.placed _ (h.flushed q hq)
  omega

-- The generation at which a writer was opened stays, and no later one has been entered for it.
theorem attached_next (h : l.Inv H) (hs : Staff l.stripe s') {k : Bytes} (hj : s'.entries k = some j) :
    j < s'.writers.length ∧
    ∀ q ∈ l.publications, ∀ i, q.owner = some (i, k) → i ≠ j →
      q.record.generation ≤ (l.next s').opened j := by
  have hlen := hs.length
  obtain hj | ⟨hj, hlt⟩ := hs.entries k j hj
  case inl =>
    have ⟨hlt, hq⟩ := h.attached k j hj
    refine ⟨by omega, fun q hm i ho hne => ?_⟩
    simp only [next, if_pos hlt]
    exact hq q hm i ho hne
  case inr =>
    refine ⟨hlt, fun q hm i _ _ => ?_⟩
    simp only [next, if_neg (Nat.not_lt.mpr hj)]
    exact h.generation_le hm

theorem writers_next (h : l.Inv H) (hs : Staff l.stripe s') {w' : Writer}
    (hw : s'.writers[i]? = some w') {p : Bytes × Record} (hp : p ∈ w'.published) :
    ⟨some (i, w'.key), p.1, p.2⟩ ∈ l.publications := by
  have ⟨w, hw, hk, hp⟩ := hs.writers i w' hw p hp
  exact hk ▸ h.writers i w hw p hp

-- What a critical section that publishes nothing does to the ring.
theorem passed_effect (he : Effect H s e s') (hp : e.publication = none) (h : s.ring.Inv) (hr : r ∈ s.ring.flushed) :
    (s.ring.Passed r → s'.ring.Passed r) ∧ (s.ring.Dead r → s'.ring.Dead r) := by
  cases he
  case shrinks hs => rw [hs.ring]; exact ⟨id, id⟩
  case begin hs _ _ hr' _ _ => rw [hr']; exact ⟨fun h' => h'.step h.toLayout hs, fun h' => h'.step h.toLayout hr hs⟩
  case flush hs _ _ _ => exact ⟨fun h' => h'.step h.toLayout hs, fun h' => h'.step h.toLayout hr hs⟩
  case put he _ _ _ _ _ _ => simp [hp] at he
  case close hr' _ _ => rw [hr']; exact ⟨id, id⟩

theorem below_effect (he : Effect H s e s') (hp : e.publication = none) :
    s'.dirs.Below s.dirs ∧ ∀ k x, s'.ram k = some x → s.ram k = some x := by
  cases he
  case shrinks h => exact ⟨h.dirs, h.ram⟩
  case begin hr hm _ =>
    rw [dirs, hr, hm]
    exact ⟨Ring.below_beginFlush, fun _ _ => id⟩
  case flush _ hd hm _ =>
    rw [dirs, hd, hm]
    exact ⟨.refl, fun _ _ => id⟩
  case put he _ _ _ _ _ _ => simp [hp] at he
  case close hr hm _ =>
    rw [dirs, hr, hm]
    exact ⟨.refl, fun _ _ => id⟩

-- Entries that a task takes away belong to a generation which is over.
theorem passed_flush (hs : Stripe.Step H s .flush s') (h : s.ring.Inv) {x : Entry (Record × Mark)}
    (hx : s.dirs k = some x) (hn : s'.dirs k = none) : s'.ring.Passed x.mark.1 := by
  cases hs
  case begin t links candidates _ _ _ _ hf _ _ => exact h.passed_begin hf hx hn
  all_goals exact absurd (hx.symm.trans hn) nofun

theorem Inv.next (h : l.Inv H) (hs : Stripe.Step H l.stripe e s') (hp : e.publication = none)
    (ha : ¬e.Aliases l.stripe)
    (hlost : ∀ k x, l.stripe.dirs k = some x → s'.dirs k = none → s'.ram k ≠ none →
      s'.ring.Passed x.mark.1) : (l.next s').Inv H := by
  have he := hs.effect
  have hstaff := hs.staff hp
  have ⟨hd, hm⟩ := below_effect he hp
  have ⟨_, _, hf⟩ := h.traced.ring_effect he ha
  constructor
  case traced => exact h.traced.step hs ha
  case order => exact h.order
  case flushed => exact fun q hq => hf (h.flushed q hq)
  case entries =>
    intro k x' q hx' hq
    have ⟨x, _, hx, hr⟩ := hd k x' hx'
    rw [hr]
    exact h.entries k x q hx hq
  case writers => exact fun i w' hw p hp => writers_next h hstaff hw hp
  case attached => exact fun k j hj => attached_next h hstaff hj
  case memory =>
    intro k hk
    have ⟨m, hk'⟩ := Option.ne_none_iff_exists'.mp hk
    have ⟨q, hq, hpass⟩ := h.memory k (by simp [hm k m hk'])
    refine ⟨q, hq, fun hn => ?_⟩
    cases hx : l.stripe.dirs k
    case none => exact (passed_effect he hp h.traced.ring (h.flushed q (mem_of_last hq).1)).1 (hpass hx)
    case some x => exact h.entries k x q hx hq ▸ hlost k x hx hn hk

theorem Inv.enter (h : l.Inv H) (hs : Stripe.Step H l.stripe e s')
    (hp : e.publication = some (q.key, q.record)) (ha : ¬e.Aliases l.stripe) (hu : l.Unused q.record)
    (hx : Exact l.stripe s')
    (hrival : ∀ q' ∈ l.publications, ∀ i j o, q.owner = some (j, o) → q'.owner = some (i, o) → i ≠ j →
      q'.record.generation ≤ q.record.generation)
    (hw : ∀ (i : Nat) (w : Writer), s'.writers[i]? = some w → ∀ p ∈ w.published,
      ⟨some (i, w.key), p.1, p.2⟩ ∈ q :: l.publications)
    (he : s'.entries = l.stripe.entries) (hl : s'.writers.length = l.stripe.writers.length)
    (hown : ∀ k i j, l.stripe.entries k = some j → q.owner = some (i, k) → i = j) :
    (l.enter q s').Inv H := by
  obtain ⟨d, m, fate, kept, size, hplaces, hring, hram⟩ := hs.put hp
  have hdirs : s'.dirs = l.stripe.dirs.set q.key ⟨d, q.record, m⟩ fate := by rw [dirs, hring]; rfl
  constructor
  case traced => exact h.traced.step hs ha
  case order =>
    refine List.pairwise_cons.mpr ⟨fun q' hq' => ⟨hu q' hq', ?_, hrival q' hq'⟩, h.order⟩
    exact h.traced.ring.toLayout.generation_le_of_valid hplaces.allocation (h.flushed q' hq')
  case flushed =>
    have hf : s'.ring.flushed = l.stripe.ring.flushed := by rw [hring]; rfl
    intro q' hq'
    show _ ∈ s'.ring.flushed
    rw [hf]
    cases hq'
    case head => exact hplaces.flushed
    case tail hq' => exact h.flushed q' hq'
  case entries =>
    intro k x q' hx hq'
    rw [last_enter] at hq'
    cases Table.of_set (hdirs ▸ hx)
    case inl hk =>
      rw [if_pos hk.1.symm] at hq'
      cases hq'
      rw [hk.2]
    case inr hk =>
      obtain ⟨hk, x₀, _, hx₀, hr⟩ := hk
      rw [if_neg (Ne.symm hk)] at hq'
      rw [hr]
      exact h.entries k x₀ q' hx₀ hq'
  case writers => exact hw
  case attached =>
    intro k j hj
    have hj : l.stripe.entries k = some j := he ▸ hj
    obtain ⟨hlt, hq⟩ := h.attached k j hj
    have ho : (l.enter q s').opened j = l.opened j := if_pos hlt
    refine ⟨hl ▸ hlt, fun q' hq' i hi hne => ?_⟩
    rw [ho]
    cases hq'
    case head => exact absurd (hown k i j hj hi) hne
    case tail hq' => exact hq q' hq' i hi hne
  case memory =>
    intro k hk
    rw [last_enter]
    by_cases hkey : q.key = k
    case pos =>
      refine ⟨q, if_pos hkey, fun hn => ?_⟩
      have hn : s'.dirs k = none := hn
      rw [hdirs, ← hkey, Table.set_self] at hn
      cases hn
    case neg =>
      rw [if_neg hkey]
      have hk' : l.stripe.ram k ≠ none := by
        have hk : s'.ram k ≠ none := hk
        rwa [hram, Function.update_of_ne (Ne.symm hkey)] at hk
      obtain ⟨q', hq', hpass⟩ := h.memory k hk'
      refine ⟨q', hq', fun hn => ?_⟩
      have hd : l.stripe.dirs k = none := by
        by_contra hd
        exact hk (hx k hd hn)
      show s'.ring.Passed _
      rw [hring]
      exact hpass hd

theorem Inv.step (h : l.Inv H) (hs : Step H l e l') (ha : ¬e.Aliases l.stripe) : l'.Inv H := by
  cases hs
  case flush s' hs => exact h.next hs rfl ha fun k x hx hn _ => passed_flush hs h.traced.ring hx hn
  case other s' hx hs hp =>
    exact h.next hs hp ha fun k x hd hn hm => absurd (hx k (by simp [hd]) hn) hm
  case publish i w idx r d fate kept hs hw hadm hopen hu hx =>
    apply h.enter hs rfl ha hu hx
    case hrival =>
      rintro q' hq' i' j o ⟨⟩ ho hne
      exact ((h.attached w.key i hadm.entry).2 q' hq' i' ho hne).trans hopen
    case hw =>
      intro j w' hw' p hp
      have hlt := (List.getElem?_eq_some_iff.mp hw).1
      have hw' : (l.stripe.writers.set i
          { w with published := w.published ++ [(H.fragmentKey w.key idx, r)] })[j]? = some w' := hw'
      by_cases hj : i = j
      case pos =>
        subst hj
        rw [List.getElem?_set_self hlt] at hw'
        cases hw'
        cases List.mem_append.mp hp
        case inl hp => exact .tail _ (h.writers i w hw p hp)
        case inr hp =>
          cases List.mem_singleton.mp hp
          exact .head _
      case neg =>
        rw [List.getElem?_set_ne hj] at hw'
        exact .tail _ (h.writers j w' hw' p hp)
    case he => rfl
    case hl => exact List.length_set
    case hown =>
      rintro k i' j hj ⟨⟩
      exact Option.some_inj.mp (hadm.entry.symm.trans hj)
  case copy key r s' hw he hu hx hs hp =>
    apply h.enter hs hp ha hu hx
    case hrival => exact fun _ _ _ _ _ => nofun
    case hw => exact fun i w hw' p hp' => .tail _ (h.writers i w (hw ▸ hw') p hp')
    case he => exact he
    case hl => rw [hw]
    case hown => exact fun _ _ _ _ => nofun

-- A stripe that has just been opened.
structure Opened (H : Hash) (l : Ledger) : Prop where
  stripe       : l.stripe.Opened H
  publications : l.publications = []
  writers      : l.stripe.writers = []
  entries      : ∀ k, l.stripe.entries k = none

theorem Opened.inv (h : l.Opened H) : l.Inv H where
  traced   := h.stripe.traced
  order    := by simp [h.publications]
  flushed  := by simp [h.publications]
  entries  := by simp [last, h.publications]
  writers  := by simp [h.writers]
  attached := by simp [h.entries]
  memory   := by simp [h.stripe.ram]

theorem Opened.run (h₀ : l₀.Opened H) (h : Run (Step H) (fun l e => ¬e.Aliases l.stripe) l₀ l) :
    l.Inv H :=
  h.invariant (fun _ _ _ => Inv.step) h₀.inv

end Ledger
end Stripe
end Bakemono
