import Bakemono.Directory.Mirror
import Bakemono.Stripe.Effect

namespace Bakemono

namespace Stripe

section Calls

variable (H : Hash)

-- The entries as the directory links them.
def follow (s : Stripe) (dm : DirManager) : Stripe :=
  { s with ring := { s.ring with dirs := s.dirs.evict (dm.fate H) } }

-- What the critical sections ask of the directory.

def abortCalls (s : Stripe) (w : Writer) : List Call :=
  (w.published.filter fun p => s.ring.allocationValid p.2.allocation p.2.data.length).map fun p =>
    .op (.deleteAt p.1 p.2.offset)

def removeCalls (key : Bytes) : Nat → Nat → Table Bytes (Record × Mark) → List Call
  | 0,     _,   _ => []
  | n + 1, idx, t =>
    let k := H.fragmentKey key idx
    .get k ::
      if t k = none then [] else .op (.delete k) :: removeCalls key n (idx + 1) (t.exec (.op (.delete k)))

def removeLockedCalls (s : Stripe) (key : Bytes) : List Call := removeCalls H key s.fragmentsNum 0 s.dirs

def removalCalls (n : Nat) : List Bytes → Table Bytes (Record × Mark) → List Call
  | [],          _ => []
  | key :: keys, t =>
    removeCalls H key n 0 t ++ removalCalls n keys (t.run (removeCalls H key n 0 t))

def purgeCalls (s : Stripe) (selector : Bytes) (asPrefix : Bool) : List Call :=
  let keys :=
    if asPrefix then s.index.get selector
    else s.index.keysForSelector selector ++ s.index.get (rangePrefix selector)
  removalCalls H s.fragmentsNum keys s.dirs

-- An index which is full is pruned.
def openWriteCalls (s : Stripe) (w : Writer) : List Call :=
  let pruned :=
    match s.index.setIdentity w.key w.selector with
    | .error .indexFull => s.index.keys.filter fun k => s.entries k = none
    | _                 => []
  pruned.map .get ++
    if (s.reserveIdentityLocked w.key w.selector).1 = none then [.op (.delete w.key)] else []

-- The calls of a critical section that leaves the given directory behind.
inductive Calls (dm : DirManager) (s : Stripe) : Event → Stripe → List Call → Prop
  | none (e s') : (e.publication = .none) → (s'.dirs = s.dirs) → Calls dm s e s' []
  | begin (t links) (candidates : List (Bytes × Nat)) :
    Calls dm s .flush
      { s with
        ring        := s.ring.beginFlush t links
        evacuations := s.evacuations ++ s.collectEvacuationData H t.offset t.stop 0 candidates }
      ((candidates.map Prod.fst).map .get ++
        if t.generation ≠ s.ring.generation then [.op (.removePhase (odd t.generation))] else [])
  | publish (i w idx r kept rand key) :
    (key = H.fragmentKey w.key idx) →
    Calls dm s (.publish key r) (s.publish H i w idx r (dm.get H key).dir (dm.fate H) kept)
      ((if idx = 0 then w.published.map Prod.fst else []).map .get ++
        [.op (.set key r.offset (sectors r.data.length) (odd r.generation) rand)])
  | refresh (key tails r m kept rand) :
    Calls dm s (.publish key r) (s.put key (dm.get H key).dir r m (dm.fate H) kept)
      ((key :: tails).map .get ++
        [.op (.set key r.offset (sectors r.data.length) (odd r.generation) rand)])
  | evacuate (v r kept rand) :
    Calls dm s (.evacuate v r) (s.put v.key (dm.get H v.key).dir r v.mark (dm.fate H) kept)
      ([v.key].map .get ++ [.op (.set v.key r.offset r.data.length (odd r.generation) rand)])
  | abort (i w) : Calls dm s .other (s.abortLocked i w) (s.abortCalls w)
  | openWrite (w) :
    Calls dm s (.openWrite w.key w.selector) (s.openWrite w) (s.openWriteCalls w)
  | remove (key) : Calls dm s .other (s.remove H key) (s.removeLockedCalls H key)
  | purge (selector asPrefix) :
    Calls dm s (.purge selector asPrefix) (s.purgeSelector H selector asPrefix)
      (s.purgeCalls H selector asPrefix)
  | removeLocked (key) : Calls dm s .other (s.removeLocked H key) (s.removeLockedCalls H key)

end Calls

variable {H : Hash} {K : KeySpace H} {s s' : Stripe} {e : Event} {key : Bytes} {i : Nat} {w : Writer}
  {calls : List Call} {dm dm' : DirManager}

theorem drops_follow : Drops s (s.follow H dm) := ⟨rfl, Table.below_evict _, fun _ _ => id⟩

-- Entries which are linked as in the directory stay as they are.
theorem follow_eq (h : ∀ k x, s.dirs k = some x → dm.shown H k = some x.dir) : s.follow H dm = s := by
  have hd : s.dirs.evict (dm.fate H) = s.ring.dirs := by
    funext k
    cases hx : s.dirs k
    case none => rw [Table.evict, hx]; exact hx.symm
    case some x =>
      have : s.ring.dirs k = some x := hx
      simp [Table.evict, hx, this, DirManager.fate, h k x hx, Entry.relink]
  rw [follow, hd]

section Effect

-- The directory is changed as the calls say.

theorem dirs_retracts_run (ps : List (Bytes × Record)) :
    (ps.foldl retract s).dirs = s.dirs.run
      ((ps.filter fun p => s.ring.allocationValid p.2.allocation p.2.data.length).map fun p =>
        .op (.deleteAt p.1 p.2.offset)) := by
  induction ps generalizing s
  case nil => rfl
  case cons p ps hi =>
    have hd := drops_retract (s := s) p
    have hv (a : Allocation) (n : Nat) :
        (s.retract p).ring.allocationValid a n = s.ring.allocationValid a n := by
      rw [hd.rest]
      rfl
    rw [List.foldl_cons, hi, List.filter_cons]
    simp only [hv]
    split
    case isFalse hv => rw [retract, if_pos hv]
    case isTrue hv =>
      rw [List.map_cons, Table.run_cons, retract, if_neg (not_not.mpr hv), Table.exec]
      congr 1
      cases hx : s.dirs p.1
      case none => rfl
      case some x =>
        simp only [Option.any_some, decide_eq_true_eq, Nat.cast_inj]
        split
        all_goals rfl

theorem dirs_abortLocked : (s.abortLocked i w).dirs = (w.published.foldl retract s).dirs := by
  simp only [abortLocked, disown]
  split
  all_goals rfl

theorem dirs_removeFragments (n idx : Nat) :
    (removeFragments H key n idx s).dirs = s.dirs.run (removeCalls H key n idx s.dirs) := by
  induction n generalizing idx s
  case zero => rfl
  case succ n hi =>
    rw [removeFragments, removeCalls]
    split
    case isTrue => rfl
    case isFalse => exact hi _

theorem dirs_removeLocked_run : (s.removeLocked H key).dirs = s.dirs.run (s.removeLockedCalls H key) :=
  dirs_removeFragments ..

theorem fragmentsNum_removeLocked : (s.removeLocked H key).fragmentsNum = s.fragmentsNum := by
  have hd : Drops _ (s.removeLocked H key) := drops_removeFragments
  rw [hd.rest]
  rfl

theorem dirs_removals_run (keys : List Bytes) :
    (keys.foldl (Stripe.removeLocked H) s).dirs =
      s.dirs.run (removalCalls H s.fragmentsNum keys s.dirs) := by
  induction keys generalizing s
  case nil => rfl
  case cons key keys hi =>
    rw [List.foldl_cons, hi, fragmentsNum_removeLocked, dirs_removeLocked_run, removalCalls, Table.run_append,
      removeLockedCalls]

theorem run_gets {t : Table Bytes (Record × Mark)} (keys : List Bytes) : t.run (keys.map .get) = t := by
  induction keys
  case nil => rfl
  case cons hi => exact hi

theorem dirs_openWrite_run : (s.openWrite w).dirs = s.dirs.run (s.openWriteCalls w) := by
  rw [openWriteCalls, Table.run_append, run_gets, openWrite]
  cases hr : s.reserveIdentityLocked w.key w.selector with | mk err index =>
  cases err
  case none => rfl
  case some => rfl

-- No removal inserts anything.

theorem isSet_removeCalls (n idx : Nat) (t : Table Bytes (Record × Mark)) :
    ∀ c ∈ removeCalls H key n idx t, c.IsSet = false := by
  induction n generalizing idx t
  case zero => exact fun c hc => absurd hc List.not_mem_nil
  case succ n hi =>
    rw [removeCalls]
    split
    case isTrue => simp [Call.IsSet]
    case isFalse => exact List.forall_mem_cons.mpr ⟨rfl, List.forall_mem_cons.mpr ⟨rfl, hi _ _⟩⟩

theorem isSet_removalCalls (n : Nat) (keys : List Bytes) (t : Table Bytes (Record × Mark)) :
    ∀ c ∈ removalCalls H n keys t, c.IsSet = false := by
  induction keys generalizing t
  case nil => exact fun c hc => absurd hc List.not_mem_nil
  case cons key keys hi =>
    exact fun c hc => (List.mem_append.mp hc).elim (isSet_removeCalls _ _ _ c) (hi _ c)

theorem isSet_gets_append (keys : List Bytes) (h : ∀ c ∈ calls, c.IsSet = false) :
    ∀ c ∈ keys.map .get ++ calls, c.IsSet = false := by
  intro c hc
  rcases List.mem_append.mp hc with hc | hc
  case inl =>
    obtain ⟨k, _, rfl⟩ := List.mem_map.mp hc
    rfl
  case inr => exact h c hc

end Effect

end Stripe

open DirManager (Performs)

theorem DirManager.Agrees.congr {μ : Type} {H : Hash} {K : KeySpace H} {dm : DirManager}
    {t t' : Table Bytes μ} (h : dm.Agrees K t)
    (he : ∀ k, (t' k).map (·.dir.setNext 0) = (t k).map (·.dir.setNext 0)) : dm.Agrees K t' :=
  ⟨h.sound, h.named, fun k hk => (he k).trans (h.dirs k hk)⟩

namespace Stripe

variable {H : Hash} {K : KeySpace H} {s s' : Stripe} {e : Event} {key : Bytes} {calls : List Call}
  {dm dm' : DirManager}

section Insertion

variable {keys : List Bytes} {off size : Nat} {phase : Bool} {rand : Nat → Fin 10}

-- An insertion after some lookups.
theorem performs_set (hp : Performs K (keys.map .get ++ [.op (.set key off size phase rand)]) dm dm') :
    (∀ k ∈ keys, k ∈ K.keys) ∧ key ∈ K.keys ∧ (0 < off ∧ off < 2 ^ 40) ∧ (0 < size ∧ size ≤ DirMaxDataSize) ∧
      ∃ i, dm.set H key off size phase rand = .ok (i, dm') := by
  obtain ⟨dm₁, h₁, h₂⟩ := hp.split
  have hk := h₁.mem_keys
  cases h₁.gets
  cases h₂ with | op hkey hr _ he h₂ =>
  cases h₂
  obtain ⟨⟨i, dm₂⟩, hset, hd⟩ := Except.map_eq_ok.mp he
  cases hd
  exact ⟨hk, hkey key rfl, hr.1, hr.2, i, hset⟩

theorem agrees_set (h : dm.Agrees K s.dirs)
    (hp : Performs K (keys.map .get ++ [.op (.set key off size phase rand)]) dm dm')
    (m : Record × Mark) :
    dm'.Agrees K (s.dirs.set key ⟨(dm'.get H key).dir, m⟩ (dm'.fate H)) := by
  obtain ⟨_, hk, ho, hz, _, hset⟩ := performs_set hp
  exact h.set hk ho hz hset m

-- The entry that the directory makes.
theorem get_performs_set (hs : dm.Sound)
    (hp : Performs K (keys.map .get ++ [.op (.set key off size phase rand)]) dm dm') :
    ∃ d, Dir.make off size (dm.position H key).tag phase = some d ∧
      (dm'.get H key).dir = d.setNext (dm'.get H key).dir.next := by
  obtain ⟨_, _, ho, hz, _, hset⟩ := performs_set hp
  obtain ⟨d, hm, _, hdir⟩ := DirManager.get_set hs.shape hs.chained ho hz hset
  exact ⟨d, hm.made, by rw [← hdir]; rfl⟩

-- It is one that the stripe expects.
theorem places_set {r : Record} (hs : dm.Sound)
    (hr : r ∈ s.ring.flushed) (ha : s.ring.allocationValid r.allocation r.data.length = true)
    (hp : Performs K (keys.map .get ++ [.op (.set key r.offset size (odd r.generation) rand)]) dm dm') :
    s.Places r size (dm'.get H key).dir := by
  obtain ⟨d, hm, hdir⟩ := get_performs_set hs hp
  exact ⟨hr, ha, _, d, _, H.tag_lt key .., hm, hdir⟩

end Insertion

theorem agrees_abortLocked {i : Nat} {w : Writer} (h : dm.Agrees K s.dirs)
    (hp : Performs K (s.abortCalls w) dm dm') : dm'.Agrees K (s.abortLocked i w).dirs := by
  rw [dirs_abortLocked, dirs_retracts_run]
  refine h.performs hp fun c hc => ?_
  obtain ⟨p, _, rfl⟩ := List.mem_map.mp hc
  rfl

-- What the stripe knows about its entries is true of the directory after a critical section.
theorem Calls.agrees (hc : Calls H dm' s e s' calls) (h : dm.Agrees K s.dirs)
    (hp : Performs K calls dm dm') : dm'.Agrees K s'.dirs := by
  cases hc
  case none _ hd =>
    cases hp
    exact hd ▸ h
  case begin t links candidates =>
    have hq : ∀ c ∈ (if t.generation ≠ s.ring.generation then
        [Call.op (.removePhase (odd t.generation))] else []), c.IsSet = false := by
      split
      case isTrue => simp [Call.IsSet]
      case isFalse => simp
    have hr := h.performs hp (isSet_gets_append _ hq)
    rw [Table.run_append, run_gets] at hr
    refine hr.congr fun k => ?_
    show ((s.ring.beginFlush t links).dirs k).map _ = _
    rw [Ring.beginFlush]
    split
    case isFalse => rfl
    case isTrue =>
      simp only [Table.removePhase, Option.map_map]
      rfl
  case publish hk =>
    rw [dirs_publish, ← hk]
    exact agrees_set h hp _
  case refresh => exact agrees_set h hp _
  case evacuate => exact agrees_set h hp _
  case abort => exact agrees_abortLocked h hp
  case openWrite w =>
    rw [dirs_openWrite_run]
    refine h.performs hp (isSet_gets_append _ ?_)
    split
    case isTrue => simp [Call.IsSet]
    case isFalse => simp
  case remove => exact dirs_removeLocked_run (H := H) ▸ h.performs hp (isSet_removeCalls _ _ _)
  case purge => exact dirs_removals_run (H := H) _ ▸ h.performs hp (isSet_removalCalls _ _ _)
  case removeLocked => exact dirs_removeLocked_run (H := H) ▸ h.performs hp (isSet_removeCalls _ _ _)

-- The key of a publication is in use.
theorem Calls.key_mem {r : Record} (hc : Calls H dm' s e s' calls) (h : Performs K calls dm dm')
    (hp : e.publication = some (key, r)) : key ∈ K.keys := by
  cases hc
  case none hn _ => cases hn.symm.trans hp
  case publish => cases hp; exact (performs_set h).2.1
  case refresh => cases hp; exact (performs_set h).2.1
  case evacuate => cases hp; exact (performs_set h).2.1
  all_goals cases hp

end Stripe

-- A stripe, which may come with its history, and its directory.
structure Backed (σ : Type) where
  state  : σ
  dirMgr : DirManager

namespace Backed

variable {σ : Type} {H : Hash} (K : KeySpace H) (view : σ → Stripe) (Next : σ → Stripe.Event → σ → Prop)

-- A critical section and its calls. The entries of the stripe get the links that they have in the
-- directory.
inductive Step (b : Backed σ) (e : Stripe.Event) : Backed σ → Prop
  | mk (s s' dm calls) :
    (Next b.state e s) → (Stripe.Calls H dm (view b.state) e (view s) calls) →
    (Performs K calls b.dirMgr dm) → (Next s .other s') → (view s' = (view s).follow H dm) →
    Step b e ⟨s', dm⟩

def Mirrored (b : Backed σ) : Prop := b.dirMgr.Mirrors K (view b.state).dirs

variable (H) in
-- `Get` shows the entry that the stripe has for a key.
structure Finds (b : Backed σ) (key : Bytes) (x : Entry (Record × Mark)) : Prop where
  entry : (view b.state).dirs key = some x
  shown : b.dirMgr.shown H key = some x.dir

variable {K} {view} {Next} {b b' : Backed σ} {e : Stripe.Event} {Ok : σ → Stripe.Event → Prop}
  {key : Bytes} {x : Entry (Record × Mark)}

theorem Mirrored.finds (h : b.Mirrored K view) (hk : key ∈ K.keys)
    (hx : (view b.state).dirs key = some x) : b.Finds H view key x :=
  ⟨hx, by rw [← h.shows key hk, hx]; rfl⟩

theorem Mirrored.exists_finds (h : b.Mirrored K view) (hk : key ∈ K.keys) {d : Dir}
    (hd : b.dirMgr.shown H key = some d) : ∃ x, b.Finds H view key x ∧ x.dir = d := by
  have hs := (h.shows key hk).trans hd
  obtain ⟨x, hx, he⟩ := Option.map_eq_some_iff.mp hs
  exact ⟨x, ⟨hx, he ▸ hd⟩, he⟩

-- What a critical section leaves behind when its entries have got the links of the directory.
theorem settles {s : Stripe} {dm : DirManager} {t : σ} (ha : dm.Agrees K s.dirs)
    (ht : view t = s.follow H dm) : Mirrored K view ⟨t, dm⟩ ∧
      ∀ key ∈ K.keys, ∀ x, s.dirs key = some x → ∃ next, Finds H view ⟨t, dm⟩ key (x.relink next) := by
  have hm : Mirrored K view ⟨t, dm⟩ := by
    rw [Mirrored, ht]
    exact ha.evict
  refine ⟨hm, fun key hk x hx => ?_⟩
  obtain ⟨d, hd⟩ := ha.exists_shown hk hx
  refine ⟨d.next, hm.finds hk ?_⟩
  rw [ht]
  show s.dirs.evict _ key = _
  simp [Table.evict, hx, DirManager.fate, hd]

theorem Step.mirrored (h : Step K view Next b e b') (hm : b.Mirrored K view) : b'.Mirrored K view := by
  cases h with | mk s s' dm calls _ hc hp _ hv => exact (settles (hc.agrees hm.toAgrees hp) hv).1

theorem Step.key_mem (h : Step K view Next b e b') {r : Record} (hp : e.publication = some (key, r)) :
    key ∈ K.keys := by
  cases h with | mk s s' dm calls _ hc hperf _ _ => exact hc.key_mem hperf hp

-- The entries that a critical section leaves behind get other links.
theorem Step.entry (h : Step K view Next b e b') (hm : b.Mirrored K view) :
    ∃ s, Next b.state e s ∧ ∀ key ∈ K.keys, ∀ x, (view s).dirs key = some x →
      ∃ next, b'.Finds H view key (x.relink next) := by
  cases h with | mk s s' dm calls hn hc hp _ hv =>
  exact ⟨s, hn, (settles (hc.agrees hm.toAgrees hp) hv).2⟩

theorem mirrored_run {Ok : Backed σ → Stripe.Event → Prop} (h : Run (Step K view Next) Ok b b')
    (hm : b.Mirrored K view) : b'.Mirrored K view :=
  h.invariant (fun _ _ _ hm hs _ => hs.mirrored hm) hm

-- The stripe alone makes the steps that its model allows.
theorem Step.run (h : Step K view Next b e b') (ho : Ok b.state e) (hother : ∀ s, Ok s .other) :
    Run Next Ok b.state b'.state := by
  cases h with | mk s s' dm calls hn _ _ hn' _ => exact (Run.single hn ho).step hn' (hother s)

theorem run_state (h : Run (Step K view Next) (fun b e => Ok b.state e) b b') (hother : ∀ s, Ok s .other) :
    Run Next Ok b.state b'.state := by
  induction h
  case refl => exact .refl
  case step hs ho hi => exact hi.trans (hs.run ho hother)

section Sample

-- The keys of the first two fragments of an object.
def sampleSpace : KeySpace sampleHash where
  keys    := { k | k = [97] ∨ k = sampleHash.fragmentKey [97] 1 }
  inj     := by
    rintro _ (rfl | rfl) _ (rfl | rfl) h
    case inl.inl => rfl
    case inr.inr => rfl
    all_goals exact absurd h (by decide +kernel)
  ne_zero := by
    rintro _ (rfl | rfl)
    all_goals decide +kernel

theorem mem_sampleSpace : [97] ∈ sampleSpace.keys := .inl rfl

-- The directory after an insertion.
def sampleSet (dm : DirManager) (off size : Nat) (phase : Bool) : DirManager :=
  ((dm.set sampleHash [97] off size phase fun _ => 0).toOption.map Prod.snd).getD dm

theorem performs_sampleSet {keys : List Bytes} {dm : DirManager} {off size : Nat} {phase : Bool}
    (hk : ∀ k ∈ keys, k ∈ sampleSpace.keys) (ho : 0 < off ∧ off < 2 ^ 40)
    (hz : 0 < size ∧ size ≤ DirMaxDataSize)
    (he : (DirManager.Op.set [97] off size phase fun _ => 0).exec sampleHash dm =
      .ok (sampleSet dm off size phase)) :
    Performs sampleSpace (keys.map .get ++ [.op (.set [97] off size phase fun _ => 0)]) dm
      (sampleSet dm off size phase) :=
  (DirManager.performs_gets hk).append
    (.op (by rintro _ ⟨⟩; exact mem_sampleSpace) ⟨ho, hz⟩ trivial he .nil)

theorem performs_sampleDelete :
    Performs sampleSpace [.op (.delete [97])] (.init 4) (.init 4) :=
  .op (by rintro _ ⟨⟩; exact mem_sampleSpace) trivial (.inl rfl) rfl .nil

variable {s s' : Stripe} {calls : List Call} {dm dm' : DirManager}

theorem mirrored_init {n : Nat} (hn : 4 ≤ n) {t : σ} (h : ∀ k, (view t).dirs k = none) :
    Mirrored K view ⟨t, .init n⟩ := by
  have hm := (DirManager.agrees_init (K := K) hn h).evict
  rwa [show (view t).dirs.evict _ = (view t).dirs from funext fun k => by simp [Table.evict, h]] at hm

-- There is at most one entry, which is the one of the directory.
structure Alone (dm : DirManager) (s : Stripe) : Prop where
  only  : ∀ k ≠ [97], s.dirs k = none
  entry : ∀ x, s.dirs [97] = some x → dm.shown sampleHash [97] = some x.dir ∧ x.dir.setNext 0 = x.dir

theorem Alone.of_none (h : ∀ k, s.dirs k = none) : Alone dm s :=
  ⟨fun k _ => h k, fun x hx => by cases (h [97]).symm.trans hx⟩

theorem Alone.congr (h : Alone dm s) (hd : s'.dirs = s.dirs) : Alone dm s' :=
  ⟨fun k hk => hd ▸ h.only k hk, fun x hx => h.entry x (hd ▸ hx)⟩

theorem Alone.follow_eq (h : Alone dm s) : s.follow sampleHash dm = s := by
  refine Stripe.follow_eq fun k x hx => ?_
  by_cases hk : k = [97]
  case pos =>
    subst hk
    exact (h.entry x hx).1
  case neg => cases (h.only k hk).symm.trans hx

theorem Alone.set {m : Record × Mark} (h : Alone dm s)
    (hd : s'.dirs = s.dirs.set [97] ⟨(dm'.get sampleHash [97]).dir, m⟩ (dm'.fate sampleHash))
    (hh : (dm'.get sampleHash [97]).hit = true)
    (hn : (dm'.get sampleHash [97]).dir.setNext 0 = (dm'.get sampleHash [97]).dir) : Alone dm' s' := by
  constructor
  case only =>
    intro k hk
    rw [hd, Table.set, if_neg hk, h.only k hk]
    rfl
  case entry =>
    intro x hx
    rw [hd, Table.set_self] at hx
    cases hx
    exact ⟨if_pos hh, hn⟩

-- A step after which the links need not be changed.

theorem Alone.step {t t' : σ} {Next : σ → Stripe.Event → σ → Prop} (h : Alone dm' (view t'))
    (hs : Next t e t') (hi : Next t' .other t')
    (hc : Stripe.Calls sampleHash dm' (view t) e (view t') calls) (hp : Performs sampleSpace calls dm dm') :
    Step sampleSpace view Next ⟨t, dm⟩ e ⟨t', dm'⟩ :=
  .mk t' t' dm' calls hs hc hp hi h.follow_eq.symm

theorem Alone.stripe (h : Alone dm' s') (hs : Stripe.Step sampleHash s e s')
    (hc : Stripe.Calls sampleHash dm' s e s' calls) (hp : Performs sampleSpace calls dm dm') :
    Step sampleSpace id (Stripe.Step sampleHash) ⟨s, dm⟩ e ⟨s', dm'⟩ :=
  Alone.step h hs (.drop s' .refl) hc hp

end Sample

end Backed
end Bakemono
