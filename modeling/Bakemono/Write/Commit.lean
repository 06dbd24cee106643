import Bakemono.Directory.Set
import Bakemono.Ring.Validity
import Bakemono.Stripe.State
import Bakemono.Write.Document
import Bakemono.Write.Pieces

namespace Bakemono

open CacheWriter (tail tails head count documentsOf publishAll_concat publishAll_error)

-- What a writer sees of its stripe under the lock, with the directory as the source has it.
structure Store where
  dirMgr       : DirManager
  ring         : Ring Empty Unit
  storageErr   : Option Err
  closing      : Bool
  generation   : Nat
  policyEpochs : Fin 1024 → Nat
  entries      : Bytes → Option Nat
  ram          : Bytes → Option RamEntry
  index        : DirTrie

-- What a writer finds when it gets the lock after its document has been flushed. The last two fields
-- are the choices of a purge, and whether the memory accepts the document.
structure Turn where
  allocation : Allocation
  store      : Store
  ctxErr     : Option Err
  rand       : Nat → Fin 10
  kept       : Bool

-- `addContext` and `flushThrough` for a document, and whatever everybody else does until the writer
-- gets the lock. The argument is the number of the document.
abbrev Env := Nat → Store → Bytes → Except Err Turn

-- The directory before and the stripe after a head has been made visible, and what its writer has
-- published by then.
structure Commit where
  before    : DirManager
  store     : Store
  published : List (Bytes × Record)

-- The number of documents and the commits are not fields of the source.
structure Session where
  store   : Store
  writer  : Writer
  turns   : Nat := 0
  commits : List Commit := []

variable (H : Hash)

namespace Store

def policyEpoch (s : Store) (selector : Bytes) : Nat := s.policyEpochs (H.policySlot selector)

-- The writer has been fenced or is not the one of its key.
def Fenced (s : Store) (i : Nat) (w : Writer) : Prop :=
  w.fenceSelector ≠ [] ∧ w.fencePolicy ≠ s.policyEpoch H w.fenceSelector ∨
  w.generation ≠ s.generation ∨ w.policy ≠ s.policyEpoch H w.selector ∨ s.entries w.key ≠ some i

instance (s : Store) (i : Nat) (w : Writer) : Decidable (s.Fenced H i w) :=
  inferInstanceAs (Decidable (_ ∨ _))

-- The directory maps the key to the place of the record, which is valid.
def Maps (s : Store) (p : Bytes × Record) : Prop :=
  (s.dirMgr.get H p.1).hit = true ∧ (s.dirMgr.get H p.1).dir.offset = p.2.offset ∧
  (s.dirMgr.get H p.1).dir.phase = odd p.2.generation ∧
  s.ring.allocationValid p.2.allocation p.2.data.length = true

instance (s : Store) (p : Bytes × Record) : Decidable (s.Maps H p) :=
  inferInstanceAs (Decidable (_ ∧ _))

-- The checks of `writeFragment` under the lock.
def admission (s : Store) (i : Nat) (w : Writer) (idx : Nat) (r : Record) (ctxErr : Option Err) :
    Except Err Unit := do
  if let some e := s.storageErr then throw e
  if let some e := ctxErr then throw e
  if s.closing then throw .cacheClosed
  if s.Fenced H i w then throw .invalidated
  if ¬s.ring.allocationValid r.allocation r.data.length then
    throw (.other "fragment overwritten before publication")
  if idx = 0 ∧ ∃ p ∈ w.published, ¬s.Maps H p then
    throw (.other "object fragment overwritten before commit")

-- `RamCache.Put`.
def put (s : Store) (key doc : Bytes) (kept : Bool) : Store :=
  { s with ram := Function.update s.ram key (if kept then some (.new doc) else none) }

-- One published fragment in `abortLocked`.
def retract (s : Store) (p : Bytes × Record) : Store :=
  if ¬s.ring.allocationValid p.2.allocation p.2.data.length then
    s
  else
    match s.dirMgr.deleteAt H p.1 p.2.offset with
    | .ok (true, dirMgr) => { s with dirMgr, ram := Function.update s.ram p.1 none }
    | _                  => s

end Store

namespace Session

-- The writer has a number in the open directory.
variable (i : Nat) (env : Env)

-- `DirMgr.Set`, `published` and `RamCache.Put`. A head is visible from here on.
def install (x : Session) (idx : Nat) (r : Record) (rand : Nat → Fin 10) (kept : Bool) :
    Except Err Session :=
  let key := H.fragmentKey x.writer.key idx
  match x.store.dirMgr.set H key r.offset (sectors r.data.length) (odd r.generation) rand with
  | .error _        => .error .panic
  | .ok (_, dirMgr) =>
    let store := { x.store with dirMgr }.put key r.data kept
    let published := x.writer.published ++ [(key, r)]
    .ok { x with
      store
      writer  := { x.writer with published }
      commits := if idx = 0 then x.commits ++ [⟨x.store.dirMgr, store, published⟩] else x.commits }

-- The identity of an object is added together with its head.
def enlist (x : Session) (idx : Nat) : EStateM.Result Err Session Unit :=
  if idx = 0 then
    match x.store.index.setIdentity x.writer.key x.writer.selector with
    | .error e  => .error e x
    | .ok index => .ok () { x with store := { x.store with index } }
  else
    .ok () x

-- The end of `writeFragment`, from the addition to the log on.
def publish (idx : Nat) (doc : Bytes) : EStateM Err Session Unit := fun x =>
  match env x.turns x.store doc with
  | .error e => .error e { x with turns := x.turns + 1 }
  | .ok t    =>
    let x := { x with store := t.store, turns := x.turns + 1 }
    let r := ⟨t.allocation, doc⟩
    match t.store.admission H i x.writer idx r t.ctxErr >>= fun _ => x.install H idx r t.rand t.kept with
    | .error e => .error e x
    | .ok x'   => x'.enlist idx

-- The part of `abortLocked` that is done under the lock of the stripe.
def abandon (x : Session) : Session :=
  let store := x.writer.published.foldl (Store.retract H) x.store
  let index :=
    if store.entries x.writer.key = some i then store.index.delete x.writer.key else store.index
  { x with store := { store with index }, writer := { x.writer with published := [] } }

def storage : Storage Session where
  publish := publish H i env
  abandon := abandon H i

end Session

section Publish

variable {H} {i idx : Nat} {env : Env} {x x' : Session} {doc : Bytes}

theorem Store.admission_eq_ok {s : Store} {w : Writer} {r : Record} {ctxErr : Option Err} :
    s.admission H i w idx r ctxErr = .ok () ↔
      s.storageErr = none ∧ ctxErr = none ∧ s.closing = false ∧ ¬s.Fenced H i w ∧
      s.ring.allocationValid r.allocation r.data.length = true ∧
      (idx = 0 → ∀ p ∈ w.published, s.Maps H p) := by
  unfold Store.admission
  cases s.storageErr
  case some => simp [bind, Except.bind, throw, throwThe, MonadExceptOf.throw]
  case none =>
    cases ctxErr
    case some => simp [bind, Except.bind, throw, throwThe, MonadExceptOf.throw]
    case none =>
      simp only [Except.check_bind_eq_ok, Except.check_eq_ok, not_and, not_exists, not_not, true_and,
        Bool.not_eq_true, Bool.not_eq_false, pure, Except.pure, and_true]

namespace Session

-- The critical section has made its document visible.
structure Installs (H : Hash) (i : Nat) (env : Env) (x : Session) (idx : Nat) (doc : Bytes) (t : Turn)
    (dirMgr : DirManager) (x' : Session) : Prop where
  turn      : env x.turns x.store doc = .ok t
  admitted  : t.store.admission H i x.writer idx ⟨t.allocation, doc⟩ t.ctxErr = .ok ()
  set       : ∃ n, t.store.dirMgr.set H (H.fragmentKey x.writer.key idx) t.allocation.offset
    (sectors doc.length) (odd t.allocation.generation) t.rand = .ok (n, dirMgr)
  store     : x'.store = { { t.store with dirMgr }.put (H.fragmentKey x.writer.key idx) doc t.kept with
    index := x'.store.index }
  writer    : x'.writer = { x.writer with
    published := x.writer.published ++ [(H.fragmentKey x.writer.key idx, ⟨t.allocation, doc⟩)] }
  commits   : x'.commits = if idx = 0 then x.commits ++ [⟨t.store.dirMgr,
    { t.store with dirMgr }.put (H.fragmentKey x.writer.key idx) doc t.kept, x'.writer.published⟩]
    else x.commits

theorem Installs.published {t : Turn} {dirMgr : DirManager} (h : Installs H i env x idx doc t dirMgr x') :
    x'.writer.published =
      x.writer.published ++ [(H.fragmentKey x.writer.key idx, ⟨t.allocation, doc⟩)] := by
  rw [h.writer]

theorem state_enlist (x : Session) (idx : Nat) : (x.enlist idx).state =
    { x with store := { x.store with index := (x.enlist idx).state.store.index } } := by
  unfold enlist
  split
  case isTrue => split <;> rfl
  case isFalse => rfl

-- The session after a document has been installed, without the identity of its object.
def installed (H : Hash) (x : Session) (idx : Nat) (doc : Bytes) (t : Turn) (dirMgr : DirManager) : Session :=
  let key := H.fragmentKey x.writer.key idx
  let store := { t.store with dirMgr }.put key doc t.kept
  let published := x.writer.published ++ [(key, ⟨t.allocation, doc⟩)]
  { store
    writer  := { x.writer with published }
    turns   := x.turns + 1
    commits := if idx = 0 then x.commits ++ [⟨t.store.dirMgr, store, published⟩] else x.commits }

theorem publish_eq {t : Turn} {n : Nat} {dirMgr : DirManager} (ht : env x.turns x.store doc = .ok t)
    (ha : t.store.admission H i x.writer idx ⟨t.allocation, doc⟩ t.ctxErr = .ok ())
    (hd : t.store.dirMgr.set H (H.fragmentKey x.writer.key idx) t.allocation.offset
      (sectors doc.length) (odd t.allocation.generation) t.rand = .ok (n, dirMgr)) :
    publish H i env idx doc x = (x.installed H idx doc t dirMgr).enlist idx := by
  have hd : t.store.dirMgr.set H (H.fragmentKey x.writer.key idx) (Record.offset ⟨t.allocation, doc⟩)
      (sectors doc.length) (odd (Record.generation ⟨t.allocation, doc⟩)) t.rand = .ok (n, dirMgr) := hd
  simp only [publish, ht, ha, install, bind, Except.bind, hd]
  rfl

-- A document that was refused leaves no trace, but the identity of an object may be refused after its
-- head has become visible.
theorem publish_cases (H : Hash) (i : Nat) (env : Env) (idx : Nat) (doc : Bytes) (x : Session) :
    (∃ t dirMgr, Installs H i env x idx doc t dirMgr (publish H i env idx doc x).state) ∨
    ∃ e x', publish H i env idx doc x = .error e x' ∧ x'.commits = x.commits := by
  cases ht : env x.turns x.store doc
  case error e => exact .inr ⟨e, { x with turns := x.turns + 1 }, by simp only [publish, ht], rfl⟩
  case ok t =>
    let x' := { x with store := t.store, turns := x.turns + 1 }
    cases ha : t.store.admission H i x.writer idx ⟨t.allocation, doc⟩ t.ctxErr
    case error e => exact .inr ⟨e, x', by simp only [publish, ht, ha, bind, Except.bind, x'], rfl⟩
    case ok =>
      cases hd : t.store.dirMgr.set H (H.fragmentKey x.writer.key idx) t.allocation.offset
        (sectors doc.length) (odd t.allocation.generation) t.rand
      case error e =>
        have hd : t.store.dirMgr.set H (H.fragmentKey x.writer.key idx)
          (Record.offset ⟨t.allocation, doc⟩) (sectors doc.length)
          (odd (Record.generation ⟨t.allocation, doc⟩)) t.rand = .error e := hd
        exact .inr ⟨.panic, x', by simp only [publish, ht, ha, install, bind, Except.bind, hd, x'], rfl⟩
      case ok d =>
        refine .inl ⟨t, d.2, ?_⟩
        rw [publish_eq ht ha hd, state_enlist]
        exact ⟨ht, ha, ⟨d.1, hd⟩, rfl, rfl, rfl⟩

theorem installs_of_ok (h : publish H i env idx doc x = .ok () x') :
    ∃ t dirMgr, Installs H i env x idx doc t dirMgr x' := by
  obtain hi | ⟨e, x₁, he, _⟩ := publish_cases H i env idx doc x
  case inl =>
    rw [h] at hi
    exact hi
  case inr => cases h.symm.trans he

variable (H i env x doc) in
theorem commits_publish (h : idx ≠ 0) : (publish H i env idx doc x).state.commits = x.commits := by
  obtain ⟨t, dirMgr, hi⟩ | ⟨e, x', he, hc⟩ := publish_cases H i env idx doc x
  case inl => rw [hi.commits, if_neg h]
  case inr => rw [he]; exact hc

-- What has been published after some documents.
structure Extends (H : Hash) (l : List (Nat × Bytes)) (x x' : Session) : Prop where
  key       : x'.writer.key = x.writer.key
  published : ∀ p ∈ x.writer.published, p ∈ x'.writer.published
  documents : ∀ d ∈ l, ∃ r : Record,
    (H.fragmentKey x.writer.key d.1, r) ∈ x'.writer.published ∧ r.data = d.2

theorem publishAll_extends {l : List (Nat × Bytes)}
    (h : (storage H i env).publishAll l x = .ok () x') : Extends H l x x' := by
  induction l generalizing x
  case nil =>
    cases h
    exact ⟨rfl, fun _ => id, by simp⟩
  case cons d l hi =>
    simp only [Storage.publishAll, Bind.bind, EStateM.bind] at h
    cases hd : (storage H i env).publish d.1 d.2 x
    case error => simp [hd] at h
    case ok x₁ =>
      rw [hd] at h
      obtain ⟨t, dirMgr, hin⟩ := installs_of_ok hd
      obtain ⟨hk, hp, hl⟩ := hi h
      have hk₁ : x₁.writer.key = x.writer.key := by rw [hin.writer]
      have hp₁ := hin.published
      refine ⟨hk.trans hk₁, fun p hx => hp p (by rw [hp₁]; simp [hx]), fun d' hd' => ?_⟩
      cases List.mem_cons.mp hd'
      case inl he =>
        subst he
        exact ⟨⟨t.allocation, d'.2⟩, hp _ (by rw [hp₁]; simp), rfl⟩
      case inr hm => exact hk₁ ▸ hl d' hm

variable (H i env x) in
theorem commits_publishAll {l : List (Nat × Bytes)} (h : ∀ d ∈ l, d.1 ≠ 0) :
    ((storage H i env).publishAll l x).state.commits = x.commits := by
  induction l generalizing x
  case nil => rfl
  case cons d l hi =>
    have hc := commits_publish H i env x d.2 (h d (by simp))
    simp only [Storage.publishAll, Bind.bind, EStateM.bind]
    cases hd : (storage H i env).publish d.1 d.2 x
    case error e x₁ =>
      have hd : publish H i env d.1 d.2 x = .error e x₁ := hd
      rw [hd] at hc
      exact hc
    case ok x₁ =>
      have hd : publish H i env d.1 d.2 x = .ok () x₁ := hd
      rw [hd] at hc
      exact (hi x₁ fun d hm => h d (by simp [hm])).trans hc

-- A head is only made visible after all other fragments of its object have been published.
theorem exists_of_mem_commits {key : Bytes} {w : CacheWriter Session} {c : Commit}
    (ht : w.Trace H key (storage H i env) x x') (h₀ : x.commits = []) (hc : c ∈ x'.commits) :
    ∃ x₁ x₂ info t dirMgr,
      (storage H i env).publishAll (tails H key w.version w.accepted (count w.accepted.length)) x =
        .ok () x₁ ∧
      Installs H i env x₁ 0 (head H key w.version w.accepted info).2 t dirMgr x₂ ∧
      c.before = t.store.dirMgr ∧ c.store.dirMgr = dirMgr ∧ c.store.ring = t.store.ring ∧
      c.published = x₂.writer.published := by
  have hne (n) : ∀ d ∈ tails H key w.version w.accepted n, d.1 ≠ 0 := by
    intro d hd
    obtain ⟨j, hj, rfl⟩ := List.mem_map.mp hd
    exact Nat.ne_zero_of_lt (List.mem_range'_1.mp hj).1
  obtain ⟨n, hd⟩ | ⟨info, hd⟩ := ht.documents
  case inl =>
    rw [ht.stripe, hd, commits_publishAll H i env x (hne n), h₀] at hc
    cases hc
  case inr =>
    have hcs := commits_publishAll H i env x (hne (count w.accepted.length))
    rw [ht.stripe, hd, documentsOf] at hc
    rw [h₀] at hcs
    cases hp : (storage H i env).publishAll (tails H key w.version w.accepted (count w.accepted.length)) x
    case error e x₁ =>
      rw [hp] at hcs
      rw [publishAll_error hp] at hc
      exact absurd (hcs ▸ hc : c ∈ []) List.not_mem_nil
    case ok x₁ =>
      rw [hp] at hcs
      have hcs : x₁.commits = [] := hcs
      rw [head, publishAll_concat hp] at hc
      have hc : c ∈ (publish H i env 0 (head H key w.version w.accepted info).2 x₁).state.commits := hc
      obtain ⟨t, dirMgr, hi⟩ | ⟨e, x₂, he, hx⟩ := publish_cases H i env 0
        (head H key w.version w.accepted info).2 x₁
      case inl =>
        rw [hi.commits, if_pos rfl, hcs, List.nil_append, List.mem_singleton] at hc
        exact ⟨x₁, _, info, t, dirMgr, rfl, hi, hc ▸ ⟨rfl, rfl, rfl, rfl⟩⟩
      case inr =>
        rw [he] at hc
        exact absurd (hcs ▸ hx ▸ hc : c ∈ []) List.not_mem_nil

end Session

-- The directory is one that its operations have made, and its offsets can describe the data area.
structure Store.Sound (H : Hash) (n : Nat) (s : Store) : Prop where
  made  : s.dirMgr.Made H n
  range : 0 < s.ring.start ∧ s.ring.stop ≤ 2 ^ 40

-- `addContext` refuses what does not fit into a buffer.
structure Env.Sound (H : Hash) (n : Nat) (env : Env) : Prop where
  fits : ∀ {k s doc t}, env k s doc = .ok t → doc.length ≤ AggBufferSize
  keep : ∀ {k s doc t}, env k s doc = .ok t → s.Sound H n → t.store.Sound H n

namespace Session

section Sound

variable {n : Nat} {t : Turn} {dirMgr : DirManager}

-- The entry is in the range of the directory.
theorem Installs.inRange (he : env.Sound H n) (hs : x.store.Sound H n) (hd : 0 < doc.length)
    (h : Installs H i env x idx doc t dirMgr x') :
    (0 < t.allocation.offset ∧ t.allocation.offset < 2 ^ 40) ∧
    0 < sectors doc.length ∧ sectors doc.length ≤ DirMaxDataSize := by
  have ⟨hstart, hstop⟩ := (he.keep h.turn hs).range
  have ⟨_, _, _, _, hv, _⟩ := Store.admission_eq_ok.mp h.admitted
  have ⟨_, ho, hend, _⟩ := Ring.allocationValid_iff.mp hv
  have hfit := he.fits h.turn
  have ⟨hle, hlt⟩ : doc.length ≤ sectors doc.length ∧ sectors doc.length < doc.length + SectorSize :=
    Ring.sectors_bounds
  dsimp only at ho hend
  refine ⟨⟨by omega, by omega⟩, by omega, ?_⟩
  simp only [AggBufferSize, DirMaxDataSize, SectorSize] at *
  omega

theorem Installs.sound (he : env.Sound H n) (hs : x.store.Sound H n) (hd : 0 < doc.length)
    (h : Installs H i env x idx doc t dirMgr x') : x'.store.Sound H n := by
  have ⟨ho, hz⟩ := h.inRange he hs hd
  have ht := he.keep h.turn hs
  have ⟨_, hset⟩ := h.set
  rw [h.store]
  exact ⟨ht.made.set ho hz hset, ht.range⟩

theorem sound_publishAll {l : List (Nat × Bytes)} (he : env.Sound H n) (hs : x.store.Sound H n)
    (hl : ∀ d ∈ l, 0 < d.2.length) (h : (storage H i env).publishAll l x = .ok () x') :
    x'.store.Sound H n := by
  induction l generalizing x
  case nil =>
    cases h
    exact hs
  case cons d l hi =>
    simp only [Storage.publishAll, Bind.bind, EStateM.bind] at h
    cases hd : (storage H i env).publish d.1 d.2 x
    case error => simp [hd] at h
    case ok x₁ =>
      rw [hd] at h
      obtain ⟨t, dirMgr, hin⟩ := installs_of_ok hd
      exact hi (hin.sound he hs (hl d (by simp))) (fun d hm => hl d (by simp [hm])) h

end Sound

-- A commit, as its writer has prepared it. All other fragments are in place before the head is inserted.
structure Prepared (H : Hash) (n : Nat) (key : Bytes) (w : CacheWriter Session) (c : Commit) : Prop where
  made  : c.before.Made H n
  set   : ∃ off size phase rand i, (0 < off ∧ off < 2 ^ 40) ∧ (0 < size ∧ size ≤ DirMaxDataSize) ∧
    c.before.set H key off size phase rand = .ok (i, c.store.dirMgr)
  tails : ∀ j < count w.accepted.length, 1 ≤ j → ∃ r : Record, (H.fragmentKey key j, r) ∈ c.published ∧
    r.data = (tail H key w.version w.accepted j).2 ∧
    { c.store with dirMgr := c.before }.Maps H (H.fragmentKey key j, r)

theorem prepared_of_reached {n : Nat} {w : CacheWriter Session} {c : Commit} (he : env.Sound H n)
    (hs : x.store.Sound H n) (h₀ : x.commits = [])
    (h : w.Reached H x.writer.key (storage H i env) x) (hc : c ∈ w.stripe.commits) :
    Prepared H n x.writer.key w c := by
  obtain ⟨s, ht, hst⟩ := h.trace
  have hc : c ∈ s.commits := by
    cases hst
    case inl hst => exact hst ▸ hc
    case inr hst => rwa [hst] at hc
  obtain ⟨x₁, x₂, info, t, dirMgr, hp, hin, hbefore, hdir, hring, hpub⟩ := exists_of_mem_commits ht h₀ hc
  have hext := publishAll_extends hp
  have hlen {version total index data info} :
      0 < (CacheWriter.document H x.writer.key version total index data info).length := by
    rw [CacheWriter.length_document, DocHeaderSize]
    omega
  have hs₁ : x₁.store.Sound H n := by
    apply sound_publishAll he hs _ hp
    intro d hd
    obtain ⟨j, _, rfl⟩ := List.mem_map.mp hd
    exact hlen
  obtain ⟨ho, hz⟩ := hin.inRange he hs₁ hlen
  obtain ⟨k, hset⟩ := hin.set
  constructor
  case made => exact hbefore ▸ (he.keep hin.turn hs₁).made
  case set =>
    rw [hext.key] at hset
    rw [hbefore, hdir]
    exact ⟨_, _, _, _, k, ho, hz, hset⟩
  case tails =>
    intro j hj h₁
    have hmem : tail H x.writer.key w.version w.accepted j ∈
        tails H x.writer.key w.version w.accepted (count w.accepted.length) :=
      List.mem_map_of_mem (List.mem_range'_1.mpr ⟨h₁, by omega⟩)
    obtain ⟨r, hr, hdata⟩ := hext.documents _ hmem
    obtain ⟨_, _, _, _, _, hmaps⟩ := Store.admission_eq_ok.mp hin.admitted
    have hm := hmaps rfl _ hr
    refine ⟨r, ?_, hdata, ?_⟩
    case refine_1 =>
      rw [hpub, hin.published]
      exact List.mem_append_left _ hr
    case refine_2 =>
      rw [Store.Maps] at hm ⊢
      rw [hbefore, hring]
      exact hm

end Session

end Publish

section Sample

namespace CacheWriter

variable {σ : Type} {H : Hash} {start stop : Nat} {key : Bytes} {S : Storage σ}
  {s s₁ s₂ : σ} {w w' : CacheWriter σ} {p : Bytes}

theorem writeChunk_partial (hp : w.buffer.length + p.length < TargetFragmentSize) :
    writeChunk H key S p w = .ok [] (w.appended p) := by
  have ht : min (TargetFragmentSize - w.buffer.length) p.length = p.length := by omega
  have hd : (w.buffer.length + p.length) / TargetFragmentSize = 0 := Nat.div_eq_of_lt hp
  simp only [writeChunk, bind, EStateM.bind, get, getThe, MonadStateOf.get, EStateM.get_apply, ht, hd,
    List.take_length, List.drop_length]
  rfl

-- The first fragment stays in memory.
theorem writeChunk_first (h : w.nextFragIdx = 0) (hp : w.buffer.length + p.length = TargetFragmentSize) :
    writeChunk H key S p w =
      .ok [] { w.appended p with buffer := [], frag0Data := some (w.buffer ++ p), nextFragIdx := 1 } := by
  have ht : min (TargetFragmentSize - w.buffer.length) p.length = p.length := by omega
  have hd : (w.buffer.length + p.length) / TargetFragmentSize = 1 := by rw [hp]; decide
  have hl : (w.buffer ++ p).length ≤ TargetFragmentSize := by simp [hp]
  simp only [writeChunk, bind, EStateM.bind, get, getThe, MonadStateOf.get, EStateM.get_apply, ht, hd,
    List.take_length, List.drop_length, processBuffer, processChunk]
  simp [modify, modifyGet, MonadStateOf.modifyGet, EStateM.modifyGet_apply, appended, h, pure, EStateM.pure,
    advanced, List.take_of_length_le hl, List.drop_of_length_le hl]

theorem write_chunk (hc : w.closed = false) (hp : p ≠ []) (hr : p.length + w.totalWritten ≤ stop - start)
    (h : writeChunk H key S p w = .ok [] w') :
    (write H start stop key S none p w).state = w' := by
  have hr : ¬p.length + w.totalWritten > stop - start := by omega
  have hl : writeLoop H key S p.length p w = .ok [] w' := by
    obtain ⟨n, hn⟩ := Nat.exists_eq_succ_of_ne_zero (mt List.eq_nil_of_length_eq_zero hp)
    rw [hn, writeLoop, if_neg hp]
    simp only [bind, EStateM.bind, h]
    cases n <;> rfl
  have hx : ¬w.closed = true := by simp [hc]
  simp only [write, bind, EStateM.bind, get, getThe, MonadStateOf.get, EStateM.get_apply, if_neg hx, aborting,
    tryCatchThe, MonadExceptOf.tryCatch, EStateM.tryCatch_apply, if_neg hr, hl]
  rfl

-- The writer of an object with a byte more than a fragment, before it is closed.
def pair (stripe : σ) (p : Bytes) : CacheWriter σ where
  stripe       := stripe
  version      := 1
  buffer       := [0]
  frag0Data    := some p
  nextFragIdx  := 1
  totalWritten := TargetFragmentSize + 1
  accepted     := p ++ [0]

def pairCalls (p : Bytes) : List Call := [.write none (.head _) p, .write none (.head _) [0], .close]

theorem performAll_pairCalls (hp : p.length = TargetFragmentSize)
    (hr : TargetFragmentSize + 1 ≤ stop - start) :
    performAll H start stop key S (pairCalls p) { stripe := s₁, version := 1 } =
      (close H key S (pair s₁ p)).state := by
  let w₁ : CacheWriter σ :=
    { pair s₁ p with buffer := [], totalWritten := TargetFragmentSize, accepted := p }
  have h₁ : (write H start stop key S none p { stripe := s₁, version := 1 }).state = w₁ := by
    have hne : p ≠ [] := List.ne_nil_of_length_pos (hp ▸ Nat.succ_pos _)
    refine write_chunk rfl hne (by simp only [hp]; omega) ?_
    rw [writeChunk_first rfl (by simp [hp])]
    simp [appended, hp, w₁, pair]
  have h₂ : (write H start stop key S none [0] w₁).state = pair s₁ p := by
    refine write_chunk rfl (by simp) (by simp only [w₁, List.length_singleton]; omega) ?_
    exact writeChunk_partial (by simp [w₁, TargetFragmentSize])
  simp only [performAll, pairCalls, List.foldl_cons, List.foldl_nil, Call.perform, h₁, h₂]

-- The last fragment and the head are accepted.
theorem close_pair
    (h₁ : S.publish 1 (document H key 1 (TargetFragmentSize + 1) 1 [0] []) s = .ok () s₁)
    (h₂ : S.publish 0 (document H key 1 (TargetFragmentSize + 1) 0 p []) s₁ = .ok () s₂) :
    (close H key S (pair s p)).state.stripe = s₂ ∧ (close H key S (pair s p)).state.err = none ∧
    (close H key S (pair s p)).state.accepted = p ++ [0] := by
  simp [close, pair, bind, EStateM.bind, get, getThe, MonadStateOf.get, EStateM.get_apply, aborting,
    tryCatchThe, MonadExceptOf.tryCatch, EStateM.tryCatch_apply, infoBytes, closeBuffer, closeHead,
    writeFragment, h₁, handed, h₂, pure, EStateM.pure, modify, modifyGet,
    MonadStateOf.modifyGet, EStateM.modifyGet_apply, EStateM.Result.state]

end CacheWriter

namespace Session

-- The document is flushed alone.
def alone (k : Nat) (s : Store) (doc : Bytes) : Turn where
  allocation := ⟨s.ring.writePos, s.ring.generation, k⟩
  store      := { s with ring := s.ring.lap ⟨s.ring.writePos, s.ring.generation, [(k, doc)]⟩ }
  ctxErr     := none
  rand _     := 0
  kept       := true

-- Nobody else uses the stripe.
def quiet : Env := fun k s doc =>
  if doc.length ≤ AggBufferSize ∧ s.ring.writePos + doc.length ≤ s.ring.stop then .ok (alone k s doc)
  else .error (.other "end of the data area")

theorem sound_quiet (H : Hash) (n : Nat) : quiet.Sound H n := by
  constructor
  case fits =>
    intro k s doc t h
    simp only [quiet] at h
    split at h
    case isTrue hd => exact hd.1
    case isFalse => cases h
  case keep =>
    intro k s doc t h hs
    simp only [quiet] at h
    split at h
    case isTrue =>
      cases h
      exact ⟨hs.made, hs.range⟩
    case isFalse => cases h

theorem writePos_alone {k : Nat} {s : Store} {d : Bytes} :
    (alone k s d).store.ring.writePos = s.ring.writePos + d.length := by
  simp [alone, Ring.lap, Ring.endFlush, Ring.beginFlush, FlushTask.stop, FlushTask.buffer]

-- The writer may publish.
structure Calm (H : Hash) (n i : Nat) (x : Session) : Prop where
  sound      : x.store.Sound H n
  lower      : x.store.ring.start ≤ x.store.ring.writePos
  storageErr : x.store.storageErr = none
  closing    : x.store.closing = false
  fence      : ¬x.store.Fenced H i x.writer

variable {H : Hash} {n i idx : Nat} {x : Session} {doc : Bytes}

theorem Calm.inRange (hx : x.Calm H n i) (hfit : 0 < doc.length ∧ doc.length ≤ AggBufferSize)
    (hend : x.store.ring.writePos + doc.length ≤ x.store.ring.stop) :
    (0 < x.store.ring.writePos ∧ x.store.ring.writePos < 2 ^ 40) ∧
    0 < sectors doc.length ∧ sectors doc.length ≤ DirMaxDataSize := by
  have ⟨hstart, hstop⟩ := hx.sound.range
  have hlower := hx.lower
  have ⟨hle, hlt⟩ : doc.length ≤ sectors doc.length ∧ sectors doc.length < doc.length + SectorSize :=
    Ring.sectors_bounds
  refine ⟨⟨by omega, by omega⟩, by omega, ?_⟩
  simp only [AggBufferSize, DirMaxDataSize, SectorSize] at *
  omega

theorem publish_quiet (hx : x.Calm H n i) (hfit : 0 < doc.length ∧ doc.length ≤ AggBufferSize)
    (hend : x.store.ring.writePos + doc.length ≤ x.store.ring.stop)
    (hroom : x.store.dirMgr.SetRoom H (H.fragmentKey x.writer.key idx))
    (hm : idx = 0 → ∀ p ∈ x.writer.published, (alone x.turns x.store doc).store.Maps H p) :
    ∃ j dirMgr, x.store.dirMgr.set H (H.fragmentKey x.writer.key idx) x.store.ring.writePos
        (sectors doc.length) (odd x.store.ring.generation) (fun _ => 0) = .ok (j, dirMgr) ∧
      publish H i quiet idx doc x =
        (x.installed H idx doc (alone x.turns x.store doc) dirMgr).enlist idx ∧
      (x.installed H idx doc (alone x.turns x.store doc) dirMgr).Calm H n i := by
  have ⟨hs, hc⟩ := hx.sound.made.shape_chained
  have ⟨ho, hz⟩ := hx.inRange hfit hend
  have ⟨j, dirMgr, hset⟩ : ∃ j dirMgr, x.store.dirMgr.set H (H.fragmentKey x.writer.key idx)
      x.store.ring.writePos (sectors doc.length) (odd x.store.ring.generation) (fun _ => 0) =
        .ok (j, dirMgr) := DirManager.set_ok hs hc ho hz hroom
  have hw := writePos_alone (k := x.turns) (s := x.store) (d := doc)
  refine ⟨j, dirMgr, hset, publish_eq (if_pos ⟨hfit.2, hend⟩) (Store.admission_eq_ok.mpr ?_) hset, ?_⟩
  case refine_1 =>
    refine ⟨hx.storageErr, rfl, hx.closing, hx.fence, ?_, hm⟩
    rw [Ring.allocationValid_iff, hw]
    exact ⟨nofun, hx.lower, hend, .inl ⟨rfl, le_rfl⟩⟩
  case refine_2 =>
    refine ⟨⟨hx.sound.made.set ho hz hset, hx.sound.range⟩, ?_, hx.storageErr, hx.closing, hx.fence⟩
    exact hx.lower.trans (hw ▸ Nat.le_add_right ..)

-- A fragment is still in place when the next document has been flushed.
theorem maps_alone {dirMgr : DirManager} {d : Bytes} {j : Nat} (hx : x.Calm H n i)
    (hfit : 0 < doc.length ∧ doc.length ≤ AggBufferSize)
    (hend : x.store.ring.writePos + doc.length ≤ x.store.ring.stop)
    (hset : x.store.dirMgr.set H (H.fragmentKey x.writer.key idx) x.store.ring.writePos
      (sectors doc.length) (odd x.store.ring.generation) (fun _ => 0) = .ok (j, dirMgr)) :
    let x₁ := x.installed H idx doc (alone x.turns x.store doc) dirMgr
    (alone x₁.turns x₁.store d).store.Maps H (H.fragmentKey x.writer.key idx,
      ⟨⟨x.store.ring.writePos, x.store.ring.generation, x.turns⟩, doc⟩) := by
  intro x₁
  have ⟨hs, hc⟩ := hx.sound.made.shape_chained
  have ⟨ho, hz⟩ := hx.inRange hfit hend
  have ⟨_, hd, hhit, hdir⟩ := DirManager.get_set hs hc ho hz hset
  have hw : x₁.store.ring.writePos = x.store.ring.writePos + doc.length := writePos_alone
  refine ⟨hhit, ?_, ?_, ?_⟩
  case refine_1 => exact (congrArg Dir.offset hdir).trans hd.offset
  case refine_2 => exact (congrArg Dir.phase hdir).trans hd.phase
  case refine_3 =>
    rw [Ring.allocationValid_iff, writePos_alone, hw]
    exact ⟨nofun, hx.lower, hend, .inl ⟨rfl, Nat.le_add_right ..⟩⟩

theorem enlist_head {index : DirTrie}
    (hi : x.store.index.setIdentity x.writer.key x.writer.selector = .ok index) :
    x.enlist 0 = .ok () { x with store := { x.store with index } } := by
  simp only [enlist, if_true, hi]

-- What the writer finds when it publishes its next document.
structure Leaves (H : Hash) (x : Session) (idx : Nat) (doc : Bytes) (dirMgr : DirManager)
    (x' : Session) : Prop where
  dirMgr    : x'.store.dirMgr = dirMgr
  index     : x'.store.index = x.store.index
  writePos  : x'.store.ring.writePos = x.store.ring.writePos + doc.length
  stop      : x'.store.ring.stop = x.store.ring.stop
  key       : x'.writer.key = x.writer.key
  selector  : x'.writer.selector = x.writer.selector
  published : x'.writer.published = x.writer.published ++ [(H.fragmentKey x.writer.key idx,
    ⟨⟨x.store.ring.writePos, x.store.ring.generation, x.turns⟩, doc⟩)]

variable (H x idx doc) in
theorem leaves_installed (dirMgr : DirManager) :
    Leaves H x idx doc dirMgr (x.installed H idx doc (alone x.turns x.store doc) dirMgr) :=
  ⟨rfl, rfl, writePos_alone, rfl, rfl, rfl, rfl⟩

-- An object of two fragments.
theorem publish_pair {doc₀ doc₁ : Bytes} {index : DirTrie} (hx : x.Calm H n i)
    (hp : x.writer.published = []) (h₀ : 0 < doc₀.length ∧ doc₀.length ≤ AggBufferSize)
    (h₁ : 0 < doc₁.length ∧ doc₁.length ≤ AggBufferSize)
    (hfit : x.store.ring.writePos + doc₁.length + doc₀.length ≤ x.store.ring.stop)
    (hi : x.store.index.setIdentity x.writer.key x.writer.selector = .ok index)
    (hr : x.store.dirMgr.SetRoom H (H.fragmentKey x.writer.key 1))
    (hr' : ∀ j dm, x.store.dirMgr.set H (H.fragmentKey x.writer.key 1) x.store.ring.writePos
      (sectors doc₁.length) (odd x.store.ring.generation) (fun _ => 0) = .ok (j, dm) →
      dm.SetRoom H x.writer.key) :
    ∃ x₁ x₂ c, publish H i quiet 1 doc₁ x = .ok () x₁ ∧ publish H i quiet 0 doc₀ x₁ = .ok () x₂ ∧
      c ∈ x₂.commits ∧ c.before.SetRoom H x.writer.key := by
  have ⟨j, dm₁, hset, hpub, hcalm⟩ := publish_quiet hx h₁ (by omega) hr nofun
  have hm := maps_alone (d := doc₀) hx h₁ (by omega) hset
  have hroom := hr' j dm₁ hset
  have hl := leaves_installed H 1 x doc₁ dm₁
  have he : (x.installed H 1 doc₁ (alone x.turns x.store doc₁) dm₁).enlist 1 = .ok () _ :=
    if_neg (by decide)
  rw [he] at hpub
  -- The first document only matters by what it leaves behind.
  generalize x.installed H 1 doc₁ (alone x.turns x.store doc₁) dm₁ = x₁ at *
  have hm₁ : 0 = 0 → ∀ p ∈ x₁.writer.published, (alone x₁.turns x₁.store doc₀).store.Maps H p := by
    intro _ p hmem
    rw [hl.published, hp, List.nil_append, List.mem_singleton] at hmem
    exact hmem ▸ hm
  have ⟨_, dm₂, _, hpub₂, _⟩ := publish_quiet hcalm h₀ (by rw [hl.writePos, hl.stop]; exact hfit)
    (by rw [hl.dirMgr, hl.key]; exact hroom) hm₁
  rw [← hl.index, ← hl.key, ← hl.selector] at hi
  rw [enlist_head (x := x₁.installed H 0 doc₀ (alone x₁.turns x₁.store doc₀) dm₂) hi] at hpub₂
  refine ⟨x₁, _, ⟨x₁.store.dirMgr, _, _⟩, hpub, hpub₂, List.mem_append_right _ (.head _), ?_⟩
  exact hl.dirMgr ▸ hroom

-- A stripe of two megabytes with a writer.
def sampleSession (key : Bytes) : Session where
  store  := {
    dirMgr       := .init 256
    ring         := .cold 0 2097152 ⟨0, fun _ => 0⟩
    storageErr   := none
    closing      := false
    generation   := 0
    policyEpochs := fun _ => 0
    entries k    := if k = key then some 0 else none
    ram _        := none
    index        := .new 256 }
  writer := { key, selector := key, generation := 0, policy := 0, version := 1 }

theorem metaSize_sample : metaSize 2097152 = 3072 := by decide +kernel

theorem calm_sampleSession (H : Hash) (key : Bytes) : (sampleSession key).Calm H 256 0 where
  sound      := ⟨DirManager.made_init (by decide), by simp [sampleSession, Ring.cold, metaSize_sample]⟩
  lower      := le_rfl
  storageErr := rfl
  closing    := rfl
  fence      := by simp [Store.Fenced, sampleSession, Store.policyEpoch]

theorem length_sampleDocument {key data : Bytes} {total idx : Nat} :
    (CacheWriter.document H key 1 total idx data []).length = 72 + data.length :=
  CacheWriter.length_document

def samplePair (H : Hash) (key p : Bytes) : CacheWriter Session :=
  .performAll H 3072 2097152 key (storage H 0 quiet) (CacheWriter.pairCalls p)
    { stripe := sampleSession key, version := 1 }

theorem exists_commit {key p : Bytes} {index : DirTrie} (hp : p.length = TargetFragmentSize)
    (hi : (DirTrie.new 256).setIdentity key key = .ok index)
    (hroom : ∀ j dm, (DirManager.init 256).set H (H.fragmentKey key 1) 3072 512 false (fun _ => 0) =
      .ok (j, dm) → dm.SetRoom H key) :
    (samplePair H key p).err = none ∧
    (samplePair H key p).accepted.length = TargetFragmentSize + 1 ∧
    ∃ c ∈ (samplePair H key p).stripe.commits, c.before.SetRoom H key := by
  let doc₀ := CacheWriter.document H key 1 (TargetFragmentSize + 1) 0 p []
  let doc₁ := CacheWriter.document H key 1 (TargetFragmentSize + 1) 1 [0] []
  have hl₀ : doc₀.length = 72 + TargetFragmentSize := hp ▸ length_sampleDocument
  have hl₁ : doc₁.length = 73 := length_sampleDocument
  have hw : (sampleSession key).store.ring.writePos = 3072 := (Nat.zero_add _).trans metaSize_sample
  have hfit₀ : 0 < doc₀.length ∧ doc₀.length ≤ AggBufferSize := by rw [hl₀]; decide
  have hfit₁ : 0 < doc₁.length ∧ doc₁.length ≤ AggBufferSize := by rw [hl₁]; decide
  have hend : (sampleSession key).store.ring.writePos + doc₁.length + doc₀.length ≤ 0 + 2097152 := by
    rw [hw, hl₁, hl₀]
    decide
  have hroom : ∀ j dm, (sampleSession key).store.dirMgr.set H (H.fragmentKey key 1)
      (sampleSession key).store.ring.writePos (sectors doc₁.length) (odd 2) (fun _ => 0) = .ok (j, dm) →
      dm.SetRoom H key := by
    rw [hw, hl₁, show sectors 73 = 512 by decide, show odd 2 = false by decide]
    exact hroom
  have ⟨x₁, x₂, c, h₁, h₂, hc, hr⟩ := publish_pair (calm_sampleSession H key) rfl hfit₀ hfit₁ hend hi
    (DirManager.setRoom_init (by decide)) hroom
  have h₁ : (storage H 0 quiet).publish 1 doc₁ (sampleSession key) = .ok () x₁ := h₁
  have h₂ : (storage H 0 quiet).publish 0 doc₀ x₁ = .ok () x₂ := h₂
  have ⟨hs, he, ha⟩ := CacheWriter.close_pair h₁ h₂
  rw [samplePair, CacheWriter.performAll_pairCalls hp (by decide)]
  exact ⟨he, by rw [ha, List.length_append, hp]; rfl, c, hs ▸ hc, hr⟩

-- The digests that are needed for two fragments of an object.
def pairHash (key : Bytes) (md5 fragment md5' : BitVec 128) (sha256 sha256' : BitVec 256) : Hash where
  md5 p    := if p = key then md5 else if p = .be 16 fragment.toNat then md5' else fragment
  sha256 p := if p = key then sha256 else sha256'
  crc32 _  := 0

-- The fragments of "a" are in different buckets.
def spreadHash : Hash :=
  pairHash [97] 0x0cc175b9c0f1b6a831c399e269772661 0x74e00030acc90d005ae6c9b9c9cfc055
    0x861c559ea0a4b97423f0cb40cc9f4d3b
    0xca978112ca1bbdcafac231b39a23dc4da786eff8147c4e72b9807785afee48bb
    0x488b6093d6f1d40a9333043b472de80b995286fd8d5da0ecb4325d912edc9021

-- Those of "k217631" are in the same bucket and have the same tag.
def clashKey : Bytes := [107, 50, 49, 55, 54, 51, 49]

def clashHash : Hash :=
  pairHash clashKey 0x029549745b3e5eb6c5365aa6c3f4d815 0x773ce482ba88634928c6492c07711a43
    0x029103b8ebfa597662d2a6267b5a0792
    0x51b9a2efe60d313b61e39951925fa3a533d1499b6fae8fc8b9d24155a5b3961c
    0x576e7fa37f72c7d26dea27b547db5637341c4cf6520762b99d1daaaa0ffbb9bf

theorem position_spreadHash :
    (DirManager.init 256).position spreadHash (spreadHash.fragmentKey [97] 1) = ⟨0, 52, 2145⟩ ∧
    (DirManager.init 256).position spreadHash [97] = ⟨0, 40, 204⟩ := by
  decide +kernel

theorem position_clashHash :
    (DirManager.init 256).position clashHash (clashHash.fragmentKey clashKey 1) = ⟨0, 54, 41⟩ ∧
    (DirManager.init 256).position clashHash clashKey = ⟨0, 54, 41⟩ := by
  decide +kernel

theorem setRoom_spreadHash {j : Nat} {dm : DirManager}
    (h : (DirManager.init 256).set spreadHash (spreadHash.fragmentKey [97] 1) 3072 512 false
      (fun _ => 0) = .ok (j, dm)) : dm.SetRoom spreadHash [97] := by
  have hn : 4 ≤ 256 := by decide
  have hs := DirManager.shape_init hn
  have ⟨_, _, hi, _, hk⟩ := DirManager.set_installs hs (DirManager.chained_init hn)
    (by decide) (by decide) h
  have ⟨h₁, h₂⟩ := position_spreadHash
  have hpos : dm.position spreadHash [97] = ⟨0, 40, 204⟩ :=
    (DirManager.position_congr hi.geometry.1 hi.geometry.2).trans h₂
  have ⟨hp₁, hp₂⟩ := hs.position spreadHash [97]
  rw [h₂] at hp₁ hp₂
  refine .inr (.inl ?_)
  rw [hpos, hk (DirManager.setRoom_init hn) 0 hp₁ 40 hp₂ (by rw [h₁]; simp)]
  exact DirManager.entries_init hn hp₁ hp₂

theorem setRoom_clashHash {j : Nat} {dm : DirManager}
    (h : (DirManager.init 256).set clashHash (clashHash.fragmentKey clashKey 1) 3072 512 false
      (fun _ => 0) = .ok (j, dm)) : dm.SetRoom clashHash clashKey := by
  have hn : 4 ≤ 256 := by decide
  have ⟨h₁, h₂⟩ := position_clashHash
  have ⟨_, _, ho⟩ := DirManager.occupant_set (DirManager.shape_init hn) (DirManager.chained_init hn)
    (by decide) (by decide) h
  refine .inl ?_
  rw [ho clashKey (h₂.trans h₁.symm)]
  simp

theorem prepared_samplePair {key p : Bytes} {c : Commit} (hc : c ∈ (samplePair H key p).stripe.commits) :
    Prepared H 256 key (samplePair H key p) c :=
  have hr : (samplePair H key p).Reached H key (storage H 0 quiet) (sampleSession key) :=
    .performAll (.opened (CacheWriter.open_new _ _)) _
  prepared_of_reached (sound_quiet H 256) (calm_sampleSession H key).sound rfl hr hc

end Session

end Sample

end Bakemono
