import Bakemono.Error
import Bakemono.Lib.Bytes
import Bakemono.Lib.Run
import Bakemono.Stripe.State

namespace Bakemono

-- Entries are known by their address. `key` and `detached` are not fields of the source: the key for
-- which the entry was added, and whether `detach` has removed it. The writer is the one with the
-- number of the entry.
structure OpenDirEntry where
  key      : Bytes
  refCount : Int
  detached : Bool := false

structure OpenDir where
  entries : Bytes → Option Nat := fun _ => none
  heap    : List OpenDirEntry := []

namespace OpenDir

def get (od : OpenDir) (key : Bytes) : Option Nat := od.entries key

-- The entry of the key, and whether it is the one that was added.
def add (od : OpenDir) (key : Bytes) : OpenDir × Nat × Bool :=
  match od.entries key with
  | some p => (od, p, false)
  | none   =>
    let p := od.heap.length
    (⟨Function.update od.entries key (some p), od.heap ++ [{ key, refCount := 1 }]⟩, p, true)

def count (od : OpenDir) (p : Nat) (n : Int) : OpenDir :=
  { od with heap := od.heap.modify p fun e => { e with refCount := e.refCount + n } }

def acquire (od : OpenDir) (key : Bytes) : OpenDir × Option Nat :=
  match od.entries key with
  | some p => (od.count p 1, some p)
  | none   => (od, none)

def forceRemove (od : OpenDir) (key : Bytes) : OpenDir :=
  { od with entries := Function.update od.entries key none }

def release (od : OpenDir) (key : Bytes) (expected : Option Nat) : OpenDir :=
  match expected with
  | none   => od
  | some p =>
    let od := od.count p (-1)
    if (od.heap[p]?.any fun e => e.refCount ≤ 0) ∧ od.entries key = some p then od.forceRemove key else od

def detach (od : OpenDir) (key : Bytes) : OpenDir :=
  match od.entries key with
  | none   => od
  | some p => { od.forceRemove key with heap := od.heap.modify p fun e => { e with detached := true } }

end OpenDir

namespace Opened

-- The state of `closeOnce`.
inductive Once
  | idle
  | running
  | done
  deriving DecidableEq

structure CacheVC where
  key     : Bytes
  writing : Bool
  entry   : Option Nat
  once    : Once := .idle

end Opened

-- The open directory of a stripe and all that have been opened. A writer is admitted under the lock of
-- the stripe, but references are released without it. `opening` is the key that is being admitted,
-- after the conflict has been excluded and before the entry is added.
structure Opened where
  dir     : OpenDir := {}
  vcs     : List Opened.CacheVC := []
  opening : Option Bytes := none

namespace Opened

def newCacheVCRead (s : Opened) (key : Bytes) : Opened :=
  let (dir, entry) := s.dir.acquire key
  { s with dir, vcs := s.vcs ++ [{ key, writing := false, entry }] }

-- The first part of `newCacheVCWriteLocked`. The other checks come first.
def conflict (s : Opened) (checks : Except Err Unit) (key : Bytes) : Except Err Unit := do
  checks
  if s.dir.get key ≠ none then throw (.other "write conflict: another writer is active")

-- The second part. It does not look at the conflict that `Add` may report.
def newCacheVCWrite (s : Opened) (key : Bytes) : Opened :=
  let (dir, entry, _) := s.dir.add key
  { dir, vcs := s.vcs ++ [{ key, writing := true, entry := some entry }], opening := none }

def setOnce (s : Opened) (i : Nat) (once : Once) : Opened :=
  { s with vcs := s.vcs.modify i fun vc => { vc with once } }

-- The end of the function that `Close` and `Abort` call once.
def release (s : Opened) (i : Nat) (vc : CacheVC) : Opened :=
  { s.setOnce i .done with dir := s.dir.release vc.key vc.entry }

inductive Event
  | read (key : Bytes)
  | committed (key : Bytes)
  | check (key : Bytes)
  | refuse (key : Bytes)
  | write (key : Bytes)
  | close (i : Nat)
  | release (i : Nat)
  | detach (key : Bytes)

inductive Step (s : Opened) : Event → Opened → Prop
  | read (key) : (s.opening = none) → Step s (.read key) (s.newCacheVCRead key)
  -- `OpenReadCommitted` does not acquire an entry.
  | committed (key) :
    (s.opening = none) → (s.dir.get key = none) →
    Step s (.committed key) { s with vcs := s.vcs ++ [{ key, writing := false, entry := none }] }
  | check (checks key) :
    (s.opening = none) → (s.conflict checks key = .ok ()) →
    Step s (.check key) { s with opening := some key }
  -- The identity cannot be reserved.
  | refuse (key) : (s.opening = some key) → Step s (.refuse key) { s with opening := none }
  | write (key) : (s.opening = some key) → Step s (.write key) (s.newCacheVCWrite key)
  -- A call of `Close` or `Abort`. Only the first one has an effect.
  | close (i vc) :
    (s.vcs[i]? = some vc) →
    Step s (.close i) (if vc.once = .idle then s.setOnce i .running else s)
  | release (i vc) :
    (s.vcs[i]? = some vc) → (vc.once = .running) → Step s (.release i) (s.release i vc)
  | detach (key) : (s.opening = none) → Step s (.detach key) { s with dir := s.dir.detach key }

def Reachable (s : Opened) : Prop := Run Step (fun _ _ => True) {} s

def holds (p : Nat) (vc : CacheVC) : Bool := vc.entry = some p ∧ vc.once ≠ .done

section List

variable {α : Type*} {l : List α} {f : α → α} {i j : Nat} {a b : α} {p : α → Bool}

theorem getElem?_modify_eq_some :
    (l.modify i f)[j]? = some b ↔ ∃ a, l[j]? = some a ∧ b = if j = i then f a else a := by
  rw [List.getElem?_modify]
  cases l[j]?
  case none => simp
  case some a =>
    by_cases h : j = i
    case pos => simp [h, eq_comm]
    case neg => simp [h, Ne.symm h, eq_comm]

theorem countP_modify (h : l[i]? = some a) :
    (l.modify i f).countP p + (p a).toNat = l.countP p + (p (f a)).toNat := by
  induction l generalizing i
  case nil => simp at h
  case cons b l hi =>
    cases i
    case zero =>
      obtain rfl : b = a := by simpa using h
      cases hb : p b <;> cases hf : p (f b) <;> simp [hb, hf]
    case succ i =>
      have := hi (i := i) (by simpa using h)
      rw [List.modify_succ_cons, List.countP_cons, List.countP_cons]
      omega

theorem getElem?_concat_eq_some : (l ++ [a])[i]? = some b ↔ l[i]? = some b ∨ i = l.length ∧ b = a := by
  rw [List.getElem?_append]
  split
  case isTrue hi => simp [hi.ne]
  case isFalse hi =>
    by_cases he : i = l.length
    case pos => simp [he, eq_comm]
    case neg =>
      have h₁ : l[i]? = none := List.getElem?_eq_none_iff.mpr (by omega)
      have h₂ : [a][i - l.length]? = none := List.getElem?_eq_none_iff.mpr (by simp; omega)
      simp [h₁, h₂, he]

end List

section Invariant

variable {s s' : Opened} {e : Event} {key : Bytes} {i p : Nat} {vc : CacheVC}

structure Inv (s : Opened) : Prop where
  keyed   : ∀ key p, s.dir.entries key = some p → ∃ e, s.dir.heap[p]? = some e ∧ e.key = key
  count   : ∀ (p : Nat) e, s.dir.heap[p]? = some e → e.refCount = (s.vcs.countP (holds p) : Int)
  live    : ∀ (p : Nat) e, s.dir.heap[p]? = some e →
    (s.dir.entries e.key = some p ↔ e.detached = false ∧ 0 < e.refCount)
  held    : ∀ (i : Nat) p vc, s.vcs[i]? = some vc → vc.entry = some p →
    ∃ e, s.dir.heap[p]? = some e ∧ e.key = vc.key
  writer  : ∀ (i j : Nat) p v w, s.vcs[i]? = some v → s.vcs[j]? = some w → v.writing = true →
    w.writing = true → v.entry = some p → w.entry = some p → i = j
  owner   : ∀ (p : Nat) e, s.dir.heap[p]? = some e →
    ∃ (i : Nat) (v : CacheVC), s.vcs[i]? = some v ∧ v.writing = true ∧ v.entry = some p
  opening : ∀ key, s.opening = some key → s.dir.entries key = none

theorem inv_empty : Inv {} where
  keyed   := nofun
  count   := by simp
  live    := by simp
  held    := by simp
  writer  := by simp
  owner   := by simp
  opening := nofun

-- A reader without an entry.
theorem Inv.miss (h : s.Inv) :
    { s with vcs := s.vcs ++ [(⟨key, false, none, .idle⟩ : CacheVC)] }.Inv where
  keyed          := h.keyed
  count p e he   := by
    rw [h.count p e he, List.countP_append]
    simp [holds]
  live           := h.live
  held i p vc hi hp := by
    rcases getElem?_concat_eq_some.mp hi with hi | ⟨_, rfl⟩
    · exact h.held i p vc hi hp
    · cases hp
  writer i j p v w hi hj hv hw hp hq := by
    rcases getElem?_concat_eq_some.mp hi with hi | ⟨_, rfl⟩
    · rcases getElem?_concat_eq_some.mp hj with hj | ⟨_, rfl⟩
      · exact h.writer i j p v w hi hj hv hw hp hq
      · cases hw
    · cases hv
  owner p e he   := by
    have ⟨i, v, hi, hv⟩ := h.owner p e he
    exact ⟨i, v, getElem?_concat_eq_some.mpr (.inl hi), hv⟩
  opening        := h.opening

theorem Inv.hit (h : s.Inv) (hk : s.dir.entries key = some p) :
    { s with
      dir := s.dir.count p 1
      vcs := s.vcs ++ [(⟨key, false, some p, .idle⟩ : CacheVC)] }.Inv := by
  have ⟨hkeyed, hcount, hlive, hheld, hwriter, howner, hopening⟩ := h
  constructor <;> simp only [OpenDir.count, getElem?_modify_eq_some, getElem?_concat_eq_some, List.countP_append]
  case keyed => grind
  case count =>
    rintro q e' ⟨e, he, rfl⟩
    have := hcount q e he
    by_cases hq : q = p
    case pos => simp [hq, holds] at this ⊢; omega
    case neg => simp [hq, Ne.symm hq, holds] at this ⊢; omega
  case live => grind
  case held => grind
  case writer => grind
  case owner => grind
  case opening => grind

theorem Inv.read (h : s.Inv) : (s.newCacheVCRead key).Inv := by
  cases hk : s.dir.entries key
  case none => simpa [newCacheVCRead, OpenDir.acquire, hk] using h.miss
  case some p => simpa [newCacheVCRead, OpenDir.acquire, hk] using h.hit hk

theorem Inv.countP_eq_zero (h : s.Inv) (hp : s.dir.heap.length ≤ p) : s.vcs.countP (holds p) = 0 := by
  refine List.countP_eq_zero.mpr fun vc hvc hh => ?_
  have ⟨i, hi⟩ := List.mem_iff_getElem?.mp hvc
  have ⟨e, he, _⟩ := h.held i p vc hi (by simp [holds] at hh; exact hh.1)
  have := (List.getElem?_eq_some_iff.mp he).1
  omega

theorem Inv.write (h : s.Inv) (hk : s.opening = some key) : (s.newCacheVCWrite key).Inv := by
  have hnone := h.opening key hk
  have hzero := h.countP_eq_zero le_rfl
  have ⟨hkeyed, hcount, hlive, hheld, hwriter, howner, hopening⟩ := h
  have hlt {p : Nat} {e : OpenDirEntry} (he : s.dir.heap[p]? = some e) : p < s.dir.heap.length :=
    (List.getElem?_eq_some_iff.mp he).1
  constructor <;> simp only [newCacheVCWrite, OpenDir.add, hnone, getElem?_concat_eq_some,
    List.countP_append, Function.update_apply]
  case keyed => grind
  case count =>
    rintro p e (he | ⟨rfl, rfl⟩)
    · have := hcount p e he
      have := hlt he
      simp [holds, this.ne'] at *
      omega
    · simp [holds, hzero]
  case live => grind
  case held => grind
  case writer => grind
  case owner =>
    rintro p e (he | ⟨rfl, _⟩)
    · have ⟨i, v, hi, hv⟩ := howner p e he
      exact ⟨i, v, .inl hi, hv⟩
    · exact ⟨_, _, .inr ⟨rfl, rfl⟩, rfl, rfl⟩
  case opening => grind

theorem getElem?_setOnce {o : Once} {j : Nat} {v' : CacheVC} (h : (s.setOnce i o).vcs[j]? = some v') :
    ∃ v, s.vcs[j]? = some v ∧ v'.key = v.key ∧ v'.writing = v.writing ∧ v'.entry = v.entry := by
  obtain ⟨v, hv, rfl⟩ := getElem?_modify_eq_some.mp h
  refine ⟨v, hv, ?_⟩
  split <;> exact ⟨rfl, rfl, rfl⟩

theorem getElem?_count {od : OpenDir} {q : Nat} {n : Int} {e' : OpenDirEntry} :
    (od.count p n).heap[q]? = some e' ↔
      ∃ e, od.heap[q]? = some e ∧ e' = { e with refCount := e.refCount + if q = p then n else 0 } := by
  refine getElem?_modify_eq_some.trans ?_
  by_cases hq : q = p
  case pos => simp [hq]
  case neg => simp [hq]

theorem getElem?_setOnce_of {o : Once} {j : Nat} {v : CacheVC} (h : s.vcs[j]? = some v) :
    ∃ v', (s.setOnce i o).vcs[j]? = some v' ∧ v'.writing = v.writing ∧ v'.entry = v.entry := by
  refine ⟨_, getElem?_modify_eq_some.mpr ⟨v, h, rfl⟩, ?_⟩
  split <;> exact ⟨rfl, rfl⟩

-- A change of `closeOnce` and of the counters is no change of who writes what.
theorem Inv.setOnce_held {o : Once} {n : Int} (h : s.Inv) (j q : Nat) (v' : CacheVC)
    (hj : (s.setOnce i o).vcs[j]? = some v') (hq : v'.entry = some q) :
    ∃ e, (s.dir.count p n).heap[q]? = some e ∧ e.key = v'.key := by
  have ⟨v, hv, hkey, _, hentry⟩ := getElem?_setOnce hj
  have ⟨e, he, hek⟩ := h.held j q v hv (hentry ▸ hq)
  exact ⟨_, getElem?_count.mpr ⟨e, he, rfl⟩, hek.trans hkey.symm⟩

theorem Inv.setOnce_writer {o : Once} (h : s.Inv) (j k q : Nat) (v w : CacheVC)
    (hj : (s.setOnce i o).vcs[j]? = some v) (hk : (s.setOnce i o).vcs[k]? = some w)
    (hv : v.writing = true) (hw : w.writing = true) (hp : v.entry = some q) (hq : w.entry = some q) :
    j = k := by
  have ⟨v₀, hv₀, _, hwv, hev⟩ := getElem?_setOnce hj
  have ⟨w₀, hw₀, _, hww, hew⟩ := getElem?_setOnce hk
  exact h.writer j k q v₀ w₀ hv₀ hw₀ (hwv ▸ hv) (hww ▸ hw) (hev ▸ hp) (hew ▸ hq)

theorem Inv.setOnce_owner {o : Once} {e : OpenDirEntry} (h : s.Inv) (he : s.dir.heap[p]? = some e) :
    ∃ (j : Nat) (v : CacheVC), (s.setOnce i o).vcs[j]? = some v ∧ v.writing = true ∧ v.entry = some p := by
  have ⟨j, v, hj, hw, hp⟩ := h.owner p e he
  have ⟨v', hj', hw', hp'⟩ := getElem?_setOnce_of (i := i) (o := o) hj
  exact ⟨j, v', hj', hw'.trans hw, hp'.trans hp⟩

theorem count_zero {od : OpenDir} : od.count p 0 = od := by
  have : (fun e : OpenDirEntry => { e with refCount := e.refCount + 0 }) = id :=
    funext fun e => by rw [Int.add_zero]; rfl
  unfold OpenDir.count
  rw [this, List.modify_id]

-- The function of `closeOnce` begins.
theorem Inv.running (h : s.Inv) (hi : s.vcs[i]? = some vc) (ho : vc.once = .idle) :
    (s.setOnce i .running).Inv := by
  refine ⟨h.keyed, fun p e he => ?_, h.live, fun j q v hj hq => ?_, h.setOnce_writer,
    fun _ _ => h.setOnce_owner, h.opening⟩
  case refine_1 =>
    have hc := countP_modify (f := fun vc => { vc with once := .running }) (p := holds p) hi
    have heq : holds p { vc with once := .running } = holds p vc := by simp [holds, ho]
    have := h.count p e he
    simp only [heq] at hc
    simp only [setOnce]
    omega
  case refine_2 =>
    have := h.setOnce_held (p := q) (n := 0) j q v hj hq
    rwa [count_zero] at this

theorem Inv.detach (h : s.Inv) : { s with dir := s.dir.detach key }.Inv := by
  have ⟨hkeyed, hcount, hlive, hheld, hwriter, howner, hopening⟩ := h
  cases hk : s.dir.entries key
  case none => simpa [OpenDir.detach, hk] using h
  case some p =>
    constructor <;> simp only [OpenDir.detach, hk, OpenDir.forceRemove, getElem?_modify_eq_some,
      Function.update_apply]
    case keyed => grind
    case count => grind
    case live => grind
    case held => grind
    case writer => exact hwriter
    case owner => grind
    case opening => grind

-- One reference less.
theorem countP_release (hi : s.vcs[i]? = some vc) (ho : vc.once = .running) :
    (s.setOnce i .done).vcs.countP (holds p) + (if vc.entry = some p then 1 else 0) =
      s.vcs.countP (holds p) := by
  have hc := countP_modify (f := fun vc => { vc with once := .done }) (p := holds p) hi
  have h₁ : holds p { vc with once := .done } = false := by simp [holds]
  have h₂ : (holds p vc).toNat = if vc.entry = some p then 1 else 0 := by
    split <;> simp_all [holds]
  simp only [h₁, h₂] at hc
  exact hc

theorem release_entries {od : OpenDir} {e : OpenDirEntry} (he : od.heap[p]? = some e) :
    (od.release key (some p)).entries =
      if e.refCount - 1 ≤ 0 ∧ od.entries key = some p then Function.update od.entries key none
      else od.entries := by
  have hp : (od.count p (-1)).heap[p]? = some { e with refCount := e.refCount - 1 } :=
    getElem?_count.mpr ⟨e, he, by simp [Int.sub_eq_add_neg]⟩
  simp only [OpenDir.release, hp, Option.any_some, decide_eq_true_eq]
  exact apply_ite OpenDir.entries ..

-- The entry of a key is removed only if it is the expected one and its last reference is given up.
theorem Inv.entries_release {e : OpenDirEntry} {k : Bytes} {q : Nat} (h : s.Inv)
    (he : s.dir.heap[p]? = some e) :
    (s.dir.release e.key (some p)).entries k = some q ↔
      s.dir.entries k = some q ∧ (q = p → 0 < e.refCount - 1) := by
  have hkey (hk : s.dir.entries k = some p) : k = e.key := by
    have ⟨e', he', hk'⟩ := h.keyed k p hk
    obtain rfl := Option.some.inj (he.symm.trans he')
    exact hk'.symm
  rw [release_entries he]
  split
  case isTrue hc =>
    rw [Function.update_apply]
    split
    case isTrue hk =>
      subst hk
      simp only [reduceCtorEq, hc.2, Option.some.injEq, false_iff, not_and, not_forall, not_lt]
      exact fun hq => ⟨hq.symm, hc.1⟩
    case isFalse hk =>
      refine ⟨fun h' => ⟨h', fun hq => ?_⟩, And.left⟩
      exact absurd (hkey (hq ▸ h')) hk
  case isFalse hc =>
    refine ⟨fun h' => ⟨h', fun hq => ?_⟩, And.left⟩
    subst hq
    by_contra hle
    exact hc ⟨by omega, hkey h' ▸ h'⟩

theorem heap_release {od : OpenDir} : (od.release key (some p)).heap = (od.count p (-1)).heap := by
  simp only [OpenDir.release]
  split <;> rfl

theorem Inv.release (h : s.Inv) (hi : s.vcs[i]? = some vc) (ho : vc.once = .running) :
    (s.release i vc).Inv := by
  cases hp : vc.entry
  case none =>
    have hs : s.release i vc = s.setOnce i .done := by simp [Opened.release, hp, OpenDir.release, setOnce]
    rw [hs]
    refine ⟨h.keyed, fun p e he => ?_, h.live, fun j q v hj hq => ?_, h.setOnce_writer,
    fun _ _ => h.setOnce_owner, h.opening⟩
    case refine_1 =>
      have := countP_release (p := p) hi ho
      have := h.count p e he
      simp only [hp, reduceCtorEq, if_false] at *
      omega
    case refine_2 =>
      have := h.setOnce_held (p := q) (n := 0) j q v hj hq
      rwa [count_zero] at this
  case some p =>
    have ⟨e, he, hkey⟩ := h.held i p vc hi hp
    have hdir : (s.release i vc).dir = s.dir.release e.key (some p) := by rw [hkey, ← hp]; rfl
    have hheap : (s.release i vc).dir.heap = (s.dir.count p (-1)).heap := by rw [hdir, heap_release]
    have hmap {k q} : (s.release i vc).dir.entries k = some q ↔
        s.dir.entries k = some q ∧ (q = p → 0 < e.refCount - 1) := by
      rw [hdir]
      exact h.entries_release he
    refine ⟨fun k q hk => ?_, fun q e' he' => ?_, fun q e' he' => ?_, ?_, h.setOnce_writer, ?_, ?_⟩
    case refine_1 =>
      have ⟨e₀, he₀, hk₀⟩ := h.keyed k q (hmap.mp hk).1
      rw [hheap]
      exact ⟨_, getElem?_count.mpr ⟨e₀, he₀, rfl⟩, hk₀⟩
    case refine_2 =>
      obtain ⟨e₀, he₀, rfl⟩ := getElem?_count.mp (hheap ▸ he')
      have h₁ := countP_release (p := q) hi ho
      have h₂ := h.count q e₀ he₀
      show _ + _ = ((s.setOnce i .done).vcs.countP (holds q) : Int)
      by_cases hq : q = p
      case pos =>
        subst hq
        simp only [hp, if_true] at h₁ ⊢
        omega
      case neg =>
        simp only [hp, Option.some.injEq, Ne.symm hq, if_false] at h₁
        simp only [hq, if_false]
        omega
    case refine_3 =>
      obtain ⟨e₀, he₀, rfl⟩ := getElem?_count.mp (hheap ▸ he')
      have hl := h.live q e₀ he₀
      rw [hmap, hl]
      by_cases hq : q = p
      case pos =>
        subst hq
        obtain rfl := Option.some.inj (he.symm.trans he₀)
        simp only [forall_const, if_true]
        constructor
        · exact fun ⟨⟨hd, _⟩, hc⟩ => ⟨hd, hc⟩
        · exact fun ⟨hd, hc⟩ => ⟨⟨hd, by omega⟩, hc⟩
      case neg => simp [hq]
    case refine_4 => exact fun j q v hj hq => hheap ▸ h.setOnce_held j q v hj hq
    case refine_5 =>
      intro q e' he'
      have ⟨e₀, he₀, _⟩ := getElem?_count.mp (hheap ▸ he')
      exact h.setOnce_owner he₀
    case refine_6 =>
      intro k hk
      refine Option.eq_none_iff_forall_ne_some.mpr fun q hq => ?_
      exact nomatch (h.opening k hk).symm.trans (hmap.mp hq).1

theorem conflict_eq_ok {checks : Except Err Unit} :
    s.conflict checks key = .ok () ↔ checks = .ok () ∧ s.dir.entries key = none := by
  cases checks
  case error => simp [conflict, bind, Except.bind]
  case ok =>
    simp only [conflict, OpenDir.get, bind, Except.bind]
    by_cases hk : s.dir.entries key = none
    case pos => simp [hk, pure, Except.pure]
    case neg => simp [hk, throw, throwThe, MonadExceptOf.throw]

theorem Inv.step (h : s.Inv) (hs : Step s e s') : s'.Inv := by
  cases hs
  case read => exact h.read
  case committed => exact h.miss
  case check checks key _ hc =>
    refine ⟨h.keyed, h.count, h.live, h.held, h.writer, h.owner, fun k hk => ?_⟩
    obtain rfl := Option.some.inj hk
    exact conflict_eq_ok.mp hc |>.2
  case refuse => exact ⟨h.keyed, h.count, h.live, h.held, h.writer, h.owner, nofun⟩
  case write hk => exact h.write hk
  case close i vc hi =>
    split
    case isTrue ho => exact h.running hi ho
    case isFalse => exact h
  case release hi ho => exact h.release hi ho
  case detach => exact h.detach

theorem Reachable.inv (h : s.Reachable) : s.Inv :=
  Run.invariant h (fun _ _ _ h hs _ => h.step hs) inv_empty

-- What holds in every state.
structure Owned (s : Opened) : Prop where
  -- At most one of the writers of a key has its entry in the map.
  unique   : ∀ (i j : Nat) v w, s.vcs[i]? = some v → s.vcs[j]? = some w → v.writing = true →
    w.writing = true → v.key = w.key → v.entry ≠ none → w.entry ≠ none →
    s.dir.entries v.key = v.entry → s.dir.entries w.key = w.entry → i = j
  -- The counters are exact.
  refCount : ∀ (p : Nat) e, s.dir.heap[p]? = some e →
    e.refCount = (s.vcs.countP (holds p) : Int) ∧ 0 ≤ e.refCount
  -- An entry is in the map, under its key, as long as it is neither detached nor given up.
  mapped   : ∀ (p : Nat) e, s.dir.heap[p]? = some e →
    ((∃ key, s.dir.entries key = some p) ↔ e.detached = false ∧ 0 < e.refCount)
  -- Of others a release does not remove the entry.
  release  : ∀ (i : Nat) vc, s.vcs[i]? = some vc → vc.once = .running →
    ∀ key q, s.dir.entries key = some q → vc.entry ≠ some q →
      (s.release i vc).dir.entries key = some q
  -- Writers are refused if and only if there is an entry.
  conflict : ∀ checks key, (∃ e, s.conflict checks key = .error e) ↔
    (∃ e, checks = .error e) ∨ ∃ p, s.dir.get key = some p
  -- A writer that has not been refused gets an entry of its own.
  added    : ∀ key, s.opening = some key → (s.dir.add key).2 = (s.dir.heap.length, true)

theorem Inv.owned (h : s.Inv) : s.Owned where
  unique i j v w hi hj hv hw hkey hp hq hpv hpw := by
    have ⟨p, hp⟩ := Option.ne_none_iff_exists'.mp hp
    have hpw : w.entry = some p := by rw [← hpw, ← hkey, hpv, hp]
    exact h.writer i j p v w hi hj hv hw hp hpw
  refCount p e he := ⟨h.count p e he, h.count p e he ▸ Int.natCast_nonneg _⟩
  mapped p e he := by
    rw [← h.live p e he]
    refine ⟨fun ⟨key, hk⟩ => ?_, fun hk => ⟨_, hk⟩⟩
    have ⟨e', he', hkey⟩ := h.keyed key p hk
    obtain rfl := Option.some.inj (he.symm.trans he')
    exact hkey ▸ hk
  release i vc hi ho key q hq hne := by
    cases hp : vc.entry
    case none => simpa [Opened.release, hp, OpenDir.release] using hq
    case some p =>
      have ⟨e, he, hkey⟩ := h.held i p vc hi hp
      have hqp : q ≠ p := fun h => hne (h ▸ hp)
      have := (h.entries_release (k := key) (q := q) he).mpr ⟨hq, fun h => absurd h hqp⟩
      rwa [hkey, ← hp] at this
  conflict checks key := by
    have hok : s.conflict checks key = .ok () ↔ _ := conflict_eq_ok
    cases hc : s.conflict checks key
    case ok =>
      have ⟨h₁, h₂⟩ := hok.mp hc
      simp [h₁, OpenDir.get, h₂]
    case error e =>
      refine ⟨fun _ => ?_, fun _ => ⟨e, rfl⟩⟩
      by_contra hn
      simp only [not_or, not_exists] at hn
      have h₁ : checks = .ok () := by
        cases checks
        case error e => exact absurd rfl (hn.1 e)
        case ok => rfl
      have h₂ : s.dir.entries key = none := Option.eq_none_iff_forall_ne_some.mpr hn.2
      simp [hok.mpr ⟨h₁, h₂⟩] at hc
  added key hk := by simp [OpenDir.add, h.opening key hk]

-- Any interleaving of all who open, close and detach.
theorem reachable_owned (h : s.Reachable) : s.Owned := h.inv.owned

-- A reader keeps an entry that has been detached, and releases it after the next writer has come.
theorem reachable_owned_sample : ∃ s : Opened, s.Reachable ∧ s.dir.entries [97] = some 1 ∧
    s.dir.heap.map OpenDirEntry.refCount = [1, 1] ∧ s.Owned := by
  have hr : Reachable _ := .step (.step (.step (.step (.step (.step (.step (.step .refl
    (.check (.ok ()) [97] rfl rfl) trivial)
    (.write [97] rfl) trivial)
    (.read [97] rfl) trivial)
    (.detach [97] rfl) trivial)
    (.check (.ok ()) [97] rfl rfl) trivial)
    (.write [97] rfl) trivial)
    (.close 1 _ rfl) trivial)
    (.release 1 _ rfl rfl) trivial
  exact ⟨_, hr, by decide, by decide, reachable_owned hr⟩

end Invariant

section Stripe

variable {s : Opened} {t : Stripe} {i : Nat} {vc : CacheVC} {H : Hash}

-- The entries and writers of a stripe. The number of an entry is that of its writer.
structure Linked (s : Opened) (t : Stripe) : Prop where
  entries : t.entries = s.dir.entries
  writers : ∀ (p : Nat) e, s.dir.heap[p]? = some e → ∃ w, t.writers[p]? = some w ∧ w.key = e.key
  closed  : ∀ (i : Nat) p vc w, s.vcs[i]? = some vc → vc.writing = true → vc.entry = some p →
    vc.once = .done → t.writers[p]? = some w → w.closed = true

-- The last reference is released after the writer has been closed.
theorem release_refines (h : s.Inv) (hl : s.Linked t) (hi : s.vcs[i]? = some vc)
    (ho : vc.once = .running)
    (hc : vc.writing = true → ∀ p w, vc.entry = some p → t.writers[p]? = some w → w.closed = true) :
    (s.release i vc).dir.entries = t.entries ∨
      Stripe.Step H t .other { t with entries := (s.release i vc).dir.entries } := by
  have h' := h.release hi ho
  cases hp : vc.entry
  case none => exact .inl (by simp [Opened.release, hp, OpenDir.release, hl.entries])
  case some p =>
    have ⟨e, he, hkey⟩ := h.held i p vc hi hp
    have ⟨w, hw, hwk⟩ := hl.writers p e he
    have hdir : (s.release i vc).dir = s.dir.release e.key (some p) := by rw [hkey, ← hp]; rfl
    have hheap : (s.release i vc).dir.heap[p]? = some { e with refCount := e.refCount - 1 } := by
      rw [hdir, heap_release]
      exact getElem?_count.mpr ⟨e, he, by simp [Int.sub_eq_add_neg]⟩
    by_cases hlast : e.refCount - 1 ≤ 0 ∧ s.dir.entries e.key = some p
    case neg =>
      refine .inl ?_
      rw [hl.entries, hdir, release_entries he, if_neg hlast]
    case pos =>
      have hclosed : w.closed = true := by
        have ⟨j, v, hj, hv, hvp⟩ := h'.owner p _ hheap
        have hcount := h'.count p _ hheap
        have hdone : v.once = .done := by
          by_contra hne
          have : 0 < (s.release i vc).vcs.countP (holds p) :=
            List.countP_pos_iff.mpr ⟨v, List.mem_of_getElem? hj, by simp [holds, hvp, hne]⟩
          simp only at hcount
          omega
        obtain ⟨v₀, hv₀, rfl⟩ := getElem?_modify_eq_some.mp hj
        split at hdone
        case isTrue hji =>
          obtain rfl : v₀ = vc := Option.some.inj (hv₀.symm.trans (hji ▸ hi))
          exact hc (by simpa [hji] using hv) p w hp hw
        case isFalse hji =>
          simp only [hji, if_false] at hv hvp
          exact hl.closed j p v₀ w hv₀ hv hvp hdone hw
      have hent : (s.release i vc).dir.entries = Function.update t.entries w.key none := by
        rw [hl.entries, hdir, hwk, release_entries he, if_pos hlast]
      rw [hent]
      exact .inr (.release p w hw hclosed (by rw [hl.entries, hwk]; exact hlast.2))

end Stripe

end Opened

end Bakemono
