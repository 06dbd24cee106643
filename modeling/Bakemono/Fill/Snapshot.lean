import Bakemono.Fill.Epochs
import Bakemono.Stripe.State

namespace Bakemono

def MaxFillVariants : Nat := 64

-- The stripes of a cache.
abbrev Cache (n : Nat) := Fin n → Stripe

-- A representation of a family: what the directory and the open directory know about its key.
structure FillHead (n : Nat) where
  stripe : Fin n
  key    : Bytes
  dir    : Option Dir
  writer : Option Nat
  deriving DecidableEq

-- The part of a token which is checked again.
structure FillToken (n : Nat) where
  fences        : Fences n
  wraps         : Fin n → Nat
  snapshot      : List (FillHead n)
  rangeSnapshot : List (FillHead n)

def FillToken.selector {n : Nat} (t : FillToken n) : Bytes := t.fences.own.selector

namespace Cache

variable {n : Nat}

def epochs (c : Cache n) : Epochs n where
  closing i    := (c i).closing
  generation i := (c i).generation
  policy i     := (c i).policyEpochs

def wraps (c : Cache n) (i : Fin n) : Nat := (c i).ring.generation

def fillHead (c : Cache n) (i : Fin n) (key : Bytes) : FillHead n where
  stripe := i
  key    := key
  dir    := ((c i).dirs key).map Entry.dir
  writer := (c i).entries key

-- The keys of all stripes, of which there must not be too many.
def heads (c : Cache n) (keys : DirTrie → Int → Except Err (List Bytes)) :
    Except Err (List (FillHead n)) :=
  (List.finRange n).foldlM (fun heads i => do
    let keys ← keys (c i).index (MaxFillVariants - heads.length)
    return heads ++ keys.map (c.fillHead i)) []

def fillSnapshotLocked (c : Cache n) (selector : Bytes) : Except Err (List (FillHead n)) :=
  c.heads fun t => t.keysForSelectorLimit selector

def rangeSnapshotLocked (c : Cache n) (selector : Bytes) : Except Err (List (FillHead n)) :=
  c.heads fun t => t.keysForPrefixLimit (selector ++ .text "\nrange:manifest:")

variable (H : Hash)

def checkFillLocked (c : Cache n) (t : FillToken n) : Except Err Unit := do
  t.fences.check H c.epochs
  if t.wraps ≠ c.wraps then throw .invalidated
  if (← c.fillSnapshotLocked t.selector) ≠ t.snapshot then throw .invalidated

def beginFill (c : Cache n) (key selector : Bytes) : Except Err (FillToken n) := do
  validateIdentity key selector
  if ∃ i, (c i).closing then throw .cacheClosed
  return {
    fences        := .begin H c.epochs selector
    wraps         := c.wraps
    snapshot      := ← c.fillSnapshotLocked selector
    rangeSnapshot := ← c.rangeSnapshotLocked selector }

def deriveFillLocked (c : Cache n) (parent : FillToken n) (key : Bytes) :
    Except Err (FillToken n) := do
  if parent.fences.parent ≠ none ∨ ¬Stripe.rangePrefix parent.selector <+: key then
    throw .invalidated
  validateIdentity key key
  parent.fences.check H c.epochs
  return {
    fences        := parent.fences.derive H c.epochs key
    wraps         := c.wraps
    snapshot      := ← c.fillSnapshotLocked key
    rangeSnapshot := [] }

variable {H} {c c' : Cache n} {t : FillToken n} {key selector : Bytes}

theorem checkFillLocked_eq_ok : c.checkFillLocked H t = .ok () ↔
    t.fences.check H c.epochs = .ok () ∧ t.wraps = c.wraps ∧
    c.fillSnapshotLocked t.selector = .ok t.snapshot := by
  simp only [checkFillLocked, Except.bind_eq_ok, Except.check_bind_eq_ok, Except.check_eq_ok, not_not]
  constructor
  case mp =>
    intro ⟨_, hf, hw, heads, hs, he, _⟩
    exact ⟨hf, hw, he ▸ hs⟩
  case mpr =>
    intro ⟨hf, hw, hs⟩
    exact ⟨(), hf, hw, _, hs, rfl, rfl⟩

-- Nothing of what a token remembers has changed.
structure Same (c c' : Cache n) : Prop where
  epochs  : c'.epochs = c.epochs
  wraps   : c'.wraps = c.wraps
  index   : ∀ i, (c' i).index = (c i).index
  dirs    : ∀ i, (c' i).dirs = (c i).dirs
  entries : ∀ i, (c' i).entries = (c i).entries

theorem Same.heads (h : c.Same c') (keys : DirTrie → Int → Except Err (List Bytes)) :
    c'.heads keys = c.heads keys := by
  have hf (i) : c'.fillHead i = c.fillHead i := by
    funext key
    simp only [fillHead, h.dirs, h.entries]
  simp only [Cache.heads, h.index, hf]

theorem Same.checkFillLocked (h : c.Same c') : c'.checkFillLocked H t = c.checkFillLocked H t := by
  simp only [Cache.checkFillLocked, h.epochs, h.wraps, fillSnapshotLocked, h.heads]

-- A token is valid when it has been captured.
theorem checkFillLocked_beginFill (h : c.beginFill H key selector = .ok t) :
    c.checkFillLocked H t = .ok () ∧ t.selector = selector := by
  simp only [beginFill, Except.bind_eq_ok, Except.check_bind_eq_ok, not_exists] at h
  have ⟨_, _, hc, heads, hs, _, _, he⟩ := h
  cases he
  refine ⟨checkFillLocked_eq_ok.mpr ⟨?_, rfl, hs⟩, rfl⟩
  rw [Fences.check_eq_ok]
  refine ⟨nofun, Fence.check_eq_ok.mpr fun i => ⟨?_, rfl, rfl⟩⟩
  simpa [epochs] using hc i

-- The heads are those of the keys that are found.
theorem mem_heads {keys : DirTrie → Int → Except Err (List Bytes)} {found : List (FillHead n)}
    {head : FillHead n} (Finds : DirTrie → Bytes → Prop)
    (hk : ∀ t limit ks, keys t limit = .ok ks → ∀ k, k ∈ ks ↔ Finds t k)
    (h : c.heads keys = .ok found) :
    head ∈ found ↔ ∃ i k, Finds (c i).index k ∧ head = c.fillHead i k := by
  have go {l : List (Fin n)} {acc : List (FillHead n)} (h : l.foldlM (fun heads i => do
        let ks ← keys (c i).index (MaxFillVariants - heads.length)
        return heads ++ ks.map (c.fillHead i)) acc = .ok found) :
      head ∈ found ↔ head ∈ acc ∨ ∃ i ∈ l, ∃ k, Finds (c i).index k ∧ head = c.fillHead i k := by
    induction l generalizing acc
    case nil =>
      cases h
      simp
    case cons i l hi =>
      simp only [List.foldlM_cons, Except.bind_eq_ok] at h
      have ⟨acc', ⟨ks, hks, ha⟩, h⟩ := h
      cases ha
      rw [hi h]
      simp only [List.mem_append, List.mem_map, hk _ _ _ hks, List.exists_mem_cons_iff, or_assoc]
      simp only [eq_comm]
  rw [go h]
  simp

-- The snapshot of a family has its keys.
theorem mem_fillSnapshotLocked {heads : List (FillHead n)} {head : FillHead n}
    (h : c.fillSnapshotLocked selector = .ok heads) :
    head ∈ heads ↔ ∃ i k, k ∈ (c i).index.keysOf selector ∧ head = c.fillHead i k :=
  mem_heads (fun t k => k ∈ t.keysOf selector)
    (fun _ _ _ h _ => DirTrie.mem_keysForSelectorLimit h) h

theorem mem_rangeSnapshotLocked {heads : List (FillHead n)} {head : FillHead n}
    (h : c.rangeSnapshotLocked selector = .ok heads) :
    head ∈ heads ↔ ∃ i k, k ∈ (c i).index.gathered (selector ++ .text "\nrange:manifest:") ∧
      head = c.fillHead i k :=
  mem_heads (fun t k => k ∈ t.gathered (selector ++ .text "\nrange:manifest:"))
    (fun _ _ _ h _ => DirTrie.mem_keysForPrefixLimit h) h

end Cache
end Bakemono
