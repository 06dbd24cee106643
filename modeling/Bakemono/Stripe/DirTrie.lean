import Bakemono.Error
import Bakemono.Lib.Except
import Bakemono.Lib.Text
import Mathlib.Data.List.AList

namespace AList

variable {α : Type*} {β : α → Type*} [DecidableEq α] {a : α} {b : β a} {s : AList β}

theorem length_keys_erase_of_mem (h : a ∈ s) : (s.erase a).keys.length = s.keys.length - 1 := by
  rw [keys_erase]
  exact List.length_erase_of_mem (mem_keys.mp h)

theorem length_keys_insert_of_notMem (h : a ∉ s) :
    (s.insert a b).keys.length = s.keys.length + 1 := by
  rw [keys_insert, List.length_cons, List.erase_of_not_mem (mt mem_keys.mpr h)]

end AList

namespace Bakemono

def MaxIndexKeyBytes : Nat := 16 * 1024
def MaxIndexBytes : Nat := 16 * 1024 * 1024
def MaxIndexEntries : Nat := 65536

-- The identity index: the selector of every key, and the keys of every selector.
structure DirTrie where
  entries   : AList fun _ : Bytes => Bytes := ∅
  selectors : AList fun _ : Bytes => List Bytes := ∅
  capacity  : Nat
  bytes     : Nat := 0

def validateIdentity (key selector : Bytes) : Except Err Unit :=
  if key = [] ∨ selector = [] ∨ key.length > MaxIndexKeyBytes ∨
      selector.length > MaxIndexKeyBytes then
    .error (.other "invalid cache identity length")
  else
    .ok ()

namespace DirTrie

def new (capacity : Nat) : DirTrie := { capacity := min capacity MaxIndexEntries }

def lookup (t : DirTrie) (key : Bytes) : Option Bytes := t.entries.lookup key

-- The keys of a selector in the order of the map.
def keysOf (t : DirTrie) (selector : Bytes) : List Bytes := (t.selectors.lookup selector).getD []

-- A selector without keys is not kept.
def store (t : DirTrie) (selector : Bytes) (keys : List Bytes) : AList fun _ : Bytes => List Bytes :=
  if keys = [] then t.selectors.erase selector else t.selectors.insert selector keys

def deleteLocked (t : DirTrie) (key : Bytes) : DirTrie :=
  match t.lookup key with
  | none          => t
  | some selector =>
    { t with
      bytes     := t.bytes - (key.length + selector.length)
      entries   := t.entries.erase key
      selectors := t.store selector ((t.keysOf selector).erase key) }

def delete (t : DirTrie) (key : Bytes) : DirTrie := t.deleteLocked key

-- The size of the index after the selector of a key has been set.
def sizeWith (t : DirTrie) (key selector : Bytes) : Nat :=
  let size := t.bytes + key.length + selector.length
  match t.lookup key with
  | some old => size - (key.length + old.length)
  | none     => size

-- The entry is added to both maps.
def add (t : DirTrie) (key selector : Bytes) (size : Nat) : DirTrie :=
  { t with
    entries   := t.entries.insert key selector
    selectors := t.selectors.insert selector ((t.keysOf selector).insert key)
    bytes     := size }

def setIdentity (t : DirTrie) (key selector : Bytes) : Except Err DirTrie := do
  validateIdentity key selector
  let size := t.sizeWith key selector
  if (t.lookup key = none ∧ t.capacity ≤ t.entries.keys.length) ∨ size > MaxIndexBytes then
    throw .indexFull
  return (t.deleteLocked key).add key selector size

def keysForSelectorLimit (t : DirTrie) (selector : Bytes) (limit : Int) :
    Except Err (List Bytes) :=
  if (t.keysOf selector).length > limit then .error .indexFull else .ok (Bytes.sorted (t.keysOf selector))

-- The loop of `KeysForPrefixLimit`.
def gather (limit : Int) : List (List Bytes) → List Bytes → Except Err (List Bytes)
  | [],           keys => .ok keys
  | keys' :: rest, keys =>
    if (keys.length + keys'.length : Nat) > limit then .error .indexFull
    else gather limit rest (keys ++ keys')

def keysForPrefixLimit (t : DirTrie) (prefix' : Bytes) (limit : Int) : Except Err (List Bytes) := do
  let groups := t.selectors.entries.filter fun e => prefix'.isPrefixOf e.1
  return Bytes.sorted (← gather limit (groups.map Sigma.snd) [])

-- These two ignore the error of the limit.
def keysForSelector (t : DirTrie) (selector : Bytes) : List Bytes :=
  (t.keysForSelectorLimit selector MaxIndexEntries).toOption.getD []

def get (t : DirTrie) (prefix' : Bytes) : List Bytes :=
  (t.keysForPrefixLimit prefix' MaxIndexEntries).toOption.getD []

-- `Snapshot`, without the order.
def keys (t : DirTrie) : List Bytes := t.entries.keys

-- The two maps agree, and the bounds are kept.
structure Valid (t : DirTrie) : Prop where
  listed   : ∀ s k, k ∈ t.keysOf s ↔ t.lookup k = some s
  nodup    : ∀ s, (t.keysOf s).Nodup
  count    : t.entries.keys.length ≤ t.capacity
  capacity : t.capacity ≤ MaxIndexEntries
  bytes    : t.bytes ≤ MaxIndexBytes

variable {t t' : DirTrie} {key key' selector selector' : Bytes}

theorem valid_new (capacity : Nat) : (new capacity).Valid where
  listed   := by simp [new, keysOf, lookup]
  nodup    := by simp [new, keysOf]
  count    := by simp [new, AList.keys]
  capacity := Nat.min_le_right ..
  bytes    := Nat.zero_le _

section Delete

theorem lookup_store {keys : List Bytes} : ((t.store selector keys).lookup selector').getD [] =
    if selector' = selector then keys else t.keysOf selector' := by
  by_cases hs : selector' = selector
  case pos =>
    subst hs
    by_cases hk : keys = []
    case pos => rw [store, if_pos hk, if_pos rfl, AList.lookup_erase, hk]; rfl
    case neg => rw [store, if_neg hk, if_pos rfl, AList.lookup_insert]; rfl
  case neg =>
    by_cases hk : keys = []
    case pos => rw [store, if_pos hk, if_neg hs, AList.lookup_erase_ne hs]; rfl
    case neg => rw [store, if_neg hk, if_neg hs, AList.lookup_insert_ne hs]; rfl

theorem lookup_deleteLocked :
    (t.deleteLocked key).lookup key' = if key' = key then none else t.lookup key' := by
  unfold deleteLocked
  split
  case h_1 h =>
    by_cases hk : key' = key
    case pos => simp [hk, h]
    case neg => simp [hk]
  case h_2 =>
    by_cases hk : key' = key
    case pos =>
      subst hk
      rw [if_pos rfl]
      exact AList.lookup_erase ..
    case neg =>
      rw [if_neg hk]
      exact AList.lookup_erase_ne hk

@[simp] theorem lookup_delete :
    (t.delete key).lookup key' = if key' = key then none else t.lookup key' :=
  lookup_deleteLocked

@[simp] theorem capacity_deleteLocked : (t.deleteLocked key).capacity = t.capacity := by
  unfold deleteLocked
  split <;> rfl

theorem keysOf_deleteLocked (h : t.Valid) :
    (t.deleteLocked key).keysOf selector = (t.keysOf selector).erase key := by
  have hm (hk : t.lookup key ≠ some selector) : key ∉ t.keysOf selector := by
    rwa [h.listed]
  unfold deleteLocked
  split
  case h_1 hk => exact (List.erase_of_not_mem (hm (by simp [hk]))).symm
  case h_2 s hk =>
    refine lookup_store.trans ?_
    split
    case isTrue hs => rw [hs]
    case isFalse hs =>
      refine (List.erase_of_not_mem (hm fun hc => hs ?_)).symm
      exact Option.some.inj (hc.symm.trans hk)

theorem count_deleteLocked :
    (t.deleteLocked key).entries.keys.length =
      if t.lookup key = none then t.entries.keys.length else t.entries.keys.length - 1 := by
  unfold deleteLocked
  split
  case h_1 hk => simp [hk]
  case h_2 s hk =>
    have hm : key ∈ t.entries := AList.lookup_isSome.mp (Option.isSome_iff_exists.mpr ⟨s, hk⟩)
    rw [hk, if_neg nofun]
    exact AList.length_keys_erase_of_mem hm

theorem Valid.deleteLocked (h : t.Valid) : (t.deleteLocked key).Valid where
  listed s k := by
    rw [keysOf_deleteLocked h, (h.nodup s).mem_erase_iff, lookup_deleteLocked, h.listed]
    by_cases hk : k = key
    case pos => simp [hk]
    case neg => simp [hk]
  nodup s    := by
    rw [keysOf_deleteLocked h]
    exact (h.nodup s).erase _
  count      := by
    have hc := h.count
    rw [count_deleteLocked, capacity_deleteLocked]
    split <;> omega
  capacity   := by
    rw [capacity_deleteLocked]
    exact h.capacity
  bytes      := by
    unfold DirTrie.deleteLocked
    split
    case h_1 => exact h.bytes
    case h_2 => exact (Nat.sub_le ..).trans h.bytes

end Delete

section Set

theorem validateIdentity_eq_ok : validateIdentity key selector = .ok () ↔
    key ≠ [] ∧ selector ≠ [] ∧ key.length ≤ MaxIndexKeyBytes ∧
      selector.length ≤ MaxIndexKeyBytes := by
  unfold validateIdentity
  split
  case isTrue h => grind
  case isFalse h => grind

theorem setIdentity_eq_ok : t.setIdentity key selector = .ok t' ↔
    validateIdentity key selector = .ok () ∧
    (t.lookup key = none → t.entries.keys.length < t.capacity) ∧
    t.sizeWith key selector ≤ MaxIndexBytes ∧
    t' = (t.deleteLocked key).add key selector (t.sizeWith key selector) := by
  simp only [setIdentity, Except.bind_eq_ok, Except.check_bind_eq_ok, not_or, not_and, not_le,
    gt_iff_lt, not_lt]
  constructor
  case mp => exact fun ⟨_, hv, ⟨h₁, h₂⟩, ht⟩ => ⟨hv, h₁, h₂, (Except.ok.inj ht).symm⟩
  case mpr => exact fun ⟨hv, h₁, h₂, ht⟩ => ⟨(), hv, ⟨h₁, h₂⟩, ht ▸ rfl⟩

theorem lookup_add {size : Nat} :
    (t.add key selector size).lookup key' = if key' = key then some selector else t.lookup key' := by
  by_cases hk : key' = key
  case pos =>
    subst hk
    rw [if_pos rfl]
    exact AList.lookup_insert _
  case neg =>
    rw [if_neg hk]
    exact AList.lookup_insert_ne hk

theorem lookup_setIdentity (h : t.setIdentity key selector = .ok t') :
    t'.lookup key' = if key' = key then some selector else t.lookup key' := by
  have ⟨_, _, _, ht⟩ := setIdentity_eq_ok.mp h
  rw [ht, lookup_add, lookup_deleteLocked]
  split <;> rfl

theorem keysOf_add {size : Nat} : (t.add key selector size).keysOf selector' =
    if selector' = selector then (t.keysOf selector).insert key else t.keysOf selector' := by
  by_cases hs : selector' = selector
  case pos =>
    subst hs
    rw [if_pos rfl]
    simp [keysOf, add, AList.lookup_insert]
  case neg =>
    rw [if_neg hs]
    exact congrArg (Option.getD · []) (AList.lookup_insert_ne hs)

theorem Valid.setIdentity (h : t.Valid) (hs : t.setIdentity key selector = .ok t') : t'.Valid := by
  have ⟨_, hc, hb, ht⟩ := setIdentity_eq_ok.mp hs
  have hd : (t.deleteLocked key).Valid := h.deleteLocked
  subst ht
  refine ⟨fun s k => ?_, fun s => ?_, ?_, ?_, hb⟩
  case refine_1 =>
    have hl := hd.listed s k
    rw [lookup_deleteLocked] at hl
    rw [lookup_setIdentity hs, keysOf_add]
    by_cases hk : k = key
    case pos =>
      rw [if_pos hk] at hl ⊢
      split
      case isTrue he => simp [hk, he]
      case isFalse he => simpa [Ne.symm he] using hl
    case neg =>
      rw [if_neg hk] at hl ⊢
      rw [← hl]
      split
      case isTrue he => simp [List.mem_insert_iff, hk, he]
      case isFalse => rfl
  case refine_2 =>
    rw [keysOf_add]
    split
    case isTrue => exact (hd.nodup selector).insert
    case isFalse => exact hd.nodup s
  case refine_3 =>
    have hn : key ∉ (t.deleteLocked key).entries := by
      rw [← AList.lookup_eq_none]
      exact lookup_deleteLocked.trans (if_pos rfl)
    have hcap : ((t.deleteLocked key).add key selector (t.sizeWith key selector)).capacity =
        t.capacity := capacity_deleteLocked
    refine (AList.length_keys_insert_of_notMem hn).trans_le ?_
    have := h.count
    rw [count_deleteLocked, hcap]
    split
    case isTrue hk => exact hc hk
    case isFalse hk =>
      have hm : key ∈ t.entries := AList.lookup_isSome.mp (Option.isSome_iff_ne_none.mpr hk)
      have := List.length_pos_of_mem (AList.mem_keys.mp hm)
      omega
  case refine_4 => exact hd.capacity

-- The identity of a key which has it already can be set again.
theorem setIdentity_self (h : t.Valid) (hl : t.lookup key = some selector)
    (hv : validateIdentity key selector = .ok ()) : ∃ t', t.setIdentity key selector = .ok t' := by
  refine ⟨_, setIdentity_eq_ok.mpr ⟨hv, by simp [hl], ?_, rfl⟩⟩
  simp only [sizeWith, hl]
  have := h.bytes
  omega

end Set

section Keys

theorem Valid.keysOf_subset (h : t.Valid) : t.keysOf selector ⊆ t.entries.keys := by
  intro k hk
  rw [← AList.mem_keys, ← AList.lookup_isSome]
  exact Option.isSome_iff_exists.mpr ⟨_, (h.listed selector k).mp hk⟩

-- A selector never has more keys than the limit.
theorem Valid.keysForSelectorLimit_eq_ok (h : t.Valid) :
    t.keysForSelectorLimit selector MaxIndexEntries = .ok (Bytes.sorted (t.keysOf selector)) := by
  have hl : (t.keysOf selector).length ≤ MaxIndexEntries :=
    ((h.nodup selector).length_le_of_subset h.keysOf_subset).trans (h.count.trans h.capacity)
  exact if_neg (by omega)

theorem Valid.mem_keysForSelector (h : t.Valid) :
    key ∈ t.keysForSelector selector ↔ t.lookup key = some selector := by
  rw [keysForSelector, h.keysForSelectorLimit_eq_ok]
  simp [Bytes.sorted, Except.toOption, h.listed]

theorem gather_eq_ok {limit : Nat} {groups : List (List Bytes)} {keys : List Bytes}
    (h : keys.length + groups.flatten.length ≤ limit) :
    gather limit groups keys = .ok (keys ++ groups.flatten) := by
  induction groups generalizing keys
  case nil => simp [gather]
  case cons g groups hi =>
    rw [List.flatten_cons, List.length_append] at h
    rw [gather, if_neg (by omega), hi (by rw [List.length_append]; omega)]
    simp

-- The keys of all selectors with the given beginning.
def gathered (t : DirTrie) (prefix' : Bytes) : List Bytes :=
  ((t.selectors.entries.filter fun e => prefix'.isPrefixOf e.1).map Sigma.snd).flatten

theorem keysOf_of_mem {e : Sigma fun _ : Bytes => List Bytes} (h : e ∈ t.selectors.entries) :
    t.keysOf e.1 = e.2 := by
  rw [keysOf, Option.mem_def.mp (AList.mem_lookup_iff.mpr h)]
  rfl

theorem mem_gathered {p : Bytes} : key ∈ t.gathered p ↔ ∃ s, p <+: s ∧ key ∈ t.keysOf s := by
  simp only [gathered, List.mem_flatten, List.mem_map, List.mem_filter, List.isPrefixOf_iff_prefix]
  constructor
  case mp =>
    rintro ⟨_, ⟨e, ⟨he, hp⟩, rfl⟩, hk⟩
    exact ⟨e.1, hp, keysOf_of_mem he ▸ hk⟩
  case mpr =>
    rintro ⟨s, hp, hk⟩
    cases hl : t.selectors.lookup s
    case none => simp [keysOf, hl] at hk
    case some l =>
      refine ⟨l, ⟨⟨s, l⟩, ⟨AList.mem_lookup_iff.mp hl, hp⟩, rfl⟩, ?_⟩
      simpa [keysOf, hl] using hk

theorem Valid.mem_gathered (h : t.Valid) {p : Bytes} :
    key ∈ t.gathered p ↔ ∃ s, t.lookup key = some s ∧ p <+: s := by
  simp only [DirTrie.mem_gathered, h.listed, and_comm]

-- What is found within a limit is everything.
theorem mem_keysForSelectorLimit {limit : Int} {keys : List Bytes}
    (h : t.keysForSelectorLimit selector limit = .ok keys) : key ∈ keys ↔ key ∈ t.keysOf selector := by
  rw [keysForSelectorLimit] at h
  split at h
  case isTrue => cases h
  case isFalse =>
    cases h
    simp [Bytes.sorted]

theorem gather_of_eq_ok {limit : Int} {groups : List (List Bytes)} {keys keys' : List Bytes}
    (h : gather limit groups keys = .ok keys') : keys' = keys ++ groups.flatten := by
  induction groups generalizing keys
  case nil =>
    cases h
    simp
  case cons g groups hi =>
    rw [gather] at h
    split at h
    case isTrue => cases h
    case isFalse => simp [hi h]

theorem mem_keysForPrefixLimit {p : Bytes} {limit : Int} {keys : List Bytes}
    (h : t.keysForPrefixLimit p limit = .ok keys) : key ∈ keys ↔ key ∈ t.gathered p := by
  have ⟨keys', hg, he⟩ := Except.bind_eq_ok.mp h
  cases he
  rw [gather_of_eq_ok hg]
  simp [Bytes.sorted, gathered]

theorem Valid.nodup_gathered (h : t.Valid) {p : Bytes} : (t.gathered p).Nodup := by
  rw [gathered, List.nodup_flatten, List.pairwise_map]
  constructor
  case left =>
    simp only [List.mem_map, List.mem_filter]
    rintro _ ⟨e, ⟨he, _⟩, rfl⟩
    exact keysOf_of_mem he ▸ h.nodup e.1
  case right =>
    have hd : t.selectors.entries.Pairwise fun a b => a.1 ≠ b.1 :=
      List.pairwise_map.mp t.selectors.nodupKeys
    refine (hd.filter _).imp_of_mem fun {a b} ha hb hne => ?_
    rw [List.disjoint_left]
    intro k hka hkb
    have ha := keysOf_of_mem (List.mem_of_mem_filter ha)
    have hb := keysOf_of_mem (List.mem_of_mem_filter hb)
    have h₁ := (h.listed a.1 k).mp (ha ▸ hka)
    have h₂ := (h.listed b.1 k).mp (hb ▸ hkb)
    exact hne (Option.some.inj (h₁.symm.trans h₂))

theorem Valid.keysForPrefixLimit_eq_ok (h : t.Valid) {p : Bytes} :
    t.keysForPrefixLimit p MaxIndexEntries = .ok (Bytes.sorted (t.gathered p)) := by
  have hl : (t.gathered p).length ≤ MaxIndexEntries := by
    refine (h.nodup_gathered.length_le_of_subset fun k hk => ?_).trans (h.count.trans h.capacity)
    have ⟨s, hs, _⟩ := h.mem_gathered.mp hk
    rw [← AList.mem_keys, ← AList.lookup_isSome]
    exact Option.isSome_iff_exists.mpr ⟨s, hs⟩
  have he : gather MaxIndexEntries _ [] = .ok (t.gathered p) :=
    gather_eq_ok (by rw [List.length_nil, Nat.zero_add]; exact hl)
  simp [keysForPrefixLimit, he, bind, Except.bind, pure, Except.pure]

theorem Valid.mem_get (h : t.Valid) {p : Bytes} :
    key ∈ t.get p ↔ ∃ s, t.lookup key = some s ∧ p <+: s := by
  rw [get, h.keysForPrefixLimit_eq_ok]
  simp [Bytes.sorted, Except.toOption, h.mem_gathered]

end Keys

end DirTrie
end Bakemono
