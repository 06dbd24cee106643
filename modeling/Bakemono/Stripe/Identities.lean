import Bakemono.Stripe.DirTrie

namespace Bakemono

-- The index without a given capacity has the largest one.
def newDirTrie (capacity : Option Int) : DirTrie :=
  let limit : Int :=
    match capacity with
    | some c => if c < MaxIndexEntries then c else MaxIndexEntries
    | none   => MaxIndexEntries
  .new limit.toNat

namespace DirTrie

-- The entries in the order of their keys.
def snapshot (t : DirTrie) : List (Bytes × Bytes) :=
  (t.entries.entries.map fun e => (e.1, e.2)).mergeSort fun x y => decide (x.1 ≤ y.1)

-- An entry of `Restore`.
def setNew (t : DirTrie) (e : Bytes × Bytes) : Except Err DirTrie :=
  if t.lookup e.1 ≠ none then .error (.other "duplicate cache identity")
  else t.setIdentity e.1 e.2

def restore (t : DirTrie) (entries : List (Bytes × Bytes)) : Except Err DirTrie := do
  let replacement ← entries.foldlM setNew (newDirTrie (some t.capacity))
  return { t with
    entries   := replacement.entries
    selectors := replacement.selectors
    bytes     := replacement.bytes }

inductive Op
  | setIdentity (key selector : Bytes)
  | delete (key : Bytes)
  | restore (entries : List (Bytes × Bytes))

-- The error that is returned, and the index after the call.
def Op.apply (t : DirTrie) : Op → Option Err × DirTrie
  | setIdentity key selector =>
    match t.setIdentity key selector with
    | .ok t'    => (none, t')
    | .error e  => (some e, t)
  | delete key => (none, t.delete key)
  | restore entries =>
    match t.restore entries with
    | .ok t'    => (none, t')
    | .error e  => (some e, t)

def run (t : DirTrie) (ops : List Op) : DirTrie := ops.foldl (fun t op => (op.apply t).2) t

section Exact

variable {t t' : DirTrie} {key key' selector : Bytes}

def size (e : Sigma fun _ : Bytes => Bytes) : Nat := e.1.length + e.2.length

-- In addition to `Valid`: no selector is empty, the sizes are counted exactly, and the identities are
-- those that can be set.
structure Exact (t : DirTrie) : Prop extends t.Valid where
  nonempty : ∀ s, t.selectors.lookup s ≠ some []
  sum      : t.bytes = (t.entries.entries.map size).sum
  accepted : ∀ e ∈ t.entries.entries, validateIdentity e.1 e.2 = .ok ()

theorem exact_new (capacity : Nat) : (new capacity).Exact where
  toValid  := valid_new capacity
  nonempty := by simp [new]
  sum      := by simp [new]
  accepted := by simp [new]

-- The entry of a key and the others.
theorem entries_perm_erase (h : t.lookup key = some selector) :
    t.entries.entries.Perm (⟨key, selector⟩ :: (t.entries.erase key).entries) := by
  have hmem : ⟨key, selector⟩ ∈ t.entries.entries := AList.mem_lookup_iff.mp h
  have ⟨s, l₁, l₂, hn, hl, he⟩ := List.exists_of_kerase (List.mem_keys_of_mem hmem)
  have hs : s = selector := by
    have hmem' : ⟨key, s⟩ ∈ t.entries.entries := by simp [hl]
    have h' : t.lookup key = some s := AList.mem_lookup_iff.mpr hmem'
    exact Option.some.inj (h'.symm.trans h)
  subst hs
  have : (t.entries.erase key).entries = l₁ ++ l₂ := he
  rw [this, hl]
  exact List.perm_middle

theorem deleteLocked_of_none (h : t.lookup key = none) : t.deleteLocked key = t := by
  rw [deleteLocked, h]

theorem deleteLocked_of_some (h : t.lookup key = some selector) : t.deleteLocked key =
    { t with
      bytes     := t.bytes - (key.length + selector.length)
      entries   := t.entries.erase key
      selectors := t.store selector ((t.keysOf selector).erase key) } := by
  rw [deleteLocked, h]

theorem lookup_store_ne_nil {keys : List Bytes} {s : Bytes} (h : t.selectors.lookup s ≠ some []) :
    (t.store selector keys).lookup s ≠ some [] := by
  by_cases hs : s = selector
  case pos =>
    subst hs
    by_cases hk : keys = []
    case pos => simp [store, hk]
    case neg => simp [store, hk]
  case neg =>
    by_cases hk : keys = []
    case pos => simpa [store, hk, AList.lookup_erase_ne hs] using h
    case neg => simpa [store, hk, AList.lookup_insert_ne hs] using h

theorem Exact.deleteLocked (h : t.Exact) : (t.deleteLocked key).Exact := by
  have hv : (t.deleteLocked key).Valid := h.toValid.deleteLocked
  cases hk : t.lookup key
  case none => rwa [deleteLocked_of_none hk]
  case some selector =>
    rw [deleteLocked_of_some hk] at hv ⊢
    have hp := entries_perm_erase hk
    refine ⟨hv, fun s => lookup_store_ne_nil (h.nonempty s), ?_, fun e he => ?_⟩
    case refine_1 =>
      have := h.sum.trans (hp.map size).sum_eq
      simp only [List.map_cons, List.sum_cons, size] at this ⊢
      omega
    case refine_2 => exact h.accepted e (hp.mem_iff.mpr (.tail _ he))

-- The size is computed as if the old entry had been removed before.
theorem Exact.sizeWith_eq (h : t.Exact) :
    t.sizeWith key selector = (t.deleteLocked key).bytes + key.length + selector.length := by
  unfold sizeWith
  cases hk : t.lookup key
  case none => rw [deleteLocked_of_none hk]
  case some old =>
    have := h.sum.trans ((entries_perm_erase hk).map size).sum_eq
    rw [deleteLocked_of_some hk]
    simp only [List.map_cons, List.sum_cons, size] at this ⊢
    omega

theorem entries_setIdentity (h : t.setIdentity key selector = .ok t') :
    t'.entries.entries = ⟨key, selector⟩ :: (t.deleteLocked key).entries.entries := by
  have ⟨_, _, _, ht⟩ := setIdentity_eq_ok.mp h
  have hn : key ∉ (t.deleteLocked key).entries := by
    rw [← AList.lookup_eq_none]
    exact lookup_deleteLocked.trans (if_pos rfl)
  subst ht
  exact AList.entries_insert_of_notMem hn

theorem Exact.setIdentity (h : t.Exact) (hs : t.setIdentity key selector = .ok t') : t'.Exact := by
  have ⟨hacc, _, _, ht⟩ := setIdentity_eq_ok.mp hs
  have hd : (t.deleteLocked key).Exact := h.deleteLocked
  have he := entries_setIdentity hs
  refine ⟨h.toValid.setIdentity hs, fun s => ?_, ?_, ?_⟩
  case refine_1 =>
    subst ht
    by_cases hs : s = selector
    case pos =>
      subst hs
      have hne : ((t.deleteLocked key).keysOf s).insert key ≠ [] :=
        List.ne_nil_of_mem (List.mem_insert_self ..)
      simpa [add, AList.lookup_insert] using hne
    case neg => simpa [add, AList.lookup_insert_ne hs] using hd.nonempty s
  case refine_2 =>
    have hb : t'.bytes = t.sizeWith key selector := by rw [ht]; rfl
    have hz : size ⟨key, selector⟩ = key.length + selector.length := rfl
    rw [hb, h.sizeWith_eq, hd.sum, he, List.map_cons, List.sum_cons, hz]
    omega
  case refine_3 =>
    intro e hm
    rw [he] at hm
    cases hm
    case head => exact hacc
    case tail hm => exact hd.accepted e hm

end Exact

section Restore

variable {t t' : DirTrie} {es : List (Bytes × Bytes)} {e : Bytes × Bytes}

theorem capacity_setIdentity {key selector : Bytes} (h : t.setIdentity key selector = .ok t') :
    t'.capacity = t.capacity := by
  have ⟨_, _, _, ht⟩ := setIdentity_eq_ok.mp h
  rw [ht]
  exact capacity_deleteLocked

theorem setNew_eq_ok : t.setNew e = .ok t' ↔ t.lookup e.1 = none ∧ t.setIdentity e.1 e.2 = .ok t' := by
  unfold setNew
  split
  case isTrue h => simp [h]
  case isFalse h => simp [not_not.mp h]

theorem newDirTrie_capacity (h : t.Valid) : newDirTrie (some t.capacity) = new t.capacity := by
  have hc := h.capacity
  unfold newDirTrie
  simp only
  split
  case isTrue => rfl
  case isFalse => rw [show t.capacity = MaxIndexEntries by omega]; rfl

theorem Exact.foldlM_setNew (h : t.Exact) (hf : es.foldlM setNew t = .ok t') :
    t'.Exact ∧ t'.capacity = t.capacity := by
  induction es generalizing t
  case nil =>
    obtain rfl := Except.ok.inj hf
    exact ⟨h, rfl⟩
  case cons e es hi =>
    rw [List.foldlM_cons] at hf
    have ⟨t₁, he, hf⟩ := Except.bind_eq_ok.mp hf
    have hs := (setNew_eq_ok.mp he).2
    have ⟨h', hc⟩ := hi (h.setIdentity hs) hf
    exact ⟨h', hc.trans (capacity_setIdentity hs)⟩

-- The index that is put in place of another one of the same capacity.
theorem restore_eq_replacement (h : t.Valid) : t.restore es = es.foldlM setNew (new t.capacity) := by
  unfold restore
  rw [newDirTrie_capacity h]
  cases hf : es.foldlM setNew (new t.capacity)
  case error => rfl
  case ok r =>
    have hc : r.capacity = t.capacity :=
      ((exact_new t.capacity).foldlM_setNew hf).2.trans (Nat.min_eq_left h.capacity)
    show Except.ok _ = _
    rw [← hc]

theorem Exact.restore (h : t.Exact) (hr : t.restore es = .ok t') : t'.Exact := by
  rw [restore_eq_replacement h.toValid] at hr
  exact ((exact_new _).foldlM_setNew hr).1

def pair (e : Sigma fun _ : Bytes => Bytes) : Bytes × Bytes := (e.1, e.2)

-- The same maps, up to the order of their entries.
structure Same (t t' : DirTrie) : Prop where
  entries   : ∀ k, t.entries.lookup k = t'.entries.lookup k
  selectors : ∀ s, Option.Rel List.Perm (t.selectors.lookup s) (t'.selectors.lookup s)
  bytes     : t.bytes = t'.bytes
  capacity  : t.capacity = t'.capacity

theorem Exact.same_of_perm (h : t.Exact) (h' : t'.Exact) (hc : t.capacity = t'.capacity)
    (hp : t.entries.entries.Perm t'.entries.entries) : t.Same t' := by
  have hl (k : Bytes) : t.entries.lookup k = t'.entries.lookup k := AList.perm_lookup hp
  refine ⟨hl, fun s => ?_, ?_, hc⟩
  case refine_1 =>
    have hperm : (t.keysOf s).Perm (t'.keysOf s) := by
      refine (List.perm_ext_iff_of_nodup (h.nodup s) (h'.nodup s)).mpr fun k => ?_
      rw [h.listed, h'.listed, lookup, lookup, hl]
    have h₁ := h.nonempty s
    have h₂ := h'.nonempty s
    unfold keysOf at hperm
    cases hs : t.selectors.lookup s <;> cases hs' : t'.selectors.lookup s <;>
      rw [hs, hs'] at hperm
    case none.none => exact .none
    case none.some => exact absurd (hs' ▸ congrArg some (List.nil_perm.mp hperm)) h₂
    case some.none => exact absurd (hs ▸ congrArg some (List.perm_nil.mp hperm)) h₁
    case some.some => exact .some hperm
  case refine_2 => rw [h.sum, h'.sum, (hp.map size).sum_eq]

-- Entries with distinct keys that fit are set one after the other.
theorem foldlM_setNew_eq_ok {l : List (Sigma fun _ : Bytes => Bytes)} (h : t.Exact)
    (hn : (l ++ t.entries.entries).NodupKeys) (hacc : ∀ e ∈ l, validateIdentity e.1 e.2 = .ok ())
    (hc : l.length + t.entries.entries.length ≤ t.capacity)
    (hb : (l.map size).sum + t.bytes ≤ MaxIndexBytes) :
    ∃ t', (l.map pair).foldlM setNew t = .ok t' ∧ t'.entries.entries.Perm (l ++ t.entries.entries) := by
  induction l generalizing t
  case nil => exact ⟨t, rfl, .refl _⟩
  case cons e l hi =>
    simp only [List.length_cons, List.map_cons, List.sum_cons] at hc hb
    have hnew : t.lookup e.1 = none := by
      refine AList.lookup_eq_none.mpr fun hk => ?_
      have hn : e.1 ∉ (l ++ t.entries.entries).keys := (List.nodupKeys_cons.mp hn).1
      exact hn (List.keys_append .. ▸ List.mem_append_right _ hk)
    have hd := deleteLocked_of_none hnew
    have ⟨t₁, hset⟩ : ∃ t₁, t.setIdentity e.1 e.2 = .ok t₁ := by
      refine ⟨_, setIdentity_eq_ok.mpr ⟨hacc e (.head _), fun _ => ?_, ?_, rfl⟩⟩
      · have : t.entries.keys.length = t.entries.entries.length := List.length_map ..
        omega
      · rw [h.sizeWith_eq, hd]
        simp only [size] at hb
        omega
    have h₁ : t₁.Exact := h.setIdentity hset
    have he : t₁.entries.entries = e :: t.entries.entries := hd ▸ entries_setIdentity hset
    have hb₁ : t₁.bytes = size e + t.bytes := by rw [h₁.sum, h.sum, he, List.map_cons, List.sum_cons]
    have hmid : (l ++ t₁.entries.entries).Perm (e :: l ++ t.entries.entries) :=
      he ▸ List.perm_middle
    have ⟨t', hf, hp⟩ := hi h₁ ((List.perm_nodupKeys hmid).mpr hn)
      (fun e he => hacc e (.tail _ he))
      (by rw [he, List.length_cons, capacity_setIdentity hset]; omega) (by omega)
    refine ⟨t', ?_, hp.trans hmid⟩
    rw [List.map_cons, List.foldlM_cons]
    exact Except.bind_eq_ok.mpr ⟨t₁, setNew_eq_ok.mpr ⟨hnew, hset⟩, hf⟩

theorem Exact.restore_snapshot (h : t.Exact) : ∃ t', t.restore t.snapshot = .ok t' ∧ t'.Same t := by
  -- The snapshot has the entries in another order.
  have hs : t.snapshot.Perm (t.entries.entries.map pair) := List.mergeSort_perm ..
  obtain ⟨l, hl, hperm⟩ : ∃ l, t.snapshot = List.map pair l ∧ l.Perm t.entries.entries := by
    let unpair (e : Bytes × Bytes) : Sigma fun _ : Bytes => Bytes := ⟨e.1, e.2⟩
    have hu : unpair ∘ pair = id := rfl
    refine ⟨t.snapshot.map unpair, ?_, ?_⟩
    · rw [List.map_map]
      exact (List.map_id _).symm
    · have := hs.map unpair
      rwa [List.map_map, hu, List.map_id] at this
  have hcap : (new t.capacity).capacity = t.capacity := Nat.min_eq_left h.capacity
  have hlen : t.entries.keys.length = t.entries.entries.length := List.length_map ..
  have hcount := h.count
  have hbytes := h.bytes
  obtain ⟨t', hf, hp⟩ := foldlM_setNew_eq_ok (l := l) (exact_new t.capacity)
    (by simpa [new] using (List.perm_nodupKeys hperm).mpr t.entries.nodupKeys)
    (fun e he => h.accepted e (hperm.mem_iff.mp he))
    (by rw [hperm.length_eq, hcap]; simp [new]; omega)
    (by rw [(hperm.map size).sum_eq, ← h.sum]; simpa [new] using hbytes)
  obtain ⟨h', hc⟩ := (exact_new t.capacity).foldlM_setNew hf
  have hp' : t'.entries.entries.Perm t.entries.entries := by
    refine hp.trans ?_
    simpa [new] using hperm
  refine ⟨t', ?_, h'.same_of_perm h (hc.trans hcap) hp'⟩
  rw [restore_eq_replacement h.toValid, hl, hf]

end Restore

section Run

variable {t : DirTrie} {op : Op} {ops : List Op} {keys : List Bytes}

theorem Exact.apply (h : t.Exact) : (op.apply t).2.Exact := by
  cases op <;> simp only [Op.apply]
  case setIdentity =>
    split
    case h_1 hs => exact h.setIdentity hs
    case h_2 => exact h
  case delete => exact h.deleteLocked
  case restore =>
    split
    case h_1 hr => exact h.restore hr
    case h_2 => exact h

theorem Exact.run (h : t.Exact) : (t.run ops).Exact := by
  induction ops generalizing t
  case nil => exact h
  case cons op ops hi => exact hi h.apply

theorem apply_error {e : Err} (h : (op.apply t).1 = some e) : (op.apply t).2 = t := by
  cases op <;> simp only [Op.apply] at h ⊢
  case setIdentity =>
    split at h
    case h_1 => cases h
    case h_2 => rfl
  case delete => cases h
  case restore =>
    split at h
    case h_1 => cases h
    case h_2 => rfl

-- Without duplicates the order is strict.
theorem sorted_lt (h : keys.Nodup) : (Bytes.sorted keys).Pairwise (· < ·) := by
  have hne : (Bytes.sorted keys).Nodup := (List.mergeSort_perm ..).nodup_iff.mpr h
  refine ((Bytes.pairwise_sorted keys).and hne).imp fun {x y} ⟨hxy, hxy'⟩ => ?_
  by_contra hlt
  exact hxy' (List.le_antisymm (by simpa using hxy) (List.not_lt.mp hlt))

-- All that holds of an index after any calls.
theorem run_index (capacity : Option Int) (ops : List Op) :
    let t := (newDirTrie capacity).run ops
    (∀ s k, (∃ ks, t.selectors.lookup s = some ks ∧ k ∈ ks) ↔ t.entries.lookup k = some s) ∧
    (∀ s ks, t.selectors.lookup s = some ks → ks ≠ [] ∧ ks.Nodup) ∧
    t.bytes = (t.entries.entries.map fun e => e.1.length + e.2.length).sum ∧
    t.entries.keys.length ≤ t.capacity ∧ t.capacity ≤ MaxIndexEntries ∧ t.bytes ≤ MaxIndexBytes ∧
    (∀ (op : Op) e, (op.apply t).1 = some e → (op.apply t).2 = t) ∧
    (∃ t', t.restore t.snapshot = .ok t' ∧ t'.Same t) ∧
    (∀ s, t.keysForSelectorLimit s MaxIndexEntries = .ok (t.keysForSelector s) ∧
      (t.keysForSelector s).Pairwise (· < ·) ∧
      ∀ k, k ∈ t.keysForSelector s ↔ t.entries.lookup k = some s) ∧
    (∀ p, t.keysForPrefixLimit p MaxIndexEntries = .ok (t.get p) ∧
      (t.get p).Pairwise (· < ·) ∧
      ∀ k, k ∈ t.get p ↔ ∃ s, t.entries.lookup k = some s ∧ p <+: s) := by
  intro t
  have h : t.Exact := (exact_new _).run
  refine ⟨fun s k => ?_, fun s ks hs => ⟨?_, ?_⟩, h.sum, h.count, h.capacity, h.bytes,
    fun _ _ => apply_error, h.restore_snapshot, fun s => ?_, fun p => ?_⟩
  case refine_1 =>
    refine Iff.trans ?_ (h.listed s k)
    unfold keysOf
    cases t.selectors.lookup s <;> simp
  case refine_2 => exact fun hn => h.nonempty s (hn ▸ hs)
  case refine_3 => simpa [keysOf, hs] using h.nodup s
  case refine_4 =>
    have hk : t.keysForSelectorLimit s MaxIndexEntries = .ok (Bytes.sorted (t.keysOf s)) :=
      h.keysForSelectorLimit_eq_ok
    have hg : t.keysForSelector s = Bytes.sorted (t.keysOf s) := by rw [keysForSelector, hk]; rfl
    exact ⟨hg ▸ hk, hg ▸ sorted_lt (h.nodup s), fun k => h.mem_keysForSelector⟩
  case refine_5 =>
    have hk := h.keysForPrefixLimit_eq_ok (p := p)
    have hg : t.get p = Bytes.sorted (t.gathered p) := by rw [get, hk]; rfl
    exact ⟨hg ▸ hk, hg ▸ sorted_lt h.nodup_gathered, fun k => h.mem_get⟩

end Run

end DirTrie

end Bakemono
