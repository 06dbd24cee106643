import Bakemono.Ram.Bounds

namespace Bakemono

namespace S3FIFO

-- The values that `Put` hands on to the policy. Others are deleted.
def accepts (capacity : Nat) (key value : Bytes) : Bool :=
  ¬(capacity = 0 ∨ value.length > capacity ∨ value.length > 2 ^ 32 - 1 ∨ key.length > maxRAMKeyBytes) ∧
    ¬(RamEntry.new value).weight > capacity

-- `put` finds the key in the ghost queue.
def remembered (c : S3FIFO) (key : Bytes) : Bool :=
  (c.entries key).any fun p => (c.heap p).segment = .ghost

def Op.ghostHit (c : S3FIFO) : Op → Bool
  | .put key value => accepts c.capacity key value && c.remembered key
  | _              => false

end S3FIFO

-- The cache with this policy. Without capacity there is no policy. `ghostHits` is a counter of the
-- policy in the source.
structure RamCache where
  capacity  : Nat
  fifo      : Option S3FIFO
  ghostHits : Nat := 0

namespace RamCache

open S3FIFO (Op accepts)

def newWithAlgorithm (capacity : Nat) : Except Err RamCache :=
  if capacity > 2 ^ 40 then .error (.other "RAM cache capacity exceeds 1 TiB")
  else .ok ⟨capacity, if capacity = 0 then none else some (.new capacity), 0⟩

-- What `Get` returns.
def get (r : RamCache) (key : Bytes) : Option Bytes :=
  r.fifo.bind fun c => (c.get key).1.map RamEntry.data

def exec (r : RamCache) (op : Op) : Except Fault RamCache :=
  match r.fifo with
  | none   => .ok r
  | some c => do
    return { r with
      fifo      := some (← op.exec c)
      ghostHits := if op.ghostHit c then r.ghostHits + 1 else r.ghostHits }

def run (r : RamCache) (ops : List Op) : Except Fault RamCache := ops.foldlM exec r

-- The map that forgets nothing.
def store (capacity : Nat) (m : Bytes → Option Bytes) : Op → Bytes → Option Bytes
  | .put key value => Function.update m key (if accepts capacity key value then some value else none)
  | .get _         => m
  | .delete key    => Function.update m key none

def latest (capacity : Nat) (ops : List Op) : Bytes → Option Bytes :=
  ops.foldl (store capacity) fun _ => none

section Refine

variable {m : Bytes → Option Bytes} {c c' : S3FIFO} {op : Op} {key value k : Bytes} {capacity : Nat}
variable {r : RamCache} {ops : List Op}

-- A key has the value of the map or none at all. A key that is not in the map is unknown to the policy.
structure Refines (capacity : Nat) (m : Bytes → Option Bytes) (c : S3FIFO) : Prop where
  inv      : c.Inv
  bounded  : c.Bounded
  capacity : c.capacity = capacity
  lookup   : ∀ k, c.lookup k = none ∨ (c.lookup k).map RamEntry.data = m k
  unknown  : ∀ k, m k = none → c.entries k = none

theorem refines_new (h : 1 ≤ capacity ∧ capacity ≤ 2 ^ 40) :
    Refines capacity (fun _ => none) (.new capacity) where
  inv      := (S3FIFO.inv_new h).1
  bounded  := (S3FIFO.inv_new h).2
  capacity := rfl
  lookup   := fun _ => .inl rfl
  unknown  := fun _ _ => rfl

theorem exec_put_of_accepts (h : accepts c.capacity key value = true) :
    (Op.put key value).exec c = c.put key (.new value) := by
  have ⟨h₁, h₂⟩ := of_decide_eq_true h
  simp only [Op.exec, if_neg h₁, if_neg h₂]

theorem exec_put_of_not_accepts (h : accepts c.capacity key value = false) :
    (Op.put key value).exec c = c.delete key := by
  have h := of_decide_eq_false h
  simp only [Op.exec]
  split
  case isTrue => rfl
  case isFalse h₁ => exact if_pos (not_not.mp fun h₂ => h ⟨h₁, h₂⟩)

theorem admissible_of_accepts (h : accepts c.capacity key value = true) :
    c.Admissible key (.new value) ∧ (RamEntry.new value).data = value := by
  have ⟨h₁, h₂⟩ := of_decide_eq_true h
  simp only [not_or, not_lt] at h₁ h₂
  have ⟨hw₁, hw₂, hw₃⟩ := S3FIFO.weight_new h₁.2.2.1
  exact ⟨⟨h₁.2.2.2, ⟨hw₁, h₂⟩, hw₂.symm ▸ hw₃⟩, hw₂⟩

-- A key gets a value, or is forgotten.
theorem Refines.update {v : Option RamEntry} (h : Refines capacity m c) (hi : c'.Inv) (hb : c'.Bounded)
    (hu : S3FIFO.Updates c c' key v) (hc : S3FIFO.Clear c c' key)
    (hn : v = none → c'.entries key = none) :
    Refines capacity (Function.update m key (v.map RamEntry.data)) c' := by
  refine ⟨hi, hb, hu.capacity.trans h.capacity, fun k => ?_, fun k hk => ?_⟩
  case refine_1 =>
    by_cases hkey : k = key
    case pos =>
      subst hkey
      rw [Function.update_self]
      exact hu.self.elim (fun h => .inr (h ▸ rfl)) .inl
    case neg =>
      rw [Function.update_of_ne hkey]
      rcases hu.other k hkey with he | he
      · exact he ▸ h.lookup k
      · exact .inl he
  case refine_2 =>
    by_cases hkey : k = key
    case pos =>
      subst hkey
      rw [Function.update_self] at hk
      exact hn (Option.map_eq_none_iff.mp hk)
    case neg =>
      rw [Function.update_of_ne hkey] at hk
      exact hc k hkey (h.unknown k hk)

theorem Refines.delete (h : Refines capacity m c) (key : Bytes) : ∃ c', c.delete key = .ok c' ∧
    Refines capacity (Function.update m key none) c' := by
  have ⟨c', he, hi, hb, hu, hc, hn⟩ := S3FIFO.delete_spec h.inv h.bounded key
  exact ⟨c', he, h.update hi hb hu hc fun _ => hn⟩

theorem Refines.put (h : Refines capacity m c) (ha : accepts capacity key value = true) : ∃ c',
    c.put key (.new value) = .ok c' ∧ Refines capacity (Function.update m key (some value)) c' ∧
    (c.lookup key = none → (c'.lookup key).map RamEntry.data = some value) := by
  have ⟨hadm, hdata⟩ := admissible_of_accepts (h.capacity.symm ▸ ha)
  have ⟨c', he, hi, hb, hu, hc, hl⟩ := S3FIFO.put_spec h.inv h.bounded hadm
  have hr := h.update hi hb hu hc nofun
  rw [Option.map_some, hdata] at hr
  exact ⟨c', he, hr, fun hn => by rw [hl hn, Option.map_some, hdata]⟩

theorem Refines.exec (h : Refines capacity m c) (op : Op) : ∃ c',
    op.exec c = .ok c' ∧ Refines capacity (store capacity m op) c' := by
  cases op
  case get key =>
    have ⟨hi, hb, hc, hl⟩ := S3FIFO.get_spec h.inv h.bounded key
    refine ⟨_, rfl, hi, hb, hc.trans h.capacity, fun k => hl k ▸ h.lookup k, fun k hk => ?_⟩
    have he : (c.get key).2.entries = c.entries := by
      unfold S3FIFO.get
      split
      case h_1 => rfl
      case h_2 => split <;> rfl
    rw [he]
    exact h.unknown k hk
  case delete key => exact h.delete key
  case put key value =>
    cases ha : accepts capacity key value
    case true =>
      have ⟨c', he, hr, _⟩ := h.put ha
      refine ⟨c', (exec_put_of_accepts (h.capacity ▸ ha)).trans he, ?_⟩
      simpa [store, ha] using hr
    case false =>
      have ⟨c', he, hr⟩ := h.delete key
      refine ⟨c', (exec_put_of_not_accepts (h.capacity ▸ ha)).trans he, ?_⟩
      simpa [store, ha] using hr

-- The cache with or without a policy.
structure Models (capacity : Nat) (m : Bytes → Option Bytes) (r : RamCache) : Prop where
  policy : ∀ c, r.fifo = some c → Refines capacity m c
  empty  : r.fifo = none → capacity = 0

theorem models_new (h : newWithAlgorithm capacity = .ok r) : Models capacity (fun _ => none) r := by
  unfold newWithAlgorithm at h
  split at h
  case isTrue => cases h
  case isFalse hc =>
    obtain rfl := Except.ok.inj h
    constructor <;> simp only <;> split
    case policy.isTrue => nofun
    case policy.isFalse h₀ =>
      intro c he
      obtain rfl := Option.some.inj he
      exact refines_new ⟨by omega, by omega⟩
    case empty.isTrue h₀ => exact fun _ => h₀
    case empty.isFalse => nofun

theorem exec_of_some (hf : r.fifo = some c) (he : op.exec c = .ok c') : r.exec op =
    .ok { r with
      fifo      := some c'
      ghostHits := if op.ghostHit c then r.ghostHits + 1 else r.ghostHits } := by
  simp only [exec, hf, he]
  rfl

theorem Models.exec (h : Models capacity m r) (op : Op) : ∃ r',
    r.exec op = .ok r' ∧ Models capacity (store capacity m op) r' := by
  cases hf : r.fifo
  case none => exact ⟨r, by simp [RamCache.exec, hf], by simp [hf], fun _ => h.empty hf⟩
  case some c =>
    have ⟨c', he, hr⟩ := (h.policy c hf).exec op
    exact ⟨_, exec_of_some hf he, fun _ hc => Option.some.inj hc ▸ hr, nofun⟩

theorem Models.run (h : Models capacity m r) (ops : List Op) : ∃ r',
    r.run ops = .ok r' ∧ Models capacity (ops.foldl (store capacity) m) r' := by
  induction ops generalizing m r
  case nil => exact ⟨r, rfl, h⟩
  case cons op ops hi =>
    have ⟨r₁, he₁, h₁⟩ := h.exec op
    have ⟨r', he, h'⟩ := hi h₁
    refine ⟨r', ?_, h'⟩
    simpa only [RamCache.run, List.foldlM_cons, he₁, bind, Except.bind] using he

theorem Models.get (h : Models capacity m r) : r.get k = none ∨ r.get k = m k := by
  unfold RamCache.get
  cases hf : r.fifo
  case none => exact .inl rfl
  case some c =>
    rcases (h.policy c hf).lookup k with hl | hl
    · exact .inl (by simpa [S3FIFO.lookup] using hl)
    · exact .inr hl

-- A new key is in the cache after it has been put.
theorem Models.put (h : Models capacity m r) (ha : accepts capacity key value = true)
    (hn : r.get key = none) : ∃ r', r.exec (.put key value) = .ok r' ∧ r'.get key = some value := by
  cases hf : r.fifo
  case none =>
    have h₀ := h.empty hf
    simp [accepts, h₀] at ha
  case some c =>
    have hr := h.policy c hf
    have ⟨c', he, _, hl⟩ := hr.put ha
    have he : (Op.put key value).exec c = .ok c' :=
      (exec_put_of_accepts (hr.capacity.symm ▸ ha)).trans he
    refine ⟨_, exec_of_some hf he, hl ?_⟩
    simpa [RamCache.get, hf, S3FIFO.lookup] using hn

theorem Models.ghostHits (h : Models capacity m r) (hm : m key = none) : ∃ r',
    r.exec (.put key value) = .ok r' ∧ r'.ghostHits = r.ghostHits := by
  cases hf : r.fifo
  case none => exact ⟨r, by simp [RamCache.exec, hf], rfl⟩
  case some c =>
    have hr := h.policy c hf
    have ⟨c', he, _⟩ := hr.exec (.put key value)
    refine ⟨_, exec_of_some hf he, if_neg ?_⟩
    simp [Op.ghostHit, S3FIFO.remembered, hr.unknown key hm]

-- A key that has been deleted stays out of the map until it is put again.
theorem foldl_store_eq_none (hm : m k = none)
    (hops : ∀ v, .put k v ∈ ops → accepts capacity k v = false) :
    ops.foldl (store capacity) m k = none := by
  induction ops generalizing m
  case nil => exact hm
  case cons op ops hi =>
    refine hi ?_ fun v hv => hops v (.tail _ hv)
    cases op
    case get => exact hm
    case delete key =>
      simp only [store, Function.update_apply]
      split
      · rfl
      · exact hm
    case put key v =>
      simp only [store, Function.update_apply]
      split
      case isTrue he =>
        subst he
        simp [hops v (.head _)]
      case isFalse => exact hm

-- `Get` finds the latest value or nothing. After a deletion a key is not remembered. A new key can be
-- found at once.
theorem run_lossy (h : newWithAlgorithm capacity = .ok r) (ops : List Op) : ∃ r', r.run ops = .ok r' ∧
    (∀ k, r'.get k = none ∨ r'.get k = latest capacity ops k) ∧
    (∀ k v, accepts capacity k v = true → r'.get k = none →
      ∃ r'', r'.exec (.put k v) = .ok r'' ∧ r''.get k = some v) ∧
    (∀ k v before after, ops = before ++ .delete k :: after →
      (∀ v', .put k v' ∈ after → accepts capacity k v' = false) →
      r'.get k = none ∧ ∃ r'', r'.exec (.put k v) = .ok r'' ∧ r''.ghostHits = r'.ghostHits) := by
  have ⟨r', he, hr⟩ := (models_new h).run ops
  refine ⟨r', he, fun k => hr.get, fun k v => hr.put, fun k v before after hops hafter => ?_⟩
  have hm : ops.foldl (store capacity) (fun _ => none) k = none := by
    rw [hops, List.foldl_append, List.foldl_cons]
    exact foldl_store_eq_none (Function.update_self ..) hafter
  exact ⟨hr.get.elim id (·.trans hm), hr.ghostHits hm⟩

-- The second value of the first key is too large.
theorem run_lossy_sample : ∃ r r', newWithAlgorithm 4 = .ok r ∧
    r.run [.put [97] [1], .put [98] [2], .put [97] [1, 2, 3, 4, 5]] = .ok r' ∧ r'.get [97] = none ∧
    (r'.get [98] = none ∨ r'.get [98] = some [2]) := by
  have h : newWithAlgorithm 4 = .ok ⟨4, some (.new 4), 0⟩ := rfl
  have ⟨r', he, hget, _⟩ := run_lossy h [.put [97] [1], .put [98] [2], .put [97] [1, 2, 3, 4, 5]]
  have h₁ : r'.get [97] = none := (hget [97]).elim id fun h => h.trans (by decide)
  exact ⟨_, r', h, he, h₁, hget [98]⟩

end Refine

end RamCache

end Bakemono
