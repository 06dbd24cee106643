import Bakemono.Ram.Eviction

namespace Bakemono.S3FIFO

variable {c c' c₁ c₂ : S3FIFO} {p q : Nat} {s s' : FifoSegment} {k key : Bytes}
variable {value : RamEntry}

-- A value that `Put` accepts.
structure Admissible (c : S3FIFO) (key : Bytes) (value : RamEntry) : Prop where
  key    : key.length ≤ maxRAMKeyBytes
  weight : 0 < value.weight ∧ value.weight ≤ c.capacity
  data   : value.data.length ≤ value.weight

-- The map that an operation leaves behind: the key may have a new value, others keep theirs, and any
-- of them may be dropped.
structure Updates (c c' : S3FIFO) (key : Bytes) (value : Option RamEntry) : Prop where
  capacity : c'.capacity = c.capacity
  self     : c'.lookup key = value ∨ c'.lookup key = none
  other    : ∀ k ≠ key, c'.lookup k = c.lookup k ∨ c'.lookup k = none

-- No other key gets an entry, not even one without a value.
def Clear (c c' : S3FIFO) (key : Bytes) : Prop :=
  ∀ k ≠ key, c.entries k = none → c'.entries k = none

theorem Bounded.good (hi : c.Inv) (h : c.Bounded) : c.Good where
  inv    := hi
  ghosts := ⟨h.ghostBytes, h.metadata, hi.limit ▸ h.ghosts⟩
  total  := by
    have := h.bytes
    simp only [total]
    omega

theorem Inv.empty (h : c.Inv) (hn : c.steps = 0) : c.total = 0 ∧ c.residents = 0 := by
  have hs : c.queues .small = [] := List.eq_nil_of_length_eq_zero (by simp only [steps] at hn; omega)
  have hm : c.queues .main = [] := List.eq_nil_of_length_eq_zero (by simp only [steps] at hn; omega)
  simp [total, residents, h.bytes, sum, hs, hm]

theorem crowded_eq_false {n : Nat} : c.crowded n = false ↔
    c.total + n ≤ c.capacity ∧ c.residents < c.entryLimit := by
  simp [crowded, total, residents]

theorem overweight_eq_false : c.overweight = false ↔ c.total ≤ c.capacity := by
  simp [overweight, total]

section Insert

theorem heap_allocate (hq : q ≠ c.next) : (c.allocate key value).heap q = c.heap q :=
  Function.update_of_ne hq _ _

theorem heap_allocate_self :
    (c.allocate key value).heap c.next = { key, value, charge := value.weight } :=
  Function.update_self ..

theorem Inv.detached_next (h : c.Inv) : c.Detached c.next :=
  fun s hq => (h.fresh s _ hq).ne rfl

theorem Inv.allocate (h : c.Inv) : (c.allocate key value).Inv := by
  have hm := h.modify (p := c.next) (g := fun _ => { key, value, charge := value.weight })
    (.inl h.detached_next)
  exact { hm with fresh := fun s q hq => Nat.lt_succ_of_lt (hm.fresh s q hq) }

theorem Inv.lookup_allocate (h : c.Inv) : (c.allocate key value).lookup k = c.lookup k := by
  refine lookup_congr h rfl fun s q hq => ?_
  rw [heap_allocate (h.fresh s q hq).ne]
  exact ⟨rfl, rfl⟩

-- The new entry, for which the loop has made room.
theorem append_allocate (h : c.Good) (hk : c.entries key = none) (ha : c.Admissible key value)
    (hs : s ≠ .ghost) (hr : c.total + value.weight ≤ c.capacity) (hl : c.residents < c.entryLimit) :
    ∃ c', (c.allocate key value).append c.next s = .ok c' ∧ c'.Inv ∧ c'.Bounded ∧
      c'.capacity = c.capacity ∧
      (∀ k, c'.lookup k = if k = key then some value else c.lookup k) ∧
      ∀ k ≠ key, c'.entries k = c.entries k := by
  have hinv : (c.allocate key value).Inv := h.inv.allocate
  have hcap := h.inv.capacity
  have hlim := h.inv.limit
  have hbytes : c.bytes s ≤ c.total := by
    cases s
    case ghost => exact absurd rfl hs
    all_goals
      simp only [total]
      omega
  have hj : ((c.allocate key value).join c.next s).Inv := by
    refine hinv.join ?_ (Nat.lt_succ_self _) ?_
    case refine_1 => rw [heap_allocate_self]; exact hk
    case refine_2 =>
      rw [heap_allocate_self]
      exact ⟨ha.key, ha.weight, fun _ => ⟨value, rfl, ha.data⟩⟩
  refine ⟨_, append_eq hs (v := value) ?_ ?_ ?_, hj, ?_, rfl, fun k => ?_, fun k hne => ?_⟩
  case refine_1 => rw [heap_allocate_self]
  case refine_2 =>
    rw [heap_allocate_self]
    change c.bytes s + value.weight < _
    omega
  case refine_3 =>
    have := h.inv.payload_le
    have := ha.data
    change c.payloadBytes + _ < _
    omega
  case refine_4 =>
    have hb (s') : ((c.allocate key value).join c.next s).bytes s' =
        if s' = s then c.bytes s + value.weight else c.bytes s' := by
      rw [bytes_join, heap_allocate_self]
      rfl
    have hq (s') : (((c.allocate key value).join c.next s).queues s').length =
        if s' = s then (c.queues s).length + 1 else (c.queues s').length := by
      rw [queues_join]
      split
      case isTrue => simp [allocate]
      case isFalse => rfl
    have hg := h.ghosts
    have hgc := hg.count
    have hmeta : ((c.allocate key value).join c.next s).ghostMetadata = c.ghostMetadata := by
      simp [join, hs, allocate]
    simp only [total, residents] at hr hl
    cases s
    case ghost => exact absurd rfl hs
    all_goals
      refine ⟨?_, ?_, ?_, hmeta ▸ hg.metadata, ?_⟩
      case refine_1 =>
        simp only [hb, reduceCtorEq, if_true, if_false]
        change _ ≤ c.capacity
        omega
      case refine_2 =>
        simp only [hq, reduceCtorEq, if_true, if_false]
        change _ ≤ min c.capacity 65536
        omega
      case refine_3 =>
        simp only [hb, reduceCtorEq, if_false]
        exact hg.bytes
      case refine_4 =>
        simp only [hq, reduceCtorEq, if_false]
        change _ ≤ min c.capacity 65536
        omega
  case refine_5 =>
    rw [lookup_join hinv h.inv.detached_next, heap_allocate_self, h.inv.lookup_allocate, if_neg hs]
  case refine_6 =>
    simp only [join, heap_allocate_self]
    exact Function.update_of_ne hne _ _

theorem insert_spec (hi : c.Inv) (hb : c.Bounded) (hk : c.entries key = none)
    (ha : c.Admissible key value) (hs : s ≠ .ghost) : ∃ c',
    c.insert key value s = .ok c' ∧ c'.Inv ∧ c'.Bounded ∧ Updates c c' key value ∧
    Clear c c' key ∧ c'.lookup key = some value := by
  have hcap := hi.capacity
  have hlim := hi.limit
  have ⟨c₁, he₁, hg₁, hd₁, hf₁⟩ := evictWhile_spec (·.crowded value.weight)
    (fun c' hg hd hn => by
      have ⟨ht, hr⟩ := hg.inv.empty hn
      have := ha.weight.2
      have h₁ := hd.capacity
      have h₂ := hd.limit
      exact crowded_eq_false.mpr ⟨by omega, by omega⟩)
    (hb.good hi) (Nat.lt_succ_self _)
  have ⟨hr, hl⟩ := crowded_eq_false.mp hf₁
  have ha₁ : c₁.Admissible key value := ⟨ha.key, hd₁.capacity ▸ ha.weight, ha.data⟩
  have ⟨c', he, hinv, hbd, hc, hlook, hent⟩ := append_allocate hg₁ (hd₁.absent key hk) ha₁ hs hr hl
  have hself : c'.lookup key = some value := by simp [hlook]
  refine ⟨c', ?_, hinv, hbd, ⟨hc.trans hd₁.capacity, .inl hself, fun k hne => ?_⟩, fun k hne hn => ?_,
    hself⟩
  case refine_1 =>
    have he₁ : evictWhile (·.crowded value.weight) c.roomFuel c = .ok c₁ := he₁
    simpa [insert, he₁, bind, Except.bind] using he
  case refine_2 =>
    rw [hlook, if_neg hne]
    exact hd₁.lookup k
  case refine_3 =>
    rw [hent k hne]
    exact hd₁.absent k hn

end Insert

section Replace

theorem heap_replace {n m : Nat} (hq : q ≠ p) : (c.replace p value n m).heap q = c.heap q :=
  Function.update_of_ne hq _ _

theorem heap_replace_self {n m : Nat} : (c.replace p value n m).heap p =
    { c.heap p with value, charge := value.weight, freq := min 3 ((c.heap p).freq + 1) } :=
  Function.update_self ..

-- A sum changes by the part of the entry.
theorem Inv.sum_replace (h : c.Inv) (hp : p ∈ c.queues s) (value : RamEntry) (n m : Nat)
    (s' : FifoSegment) (f : FifoEntry → Nat) :
    (c.replace p value n m).sum s' f + (if s' = s then f (c.heap p) else 0) =
      c.sum s' f + if s' = s then f ((c.replace p value n m).heap p) else 0 := by
  have hrest {l : List Nat} (hl : p ∉ l) :
      l.map (fun q => f ((c.replace p value n m).heap q)) = l.map fun q => f (c.heap q) := by
    refine List.map_congr_left fun q hq => ?_
    rw [heap_replace (by rintro rfl; exact hl hq)]
  by_cases hs : s' = s
  case pos =>
    subst hs
    have h₁ := List.sum_map_erase (fun q => f (c.heap q)) hp
    have h₂ := List.sum_map_erase (fun q => f ((c.replace p value n m).heap q)) hp
    rw [hrest (h.nodup s').not_mem_erase] at h₂
    have hq : (c.replace p value n m).queues = c.queues := rfl
    simp only [sum, if_true, hq]
    omega
  case neg =>
    have hn : p ∉ c.queues s' := fun hp' => hs ((h.queued s' p hp').2.symm.trans (h.queued s p hp).2)
    have hq : (c.replace p value n m).queues = c.queues := rfl
    simp only [sum, if_neg hs, hq, hrest hn]

theorem Inv.replace (h : c.Inv) (hp : p ∈ c.queues s) (hs : s ≠ .ghost)
    (ha : c.Admissible (c.heap p).key value) {n m : Nat}
    (hn : n + (c.heap p).payload = c.payloadBytes + value.data.length)
    (hm : m + (c.heap p).charge = c.bytes s + value.weight) : (c.replace p value n m).Inv := by
  have hseg := (h.queued s p hp).2
  have hheap (q) : ((c.replace p value n m).heap q).key = (c.heap q).key ∧
      ((c.replace p value n m).heap q).segment = (c.heap q).segment := by
    by_cases hq : q = p
    case pos =>
      subst hq
      rw [heap_replace_self]
      exact ⟨rfl, rfl⟩
    case neg =>
      rw [heap_replace hq]
      exact ⟨rfl, rfl⟩
  have hsum := h.sum_replace hp value n m
  rw [heap_replace_self] at hsum
  constructor
  case capacity => exact h.capacity
  case limit => exact h.limit
  case mapped =>
    intro k q hq
    rw [(hheap q).1, (hheap q).2]
    exact h.mapped k q hq
  case queued =>
    intro s' q hq
    rw [(hheap q).1, (hheap q).2]
    exact h.queued s' q hq
  case nodup => exact h.nodup
  case fresh => exact h.fresh
  case entry =>
    intro s' q hq
    by_cases hqp : q = p
    case pos =>
      subst hqp
      rw [heap_replace_self]
      exact ⟨ha.key, ha.weight, fun _ => ⟨value, rfl, ha.data⟩⟩
    case neg =>
      rw [heap_replace hqp]
      exact h.entry s' q hq
  case bytes =>
    intro s'
    have hsum := hsum s' FifoEntry.charge
    rw [← h.bytes] at hsum
    by_cases hs' : s' = s
    case pos =>
      subst hs'
      have hb : (c.replace p value n m).bytes s' = m := by simp [S3FIFO.replace, hseg]
      simp only [if_true] at hsum
      omega
    case neg =>
      have hb : (c.replace p value n m).bytes s' = c.bytes s' := by simp [S3FIFO.replace, hseg, hs']
      simp only [if_neg hs'] at hsum
      omega
  case payload =>
    have h₁ := hsum .small FifoEntry.payload
    have h₂ := hsum .main FifoEntry.payload
    have hpay := h.payload
    have hnew : FifoEntry.payload { c.heap p with
        value := some value, charge := value.weight, freq := min 3 ((c.heap p).freq + 1) } =
        value.data.length := rfl
    rw [hnew] at h₁ h₂
    change n = _
    cases s
    case ghost => exact absurd rfl hs
    all_goals
      simp only [reduceCtorEq, if_true, if_false] at h₁ h₂
      omega
  case metadata =>
    have h₁ := hsum .ghost FifoEntry.metadata
    rw [if_neg hs.symm, if_neg hs.symm] at h₁
    exact h.metadata.trans h₁.symm

theorem Inv.lookup_replace (h : c.Inv) (hp : p ∈ c.queues s) (hs : s ≠ .ghost) {n m : Nat} :
    (c.replace p value n m).lookup k = if k = (c.heap p).key then some value else c.lookup k := by
  have ⟨hent, hseg⟩ := h.queued s p hp
  rw [lookup_eq, lookup_eq]
  change (c.entries k).bind _ = _
  split
  case isTrue hk =>
    rw [hk, hent, Option.bind_some, heap_replace_self]
    exact if_neg (hseg ▸ hs)
  case isFalse hk =>
    cases hq : c.entries k
    case none => rfl
    case some q =>
      have hne : q ≠ p := by
        rintro rfl
        exact hk (h.mapped k q hq).1.symm
      simp only [Option.bind_some, heap_replace hne]

end Replace

section Put

theorem put_resident (hi : c.Inv) (hb : c.Bounded) (hp : p ∈ c.queues s) (hs : s ≠ .ghost)
    (ha : c.Admissible (c.heap p).key value) : ∃ c',
    c.put (c.heap p).key value = .ok c' ∧ c'.Inv ∧ c'.Bounded ∧
    Updates c c' (c.heap p).key value ∧ Clear c c' (c.heap p).key := by
  obtain ⟨hent, hseg⟩ := hi.queued s p hp
  have hv := hi.entry s p hp
  obtain ⟨v, he, hl⟩ := hv.resident (hseg ▸ hs)
  have hpv : (c.heap p).payload = v.data.length := by simp [FifoEntry.payload, he]
  have hcap := hi.capacity
  have hbytes := hb.bytes
  have hpay := hi.payload_le
  have htot : c.bytes s ≤ c.total ∧ (c.heap p).charge ≤ c.bytes s := by
    refine ⟨?_, hi.bytes s ▸ le_sum (f := FifoEntry.charge) hp⟩
    cases s
    case ghost => exact absurd rfl hs
    all_goals
      simp only [total]
      omega
  have hvp : v.data.length ≤ c.payloadBytes := by
    have := le_sum (f := FifoEntry.payload) hp
    rw [hpv] at this
    have := hi.payload
    cases s
    case ghost => exact absurd rfl hs
    all_goals omega
  have hw := ha.weight
  have hd := ha.data
  let n := c.payloadBytes - v.data.length + value.data.length
  let m := c.bytes s - (c.heap p).charge + value.weight
  have hinv : (c.replace p value n m).Inv :=
    hi.replace hp hs ha (by simp only [n]; omega) (by simp only [m]; omega)
  have hgood : (c.replace p value n m).Good := by
    refine ⟨hinv, ?_, ?_⟩
    case refine_1 =>
      have hg := (hb.good hi).ghosts
      refine ⟨?_, hg.metadata, hg.count⟩
      simpa [replace, hseg, hs.symm] using hg.bytes
    case refine_2 =>
      change (c.replace p value n m).total ≤ 2 * c.capacity
      simp only [total] at *
      cases s
      case ghost => exact absurd rfl hs
      all_goals
        simp only [replace, hseg, m, Function.update_self, ne_eq, reduceCtorEq, not_false_eq_true,
          Function.update_of_ne]
        omega
  obtain ⟨c', he', hg', hd', hf'⟩ := evictWhile_spec overweight
    (fun c' hg _ hn => overweight_eq_false.mpr (by have := (hg.inv.empty hn).1; omega))
    hgood (Nat.lt_succ_self _)
  have hlook (k) : (c.replace p value n m).lookup k =
      if k = (c.heap p).key then some value else c.lookup k := hi.lookup_replace hp hs
  refine ⟨c', ?_, hg'.inv, ?_, ⟨hd'.capacity, ?_, fun k hk => ?_⟩, fun k _ hn => hd'.absent k hn⟩
  case refine_1 =>
    have hsub₁ : sub c.payloadBytes v.data.length = .ok (c.payloadBytes - v.data.length) := sub_eq hvp
    have hsub₂ : sub (c.bytes s) (c.heap p).charge = .ok (c.bytes s - (c.heap p).charge) := sub_eq htot.2
    have hadd₁ : add (c.payloadBytes - v.data.length) value.data.length = .ok n :=
      add_eq (by simp only [total] at *; omega)
    have hadd₂ : add (c.bytes s - (c.heap p).charge) value.weight = .ok m :=
      add_eq (by simp only [total] at *; omega)
    simp only [put, hent, hseg, hs, he, hsub₁, hsub₂, hadd₁, hadd₂, if_false, bind, Except.bind]
    exact he'
  case refine_2 =>
    have hg := hg'.ghosts
    have hlim := hg'.inv.limit
    refine ⟨overweight_eq_false.mp hf', ?_, hg.bytes, hg.metadata, hlim ▸ hg.count⟩
    rw [hd'.capacity]
    exact hd'.residents.trans hb.resident
  case refine_3 =>
    have := hd'.lookup (c.heap p).key
    rwa [hlook, if_pos rfl] at this
  case refine_4 =>
    have := hd'.lookup k
    rwa [hlook, if_neg hk] at this

theorem Bounded.without (hb : c.Bounded) (hi : c.Inv) : (c.without p).Bounded := by
  have hd := hi.drops_without (p := p)
  refine ⟨hd.total.trans hb.bytes, hd.residents.trans hb.resident, ?_, ?_, ?_⟩
  case refine_1 =>
    rw [bytes_without]
    split
    case isTrue => exact (Nat.sub_le ..).trans hb.ghostBytes
    case isFalse => exact hb.ghostBytes
  case refine_2 =>
    simp only [S3FIFO.without]
    split
    case isTrue => exact (Nat.sub_le ..).trans hb.metadata
    case isFalse => exact hb.metadata
  case refine_3 =>
    rw [queues_without]
    split
    case isTrue => exact List.length_erase_le.trans hb.ghosts
    case isFalse => exact hb.ghosts

theorem put_spec (hi : c.Inv) (hb : c.Bounded) (ha : c.Admissible key value) : ∃ c',
    c.put key value = .ok c' ∧ c'.Inv ∧ c'.Bounded ∧ Updates c c' key value ∧ Clear c c' key ∧
    (c.lookup key = none → c'.lookup key = some value) := by
  cases hk : c.entries key
  case none =>
    obtain ⟨c', he, hi', hb', hu, hc, hl⟩ := insert_spec hi hb hk ha (s := .small) (by simp)
    exact ⟨c', by simpa only [put, hk] using he, hi', hb', hu, hc, fun _ => hl⟩
  case some p =>
    obtain ⟨hkey, hp⟩ := hi.mapped key p hk
    by_cases hs : (c.heap p).segment = .ghost
    case neg =>
      subst hkey
      obtain ⟨c', he, hi', hb', hu, hc⟩ := put_resident hi hb hp hs ha
      obtain ⟨v, hv, _⟩ := (hi.entry _ p hp).resident hs
      refine ⟨c', he, hi', hb', hu, hc, fun hn => ?_⟩
      simp [lookup_eq, hk, hs, hv] at hn
    case pos =>
      have hn : (c.without p).entries key = none := by simp [without, hkey]
      obtain ⟨c', he, hi', hb', hu, hc, hl⟩ := insert_spec (hi.without hp) (hb.without hi) hn
        (⟨ha.key, ha.weight, ha.data⟩ : (c.without p).Admissible key value) (s := .main) (by simp)
      refine ⟨c', ?_, hi', hb', ⟨hu.capacity, hu.self, fun k hne => ?_⟩, fun k hne hn => hc k hne ?_,
        fun _ => hl⟩
      case refine_1 => simpa only [put, hk, hs, if_true, hi.unlink hp, bind, Except.bind] using he
      case refine_2 =>
        have := hu.other k hne
        rwa [lookup_without hi, hkey, if_neg hne] at this
      case refine_3 => exact hi.drops_without.absent k hn

theorem delete_spec (hi : c.Inv) (hb : c.Bounded) (key : Bytes) : ∃ c',
    c.delete key = .ok c' ∧ c'.Inv ∧ c'.Bounded ∧ Updates c c' key none ∧ Clear c c' key ∧
    c'.entries key = none := by
  cases hk : c.entries key
  case none =>
    refine ⟨c, by simp only [delete, hk], hi, hb, ⟨rfl, .inl ?_, fun _ _ => .inl rfl⟩,
      fun _ _ => id, hk⟩
    simp [lookup_eq, hk]
  case some p =>
    have ⟨hkey, hp⟩ := hi.mapped key p hk
    refine ⟨c.without p, by simp only [delete, hk, hi.unlink hp], hi.without hp, hb.without hi,
      ⟨rfl, ?_, ?_⟩, fun k _ hn => hi.drops_without.absent k hn, by simp [without, hkey]⟩
    case refine_1 => exact .inl (by rw [lookup_without hi, if_pos hkey.symm])
    case refine_2 => exact fun k hne => .inl (by rw [lookup_without hi, hkey, if_neg hne])

theorem get_spec (hi : c.Inv) (hb : c.Bounded) (key : Bytes) :
    (c.get key).2.Inv ∧ (c.get key).2.Bounded ∧ (c.get key).2.capacity = c.capacity ∧
    ∀ k, (c.get key).2.lookup k = c.lookup k := by
  unfold get
  split
  case h_1 => exact ⟨hi, hb, rfl, fun _ => rfl⟩
  case h_2 p _ =>
    split
    case isTrue => exact ⟨hi, hb, rfl, fun _ => rfl⟩
    case isFalse =>
      have hm := hi.modify (p := p) (g := fun e => { e with freq := min 3 (e.freq + 1) }) (.inr ⟨_, rfl⟩)
      refine ⟨hm, ⟨hb.bytes, hb.resident, hb.ghostBytes, hb.metadata, hb.ghosts⟩, rfl, fun k => ?_⟩
      refine lookup_congr hi rfl fun s q _ => ?_
      by_cases hq : q = p
      case pos =>
        subst hq
        rw [heap_modify_self]
        exact ⟨rfl, rfl⟩
      case neg =>
        rw [heap_modify hq]
        exact ⟨rfl, rfl⟩

end Put

section Run

theorem weight_new {value : Bytes} (h : value.length ≤ 2 ^ 32 - 1) :
    0 < (RamEntry.new value).weight ∧ (RamEntry.new value).data = value ∧
    value.length ≤ (RamEntry.new value).weight := by
  have hw : max 1 value.length % 2 ^ 32 = max 1 value.length := Nat.mod_eq_of_lt (by omega)
  simp only [RamEntry.new, hw]
  split_ifs
  case pos => exact ⟨by simp, rfl, by simp⟩
  case pos => exact ⟨by simp, rfl, by simp⟩
  case neg =>
    split
    case h_1 => exact ⟨by simp, rfl, by simp⟩
    case h_2 =>
      split_ifs
      case pos => exact ⟨by simp, rfl, by simp⟩
      case neg => exact ⟨by simp, rfl, by simp; omega⟩

-- The policy is a map from which entries may be dropped.
def Op.Effect (c c' : S3FIFO) : Op → Prop
  | .put key value => Updates c c' key (some (.new value))
  | .get _         => ∀ k, c'.lookup k = c.lookup k
  | .delete key    => Updates c c' key none

theorem exec_spec (hi : c.Inv) (hb : c.Bounded) (op : Op) : ∃ c',
    op.exec c = .ok c' ∧ c'.Inv ∧ c'.Bounded ∧ c'.capacity = c.capacity ∧ op.Effect c c' := by
  cases op
  case get key =>
    have ⟨hi', hb', hc, hl⟩ := get_spec hi hb key
    exact ⟨_, rfl, hi', hb', hc, hl⟩
  case delete key =>
    have ⟨c', he, hi', hb', hu, _⟩ := delete_spec hi hb key
    exact ⟨c', he, hi', hb', hu.capacity, hu⟩
  case put key value =>
    have ⟨c₁, he₁, hi₁, hb₁, hu₁, _⟩ := delete_spec hi hb key
    have hu₁' : Updates c c₁ key (some (.new value)) :=
      ⟨hu₁.capacity, .inr (hu₁.self.elim id id), hu₁.other⟩
    simp only [Op.exec]
    split
    case isTrue => exact ⟨c₁, he₁, hi₁, hb₁, hu₁.capacity, hu₁'⟩
    case isFalse hc =>
      simp only [not_or, not_lt] at hc
      have ⟨hw₁, hw₂, hw₃⟩ := weight_new hc.2.2.1
      split
      case isTrue => exact ⟨c₁, he₁, hi₁, hb₁, hu₁.capacity, hu₁'⟩
      case isFalse hw =>
        have ha : c.Admissible key (.new value) := ⟨hc.2.2.2, ⟨hw₁, by omega⟩, by rwa [hw₂]⟩
        have ⟨c', he, hi', hb', hu, _⟩ := put_spec hi hb ha
        exact ⟨c', he, hi', hb', hu.capacity, hu⟩

theorem inv_new {capacity : Nat} (h : 1 ≤ capacity ∧ capacity ≤ 2 ^ 40) :
    (new capacity).Inv ∧ (new capacity).Bounded := by
  refine ⟨⟨h, rfl, nofun, nofun, ?_, nofun, nofun, ?_, rfl, rfl⟩, ⟨?_, ?_, ?_, ?_, ?_⟩⟩
  all_goals simp [new, sum]

theorem run_spec (hi : c.Inv) (hb : c.Bounded) (ops : List Op) : ∃ c',
    c.run ops = .ok c' ∧ c'.capacity = c.capacity ∧ c'.Inv ∧ c'.Bounded := by
  induction ops generalizing c
  case nil => exact ⟨c, rfl, rfl, hi, hb⟩
  case cons op ops hind =>
    have ⟨c₁, he₁, hi₁, hb₁, hc₁, _⟩ := exec_spec hi hb op
    have ⟨c', he, hc, hi', hb'⟩ := hind hi₁ hb₁
    refine ⟨c', ?_, hc.trans hc₁, hi', hb'⟩
    simpa only [run, List.foldlM_cons, he₁, bind, Except.bind] using he

-- All calls return, with exact counters and within the bounds.
theorem run_accounted {capacity : Nat} (h : 1 ≤ capacity ∧ capacity ≤ 2 ^ 40) (ops : List Op) :
    ∃ c, (new capacity).run ops = .ok c ∧ c.capacity = capacity ∧ c.Inv ∧ c.Bounded := by
  have ⟨hi, hb⟩ := inv_new h
  exact run_spec hi hb ops

-- The third entry does not fit next to the others.
def sampleOps : List Op :=
  [.put [97] [1, 2], .get [97], .get [97], .put [98] [3], .put [99] [4, 5], .delete [98]]

theorem run_accounted_sample : ∃ c, (new 4).run sampleOps = .ok c ∧ c.Inv ∧ c.Bounded := by
  have h : 1 ≤ 4 ∧ 4 ≤ 2 ^ 40 := by decide
  have ⟨c, he, _, hi, hb⟩ := run_accounted h sampleOps
  exact ⟨c, he, hi, hb⟩

example : ((new 4).run sampleOps).toOption.map (fun c => [[97], [98], [99]].map fun k =>
    (c.lookup k).map RamEntry.data) = some [some [1, 2], none, some [4, 5]] := by
  decide +kernel

end Run

end Bakemono.S3FIFO
