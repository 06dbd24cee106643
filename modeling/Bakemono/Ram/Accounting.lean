import Bakemono.Lib.Except
import Bakemono.Ram.S3Fifo

namespace Bakemono

namespace FifoEntry

def payload (e : FifoEntry) : Nat := (e.value.map (·.data.length)).getD 0
def metadata (e : FifoEntry) : Nat := 128 + e.key.length

-- Only resident entries have a value, which its weight stands for.
structure Valid (capacity : Nat) (e : FifoEntry) : Prop where
  key      : e.key.length ≤ maxRAMKeyBytes
  charge   : 0 < e.charge ∧ e.charge ≤ capacity
  resident : e.segment ≠ .ghost → ∃ v, e.value = some v ∧ v.data.length ≤ e.charge

end FifoEntry

namespace S3FIFO

variable {c c' : S3FIFO} {p q : Nat} {s s' : FifoSegment} {k : Bytes} {f : FifoEntry → Nat}

-- The sum of a measure over the entries of a queue.
def sum (c : S3FIFO) (s : FifoSegment) (f : FifoEntry → Nat) : Nat :=
  ((c.queues s).map fun p => f (c.heap p)).sum

-- The map and the queues describe the same entries, and the counters are their sums.
structure Inv (c : S3FIFO) : Prop where
  capacity : 1 ≤ c.capacity ∧ c.capacity ≤ 2 ^ 40
  limit    : c.entryLimit = min c.capacity 65536
  mapped   : ∀ k p, c.entries k = some p → (c.heap p).key = k ∧ p ∈ c.queues (c.heap p).segment
  queued   : ∀ s, ∀ p ∈ c.queues s, c.entries (c.heap p).key = some p ∧ (c.heap p).segment = s
  nodup    : ∀ s, (c.queues s).Nodup
  fresh    : ∀ s, ∀ p ∈ c.queues s, p < c.next
  entry    : ∀ s, ∀ p ∈ c.queues s, (c.heap p).Valid c.capacity
  bytes    : ∀ s, c.bytes s = c.sum s FifoEntry.charge
  payload  : c.payloadBytes = c.sum .small FifoEntry.payload + c.sum .main FifoEntry.payload
  metadata : c.ghostMetadata = c.sum .ghost FifoEntry.metadata

-- What holds whenever a call returns.
structure Bounded (c : S3FIFO) : Prop where
  bytes      : c.bytes .small + c.bytes .main ≤ c.capacity
  resident   : (c.queues .small).length + (c.queues .main).length ≤ min c.capacity 65536
  ghostBytes : c.bytes .ghost ≤ c.capacity
  metadata   : c.ghostMetadata ≤ max 128 (c.capacity / 10)
  ghosts     : (c.queues .ghost).length ≤ min c.capacity 65536

theorem sub_eq {a b : Nat} (h : b ≤ a) : sub a b = .ok (a - b) := if_pos h
theorem add_eq {a b : Nat} (h : a + b < 2 ^ 64) : add a b = .ok (a + b) := if_pos h

section Sums

theorem le_sum (hp : p ∈ c.queues s) : f (c.heap p) ≤ c.sum s f :=
  List.single_le_sum (by simp) _ (List.mem_map_of_mem hp)

theorem sum_le_sum {g : FifoEntry → Nat} (h : ∀ p ∈ c.queues s, f (c.heap p) ≤ g (c.heap p)) :
    c.sum s f ≤ c.sum s g :=
  List.sum_le_sum h

end Sums

section Unlink

-- The result of `unlink`, without the checks.
def without (c : S3FIFO) (p : Nat) : S3FIFO :=
  let e := c.heap p
  { c with
    queues        := Function.update c.queues e.segment ((c.queues e.segment).erase p)
    bytes         := Function.update c.bytes e.segment (c.bytes e.segment - e.charge)
    payloadBytes  := if e.segment = .ghost then c.payloadBytes else c.payloadBytes - e.payload
    ghostMetadata := if e.segment = .ghost then c.ghostMetadata - e.metadata else c.ghostMetadata
    entries       := Function.update c.entries e.key none }

theorem mem_without : q ∈ (c.without p).queues s →  q ∈ c.queues s := by
  simp only [without, Function.update_apply]
  split
  case isTrue hs => exact hs ▸ List.mem_of_mem_erase
  case isFalse => exact id

theorem Inv.ne_of_mem_without (h : c.Inv) (hp : p ∈ c.queues (c.heap p).segment)
    (hq : q ∈ (c.without p).queues s) : q ≠ p := by
  rintro rfl
  have hs := (h.queued s q (mem_without hq)).2
  simp only [without, hs, Function.update_self] at hq
  exact (h.nodup s).not_mem_erase hq

theorem sum_without (hp : p ∈ c.queues (c.heap p).segment) :
    (c.without p).sum s f + (if s = (c.heap p).segment then f (c.heap p) else 0) = c.sum s f := by
  simp only [sum, without, Function.update_apply]
  split
  case isTrue hs =>
    subst hs
    rw [Nat.add_comm]
    exact List.sum_map_erase (fun q => f (c.heap q)) hp
  case isFalse => rfl

theorem Inv.without (h : c.Inv) (hp : p ∈ c.queues (c.heap p).segment) : (c.without p).Inv where
  capacity := h.capacity
  limit    := h.limit
  mapped   := by
    intro k q hq
    have hk : k ≠ (c.heap p).key := by
      rintro rfl
      simp [S3FIFO.without] at hq
    have hq : c.entries k = some q := by simpa [S3FIFO.without, hk] using hq
    have ⟨h₁, h₂⟩ := h.mapped k q hq
    refine ⟨h₁, ?_⟩
    have hne : q ≠ p := fun he => hk (h₁.symm.trans (congrArg (FifoEntry.key ∘ c.heap) he))
    simp only [S3FIFO.without, Function.update_apply]
    split
    case isTrue hs => exact (List.mem_erase_of_ne hne).mpr (hs ▸ h₂)
    case isFalse => exact h₂
  queued   := by
    intro s q hq
    have ⟨h₁, h₂⟩ := h.queued s q (mem_without hq)
    refine ⟨?_, h₂⟩
    have hk : (c.heap q).key ≠ (c.heap p).key := by
      intro hk
      have := (h.queued _ p hp).1
      rw [← hk, h₁] at this
      exact h.ne_of_mem_without hp hq (Option.some.inj this)
    exact (Function.update_of_ne hk _ _).trans h₁
  nodup    := by
    intro s
    simp only [S3FIFO.without, Function.update_apply]
    split
    case isTrue => exact (h.nodup _).erase _
    case isFalse => exact h.nodup s
  fresh    := fun s q hq => h.fresh s q (mem_without hq)
  entry    := fun s q hq => h.entry s q (mem_without hq)
  bytes    := by
    intro s
    have hs := sum_without (s := s) (f := FifoEntry.charge) hp
    rw [← h.bytes] at hs
    by_cases he : s = (c.heap p).segment
    case pos =>
      have hb : (c.without p).bytes s = c.bytes s - (c.heap p).charge := by simp [S3FIFO.without, he]
      rw [if_pos he] at hs
      omega
    case neg =>
      have hb : (c.without p).bytes s = c.bytes s := by simp [S3FIFO.without, he]
      rw [if_neg he] at hs
      omega
  payload  := by
    have hs := sum_without (s := .small) (f := FifoEntry.payload) hp
    have hm := sum_without (s := .main) (f := FifoEntry.payload) hp
    have hpay := h.payload
    cases hseg : (c.heap p).segment
    all_goals
      simp only [hseg, reduceCtorEq, if_true, if_false] at hs hm
      simp only [S3FIFO.without, hseg, reduceCtorEq, if_true, if_false] at hs hm ⊢
      omega
  metadata := by
    have hs := sum_without (s := .ghost) (f := FifoEntry.metadata) hp
    have hmeta := h.metadata
    cases hseg : (c.heap p).segment
    all_goals
      simp only [hseg, reduceCtorEq, if_true, if_false] at hs
      simp only [S3FIFO.without, hseg, reduceCtorEq, if_true, if_false] at hs ⊢
      omega

-- Nothing wraps around, as each counter contains its part for the entry.
theorem Inv.unlink (h : c.Inv) (hp : p ∈ c.queues s) : c.unlink p = .ok (c.without p) := by
  have hs := (h.queued s p hp).2
  subst hs
  have hb := le_sum (f := FifoEntry.charge) hp
  rw [← h.bytes] at hb
  have hv := h.entry _ p hp
  simp only [S3FIFO.unlink, sub_eq hb]
  cases hseg : (c.heap p).segment
  case ghost =>
    have hm := le_sum (f := FifoEntry.metadata) (hseg ▸ hp)
    rw [← h.metadata] at hm
    simp only [FifoEntry.metadata] at hm
    simp only [S3FIFO.without, hseg, sub_eq hm, bind, Except.bind, if_true]
    rfl
  all_goals
    have ⟨v, he, _⟩ := hv.resident (by simp [hseg])
    have hpay : (c.heap p).payload = v.data.length := by simp [FifoEntry.payload, he]
    have hm : v.data.length ≤ c.payloadBytes := by
      have := le_sum (f := FifoEntry.payload) (hseg ▸ hp)
      have := h.payload
      omega
    simp only [S3FIFO.without, hseg, he, hpay, sub_eq hm, bind, Except.bind, reduceCtorEq, if_false]
    rfl

end Unlink

section Append

-- The entry is in none of the queues.
def Detached (c : S3FIFO) (p : Nat) : Prop := ∀ s, p ∉ c.queues s

-- The result of `append`, without the checks.
def join (c : S3FIFO) (p : Nat) (s : FifoSegment) : S3FIFO :=
  let e := c.heap p
  { c with
    heap          := Function.update c.heap p { e with segment := s }
    queues        := Function.update c.queues s (c.queues s ++ [p])
    bytes         := Function.update c.bytes s (c.bytes s + e.charge)
    payloadBytes  := if s = .ghost then c.payloadBytes else c.payloadBytes + e.payload
    ghostMetadata := if s = .ghost then c.ghostMetadata + e.metadata else c.ghostMetadata
    entries       := Function.update c.entries e.key (some p) }

theorem mem_join : q ∈ (c.join p s).queues s' ↔ q ∈ c.queues s' ∨ s' = s ∧ q = p := by
  simp only [join, Function.update_apply]
  split
  case isTrue hs => simp [hs]
  case isFalse hs => simp [hs]

theorem heap_join (hq : q ≠ p) : (c.join p s).heap q = c.heap q := Function.update_of_ne hq _ _

theorem heap_join_self : (c.join p s).heap p = { c.heap p with segment := s } :=
  Function.update_self ..

theorem sum_congr (hc : c'.queues s = c.queues s) (hh : ∀ q ∈ c.queues s, f (c'.heap q) = f (c.heap q)) :
    c'.sum s f = c.sum s f := by
  simp only [sum, hc]
  exact congrArg List.sum (List.map_congr_left hh)

theorem sum_join (hd : c.Detached p) (hf : ∀ e s, f { e with segment := s } = f e) :
    (c.join p s).sum s' f = c.sum s' f + if s' = s then f (c.heap p) else 0 := by
  have hheap : ∀ q ∈ c.queues s', f ((c.join p s).heap q) = f (c.heap q) := by
    intro q hq
    rw [heap_join (by rintro rfl; exact hd s' hq)]
  by_cases hs : s' = s
  case pos =>
    subst hs
    have hq : (c.join p s').queues s' = c.queues s' ++ [p] := Function.update_self ..
    simp only [sum, hq, List.map_append, List.sum_append, List.map_cons, List.map_nil,
      List.sum_singleton, heap_join_self, hf, if_true]
    exact congrArg (· + _) (congrArg List.sum (List.map_congr_left hheap))
  case neg =>
    rw [if_neg hs, Nat.add_zero]
    exact sum_congr (Function.update_of_ne hs _ _) hheap

theorem Inv.detached (h : c.Inv) (hk : c.entries (c.heap p).key = none) : c.Detached p := by
  intro s hp
  simp [(h.queued s p hp).1] at hk

theorem Inv.join (h : c.Inv) (hk : c.entries (c.heap p).key = none) (hn : p < c.next)
    (hv : { c.heap p with segment := s : FifoEntry }.Valid c.capacity) : (c.join p s).Inv := by
  have hd := h.detached hk
  have hne {s' q} (hq : q ∈ c.queues s') : q ≠ p := by
    rintro rfl
    exact hd s' hq
  constructor
  case capacity => exact h.capacity
  case limit => exact h.limit
  case mapped =>
    intro k q hq
    by_cases hk' : k = (c.heap p).key
    case pos =>
      have : q = p := by simpa [S3FIFO.join, hk'] using hq.symm
      subst this
      simp [heap_join_self, hk', mem_join]
    case neg =>
      have hq : c.entries k = some q := by simpa [S3FIFO.join, hk'] using hq
      have ⟨h₁, h₂⟩ := h.mapped k q hq
      rw [heap_join (hne h₂), mem_join]
      exact ⟨h₁, .inl h₂⟩
  case queued =>
    intro s' q hq
    obtain hq | ⟨rfl, rfl⟩ := mem_join.mp hq
    case inl =>
      have ⟨h₁, h₂⟩ := h.queued s' q hq
      rw [heap_join (hne hq)]
      refine ⟨?_, h₂⟩
      have hk' : (c.heap q).key ≠ (c.heap p).key := by
        intro hk'
        simp [← hk', h₁] at hk
      exact (Function.update_of_ne hk' _ _).trans h₁
    case inr =>
      rw [heap_join_self]
      exact ⟨Function.update_self .., rfl⟩
  case nodup =>
    intro s'
    simp only [S3FIFO.join, Function.update_apply]
    split
    case isTrue => exact (h.nodup s).append (List.nodup_singleton p) (by simpa using hd s)
    case isFalse => exact h.nodup s'
  case fresh =>
    intro s' q hq
    obtain hq | ⟨rfl, rfl⟩ := mem_join.mp hq
    case inl => exact h.fresh s' q hq
    case inr => exact hn
  case entry =>
    intro s' q hq
    obtain hq | ⟨rfl, rfl⟩ := mem_join.mp hq
    case inl =>
      rw [heap_join (hne hq)]
      exact h.entry s' q hq
    case inr =>
      rw [heap_join_self]
      exact hv
  case bytes =>
    intro s'
    rw [sum_join hd (fun _ _ => rfl), ← h.bytes]
    simp only [S3FIFO.join, Function.update_apply]
    split
    case isTrue hs => rw [hs]
    case isFalse => rfl
  case payload =>
    rw [sum_join hd (fun _ _ => rfl), sum_join hd (fun _ _ => rfl)]
    have := h.payload
    cases s
    all_goals
      simp only [S3FIFO.join, reduceCtorEq, if_true, if_false]
      omega
  case metadata =>
    rw [sum_join hd (fun _ _ => rfl)]
    have := h.metadata
    cases s
    all_goals
      simp only [S3FIFO.join, reduceCtorEq, if_true, if_false]
      omega

theorem append_eq {v : RamEntry} (hs : s ≠ .ghost) (hv : (c.heap p).value = some v)
    (hb : c.bytes s + (c.heap p).charge < 2 ^ 64) (hp : c.payloadBytes + v.data.length < 2 ^ 64) :
    c.append p s = .ok (c.join p s) := by
  have hpay : (c.heap p).payload = v.data.length := by simp [FifoEntry.payload, hv]
  cases s
  case ghost => exact absurd rfl hs
  all_goals
    simp only [append, add_eq hb, add_eq hp, hv, join, hpay, bind, Except.bind, reduceCtorEq, if_false]
    rfl

theorem append_ghost_eq (hb : c.bytes .ghost + (c.heap p).charge < 2 ^ 64)
    (hm : c.ghostMetadata + (c.heap p).metadata < 2 ^ 64) :
    c.append p .ghost = .ok (c.join p .ghost) := by
  rw [FifoEntry.metadata] at hm
  simp only [append, add_eq hb, add_eq hm, join, bind, Except.bind, if_true]
  rfl

end Append

section Modify

theorem heap_modify {g : FifoEntry → FifoEntry} (hq : q ≠ p) : (c.modify p g).heap q = c.heap q :=
  Function.update_of_ne hq _ _

theorem heap_modify_self {g : FifoEntry → FifoEntry} : (c.modify p g).heap p = g (c.heap p) :=
  Function.update_self ..

-- An entry in a queue may only change its frequency, another one in any way.
theorem Inv.modify (h : c.Inv) {g : FifoEntry → FifoEntry}
    (hg : c.Detached p ∨ ∃ n, g (c.heap p) = { c.heap p with freq := n }) : (c.modify p g).Inv := by
  have hheap {s q} (hq : q ∈ c.queues s) : ∃ n, (c.modify p g).heap q = { c.heap q with freq := n } := by
    by_cases hqp : q = p
    case pos =>
      subst hqp
      rw [heap_modify_self]
      exact hg.resolve_left fun hd => hd s hq
    case neg => exact ⟨(c.heap q).freq, heap_modify hqp⟩
  have hsum (s) (f : FifoEntry → Nat) (hf : ∀ e n, f { e with freq := n } = f e) :
      (c.modify p g).sum s f = c.sum s f := by
    refine sum_congr rfl fun q hq => ?_
    have ⟨n, hn⟩ := hheap hq
    rw [hn, hf]
  constructor
  case capacity => exact h.capacity
  case limit => exact h.limit
  case mapped =>
    intro k q hq
    have ⟨h₁, h₂⟩ := h.mapped k q hq
    have ⟨n, hn⟩ := hheap h₂
    rw [hn]
    exact ⟨h₁, h₂⟩
  case queued =>
    intro s q hq
    have ⟨n, hn⟩ := hheap hq
    rw [hn]
    exact h.queued s q hq
  case nodup => exact h.nodup
  case fresh => exact h.fresh
  case entry =>
    intro s q hq
    have ⟨n, hn⟩ := hheap hq
    have hv := h.entry s q hq
    rw [hn]
    exact ⟨hv.key, hv.charge, hv.resident⟩
  case bytes =>
    intro s
    rw [hsum s _ fun _ _ => rfl]
    exact h.bytes s
  case payload =>
    rw [hsum _ _ fun _ _ => rfl, hsum _ _ fun _ _ => rfl]
    exact h.payload
  case metadata =>
    rw [hsum _ _ fun _ _ => rfl]
    exact h.metadata

-- The order of a queue does not matter.
theorem Inv.perm (h : c.Inv) {l : List Nat} (hl : l.Perm (c.queues s)) :
    { c with queues := Function.update c.queues s l }.Inv := by
  have hperm (s') : (Function.update c.queues s l s').Perm (c.queues s') := by
    by_cases hs : s' = s
    case pos => simpa [hs] using hl
    case neg => simp [hs]
  have hsum (s') (f : FifoEntry → Nat) :
      { c with queues := Function.update c.queues s l }.sum s' f = c.sum s' f :=
    ((hperm s').map _).sum_eq
  constructor
  case capacity => exact h.capacity
  case limit => exact h.limit
  case mapped =>
    intro k q hq
    have ⟨h₁, h₂⟩ := h.mapped k q hq
    exact ⟨h₁, (hperm _).mem_iff.mpr h₂⟩
  case queued => exact fun s' q hq => h.queued s' q ((hperm s').mem_iff.mp hq)
  case nodup => exact fun s' => (hperm s').nodup_iff.mpr (h.nodup s')
  case fresh => exact fun s' q hq => h.fresh s' q ((hperm s').mem_iff.mp hq)
  case entry => exact fun s' q hq => h.entry s' q ((hperm s').mem_iff.mp hq)
  case bytes => exact fun s' => (h.bytes s').trans (hsum s' _).symm
  case payload => rw [hsum, hsum]; exact h.payload
  case metadata => rw [hsum]; exact h.metadata

end Modify

end S3FIFO
end Bakemono
