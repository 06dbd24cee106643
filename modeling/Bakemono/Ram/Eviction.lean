import Bakemono.Ram.Accounting

namespace Bakemono.S3FIFO

variable {c c' c₁ c₂ : S3FIFO} {p q : Nat} {s s' : FifoSegment} {k key : Bytes} {rest : List Nat}
variable {fuel : Nat}

-- What `Get` returns.
def lookup (c : S3FIFO) (key : Bytes) : Option RamEntry := (c.get key).1

theorem lookup_eq : c.lookup k =
    (c.entries k).bind fun p => if (c.heap p).segment = .ghost then none else (c.heap p).value := by
  simp only [lookup, get]
  split
  case h_1 h => simp [h]
  case h_2 h =>
    simp only [h, Option.bind_some]
    split <;> rfl

theorem lookup_congr (h : c.Inv) (he : c'.entries k = c.entries k)
    (hh : ∀ s, ∀ q ∈ c.queues s, (c'.heap q).segment = (c.heap q).segment ∧
      (c'.heap q).value = (c.heap q).value) : c'.lookup k = c.lookup k := by
  rw [lookup_eq, lookup_eq, he]
  cases hk : c.entries k
  case none => rfl
  case some p =>
    have ⟨h₁, h₂⟩ := hh _ p (h.mapped k p hk).2
    simp only [Option.bind_some, h₁, h₂]

-- The bounds of the ghost queue, which `trimGhost` establishes.
structure GhostBounded (c : S3FIFO) : Prop where
  bytes    : c.bytes .ghost ≤ c.capacity
  metadata : c.ghostMetadata ≤ max 128 (c.capacity / 10)
  count    : (c.queues .ghost).length ≤ c.entryLimit

theorem ghostOver_eq_false : c.ghostOver = false ↔ c.GhostBounded := by
  simp only [ghostOver, decide_eq_false_iff_not, not_or, not_lt]
  exact ⟨fun ⟨h₁, h₂, h₃⟩ => ⟨h₁, h₂, h₃⟩, fun ⟨h₁, h₂, h₃⟩ => ⟨h₁, h₂, h₃⟩⟩

-- The charge of the resident entries.
def total (c : S3FIFO) : Nat := c.bytes .small + c.bytes .main

-- The number of evictions that are possible. An entry can be promoted before it is evicted.
def steps (c : S3FIFO) : Nat := 2 * (c.queues .small).length + (c.queues .main).length

def residents (c : S3FIFO) : Nat := (c.queues .small).length + (c.queues .main).length

-- The invariant between two evictions. An update may have made the resident entries too heavy.
structure Good (c : S3FIFO) : Prop where
  inv    : c.Inv
  ghosts : c.GhostBounded
  total  : c.total ≤ 2 * c.capacity

-- Evictions drop entries and add nothing.
structure Drops (c c' : S3FIFO) : Prop where
  capacity  : c'.capacity = c.capacity
  limit     : c'.entryLimit = c.entryLimit
  next      : c'.next = c.next
  absent    : ∀ k, c.entries k = none → c'.entries k = none
  lookup    : ∀ k, c'.lookup k = c.lookup k ∨ c'.lookup k = none
  total     : c'.total ≤ c.total
  residents : c'.residents ≤ c.residents
  steps     : c'.steps ≤ c.steps

namespace Drops

theorem refl : Drops c c :=
  ⟨rfl, rfl, rfl, fun _ => id, fun _ => .inl rfl, le_rfl, le_rfl, le_rfl⟩

theorem trans (h₁ : Drops c c₁) (h₂ : Drops c₁ c₂) : Drops c c₂ where
  capacity  := h₂.capacity.trans h₁.capacity
  limit     := h₂.limit.trans h₁.limit
  next      := h₂.next.trans h₁.next
  absent k  := h₂.absent k ∘ h₁.absent k
  lookup k  := by
    cases h₂.lookup k
    case inl h => exact h ▸ h₁.lookup k
    case inr h => exact .inr h
  total     := h₂.total.trans h₁.total
  residents := h₂.residents.trans h₁.residents
  steps     := h₂.steps.trans h₁.steps

end Drops

section Unlink

theorem lookup_without (h : c.Inv) :
    (c.without p).lookup k = if k = (c.heap p).key then none else c.lookup k := by
  split
  case isTrue hk =>
    rw [lookup_eq]
    simp [without, hk]
  case isFalse hk => exact lookup_congr h (Function.update_of_ne hk _ _) fun _ _ _ => ⟨rfl, rfl⟩

theorem queues_without : (c.without p).queues s =
    if s = (c.heap p).segment then (c.queues s).erase p else c.queues s := by
  simp only [without, Function.update_apply]
  split
  case isTrue hs => rw [hs]
  case isFalse => rfl

theorem bytes_without : (c.without p).bytes s =
    if s = (c.heap p).segment then c.bytes s - (c.heap p).charge else c.bytes s := by
  simp only [without, Function.update_apply]
  split
  case isTrue hs => rw [hs]
  case isFalse => rfl

theorem Inv.drops_without (h : c.Inv) : Drops c (c.without p) where
  capacity  := rfl
  limit     := rfl
  next      := rfl
  absent k  := by
    intro hk
    simp only [S3FIFO.without, Function.update_apply]
    split
    case isTrue => rfl
    case isFalse => exact hk
  lookup k  := by
    rw [lookup_without h]
    split
    case isTrue => exact .inr rfl
    case isFalse => exact .inl rfl
  total     := by
    simp only [S3FIFO.total, bytes_without]
    split <;> split <;> omega
  residents := by
    have hl (s) : ((c.without p).queues s).length ≤ (c.queues s).length := by
      rw [queues_without]
      split
      case isTrue => exact List.length_erase_le
      case isFalse => exact le_rfl
    exact Nat.add_le_add (hl _) (hl _)
  steps     := by
    have hl (s) : ((c.without p).queues s).length ≤ (c.queues s).length := by
      rw [queues_without]
      split
      case isTrue => exact List.length_erase_le
      case isFalse => exact le_rfl
    exact Nat.add_le_add (Nat.mul_le_mul_left 2 (hl _)) (hl _)

end Unlink

-- Each iteration shortens the queue.
theorem trimGhost_spec (h : c.Inv) (hf : (c.queues .ghost).length < fuel) : ∃ c',
    trimGhost fuel c = .ok c' ∧ c'.Inv ∧ c'.GhostBounded ∧ Drops c c' ∧
    ∀ s ≠ .ghost, c'.queues s = c.queues s ∧ c'.bytes s = c.bytes s := by
  induction fuel generalizing c
  case zero => omega
  case succ fuel hi =>
    unfold trimGhost
    cases ho : c.ghostOver
    case false => exact ⟨c, rfl, h, ghostOver_eq_false.mp ho, .refl, fun _ _ => ⟨rfl, rfl⟩⟩
    case true =>
      cases hq : c.queues .ghost
      case nil =>
        -- Nothing is too large if the queue is empty.
        have : c.GhostBounded := by
          have h₁ := h.bytes .ghost
          have h₂ := h.metadata
          simp only [sum, hq, List.map_nil, List.sum_nil] at h₁ h₂
          exact ⟨by omega, by omega, by simp [hq]⟩
        rw [ghostOver_eq_false.mpr this] at ho
        cases ho
      case cons p rest =>
        have hp : p ∈ c.queues .ghost := by simp [hq]
        have hs := (h.queued _ p hp).2
        have hlen : ((c.without p).queues .ghost).length < fuel := by
          rw [queues_without, if_pos hs.symm, hq, List.erase_cons_head]
          simp [hq] at hf
          exact hf
        obtain ⟨c', he, hinv, hg, hd, hk⟩ := hi (h.without (hs ▸ hp)) hlen
        refine ⟨c', ?_, hinv, hg, h.drops_without.trans hd, fun s hne => ?_⟩
        case refine_1 => simpa [h.unlink hp, bind, Except.bind] using he
        case refine_2 =>
          obtain ⟨h₁, h₂⟩ := hk s hne
          rw [h₁, h₂, queues_without, bytes_without, hs, if_neg hne, if_neg hne]
          exact ⟨rfl, rfl⟩

section Move

theorem lookup_join (h : c.Inv) (hd : c.Detached p) : (c.join p s).lookup k =
    if k = (c.heap p).key then (if s = .ghost then none else (c.heap p).value) else c.lookup k := by
  split
  case isTrue hk =>
    rw [lookup_eq]
    simp [join, hk]
  case isFalse hk =>
    refine lookup_congr h (Function.update_of_ne hk _ _) fun s' q hq => ?_
    rw [heap_join (by rintro rfl; exact hd s' hq)]
    exact ⟨rfl, rfl⟩

theorem queues_join : (c.join p s).queues s' = if s' = s then c.queues s ++ [p] else c.queues s' :=
  Function.update_apply ..

theorem bytes_join :
    (c.join p s).bytes s' = if s' = s then c.bytes s + (c.heap p).charge else c.bytes s' :=
  Function.update_apply ..

-- The resident entries are at least as heavy as their values.
theorem Inv.payload_le (h : c.Inv) : c.payloadBytes ≤ c.total := by
  have hle (s) (hs : s ≠ .ghost) : c.sum s FifoEntry.payload ≤ c.bytes s := by
    rw [h.bytes]
    refine sum_le_sum fun p hp => ?_
    obtain ⟨v, hv, hl⟩ := (h.entry s p hp).resident ((h.queued s p hp).2 ▸ hs)
    simpa [FifoEntry.payload, hv] using hl
  rw [h.payload]
  exact Nat.add_le_add (hle _ (by simp)) (hle _ (by simp))

-- An entry leaves its queue, and is changed before it is put into another one.
def move (c : S3FIFO) (p : Nat) (g : FifoEntry → FifoEntry) (s : FifoSegment) : S3FIFO :=
  ((c.without p).modify p g).join p s

variable {g : FifoEntry → FifoEntry}

theorem Inv.detached_without (h : c.Inv) (hp : p ∈ c.queues s) : (c.without p).Detached p := by
  have hs := (h.queued s p hp).2
  exact fun s' hq => h.ne_of_mem_without (hs ▸ hp) hq rfl

theorem Inv.move (h : c.Inv) (hp : p ∈ c.queues s) (hk : (g (c.heap p)).key = (c.heap p).key)
    (hv : { g (c.heap p) with segment := s' : FifoEntry }.Valid c.capacity) : (c.move p g s').Inv := by
  have hs := (h.queued s p hp).2
  have hw := (h.without (hs ▸ hp)).modify (g := g) (.inl (h.detached_without hp))
  refine hw.join ?_ (h.fresh s p hp) ?_
  case refine_1 =>
    rw [heap_modify_self]
    change (c.without p).entries (g (c.heap p)).key = none
    rw [hk]
    exact Function.update_self ..
  case refine_2 =>
    rw [heap_modify_self]
    exact hv

theorem Inv.lookup_move (h : c.Inv) (hp : p ∈ c.queues s)
    (hk : (g (c.heap p)).key = (c.heap p).key) : (c.move p g s').lookup k =
      if k = (c.heap p).key then (if s' = .ghost then none else (g (c.heap p)).value)
      else c.lookup k := by
  have hs := (h.queued s p hp).2
  have hd := h.detached_without hp
  have hw := h.without (hs ▸ hp)
  have hm : ((c.without p).modify p g).lookup k = (c.without p).lookup k := by
    refine lookup_congr hw rfl fun s' q hq => ?_
    rw [heap_modify (by rintro rfl; exact hd s' hq)]
    exact ⟨rfl, rfl⟩
  rw [S3FIFO.move, lookup_join (hw.modify (.inl hd)) hd, heap_modify_self, hm, lookup_without h]
  change (if k = (g (c.heap p)).key then if s' = .ghost then none else (g (c.heap p)).value else _) = _
  rw [hk]
  split
  case isTrue => rfl
  case isFalse => rfl

theorem Inv.absent_move (h : c.Inv) (hp : p ∈ c.queues s)
    (hk : (g (c.heap p)).key = (c.heap p).key) (ha : c.entries k = none) :
    (c.move p g s').entries k = none := by
  have hne : k ≠ (c.heap p).key := by
    rintro rfl
    simp [(h.queued s p hp).1] at ha
  have hne' : k ≠ ((c.without p).modify p g |>.heap p).key := by
    rw [heap_modify_self]
    change k ≠ (g (c.heap p)).key
    rwa [hk]
  exact (Function.update_of_ne hne' _ _).trans ((Function.update_of_ne hne _ _).trans ha)

theorem queues_move : (c.move p g s').queues s =
    if s = s' then (c.without p).queues s' ++ [p] else (c.without p).queues s :=
  queues_join

theorem bytes_move (hc : (g (c.heap p)).charge = (c.heap p).charge) : (c.move p g s').bytes s =
    if s = s' then (c.without p).bytes s' + (c.heap p).charge else (c.without p).bytes s := by
  rw [← hc]
  refine bytes_join.trans ?_
  rw [heap_modify_self]
  rfl

end Move

section Small

-- The first entry of the small queue goes to the end of another one.
structure Moves (c c' : S3FIFO) (p : Nat) (s : FifoSegment) : Prop where
  small  : c.queues .small = p :: c'.queues .small
  target : c'.queues s = c.queues s ++ [p]
  queues : ∀ s', s' ≠ .small → s' ≠ s → c'.queues s' = c.queues s'
  source : c'.bytes .small + (c.heap p).charge = c.bytes .small
  goal   : c'.bytes s = c.bytes s + (c.heap p).charge
  bytes  : ∀ s', s' ≠ .small → s' ≠ s → c'.bytes s' = c.bytes s'

theorem Inv.moves {g : FifoEntry → FifoEntry} (h : c.Inv) (hq : c.queues .small = p :: rest)
    (hs : s ≠ .small) (hc : (g (c.heap p)).charge = (c.heap p).charge) :
    Moves c (c.move p g s) p s := by
  have hp : p ∈ c.queues .small := by simp [hq]
  have hseg := (h.queued _ p hp).2
  have hle : (c.heap p).charge ≤ c.bytes .small := by
    rw [h.bytes]
    exact le_sum (f := FifoEntry.charge) hp
  have hb (s') : (c.move p g s).bytes s' = _ := bytes_move hc
  have hqs (s') : (c.move p g s).queues s' = _ := queues_move
  simp only [bytes_without, queues_without, hseg, if_neg hs] at hb hqs
  have h₁ := hb .small
  have h₂ := hqs .small
  simp only [if_neg hs.symm, if_true, hq, List.erase_cons_head] at h₁ h₂
  constructor
  case small => rw [h₂, hq]
  case target => rw [hqs, if_pos rfl]
  case queues =>
    intro s' h₁ h₂
    rw [hqs, if_neg h₂, if_neg h₁]
  case source => omega
  case goal => rw [hb, if_pos rfl]
  case bytes =>
    intro s' h₁ h₂
    rw [hb, if_neg h₂, if_neg h₁]

theorem Good.promote (h : c.Good) (hq : c.queues .small = p :: rest) :
    ((c.without p).modify p promote).append p .main = .ok (c.move p promote .main) ∧
    (c.move p promote .main).Good ∧ Drops c (c.move p promote .main) ∧
    Moves c (c.move p promote .main) p .main := by
  have hp : p ∈ c.queues .small := by simp [hq]
  have hs := (h.inv.queued _ p hp).2
  have hv := h.inv.entry _ p hp
  have ⟨v, he, hl⟩ := hv.resident (by simp [hs])
  have hm : Moves c (c.move p S3FIFO.promote .main) p .main := h.inv.moves hq nofun rfl
  have hlen := congrArg List.length hm.small
  have hlen' := congrArg List.length hm.target
  simp only [List.length_cons, List.length_append, List.length_nil] at hlen hlen'
  have hsm := hm.source
  have hmn := hm.goal
  have htot := h.total
  have hcap := h.inv.capacity
  have hinv : (c.move p S3FIFO.promote .main).Inv :=
    h.inv.move hp rfl ⟨hv.key, hv.charge, fun _ => ⟨v, he, hl⟩⟩
  refine ⟨?_, ⟨hinv, ?_, ?_⟩, ⟨rfl, rfl, rfl, ?_, ?_, ?_, ?_, ?_⟩, hm⟩
  case refine_1 =>
    have hpay := (h.inv.without (hs ▸ hp)).payload_le
    have hd := (h.inv.drops_without (p := p)).total
    simp only [S3FIFO.total] at *
    refine append_eq nofun (v := v) ?_ ?_ ?_
    case refine_1 => rw [heap_modify_self]; exact he
    case refine_2 =>
      rw [heap_modify_self]
      have : (c.without p).bytes .main = c.bytes .main := by rw [bytes_without, hs]; rfl
      change (c.without p).bytes .main + (c.heap p).charge < _
      omega
    case refine_3 =>
      change (c.without p).payloadBytes + _ < _
      omega
  case refine_2 =>
    have hg := h.ghosts
    have hqg := hm.queues .ghost nofun nofun
    have hbg := hm.bytes .ghost nofun nofun
    have hmeta : (c.move p S3FIFO.promote .main).ghostMetadata = c.ghostMetadata := by
      simp [S3FIFO.move, join, modify, without, hs]
    exact ⟨hbg ▸ hg.bytes, hmeta ▸ hg.metadata, hqg ▸ hg.count⟩
  case refine_3 =>
    change _ ≤ 2 * c.capacity
    simp only [S3FIFO.total] at *
    omega
  case refine_4 => exact fun k hk => h.inv.absent_move hp rfl hk
  case refine_5 =>
    intro k
    left
    rw [h.inv.lookup_move hp rfl]
    split
    case isTrue hk =>
      rw [lookup_eq, hk, (h.inv.queued _ p hp).1]
      simp [S3FIFO.promote, hs]
    case isFalse => rfl
  case refine_6 =>
    simp only [S3FIFO.total] at *
    omega
  case refine_7 => simp only [S3FIFO.residents]; omega
  case refine_8 => simp only [S3FIFO.steps]; omega

theorem Good.demote (h : c.Good) (hq : c.queues .small = p :: rest) :
    ((c.without p).modify p demote).append p .ghost = .ok (c.move p demote .ghost) ∧
    (c.move p demote .ghost).Inv ∧ Drops c (c.move p demote .ghost) ∧
    Moves c (c.move p demote .ghost) p .ghost := by
  have hp : p ∈ c.queues .small := by simp [hq]
  have hs := (h.inv.queued _ p hp).2
  have hv := h.inv.entry _ p hp
  have hm : Moves c (c.move p S3FIFO.demote .ghost) p .ghost := h.inv.moves hq (by simp) rfl
  have hlen := congrArg List.length hm.small
  simp only [List.length_cons] at hlen
  have hsm := hm.source
  have hcap := h.inv.capacity
  refine ⟨?_, h.inv.move hp rfl ⟨hv.key, hv.charge, (absurd rfl ·)⟩, ⟨rfl, rfl, rfl, ?_, ?_, ?_, ?_, ?_⟩, hm⟩
  case refine_1 =>
    have hg := h.ghosts
    have hgb := hg.bytes
    have hgm := hg.metadata
    have hchg := hv.charge
    have hkey := hv.key
    refine append_ghost_eq ?_ ?_
    case refine_1 =>
      rw [heap_modify_self]
      have : (c.without p).bytes .ghost = c.bytes .ghost := by rw [bytes_without, hs]; rfl
      change (c.without p).bytes .ghost + (c.heap p).charge < _
      omega
    case refine_2 =>
      rw [heap_modify_self]
      have : (c.without p).ghostMetadata = c.ghostMetadata := by simp [without, hs]
      change (c.without p).ghostMetadata + (128 + (c.heap p).key.length) < _
      simp only [maxRAMKeyBytes] at hkey
      omega
  case refine_2 => exact fun k hk => h.inv.absent_move hp rfl hk
  case refine_3 =>
    intro k
    rw [h.inv.lookup_move hp rfl]
    split
    case isTrue => exact .inr rfl
    case isFalse => exact .inl rfl
  case refine_4 =>
    have := hm.bytes .main (by simp) (by simp)
    simp only [S3FIFO.total]
    omega
  case refine_5 =>
    have := hm.queues .main (by simp) (by simp)
    simp only [S3FIFO.residents, this]
    omega
  case refine_6 =>
    have := hm.queues .main (by simp) (by simp)
    simp only [S3FIFO.steps, this]
    omega

-- One entry is evicted, unless all entries of the queue are promoted.
theorem evictSmall_spec (h : c.Good) (hf : (c.queues .small).length < fuel) : ∃ c',
    evictSmall fuel c = .ok c' ∧ c'.Good ∧ Drops c c' ∧
    (c.queues .small ≠ [] → c'.steps < c.steps) := by
  induction fuel generalizing c
  case zero => omega
  case succ fuel hi =>
    unfold evictSmall
    cases hq : c.queues .small
    case nil => exact ⟨c, rfl, h, .refl, fun hne => absurd rfl hne⟩
    case cons p rest =>
      have hp : p ∈ c.queues .small := by simp [hq]
      have hrest : rest.length < fuel := by simpa [hq] using hf
      simp only [h.inv.unlink hp, bind, Except.bind]
      by_cases hfreq : ((c.without p).heap p).freq ≥ 2
      case pos =>
        have ⟨he, hg, hd, hm⟩ := h.promote hq
        have hsm : (c.move p S3FIFO.promote .main).queues .small = rest :=
          (List.cons.inj (hm.small.symm.trans hq)).2
        have ⟨c', he', hg', hd', _⟩ := hi hg (hsm ▸ hrest)
        refine ⟨c', ?_, hg', hd.trans hd', fun _ => ?_⟩
        case refine_1 =>
          rw [if_pos hfreq, he]
          exact he'
        case refine_2 =>
          refine hd'.steps.trans_lt ?_
          have hlen' := congrArg List.length hm.target
          simp only [List.length_append, List.length_cons, List.length_nil] at hlen'
          simp only [steps, hsm, hq, List.length_cons]
          omega
      case neg =>
        have ⟨he, hinv, hd, hm⟩ := h.demote hq
        have ⟨c', he', hinv', hg', hd', _⟩ := trimGhost_spec hinv (Nat.lt_succ_self _)
        have hd'' := hd.trans hd'
        refine ⟨c', ?_, ⟨hinv', hg', ?_⟩, hd'', fun _ => ?_⟩
        case refine_1 =>
          rw [if_neg hfreq, he]
          exact he'
        case refine_2 =>
          rw [hd''.capacity]
          exact hd''.total.trans h.total
        case refine_3 =>
          refine hd'.steps.trans_lt ?_
          have := congrArg List.length hm.small
          simp only [List.length_cons] at this
          simp only [steps, hm.queues .main nofun nofun]
          omega

end Small

section Main

theorem heap_rotate (hq : q ≠ p) : (c.rotate p rest).heap q = c.heap q :=
  Function.update_of_ne hq _ _

theorem heap_rotate_self :
    (c.rotate p rest).heap p = { c.heap p with freq := (c.heap p).freq - 1 } :=
  Function.update_self ..

theorem main_rotate : (c.rotate p rest).queues .main = rest ++ [p] := by
  simp [rotate]

theorem small_rotate : (c.rotate p rest).queues .small = c.queues .small := rfl

theorem Good.rotate (h : c.Good) (hq : c.queues .main = p :: rest) :
    (c.rotate p rest).Good ∧ Drops c (c.rotate p rest) := by
  have hperm : (rest ++ [p]).Perm (c.queues .main) := hq ▸ List.perm_append_singleton p rest
  have hlen := hperm.length_eq
  have hinv : (c.rotate p rest).Inv :=
    (h.inv.modify (p := p) (g := fun e => { e with freq := e.freq - 1 }) (.inr ⟨_, rfl⟩)).perm hperm
  refine ⟨⟨hinv, ⟨h.ghosts.bytes, h.ghosts.metadata, h.ghosts.count⟩, h.total⟩,
    ⟨rfl, rfl, rfl, fun _ => id, fun k => .inl ?_, le_rfl, ?_, ?_⟩⟩
  case refine_1 =>
    refine lookup_congr h.inv rfl fun s q _ => ?_
    by_cases hqp : q = p
    case pos =>
      subst hqp
      rw [heap_rotate_self]
      exact ⟨rfl, rfl⟩
    case neg =>
      rw [heap_rotate hqp]
      exact ⟨rfl, rfl⟩
  case refine_2 => simp only [residents, main_rotate, small_rotate, hlen, le_refl]
  case refine_3 => simp only [steps, main_rotate, small_rotate, hlen, le_refl]

theorem mainFuel_rotate (h : c.Good) (hq : c.queues .main = p :: rest) (hf : 0 < (c.heap p).freq) :
    (c.rotate p rest).mainFuel < c.mainFuel := by
  have hnodup := h.inv.nodup .main
  rw [hq, List.nodup_cons] at hnodup
  have hrest : rest.map (fun q => ((c.rotate p rest).heap q).freq) = rest.map fun q => (c.heap q).freq := by
    refine List.map_congr_left fun q hm => ?_
    rw [heap_rotate (by rintro rfl; exact hnodup.1 hm)]
  simp only [mainFuel, main_rotate, hq, List.map_append, List.map_cons, List.map_nil,
    List.sum_append, List.sum_cons, List.sum_nil, hrest, heap_rotate_self]
  omega

theorem evictMain_spec (h : c.Good) (hf : c.mainFuel ≤ fuel) :
    (c.queues .main = [] ∧ evictMain fuel c = .ok (false, c)) ∨
    ∃ c', evictMain fuel c = .ok (true, c') ∧ c'.Good ∧ Drops c c' ∧ c'.steps < c.steps := by
  induction fuel generalizing c
  case zero => simp [mainFuel] at hf
  case succ fuel hi =>
    unfold evictMain
    cases hq : c.queues .main
    case nil => exact .inl ⟨rfl, rfl⟩
    case cons p rest =>
      refine .inr ?_
      by_cases hfreq : (c.heap p).freq > 0
      case pos =>
        have ⟨hg, hd⟩ := h.rotate hq
        have hlt := mainFuel_rotate h hq hfreq
        have ⟨c', he, hg', hd', hs⟩ := (hi hg (by omega)).resolve_left (by simp [main_rotate])
        exact ⟨c', by simpa only [if_pos hfreq] using he, hg', hd.trans hd', hs.trans_le hd.steps⟩
      case neg =>
        have hp : p ∈ c.queues .main := by simp [hq]
        have hs := (h.inv.queued _ p hp).2
        have hd := h.inv.drops_without (p := p)
        refine ⟨c.without p, ?_, ⟨h.inv.without (hs ▸ hp), ?_, ?_⟩, hd, ?_⟩
        case refine_1 => simp [hfreq, h.inv.unlink hp, bind, Except.bind, pure, Except.pure]
        case refine_2 =>
          have hg := h.ghosts
          refine ⟨?_, ?_, ?_⟩
          case refine_1 => rw [bytes_without, hs]; exact hg.bytes
          case refine_2 => simpa [without, hs] using hg.metadata
          case refine_3 => rw [queues_without, hs]; exact hg.count
        case refine_3 => exact hd.total.trans h.total
        case refine_4 =>
          simp only [steps, queues_without, hs, hq, reduceCtorEq, if_true, if_false,
            List.erase_cons_head, List.length_cons]
          omega

end Main

-- As long as there are resident entries, an eviction makes progress.
theorem evict_spec (h : c.Good) : ∃ c', c.evict = .ok c' ∧ c'.Good ∧ Drops c c' ∧
    (0 < c.steps → c'.steps < c.steps) := by
  have ⟨c₁, he₁, hg₁, hd₁, hs₁⟩ := evictSmall_spec h (Nat.lt_succ_self _)
  unfold evict
  by_cases hc : c.bytes .main > c.capacity * 9 / 10 ∨ (c.queues .small).length = 0
  case pos =>
    rw [if_pos hc]
    cases evictMain_spec h le_rfl
    case inl hm =>
      refine ⟨c₁, by simpa [hm.2, bind, Except.bind] using he₁, hg₁, hd₁, fun hpos => hs₁ fun hn => ?_⟩
      simp [steps, hm.1, hn] at hpos
    case inr hm =>
      have ⟨c', he, hg, hd, hs⟩ := hm
      exact ⟨c', by simp [he, bind, Except.bind, pure, Except.pure], hg, hd, fun _ => hs⟩
  case neg =>
    rw [if_neg hc]
    refine ⟨c₁, by simpa [bind, Except.bind, pure, Except.pure] using he₁, hg₁, hd₁, fun _ => hs₁ ?_⟩
    exact fun hn => hc (.inr (by simp [hn]))

-- The loops of `put` end, as nothing is left to be evicted at the end.
theorem evictWhile_spec (full : S3FIFO → Bool)
    (hfull : ∀ c' : S3FIFO, c'.Good → Drops c c' → c'.steps = 0 → full c' = false) (h : c.Good)
    (hf : c.steps < fuel) : ∃ c',
    evictWhile full fuel c = .ok c' ∧ c'.Good ∧ Drops c c' ∧ full c' = false := by
  induction fuel generalizing c
  case zero => omega
  case succ fuel hi =>
    unfold evictWhile
    cases hc : full c
    case false => exact ⟨c, rfl, h, .refl, hc⟩
    case true =>
      have ⟨c₁, he₁, hg₁, hd₁, hs₁⟩ := evict_spec h
      have hpos : 0 < c.steps := by
        by_contra hn
        simp [hfull c h .refl (by omega)] at hc
      have ⟨c', he, hg, hd, hf'⟩ := hi (fun c' hg hd => hfull c' hg (hd₁.trans hd)) hg₁
        (by have := hs₁ hpos; omega)
      exact ⟨c', by simpa [he₁, bind, Except.bind] using he, hg, hd₁.trans hd, hf'⟩

end Bakemono.S3FIFO
