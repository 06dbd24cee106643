import Bakemono.Directory.Invariant

open Chain

namespace Bakemono

namespace Segment

variable {s s' : Segment} {bucket bucket' : Nat → List Nat} {free l : List Nat} {b i n : Nat}
variable {tag : BitVec 16}

-- The slots of a bucket, as they are found by following its chain.
def walk (s : Segment) : (fuel index : Nat) → List Nat
  | 0,     _     => []
  | n + 1, index => index :: if s.next index = 0 then [] else s.walk n (s.next index)

def chain (s : Segment) (b : Nat) : List Nat :=
  if (s.dirAt (b * DirDepth)).offset = 0 then [] else s.walk s.length (b * DirDepth)

def entries (s : Segment) (b : Nat) : List Slot := s.items (s.chain b)

theorem walk_eq (h : Path s.next (s.next i) l 0) (hn : l.length < n) : s.walk n i = i :: l := by
  induction l generalizing i n
  all_goals obtain ⟨n, rfl⟩ := Nat.exists_eq_add_of_lt hn
  case nil =>
    have hz : s.next i = 0 := h
    simp [walk, hz]
  case cons k l hi =>
    have ⟨hk, hk₀, hp⟩ := h
    simp only [walk, hk, hk₀, if_false]
    rw [hi hp (by simp; omega)]

theorem IsBucket.chain_eq (h : s.IsBucket b l) : s.chain b = l := by
  by_cases ho : (s.dirAt (b * DirDepth)).offset = 0
  case pos => rw [Segment.chain, if_pos ho, h.eq_nil_iff.mpr ho]
  case neg =>
    have ⟨l', he, hp⟩ := h.chain.resolve_left fun hc => ho hc.2.1
    have := h.length_le
    rw [Segment.chain, if_neg ho, he]
    exact walk_eq hp (by simp [he] at this; omega)

theorem HasBuckets.entries_eq (h : s.HasBuckets bucket) (hb : b < s.buckets) :
    s.entries b = s.items (bucket b) := by
  rw [entries, (h.chains b hb).chain_eq]

theorem HasBuckets.bucket_eq (h : s.HasBuckets bucket) (hb : b < s.buckets) : bucket b = s.chain b :=
  (h.chains b hb).chain_eq.symm

-- The bucket has at most one entry.
def Sole (s : Segment) (b : Nat) : Prop := (s.dirAt (b * DirDepth)).next = 0

instance (s : Segment) (b : Nat) : Decidable (s.Sole b) := inferInstanceAs (Decidable (_ = _))

theorem HasBuckets.sole_iff (h : s.HasBuckets bucket) (hb : b < s.buckets) :
    s.Sole b ↔ (bucket b).length ≤ 1 := by
  rw [Sole, next_eq_zero]
  cases (h.chains b hb).chain
  case inl he => simp [he.1, he.2.2]
  case inr he =>
    have ⟨l, he, hp⟩ := he
    rw [he]
    cases l
    case nil => simpa using hp
    case cons => simpa [hp.1] using hp.2.1

-- A push on the free chain leaves all entries alone.
def Roomy (s : Segment) : Prop := s.freeStart ≠ 0 ∨ (s.dirAt 0).offset = 0

instance (s : Segment) : Decidable s.Roomy := inferInstanceAs (Decidable (_ ∨ _))

theorem Chained.roomy_iff (h : s.Chained bucket free) : s.Roomy ↔ s.Spare free := by
  rw [Roomy, Spare, ne_eq, freeStart_eq_zero_iff h.chain]

-- The entry that a probe for a tag finds.
def find (l : List Slot) (tag : BitVec 16) : Option Slot := l.find? (·.dir.tag = tag)

theorem dirProbe_entries (h : s.HasBuckets bucket) (hb : b < s.buckets) (tag : BitVec 16) :
    (find (s.entries b) tag = none ∧ (s.dirProbe tag b).hit = false) ∨
    ∃ l₁ i l₂, bucket b = l₁ ++ i :: l₂ ∧ (∀ k ∈ l₁, (s.dirAt k).tag ≠ tag) ∧
      (s.dirAt i).tag = tag ∧ find (s.entries b) tag = some (s.slotAt i).item ∧
      s.dirProbe tag b = ⟨true, i, l₁.getLastD 0, s.dirAt i⟩ := by
  rw [h.entries_eq hb]
  cases dirProbe_spec (h.chains b hb) (head_lt h.dvd hb) tag
  case inl hp =>
    refine .inl ⟨?_, hp.2⟩
    simp only [find, items, List.find?_map, Option.map_eq_none_iff, List.find?_eq_none]
    intro j hj
    simp only [Function.comp, decide_eq_true_eq]
    exact hp.1 j hj
  case inr hp =>
    obtain ⟨l₁, i, l₂, hl, h₁, h₂, hp⟩ := hp
    refine .inr ⟨l₁, i, l₂, hl, h₁, h₂, ?_, hp⟩
    have hn : List.find? (fun x => decide (x.dir.tag = tag)) (s.items l₁) = none := by
      simp only [items, List.find?_map, Option.map_eq_none_iff, List.find?_eq_none]
      intro j hj
      simp only [Function.comp, decide_eq_true_eq]
      exact h₁ j hj
    have hi : (s.slotAt i).item.dir.tag = tag := h₂
    rw [find, hl, items, List.map_append, List.find?_append]
    simp only [items] at hn
    rw [hn, List.map_cons, List.find?_cons_of_pos (by simpa using hi)]
    rfl

-- Replacing the first entry of a tag, or appending it.
def upsert (x : Slot) : List Slot → List Slot
  | []     => [x]
  | y :: l => if y.dir.tag = x.dir.tag then x :: l else y :: upsert x l

def eraseTag (l : List Slot) (tag : BitVec 16) : List Slot := l.eraseP (·.dir.tag = tag)

section Lists

variable {x : Slot} {l l₁ l₂ : List Slot}

theorem find_upsert_self : find (upsert x l) x.dir.tag = some x := by
  induction l
  case nil => simp [upsert, find]
  case cons y l hi =>
    simp only [upsert]
    split
    case isTrue => simp [find]
    case isFalse h => simpa [find, h] using hi

theorem find_upsert_ne (h : tag ≠ x.dir.tag) : find (upsert x l) tag = find l tag := by
  induction l
  case nil => simp [upsert, find, h.symm]
  case cons y l hi =>
    simp only [upsert, find] at hi ⊢
    split
    case isTrue hy => simp [hy, h.symm]
    case isFalse => simp only [List.find?_cons, hi]

-- Entries of other tags stay, in their order.
theorem filter_upsert : (upsert x l).filter (·.dir.tag ≠ x.dir.tag) = l.filter (·.dir.tag ≠ x.dir.tag) := by
  induction l
  case nil => simp [upsert]
  case cons y l hi =>
    simp only [upsert]
    split
    case isTrue hy => simp [hy]
    case isFalse hy => simp only [List.filter_cons, hi]

theorem upsert_of_mem (h₁ : ∀ y ∈ l₁, y.dir.tag ≠ x.dir.tag) (hy : y.dir.tag = x.dir.tag) :
    upsert x (l₁ ++ y :: l₂) = l₁ ++ x :: l₂ := by
  induction l₁
  case nil => simp [upsert, hy]
  case cons z l₁ hi =>
    have hz := h₁ z (by simp)
    simp [upsert, hz, hi fun w hw => h₁ w (by simp [hw])]

theorem upsert_of_not_mem (h : ∀ y ∈ l, y.dir.tag ≠ x.dir.tag) : upsert x l = l ++ [x] := by
  induction l
  case nil => rfl
  case cons z l hi =>
    have hz := h z (by simp)
    simp [upsert, hz, hi fun w hw => h w (by simp [hw])]

theorem nodup_upsert (h : (l.map (·.dir.tag)).Nodup) : ((upsert x l).map (·.dir.tag)).Nodup := by
  by_cases hx : ∃ y ∈ l, y.dir.tag = x.dir.tag
  case pos =>
    have ⟨y, l₁, l₂, h₁, hy, hl, _⟩ := List.exists_of_eraseP (p := (·.dir.tag = x.dir.tag)) hx.choose_spec.1
      (by simpa using hx.choose_spec.2)
    have hy : y.dir.tag = x.dir.tag := by simpa using hy
    rw [hl, upsert_of_mem (fun y hy => by simpa using h₁ y hy) hy]
    rw [hl] at h
    simpa [hy] using h
  case neg =>
    have hx : ∀ y ∈ l, y.dir.tag ≠ x.dir.tag := fun y hy he => hx ⟨y, hy, he⟩
    rw [upsert_of_not_mem hx, List.map_append, List.nodup_append]
    refine ⟨h, by simp, ?_⟩
    simp only [List.mem_map, List.map_cons, List.map_nil, List.mem_singleton]
    rintro _ ⟨y, hy, rfl⟩ _ rfl
    exact hx y hy

theorem eraseTag_of_mem (h₁ : ∀ y ∈ l₁, y.dir.tag ≠ tag) (hx : x.dir.tag = tag) :
    eraseTag (l₁ ++ x :: l₂) tag = l₁ ++ l₂ := by
  rw [eraseTag, List.eraseP_append_right _ (by simpa using h₁), List.eraseP_cons_of_pos (by simpa)]

theorem find_eraseTag_self (h : (l.map (·.dir.tag)).Nodup) : find (eraseTag l tag) tag = none := by
  induction l
  case nil => simp [eraseTag, find]
  case cons y l hi =>
    have ⟨h₁, h₂⟩ := List.nodup_cons.mp h
    by_cases hy : y.dir.tag = tag
    case pos =>
      simp only [eraseTag, hy, decide_true, List.eraseP_cons_of_pos, find, List.find?_eq_none,
        decide_eq_true_eq]
      intro z hz he
      exact h₁ (List.mem_map.mpr ⟨z, hz, he.trans hy.symm⟩)
    case neg =>
      have := hi h₂
      simp only [find, eraseTag] at this ⊢
      simpa [hy] using this

theorem find_eraseTag_ne (h : tag' ≠ tag) : find (eraseTag l tag) tag' = find l tag' := by
  induction l
  case nil => simp [eraseTag]
  case cons y l hi =>
    simp only [find, eraseTag] at hi ⊢
    by_cases hy : y.dir.tag = tag
    case pos => simp [hy, h.symm]
    case neg => simp [hy, List.find?_cons, hi]

end Lists

section Operations

theorem items_congr (h : ∀ j ∈ l, s'.slotAt j = s.slotAt j) : s'.items l = s.items l :=
  List.map_congr_left fun j hj => by rw [h j hj]

theorem slotAt_setIdentity (id : Ident) (hi : i < s.length) (j : Nat) :
    (s.setIdentity i id).slotAt j = if j = i then { s.slotAt j with identity := id } else s.slotAt j :=
  slotAt_update hi

-- `Set` in terms of the entries of the buckets.
theorem entries_insert {dir : Dir} (id : Ident) (h : s.Chained bucket free) (hb : b < s.buckets)
    (h' : s'.Chained bucket' free') (hi : Inserts s s' bucket bucket' b tag dir i)
    (ht : dir.tag = tag) :
    (s'.setIdentity i id).entries b = upsert ⟨dir, id⟩ (s.entries b) ∧
    ∀ b' < s.buckets, b' ≠ b →
      (s'.setIdentity i id).entries b' = (if bucket' b' = [] then [] else s.entries b') := by
  obtain ⟨hm, hlt⟩ := mem_of_inserts hi h' hb
  have hc := h'.setIdentity id hlt
  have hbs : (s'.setIdentity i id).buckets = s.buckets := by
    simp [Segment.buckets, setIdentity, hi.length]
  have hb' : b < s'.buckets := by simpa [Segment.buckets, hi.length] using hb
  have hs (j) := slotAt_setIdentity id hlt j
  constructor
  case left =>
    rw [hc.buckets.entries_eq (hbs ▸ hb), h.buckets.entries_eq hb]
    have hi' : ((s'.setIdentity i id).slotAt i).item = ⟨dir, id⟩ := by
      rw [hs, if_pos rfl, ← hi.dir]
      rfl
    have ho : ∀ l : List Nat, l ⊆ bucket b → i ∉ l → (s'.setIdentity i id).items l = s.items l := by
      intro l hl hil
      refine List.map_congr_left fun j hj => ?_
      have hji : j ≠ i := by rintro rfl; exact hil hj
      rw [hs, if_neg hji, hi.own j (hl hj) hji]
    cases hi.chain
    case inl hch =>
      obtain ⟨he, l₁, l₂, hl, h₁, hti⟩ := hch
      have hd := hl ▸ (h.buckets.chains b hb).nodup
      have hd := List.nodup_append.mp hd
      rw [he, hl, items, List.map_append, List.map_cons, hi']
      have h₁' := ho l₁ (by simp [hl]) fun hc => hd.2.2 i hc i (by simp) rfl
      have h₂' := ho l₂ (fun j hj => by simp [hl, hj]) (List.nodup_cons.mp hd.2.1).1
      simp only [items] at h₁' h₂' ⊢
      rw [h₁', h₂', List.map_append, List.map_cons, upsert_of_mem]
      case h₁ =>
        intro y hy
        obtain ⟨j, hj, he⟩ := List.mem_map.mp hy
        rw [← he, ht]
        exact h₁ j hj
      case hy => exact hti.trans ht.symm
    case inr hch =>
      obtain ⟨he, hni, hne⟩ := hch
      rw [he, items, List.map_append, List.map_cons, hi', List.map_nil]
      have h₁' := ho (bucket b) (List.Subset.refl _) hni
      simp only [items] at h₁' ⊢
      rw [h₁', upsert_of_not_mem]
      intro y hy
      obtain ⟨j, hj, he⟩ := List.mem_map.mp hy
      rw [← he, ht]
      exact hne j hj
  case right =>
    intro b' hlt' hne
    have hb'' : b' < s'.buckets := by simpa [Segment.buckets, hi.length] using hlt'
    rw [hc.buckets.entries_eq (hbs ▸ hlt'), h.buckets.entries_eq hlt']
    cases hi.chains b' hne
    case inl he =>
      have hni : i ∉ bucket' b' := fun hm' => hne (h'.buckets.disjoint _ hb'' _ hb' i hm' hm)
      have := items_congr fun j hj => (hs j).trans <|
        (if_neg (by rintro rfl; exact hni hj)).trans (hi.slots b' hlt' hne j hj)
      rw [this, he]
      split
      case isTrue he => simp [he, items]
      case isFalse => rfl
    case inr he => simp [he, items]

-- `Delete` in terms of the entries of the buckets.
theorem entries_delete (h : s.Chained bucket free) (hb : b < s.buckets)
    (hr : find (s.entries b) tag = none ∨ s.Roomy ∨ s.Sole b) (he : s.dirDelete tag b = .ok (i, s')) :
    (∃ bucket' free', s'.Chained bucket' free') ∧ s'.length = s.length ∧
    s'.entries b = eraseTag (s.entries b) tag ∧
    ∀ b' < s.buckets, b' ≠ b → s'.entries b' = s.entries b' := by
  cases dirProbe_entries h.buckets hb tag
  case inl hp =>
    rw [dirDelete_miss hp.2] at he
    cases he
    refine ⟨⟨bucket, free, h⟩, rfl, ?_, fun _ _ _ => rfl⟩
    refine (List.eraseP_of_forall_not fun x hx => ?_).symm
    simpa [find] using List.find?_eq_none.mp hp.1 x hx
  case inr hp =>
    obtain ⟨l₁, k, l₂, hl, h₁, ht, hf, hp⟩ := hp
    have hr := hr.resolve_left (by simp [hf])
    obtain ⟨s₁, bucket', free', he₁, h', _, hd⟩ := dirDelete_spec h hb hl hp
    cases he.symm.trans he₁
    have hb' : s'.buckets = s.buckets := by simp [Segment.buckets, hd.length]
    have hsp : s.Spare free ∨ l₁ ++ l₂ = [] := by
      refine hr.imp h.roomy_iff.mp fun hs => ?_
      have := (h.buckets.sole_iff hb).mp hs
      rw [hl, List.length_append, List.length_cons] at this
      refine List.eq_nil_of_length_eq_zero ?_
      rw [List.length_append]
      omega
    obtain ⟨hi, ho⟩ := hd.items hsp
    refine ⟨⟨bucket', free', h'⟩, hd.length, ?_, fun b' hlt hne => ?_⟩
    case refine_1 =>
      rw [h'.buckets.entries_eq (hb' ▸ hb), h.buckets.entries_eq hb, hi, hl]
      simp only [items, List.map_append, List.map_cons]
      have hti : (s.slotAt i).item.dir.tag = tag := ht
      refine (eraseTag_of_mem ?_ hti).symm
      intro y hy
      obtain ⟨j, hj, he⟩ := List.mem_map.mp hy
      exact he ▸ h₁ j hj
    case refine_2 =>
      rw [h'.buckets.entries_eq (hb' ▸ hlt), h.buckets.entries_eq hlt, hd.chains b' hne]
      exact items_congr (ho b' hlt hne)

def Distinct (s : Segment) : Prop := ∀ b < s.buckets, ((s.entries b).map (·.dir.tag)).Nodup

-- No entry of the phase has to leave a bucket with more entries while the free chain is empty and slot 0
-- is in use. The first bucket is swept before the others, and leaves slot 0 empty if its only entry has
-- the phase.
def Sweepable (s : Segment) (phase : Bool) : Prop :=
  s.Roomy ∨ (s.Sole 0 ∧ ∃ x ∈ s.entries 0, x.dir.phase = phase) ∨
    ∀ b < s.buckets, (∃ x ∈ s.entries b, x.dir.phase = phase) → s.Sole b

section RemovePhase

variable {phase : Bool}

theorem Distinct.tags (hd : s.Distinct) (h : s.HasBuckets bucket) :
    ∀ b < s.buckets, (s.tags (bucket b)).Nodup := by
  intro b hlt
  have := hd b hlt
  rwa [h.entries_eq hlt] at this

theorem HasBuckets.quiet_of_sole (h : s.HasBuckets bucket) (hb : b < s.buckets)
    (hs : (∃ x ∈ s.entries b, x.dir.phase = phase) → s.Sole b) : s.Quiet free phase (bucket b) := by
  refine .inr fun j hj hp => ?_
  have hsole := hs ⟨(s.slotAt j).item, ?_, hp⟩
  case refine_1 =>
    rw [h.entries_eq hb]
    exact List.mem_map_of_mem hj
  have := (h.sole_iff hb).mp hsole
  obtain ⟨k, hk⟩ := List.length_eq_one_iff.mp (this.antisymm (List.length_pos_of_mem hj))
  rw [hk, List.mem_singleton] at hj
  rw [hk, hj]

-- The sweep of the first bucket makes room for the others.
theorem entries_removePhase_of_first (h : s.Chained bucket free) (hd : s.Distinct) (hs : s.Sole 0)
    (hp : ∃ x ∈ s.entries 0, x.dir.phase = phase) (he : s.removePhase phase = .ok s') {b : Nat}
    (hb : b < s.buckets) : s'.entries b = (s.entries b).filter (·.dir.phase ≠ phase) := by
  obtain ⟨n, hn⟩ : ∃ n, s.buckets = n + 1 := ⟨s.buckets - 1, by omega⟩
  have h₀ : 0 < s.buckets := by omega
  have ht := hd.tags h.buckets
  have hq : s.Quiet free phase (bucket 0) := h.buckets.quiet_of_sole h₀ fun _ => hs
  rw [removePhase, hn, List.range_succ_eq_map, List.foldlM_cons, Except.bind_eq_ok] at he
  obtain ⟨s₁, he₁, he⟩ := he
  obtain ⟨s₂, bucket₁, free₁, he₂, h₁, hs₁⟩ := remove_spec phase h h₀
  cases he₁.symm.trans he₂
  have hl₁ : s₁.buckets = s.buckets := by simp [Segment.buckets, hs₁.length]
  have hf := (hs₁.items (ht 0 h₀) hq).1
  -- The only entry of the first bucket is in slot 0.
  have hnil : bucket₁ 0 = [] := by
    obtain ⟨x, hx, hxp⟩ := hp
    rw [h.buckets.entries_eq h₀] at hx
    have hlen := (h.buckets.sole_iff h₀).mp hs
    have hpos : 0 < (bucket 0).length := by simpa [items] using List.length_pos_of_mem hx
    obtain ⟨k, hk⟩ := List.length_eq_one_iff.mp (hlen.antisymm hpos)
    rw [hk, items, List.map_singleton, List.mem_singleton] at hx
    rw [hk, items, items, List.map_singleton, ← hx, List.filter_singleton] at hf
    simpa [hxp] using hf
  have hspare : s₁.Spare free₁ :=
    .inr ((h₁.buckets.chains 0 (by omega)).eq_nil_iff.mp hnil)
  have ht₁ : ∀ b < s₁.buckets, (s₁.tags (bucket₁ b)).Nodup := by
    intro c hc
    by_cases hc₀ : c = 0
    case pos => simp [hc₀, hnil, tags, items]
    case neg =>
      rw [tags, hs₁.items_of_ne (ht 0 h₀) hq (hl₁ ▸ hc) hc₀]
      exact ht c (hl₁ ▸ hc)
  obtain ⟨s₂, bucket', free', he₂, h', hl', _, hi⟩ := remove_fold phase (l := (List.range n).map Nat.succ) h₁
    (by simp [hl₁, hn]) (List.nodup_range.map Nat.succ_injective)
  cases he.symm.trans he₂
  have hl₂ : s'.buckets = s.buckets := by simp [Segment.buckets, hl', hs₁.length]
  rw [h'.buckets.entries_eq (hl₂ ▸ hb), h.buckets.entries_eq hb,
    hi ht₁ (fun _ _ => .inl hspare) b (hl₁ ▸ hb)]
  by_cases hb₀ : b = 0
  case pos =>
    subst hb₀
    rw [if_neg (by simp), hf]
  case neg =>
    rw [if_pos (List.mem_map.mpr ⟨b - 1, List.mem_range.mpr (by omega), by omega⟩),
      hs₁.items_of_ne (ht 0 h₀) hq hb hb₀]

theorem entries_removePhase (h : s.Chained bucket free) (hd : s.Distinct) (hq : s.Sweepable phase)
    (he : s.removePhase phase = .ok s') :
    (∃ bucket' free', s'.Chained bucket' free') ∧ s'.length = s.length ∧
    ∀ b < s.buckets, s'.entries b = (s.entries b).filter (·.dir.phase ≠ phase) := by
  obtain ⟨s₁, bucket', free', he₁, h', hl, hi⟩ := removePhase_spec h phase
  cases he.symm.trans he₁
  have hb : s'.buckets = s.buckets := by simp [Segment.buckets, hl]
  refine ⟨⟨bucket', free', h'⟩, hl, fun b hlt => ?_⟩
  have quiet (hq : ∀ b < s.buckets, s.Quiet free phase (bucket b)) :
      s'.entries b = (s.entries b).filter (·.dir.phase ≠ phase) := by
    rw [h'.buckets.entries_eq (hb ▸ hlt), h.buckets.entries_eq hlt]
    exact hi (hd.tags h.buckets) hq b hlt
  obtain hr | ⟨hs, hp⟩ | hs := hq
  case inl => exact quiet fun _ _ => .inl (h.roomy_iff.mp hr)
  case inr.inl => exact entries_removePhase_of_first h hd hs hp he hlt
  case inr.inr => exact quiet fun b hlt => h.buckets.quiet_of_sole hlt (hs b hlt)

end RemovePhase

end Operations

end Segment
end Bakemono
