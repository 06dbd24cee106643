import Bakemono.Directory.Purge

open Chain

namespace Bakemono

-- What a slot says about its object, apart from its link.
def Slot.item (x : Slot) : Slot := { x with dir := x.dir.setNext 0 }

namespace Segment

variable {s s' : Segment} {bucket bucket' : Nat → List Nat} {free l : List Nat}
variable {b i j p n : Nat} {tag : BitVec 16}

section Probe

theorem probe_succ (hi : i < s.length) (ho : (s.dirAt i).offset ≠ 0) :
    s.probe tag (n + 1) i p =
      if (s.dirAt i).tag = tag then ⟨true, i, p, s.dirAt i⟩
      else if s.next i = 0 then { index := 0, prev := i } else s.probe tag n (s.next i) i := by
  rw [probe, if_neg (by omega), if_neg ho]

theorem probe_spec (hp : Path s.next (s.next i) l 0)
    (hl : ∀ j ∈ i :: l, j < s.length ∧ (s.dirAt j).offset ≠ 0) (hn : l.length < n) :
    ((∀ j ∈ i :: l, (s.dirAt j).tag ≠ tag) ∧ (s.probe tag n i p).hit = false) ∨
    ∃ l₁ j l₂, i :: l = l₁ ++ j :: l₂ ∧ (∀ k ∈ l₁, (s.dirAt k).tag ≠ tag) ∧
      (s.dirAt j).tag = tag ∧ s.probe tag n i p = ⟨true, j, l₁.getLastD p, s.dirAt j⟩ := by
  obtain ⟨n, rfl⟩ := Nat.exists_eq_add_of_lt hn
  have ⟨hi, ho⟩ := hl i (by simp)
  induction l generalizing i n p <;> rw [probe_succ hi ho]
  case nil =>
    have hz : s.next i = 0 := hp
    by_cases ht : (s.dirAt i).tag = tag
    case pos => exact .inr ⟨[], i, [], by simp [ht]⟩
    case neg => exact .inl (by simp [ht, hz])
  case cons k l hi' =>
    have ⟨hk, hk₀, hp'⟩ := hp
    by_cases ht : (s.dirAt i).tag = tag
    case pos => exact .inr ⟨[], i, k :: l, by simp [ht]⟩
    case neg =>
      have hl' : ∀ j ∈ k :: l, j < s.length ∧ (s.dirAt j).offset ≠ 0 :=
        fun j hj => hl j (List.mem_cons_of_mem i hj)
      have ⟨hk', ho'⟩ := hl' k (by simp)
      have hn' : (k :: l).length + n = l.length + n + 1 := by simp; omega
      simp only [ht, hk, hk₀, if_false, hn']
      cases hi' (p := i) hp' hl' n (by omega) hk' ho'
      case inl h =>
        refine .inl ⟨fun j hj => ?_, h.2⟩
        cases List.mem_cons.mp hj
        case inl hj => exact hj ▸ ht
        case inr hj => exact h.1 j hj
      case inr h =>
        have ⟨l₁, j, l₂, h₁, h₂, h₃, h₄⟩ := h
        refine .inr ⟨i :: l₁, j, l₂, by simp [h₁], fun k hk => ?_, h₃, ?_⟩
        case refine_1 =>
          cases List.mem_cons.mp hk
          case inl hk => exact hk ▸ ht
          case inr hk => exact h₂ k hk
        case refine_2 => rw [h₄, List.getLastD_cons]

theorem IsBucket.length_le (h : s.IsBucket b l) : l.length ≤ s.length := by
  have hs : l ⊆ List.range s.length := fun i hi => List.mem_range.mpr (h.occupied i hi).1
  simpa using (h.nodup.subperm hs).length_le

-- The first entry of the chain with the given tag, if there is one.
theorem dirProbe_spec (h : s.IsBucket b l) (hb : b * DirDepth < s.length) (tag : BitVec 16) :
    ((∀ j ∈ l, (s.dirAt j).tag ≠ tag) ∧ (s.dirProbe tag b).hit = false) ∨
    ∃ l₁ j l₂, l = l₁ ++ j :: l₂ ∧ (∀ k ∈ l₁, (s.dirAt k).tag ≠ tag) ∧
      (s.dirAt j).tag = tag ∧ s.dirProbe tag b = ⟨true, j, l₁.getLastD 0, s.dirAt j⟩ := by
  cases h.chain
  case inl he =>
    refine .inl ⟨by simp [he.1], ?_⟩
    obtain ⟨n, hn⟩ := Nat.exists_eq_add_of_lt hb
    have hb' : ¬b * DirDepth ≥ s.length := by omega
    unfold dirProbe
    rw [show s.length = b * DirDepth + n + 1 from hn, probe, if_neg (hn ▸ hb'), if_pos he.2.1]
  case inr he =>
    have ⟨l', he, hp⟩ := he
    have := h.length_le
    subst he
    exact probe_spec hp h.occupied (by simpa using this)

end Probe

theorem lastDirOfBucket_spec (hp : Path s.next (s.next i) l 0) (hl : ∀ j ∈ i :: l, j < s.length)
    (hn : l.length < n) : s.lastDirOfBucket n i = .ok ((i :: l).getLastD 0) := by
  induction l generalizing i n
  all_goals
    obtain ⟨n, rfl⟩ := Nat.exists_eq_add_of_lt hn
    have hi := hl i (by simp)
  case nil =>
    have hz : (s.dirAt i).next.toNat = 0 := hp
    simp [lastDirOfBucket, get_eq hi, hz, bind, Except.bind, pure, Except.pure]
  case cons k l hi' =>
    have ⟨hk, hk₀, hp'⟩ := hp
    have hz : (s.dirAt i).next.toNat = k := hk
    simp only [lastDirOfBucket, get_eq hi, hz, hk₀, bind, Except.bind, ne_eq, not_false_eq_true,
      if_true]
    rw [hi' hp' (fun j hj => hl j (by simp at hj ⊢; tauto)) (by simp; omega)]
    simp

-- The effect of `dirInsert`: the entry replaces the first one of its tag, or becomes the last one of
-- the bucket. Other buckets are kept or purged as a whole.
structure Inserts (s s' : Segment) (bucket bucket' : Nat → List Nat) (b : Nat) (tag : BitVec 16)
    (dir : Dir) (i : Nat) : Prop where
  length : s'.length = s.length
  dir    : (s'.slotAt i).item.dir = dir
  chain  :
    (bucket' b = bucket b ∧ ∃ l₁ l₂, bucket b = l₁ ++ i :: l₂ ∧
      (∀ k ∈ l₁, (s.dirAt k).tag ≠ tag) ∧ (s.dirAt i).tag = tag) ∨
    (bucket' b = bucket b ++ [i] ∧ i ∉ bucket b ∧ ∀ j ∈ bucket b, (s.dirAt j).tag ≠ tag)
  own    : ∀ j ∈ bucket b, j ≠ i → (s'.slotAt j).item = (s.slotAt j).item
  chains : ∀ b' ≠ b, bucket' b' = bucket b' ∨ bucket' b' = []
  slots  : ∀ b' < s.buckets, b' ≠ b → ∀ j ∈ bucket' b', s'.slotAt j = s.slotAt j

section Insert

variable {dir : Dir}

-- Overwriting an entry in use, with its link kept.
theorem insert_hit (h : s.Chained bucket free) (hb : b < s.buckets)
    (hc : bucket b = l₁ ++ i :: l₂) (hl₁ : ∀ k ∈ l₁, (s.dirAt k).tag ≠ tag)
    (ht : (s.dirAt i).tag = tag) (ho : dir.offset ≠ 0) (hn : dir.next = 0) :
    let s' := s.update i fun x => { x with dir := dir.setNext (s.dirAt i).next }
    s'.Chained bucket free ∧ Inserts s s' bucket bucket b tag dir i := by
  intro s'
  have hm : i ∈ bucket b := by simp [hc]
  have hc' := h.buckets.chains b hb
  have ⟨hi, hi₀⟩ := hc'.occupied i hm
  have hd (j) : s'.dirAt j = if j = i then dir.setNext (s.dirAt i).next else s.dirAt j :=
    dirAt_update hi
  have hn' (j) : s'.next j = s.next j := by
    simp only [next, hd]
    split
    case isTrue hj => simp [hj]
    case isFalse => rfl
  have hu (j) : (s'.dirAt j).offset = 0 ↔ (s.dirAt j).offset = 0 := by
    rw [hd]
    split
    case isTrue hj => simp [hj, ho, hi₀]
    case isFalse => rfl
  have hne {j} (hj : j ∉ bucket b) : j ≠ i := by rintro rfl; exact hj hm
  refine ⟨⟨?_, ?_, ?_⟩, length_update, ?_, .inl ⟨rfl, l₁, l₂, hc, hl₁, ht⟩, ?_, fun _ _ => .inl rfl, ?_⟩
  case refine_1 =>
    refine Function.update_eq_self b bucket ▸ h.buckets.replace hb length_update ⟨?_, ?_, hc'.tail⟩ ?_ ?_ ?_ ?_
    case refine_1 => simpa only [hn', funext hn', hu] using hc'.chain
    case refine_2 => simpa only [length_update, s', ne_eq, hu] using hc'.occupied
    case refine_3 => exact fun j hj => .inl hj
    case refine_4 => exact fun j hj hj' => absurd hj hj'
    case refine_5 => exact fun j hj _ => by rw [hd, if_neg (hne hj)]
    case refine_6 => exact fun j _ _ _ _ => hn' j
  case refine_2 =>
    refine h.chain.agree length_update rfl fun j hj => ?_
    rw [hd, if_neg]
    rintro rfl
    exact h.chain.not_mem (.inl hi₀) hj
  case refine_3 =>
    exact fun j hj hd ho => h.all j (length_update ▸ hj) hd ((hu j).mp ho)
  case refine_4 =>
    change (s'.dirAt i).setNext 0 = dir
    rw [hd, if_pos rfl, Dir.setNext_setNext, ← hn, Dir.setNext_next]
  case refine_5 => exact fun j _ hj => congrArg Slot.item (slotAt_update_ne hj)
  case refine_6 =>
    intro b' hb' hne' j hj
    exact slotAt_update_ne <| hne fun hm => hne' (h.buckets.disjoint _ hb' _ hb j hj hm)

-- An entry for an empty bucket goes to its head.
theorem insert_head (tag : BitVec 16) (h : s.Chained bucket free) (hb : b < s.buckets) (he : bucket b = [])
    (ho : dir.offset ≠ 0) (hn : dir.next = 0) :
    let s' := s.update (b * DirDepth) fun x => { x with dir }
    s'.Chained (Function.update bucket b [b * DirDepth]) free ∧
    Inserts s s' bucket (Function.update bucket b [b * DirDepth]) b tag dir (b * DirDepth) := by
  intro s'
  have hi := head_lt h.buckets.dvd hb
  have h₀ := ((h.buckets.chains b hb).eq_nil_iff).mp he
  have hd (j) : s'.dirAt j = if j = b * DirDepth then dir else s.dirAt j := dirAt_update hi
  refine ⟨⟨?_, ?_, ?_⟩, length_update, ?_, .inr (by simp [he]), by simp [he], ?_, ?_⟩
  case refine_1 =>
    refine h.buckets.replace hb length_update ⟨.inr ⟨[], rfl, ?_⟩, ?_, by simp⟩ ?_ ?_ ?_ ?_
    case refine_1 => simp [next, hd, hn]
    case refine_2 => simpa [hd, s', ho] using hi
    case refine_3 => simpa using .inr h₀
    case refine_4 => simp [he]
    case refine_5 => exact fun j _ hj => by rw [hd, if_neg (by simpa using hj)]
    case refine_6 => exact fun j _ _ hj _ => by simp only [next, hd, if_neg hj]
  case refine_2 =>
    refine h.chain.agree length_update rfl fun j hj => ?_
    rw [hd, if_neg]
    rintro rfl
    exact h.chain.not_mem (.inr (by simp)) hj
  case refine_3 =>
    intro j hj hh ho
    rw [hd, if_neg (by rintro rfl; simp at hh)] at ho
    exact h.all j (length_update ▸ hj) hh ho
  case refine_4 =>
    change (s'.dirAt _).setNext 0 = dir
    rw [hd, if_pos rfl, ← hn, Dir.setNext_next]
  case refine_5 => exact fun b' hb' => .inl (Function.update_of_ne hb' _ _)
  case refine_6 =>
    intro b' hb' hne j hj
    rw [Function.update_of_ne hne] at hj
    refine slotAt_update_ne ?_
    rintro rfl
    exact ((h.buckets.chains b' hb').occupied _ hj).2 h₀

-- Other entries go to a slot of the free chain, which is linked behind the last entry.
theorem insert_chain (hp : Pops s s₁ bucket bucket₁ free i) (hb : b < s.buckets)
    (hc : bucket₁ b = bucket b) (hne : bucket b ≠ []) (ho : dir.offset ≠ 0) (hn : dir.next = 0)
    (ht : ∀ j ∈ bucket b, (s.dirAt j).tag ≠ tag) :
    let s' := (s₁.update i fun x => { x with dir }).setNext ((bucket b).getLastD 0) (.ofNat 16 i)
    s'.Chained (Function.update bucket₁ b (bucket b ++ [i])) free ∧
    Inserts s s' bucket (Function.update bucket₁ b (bucket b ++ [i])) b tag dir i := by
  intro s'
  have hb₁ : b < s₁.buckets := hp.evicts.buckets.symm ▸ hb
  have hk := hc ▸ hp.buckets.chains b hb₁
  have ⟨hi, hh, hi₀⟩ := hp.slot
  have hz : i ≠ 0 := by rintro rfl; simp at hh
  have hm : (bucket b).getLastD 0 ∈ bucket b := by
    rw [List.getLastD_eq_getLast?, List.getLast?_eq_getLast_of_ne_nil hne]
    exact List.getLast_mem hne
  have ⟨hl, hl₀⟩ := hk.occupied _ hm
  have hib {j} (hj : j ∈ bucket b) : j ≠ i := by
    rintro rfl
    exact (hk.occupied j hj).2 hi₀
  have hlen : s'.length = s₁.length := length_setNext.trans length_update
  have hd (j) : s'.dirAt j = if j = i then dir else
      if j = (bucket b).getLastD 0 then (s₁.dirAt j).setNext (.ofNat 16 i) else s₁.dirAt j := by
    simp only [s']
    rw [dirAt_setNext (by rwa [length_update]), dirAt_update hi]
    by_cases hj : j = i
    case pos => simp only [hj, (hib hm).symm, if_true, if_false]
    case neg => simp only [hj, if_false]
  have hs {j} (hj : j ∉ bucket b) (hj' : j ≠ i) : s'.slotAt j = s₁.slotAt j := by
    refine (slotAt_update_ne ?_).trans (slotAt_update_ne hj')
    rintro rfl
    exact hj hm
  have ho' {j} (hj : j ≠ i) : (s'.dirAt j).offset = (s₁.dirAt j).offset := by
    rw [hd, if_neg hj]
    split <;> rfl
  have hv : (BitVec.ofNat 16 i).toNat = i := by
    have := hp.buckets.bound
    simp
    omega
  refine ⟨⟨?_, ?_, ?_⟩, hlen.trans hp.evicts.length, ?_, .inr ⟨by simp, ?_, ht⟩, ?_, ?_, ?_⟩
  case refine_1 =>
    refine hp.buckets.replace hb₁ hlen ⟨.inr ?_, ?_, ?_⟩ ?_ ?_ ?_ ?_
    case refine_1 =>
      have ⟨l, he, hpath⟩ := hk.chain.resolve_left fun h => hne h.1
      refine ⟨l ++ [i], by simp [he], hpath.snoc (he ▸ hk.nodup) hz ?_ ?_⟩
      case refine_1 => simp only [next, hd, if_true, hn]; rfl
      case refine_2 =>
        rw [← he]
        intro y hy
        simp only [next, hd, if_neg (hib hy)]
        split
        case isTrue => rw [Dir.next_setNext, hv]
        case isFalse => rfl
    case refine_2 =>
      intro j hj
      rw [hlen]
      cases List.mem_append.mp hj
      case inl hj => exact ho' (hib hj) ▸ hk.occupied j hj
      case inr hj =>
        rw [List.mem_singleton.mp hj, hd, if_pos rfl]
        exact ⟨hi, ho⟩
    case refine_3 =>
      intro j hj hj'
      cases List.mem_append.mp hj
      case inl hj => exact hk.tail j hj hj'
      case inr hj => exact absurd (List.mem_singleton.mp hj ▸ hj') hh
    case refine_4 =>
      intro j hj
      rw [hc]
      cases List.mem_append.mp hj
      case inl hj => exact .inl hj
      case inr hj => exact .inr (List.mem_singleton.mp hj ▸ hi₀)
    case refine_5 => exact fun j hj hj' => absurd (List.mem_append_left [i] (hc ▸ hj)) hj'
    case refine_6 =>
      intro j _ hj
      simp only [List.mem_append, List.mem_singleton, not_or] at hj
      exact ho' hj.2
    case refine_7 =>
      intro j _ hj _ _
      simp only [List.mem_append, List.mem_singleton, not_or] at hj
      simp only [next, dirAt, hs hj.1 hj.2]
  case refine_2 =>
    refine hp.chain.agree hlen rfl fun j hj => ?_
    have hj' : j ∉ bucket b := fun hc => hp.chain.not_mem (.inl (hk.occupied j hc).2) hj
    exact congrArg Slot.dir (hs hj' (by rintro rfl; exact hp.fresh hj))
  case refine_3 =>
    intro j hj hd' hj₀
    have hji : j ≠ i := by
      rintro rfl
      rw [hd, if_pos rfl] at hj₀
      exact ho hj₀
    have := hp.all j (hlen ▸ hj) hd' (ho' hji ▸ hj₀)
    exact (List.mem_cons.mp this).resolve_left hji
  case refine_4 =>
    change (s'.dirAt i).setNext 0 = dir
    rw [hd, if_pos rfl, ← hn, Dir.setNext_next]
  case refine_5 => exact fun hi => hib hi rfl
  case refine_6 =>
    intro j hj hji
    rw [← hp.evicts.slots b hb j (hc.symm ▸ hj)]
    have hne : ∀ x : Slot, x.item = ⟨x.dir.setNext 0, x.identity⟩ := fun _ => rfl
    have hid : (s'.slotAt j).identity = (s₁.slotAt j).identity := by
      simp only [s', setNext]
      rw [slotAt_update (by rwa [length_update]), slotAt_update hi, if_neg hji]
      split <;> rfl
    have hdir : (s'.dirAt j).setNext 0 = (s₁.dirAt j).setNext 0 := by
      rw [hd, if_neg hji]
      split <;> rfl
    rw [hne, hne, hid]
    exact congrArg (Slot.mk · _) hdir
  case refine_7 =>
    intro b' hb'
    rw [Function.update_of_ne hb']
    exact hp.evicts.chains b'
  case refine_8 =>
    intro b' hb' hne' j hj
    rw [Function.update_of_ne hne'] at hj
    have hb₁' : b' < s₁.buckets := hp.evicts.buckets.symm ▸ hb'
    have h₁ : j ∉ bucket b := fun hm => hne' (hp.buckets.disjoint _ hb₁' _ hb₁ j hj (hc.symm ▸ hm))
    have h₂ : j ≠ i := by
      rintro rfl
      exact ((hp.buckets.chains b' hb₁').occupied j hj).2 hi₀
    exact (hs h₁ h₂).trans (hp.evicts.slots b' hb' j hj)

end Insert

theorem getFreeDir_empty (h : s.HasBuckets bucket) (hb : b < s.buckets) (he : bucket b = [])
    (rand : Nat → Fin 10) : s.getFreeDir b rand = .ok (b * DirDepth, s) := by
  have h₀ := ((h.chains b hb).eq_nil_iff).mp he
  simp [getFreeDir, get_eq (head_lt h.dvd hb), h₀, bind, Except.bind, pure, Except.pure]

theorem getFreeDir_spec (h : s.Chained bucket free) (hb : b < s.buckets) (hne : bucket b ≠ [])
    (rand : Nat → Fin 10) :
    s.getFreeDir b rand = .error .freeChainPop ∨
    ∃ i s' bucket' free', s.getFreeDir b rand = .ok (i, s') ∧
      Pops s s' bucket bucket' free' i ∧ bucket' b = bucket b ∧ (free ≠ [] → bucket' = bucket) := by
  have h₀ := mt ((h.buckets.chains b hb).eq_nil_iff).mpr hne
  simp only [getFreeDir, get_eq (head_lt h.buckets.dvd hb), h₀, bind, Except.bind, if_false]
  split
  case h_1 i hf =>
    -- An unused slot of the bucket itself is in the free chain.
    have hi := List.mem_range'_1.mp (List.mem_of_find?_eq_some hf)
    have ho := List.find?_some hf
    have hm : b * DirDepth + i ∈ free := by
      refine h.all _ ?_ ?_ (by simpa using ho)
      all_goals
        have := h.buckets.dvd
        simp only [Segment.buckets, DirDepth] at *
        omega
    obtain ⟨s', he, hp⟩ := freeChainDelete_pops h hm
    exact .inr ⟨_, s', bucket, _, by rw [he]; rfl, hp, rfl, fun _ => rfl⟩
  case h_2 => exact freeChainPop_spec h b rand

theorem dirInsert_spec (h : s.Chained bucket free) (hb : b < s.buckets) (ho : dir.offset ≠ 0)
    (hn : dir.next = 0) (tag : BitVec 16) (rand : Nat → Fin 10) :
    s.dirInsert tag b dir rand = .error .freeChainPop ∨
    ∃ i s' bucket' free', s.dirInsert tag b dir rand = .ok (i, s') ∧ s'.Chained bucket' free' ∧
      Inserts s s' bucket bucket' b tag dir i ∧
      ((∃ j ∈ bucket b, (s.dirAt j).tag = tag) ∨ bucket b = [] ∨ free ≠ [] →
        ∀ b' ≠ b, bucket' b' = bucket b') := by
  have hk := h.buckets.chains b hb
  have hh := head_lt h.buckets.dvd hb
  cases dirProbe_spec hk hh tag
  case inr hp =>
    have ⟨l₁, i, l₂, hc, hl₁, ht, hp⟩ := hp
    have ⟨hi, _⟩ := hk.occupied i (by simp [hc])
    have ⟨h', hins⟩ := insert_hit h hb hc hl₁ ht ho hn
    refine .inr ⟨i, _, bucket, free, ?_, h', hins, fun _ _ _ => rfl⟩
    simp [dirInsert, hp, get_eq hi, modify_eq hi, bind, Except.bind, pure, Except.pure]
  case inl hp =>
    by_cases he : bucket b = []
    case pos =>
      have ⟨h', hins⟩ := insert_head tag h hb he ho hn
      refine .inr ⟨_, _, _, free, ?_, h', hins, fun _ b' hb' => Function.update_of_ne hb' _ _⟩
      simp [dirInsert, hp.2, getFreeDir_empty h.buckets hb he, modify_eq hh, bind, Except.bind, pure,
        Except.pure]
    case neg =>
      simp only [dirInsert, hp.2, bind, Except.bind, Bool.false_eq_true, if_false]
      cases getFreeDir_spec h hb he rand
      case inl hf => exact .inl (by rw [hf])
      case inr hf =>
        have ⟨i, s₁, bucket₁, free₁, hf, hpop, hb₁, hv⟩ := hf
        have ⟨h', hins⟩ := insert_chain hpop hb hb₁ he ho hn hp.1
        have ⟨hi, hi', _⟩ := hpop.slot
        have hih : i ≠ b * DirDepth := by rintro rfl; simp at hi'
        let s₂ := s₁.update i fun x => { x with dir }
        have hk₁ := hb₁ ▸ hpop.buckets.chains b (hpop.evicts.buckets.symm ▸ hb)
        have ⟨l, hl, hpath⟩ := hk₁.chain.resolve_left fun h => he h.1
        have hs {j} (hj : j ∈ bucket b) : s₂.next j = s₁.next j := by
          have : j ≠ i := by rintro rfl; exact (hk₁.occupied j hj).2 hpop.slot.2.2
          simp only [next, s₂, dirAt_update_ne this]
        have hlast : s₂.lastDirOfBucket (s₂.length + 1) (b * DirDepth) =
            .ok ((bucket b).getLastD 0) := by
          rw [hl]
          refine lastDirOfBucket_spec ?_ ?_ ?_
          case refine_1 =>
            rw [hs (by simp [hl])]
            exact hpath.congr fun j hj => hs (by simp [hl, hj])
          case refine_2 => exact fun j hj => by simpa [s₂] using (hk₁.occupied j (hl ▸ hj)).1
          case refine_3 =>
            have := hk₁.length_le
            simp [hl, s₂] at this ⊢
            omega
        have hm : (bucket b).getLastD 0 < s₂.length := by
          have : (bucket b).getLastD 0 ∈ bucket b := by
            rw [List.getLastD_eq_getLast?, List.getLast?_eq_getLast_of_ne_nil he]
            exact List.getLast_mem he
          simpa [s₂] using (hk₁.occupied _ this).1
        refine .inr ⟨i, _, _, free₁, ?_, h', hins, fun hor b' hb' => ?_⟩
        case refine_1 =>
          have h₂ : s₁.modify i (fun _ => dir) = .ok s₂ := modify_eq hi
          simp only [hf, h₂, hih, hlast, modify_setNext hm, if_false, pure, Except.pure]
          rfl
        case refine_2 =>
          rw [Function.update_of_ne hb', hv]
          refine (hor.resolve_left ?_).resolve_left he
          rintro ⟨j, hj, ht⟩
          exact hp.1 j hj ht

end Segment
end Bakemono
