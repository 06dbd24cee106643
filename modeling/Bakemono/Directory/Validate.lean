import Bakemono.Lib.Except
import Bakemono.Directory.Insert

open Chain

namespace Bakemono.Segment

variable {s : Segment} {b i n : Nat} {l seen seen' : List Nat}

theorem getD_dirs (s : Segment) (i : Nat) : s.dirs.getD i {} = s.dirAt i := by
  simp only [dirs, dirAt, slotAt, List.getD_eq_getElem?_getD, List.getElem?_map]
  cases s.slots[i]? <;> rfl

theorem length_dirs (s : Segment) : s.dirs.length = s.length := by
  simp [dirs, length]

theorem next_eq_zero : (s.dirAt i).next = 0 ↔ s.next i = 0 := by
  simp [next, ← BitVec.toNat_inj]

-- The entries that a walk of `validateChain` can mark.
def Fits (s : Segment) (b : Nat) (seen : List Nat) (j : Nat) : Prop :=
  j < s.length ∧ j ∉ seen ∧ (j % DirDepth = 0 → j = b) ∧ (s.dirAt j).offset ≠ 0

theorem fits_iff : s.Fits b seen i ↔
    ¬(i ≥ s.length ∨ i ∈ seen ∨ (i ≠ b ∧ i % DirDepth = 0) ∨ (s.dirAt i).offset = 0) := by
  simp only [Fits, not_or, not_and, not_le, ge_iff_le, ne_eq, not_imp_not]

theorem validateChain_succ : validateChain s.dirs b (n + 1) i seen = .ok seen' ↔
    s.Fits b seen i ∧ (s.next i = 0 ∧ seen' = i :: seen ∨
      s.next i ≠ 0 ∧ validateChain s.dirs b n (s.next i) (i :: seen) = .ok seen') := by
  simp only [validateChain, getD_dirs, length_dirs]
  by_cases hc : s.Fits b seen i
  case pos =>
    rw [if_neg (fits_iff.mp hc)]
    by_cases hn : s.next i = 0
    case pos =>
      simp only [hc, hn, next_eq_zero, if_true, pure, Except.pure, true_and, Except.ok.injEq, ne_eq,
        not_true_eq_false, false_and, or_false]
      exact eq_comm
    case neg =>
      simp only [hc, hn, next_eq_zero, if_false, true_and, false_and, false_or, ne_eq,
        not_false_eq_true]
      rfl
  case neg =>
    rw [if_pos (not_not.mp (mt fits_iff.mpr hc))]
    simp [hc, throw, throwThe, MonadExceptOf.throw, bind, Except.bind]

theorem validateChain_iff : validateChain s.dirs b n i seen = .ok seen' ↔
    ∃ l, Path s.next (s.next i) l 0 ∧ (∀ j ∈ i :: l, s.Fits b seen j) ∧ i ∉ l ∧ l.length < n ∧
      seen' = (i :: l).reverse ++ seen := by
  induction n generalizing i seen
  case zero =>
    simp only [validateChain, throw, throwThe, MonadExceptOf.throw, reduceCtorEq, false_iff]
    rintro ⟨_, _, _, _, h, _⟩
    omega
  case succ n hi =>
    rw [validateChain_succ]
    constructor
    case mp =>
      rintro ⟨hf, h⟩
      cases h
      case inl h => exact ⟨[], h.1, fun j hj => List.mem_singleton.mp hj ▸ hf, by simp, by simp, h.2⟩
      case inr h =>
        have ⟨l, hp, hl, hm, hn, he⟩ := hi.mp h.2
        refine ⟨s.next i :: l, ⟨rfl, h.1, hp⟩, fun j hj => ?_, ?_, by simpa using hn, by simp [he]⟩
        case refine_1 =>
          cases List.mem_cons.mp hj
          case inl hj => exact hj ▸ hf
          case inr hj =>
            have ⟨h₁, h₂, h₃⟩ := hl j hj
            exact ⟨h₁, fun hc => h₂ (List.mem_cons_of_mem i hc), h₃⟩
        case refine_2 => exact fun hc => (hl i hc).2.1 (by simp)
    case mpr =>
      rintro ⟨l, hp, hl, hm, hn, he⟩
      refine ⟨hl i (by simp), ?_⟩
      cases l
      case nil => exact .inl ⟨hp, by simpa using he⟩
      case cons k l =>
        have ⟨hk, hk₀, hp'⟩ := hp
        refine .inr ⟨hk ▸ hk₀, hi.mpr ⟨l, hk ▸ hp', fun j hj => ?_, ?_, by simpa using hn, ?_⟩⟩
        case refine_1 =>
          rw [hk] at hj
          have ⟨h₁, h₂, h₃⟩ := hl j (List.mem_cons_of_mem i hj)
          refine ⟨h₁, ?_, h₃⟩
          simp only [List.mem_cons, not_or]
          exact ⟨by rintro rfl; exact hm hj, h₂⟩
        case refine_2 => exact hk ▸ hp'.not_mem
        case refine_3 => simp [he, hk]

theorem validateBucket_iff :
    validateBucket s.dirs seen (b * DirDepth) = .ok seen' ↔
    ∃ l, s.IsBucket b l ∧ (∀ j ∈ l, j ∉ seen) ∧ seen' = l.reverse ++ seen := by
  rw [validateBucket, getD_dirs, length_dirs]
  by_cases ho : (s.dirAt (b * DirDepth)).offset = 0
  case pos =>
    simp only [ho, if_true, ne_eq, next_eq_zero]
    constructor
    case mp =>
      intro h
      by_cases hn : s.next (b * DirDepth) = 0
      case pos =>
        refine ⟨[], ⟨.inl ⟨rfl, ho, hn⟩, by simp, by simp⟩, by simp, ?_⟩
        simpa [hn, bind, Except.bind, pure, Except.pure, eq_comm] using h
      case neg => simp [hn, throw, throwThe, MonadExceptOf.throw, bind, Except.bind] at h
    case mpr =>
      rintro ⟨l, hl, _, he⟩
      have := hl.eq_nil_iff.mpr ho
      subst this
      have hn : s.next (b * DirDepth) = 0 := by simpa [ho] using hl.chain
      simp [hn, he, pure, Except.pure]
  case neg =>
    simp only [ho, if_false]
    rw [validateChain_iff]
    constructor
    case mp =>
      rintro ⟨l, hp, hl, _, _, he⟩
      refine ⟨b * DirDepth :: l, ⟨.inr ⟨l, rfl, hp⟩, fun j hj => ?_, fun j hj => (hl j hj).2.2.1⟩,
        fun j hj => (hl j hj).2.1, he⟩
      exact ⟨(hl j hj).1, (hl j hj).2.2.2⟩
    case mpr =>
      rintro ⟨l, hl, hs, he⟩
      have ⟨l', he', hp⟩ := hl.chain.resolve_left fun h => ho h.2.1
      have := hl.length_le
      subst he'
      refine ⟨l', hp, fun j hj => ?_, (List.nodup_cons.mp hl.nodup).1, by simp at this; omega, he⟩
      have ⟨h₁, h₂⟩ := hl.occupied j hj
      exact ⟨h₁, hs j hj, hl.tail j hj, h₂⟩

theorem validateBuckets_iff {k : Nat} :
    List.foldlM (validateBucket s.dirs) [] ((List.range k).map (· * DirDepth)) = .ok seen ↔
    ∃ bucket : Nat → List Nat, (∀ b < k, s.IsBucket b (bucket b)) ∧
      (∀ b < k, ∀ b' < k, ∀ i, i ∈ bucket b → i ∈ bucket b' → b = b') ∧
      seen = ((List.range k).flatMap bucket).reverse := by
  induction k generalizing seen
  case zero => simp [pure, Except.pure, eq_comm]
  case succ k hi =>
    rw [List.range_succ, List.map_append, List.foldlM_append, Except.bind_eq_ok]
    simp only [List.map_cons, List.map_nil, List.foldlM_cons, List.foldlM_nil, bind_pure, hi,
      validateBucket_iff]
    constructor
    case mp =>
      rintro ⟨_, ⟨bucket, hb, hd, rfl⟩, l, hl, hs, rfl⟩
      have hu {b} (h : b < k) : Function.update bucket k l b = bucket b :=
        Function.update_of_ne (by omega) _ _
      have hout {b i} (h : b < k) (hm : i ∈ bucket b) : i ∉ l := fun hc =>
        hs i hc (by simp only [List.mem_reverse, List.mem_flatMap, List.mem_range]; exact ⟨b, h, hm⟩)
      refine ⟨Function.update bucket k l, fun b h => ?_, fun b h b' h' i hm hm' => ?_, ?_⟩
      case refine_1 =>
        cases Nat.lt_succ_iff_lt_or_eq.mp h
        case inl h => exact hu h ▸ hb b h
        case inr h =>
          subst h
          rwa [Function.update_self]
      case refine_2 =>
        cases Nat.lt_succ_iff_lt_or_eq.mp h <;> cases Nat.lt_succ_iff_lt_or_eq.mp h'
        case inl.inl h h' => exact hd b h b' h' i (hu h ▸ hm) (hu h' ▸ hm')
        case inl.inr h h' =>
          subst h'
          exact absurd (by simpa using hm') (hout h (hu h ▸ hm))
        case inr.inl h h' =>
          subst h
          exact absurd (by simpa using hm) (hout h' (hu h' ▸ hm'))
        case inr.inr h h' => exact h.trans h'.symm
      case refine_3 =>
        rw [List.flatMap_append, List.reverse_append]
        simp only [List.flatMap_singleton, Function.update_self]
        congr 2
        exact List.flatMap_congr fun b h => (hu (List.mem_range.mp h)).symm
    case mpr =>
      rintro ⟨bucket, hb, hd, rfl⟩
      refine ⟨_, ⟨bucket, fun b h => hb b (by omega), fun b h b' h' => hd b (by omega) b' (by omega),
        rfl⟩, bucket k, hb k (by omega), fun j hj hc => ?_, by simp⟩
      simp only [List.mem_reverse, List.mem_flatMap, List.mem_range] at hc
      have ⟨b, h, hm⟩ := hc
      have := hd b (by omega) k (by omega) j hm hj
      omega

theorem validateFree_iff {free prev : BitVec 16} :
    validateFree s.dirs n free prev seen = .ok seen' ↔
    ∃ l, Path s.next free.toNat l 0 ∧ Back s.prev prev.toNat l ∧
      (∀ j ∈ l, j < s.length ∧ j ∉ seen ∧ j % DirDepth ≠ 0 ∧ (s.dirAt j).offset = 0) ∧
      l.length < n ∧ seen' = l.reverse ++ seen := by
  induction n generalizing free prev seen
  case zero =>
    simp only [validateFree, throw, throwThe, MonadExceptOf.throw, reduceCtorEq, false_iff]
    rintro ⟨_, _, _, _, h, _⟩
    omega
  case succ n hi =>
    simp only [validateFree, getD_dirs, length_dirs]
    by_cases hf : free = 0
    case pos =>
      simp only [hf, if_true]
      constructor
      case mp =>
        intro h
        exact ⟨[], rfl, trivial, by simp, by simp, by simpa [pure, Except.pure, eq_comm] using h⟩
      case mpr =>
        rintro ⟨l, hp, _, _, _, he⟩
        cases l
        case nil => simp [he, pure, Except.pure]
        case cons => exact absurd hp.1.symm hp.2.1
    case neg =>
      have hz : free.toNat ≠ 0 := by simpa [← BitVec.toNat_inj] using hf
      have hprev : (s.dirAt free.toNat).prev = prev ↔ s.prev free.toNat = prev.toNat := by
        simp only [Segment.prev, BitVec.toNat_inj]
      simp only [hf, if_false]
      by_cases hc : free.toNat ≥ s.length ∨ free.toNat ∈ seen ∨ free.toNat % DirDepth = 0 ∨
          (s.dirAt free.toNat).offset ≠ 0 ∨ (s.dirAt free.toNat).prev ≠ prev
      case pos =>
        rw [if_pos hc]
        simp only [throw, throwThe, MonadExceptOf.throw, bind, Except.bind, reduceCtorEq, false_iff]
        rintro ⟨l, hp, hb, hl, _, _⟩
        cases l
        case nil => exact hz hp
        case cons =>
          have := hp.1
          subst this
          obtain ⟨h₁, h₂, h₃, h₄⟩ := hl free.toNat (by simp)
          have h₅ := hprev.mpr hb.1
          rcases hc with h | h | h | h | h
          · omega
          · exact h₂ h
          · exact h₃ h
          · exact h h₄
          · exact h h₅
      case neg =>
        rw [if_neg hc]
        simp only [not_or, not_not, ge_iff_le, not_le, ne_eq] at hc
        rw [hi]
        have hm {l : List Nat} : (∀ j ∈ l, j ∉ free.toNat :: seen) ↔ free.toNat ∉ l ∧ ∀ j ∈ l, j ∉ seen := by
          simp only [List.mem_cons, not_or]
          constructor
          · exact fun h => ⟨fun hc => (h _ hc).1 rfl, fun j hj => (h j hj).2⟩
          · exact fun h j hj => ⟨by rintro rfl; exact h.1 hj, h.2 j hj⟩
        constructor
        case mp =>
          rintro ⟨l, hp, hb, hl, hn, he⟩
          refine ⟨free.toNat :: l, ⟨rfl, hz, hp⟩, ⟨hprev.mp hc.2.2.2.2, hb⟩, fun j hj => ?_,
            by simpa using hn, by simp [he]⟩
          cases List.mem_cons.mp hj
          case inl hj => exact hj ▸ ⟨hc.1, hc.2.1, hc.2.2.1, hc.2.2.2.1⟩
          case inr hj =>
            obtain ⟨h₁, h₂, h₃⟩ := hl j hj
            exact ⟨h₁, fun hc => h₂ (List.mem_cons_of_mem _ hc), h₃⟩
        case mpr =>
          rintro ⟨l, hp, hb, hl, hn, he⟩
          cases l
          case nil => exact absurd hp hz
          case cons i l =>
            have hd := (List.nodup_cons.mp hp.nodup).1
            obtain ⟨h₁, _, h₃⟩ := hp
            subst h₁
            have := hm.mpr ⟨hd, fun j hj => (hl j (by simp [hj])).2.1⟩
            refine ⟨l, h₃, hb.2, fun j hj => ?_, by simpa using hn, by simp [he]⟩
            obtain ⟨h₁, _, h₃⟩ := hl j (by simp [hj])
            exact ⟨h₁, this j hj, h₃⟩

-- `validateDirectory` accepts exactly the segments that meet the structural invariant.
theorem validateDirectory_iff (hd : DirDepth ∣ s.length) (hb : s.length ≤ 2 ^ 16) :
    validateDirectory s.dirs s.freeStart = .ok () ↔ ∃ bucket free, s.Chained bucket free := by
  have hk : (s.length + DirDepth - 1) / DirDepth = s.buckets := by
    simp only [Segment.buckets, DirDepth] at *
    omega
  have hend {seen : List Nat} :
      (if ∃ i < s.length, i ∉ seen ∧ (i % DirDepth ≠ 0 ∨ (s.dirAt i).offset ≠ 0) then
        throw "unreachable directory entry" else pure () : Except String Unit) = .ok () ↔
      ∀ i < s.length, (i % DirDepth ≠ 0 ∨ (s.dirAt i).offset ≠ 0) → i ∈ seen := by
    split
    case isTrue h =>
      obtain ⟨i, h₁, h₂, h₃⟩ := h
      simp only [throw, throwThe, MonadExceptOf.throw, reduceCtorEq, false_iff]
      exact fun h => h₂ (h i h₁ h₃)
    case isFalse h =>
      simp only [pure, Except.pure, true_iff]
      exact fun i h₁ h₃ => by_contra fun h₂ => h ⟨i, h₁, h₂, h₃⟩
  simp only [validateDirectory, length_dirs, getD_dirs, hk, Except.bind_eq_ok, validateBuckets_iff,
    validateFree_iff, hend]
  constructor
  case mp =>
    rintro ⟨_, ⟨bucket, hc, hdis, rfl⟩, _, ⟨free, hp, hback, hf, _, rfl⟩, ha⟩
    have hmem {i} (h₁ : i < s.length) (h₂ : i % DirDepth ≠ 0 ∨ (s.dirAt i).offset ≠ 0) :
        i ∈ free ∨ ∃ b < s.buckets, i ∈ bucket b := by simpa using ha i h₁ h₂
    refine ⟨bucket, free, ⟨hd, hb, hc, hdis, fun i hi ho => ?_⟩, ⟨⟨hp, hback⟩, fun i hi => ?_⟩,
      fun i hi hh ho => ?_⟩
    case refine_1 => exact (hmem hi (.inr ho)).resolve_left fun h => ho (hf i h).2.2.2
    case refine_2 =>
      obtain ⟨h₁, _, h₂⟩ := hf i hi
      exact ⟨h₁, h₂⟩
    case refine_3 =>
      refine (hmem hi (.inl hh)).resolve_right ?_
      rintro ⟨b, hb, hm⟩
      exact ((hc b hb).occupied i hm).2 ho
  case mpr =>
    rintro ⟨bucket, free, h⟩
    have hlen : free.length < s.length + 1 := by
      have hs : free ⊆ List.range s.length := fun i hi =>
        List.mem_range.mpr (h.chain.slots i hi).1
      have := (h.chain.nodup.subperm hs).length_le
      simp at this
      omega
    refine ⟨_, ⟨bucket, h.buckets.chains, h.buckets.disjoint, rfl⟩, _, ⟨free, h.chain.links.path,
      h.chain.links.back, fun j hj => ?_, hlen, rfl⟩, fun i hi ho => ?_⟩
    case refine_1 =>
      obtain ⟨h₁, h₂, h₃⟩ := h.chain.slots j hj
      refine ⟨h₁, fun hc => ?_, h₂, h₃⟩
      simp only [List.mem_reverse, List.mem_flatMap, List.mem_range] at hc
      obtain ⟨b, hb, hm⟩ := hc
      exact ((h.buckets.chains b hb).occupied j hm).2 h₃
    case refine_2 =>
      simp only [List.mem_append, List.mem_reverse, List.mem_flatMap, List.mem_range]
      by_cases h₀ : (s.dirAt i).offset = 0
      case pos => exact .inl (h.all i hi (ho.resolve_right (· h₀)) h₀)
      case neg => exact .inr (h.buckets.cover i hi h₀)

end Bakemono.Segment
