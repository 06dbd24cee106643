import Bakemono.Directory.Chains

open Chain

namespace Bakemono.Segment

variable {s s' s'' : Segment} {bucket bucket' bucket'' : Nat → List Nat} {free l : List Nat}
variable {b i j x : Nat}

section Rebuild

-- One round of `freeChainRebuild` at an unused entry `x`, with the last free entry `p` before it.
def start (s : Segment) (x : Nat) : Segment :=
  if s.freeStart = 0 then { s with freeStart := .ofNat 16 x } else s

def clearPrev (s : Segment) (x p : Nat) : Segment :=
  s.update x fun y => { y with dir := y.dir.clear.setPrev (.ofNat 16 p) }

def append (s : Segment) (x p : Nat) : Segment :=
  if p ≠ 0 then ((s.start x).clearPrev x p).setNext p (.ofNat 16 x)
  else (s.start x).clearPrev x p

variable {p : Nat}

@[simp] theorem length_start : (s.start x).length = s.length := by
  unfold start
  split <;> rfl

@[simp] theorem slotAt_start : (s.start x).slotAt j = s.slotAt j := by
  unfold start
  split <;> rfl

@[simp] theorem dirAt_start : (s.start x).dirAt j = s.dirAt j := by
  simp [dirAt]

theorem length_append : (s.append x p).length = s.length := by
  unfold append
  split <;> simp [setNext, clearPrev]

theorem freeStart_append :
    (s.append x p).freeStart = if s.freeStart = 0 then .ofNat 16 x else s.freeStart := by
  unfold append start
  split <;> split <;> rfl

theorem slotAt_append_ne (hx : j ≠ x) (hp : p ≠ 0 → j ≠ p) :
    (s.append x p).slotAt j = s.slotAt j := by
  unfold append
  split
  case isTrue h₀ =>
    exact (slotAt_update_ne (hp h₀)).trans <| (slotAt_update_ne hx).trans slotAt_start
  case isFalse => exact (slotAt_update_ne hx).trans slotAt_start

theorem dirAt_append (hx : x < s.length) (hp : p < s.length) (hn : p ≠ x) :
    (s.append x p).dirAt j =
      if j = x then Dir.setPrev {} (.ofNat 16 p)
      else if p ≠ 0 ∧ j = p then (s.dirAt j).setNext (.ofNat 16 x) else s.dirAt j := by
  have hc : ((s.start x).clearPrev x p).dirAt j =
      if j = x then Dir.setPrev {} (.ofNat 16 p) else s.dirAt j := by
    rw [clearPrev, dirAt_update (by simpa using hx), dirAt_start]
    rfl
  unfold append
  by_cases h₀ : p = 0
  case pos => simpa [h₀] using hc
  case neg =>
    rw [if_pos h₀, dirAt_setNext (by simpa [clearPrev] using hp), hc]
    by_cases hjx : j = x
    case pos => simp [hjx, Ne.symm hn]
    case neg => simp [hjx, h₀]

theorem go_cons_free (hx : x < s.length) (hp : p < s.length) (ho : (s.dirAt x).offset = 0) :
    freeChainRebuild.go (x :: l) s p c = freeChainRebuild.go l (s.append x p) x (c + 1) := by
  have hs : Segment.modify (if s.freeStart = 0 then { s with freeStart := .ofNat 16 x } else s) x
      (·.clear.setPrev (.ofNat 16 p)) = .ok ((s.start x).clearPrev x p) :=
    modify_eq (s := s.start x) (by simpa using hx)
  have hn := modify_setNext (s := (s.start x).clearPrev x p) (i := p) (v := .ofNat 16 x)
    (by simpa [clearPrev] using hp)
  simp only [freeChainRebuild.go, get_eq hx, ho, hs, bind, Except.bind, if_true]
  by_cases h₀ : p = 0
  case pos => simp [h₀, append, pure, Except.pure]
  case neg => simp [h₀, append, hn]

theorem go_cons_used (hx : x < s.length) (ho : (s.dirAt x).offset ≠ 0) :
    freeChainRebuild.go (x :: l) s p c = freeChainRebuild.go l s p c := by
  simp [freeChainRebuild.go, get_eq hx, ho, bind, Except.bind]

theorem kept_append (h : s.HasFree l) (hx : x < s.length) (hd : x % DirDepth ≠ 0)
    (ho : (s.dirAt x).offset = 0) (hp : l.getLastD 0 < s.length) (hn : l.getLastD 0 ≠ x) :
    Kept s (s.append x (l.getLastD 0)) := by
  have hm : l.getLastD 0 ≠ 0 → l.getLastD 0 ∈ l := by
    cases l using List.reverseRecOn <;> simp
  refine ⟨length_append, fun j => ?_, fun j hj => slotAt_append_ne ?_ ?_⟩
  case refine_1 =>
    rw [dirAt_append hx hp hn]
    by_cases hj : j = x
    case pos =>
      rw [if_pos hj, hj, ho]
      exact Dir.offset_clear {}
    case neg =>
      simp only [hj, if_false]
      split <;> rfl
  case refine_2 =>
    rintro rfl
    exact hj.elim (· ho) hd
  case refine_3 =>
    rintro h₀ rfl
    exact h.not_mem hj (hm h₀)

theorem hasFree_append (h : s.HasFree l) (hb : s.length ≤ 2 ^ 16) (hx : x < s.length)
    (hd : x % DirDepth ≠ 0) (ho : (s.dirAt x).offset = 0) (hm : x ∉ l) :
    (s.append x (l.getLastD 0)).HasFree (l ++ [x]) ∧ Kept s (s.append x (l.getLastD 0)) := by
  have hz : x ≠ 0 := by rintro rfl; simp at hd
  have hl : l.getLastD 0 = 0 ∨ l.getLastD 0 ∈ l := by cases l using List.reverseRecOn <;> simp
  have hn : l.getLastD 0 ≠ x := fun hc => hl.elim (fun h₀ => hz (hc ▸ h₀)) (fun h => hm (hc ▸ h))
  have hp : l.getLastD 0 < s.length := hl.elim (by omega) fun h' => (h.slots _ h').1
  have hv (n) (hn : n < s.length) : (BitVec.ofNat 16 n).toNat = n := by simp; omega
  have hk := kept_append h hx hd ho hp hn
  refine ⟨⟨?_, ?_⟩, hk⟩
  case refine_1 =>
    refine h.links.concat hz hm ?_ ?_ ?_ ?_ ?_
    case refine_1 =>
      rw [freeStart_append]
      simp only [freeStart_eq_zero_iff h]
      split
      case isTrue => exact hv x hx
      case isFalse => rfl
    case refine_2 =>
      simp only [next, dirAt_append hx hp hn, if_true]
      rfl
    case refine_3 => simp only [prev, dirAt_append hx hp hn, if_true, Dir.prev_setPrev, hv _ hp]
    case refine_4 =>
      intro y hy
      have hyx : y ≠ x := by rintro rfl; exact hm hy
      have hy₀ := h.links.path.ne_zero hy
      simp only [next, dirAt_append hx hp hn, hyx, if_false]
      by_cases hyl : y = l.getLastD 0
      case pos => simp only [← hyl, hy₀, ne_eq, not_false_eq_true, and_self, if_true,
        Dir.next_setNext, hv x hx]
      case neg => simp only [hyl, and_false, if_false]
    case refine_5 =>
      intro y hy
      have hyx : y ≠ x := by rintro rfl; exact hm hy
      simp only [prev, dirAt_append hx hp hn, hyx, if_false]
      split <;> rfl
  case refine_2 =>
    intro j hj
    rw [hk.length, hk.offset]
    cases List.mem_append.mp hj
    case inl hj => exact h.slots j hj
    case inr hj =>
      cases List.mem_singleton.mp hj
      exact ⟨hx, hd, ho⟩

theorem rebuild_go (h : s.HasFree l) (hb : s.length ≤ 2 ^ 16) (hd : todo.Nodup)
    (ht : ∀ x ∈ todo, x < s.length ∧ x % DirDepth ≠ 0 ∧ x ∉ l) :
    ∃ s' free, freeChainRebuild.go todo s (l.getLastD 0) l.length = .ok (free.length, s') ∧
      s'.HasFree free ∧ Kept s s' ∧ l ⊆ free ∧
      ∀ x ∈ todo, (s.dirAt x).offset = 0 → x ∈ free := by
  induction todo generalizing s l
  case nil => exact ⟨s, l, rfl, h, .refl s, List.Subset.refl l, by simp⟩
  case cons x todo hi =>
    have ⟨hx₁, hx₂, hx₃⟩ := ht x (by simp)
    have ⟨hd₁, hd₂⟩ := List.nodup_cons.mp hd
    by_cases ho : (s.dirAt x).offset = 0
    case pos =>
      have hp : l.getLastD 0 < s.length := by
        cases l using List.reverseRecOn
        case nil => simp; omega
        case append_singleton l y _ => simpa using (h.slots y (by simp)).1
      have ⟨hf, hk⟩ := hasFree_append h hb hx₁ hx₂ ho hx₃
      have ht' : ∀ y ∈ todo, y < (s.append x (l.getLastD 0)).length ∧ y % DirDepth ≠ 0 ∧
          y ∉ l ++ [x] := by
        intro y hy
        have ⟨h₁, h₂, h₃⟩ := ht y (by simp [hy])
        refine ⟨hk.length ▸ h₁, h₂, ?_⟩
        simp only [List.mem_append, List.mem_singleton, not_or]
        exact ⟨h₃, fun hc => hd₁ (hc ▸ hy)⟩
      have ⟨s', free, he, hf', hk', hl, ha⟩ := hi hf (hk.length ▸ hb) hd₂ ht'
      refine ⟨s', free, ?_, hf', hk.trans hk', fun y hy => hl (by simp [hy]), ?_⟩
      case refine_1 => rw [go_cons_free hx₁ hp ho, ← he]; simp
      case refine_2 =>
        intro y hy ho'
        cases List.mem_cons.mp hy
        case inl hy => exact hl (by simp [hy])
        case inr hy => exact ha y hy (hk.offset y ▸ ho')
    case neg =>
      have ⟨s', free, he, hf', hk', hl, ha⟩ := hi h hb hd₂ fun y hy => ht y (by simp [hy])
      refine ⟨s', free, by rw [go_cons_used hx₁ ho, he], hf', hk', hl, ?_⟩
      intro y hy ho'
      cases List.mem_cons.mp hy
      case inl hy => exact absurd (hy ▸ ho') ho
      case inr hy => exact ha y hy ho'

theorem mem_nonHeads (h : DirDepth ∣ s.length) :
    i ∈ s.nonHeads ↔ i < s.length ∧ i % DirDepth ≠ 0 := by
  simp only [nonHeads, Segment.buckets, DirDepth, List.mem_flatMap, List.mem_range, List.mem_map,
    List.mem_range'_1] at *
  constructor
  case mp =>
    rintro ⟨b, hb, j, hj, rfl⟩
    omega
  case mpr =>
    intro hi
    exact ⟨i / 4, by omega, i % 4, by omega, by omega⟩

theorem nodup_nonHeads : s.nonHeads.Nodup := by
  refine List.nodup_flatMap.mpr ⟨fun b _ => ?_, ?_⟩
  case refine_1 => exact (List.nodup_range').map fun _ _ h => by simpa using h
  case refine_2 =>
    refine List.nodup_range.pairwise_of_forall_ne fun b _ b' _ hn => ?_
    intro x h₁ h₂
    simp only [DirDepth, List.mem_map, List.mem_range'_1] at h₁ h₂
    omega

theorem freeChainRebuild_spec (h : s.HasBuckets bucket) :
    ∃ s' free, s.freeChainRebuild = .ok (free.length, s') ∧ s'.Chained bucket free ∧ Kept s s' := by
  have h₀ : HasFree { s with freeStart := 0 } [] := ⟨⟨rfl, trivial⟩, by simp⟩
  have ⟨s', free, he, hf, hk, _, ha⟩ := rebuild_go h₀ h.bound nodup_nonHeads fun x hx =>
    ⟨((mem_nonHeads h.dvd).mp hx).1, ((mem_nonHeads h.dvd).mp hx).2, by simp⟩
  have hk' : Kept s s' := ⟨hk.length, hk.offset, hk.slots⟩
  refine ⟨s', free, he, ⟨hk'.hasBuckets h, hf, fun i hi hd ho => ?_⟩, hk'⟩
  exact ha i ((mem_nonHeads h.dvd).mpr ⟨hk'.length ▸ hi, hd⟩) ((hk'.offset i).symm.trans ho)

end Rebuild

section Buckets

theorem purgeBucket_spec (hp : Path s.next (s.next i) l 0) (hi : i ∉ l)
    (hl : ∀ j ∈ i :: l, j < s.length) (hf : l.length < n) :
    ∃ s', s.purgeBucket n i = .ok s' ∧ s'.length = s.length ∧
      ∀ j, s'.slotAt j = if j ∈ i :: l then { s.slotAt j with dir := {} } else s.slotAt j := by
  induction l generalizing s i n
  case nil =>
    obtain ⟨n, rfl⟩ := Nat.exists_eq_add_of_lt hf
    have hi := hl i (by simp)
    refine ⟨s.update i fun x => { x with dir := x.dir.clear }, ?_, length_update, fun j => ?_⟩
    case refine_1 =>
      have hn : (s.dirAt i).next.toNat = 0 := hp
      simp [purgeBucket, get_eq hi, modify_eq hi, hn, bind, Except.bind, pure, Except.pure]
    case refine_2 =>
      rw [slotAt_update hi]
      simp [Dir.clear]
  case cons k l hi' =>
    obtain ⟨n, rfl⟩ := Nat.exists_eq_add_of_lt hf
    have hi₀ := hl i (by simp)
    obtain ⟨hn, hk, hp'⟩ := hp
    obtain ⟨hik, hil⟩ : i ≠ k ∧ i ∉ l := by simpa using hi
    let s₁ := s.update i fun x => { x with dir := x.dir.clear }
    have hs : ∀ j ≠ i, s₁.next j = s.next j := fun j hj => by
      simp only [next, s₁, dirAt_update_ne hj]
    have hp₁ : Path s₁.next (s₁.next k) l 0 := by
      rw [hs k hik.symm]
      exact hp'.congr fun x hx => hs x (by rintro rfl; exact hil hx)
    obtain ⟨s', he, hl', hs'⟩ := hi' (n := (k :: l).length + n) hp₁ hp'.not_mem
      (fun j hj => by simpa [s₁] using hl j (by simp at hj ⊢; tauto)) (by simp; omega)
    refine ⟨s', ?_, hl'.trans length_update, fun j => ?_⟩
    case refine_1 =>
      have hn' : (s.dirAt i).next.toNat = k := hn
      simp only [purgeBucket, get_eq hi₀, modify_eq hi₀, hn', hk, bind, Except.bind, if_false]
      exact he
    case refine_2 =>
      rw [hs', slotAt_update hi₀]
      by_cases hj : j = i
      case pos => simp [hj, hik, hil, Dir.clear]
      case neg => simp [hj]

-- Purging takes all entries of some buckets, and leaves the entries of the others as they are.
structure Evicts (s s' : Segment) (bucket bucket' : Nat → List Nat) : Prop where
  length : s'.length = s.length
  chains : ∀ b, bucket' b = bucket b ∨ bucket' b = []
  slots  : ∀ b < s.buckets, ∀ i ∈ bucket' b, s'.slotAt i = s.slotAt i

namespace Evicts

theorem refl (s : Segment) (bucket : Nat → List Nat) : Evicts s s bucket bucket :=
  ⟨rfl, fun _ => .inl rfl, fun _ _ _ _ => rfl⟩

theorem buckets (h : Evicts s s' bucket bucket') : s'.buckets = s.buckets := by
  simp [Segment.buckets, h.length]

theorem trans (h₁ : Evicts s s' bucket bucket') (h₂ : Evicts s' s'' bucket' bucket'') :
    Evicts s s'' bucket bucket'' := by
  refine ⟨h₂.length.trans h₁.length, fun b => ?_, fun b hb i hi => ?_⟩
  case refine_1 =>
    cases h₂.chains b
    case inl he => exact he ▸ h₁.chains b
    case inr he => exact .inr he
  case refine_2 =>
    rw [h₂.slots b (h₁.buckets ▸ hb) i hi]
    refine h₁.slots b hb i ?_
    cases h₂.chains b
    case inl he => exact he ▸ hi
    case inr he => simp [he] at hi

theorem of_kept (h : s.HasBuckets bucket) (hk : Kept s s') : Evicts s s' bucket bucket :=
  ⟨hk.length, fun _ => .inl rfl, fun b hb i hi =>
    hk.slots i <| .inl ((h.chains b hb).occupied i hi).2⟩

end Evicts

theorem purge_spec (h : s.HasBuckets bucket) (hb : b < s.buckets) :
    ∃ s', s.purgeBucket (s.length + 1) (b * DirDepth) = .ok s' ∧
      s'.HasBuckets (Function.update bucket b []) ∧
      Evicts s s' bucket (Function.update bucket b []) := by
  have hc := h.chains b hb
  have hh := head_lt h.dvd hb
  -- The walk over an empty bucket only clears its head.
  obtain ⟨l, hl, hp⟩ : ∃ l, (∀ i, i ∈ bucket b → i ∈ b * DirDepth :: l) ∧
      Path s.next (s.next (b * DirDepth)) l 0 ∧
      ∀ i ∈ l, i ∈ bucket b := by
    cases hc.chain
    case inl he => exact ⟨[], by simp [he.1], he.2.2, by simp⟩
    case inr he =>
      obtain ⟨l, he, hp⟩ := he
      exact ⟨l, by simp [he], hp, by simp [he]; tauto⟩
  obtain ⟨hp, hm⟩ := hp
  have hlen : l.length ≤ s.length := by
    have hs : l ⊆ List.range s.length := fun i hi =>
      List.mem_range.mpr (hc.occupied i (hm i hi)).1
    simpa using (hp.nodup.subperm hs).length_le
  obtain ⟨s', he, hl', hs⟩ := purgeBucket_spec (n := s.length + 1) hp hp.not_mem
    (by
      intro j hj
      cases List.mem_cons.mp hj
      case inl hj => exact hj ▸ hh
      case inr hj => exact (hc.occupied j (hm j hj)).1)
    (by omega)
  have hd : ∀ j, s'.dirAt j = if j ∈ b * DirDepth :: l then {} else s.dirAt j := by
    intro j
    simp only [dirAt, hs]
    split <;> rfl
  have hne {i} (hi : i ∉ bucket b) (hi' : i ≠ b * DirDepth) : i ∉ b * DirDepth :: l := by
    simp only [List.mem_cons, not_or]
    exact ⟨hi', fun hc => hi (hm i hc)⟩
  have hz : Dir.offset {} = 0 := Dir.offset_clear {}
  refine ⟨s', he, h.replace hb hl' ⟨.inl ⟨rfl, ?_, ?_⟩, by simp, by simp⟩ (by simp) ?_ ?_ ?_, hl',
    fun b' => ?_, fun b' hb' i hi => ?_⟩
  case refine_1 => simpa [hd] using hz
  case refine_2 => simp only [next, hd, List.mem_cons, true_or, if_true]; rfl
  case refine_3 =>
    intro i hi _
    rw [hd, if_pos (hl i hi), hz]
  case refine_4 =>
    intro i hi _
    by_cases hi' : i = b * DirDepth
    case pos =>
      rw [hd, if_pos (by simp [hi']), hz]
      by_contra h₀
      have he : b * DirDepth ∈ bucket b := by
        cases hc.chain
        case inl he => exact absurd (hi' ▸ he.2.1.symm) h₀
        case inr he =>
          obtain ⟨_, he, _⟩ := he
          simp [he]
      exact hi (hi' ▸ he)
    case neg => rw [hd, if_neg (hne hi hi')]
  case refine_5 =>
    intro i hi _ hi' _
    simp only [next, hd, if_neg (hne hi hi')]
  case refine_6 =>
    by_cases hb' : b' = b <;> simp [hb']
  case refine_7 =>
    by_cases he : b' = b
    case pos => simp [he] at hi
    case neg =>
      rw [Function.update_of_ne he] at hi
      have h₁ : i ∉ bucket b := fun hm => he (h.disjoint _ hb' _ hb i hi hm)
      have h₂ : i ≠ b * DirDepth := by
        rintro rfl
        have := (h.chains b' hb').tail _ hi (by simp)
        simp [DirDepth] at this
        omega
      rw [hs, if_neg (hne h₁ h₂)]

theorem purge_fold (h : s.HasBuckets bucket) (hl : ∀ b ∈ l, b < s.buckets) (skip : Nat → Bool) :
    ∃ s' bucket', List.foldlM (purgeBuckets.purge skip) s l = .ok s' ∧ s'.HasBuckets bucket' ∧
      Evicts s s' bucket bucket' ∧
      (∀ b, skip b → bucket' b = bucket b) ∧ (∀ b ∈ l, ¬skip b → bucket' b = []) := by
  induction l generalizing s bucket
  case nil => exact ⟨s, bucket, rfl, h, .refl s bucket, fun _ _ => rfl, by simp⟩
  case cons b l hi =>
    by_cases hk : skip b
    case pos =>
      have ⟨s', bucket', he, h', hv, hs, hp⟩ := hi h fun b hb => hl b (by simp [hb])
      refine ⟨s', bucket', ?_, h', hv, hs, fun b' hb' hk' => ?_⟩
      case refine_1 => simpa [purgeBuckets.purge, hk, pure_bind] using he
      case refine_2 =>
        cases List.mem_cons.mp hb'
        case inl hb' => exact absurd (hb' ▸ hk) hk'
        case inr hb' => exact hp b' hb' hk'
    case neg =>
      have ⟨s₁, he₁, h₁, hv₁⟩ := purge_spec h (hl b (by simp))
      have ⟨s', bucket', he, h', hv, hs, hp⟩ := hi h₁ fun b hb =>
        hv₁.buckets.symm ▸ hl b (by simp [hb])
      refine ⟨s', bucket', ?_, h', hv₁.trans hv, fun b' hb' => ?_, fun b' hb' hk' => ?_⟩
      case refine_1 =>
        rw [List.foldlM_cons, purgeBuckets.purge, if_neg hk, he₁]
        exact he
      case refine_2 =>
        rw [hs b' hb', Function.update_of_ne]
        rintro rfl
        exact hk hb'
      case refine_3 =>
        cases List.mem_cons.mp hb'
        case inl hb' =>
          cases hv.chains b'
          case inl hc => simpa [hb'] using hc
          case inr hc => exact hc
        case inr hb' => exact hp b' hb' hk'

theorem purgeBuckets_spec (h : s.HasBuckets bucket) (skip : Nat → Bool) :
    ∃ s' bucket' free, s.purgeBuckets skip = .ok s' ∧ s'.Chained bucket' free ∧
      Evicts s s' bucket bucket' ∧
      (∀ b, skip b → bucket' b = bucket b) ∧ (∀ b < s.buckets, ¬skip b → bucket' b = []) := by
  have ⟨s₁, bucket', he₁, h₁, hv₁, hs, hp⟩ :=
    purge_fold h (l := List.range s.buckets) (fun b hb => List.mem_range.mp hb) skip
  have ⟨s', free, he, h', hk⟩ := freeChainRebuild_spec h₁
  refine ⟨s', bucket', free, ?_, h', hv₁.trans (.of_kept h₁ hk), hs, fun b hb => ?_⟩
  case refine_1 => simp [purgeBuckets, he₁, he, bind, Except.bind, pure, Except.pure]
  case refine_2 => exact hp b (List.mem_range.mpr hb)

end Buckets

-- A slot `i` that was taken out of the free chain for a new entry.
structure Pops (s s' : Segment) (bucket bucket' : Nat → List Nat) (free : List Nat) (i : Nat) :
    Prop where
  buckets : s'.HasBuckets bucket'
  chain   : s'.HasFree free
  slot    : i < s'.length ∧ i % DirDepth ≠ 0 ∧ (s'.dirAt i).offset = 0
  fresh   : i ∉ free
  all     : s'.AllFree (i :: free)
  evicts  : Evicts s s' bucket bucket'

theorem Pops.trans (h₁ : Evicts s s' bucket bucket') (h₂ : Pops s' s'' bucket' bucket'' free i) :
    Pops s s'' bucket bucket'' free i :=
  { h₂ with evicts := h₁.trans h₂.evicts }

theorem freeChainDelete_pops (h : s.Chained bucket free) (hi : i ∈ free) :
    ∃ s', s.freeChainDelete i = .ok s' ∧ Pops s s' bucket bucket (free.erase i) i := by
  have ⟨s', he, hf, hk⟩ := freeChainDelete_spec h.chain hi
  have ⟨h₁, h₂, h₃⟩ := h.chain.slots i hi
  refine ⟨s', he, hk.hasBuckets h.buckets, hf, ⟨hk.length ▸ h₁, h₂, (hk.offset i).trans h₃⟩, ?_, ?_,
    .of_kept h.buckets hk⟩
  case refine_1 => exact h.chain.nodup.not_mem_erase
  case refine_2 =>
    intro j hj hd ho
    have := hk.allFree h.all j hj hd ho
    by_cases he : j = i
    case pos => simp [he]
    case neg => exact List.mem_cons_of_mem i <| (List.mem_erase_of_ne he).mpr this

-- The free chain only runs empty if there are no unused entries besides heads.
theorem freeChainRebuild_empty (h : s.Chained bucket []) :
    ∃ s', s.freeChainRebuild = .ok (0, s') ∧ s'.Chained bucket [] ∧ Kept s s' := by
  have ⟨s', free, he, hc, hk⟩ := freeChainRebuild_spec h.buckets
  cases free
  case nil => exact ⟨s', he, hc, hk⟩
  case cons i _ =>
    have ⟨h₁, h₂, h₃⟩ := hc.chain.slots i (by simp)
    have := h.all i (hk.length ▸ h₁) h₂ ((hk.offset i).symm.trans h₃)
    simp at this

theorem findFreeDir_spec (h : s.Chained bucket free) (w : Nat) (rand : Nat → Fin 10)
    (hf : n + loop = 51) (hl : loop ≤ 50) :
    findFreeDir w rand n loop s = .error .freeChainPop ∨
    ∃ i s' bucket' free', findFreeDir w rand n loop s = .ok (i, s') ∧
      Pops s s' bucket bucket' free' i ∧ bucket' w = bucket w ∧
      (free ≠ [] → loop < 49 → bucket' = bucket) := by
  induction n generalizing s bucket free loop
  case zero => omega
  case succ n hi =>
    have ⟨s₁, bucket₁, free₁, he₁, h₁, hv₁, hw₁, hb₁⟩ : ∃ s₁ bucket₁ free₁,
        findFreeDir.purge w (loop + 1) s = .ok s₁ ∧ s₁.Chained bucket₁ free₁ ∧
        Evicts s s₁ bucket bucket₁ ∧ bucket₁ w = bucket w ∧
        (loop < 49 → bucket₁ = bucket ∧ free₁ = free) := by
      unfold findFreeDir.purge
      by_cases h₀ : loop + 1 > 49
      case pos =>
        have ⟨s₁, bucket₁, free₁, he, hc, hv, hs, _⟩ := purgeBuckets_spec h.buckets fun i => i = w
        exact ⟨s₁, bucket₁, free₁, by rw [if_pos h₀]; exact he, hc, hv, hs w (by simp), by omega⟩
      case neg => exact ⟨s, bucket, free, by rw [if_neg h₀]; rfl, h, .refl s bucket, rfl, by simp⟩
    simp only [findFreeDir, he₁, bind, Except.bind]
    by_cases h₅₀ : loop + 1 > 50
    case pos => exact .inl (by simp [h₅₀, throw, throwThe, MonadExceptOf.throw])
    case neg =>
      simp only [h₅₀, if_false]
      by_cases hs : s₁.freeStart = 0
      case pos =>
        have hn := (freeStart_eq_zero_iff h₁.chain).mp hs
        subst hn
        have ⟨s₂, he₂, h₂, hk₂⟩ := freeChainRebuild_empty h₁
        have ⟨s₃, bucket₃, free₃, he₃, h₃, hv₃, hw₃, _⟩ := purgeBuckets_spec h₂.buckets
          fun i => (s₂.buckets > 10 && i % 10 ≠ rand (loop + 1)) || i = w
        have hv : Evicts s s₃ bucket bucket₃ := (hv₁.trans (.of_kept h₁.buckets hk₂)).trans hv₃
        have he₃' : s₂.purgeRandom10 w (rand (loop + 1)) = .ok s₃ := he₃
        simp only [hs, if_true, he₂, he₃']
        cases hi h₃ (show n + (loop + 1) = 51 by omega) (by omega)
        case inl he => exact .inl he
        case inr hr =>
          have ⟨i, s', bucket', free', he, hp, hw, _⟩ := hr
          refine .inr ⟨i, s', bucket', free', he, hp.trans hv, ?_, ?_⟩
          case refine_1 => rw [hw, hw₃ w (by simp), hw₁]
          case refine_2 => exact fun hn hl => absurd (hb₁ hl).2.symm hn
      case neg =>
        simp only [hs, if_false, findFreeDir.pop, bind, Except.bind]
        have hm : s₁.freeStart.toNat ∈ free₁ := by
          have hp := h₁.chain.links.path
          cases free₁
          case nil => exact absurd ((freeStart_eq_zero_iff h₁.chain).mpr rfl) hs
          case cons => simp [hp.1]
        have ⟨s', he, hp⟩ := freeChainDelete_pops h₁ hm
        rw [he]
        exact .inr ⟨_, s', bucket₁, _, rfl, hp.trans hv₁, hw₁, fun _ hl => (hb₁ hl).1⟩

theorem freeChainPop_spec (h : s.Chained bucket free) (w : Nat) (rand : Nat → Fin 10) :
    s.freeChainPop w rand = .error .freeChainPop ∨
    ∃ i s' bucket' free', s.freeChainPop w rand = .ok (i, s') ∧
      Pops s s' bucket bucket' free' i ∧ bucket' w = bucket w ∧
      (free ≠ [] → bucket' = bucket) := by
  unfold freeChainPop
  simpa using findFreeDir_spec h w rand (n := 51) rfl (Nat.zero_le 50)

end Bakemono.Segment
