import Bakemono.Directory.Insert

open Chain

namespace Bakemono.Segment

variable {s s' : Segment} {bucket bucket' : Nat → List Nat} {free l l₁ l₂ : List Nat}
variable {b i k x : Nat} {tag : BitVec 16}

-- A slot that was taken out of a bucket goes to the free chain.
theorem freeChainSet_chained (hb : s.HasBuckets bucket) (hf : s.HasFree free) (hx : x < s.length)
    (hd : x % DirDepth ≠ 0) (hs : s.slotAt x = {}) (hm : x ∉ free) (ha : s.AllFree (x :: free)) :
    ∃ s', s.freeChainSet x = .ok s' ∧ s'.Chained bucket (x :: free) ∧ s'.length = s.length ∧
      ∀ b < s.buckets, ∀ j ∈ bucket b, (free = [] → j ≠ 0) → s'.slotAt j = s.slotAt j := by
  have hz : s.dirAt x = {} := congrArg Slot.dir hs
  have ho : (s.dirAt x).offset = 0 := hz ▸ Dir.offset_clear {}
  obtain ⟨s', he, hf', hl⟩ := freeChainSet_spec hf hb.bound hx hm hd ho (by simp only [prev, hz]; rfl)
  refine ⟨s', he, ⟨?_, hf', ?_⟩, hl.length, ?_⟩
  case refine_1 =>
    refine hb.agree hl.length hl.offset fun j hj => hl.next j ?_
    rintro rfl
    exact hj.elim (· ho) hd
  case refine_2 => exact fun j hj hd ho => ha j (hl.length ▸ hj) hd (hl.offset j ▸ ho)
  case refine_3 =>
    intro b hb' j hj h₀
    obtain ⟨_, hj₀⟩ := (hb.chains b hb').occupied j hj
    refine hl.slots j ?_ (hf.not_mem (.inl hj₀)) h₀
    rintro rfl
    exact hj₀ ho

-- The state of a segment after the slot `x` was taken out of the bucket `b`, before the slot goes to
-- the free chain.
structure Cuts (s s' : Segment) (bucket : Nat → List Nat) (free l : List Nat) (b x : Nat) : Prop where
  length  : s'.length = s.length
  buckets : s'.HasBuckets (Function.update bucket b l)
  chain   : s'.HasFree free
  slot    : x < s'.length ∧ x % DirDepth ≠ 0 ∧ s'.slotAt x = {} ∧ x ∉ free
  all     : s'.AllFree (x :: free)
  slots   : ∀ j, j ∉ bucket b → s'.slotAt j = s.slotAt j

section Cuts

-- A slot behind the head of its bucket is cut out of the chain.
def cutTail (s : Segment) (i p : Nat) : Segment :=
  ((s.update i ({ · with identity := 0 })).setNext p (s.dirAt i).next).update i
    fun x => { x with dir := x.dir.clear }

theorem slotAt_cutTail (hi : i < s.length) (hp : p < s.length) (hip : i ≠ p) :
    (s.cutTail i p).slotAt j = if j = i then {} else
      if j = p then { s.slotAt j with dir := (s.dirAt j).setNext (s.dirAt i).next } else s.slotAt j := by
  simp only [cutTail, setNext]
  rw [slotAt_update (by simpa using hi), slotAt_update (by simpa using hp), slotAt_update hi]
  by_cases hj : j = i
  case pos => simp [hj, hip, Dir.clear]
  case neg =>
    simp only [hj, if_false]
    split <;> rfl

theorem cuts_tail (h : s.Chained bucket free) (hb : b < s.buckets)
    (hc : bucket b = b * DirDepth :: l₁ ++ i :: l₂) :
    Cuts s (s.cutTail i ((b * DirDepth :: l₁).getLastD 0)) bucket free (b * DirDepth :: l₁ ++ l₂) b i := by
  have hk := h.buckets.chains b hb
  have hd := hc ▸ hk.nodup
  have hm : (b * DirDepth :: l₁).getLastD 0 ∈ b * DirDepth :: l₁ := by
    rw [List.getLastD_eq_getLast?, List.getLast?_eq_getLast_of_ne_nil (by simp)]
    exact List.getLast_mem _
  generalize hp : (b * DirDepth :: l₁).getLastD 0 = p at hm
  have hm' : p ∈ bucket b := by rw [hc]; simp at hm ⊢; tauto
  obtain ⟨hi, hi₀⟩ := hk.occupied i (by simp [hc])
  obtain ⟨hp', hp₀⟩ := hk.occupied p hm'
  have hmem {j} : j ∈ b * DirDepth :: l₁ ++ l₂ ↔ j ∈ bucket b ∧ j ≠ i := by
    have := List.nodup_append.mp hd
    have h₁ : i ∉ b * DirDepth :: l₁ := fun hc => this.2.2 i hc i (by simp) rfl
    have h₂ : i ∉ l₂ := (List.nodup_cons.mp this.2.1).1
    rw [hc]
    constructor
    case mp =>
      intro hj
      refine ⟨by simp at hj ⊢; tauto, ?_⟩
      rintro rfl
      simp at hj h₁
      tauto
    case mpr =>
      intro hj
      simp at hj ⊢
      tauto
  have hip : i ≠ p := by
    rintro rfl
    exact (hmem.mp (List.mem_append_left l₂ hm)).2 rfl
  have hh : i % DirDepth ≠ 0 := by
    intro h₀
    have := hk.tail i (by simp [hc]) h₀
    exact (hmem.mp (by simp [this])).2 rfl
  have hs (j) := slotAt_cutTail (j := j) hi hp' hip
  have hlen : (s.cutTail i p).length = s.length := by simp [cutTail, setNext]
  have hn {j} (hj : j ≠ i) : (s.cutTail i p).next j = if j = p then s.next i else s.next j := by
    simp only [next, dirAt, hs, hj, if_false]
    split <;> rfl
  have ho {j} (hj : j ≠ i) : ((s.cutTail i p).dirAt j).offset = (s.dirAt j).offset := by
    simp only [dirAt, hs, hj, if_false]
    split <;> rfl
  have hi' : ((s.cutTail i p).dirAt i).offset = 0 := by
    simp only [dirAt, hs, if_true]
    exact Dir.offset_clear {}
  have hne {j} (hj : j ∉ bucket b) : (s.cutTail i p).slotAt j = s.slotAt j := by
    rw [hs, if_neg, if_neg]
    all_goals
      rintro rfl
      simp_all
  refine ⟨hlen, h.buckets.replace hb hlen ⟨.inr ?_, ?_, ?_⟩ ?_ ?_ ?_ ?_, ?_,
    ⟨hlen ▸ hi, hh, by simp [hs], h.chain.not_mem (.inl hi₀)⟩, ?_, fun j => hne⟩
  case refine_1 =>
    obtain ⟨l', he, hpath⟩ := hk.chain.resolve_left (by simp [hc])
    have he : l' = l₁ ++ i :: l₂ := by simpa [hc] using he.symm
    refine ⟨l₁ ++ l₂, rfl, Path.cut (he ▸ hpath) hd fun y hy => ?_⟩
    rw [hn (hmem.mp hy).2, hp]
  case refine_2 =>
    intro j hj
    obtain ⟨hj₁, hj₂⟩ := hmem.mp hj
    rw [hlen, ho hj₂]
    exact hk.occupied j hj₁
  case refine_3 => exact fun j hj => hk.tail j (hmem.mp hj).1
  case refine_4 => exact fun j hj => .inl (hmem.mp hj).1
  case refine_5 =>
    intro j hj hj'
    have : j = i := by
      by_contra hc
      exact hj' (hmem.mpr ⟨hj, hc⟩)
    exact this ▸ hi'
  case refine_6 => exact fun j hj _ => by simp only [dirAt, hne hj]
  case refine_7 => exact fun j hj _ _ _ => by simp only [next, dirAt, hne hj]
  case refine_8 =>
    refine h.chain.agree hlen rfl fun j hj => ?_
    have hj' : j ∉ bucket b := fun hc => h.chain.not_mem (.inl (hk.occupied j hc).2) hj
    simp only [dirAt, hne hj']
  case refine_9 =>
    intro j hj hd hj₀
    by_cases hji : j = i
    case pos => simp [hji]
    case neg => exact List.mem_cons_of_mem i <| h.all j (hlen ▸ hj) hd (ho hji ▸ hj₀)

-- The second entry of a bucket takes the place of the head.
def cutHead (s : Segment) (i k : Nat) : Segment :=
  ((s.update i ({ · with identity := 0 })).update i fun _ => s.slotAt k).update k fun _ => {}

theorem slotAt_cutHead (hi : i < s.length) (hk : k < s.length) (hik : i ≠ k) :
    (s.cutHead i k).slotAt j = if j = k then {} else if j = i then s.slotAt k else s.slotAt j := by
  simp only [cutHead]
  rw [slotAt_update (by simpa using hk), slotAt_update (by simpa using hi), slotAt_update hi]
  by_cases hj : j = i
  case pos => simp [hj, hik]
  case neg => simp [hj]

theorem cuts_head (h : s.Chained bucket free) (hb : b < s.buckets)
    (hc : bucket b = b * DirDepth :: k :: l) :
    Cuts s (s.cutHead (b * DirDepth) k) bucket free (b * DirDepth :: l) b k := by
  have hb' := h.buckets.chains b hb
  have hd := hc ▸ hb'.nodup
  obtain ⟨hi, hi₀⟩ := hb'.occupied (b * DirDepth) (by simp [hc])
  obtain ⟨hk, hk₀⟩ := hb'.occupied k (by simp [hc])
  simp only [List.nodup_cons, List.mem_cons, not_or] at hd
  obtain ⟨⟨hik, hil⟩, hkl, _⟩ := hd
  have hh : k % DirDepth ≠ 0 := fun h₀ => hik (hb'.tail k (by simp [hc]) h₀).symm
  have hs (j) := slotAt_cutHead (j := j) hi hk hik
  have hlen : (s.cutHead (b * DirDepth) k).length = s.length := by simp [cutHead]
  have hne {j} (h₁ : j ≠ b * DirDepth) (h₂ : j ≠ k) :
      (s.cutHead (b * DirDepth) k).slotAt j = s.slotAt j := by rw [hs, if_neg h₂, if_neg h₁]
  have hhead : (s.cutHead (b * DirDepth) k).slotAt (b * DirDepth) = s.slotAt k := by
    rw [hs, if_neg hik, if_pos rfl]
  have hz : ((s.cutHead (b * DirDepth) k).dirAt k).offset = 0 := by
    simp only [dirAt, hs, if_true]
    exact Dir.offset_clear {}
  have hl {j} (hj : j ∈ l) : (s.cutHead (b * DirDepth) k).slotAt j = s.slotAt j :=
    hne (by rintro rfl; exact hil hj) (by rintro rfl; exact hkl hj)
  have hout {j} (hj : j ∉ bucket b) : (s.cutHead (b * DirDepth) k).slotAt j = s.slotAt j :=
    hne (by rintro rfl; simp [hc] at hj) (by rintro rfl; simp [hc] at hj)
  refine ⟨hlen, h.buckets.replace hb hlen ⟨.inr ⟨l, rfl, ?_⟩, ?_, ?_⟩ ?_ ?_ ?_ ?_, ?_,
    ⟨hlen ▸ hk, hh, by simp [hs], h.chain.not_mem (.inl hk₀)⟩, ?_, fun j => hout⟩
  case refine_1 =>
    obtain ⟨l', he, hpath⟩ := hb'.chain.resolve_left (by simp [hc])
    have he : l' = k :: l := by simpa [hc] using he.symm
    obtain ⟨_, _, hp⟩ := he ▸ hpath
    rw [show (s.cutHead (b * DirDepth) k).next (b * DirDepth) = s.next k by
      simp only [next, dirAt, hhead]]
    exact hp.congr fun j hj => by simp only [next, dirAt, hl hj]
  case refine_2 =>
    intro j hj
    rw [hlen]
    cases List.mem_cons.mp hj
    case inl hj =>
      simp only [dirAt, hj, hhead]
      exact ⟨hi, hk₀⟩
    case inr hj =>
      simp only [dirAt, hl hj]
      exact hb'.occupied j (by simp [hc, hj])
  case refine_3 => exact fun j hj => hb'.tail j (by simp [hc] at hj ⊢; tauto)
  case refine_4 => exact fun j hj => .inl (by simp [hc] at hj ⊢; tauto)
  case refine_5 =>
    intro j hj hj'
    have : j = k := by simp [hc] at hj hj'; tauto
    exact this ▸ hz
  case refine_6 => exact fun j hj _ => by simp only [dirAt, hout hj]
  case refine_7 => exact fun j hj _ _ _ => by simp only [next, dirAt, hout hj]
  case refine_8 =>
    refine h.chain.agree hlen rfl fun j hj => ?_
    have hj' : j ∉ bucket b := fun hc => h.chain.not_mem (.inl (hb'.occupied j hc).2) hj
    simp only [dirAt, hout hj']
  case refine_9 =>
    intro j hj hd hj₀
    by_cases hjk : j = k
    case pos => simp [hjk]
    case neg =>
      have : j ≠ b * DirDepth := by rintro rfl; simp at hd
      simp only [dirAt, hne this hjk] at hj₀
      exact List.mem_cons_of_mem k <| h.all j (hlen ▸ hj) hd hj₀

-- The only entry of a bucket is its head.
def cutSole (s : Segment) (i : Nat) : Segment :=
  (s.update i ({ · with identity := 0 })).update i fun x => { x with dir := x.dir.clear }

theorem slotAt_cutSole (hi : i < s.length) :
    (s.cutSole i).slotAt j = if j = i then {} else s.slotAt j := by
  simp only [cutSole]
  rw [slotAt_update (by simpa using hi), slotAt_update hi]
  by_cases hj : j = i <;> simp [hj, Dir.clear]

theorem chained_cutSole (h : s.Chained bucket free) (hb : b < s.buckets)
    (hc : bucket b = [b * DirDepth]) :
    (s.cutSole (b * DirDepth)).Chained (Function.update bucket b []) free := by
  have ⟨hi, hi₀⟩ := (h.buckets.chains b hb).occupied (b * DirDepth) (by simp [hc])
  have hs (j) := slotAt_cutSole (j := j) hi
  have hlen : (s.cutSole (b * DirDepth)).length = s.length := by simp [cutSole]
  have hz : (s.cutSole (b * DirDepth)).dirAt (b * DirDepth) = {} := by simp [dirAt, hs]
  have hne {j} (hj : j ≠ b * DirDepth) : (s.cutSole (b * DirDepth)).dirAt j = s.dirAt j := by
    simp only [dirAt, hs, if_neg hj]
  refine ⟨h.buckets.replace hb hlen ⟨.inl ⟨rfl, ?_, ?_⟩, by simp, by simp⟩ (by simp) ?_ ?_ ?_, ?_, ?_⟩
  case refine_1 => exact hz ▸ Dir.offset_clear {}
  case refine_2 => simp only [next, hz]; rfl
  case refine_3 =>
    intro j hj _
    have : j = b * DirDepth := by simpa [hc] using hj
    rw [this, hz]
    exact Dir.offset_clear {}
  case refine_4 => exact fun j hj _ => by rw [hne (by simpa [hc] using hj)]
  case refine_5 => exact fun j _ _ hj _ => by simp only [next, hne hj]
  case refine_6 =>
    refine h.chain.agree hlen rfl fun j hj => hne ?_
    rintro rfl
    exact h.chain.not_mem (.inr (by simp)) hj
  case refine_7 =>
    intro j hj hd hj₀
    rw [hne (by rintro rfl; simp at hd)] at hj₀
    exact h.all j (hlen ▸ hj) hd hj₀

end Cuts

def items (s : Segment) (l : List Nat) : List Slot := l.map fun i => (s.slotAt i).item

-- The free chain is not empty, or slot 0, whose tag and phase a push on the empty free chain
-- overwrites, is not in use.
def Spare (s : Segment) (free : List Nat) : Prop := free ≠ [] ∨ (s.dirAt 0).offset = 0

-- The effect of `dirDelete` on the entry between `l₁` and `l₂`.
structure Deletes (s s' : Segment) (bucket bucket' : Nat → List Nat) (free l₁ l₂ : List Nat) (b : Nat) :
    Prop where
  length : s'.length = s.length
  chains : ∀ b' ≠ b, bucket' b' = bucket b'
  count  : (bucket' b).length = (l₁ ++ l₂).length
  items  : s.Spare free ∨ l₁ ++ l₂ = [] →
    s'.items (bucket' b) = s.items (l₁ ++ l₂) ∧
    ∀ b' < s.buckets, b' ≠ b → ∀ j ∈ bucket b', s'.slotAt j = s.slotAt j

theorem Cuts.freeChainSet (hc : Cuts s s₁ bucket free l b x) (h : s.Chained bucket free)
    (hb : b < s.buckets) (hl : l ⊆ bucket b) :
    ∃ s', s₁.freeChainSet x = .ok s' ∧ s'.Chained (Function.update bucket b l) (x :: free) ∧
      s'.length = s.length ∧
      (s.Spare free → (∀ j ∈ l, s'.slotAt j = s₁.slotAt j) ∧
        ∀ b' < s.buckets, b' ≠ b → ∀ j ∈ bucket b', s'.slotAt j = s.slotAt j) := by
  have ⟨hx, hd, hs, hm⟩ := hc.slot
  have ⟨s', he, h', hlen, hs'⟩ := freeChainSet_chained hc.buckets hc.chain hx hd hs hm hc.all
  have hb₁ : s₁.buckets = s.buckets := by simp [Segment.buckets, hc.length]
  refine ⟨s', he, h', hlen.trans hc.length, fun hp => ?_⟩
  -- Slot 0 is not among the slots of a bucket if it is not in use.
  have hz : ∀ b' < s.buckets, ∀ j ∈ bucket b', free = [] → j ≠ 0 := by
    rintro b' hb' j hj hf rfl
    exact ((h.buckets.chains b' hb').occupied 0 hj).2 (hp.resolve_left (· hf))
  constructor
  case left =>
    intro j hj
    exact hs' b (hb₁ ▸ hb) j (by simpa using hj) (hz b hb j (hl hj))
  case right =>
    intro b' hb' hne j hj
    rw [hs' b' (hb₁ ▸ hb') j (by simpa [hne] using hj) (hz b' hb' j hj)]
    exact hc.slots j fun hm => hne (h.buckets.disjoint _ hb' _ hb j hj hm)

theorem dirDelete_tail (h : s.Chained bucket free) (hb : b < s.buckets)
    (hc : bucket b = b * DirDepth :: l₁ ++ i :: l₂)
    (hp : s.dirProbe tag b = ⟨true, i, (b * DirDepth :: l₁).getLastD 0, s.dirAt i⟩) :
    ∃ s' bucket', s.dirDelete tag b = .ok (i, s') ∧ s'.Chained bucket' (i :: free) ∧
      Deletes s s' bucket bucket' free (b * DirDepth :: l₁) l₂ b := by
  have hk := h.buckets.chains b hb
  have hcut := cuts_tail h hb hc
  have hl : b * DirDepth :: l₁ ++ l₂ ⊆ bucket b := fun j hj => by simp [hc] at hj ⊢; tauto
  have ⟨s', he, h', hlen, hs⟩ := hcut.freeChainSet h hb hl
  have hm : (b * DirDepth :: l₁).getLastD 0 ∈ bucket b := by
    rw [List.getLastD_eq_getLast?, List.getLast?_eq_getLast_of_ne_nil (by simp), hc]
    exact List.mem_append_left _ (List.getLast_mem _)
  have ⟨hi, _⟩ := hk.occupied i (by simp [hc])
  have ⟨hp', _⟩ := hk.occupied _ hm
  have hd := List.nodup_append.mp (hc ▸ hk.nodup)
  have hi₁ : i ∉ b * DirDepth :: l₁ := fun hc => hd.2.2 i hc i (by simp) rfl
  have hih : i ≠ b * DirDepth := fun hc => hi₁ (by simp [hc])
  have hip : i ≠ (b * DirDepth :: l₁).getLastD 0 := by
    intro hc
    rw [List.getLastD_eq_getLast?, List.getLast?_eq_getLast_of_ne_nil (by simp)] at hc
    exact hi₁ (hc ▸ List.getLast_mem _)
  refine ⟨s', _, ?_, h', hlen, fun b' hb' => Function.update_of_ne hb' _ _, by simp, fun hsp => ?_⟩
  case refine_1 =>
    have hg : (s.update i ({ · with identity := 0 })).get i = .ok (s.dirAt i) := by
      rw [get_eq (by simpa using hi), dirAt_update hi, if_pos rfl]
      rfl
    have hset := modify_setNext (s := s.update i ({ · with identity := 0 }))
      (i := (b * DirDepth :: l₁).getLastD 0) (v := (s.dirAt i).next) (by simpa using hp')
    have hclear := modify_eq (g := Dir.clear) (s := (s.update i ({ · with identity := 0 })).setNext
      ((b * DirDepth :: l₁).getLastD 0) (s.dirAt i).next) (i := i) (by simpa using hi)
    simp only [dirDelete, hp, modifySlot_eq hi, hih, hg, hset, hclear, bind, Except.bind,
      Bool.not_true, Bool.false_eq_true, if_false]
    rw [cutTail] at he
    rw [he]
    rfl
  case refine_2 =>
    have ⟨hs₁, hs₂⟩ := hs (hsp.resolve_right (by simp))
    refine ⟨?_, hs₂⟩
    rw [Function.update_self]
    refine List.map_congr_left fun j hj => ?_
    have hji : j ≠ i := by
      rintro rfl
      cases List.mem_append.mp hj
      case inl hj => exact hi₁ hj
      case inr hj => exact (List.nodup_cons.mp hd.2.1).1 hj
    rw [hs₁ j hj, slotAt_cutTail hi hp' hip, if_neg hji]
    split <;> rfl

theorem dirDelete_head (h : s.Chained bucket free) (hb : b < s.buckets)
    (hc : bucket b = b * DirDepth :: l)
    (hp : s.dirProbe tag b = ⟨true, b * DirDepth, 0, s.dirAt (b * DirDepth)⟩) :
    ∃ s' bucket' free', s.dirDelete tag b = .ok (b * DirDepth, s') ∧ s'.Chained bucket' free' ∧
      (free ≠ [] → free' ≠ []) ∧ Deletes s s' bucket bucket' free [] l b := by
  have hk := h.buckets.chains b hb
  have ⟨hi, _⟩ := hk.occupied (b * DirDepth) (by simp [hc])
  have ⟨l', he, hpath⟩ := hk.chain.resolve_left (by simp [hc])
  have he : l' = l := by simpa [hc] using he.symm
  subst he
  have hg : (s.update (b * DirDepth) ({ · with identity := 0 })).get (b * DirDepth) =
      .ok (s.dirAt (b * DirDepth)) := by
    rw [get_eq (by simpa using hi), dirAt_update hi, if_pos rfl]
    rfl
  simp only [dirDelete, hp, modifySlot_eq hi, hg, bind, Except.bind, Bool.not_true,
    Bool.false_eq_true, if_false, if_true]
  cases l'
  case nil =>
    have hn : (s.dirAt (b * DirDepth)).next.toNat = 0 := hpath
    have hclear := modify_eq (g := Dir.clear)
      (s := s.update (b * DirDepth) ({ · with identity := 0 })) (i := b * DirDepth) (by simpa using hi)
    refine ⟨_, _, free, ?_, chained_cutSole h hb hc, id, by simp [cutSole],
      fun b' hb' => Function.update_of_ne hb' _ _, by simp, fun _ => ⟨by simp [items], ?_⟩⟩
    case refine_1 =>
      simp only [hn, hclear, ne_eq, not_true_eq_false, if_false]
      rfl
    case refine_2 =>
      intro b' hb' hne j hj
      rw [slotAt_cutSole hi, if_neg]
      rintro rfl
      exact hne (h.buckets.disjoint _ hb' _ hb _ hj (by simp [hc]))
  case cons k l =>
    have ⟨hn, hk₀, _⟩ := hpath
    have hn : (s.dirAt (b * DirDepth)).next.toNat = k := hn
    have ⟨hk', _⟩ := hk.occupied k (by simp [hc])
    have hd := hc ▸ hk.nodup
    simp only [List.nodup_cons, List.mem_cons, not_or] at hd
    have ⟨⟨hik, hil⟩, hkl, _⟩ := hd
    have ⟨s', he, h', hlen, hs⟩ := (cuts_head h hb hc).freeChainSet h hb
      (fun j hj => by simp [hc] at hj ⊢; tauto)
    refine ⟨s', _, k :: free, ?_, h', by simp, hlen, fun b' hb' => Function.update_of_ne hb' _ _,
      by simp, fun hsp => ?_⟩
    case refine_1 =>
      have hg' := get_eq (s := s.update (b * DirDepth) ({ · with identity := 0 })) (i := k)
        (by simpa using hk')
      have hm₁ := modifySlot_eq (s := s.update (b * DirDepth) ({ · with identity := 0 }))
        (i := b * DirDepth) (f := fun _ => s.slotAt k) (by simpa using hi)
      have hm₂ := modifySlot_eq
        (s := (s.update (b * DirDepth) ({ · with identity := 0 })).update (b * DirDepth)
          fun _ => s.slotAt k) (i := k) (f := fun _ => {}) (by simpa using hk')
      rw [cutHead] at he
      simp only [hn, hk₀, hg', slotAt_update_ne (Ne.symm hik), hm₁, hm₂, he, ne_eq,
        not_false_eq_true, if_true]
      rfl
    case refine_2 =>
      have ⟨hs₁, hs₂⟩ := hs (hsp.resolve_right (by simp))
      refine ⟨?_, hs₂⟩
      have hout {j} (hj : j ∈ l) : s'.slotAt j = s.slotAt j := by
        rw [hs₁ j (by simp [hj]), slotAt_cutHead hi hk' hik, if_neg, if_neg]
        case hnc => rintro rfl; exact hil hj
        case hnc => rintro rfl; exact hkl hj
      have hhead : s'.slotAt (b * DirDepth) = s.slotAt k := by
        rw [hs₁ _ (by simp), slotAt_cutHead hi hk' hik, if_neg hik, if_pos rfl]
      rw [Function.update_self]
      simp only [items, List.map_cons, List.nil_append, hhead]
      exact congrArg _ <| List.map_congr_left fun j hj => by rw [hout hj]

theorem dirDelete_miss (hp : (s.dirProbe tag b).hit = false) :
    s.dirDelete tag b = .ok ((s.dirProbe tag b).index, s) := by
  simp [dirDelete, hp, pure, Except.pure]

theorem dirDelete_spec (h : s.Chained bucket free) (hb : b < s.buckets)
    (hc : bucket b = l₁ ++ i :: l₂)
    (hp : s.dirProbe tag b = ⟨true, i, l₁.getLastD 0, s.dirAt i⟩) :
    ∃ s' bucket' free', s.dirDelete tag b = .ok (i, s') ∧ s'.Chained bucket' free' ∧
      (free ≠ [] → free' ≠ []) ∧ Deletes s s' bucket bucket' free l₁ l₂ b := by
  have ⟨l, he, _⟩ := (h.buckets.chains b hb).chain.resolve_left (by simp [hc])
  cases l₁
  case nil =>
    have hi : i = b * DirDepth ∧ l₂ = l := by simpa [hc] using he
    rw [hi.1] at hp hc ⊢
    exact dirDelete_head h hb hc hp
  case cons j l₁ =>
    have hj : j = b * DirDepth := by
      rw [he] at hc
      exact (List.cons.inj hc).1.symm
    subst hj
    have ⟨s', bucket', he, h', hd⟩ := dirDelete_tail h hb hc hp
    exact ⟨s', bucket', _, he, h', by simp, hd⟩

theorem spare_iff (h : s.Chained bucket free) (hb : 0 < s.buckets) :
    s.Spare free ↔ free ≠ [] ∨ bucket 0 = [] := by
  rw [Spare, (h.buckets.chains 0 hb).eq_nil_iff, Nat.zero_mul]

theorem Deletes.spare (hd : Deletes s s' bucket bucket' free l₁ l₂ b) (h : s.Chained bucket free)
    (h' : s'.Chained bucket' free') (hf : free ≠ [] → free' ≠ []) (hb : b < s.buckets)
    (hne : bucket b ≠ []) (hs : s.Spare free) : s'.Spare free' := by
  have hb' : s'.buckets = s.buckets := by simp [Segment.buckets, hd.length]
  rw [spare_iff h' (by omega)]
  rw [spare_iff h (by omega)] at hs
  refine hs.imp hf fun h₀ => ?_
  rw [hd.chains 0 (by rintro rfl; exact hne h₀), h₀]

section RemovePhase

def tags (s : Segment) (l : List Nat) : List (BitVec 16) := (s.items l).map (·.dir.tag)

theorem tags_eq : s.tags l = l.map fun j => (s.dirAt j).tag := by
  simp only [tags, items, List.map_map]
  rfl

-- No entry of the given phase shares its bucket with another one, or the free chain can take slots.
def Quiet (s : Segment) (free : List Nat) (phase : Bool) (l : List Nat) : Prop :=
  s.Spare free ∨ ∀ j ∈ l, (s.dirAt j).phase = phase → l = [j]

-- The effect of `removePhase` on the bucket `b`.
structure Sweeps (s s' : Segment) (bucket bucket' : Nat → List Nat) (free free' : List Nat)
    (phase : Bool) (b : Nat) : Prop where
  length : s'.length = s.length
  chains : ∀ b' ≠ b, bucket' b' = bucket b'
  spare  : s.Spare free → s'.Spare free'
  swept  : ∀ j ∈ bucket' b, (s'.dirAt j).phase ≠ phase
  items  : (s.tags (bucket b)).Nodup → s.Quiet free phase (bucket b) →
    s'.items (bucket' b) = (s.items (bucket b)).filter (·.dir.phase ≠ phase) ∧
    ∀ b' < s.buckets, b' ≠ b → ∀ j ∈ bucket b', s'.slotAt j = s.slotAt j

variable {phase : Bool}

theorem filter_items :
    (s.items l).filter (·.dir.phase ≠ phase) = s.items (l.filter fun j => (s.dirAt j).phase ≠ phase) := by
  simp only [items, List.filter_map]
  rfl

-- The other buckets keep their entries.
theorem Sweeps.items_of_ne (h : Sweeps s s' bucket bucket' free free' phase b)
    (ht : (s.tags (bucket b)).Nodup) (hq : s.Quiet free phase (bucket b)) {b' : Nat}
    (hb : b' < s.buckets) (hne : b' ≠ b) : s'.items (bucket' b') = s.items (bucket b') := by
  rw [h.chains b' hne]
  exact List.map_congr_left fun j hj => by rw [(h.items ht hq).2 b' hb hne j hj]

theorem Sweeps.refl (hc : ∀ j ∈ bucket b, (s.dirAt j).phase ≠ phase) :
    Sweeps s s bucket bucket free free phase b := by
  refine ⟨rfl, fun _ _ => rfl, id, hc, fun _ _ => ⟨?_, fun _ _ _ _ _ => rfl⟩⟩
  rw [filter_items, List.filter_eq_self.mpr (by simpa using hc)]

-- A round that deletes an entry of the given phase, before the walk starts again.
theorem Sweeps.delete (hd : Deletes s s₁ bucket bucket₁ free l₁ l₂ b)
    (hs : Sweeps s₁ s' bucket₁ bucket' free₁ free' phase b) (hc : bucket b = l₁ ++ i :: l₂)
    (hp : (s.tags (bucket b)).Nodup → (s.dirAt i).phase = phase)
    (hsp : s.Spare free → s₁.Spare free₁) :
    Sweeps s s' bucket bucket' free free' phase b := by
  have hb : s₁.buckets = s.buckets := by simp [Segment.buckets, hd.length]
  refine ⟨hs.length.trans hd.length, fun b' hb' => (hs.chains b' hb').trans (hd.chains b' hb'),
    hs.spare ∘ hsp, hs.swept, fun ht hq => ?_⟩
  have hi : (s.dirAt i).phase = phase := hp ht
  have hq' : s.Spare free ∨ l₁ ++ l₂ = [] := by
    refine hq.imp_right fun h => ?_
    have := h i (by simp [hc]) hi
    rw [hc] at this
    cases l₁ <;> simp at this
    exact this
  obtain ⟨hd₁, hd₂⟩ := hd.items hq'
  have ht₁ : (s₁.tags (bucket₁ b)).Nodup := by
    rw [tags, hd₁]
    refine ht.sublist ?_
    rw [hc]
    exact ((List.Sublist.refl l₁).append (List.sublist_cons_self i l₂)).map _ |>.map _
  have hq₁ : s₁.Quiet free₁ phase (bucket₁ b) := by
    cases hq'
    case inl h => exact .inl (hsp h)
    case inr h =>
      have := hd.count
      rw [h] at this
      exact .inr (by simp [List.eq_nil_of_length_eq_zero this])
  obtain ⟨hs₁, hs₂⟩ := hs.items ht₁ hq₁
  constructor
  case left =>
    have hi' : (s.slotAt i).item.dir.phase = phase := hi
    rw [hs₁, hd₁, hc]
    simp [Segment.items, hi']
  case right =>
    intro b' hb' hne j hj
    rw [hs₂ b' (hb.symm ▸ hb') hne j (hd.chains b' hne ▸ hj)]
    exact hd₂ b' hb' hne j hj

theorem removePhaseFrom_spec (h : s.Chained bucket free) (hb : b < s.buckets)
    (hc : bucket b = l₁ ++ i :: l₂) (hl : ∀ j ∈ l₁, (s.dirAt j).phase ≠ phase)
    (hn : (bucket b).length * (bucket b).length + l₂.length + 1 < n) :
    ∃ s' bucket' free', removePhaseFrom phase b n i s = .ok s' ∧ s'.Chained bucket' free' ∧
      Sweeps s s' bucket bucket' free free' phase b := by
  induction n generalizing s bucket free l₁ i l₂
  case zero => omega
  case succ n ih =>
    have hk := h.buckets.chains b hb
    obtain ⟨hi, hi₀⟩ := hk.occupied i (by simp [hc])
    simp only [removePhaseFrom, get_eq hi, hi₀, bind, Except.bind, if_false]
    by_cases hp : (s.dirAt i).phase = phase
    case pos =>
      -- The walk deletes the first entry of this tag, and starts again at the head.
      obtain ⟨k₁, k, k₂, hk', hk₁, hkt, hprobe⟩ := (dirProbe_spec hk (head_lt h.buckets.dvd hb)
        (s.dirAt i).tag).resolve_left fun hm => hm.1 i (by simp [hc]) rfl
      obtain ⟨s₁, bucket₁, free₁, he, h₁, hf, hd⟩ := dirDelete_spec h hb hk' hprobe
      have hb₁ : b < s₁.buckets := by simpa [Segment.buckets, hd.length] using hb
      have hkp : (s.tags (bucket b)).Nodup → (s.dirAt k).phase = phase := by
        intro ht
        have hinj : ∀ x ∈ bucket b, ∀ y ∈ bucket b, (s.dirAt x).tag = (s.dirAt y).tag → x = y := by
          rw [tags_eq] at ht
          exact List.inj_on_of_nodup_map ht
        rw [hinj k (by simp [hk']) i (by simp [hc]) hkt, hp]
      have hlen : (bucket₁ b).length + 1 = (bucket b).length := by
        rw [hd.count, hk']
        simp
        omega
      have hstep : ∃ s' bucket' free', removePhaseFrom phase b n (b * DirDepth) s₁ = .ok s' ∧
          s'.Chained bucket' free' ∧ Sweeps s₁ s' bucket₁ bucket' free₁ free' phase b := by
        have hk₁ := h₁.buckets.chains b hb₁
        cases hk₁.chain
        case inl he =>
          obtain ⟨n, rfl⟩ : ∃ m, n = m + 1 := ⟨n - 1, by omega⟩
          refine ⟨s₁, bucket₁, free₁, ?_, h₁, .refl (by simp [he.1])⟩
          simp [removePhaseFrom, get_eq (head_lt h₁.buckets.dvd hb₁), he.2.1, bind, Except.bind, pure,
            Except.pure]
        case inr he =>
          obtain ⟨l, he, _⟩ := he
          refine ih h₁ hb₁ (List.nil_append (b * DirDepth :: l) ▸ he) (by simp) ?_
          have : l.length + 1 = (bucket₁ b).length := by simp [he]
          have : (bucket b).length * (bucket b).length =
              (bucket₁ b).length * (bucket₁ b).length + 2 * (bucket₁ b).length + 1 := by
            rw [← hlen]
            ring
          omega
      obtain ⟨s', bucket', free', he', h', hs⟩ := hstep
      refine ⟨s', bucket', free', ?_, h', .delete hd hs hk' hkp ?_⟩
      case refine_1 => simp [hp, he, he']
      case refine_2 => exact hd.spare h h₁ hf hb (by simp [hc])
    case neg =>
      have hl' : ∀ j ∈ l₁ ++ [i], (s.dirAt j).phase ≠ phase := by
        intro j hj
        cases List.mem_append.mp hj
        case inl hj => exact hl j hj
        case inr hj => exact List.mem_singleton.mp hj ▸ hp
      obtain ⟨l, he, hpath⟩ := hk.chain.resolve_left (by simp [hc])
      have hnext : s.next i = l₂.head?.getD 0 := by
        cases l₁
        case nil =>
          have : b * DirDepth = i ∧ l = l₂ := by simpa [hc] using he.symm
          exact this.1 ▸ this.2 ▸ hpath.head?_eq.symm
        case cons l₁ =>
          have : l = l₁ ++ i :: l₂ := by simpa [hc] using (congrArg List.tail he).symm
          obtain ⟨_, _, hp⟩ := Path.append_iff.mp (this ▸ hpath)
          exact hp.2.2.head?_eq.symm
      have hz : (s.dirAt i).next = 0 ↔ s.next i = 0 := by simp [next, ← BitVec.toNat_inj]
      cases l₂
      case nil =>
        refine ⟨s, bucket, free, ?_, h, .refl (by simpa [hc] using hl')⟩
        have : (s.dirAt i).next = 0 := hz.mpr hnext
        simp [hp, this, pure, Except.pure]
      case cons k l₂ =>
        have hc' : bucket b = (l₁ ++ [i]) ++ k :: l₂ := by simp [hc]
        obtain ⟨s', bucket', free', hr, h', hs⟩ := ih h hb hc' hl' (by simp at hn ⊢; omega)
        refine ⟨s', bucket', free', ?_, h', hs⟩
        have hk₀ : k ≠ 0 := by
          intro hk₀
          have := hk.tail k (by simp [hc]) (by simp [hk₀])
          have hd := hk.nodup
          have hh : b * DirDepth ∈ l₁ ++ [i] := by
            rw [hc'] at he
            cases l₁
            all_goals
              have := (List.cons.inj he).1
              simp [this]
          rw [hc'] at hd
          exact (List.nodup_append.mp hd).2.2 _ hh k (by simp) this.symm
        have hn' : (s.dirAt i).next ≠ 0 := fun hc => hk₀ (hnext.symm.trans (hz.mp hc))
        have hk' : (s.dirAt i).next.toNat = k := hnext
        simp only [hp, hn', if_false, hk', hr]

theorem remove_spec (phase : Bool) (h : s.Chained bucket free) (hb : b < s.buckets) :
    ∃ s' bucket' free', removePhase.remove phase s b = .ok s' ∧ s'.Chained bucket' free' ∧
      Sweeps s s' bucket bucket' free free' phase b := by
  have hk := h.buckets.chains b hb
  unfold removePhase.remove
  cases hk.chain
  case inl he =>
    obtain ⟨n, hn⟩ : ∃ n, (s.length + 1) * (s.length + 1) = n + 1 := ⟨_, rfl⟩
    refine ⟨s, bucket, free, ?_, h, .refl (by simp [he.1])⟩
    simp [hn, removePhaseFrom, get_eq (head_lt h.buckets.dvd hb), he.2.1, bind, Except.bind, pure,
      Except.pure]
  case inr he =>
    have ⟨l, he, _⟩ := he
    refine removePhaseFrom_spec h hb (List.nil_append (b * DirDepth :: l) ▸ he) (by simp) ?_
    have := hk.length_le
    have : l.length + 1 = (bucket b).length := by simp [he]
    nlinarith

-- The buckets are swept in ascending order. A bucket that is not swept yet keeps its entries.
theorem remove_fold (phase : Bool) (h : s.Chained bucket free) (hl : ∀ b ∈ l, b < s.buckets) (hd : l.Nodup) :
    ∃ s' bucket' free', List.foldlM (removePhase.remove phase) s l = .ok s' ∧
      s'.Chained bucket' free' ∧ s'.length = s.length ∧ (s.Spare free → s'.Spare free') ∧
      ((∀ b < s.buckets, (s.tags (bucket b)).Nodup) →
        (∀ b < s.buckets, s.Quiet free phase (bucket b)) →
        ∀ b < s.buckets, s'.items (bucket' b) =
          if b ∈ l then (s.items (bucket b)).filter (·.dir.phase ≠ phase) else s.items (bucket b)) := by
  induction l generalizing s bucket free
  case nil => exact ⟨s, bucket, free, rfl, h, rfl, id, by simp⟩
  case cons b l hi =>
    have hb := hl b (by simp)
    obtain ⟨hd₁, hd₂⟩ := List.nodup_cons.mp hd
    obtain ⟨s₁, bucket₁, free₁, he₁, h₁, hs₁⟩ := remove_spec phase h hb
    have hb₁ : s₁.buckets = s.buckets := by simp [Segment.buckets, hs₁.length]
    obtain ⟨s', bucket', free', he, h', hlen, hsp, hit⟩ := hi h₁ (fun b hb => hb₁ ▸ hl b (by simp [hb])) hd₂
    refine ⟨s', bucket', free', ?_, h', hlen.trans hs₁.length, hsp ∘ hs₁.spare, fun ht hq b' hb' => ?_⟩
    case refine_1 =>
      rw [List.foldlM_cons, he₁]
      exact he
    case refine_2 =>
      obtain ⟨hs₂, hs₃⟩ := hs₁.items (ht b hb) (hq b hb)
      have hn {b'} (hb' : b' < s.buckets) (hne : b' ≠ b) :
          bucket₁ b' = bucket b' ∧ ∀ j ∈ bucket b', s₁.slotAt j = s.slotAt j :=
        ⟨hs₁.chains b' hne, hs₃ b' hb' hne⟩
      have hi₁ {b'} (hb' : b' < s.buckets) (hne : b' ≠ b) :
          s₁.items (bucket₁ b') = s.items (bucket b') := hs₁.items_of_ne (ht b hb) (hq b hb) hb' hne
      have hres := hit ?_ ?_ b' (hb₁ ▸ hb')
      case refine_1 =>
        intro c hc
        by_cases hcb : c = b
        case pos =>
          rw [hcb, tags, hs₂]
          exact (ht b hb).sublist (List.filter_sublist.map _)
        case neg =>
          rw [tags, hi₁ (hb₁ ▸ hc) hcb]
          exact ht c (hb₁ ▸ hc)
      case refine_2 =>
        intro c hc
        by_cases hcb : c = b
        case pos => exact .inr fun j hj hp => absurd hp (hs₁.swept j (hcb ▸ hj))
        case neg =>
          obtain ⟨hc₁, hc₂⟩ := hn (hb₁ ▸ hc) hcb
          refine (hq c (hb₁ ▸ hc)).imp hs₁.spare fun h j hj hp => ?_
          rw [hc₁] at hj ⊢
          exact h j hj (by simpa only [dirAt, hc₂ j hj] using hp)
      rw [hres]
      by_cases hcb : b' = b
      case pos =>
        subst hcb
        simp only [hd₁, if_false, List.mem_cons, true_or, if_true, hs₂]
      case neg => simp only [hi₁ hb' hcb, List.mem_cons, hcb, false_or]

theorem removePhase_spec (h : s.Chained bucket free) (phase : Bool) :
    ∃ s' bucket' free', s.removePhase phase = .ok s' ∧ s'.Chained bucket' free' ∧
      s'.length = s.length ∧
      ((∀ b < s.buckets, (s.tags (bucket b)).Nodup) →
        (∀ b < s.buckets, s.Quiet free phase (bucket b)) →
        ∀ b < s.buckets, s'.items (bucket' b) =
          (s.items (bucket b)).filter (·.dir.phase ≠ phase)) := by
  have ⟨s', bucket', free', he, h', hlen, _, hi⟩ := remove_fold phase
    (l := List.range s.buckets) h (fun b hb => List.mem_range.mp hb) List.nodup_range
  refine ⟨s', bucket', free', he, h', hlen, fun ht hq b hb => ?_⟩
  rw [hi ht hq b hb, if_pos (List.mem_range.mpr hb)]

end RemovePhase

end Bakemono.Segment
