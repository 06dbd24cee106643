import Bakemono.Lib.Chain
import Bakemono.Directory.Segment

open Chain

namespace Bakemono.Segment

variable {s s' s'' : Segment} {i j : Nat} {f : Slot → Slot}

@[simp] theorem length_update : (s.update i f).length = s.length := by
  simp [update, length]

theorem slotAt_update (h : i < s.length) :
    (s.update i f).slotAt j = if j = i then f (s.slotAt j) else s.slotAt j := by
  simp only [update, slotAt, List.getD_eq_getElem?_getD, List.getElem?_modify]
  by_cases hj : j = i
  case pos =>
    subst hj
    have : s.slots[j]? = some s.slots[j] := List.getElem?_eq_getElem h
    simp [this]
  case neg => simp [hj, Ne.symm hj]

theorem slotAt_update_self (h : i < s.length) : (s.update i f).slotAt i = f (s.slotAt i) := by
  simp [slotAt_update h]

theorem slotAt_update_ne (hj : j ≠ i) : (s.update i f).slotAt j = s.slotAt j := by
  simp [update, slotAt, Ne.symm hj]

theorem dirAt_update_ne (hj : j ≠ i) : (s.update i f).dirAt j = s.dirAt j := by
  simp only [dirAt, slotAt_update_ne hj]

theorem dirAt_update (h : i < s.length) :
    (s.update i f).dirAt j = if j = i then (f (s.slotAt j)).dir else s.dirAt j := by
  simp only [dirAt, slotAt_update h]
  split <;> rfl

theorem get_eq (h : i < s.length) : s.get i = .ok (s.dirAt i) := if_pos h

theorem modifySlot_eq (h : i < s.length) : s.modifySlot i f = .ok (s.update i f) := if_pos h

theorem modify_eq {g : Dir → Dir} (h : i < s.length) :
    s.modify i g = .ok (s.update i fun x => { x with dir := g x.dir }) := if_pos h

-- The chain of a bucket, from its head to the last entry.
structure IsBucket (s : Segment) (b : Nat) (l : List Nat) : Prop where
  chain    : (l = [] ∧ (s.dirAt (b * DirDepth)).offset = 0 ∧ s.next (b * DirDepth) = 0) ∨
    (∃ l', l = b * DirDepth :: l' ∧ Path s.next (s.next (b * DirDepth)) l' 0)
  occupied : ∀ i ∈ l, i < s.length ∧ (s.dirAt i).offset ≠ 0
  tail     : ∀ i ∈ l, i % DirDepth = 0 → i = b * DirDepth

-- All occupied entries are in the chain of exactly one bucket.
structure HasBuckets (s : Segment) (bucket : Nat → List Nat) : Prop where
  dvd      : DirDepth ∣ s.length
  bound    : s.length ≤ 2 ^ 16
  chains   : ∀ b < s.buckets, s.IsBucket b (bucket b)
  disjoint : ∀ b < s.buckets, ∀ b' < s.buckets, ∀ i, i ∈ bucket b → i ∈ bucket b' → b = b'
  cover    : ∀ i < s.length, (s.dirAt i).offset ≠ 0 → ∃ b < s.buckets, i ∈ bucket b

-- The free chain.
structure HasFree (s : Segment) (free : List Nat) : Prop where
  links : Doubly s.next s.prev s.freeStart.toNat free
  slots : ∀ i ∈ free, i < s.length ∧ i % DirDepth ≠ 0 ∧ (s.dirAt i).offset = 0

-- All entries that are neither occupied nor heads are in the free chain.
def AllFree (s : Segment) (free : List Nat) : Prop :=
  ∀ i < s.length, i % DirDepth ≠ 0 → (s.dirAt i).offset = 0 → i ∈ free

-- The structural invariant of a segment.
structure Chained (s : Segment) (bucket : Nat → List Nat) (free : List Nat) : Prop where
  buckets : s.HasBuckets bucket
  chain   : s.HasFree free
  all     : s.AllFree free

-- Assigning the link fields of an entry. These are the only writes to entries that stay in use.
def setNext (s : Segment) (i : Nat) (v : BitVec 16) : Segment :=
  s.update i fun x => { x with dir := x.dir.setNext v }

def setPrev (s : Segment) (i : Nat) (v : BitVec 16) : Segment :=
  s.update i fun x => { x with dir := x.dir.setPrev v }

section Links

variable {v : BitVec 16}

@[simp] theorem length_setNext : (s.setNext i v).length = s.length := length_update
@[simp] theorem length_setPrev : (s.setPrev i v).length = s.length := length_update

theorem dirAt_setNext (h : i < s.length) :
    (s.setNext i v).dirAt j = if j = i then (s.dirAt j).setNext v else s.dirAt j :=
  dirAt_update h

theorem dirAt_setPrev (h : i < s.length) :
    (s.setPrev i v).dirAt j = if j = i then (s.dirAt j).setPrev v else s.dirAt j :=
  dirAt_update h

theorem next_setNext (h : i < s.length) :
    (s.setNext i v).next j = if j = i then v.toNat else s.next j := by
  simp only [next, dirAt_setNext h]
  split <;> rfl

theorem next_setPrev (h : i < s.length) : (s.setPrev i v).next j = s.next j := by
  simp only [next, dirAt_setPrev h]
  split <;> rfl

theorem prev_setNext (h : i < s.length) : (s.setNext i v).prev j = s.prev j := by
  simp only [prev, dirAt_setNext h]
  split <;> rfl

theorem prev_setPrev (h : i < s.length) :
    (s.setPrev i v).prev j = if j = i then v.toNat else s.prev j := by
  simp only [prev, dirAt_setPrev h]
  split <;> rfl

theorem offset_setNext (h : i < s.length) :
    ((s.setNext i v).dirAt j).offset = (s.dirAt j).offset := by
  simp only [dirAt_setNext h]
  split <;> rfl

theorem offset_setPrev (h : i < s.length) :
    ((s.setPrev i v).dirAt j).offset = (s.dirAt j).offset := by
  simp only [dirAt_setPrev h]
  split <;> rfl

theorem modify_setNext (h : i < s.length) : s.modify i (·.setNext v) = .ok (s.setNext i v) :=
  modify_eq h

theorem modify_setPrev (h : i < s.length) : s.modify i (·.setPrev v) = .ok (s.setPrev i v) :=
  modify_eq h

end Links

variable {bucket : Nat → List Nat} {free : List Nat}

namespace IsBucket

variable {b : Nat} {l : List Nat}

theorem agree (h : s.IsBucket b l) (hl : s'.length = s.length)
    (hs : ∀ i, i ∈ l ∨ i = b * DirDepth →
      (s'.dirAt i).offset = (s.dirAt i).offset ∧ s'.next i = s.next i) :
    s'.IsBucket b l := by
  have ⟨ho, hn⟩ := hs (b * DirDepth) (.inr rfl)
  constructor
  case tail => exact h.tail
  case occupied =>
    intro i hi
    have ⟨hi₁, hi₂⟩ := h.occupied i hi
    exact ⟨hl ▸ hi₁, (hs i (.inl hi)).1 ▸ hi₂⟩
  case chain =>
    cases h.chain
    case inl he => exact .inl ⟨he.1, ho ▸ he.2.1, hn.trans he.2.2⟩
    case inr he =>
      have ⟨l', he, hp⟩ := he
      exact .inr ⟨l', he, hn ▸ hp.congr fun x hx => (hs x <| .inl (by simp [he, hx])).2⟩

theorem nodup (h : s.IsBucket b l) : l.Nodup := by
  cases h.chain
  case inl he => simp [he.1]
  case inr he =>
    have ⟨l', he, hp⟩ := he
    exact he ▸ List.nodup_cons.mpr ⟨hp.not_mem, hp.nodup⟩

theorem eq_nil_iff (h : s.IsBucket b l) : l = [] ↔ (s.dirAt (b * DirDepth)).offset = 0 := by
  cases h.chain
  case inl he => simp [he.1, he.2.1]
  case inr he =>
    have ⟨l', he, _⟩ := he
    have := h.occupied (b * DirDepth) (by simp [he])
    simp [he, this.2]

end IsBucket

theorem head_lt (h : DirDepth ∣ s.length) (hb : b < s.buckets) : b * DirDepth < s.length := by
  simp only [Segment.buckets, DirDepth] at *
  omega

namespace HasBuckets

-- The invariant of the buckets only depends on which entries are in use, and on the successors of
-- the entries in use and of the heads.
theorem agree (h : s.HasBuckets bucket) (hl : s'.length = s.length)
    (ho : ∀ i, (s'.dirAt i).offset = (s.dirAt i).offset)
    (hn : ∀ i, ((s.dirAt i).offset ≠ 0 ∨ i % DirDepth = 0) → s'.next i = s.next i) :
    s'.HasBuckets bucket := by
  have hb : s'.buckets = s.buckets := by simp [Segment.buckets, hl]
  constructor
  case dvd      => exact hl ▸ h.dvd
  case bound    => exact hl ▸ h.bound
  case disjoint => simpa only [hb] using h.disjoint
  case cover    => simpa only [hb, hl, ho] using h.cover
  case chains =>
    intro b hb'
    have hc := h.chains b (hb ▸ hb')
    refine hc.agree hl fun i hi => ⟨ho i, hn i ?_⟩
    cases hi
    case inl hi => exact .inl (hc.occupied i hi).2
    case inr hi => exact .inr (by simp [hi])

-- Replacing the chain of one bucket. Its new entries were not in use before, and the entries which
-- it gives up are not in use any more.
theorem replace (h : s.HasBuckets bucket) (hb : b < s.buckets) (hl : s'.length = s.length)
    (hc : s'.IsBucket b l) (hnew : ∀ i ∈ l, i ∈ bucket b ∨ (s.dirAt i).offset = 0)
    (hold : ∀ i ∈ bucket b, i ∉ l → (s'.dirAt i).offset = 0)
    (ho : ∀ i, i ∉ bucket b → i ∉ l → (s'.dirAt i).offset = (s.dirAt i).offset)
    (hn : ∀ i, i ∉ bucket b → i ∉ l → i ≠ b * DirDepth →
      ((s.dirAt i).offset ≠ 0 ∨ i % DirDepth = 0) → s'.next i = s.next i) :
    s'.HasBuckets (Function.update bucket b l) := by
  have hb' : s'.buckets = s.buckets := by simp [Segment.buckets, hl]
  -- The entries of other buckets are not in the new chain.
  have hne {b'} (hb' : b' < s.buckets) (he : b' ≠ b) {i} (hi : i ∈ bucket b') : i ∉ bucket b ∧ i ∉ l := by
    have h₁ : i ∉ bucket b := fun hm => he (h.disjoint _ hb' _ hb i hi hm)
    refine ⟨h₁, fun hm => ?_⟩
    cases hnew i hm
    case inl hm => exact h₁ hm
    case inr h₀ => exact ((h.chains b' hb').occupied i hi).2 h₀
  constructor
  case dvd   => exact hl ▸ h.dvd
  case bound => exact hl ▸ h.bound
  case chains =>
    intro b' hb''
    rw [hb'] at hb''
    by_cases he : b' = b
    case pos =>
      subst he
      rwa [Function.update_self]
    case neg =>
      rw [Function.update_of_ne he]
      have hc' := h.chains b' hb''
      have hh : b' * DirDepth ≠ b * DirDepth := by simp only [DirDepth]; omega
      have hm : ∀ i, i ∈ bucket b' ∨ i = b' * DirDepth → i ∉ bucket b ∧ i ∉ l ∧ i ≠ b * DirDepth := by
        intro i hi
        cases hi
        case inl hi =>
          have ⟨h₁, h₂⟩ := hne hb'' he hi
          refine ⟨h₁, h₂, fun hc => hh ?_⟩
          exact (hc'.tail i hi (by simp [hc])).symm.trans hc
        case inr hi =>
          have hd : i % DirDepth = 0 := by simp [hi]
          have hh' : i ≠ b * DirDepth := hi ▸ hh
          exact ⟨fun hm => hh' ((h.chains b hb).tail i hm hd), fun hm => hh' (hc.tail i hm hd), hh'⟩
      refine hc'.agree hl fun i hi => ?_
      have ⟨h₁, h₂, h₃⟩ := hm i hi
      refine ⟨ho i h₁ h₂, hn i h₁ h₂ h₃ ?_⟩
      cases hi
      case inl hi => exact .inl (hc'.occupied i hi).2
      case inr hi => exact .inr (by simp [hi])
  case disjoint =>
    intro b₁ h₁ b₂ h₂ i hi₁ hi₂
    rw [hb'] at h₁ h₂
    by_cases he₁ : b₁ = b <;> by_cases he₂ : b₂ = b
    case pos => exact he₁.trans he₂.symm
    case neg =>
      rw [he₁, Function.update_self] at hi₁
      rw [Function.update_of_ne he₂] at hi₂
      exact absurd hi₁ (hne h₂ he₂ hi₂).2
    case pos =>
      rw [he₂, Function.update_self] at hi₂
      rw [Function.update_of_ne he₁] at hi₁
      exact absurd hi₂ (hne h₁ he₁ hi₁).2
    case neg =>
      rw [Function.update_of_ne he₁] at hi₁
      rw [Function.update_of_ne he₂] at hi₂
      exact h.disjoint b₁ h₁ b₂ h₂ i hi₁ hi₂
  case cover =>
    intro i hi h₀
    rw [hl] at hi
    rw [hb']
    by_cases hm : i ∈ l
    case pos => exact ⟨b, hb, by simp [hm]⟩
    case neg =>
      have hm' : i ∉ bucket b := fun hm' => h₀ (hold i hm' hm)
      have ⟨b', hb', hi'⟩ := h.cover i hi (ho i hm' hm ▸ h₀)
      have he : b' ≠ b := by rintro rfl; exact hm' hi'
      exact ⟨b', hb', by simp [he, hi']⟩

end HasBuckets

namespace HasFree

theorem agree (h : s.HasFree free) (hl : s'.length = s.length) (hf : s'.freeStart = s.freeStart)
    (hd : ∀ i ∈ free, s'.dirAt i = s.dirAt i) : s'.HasFree free where
  links.path := hf ▸ h.links.path.congr fun x hx => by simp only [next, hd x hx]
  links.back := h.links.back.congr fun x hx => by simp only [prev, hd x hx]
  slots      := fun i hi => by simpa only [hl, hd i hi] using h.slots i hi

theorem nodup (h : s.HasFree free) : free.Nodup := h.links.path.nodup

theorem prev_lt (h : s.HasFree free) (hi : i ∈ free) : s.prev i < s.length := by
  have := h.slots i hi
  cases h.links.prev_mem hi
  case inl h₀ => omega
  case inr hm => exact (h.slots _ hm).1

theorem next_lt (h : s.HasFree free) (hi : i ∈ free) : s.next i < s.length := by
  have := h.slots i hi
  cases h.links.next_mem hi
  case inl h₀ => omega
  case inr hm => exact (h.slots _ hm).1

theorem not_mem (h : s.HasFree free) (hi : (s.dirAt i).offset ≠ 0 ∨ i % DirDepth = 0) :
    i ∉ free := by
  intro hm
  have ⟨_, h₁, h₂⟩ := h.slots i hm
  exact hi.elim (· h₂) h₁

theorem freeStart_lt (h : s.HasFree free) (hl : 0 < s.length) : s.freeStart.toNat < s.length := by
  cases free
  case nil => exact h.links.path.symm ▸ hl
  case cons i _ => exact h.links.path.1 ▸ (h.slots i (by simp)).1

end HasFree

theorem freeStart_eq_zero_iff (h : s.HasFree free) : s.freeStart = 0 ↔ free = [] := by
  have h := h.links.path
  cases free <;> simp at h
  case nil => simp [← BitVec.toNat_inj, h]
  case cons =>
    simp only [← BitVec.toNat_inj, reduceCtorEq, iff_false]
    exact h.1 ▸ h.2.1

-- Changes that are confined to the links of the entries that are not in use.
structure Kept (s s' : Segment) : Prop where
  length : s'.length = s.length
  offset : ∀ j, (s'.dirAt j).offset = (s.dirAt j).offset
  slots  : ∀ j, ((s.dirAt j).offset ≠ 0 ∨ j % DirDepth = 0) → s'.slotAt j = s.slotAt j

namespace Kept

theorem refl (s : Segment) : Kept s s := ⟨rfl, fun _ => rfl, fun _ _ => rfl⟩

theorem trans (h₁ : Kept s s') (h₂ : Kept s' s'') : Kept s s'' where
  length := h₂.length.trans h₁.length
  offset j := (h₂.offset j).trans (h₁.offset j)
  slots j hj := (h₂.slots j <| h₁.offset j ▸ hj).trans (h₁.slots j hj)

theorem hasBuckets (h : Kept s s') (hb : s.HasBuckets bucket) : s'.HasBuckets bucket :=
  hb.agree h.length h.offset fun i hi => by simp only [next, dirAt, h.slots i hi]

theorem allFree (h : Kept s s') (ha : s.AllFree free) : s'.AllFree free :=
  fun i hi hd ho => ha i (h.length ▸ hi) hd (h.offset i ▸ ho)

end Kept

-- The result of `freeChainDelete` on an entry of the free chain.
def unlinkNext (s : Segment) (i : Nat) : Segment :=
  if s.prev i = 0 then { s with freeStart := (s.dirAt i).next }
  else s.setNext (s.prev i) (s.dirAt i).next

def unlink (s : Segment) (i : Nat) : Segment :=
  if s.next i = 0 then s.unlinkNext i
  else (s.unlinkNext i).setPrev (s.next i) (s.dirAt i).prev

theorem freeChainDelete_eq (hi : i < s.length) (ho : (s.dirAt i).offset = 0)
    (hp : s.prev i < s.length) (hn : s.next i < s.length) (hne : s.prev i ≠ i) :
    s.freeChainDelete i = .ok (s.unlink i) := by
  have hz (v : BitVec 16) : v = 0 ↔ v.toNat = 0 := by simp [← BitVec.toNat_inj]
  have hv : (s.dirAt i).prev.toNat = s.prev i := rfl
  have hw : (s.dirAt i).next.toNat = s.next i := rfl
  simp only [unlink, unlinkNext, freeChainDelete, get_eq hi, ho, hz, hv, bind, Except.bind, ne_eq, not_true_eq_false,
    if_false, pure, Except.pure]
  by_cases h : s.prev i = 0
  case pos =>
    have hg : ({ s with freeStart := (s.dirAt i).next } : Segment).get i = .ok (s.dirAt i) := get_eq hi
    simp only [h, if_true, hg, hw]
    by_cases hn' : s.next i = 0
    case pos => simp [hn']
    case neg =>
      simp only [hn', not_false_eq_true, if_true, if_false]
      exact modify_setPrev hn
  case neg =>
    have hg : (s.setNext (s.prev i) (s.dirAt i).next).get i = .ok (s.dirAt i) := by
      rw [get_eq (by simpa using hi), dirAt_setNext hp, if_neg hne.symm]
    simp only [h, if_false, modify_setNext hp, hg, hw]
    by_cases hn' : s.next i = 0
    case pos => simp [hn']
    case neg =>
      simp only [hn', not_false_eq_true, if_true, if_false]
      exact modify_setPrev (by simpa using hn)

section Unlink

theorem length_unlinkNext : (s.unlinkNext i).length = s.length := by
  unfold unlinkNext
  split
  case isTrue => rfl
  case isFalse => exact length_setNext

theorem length_unlink : (s.unlink i).length = s.length := by
  unfold unlink
  split
  case isTrue => exact length_unlinkNext
  case isFalse => exact length_setPrev.trans length_unlinkNext

theorem slotAt_unlinkNext (hj : s.prev i ≠ 0 → j ≠ s.prev i) :
    (s.unlinkNext i).slotAt j = s.slotAt j := by
  unfold unlinkNext
  split
  case isTrue => rfl
  case isFalse h => exact slotAt_update_ne (hj h)

theorem slotAt_unlink (hj : s.prev i ≠ 0 → j ≠ s.prev i) (hj' : s.next i ≠ 0 → j ≠ s.next i) :
    (s.unlink i).slotAt j = s.slotAt j := by
  unfold unlink
  split
  case isTrue => exact slotAt_unlinkNext hj
  case isFalse h => exact (slotAt_update_ne (hj' h)).trans (slotAt_unlinkNext hj)

theorem freeStart_unlink :
    (s.unlink i).freeStart = if s.prev i = 0 then (s.dirAt i).next else s.freeStart := by
  unfold unlink unlinkNext
  split <;> split <;> rfl

variable (hp : s.prev i < s.length) (hn : s.next i < s.length)
include hp

theorem next_unlinkNext (hj : j ≠ 0) :
    (s.unlinkNext i).next j = if j = s.prev i then s.next i else s.next j := by
  unfold unlinkNext
  by_cases h : s.prev i = 0
  case pos => simp [h, hj]; rfl
  case neg => simp [h, next_setNext hp]; rfl

theorem prev_unlinkNext : (s.unlinkNext i).prev j = s.prev j := by
  unfold unlinkNext
  split
  case isTrue => rfl
  case isFalse => exact prev_setNext hp

theorem offset_unlinkNext : ((s.unlinkNext i).dirAt j).offset = (s.dirAt j).offset := by
  unfold unlinkNext
  split
  case isTrue => rfl
  case isFalse => exact offset_setNext hp

include hn

theorem next_unlink (hj : j ≠ 0) :
    (s.unlink i).next j = if j = s.prev i then s.next i else s.next j := by
  have hn' : s.next i < (s.unlinkNext i).length := by rwa [length_unlinkNext]
  unfold unlink
  split
  case isTrue => exact next_unlinkNext hp hj
  case isFalse => exact (next_setPrev hn').trans (next_unlinkNext hp hj)

theorem prev_unlink (hj : j ≠ 0) :
    (s.unlink i).prev j = if j = s.next i then s.prev i else s.prev j := by
  have hn' : s.next i < (s.unlinkNext i).length := by rwa [length_unlinkNext]
  unfold unlink
  by_cases h : s.next i = 0
  case pos => simp [h, hj, prev_unlinkNext hp]
  case neg => simp [h, prev_setPrev hn', prev_unlinkNext hp]; rfl

theorem offset_unlink : ((s.unlink i).dirAt j).offset = (s.dirAt j).offset := by
  have hn' : s.next i < (s.unlinkNext i).length := by rwa [length_unlinkNext]
  unfold unlink
  split
  case isTrue => exact offset_unlinkNext hp
  case isFalse => exact (offset_setPrev hn').trans (offset_unlinkNext hp)

end Unlink

theorem freeChainDelete_spec (h : s.HasFree free) (hi : i ∈ free) :
    ∃ s', s.freeChainDelete i = .ok s' ∧ s'.HasFree (free.erase i) ∧ Kept s s' := by
  have ⟨hl, _, ho⟩ := h.slots i hi
  have hp := h.prev_lt hi
  have hn := h.next_lt hi
  have hz {y} (hy : y ∈ free) : y ≠ 0 := h.links.path.ne_zero hy
  refine ⟨s.unlink i, freeChainDelete_eq hl ho hp hn (h.links.prev_ne hi), ⟨?_, ?_⟩, ?_⟩
  case refine_1 =>
    refine h.links.erase hi ?_ (fun y hy _ => next_unlink hp hn (hz hy))
      (fun y hy _ => prev_unlink hp hn (hz hy))
    rw [freeStart_unlink, apply_ite BitVec.toNat]
    rfl
  case refine_2 =>
    intro j hj
    rw [length_unlink, offset_unlink hp hn]
    exact h.slots j <| List.mem_of_mem_erase hj
  case refine_3 =>
    refine ⟨length_unlink, fun _ => offset_unlink hp hn, fun j hj => ?_⟩
    have hj : j ∉ free := h.not_mem hj
    refine slotAt_unlink ?_ ?_
    case refine_1 => exact fun h₀ hc => hj <| hc ▸ (h.links.prev_mem hi).resolve_left h₀
    case refine_2 => exact fun h₀ hc => hj <| hc ▸ (h.links.next_mem hi).resolve_left h₀

-- Putting an entry into the free chain changes links of free entries, and the word of slot 0 that
-- holds the tag and the phase if the free chain is empty.
structure Linked (s s' : Segment) (i : Nat) (free : List Nat) : Prop where
  length : s'.length = s.length
  offset : ∀ j, (s'.dirAt j).offset = (s.dirAt j).offset
  next   : ∀ j ≠ i, s'.next j = s.next j
  slots  : ∀ j ≠ i, j ∉ free → (free = [] → j ≠ 0) → s'.slotAt j = s.slotAt j

def link (s : Segment) (i : Nat) : Segment :=
  { (s.setPrev s.freeStart.toNat (.ofNat 16 i)).setNext i s.freeStart with
    freeStart := .ofNat 16 i }

theorem freeChainSet_eq (hi : i < s.length) (ho : (s.dirAt i).offset = 0)
    (hf : s.freeStart.toNat < s.length) : s.freeChainSet i = .ok (s.link i) := by
  have hs := modify_setPrev (v := .ofNat 16 i) hf
  have hn := modify_setNext (s := s.setPrev s.freeStart.toNat (.ofNat 16 i)) (i := i)
    (v := s.freeStart) (by rwa [length_setPrev])
  simp [freeChainSet, get_eq hi, ho, hs, hn, bind, Except.bind, pure, Except.pure, link]

section Link

variable (hi : i < s.length) (hf : s.freeStart.toNat < s.length)

theorem length_link : (s.link i).length = s.length :=
  length_setNext.trans length_setPrev

theorem slotAt_link (hj : j ≠ i) (hs : j ≠ s.freeStart.toNat) : (s.link i).slotAt j = s.slotAt j :=
  (slotAt_update_ne hj).trans (slotAt_update_ne hs)

include hi hf

theorem next_link : (s.link i).next j = if j = i then s.freeStart.toNat else s.next j := by
  have := next_setNext (s := s.setPrev s.freeStart.toNat (.ofNat 16 i)) (i := i) (j := j)
    (v := s.freeStart) (by rwa [length_setPrev])
  rw [next_setPrev hf] at this
  exact this

theorem prev_link :
    (s.link i).prev j = if j = s.freeStart.toNat then (BitVec.ofNat 16 i).toNat else s.prev j := by
  have := prev_setNext (s := s.setPrev s.freeStart.toNat (.ofNat 16 i)) (i := i) (j := j)
    (v := s.freeStart) (by rwa [length_setPrev])
  rw [prev_setPrev hf] at this
  exact this

theorem offset_link : ((s.link i).dirAt j).offset = (s.dirAt j).offset :=
  (offset_setNext (by rwa [length_setPrev])).trans (offset_setPrev hf)

end Link

theorem freeChainSet_spec (h : s.HasFree free) (hb : s.length ≤ 2 ^ 16) (hi : i < s.length)
    (hm : i ∉ free) (hh : i % DirDepth ≠ 0) (ho : (s.dirAt i).offset = 0) (hp : s.prev i = 0) :
    ∃ s', s.freeChainSet i = .ok s' ∧ s'.HasFree (i :: free) ∧ Linked s s' i free := by
  have hf := h.freeStart_lt (by omega)
  have hz : i ≠ 0 := by rintro rfl; simp at hh
  have hv : (BitVec.ofNat 16 i).toNat = i := by simp; omega
  have hif : i ≠ s.freeStart.toNat := by
    intro he
    cases free
    case nil => exact hz (he.trans h.links.path)
    case cons => exact hm (by simp [he, h.links.path.1])
  refine ⟨s.link i, freeChainSet_eq hi ho hf, ⟨?_, ?_⟩, ?_⟩
  case refine_1 =>
    have : (s.link i).freeStart.toNat = i := hv
    rw [this]
    refine h.links.push hz hm (by simp [next_link hi hf]) ?_ ?_ ?_
    case refine_1 => rw [prev_link hi hf, if_neg hif, hp]
    case refine_2 =>
      intro y hy
      rw [next_link hi hf, if_neg (by rintro rfl; exact hm hy)]
    case refine_3 =>
      intro y hy
      rw [prev_link hi hf, hv]
  case refine_2 =>
    intro j hj
    rw [length_link, offset_link hi hf]
    cases List.mem_cons.mp hj
    case inl he => exact he ▸ ⟨hi, hh, ho⟩
    case inr hj => exact h.slots j hj
  case refine_3 =>
    refine ⟨length_link, fun _ => offset_link hi hf, fun j hj => ?_, fun j hj hm hz => ?_⟩
    case refine_1 => rw [next_link hi hf, if_neg hj]
    case refine_2 =>
      refine slotAt_link hj fun he => ?_
      cases free
      case nil => exact hz rfl (he.trans h.links.path)
      case cons => exact hm (by simp [he, h.links.path.1])

end Bakemono.Segment
