import Bakemono.Directory.Set
import Bakemono.Write.Refinement

namespace Bakemono

namespace Segment

variable {s s' : Segment} {i : Nat}

theorem modify_eq_ok {f : Dir → Dir} (h : s.modify i f = .ok s') :
    s'.length = s.length ∧ i < s.length ∧
    ∀ j, (s'.dirAt j) = if j = i then f (s.dirAt j) else s.dirAt j := by
  by_cases hi : i < s.length
  case neg => simp [modify, modifySlot, hi] at h
  case pos =>
    rw [modify, modifySlot_eq hi] at h
    cases h
    exact ⟨length_update, hi, fun j => by rw [dirAt, slotAt_update hi]; split <;> rfl⟩

-- Whatever the state of the segment is, the new entry is at the index that is returned.
theorem dirInsert_offset {tag : BitVec 16} {bucket : Nat} {dir : Dir} {rand : Nat → Fin 10}
    (h : s.dirInsert tag bucket dir rand = .ok (i, s')) :
    i < s'.length ∧ (s'.dirAt i).offset = dir.offset := by
  simp only [dirInsert] at h
  split at h
  case isTrue =>
    simp only [Except.bind_eq_ok] at h
    obtain ⟨d, _, s₁, hm, h⟩ := h
    cases h
    obtain ⟨hl, hi, hd⟩ := modify_eq_ok hm
    exact ⟨hl ▸ hi, by simp [hd]⟩
  case isFalse =>
    simp only [Except.bind_eq_ok] at h
    obtain ⟨⟨free, s₁⟩, _, s₂, hm, h⟩ := h
    obtain ⟨hl, hi, hd⟩ := modify_eq_ok hm
    split at h
    case isTrue =>
      cases h
      exact ⟨hl ▸ hi, by simp [hd]⟩
    case isFalse =>
      simp only [Except.bind_eq_ok] at h
      obtain ⟨last, _, s₃, hm', h⟩ := h
      cases h
      obtain ⟨hl', _, hd'⟩ := modify_eq_ok hm'
      refine ⟨by omega, ?_⟩
      rw [hd', hd]
      split <;> simp

end Segment

namespace DirManager

variable {H : Hash} {dm dm' : DirManager} {key : Bytes} {i off size : Nat} {phase : Bool}
  {rand : Nat → Fin 10}

variable (H) in
-- The entry at the index that `Set` has returned for the key.
def filled (dm : DirManager) (key : Bytes) (i : Nat) : Dir :=
  let segment := (dm.position H key).segment
  (dm.segmentAt segment).dirAt (i - dm.global segment 0)

theorem offset_set (hs : dm.Shape) (he : dm.set H key off size phase rand = .ok (i, dm')) :
    (dm'.filled H key i).offset = off % 2 ^ 40 := by
  obtain ⟨hp, _⟩ := hs.position H key
  simp only [set] at he
  cases hd : Dir.make off size (dm.position H key).tag phase
  case none =>
    simp only [hd] at he
    cases he
  case some d =>
    simp only [hd, Except.bind_eq_ok] at he
    obtain ⟨⟨j, s⟩, hi, s', hm, he⟩ := he
    cases he
    obtain ⟨hl, ho⟩ := Segment.dirInsert_offset hi
    rw [Segment.modifySlot_eq hl] at hm
    cases hm
    obtain ⟨hg₁, hg₂⟩ := geometry_setSegment dm (dm.position H key).segment
      (s.update j ({ · with identity := H.docKey key }))
    have hj : dm.global (dm.position H key).segment j - dm.global (dm.position H key).segment 0 = j := by
      simp [global]
    simp only [filled, position_congr hg₁ hg₂, segmentAt_setSegment hp, if_true]
    simp only [global, hg₁] at hj ⊢
    rw [hj, Segment.dirAt, Segment.slotAt_update_self hl]
    exact ho.trans (Dir.offset_make hd)

end DirManager

namespace Stripe

-- The data area that `Init` computes.
def init (skip len : Int64) : Except Err (Nat × Nat) := do
  if skip < 0 ∨ len < 32768 ∨ skip + len < skip then throw (.other "invalid stripe bounds")
  let start := skip.toNatClampNeg + metaSize len.toNatClampNeg
  let stop := skip.toNatClampNeg + len.toNatClampNeg
  if start ≥ stop then throw (.other "stripe has no data area")
  return (start, stop)

theorem init_eq_ok {skip len : Int64} {lo hi : Nat} (h : init skip len = .ok (lo, hi)) :
    0 < lo ∧ lo < hi := by
  simp only [init, Except.check_bind_eq_ok] at h
  obtain ⟨_, hlt, he⟩ := h
  cases he
  have hm : StripeHeaderSize ≤ metaSize len.toNatClampNeg :=
    (Nat.le_add_right ..).trans Ring.sectors_bounds.1
  have : StripeHeaderSize = 24 := rfl
  omega

open AggregateWriteBuffer in
-- The places that the ring can use and the directory can describe are those below the width of an
-- offset. `Init` does not check that the data area ends there.
theorem place_representable {H : Hash} {skip len : Int64} {lo hi pos generation : Nat}
    {b : AggregateWriteBuffer} {r : Record} {dm dm' : DirManager} {key : Bytes} {i size : Nat}
    {phase : Bool} {rand : Nat → Fin 10} (hg : init skip len = .ok (lo, hi)) (hp : lo ≤ pos)
    (hb : Reaches (opened lo hi pos generation) b) (hr : r ∈ b.added) (hs : dm.Shape)
    (he : dm.set H key r.offset size phase rand = .ok (i, dm')) :
    (dm'.filled H key i).offset = r.offset ∧ (dm'.filled H key i).offset ≠ 0 ↔ r.offset < 2 ^ 40 := by
  have ⟨h₀, hlt⟩ := init_eq_ok hg
  have hlower : lo ≤ r.offset := by
    have ⟨_, l, hsteps, hrep⟩ := refines_log generation hlt hp hb
    have ⟨hl, _⟩ := (Log.valid_opened.steps hsteps).inside (hrep.added ▸ hr)
    omega
  rw [DirManager.offset_set hs he]
  constructor
  case mp =>
    intro ⟨ho, _⟩
    rw [← ho]
    exact Nat.mod_lt _ (by decide)
  case mpr =>
    intro ho
    rw [Nat.mod_eq_of_lt ho]
    exact ⟨rfl, by omega⟩

section Sample

open AggregateWriteBuffer

-- The first record of a ring.
def sampleFirst (lo hi : Nat) : AggregateWriteBuffer := ((opened lo hi lo 2).append [1]).2

theorem place_representable_sample : ∃ i dm',
    init 0 32768 = .ok (512, 32768) ∧ Reaches (opened 512 32768 512 2) (sampleFirst 512 32768) ∧
    ⟨⟨512, 2, 1⟩, [1]⟩ ∈ (sampleFirst 512 32768).added ∧
    (DirManager.init 4).set DirManager.sampleHash [97] 512 512 false (fun _ => 0) = .ok (i, dm') ∧
    (dm'.filled DirManager.sampleHash [97] i).offset = 512 := by
  have hn : 4 ≤ 4 := le_rfl
  have hg : init 0 32768 = .ok (512, 32768) := by decide +kernel
  have hb : Reaches (opened 512 32768 512 2) (sampleFirst 512 32768) :=
    .single (.add none [1] _ _ (by decide) rfl) trivial
  have hr : ⟨⟨512, 2, 1⟩, [1]⟩ ∈ (sampleFirst 512 32768).added := .head _
  have ⟨i, dm', he⟩ : ∃ i dm', (DirManager.init 4).set DirManager.sampleHash [97] 512 512 false
      (fun _ => 0) = .ok (i, dm') :=
    DirManager.set_ok (DirManager.shape_init hn) (DirManager.chained_init hn) (by decide) (by decide)
      (DirManager.setRoom_init hn)
  have h := place_representable hg le_rfl hb hr (DirManager.shape_init hn) he
  exact ⟨i, dm', hg, hb, hr, he, (h.mpr (by decide)).1⟩

-- The data area of a stripe that begins where the width of an offset ends.
theorem place_truncated : ∃ i dm',
    init 1099511627264 32768 = .ok (2 ^ 40, 2 ^ 40 + 32256) ∧
    Reaches (opened (2 ^ 40) (2 ^ 40 + 32256) (2 ^ 40) 2) (sampleFirst (2 ^ 40) (2 ^ 40 + 32256)) ∧
    ⟨⟨2 ^ 40, 2, 1⟩, [1]⟩ ∈ (sampleFirst (2 ^ 40) (2 ^ 40 + 32256)).added ∧
    (DirManager.init 4).set DirManager.sampleHash [97] (2 ^ 40) 512 false (fun _ => 0) = .ok (i, dm') ∧
    (dm'.filled DirManager.sampleHash [97] i).offset = 0 := by
  have hg : init 1099511627264 32768 = .ok (2 ^ 40, 2 ^ 40 + 32256) := by decide +kernel
  have hb : Reaches (opened (2 ^ 40) (2 ^ 40 + 32256) (2 ^ 40) 2)
      (sampleFirst (2 ^ 40) (2 ^ 40 + 32256)) :=
    .single (.add none [1] _ _ (by decide) rfl) trivial
  have hok : ((DirManager.init 4).set DirManager.sampleHash [97] (2 ^ 40) 512 false
    (fun _ => 0)).isOk = true := by decide +kernel
  cases he : (DirManager.init 4).set DirManager.sampleHash [97] (2 ^ 40) 512 false (fun _ => 0)
  case error =>
    rw [he] at hok
    cases hok
  case ok x =>
    have ho := DirManager.offset_set (DirManager.shape_init le_rfl) he
    exact ⟨x.1, x.2, hg, hb, .head _, rfl, ho⟩

end Sample

end Stripe

end Bakemono
