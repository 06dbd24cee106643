import Bakemono.Fill.Replace

namespace Bakemono

namespace Ring

variable {κ μ : Type} {s : Ring κ μ} {r : Record}

-- The place of a record that has been overwritten is not valid, whatever size is asked for.
theorem Layout.valid_of_live (h : s.Layout) (hp : s.Placed r) (hl : s.Live r) :
    s.allocationValid ⟨r.offset, r.generation, 0⟩ 1 = true := by
  have ⟨hw, hlo, hhi, hv⟩ := allocationValid_iff.mp (h.allocationValid_of_live hp hl)
  have ⟨_, _, hpos, _⟩ := hp
  have ho : r.offset = r.allocation.offset := rfl
  have hg : r.generation = r.allocation.generation := rfl
  rw [allocationValid_iff]
  simp only [ho, hg]
  omega

end Ring

namespace Stripe

variable {H : Hash} {s s' : Stripe} {e : Event} {k : Bytes}

-- The key belongs to the family of the selector.
def Listed (s : Stripe) (selector k : Bytes) : Prop :=
  k ∈ s.index.keysOf selector ∨ k ∈ s.index.gathered (selector ++ .text "\nrange:manifest:")

-- The object is neither written again nor refreshed nor evacuated, and nothing is published for the lap
-- which is being started.
structure Rests (k : Bytes) (s : Stripe) (e : Event) : Prop where
  aliases : ¬e.Aliases s
  commits : ∀ r, e ≠ .publish k r
  copies  : ∀ v r, v.key = k → e ≠ .evacuate v r

theorem Rests.publication (h : Rests k s e) (r : Record) : e.publication ≠ some (k, r) := by
  intro hp
  cases e
  case publish key r' =>
    cases hp
    exact h.commits r rfl
  case evacuate v r' =>
    cases hp
    exact h.copies v r rfl rfl
  all_goals cases hp

-- The head keeps its record.
theorem Rests.entry (h : Rests k s e) (hs : Step H s e s') {x' : Entry (Record × Mark)}
    (hx : s'.dirs k = some x') : ∃ x next, s.dirs k = some x ∧ x' = x.relink next :=
  (hs.entry_cases hx).resolve_right fun ⟨_, hp, _⟩ => h.publication _ hp

theorem Rests.entry_run (hr : Run (Step H) (Rests k) s s') {x' : Entry (Record × Mark)}
    (hx : s'.dirs k = some x') : ∃ x next, s.dirs k = some x ∧ x' = x.relink next := by
  induction hr generalizing x'
  case refl => exact ⟨x', x'.dir.next, hx, rfl⟩
  case step hs ho hi =>
    have ⟨x₁, next, hx₁, he⟩ := ho.entry hs hx
    have ⟨x, _, hx, he₁⟩ := hi hx₁
    exact ⟨x, next, hx, by rw [he, he₁]; rfl⟩

-- The head of the object is gone or has been overwritten.
def Expired (s : Stripe) (k : Bytes) : Prop := ∀ x, s.dirs k = some x → s.ring.Dead x.mark.1

namespace Expired

theorem step (h : s.Expired k) (ht : s.Traced H) (hs : Step H s e s') (ho : Rests k s e) :
    s'.Expired k := by
  intro x' hx'
  have ⟨x, next, hx, he⟩ := ho.entry hs hx'
  rw [he]
  exact hs.dead ht (ht.ring.entry k x hx).2.1 (h x hx)

theorem run (h : s.Expired k) (ht : s.Traced H) (hr : Run (Step H) (Rests k) s s') :
    s'.Expired k ∧ s'.Traced H :=
  hr.invariant (I := fun s => s.Expired k ∧ s.Traced H)
    (fun _ _ _ h hs ho => ⟨h.1.step h.2 hs ho, h.2.step hs ho.aliases⟩) ⟨h, ht⟩

theorem unreadable (h : s.Expired k) (ht : s.Traced H) {x : Entry (Record × Mark)}
    (hx : s.dirs k = some x) : s.ring.dirValid x.dir = false := by
  by_contra hc
  exact ht.not_dead hx (by simpa using hc) (h x hx)

end Expired

end Stripe

namespace Cache

variable {n : Nat} {H : Hash} {c₀ c₁ c' : Cache n} {t : FillToken n} {i : Fin n} {k : Bytes}
  {heads : List (FillHead n)} {s₂ : Stripe}

-- Nothing of what the token knows about the object has changed until it is used: the place and the
-- link of its head, its writer, and that it belongs to the family. A derived token does not know
-- about manifests.
structure Unmoved (c₀ c₁ : Cache n) (t : FillToken n) (i : Fin n) (k : Bytes) : Prop where
  head     : c₁.fillHead i k = c₀.fillHead i k
  listed   : (c₁ i).Listed t.selector k
  selector : t.fences.parent = none ∨ k ∈ (c₀ i).index.keysOf t.selector

-- The token has seen the family.
theorem Captures.mem_snapshot (h : c₀.Captures H t) (hl : (c₀ i).Listed t.selector k)
    (hs : t.fences.parent = none ∨ k ∈ (c₀ i).index.keysOf t.selector) :
    c₀.fillHead i k ∈ t.snapshot ++ t.rangeSnapshot := by
  rw [List.mem_append]
  cases h
  case begin key selector h =>
    simp only [beginFill, Except.bind_eq_ok, Except.check_bind_eq_ok] at h
    obtain ⟨_, _, _, heads₁, h₁, heads₂, h₂, he⟩ := h
    cases he
    exact hl.imp (fun hl => (mem_fillSnapshotLocked h₁).mpr ⟨i, k, hl, rfl⟩)
      fun hl => (mem_rangeSnapshotLocked h₂).mpr ⟨i, k, hl, rfl⟩
  case derive parent key h =>
    simp only [deriveFillLocked, Except.bind_eq_ok, Except.check_bind_eq_ok] at h
    obtain ⟨_, _, _, _, _, heads₁, h₁, he⟩ := h
    cases he
    have hk := hs.resolve_left fun h => by cases h
    exact .inl ((mem_fillSnapshotLocked h₁).mpr ⟨i, k, hk, rfl⟩)

theorem mem_familyLocked (h : c₁.familyLocked H t = .ok heads) (hl : (c₁ i).Listed t.selector k) :
    c₁.fillHead i k ∈ heads := by
  have ⟨_, heads₁, heads₂, h₁, h₂, he⟩ := familyLocked_eq_ok.mp h
  rw [he, List.mem_append]
  exact hl.imp (fun hl => (mem_fillSnapshotLocked h₁).mpr ⟨i, k, hl, rfl⟩)
    fun hl => (mem_rangeSnapshotLocked h₂).mpr ⟨i, k, hl, rfl⟩

-- A head which has not moved is only left alone if it has been overwritten.
theorem dead_of_not_removes {x₀ x₁ : Entry (Record × Mark)} {next : BitVec 16}
    (h₀ : (c₀ i).Traced H) (h₁ : (c₁ i).Traced H) (ht : c₀.Captures H t)
    (hx₀ : (c₀ i).dirs k = some x₀) (hx₁ : (c₁ i).dirs k = some x₁) (he : x₁ = x₀.relink next)
    (hm : c₁.fillHead i k ∈ t.snapshot ++ t.rangeSnapshot)
    (hr : removes (c₁ i) (t.wraps i) (t.snapshot ++ t.rangeSnapshot) (c₁.fillHead i k) = false) :
    (c₁ i).ring.Dead x₁.mark.1 := by
  refine .inr fun hl => ?_
  obtain ⟨hd, hf, _⟩ := h₁.ring.entry k x₁ hx₁
  have hv := h₁.ring.toLayout.valid_of_live (h₁.ring.placed _ hf) hl
  have hrec : x₁.mark.1 = x₀.mark.1 := by rw [he]; rfl
  obtain ⟨hd₀, _, hr₀⟩ := h₀.ring.entry k x₀ hx₀
  have hphase : x₁.dir.phase = x₀.dir.phase := by rw [hd.phase, hrec, hd₀.phase]
  -- The generation follows from the phase at the time at which the token was captured.
  have hg := h₀.generation_eq hx₀
  have hwrap : t.wraps i = (c₀ i).ring.generation := congrFun ht.spec.1 i
  have hdir : (c₁.fillHead i k).dir = some x₁.dir := by simp [fillHead, hx₁]
  rw [h₀.ring.phase, ← hphase, ← hwrap, ← hrec] at hg
  rw [← hd.offset] at hv
  simp only [removes, if_pos hm, hdir] at hr
  by_cases hp : x₁.dir.phase = odd (t.wraps i)
  case pos =>
    rw [if_pos hp] at hr hg
    rw [hg, hv] at hr
    cases hr
  case neg =>
    rw [if_neg hp] at hr hg
    rw [hg, hv] at hr
    split at hr
    case isFalse => cases hr
    case isTrue hz =>
      obtain ⟨hlt, _⟩ := hr₀.other_phase (by rwa [← hd₀.phase, ← hphase, ← hwrap])
      rw [← hwrap, hz] at hlt
      cases hlt

theorem expired_invalidateStripe (h₀ : (c₀ i).Traced H) (h₁ : (c₁ i).Traced H) (ht : c₀.Captures H t)
    (hl : (c₀ i).Listed t.selector k) (hr : Run (Stripe.Step H) (Stripe.Rests k) (c₀ i) (c₁ i))
    (hf : c₁.familyLocked H t = .ok heads) (hm : (c₁ i).dirs k = none ∨ Unmoved c₀ c₁ t i k)
    (hn : (c₁ i).fragmentsNum ≠ 0) : (invalidateStripe H t heads i (c₁ i)).1.Expired k := by
  intro x hx
  have hshrink : Stripe.Shrinks _ (invalidateStripe H t heads i (c₁ i)).1 := shrinks_invalidateHeads
  have ⟨x₁, next, hx₁, he⟩ := hshrink.dirs k x hx
  have hx₁ : (c₁ i).dirs k = some x₁ := hx₁
  have hm := hm.resolve_left (by simp [hx₁])
  have ⟨x₀, _, hx₀, he₁⟩ := Stripe.Rests.entry_run hr hx₁
  have hsnap := hm.head ▸ ht.mem_snapshot hl hm.selector
  cases hrem : removes (c₁ i) (t.wraps i) (t.snapshot ++ t.rangeSnapshot) (c₁.fillHead i k)
  case true =>
    have hgone : (invalidateStripe H t heads i (c₁ i)).1.dirs k = none :=
      dirs_invalidateStripe_self (mem_familyLocked hf hm.listed) rfl hrem hn
    cases hgone.symm.trans hx
  case false =>
    have hd := dead_of_not_removes h₀ h₁ ht hx₀ hx₁ he₁ hsnap hrem
    rw [hshrink.ring, he]
    exact hd

-- The head cannot be read as long as it is not written again.
theorem unreadable_invalidateStripe (h₀ : (c₀ i).Traced H) (ht : c₀.Captures H t)
    (hl : (c₀ i).Listed t.selector k) (h₁ : Run (Stripe.Step H) (Stripe.Rests k) (c₀ i) (c₁ i))
    (hm : (c₁ i).dirs k = none ∨ Unmoved c₀ c₁ t i k) (hn : (c₁ i).fragmentsNum ≠ 0)
    (hf : c₁.familyLocked H t = .ok heads)
    (h₂ : Run (Stripe.Step H) (Stripe.Rests k) (invalidateStripe H t heads i (c₁ i)).1 s₂)
    {x : Entry (Record × Mark)} (hx : s₂.dirs k = some x) : s₂.ring.dirValid x.dir = false := by
  have t₁ : (c₁ i).Traced H := h₁.invariant (fun _ _ _ h hs ho => h.step hs ho.aliases) h₀
  have hexp := expired_invalidateStripe h₀ t₁ ht hl h₁ hf hm hn
  have hrun : Run (Stripe.Step H) (fun _ e => e = .other) (c₁ i) (invalidateStripe H t heads i (c₁ i)).1 :=
    run_invalidateStripe (closing_of_familyLocked hf i)
  have t' : (invalidateStripe H t heads i (c₁ i)).1.Traced H :=
    hrun.invariant (fun _ _ _ h hs ho => h.step hs (Stripe.Event.not_aliases (ho ▸ rfl))) t₁
  obtain ⟨hexp, t₂⟩ := hexp.run t' h₂
  exact hexp.unreadable t₂ hx

-- In a run in which no publication aliases the phase of the lap that is being started and no call
-- overwrites a slot of the directory, an object which was committed when the token was captured and has
-- been neither written again nor refreshed nor evacuated since then cannot be read after
-- `InvalidateFill`, if nothing else of what the token knows about it has changed.
theorem invalidateFill_retires {K : KeySpace H} {b₀ b₁ : Fin n → Backed Stripe} {b₂ : Backed Stripe}
    {dm : DirManager} {d : Dir} {writers : Fin n → List Nat}
    (h₀ : ∃ b : Backed Stripe, b.state.Opened H ∧ b.Mirrored K id ∧
      Run (Backed.Step K id (Stripe.Step H)) (fun b e => ¬e.Aliases b.state) b (b₀ i))
    (ht : Captures H (fun i => (b₀ i).state) t) (hl : (b₀ i).state.Listed t.selector k)
    (h₁ : Run (Backed.Step K id (Stripe.Step H)) (fun b => Stripe.Rests k b.state) (b₀ i) (b₁ i))
    (hm : (b₁ i).dirMgr.shown H k = none ∨
      Unmoved (fun i => (b₀ i).state) (fun i => (b₁ i).state) t i k)
    (hn : (b₁ i).state.fragmentsNum ≠ 0) (hk : k ∈ K.keys)
    (hi : invalidateFill H (fun i => (b₁ i).state) t = (none, c', writers))
    (hd : DirManager.Performs K (invalidateCalls H (fun i => (b₁ i).state) t i) (b₁ i).dirMgr dm)
    (h₂ : Run (Backed.Step K id (Stripe.Step H)) (fun b => Stripe.Rests k b.state)
      ⟨(c' i).follow H dm, dm⟩ b₂)
    (hx : b₂.dirMgr.shown H k = some d) : b₂.state.ring.dirValid d = false := by
  have other (s : Stripe) : Stripe.Rests k s .other := ⟨Stripe.Event.not_aliases rfl, nofun, nofun⟩
  obtain ⟨b, ho, hmir, hr⟩ := h₀
  have hr₀ : Run (Stripe.Step H) (fun s e => ¬e.Aliases s) b.state (b₀ i).state :=
    Backed.run_state hr fun _ => Stripe.Event.not_aliases rfl
  have m₁ := Backed.mirrored_run h₁ (Backed.mirrored_run hr hmir)
  have hm : (b₁ i).state.dirs k = none ∨ Unmoved (fun i => (b₀ i).state) (fun i => (b₁ i).state) t i k :=
    hm.imp_left fun h => Option.map_eq_none_iff.mp ((m₁.shows k hk).trans h)
  cases hf : familyLocked H (fun i => (b₁ i).state) t
  case error =>
    simp only [invalidateFill, hf] at hi
    cases hi
  case ok heads =>
    simp only [invalidateFill, hf] at hi
    cases hi
    have m₂ := Backed.mirrored_run h₂ (Backed.settles (agrees_invalidateFill hf m₁.toAgrees hd) rfl).1
    obtain ⟨x, hfind, rfl⟩ := m₂.exists_finds hk hx
    have hrun := (Run.single (.drop _ Stripe.drops_follow) (other _)).trans (Backed.run_state h₂ other)
    exact unreadable_invalidateStripe (ho.run hr₀) ht hl (Backed.run_state h₁ other) hm hn hf hrun hfind.entry

section Sample

open DirManager (Performs)
open Stripe (sampleStripe sampleWriter sampleLogged sampleLinks sampleMoved sampleCopy sampleFill SampleStep)

-- The object has been written, and its writer is gone.
def sampleRetained : Stripe :=
  .finished (sampleLogged 1) 0 (commits sampleWriter (sampleCopy 20512 2 1))

theorem backed_sampleRetained : Run SampleStep (fun b e => ¬e.Aliases b.state) ⟨sampleStripe, .init 4⟩
    ⟨sampleRetained, sampleLinks⟩ := by
  let Ok : Backed Stripe → Stripe.Event → Prop := fun b e => ¬e.Aliases b.state
  have ho {e : Stripe.Event} (he : e.publication = none) (b : Backed Stripe) : Ok b e :=
    Stripe.Event.not_aliases he
  have hent := Stripe.enters_sampleLog 1
  have hlog := (Run.single (Stripe.backed_sampleOpen 1) (ho rfl _)).trans (Stripe.backed_sampleLog 1 (ho rfl))
  have h := hlog.step (hent.alone.stripe hent.step hent.calls hent.performs)
    fun ⟨_, _, _, hlt, _⟩ => absurd (Stripe.flushes_sampleLog 1).2.idle hlt.ne'
  have hfin : Run SampleStep (fun _ e => e = .other) ⟨sampleLogged 1, _⟩ ⟨sampleRetained, _⟩ :=
    Stripe.backed_finished hent.alone rfl rfl rfl
  exact h.trans (hfin.mono fun b e (he : e = .other) => he ▸ ho rfl b)

theorem ready_sampleRetained : sampleRetained.Ready 2 20585 := { Stripe.ready_sampleLogged 1 with }

theorem alone_sampleRetained : Backed.Alone sampleLinks sampleRetained :=
  (Stripe.enters_sampleLog 1).alone.congr rfl

theorem published_sampleRetained : sampleRetained.Published 1 (Stripe.sampleEntry (Stripe.sampleLog 1) 1) :=
  { (Stripe.enters_sampleLog 1).entry with }

theorem settled_sampleRetained : Settled sampleRetained := ⟨rfl, rfl, rfl, rfl⟩

theorem parent_beginFill {c : Cache n} {token : FillToken n} (ht : c.beginFill H [97] [97] = .ok token) :
    token.selector = [97] ∧ token.fences.parent = none := by
  simp only [beginFill, Except.bind_eq_ok, Except.check_bind_eq_ok] at ht
  obtain ⟨_, _, _, _, _, _, _, he⟩ := ht
  cases he
  exact ⟨rfl, rfl⟩

-- The token that is captured after that retires the object.
theorem invalidateFill_retires_sample : ∃ (b : Backed Stripe) (t : FillToken 1) (d : Dir) (c' : Cache 1)
    (writers : Fin 1 → List Nat) (dm : DirManager),
    sampleStripe.Opened sampleHash ∧
    Run SampleStep (fun b e => ¬e.Aliases b.state) ⟨sampleStripe, .init 4⟩ b ∧
    Captures sampleHash (fun _ => b.state) t ∧ b.dirMgr.shown sampleHash [97] = some d ∧
    b.state.ring.dirValid d = true ∧
    invalidateFill sampleHash (fun _ => b.state) t = (none, c', writers) ∧
    Performs Backed.sampleSpace (invalidateCalls sampleHash (fun _ => b.state) t 0) b.dirMgr dm ∧
    ∀ d, dm.shown sampleHash [97] = some d → ((c' 0).follow sampleHash dm).ring.dirValid d = false := by
  have hr := backed_sampleRetained
  have hx := published_sampleRetained
  have hfind := (Backed.mirrored_run hr Stripe.mirrored_sampleStripe).finds Backed.mem_sampleSpace hx.entry
  have hv := ready_sampleRetained.dirValid (by rw [hx.offset]; decide) (by rw [hx.offset]; decide) (by decide)
    hx.phase
  have hs := settled_sampleRetained
  have ⟨t, ht⟩ := hs.beginFill (H := sampleHash)
  have ⟨hsel, hparent⟩ := parent_beginFill ht
  have hf := hs.family ht rfl rfl
  have ⟨dm, hp⟩ := exists_performs alone_sampleRetained rfl hf
  have ⟨c', writers, hinv⟩ : ∃ c' writers,
      invalidateFill sampleHash (fun _ => sampleRetained) t = (none, c', writers) := by
    simp only [invalidateFill, hf]
    exact ⟨_, _, rfl⟩
  have hl : sampleRetained.Listed t.selector [97] := by
    rw [hsel]
    exact .inl hs.mem_keysOf
  let b : Fin 1 → Backed Stripe := fun _ => ⟨sampleRetained, sampleLinks⟩
  have hcapture : Captures sampleHash (fun i => (b i).state) t := .begin [97] [97] ht
  have hrests : Run (Backed.Step Backed.sampleSpace id (Stripe.Step sampleHash))
    (fun b => Stripe.Rests [97] b.state) (b 0) (b 0) := .refl
  have hretire (d : Dir) := invalidateFill_retires (d := d)
    ⟨_, Stripe.opened_sampleStripe, Stripe.mirrored_sampleStripe, hr⟩ hcapture hl hrests
    (.inr ⟨rfl, hl, .inl hparent⟩) (by decide : 4 ≠ 0) Backed.mem_sampleSpace hinv hp .refl
  exact ⟨⟨sampleRetained, sampleLinks⟩, t, _, c', writers, dm, Stripe.opened_sampleStripe, hr,
    .begin [97] [97] ht, hfind.shown, hv, hinv, hp, hretire⟩

theorem Settled.moves {s s' : Stripe} {task : FlushTask} {v : EvacuationRecord} {g : Nat} {version : UInt64}
    (h : Settled s) (hs : s' = { s.lap task with ring := s'.ring, evacuations := s'.evacuations }) :
    Settled (s'.moves v g version) :=
  ⟨(congrArg Stripe.closing hs).trans h.closing, (congrArg Stripe.generation hs).trans h.generation,
    (congrArg Stripe.policyEpochs hs).trans h.policies, (congrArg Stripe.index hs).trans h.index⟩

-- A token which does not recognise the head of the object asks the directory for it, and that is all.
theorem keeps_sample {s : Stripe} {t : FillToken 1}
    (hf : familyLocked H (fun _ : Fin 1 => s) t = .ok [fillHead (fun _ : Fin 1 => s) 0 [97]])
    (hr : removes s (t.wraps 0) (t.snapshot ++ t.rangeSnapshot) (fillHead (fun _ : Fin 1 => s) 0 [97]) =
      false) :
    ∃ c' writers, invalidateFill H (fun _ : Fin 1 => s) t = (none, c', writers) ∧
      invalidateCalls H (fun _ : Fin 1 => s) t 0 = [.get [97]] ∧ (c' 0).ring = s.ring := by
  have hone : [fillHead (fun _ : Fin 1 => s) 0 [97]].filter (·.stripe = 0) =
      [fillHead (fun _ : Fin 1 => s) 0 [97]] := rfl
  simp only [invalidateFill, invalidateCalls, hf, hone, List.filter_cons, hr, List.filter_nil]
  refine ⟨_, _, rfl, rfl, ?_⟩
  simp only [invalidateStripe, hone, List.foldl_cons, List.foldl_nil, invalidateHead]
  rw [if_neg]
  exact Bool.not_eq_true _ ▸ hr

-- A head at another place is not that of the snapshot.
theorem not_removes_sample {s s' : Stripe} {t : FillToken 1} {x x' : Entry (Record × Mark)}
    (ht : beginFill H (fun _ : Fin 1 => s) [97] [97] = .ok t) (hx : s.dirs [97] = some x)
    (hx' : s'.dirs [97] = some x') (ho : x'.dir.offset ≠ x.dir.offset) :
    removes s' (t.wraps 0) (t.snapshot ++ t.rangeSnapshot) (fillHead (fun _ : Fin 1 => s') 0 [97]) =
      false := by
  have hn : fillHead (fun _ : Fin 1 => s') 0 [97] ∉ t.snapshot ++ t.rangeSnapshot := by
    intro hm
    have heq := congrArg FillHead.dir ((Captures.begin [97] [97] ht).spec.2 _ hm)
    simp only [fillHead, hx', hx, Option.map_some, Option.some.injEq] at heq
    exact ho (congrArg Dir.offset heq)
  rw [removes, if_neg hn]
  simp [fillHead, hx']

-- After the token has been captured, the object is evacuated. Its head is not recognised.
theorem invalidateFill_misses : ∃ (b₀ b₁ : Backed Stripe) (t : FillToken 1) (d : Dir) (c' : Cache 1)
    (writers : Fin 1 → List Nat),
    sampleStripe.Opened sampleHash ∧
    Run SampleStep (fun b e => ¬e.Aliases b.state) ⟨sampleStripe, .init 4⟩ b₀ ∧
    Captures sampleHash (fun _ => b₀.state) t ∧ b₀.state.Listed t.selector [97] ∧
    b₀.dirMgr.shown sampleHash [97] ≠ none ∧
    Run SampleStep (fun b e => ¬e.Aliases b.state ∧ ∀ r, e ≠ .publish [97] r) b₀ b₁ ∧
    invalidateFill sampleHash (fun _ => b₁.state) t = (none, c', writers) ∧
    Performs Backed.sampleSpace (invalidateCalls sampleHash (fun _ => b₁.state) t 0) b₁.dirMgr b₁.dirMgr ∧
    b₁.dirMgr.shown sampleHash [97] = some d ∧ (c' 0).ring.dirValid d = true := by
  let Ok : Backed Stripe → Stripe.Event → Prop := fun b e => ¬e.Aliases b.state ∧ ∀ r, e ≠ .publish [97] r
  have ho : ∀ b, Ok b .flush := fun _ => ⟨Stripe.Event.not_aliases rfl, nofun⟩
  have h₀ := backed_sampleRetained
  have hm₀ := Backed.mirrored_run h₀ Stripe.mirrored_sampleStripe
  have hx := published_sampleRetained
  have hs := settled_sampleRetained
  have hr₀ := ready_sampleRetained
  have ha₀ := alone_sampleRetained
  have hdisk : (Stripe.sampleLog 1).ring.disk.Holds 20512 (Stripe.sampleDocument 1) :=
    Stripe.holds_lap_sampleAddition
  have hdisk : sampleRetained.ring.disk.Holds 20512 (Stripe.sampleDocument 1) := hdisk
  obtain ⟨t, ht⟩ := hs.beginFill (H := sampleHash)
  generalize sampleRetained = s at *
  obtain ⟨s₂, v, h₂, hev, hr₂, hs₂, hk⟩ := hx.evacuate hr₀ hdisk ha₀ hm₀ ho .refl
  have h₂ : Run SampleStep Ok ⟨s, sampleLinks⟩ ⟨s₂.moves v 3 1, sampleMoved⟩ :=
    h₂.step hev ⟨fun ⟨_, _, _, hlt, _⟩ => absurd hr₂.idle hlt.ne', nofun⟩
  have hset : Settled (s₂.moves v 3 1) := hs.moves hs₂
  have hready : (s₂.moves v 3 1).Ready 3 20685 := { hr₂ with }
  have hd₁ : (s₂.moves v 3 1).dirs [97] =
      some ⟨(sampleMoved.get sampleHash [97]).dir, sampleCopy 20612 3 1, v.mark⟩ := by
    rw [Stripe.moves, Stripe.dirs_put, hk]
    exact Table.set_self _
  have hoff : (sampleMoved.get sampleHash [97]).dir.offset = 20612 := by
    rw [Stripe.get_sampleMoved]
    decide +kernel
  have hphase : (sampleMoved.get sampleHash [97]).dir.phase = odd 3 := by
    rw [Stripe.get_sampleMoved]
    decide +kernel
  have hfind := (Backed.mirrored_run h₂ hm₀).finds Backed.mem_sampleSpace hd₁
  generalize s₂.moves v 3 1 = s₁ at *
  have hrem := not_removes_sample ht hx.entry hd₁ (by rw [hoff, hx.offset]; decide)
  obtain ⟨c', writers, hinv, hcalls, hring⟩ := keeps_sample (hset.family ht hs.generation hs.policies) hrem
  refine ⟨⟨s, sampleLinks⟩, ⟨s₁, sampleMoved⟩, t, _, c', writers, Stripe.opened_sampleStripe, h₀,
    .begin [97] [97] ht, ?_, ?_, h₂, hinv, ?_, hfind.shown, ?_⟩
  case refine_1 =>
    rw [(parent_beginFill ht).1]
    exact .inl hs.mem_keysOf
  case refine_2 =>
    intro hnone
    cases hnone.symm.trans (hm₀.finds Backed.mem_sampleSpace hx.entry).shown
  case refine_3 =>
    rw [hcalls]
    exact .get Backed.mem_sampleSpace .nil
  case refine_4 =>
    rw [hring]
    exact hready.dirValid (by rw [hoff]; decide) (by rw [hoff]; decide) (by decide) hphase

end Sample

end Cache
end Bakemono
