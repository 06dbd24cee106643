import Bakemono.Fill.Snapshot
import Bakemono.Stripe.Journal

namespace Bakemono

namespace Cache

variable {n : Nat} (H : Hash)

-- Whether `InvalidateFill` removes a head. The generation of the lap in which the head was written is
-- made of the generation in the token and of the phase of the head.
def removes (s : Stripe) (generation : Nat) (snapshots : List (FillHead n)) (head : FillHead n) : Bool :=
  if head ∈ snapshots then
    match head.dir with
    | none   => true
    | some d =>
      if d.phase = odd generation then
        s.ring.allocationValid ⟨d.offset, generation, 0⟩ 1
      else if generation = 0 then
        false
      else
        s.ring.allocationValid ⟨d.offset, generation - 1, 0⟩ 1
  else
    head.dir = none ∧ head.writer ≠ none

-- The loop body of `InvalidateFill`, which gathers the writers that are aborted later.
def invalidateHead (generation : Nat) (snapshots : List (FillHead n)) (s : Stripe × List Nat)
    (head : FillHead n) : Stripe × List Nat :=
  if removes s.1 generation snapshots head then
    (s.1.removeLocked H head.key, s.2 ++ (s.1.entries head.key).toList)
  else
    s

def invalidateStripe (t : FillToken n) (heads : List (FillHead n)) (i : Fin n) (s : Stripe) :
    Stripe × List Nat :=
  let slot := H.policySlot t.selector
  (heads.filter (·.stripe = i)).foldl
    (invalidateHead H (t.wraps i) (t.snapshot ++ t.rangeSnapshot))
    ({ s with policyEpochs := Function.update s.policyEpochs slot (s.policyEpochs slot + 1) }, [])

-- The heads of a selector and of its range manifests, if the token has not been fenced.
def familyLocked (c : Cache n) (t : FillToken n) : Except Err (List (FillHead n)) := do
  t.fences.check H c.epochs
  return (← c.fillSnapshotLocked t.selector) ++ (← c.rangeSnapshotLocked t.selector)

-- The critical section of `InvalidateFill`: its error, the stripes and the writers which are aborted
-- after it.
def invalidateFill (c : Cache n) (t : FillToken n) : Option Err × Cache n × (Fin n → List Nat) :=
  match c.familyLocked H t with
  | .error e  => (some e, c, fun _ => [])
  | .ok heads =>
    (none, fun i => (invalidateStripe H t heads i (c i)).1, fun i => (invalidateStripe H t heads i (c i)).2)

-- What `InvalidateFill` asks of the directory of a stripe.
def invalidateCalls (c : Cache n) (t : FillToken n) (i : Fin n) : List Call :=
  match c.familyLocked H t with
  | .error _  => []
  | .ok heads =>
    let heads := heads.filter (·.stripe = i)
    let removed := heads.filter (removes (c i) (t.wraps i) (t.snapshot ++ t.rangeSnapshot))
    (heads.map FillHead.key).map .get ++
      Stripe.removalCalls H (c i).fragmentsNum (removed.map FillHead.key) (c i).dirs

-- The two functions that capture a token.
inductive Captures (c : Cache n) (t : FillToken n) : Prop
  | begin (key selector : Bytes) : (c.beginFill H key selector = .ok t) → Captures c t
  | derive (parent : FillToken n) (key : Bytes) :
    (c.deriveFillLocked H parent key = .ok t) → Captures c t

variable {H} {c c' : Cache n} {t : FillToken n} {key k : Bytes} {i : Fin n}
  {heads snapshots : List (FillHead n)} {head : FillHead n} {s s' : Stripe} {g : Nat}

section Snapshots

theorem of_mem_heads {keys : DirTrie → Int → Except Err (List Bytes)} (h : c.heads keys = .ok heads)
    (hm : head ∈ heads) : head = c.fillHead head.stripe head.key := by
  refine Except.foldlM_invariant (fun heads => ∀ head ∈ heads, head = c.fillHead head.stripe head.key)
    ?_ (by simp) h head hm
  intro i heads heads' hi h head hm
  have ⟨keys, _, he⟩ := Except.bind_eq_ok.mp h
  cases he
  cases List.mem_append.mp hm
  case inl hm => exact hi head hm
  case inr hm =>
    have ⟨k, _, hk⟩ := List.mem_map.mp hm
    rw [← hk]
    rfl

theorem familyLocked_eq_ok : c.familyLocked H t = .ok heads ↔ t.fences.check H c.epochs = .ok () ∧
    ∃ heads₁ heads₂, c.fillSnapshotLocked t.selector = .ok heads₁ ∧
      c.rangeSnapshotLocked t.selector = .ok heads₂ ∧ heads = heads₁ ++ heads₂ := by
  simp only [familyLocked, Except.bind_eq_ok]
  constructor
  case mp =>
    intro ⟨_, hf, heads₁, h₁, heads₂, h₂, he⟩
    cases he
    exact ⟨hf, heads₁, heads₂, h₁, h₂, rfl⟩
  case mpr =>
    intro ⟨hf, heads₁, heads₂, h₁, h₂, he⟩
    exact ⟨(), hf, heads₁, h₁, heads₂, h₂, congrArg _ he.symm⟩

theorem of_mem_familyLocked (h : c.familyLocked H t = .ok heads) (hm : head ∈ heads) :
    head = c.fillHead head.stripe head.key := by
  have ⟨_, heads₁, heads₂, h₁, h₂, he⟩ := familyLocked_eq_ok.mp h
  rw [he, List.mem_append] at hm
  exact hm.elim (of_mem_heads h₁) (of_mem_heads h₂)

-- What a token remembers is what it has seen.
theorem Captures.spec (h : c.Captures H t) : t.wraps = c.wraps ∧
    ∀ head ∈ t.snapshot ++ t.rangeSnapshot, head = c.fillHead head.stripe head.key := by
  cases h
  case begin key selector h =>
    simp only [beginFill, Except.bind_eq_ok, Except.check_bind_eq_ok] at h
    obtain ⟨_, _, _, heads₁, h₁, heads₂, h₂, he⟩ := h
    cases he
    refine ⟨rfl, fun head hm => ?_⟩
    exact (List.mem_append.mp hm).elim (of_mem_heads h₁) (of_mem_heads h₂)
  case derive parent key h =>
    simp only [deriveFillLocked, Except.bind_eq_ok, Except.check_bind_eq_ok] at h
    obtain ⟨_, _, _, _, _, heads₁, h₁, he⟩ := h
    cases he
    exact ⟨rfl, fun head hm => of_mem_heads h₁ (by simpa using hm)⟩

end Snapshots

section Stripes

-- Places do not become valid or invalid by removals.
theorem removes_congr (h : s'.ring = { s.ring with dirs := s'.dirs }) :
    removes s' g snapshots head = removes s g snapshots head := by
  have hv (a : Allocation) : s'.ring.allocationValid a 1 = s.ring.allocationValid a 1 := by
    rw [h]
    rfl
  simp only [removes, hv]

variable {l : List (FillHead n)} {ws : List Nat}

-- A key is left alone if it is not one of a fragment that is removed.
theorem dirs_invalidateHeads
    (h : ∀ head ∈ l, removes s g snapshots head = true → ∀ idx, k ≠ H.fragmentKey head.key idx) :
    (l.foldl (invalidateHead H g snapshots) (s, ws)).1.dirs k = s.dirs k := by
  induction l generalizing s ws
  case nil => rfl
  case cons head l hi =>
    have ⟨hh, hl⟩ := List.forall_mem_cons.mp h
    rw [List.foldl_cons, invalidateHead]
    split
    case isTrue hr =>
      rw [hi fun head hm => removes_congr (s := s) Stripe.shrinks_removeLocked.ring ▸ hl head hm]
      exact (Stripe.removeLocked_other (hh hr)).1
    case isFalse => exact hi hl

-- The writers are those of the heads that are removed.
theorem mem_invalidateHeads {j : Nat} (h : j ∈ (l.foldl (invalidateHead H g snapshots) (s, ws)).2) :
    j ∈ ws ∨ ∃ head ∈ l, removes s g snapshots head = true ∧ s.entries head.key = some j := by
  induction l generalizing s ws
  case nil => exact .inl h
  case cons head l hi =>
    rw [List.foldl_cons, invalidateHead] at h
    split at h
    case isFalse =>
      refine (hi h).imp_right fun ⟨head', hm, hr⟩ => ⟨head', .tail _ hm, hr⟩
    case isTrue hr =>
      cases hi h
      case inl hj =>
        cases List.mem_append.mp hj
        case inl hj => exact .inl hj
        case inr hj => exact .inr ⟨head, .head _, hr, by simpa using hj⟩
      case inr hj =>
        have ⟨head', hm, hr', he⟩ := hj
        rw [removes_congr (s := s) Stripe.shrinks_removeLocked.ring] at hr'
        rw [(Stripe.writers_removeLocked _).2] at he
        exact .inr ⟨head', .tail _ hm, hr', Stripe.entries_detach he⟩

theorem dirs_invalidateHeads_run : (l.foldl (invalidateHead H g snapshots) (s, ws)).1.dirs =
    s.dirs.run (Stripe.removalCalls H s.fragmentsNum
      ((l.filter (removes s g snapshots)).map FillHead.key) s.dirs) := by
  induction l generalizing s ws
  case nil => rfl
  case cons head l hi =>
    rw [List.foldl_cons, invalidateHead, List.filter_cons]
    split
    case isTrue hr =>
      have hc : removes (s.removeLocked H head.key) g snapshots = removes s g snapshots :=
        funext fun _ => removes_congr Stripe.shrinks_removeLocked.ring
      rw [hi, hc, Stripe.fragmentsNum_removeLocked, List.map_cons, Stripe.removalCalls, Table.run_append,
        Stripe.dirs_removeLocked_run, Stripe.removeLockedCalls]
    case isFalse => exact hi

theorem shrinks_invalidateHeads :
    Stripe.Shrinks s (l.foldl (invalidateHead H g snapshots) (s, ws)).1 := by
  induction l generalizing s ws
  case nil => exact .of_eq rfl rfl rfl
  case cons head l hi =>
    rw [List.foldl_cons, invalidateHead]
    split
    case isTrue => exact Stripe.shrinks_removeLocked.trans hi
    case isFalse => exact hi

-- A writer that is gathered loses its entry.
theorem entries_invalidateHeads {j : Nat}
    (h : (l.foldl (invalidateHead H g snapshots) (s, ws)).1.entries k = some j) :
    s.entries k = some j := by
  induction l generalizing s ws
  case nil => exact h
  case cons head l hi =>
    rw [List.foldl_cons, invalidateHead] at h
    split at h
    case isFalse => exact hi h
    case isTrue =>
      have h := hi h
      rw [(Stripe.writers_removeLocked _).2] at h
      exact Stripe.entries_detach h

theorem detached_invalidateHeads (hm : head ∈ l) (hr : removes s g snapshots head = true) :
    (l.foldl (invalidateHead H g snapshots) (s, ws)).1.entries head.key = none := by
  induction l generalizing s ws
  case nil => cases hm
  case cons head' l hi =>
    rw [List.foldl_cons]
    by_cases hh : removes s g snapshots head' = true ∧ head'.key = head.key
    case pos =>
      rw [invalidateHead, if_pos hh.1, hh.2]
      by_contra hc
      have ⟨j, hj⟩ := Option.ne_none_iff_exists'.mp hc
      have hj := entries_invalidateHeads hj
      rw [(Stripe.writers_removeLocked _).2] at hj
      simp [Stripe.detach] at hj
    case neg =>
      have hm : head ∈ l := by
        cases hm
        case head => exact absurd ⟨hr, rfl⟩ hh
        case tail hm => exact hm
      rw [invalidateHead]
      split
      case isTrue => exact hi hm (removes_congr (s := s) Stripe.shrinks_removeLocked.ring ▸ hr)
      case isFalse => exact hi hm hr

theorem dirs_invalidateHeads_self (hm : head ∈ l) (hr : removes s g snapshots head = true)
    (hn : s.fragmentsNum ≠ 0) :
    (l.foldl (invalidateHead H g snapshots) (s, ws)).1.dirs head.key = none := by
  have gone {s' : Stripe} {l : List (FillHead n)} {ws : List Nat} (h : s'.dirs head.key = none) :
      (l.foldl (invalidateHead H g snapshots) (s', ws)).1.dirs head.key = none := by
    by_contra hc
    have ⟨x, hx⟩ := Option.ne_none_iff_exists'.mp hc
    have ⟨_, _, hx, _⟩ := shrinks_invalidateHeads.dirs _ x hx
    cases h.symm.trans hx
  induction l generalizing s ws
  case nil => cases hm
  case cons head' l hi =>
    rw [List.foldl_cons, invalidateHead]
    split
    case isTrue =>
      cases hm
      case head => exact gone (Stripe.dirs_removeLocked hn)
      case tail hm =>
        refine hi hm (removes_congr (s := s) Stripe.shrinks_removeLocked.ring ▸ hr) ?_
        rwa [Stripe.fragmentsNum_removeLocked]
    case isFalse hr' =>
      cases hm
      case head => exact absurd hr hr'
      case tail hm => exact hi hm hr hn

theorem dirs_invalidateStripe_self (hm : head ∈ heads) (hi : head.stripe = i)
    (hr : removes s (t.wraps i) (t.snapshot ++ t.rangeSnapshot) head = true) (hn : s.fragmentsNum ≠ 0) :
    (invalidateStripe H t heads i s).1.dirs head.key = none :=
  dirs_invalidateHeads_self (List.mem_filter.mpr ⟨hm, decide_eq_true hi⟩) hr hn

theorem closing_removeLocked : (s.removeLocked H key).closing = s.closing := by
  have hd : Stripe.Drops _ (s.removeLocked H key) := Stripe.drops_removeFragments
  rw [hd.rest]
  rfl

-- `InvalidateFill` is made of critical sections of the stripes.
theorem run_invalidateHeads (hc : s.closing = false) :
    Run (Stripe.Step H) (fun _ e => e = .other) s
      (l.foldl (invalidateHead H g snapshots) (s, ws)).1 := by
  induction l generalizing s ws
  case nil => exact .refl
  case cons head l hi =>
    rw [List.foldl_cons, invalidateHead]
    split
    case isTrue =>
      have h : Run (Stripe.Step H) (fun _ e => e = .other) s (s.removeLocked H head.key) :=
        .single (.removeLocked head.key hc) rfl
      exact h.trans (hi (closing_removeLocked.trans hc))
    case isFalse => exact hi hc

theorem run_invalidateStripe (hc : s.closing = false) :
    Run (Stripe.Step H) (fun _ e => e = .other) s (invalidateStripe H t heads i s).1 :=
  (Run.single (Stripe.Step.policy (H.policySlot t.selector) hc) rfl).trans (run_invalidateHeads hc)

theorem agrees_invalidateFill {K : KeySpace H} {dm dm' : DirManager} (hf : c.familyLocked H t = .ok heads)
    (h : dm.Agrees K (c i).dirs) (hp : DirManager.Performs K (c.invalidateCalls H t i) dm dm') :
    dm'.Agrees K (invalidateStripe H t heads i (c i)).1.dirs := by
  have hd : (invalidateStripe H t heads i (c i)).1.dirs = (c i).dirs.run (c.invalidateCalls H t i) := by
    simp only [invalidateCalls, hf, Table.run_append, Stripe.run_gets]
    exact dirs_invalidateHeads_run
  rw [hd]
  refine h.performs hp ?_
  simp only [invalidateCalls, hf]
  exact Stripe.isSet_gets_append _ (Stripe.isSet_removalCalls _ _ _)

end Stripes

section Spares

variable {j₀ j₁ : Fin n → Stripe.Journal}

-- The places of a head and of the head that the token has seen are those of the same record, since
-- its lap is not over.
theorem mem_used_of_removes {x : Entry (Record × Mark)} (h₀ : (j₀ i).Inv H) (h₁ : (j₁ i).Inv H)
    (hu : (j₀ i).used ⊆ (j₁ i).used) (ht : Captures H (fun i => (j₀ i).stripe) t)
    (hx : (j₁ i).stripe.dirs k = some x)
    (hr : removes (j₁ i).stripe (t.wraps i) (t.snapshot ++ t.rangeSnapshot)
      (fillHead (fun i => (j₁ i).stripe) i k) = true) : x.mark.1 ∈ (j₀ i).used := by
  obtain ⟨hw, hs⟩ := ht.spec
  have hdir : (fillHead (fun i => (j₁ i).stripe) i k).dir = some x.dir := by simp [fillHead, hx]
  by_cases hm : fillHead (fun i => (j₁ i).stripe) i k ∈ t.snapshot ++ t.rangeSnapshot
  case neg => simp [removes, hm, hdir] at hr
  case pos =>
    have heq := congrArg FillHead.dir (hs _ hm)
    rw [hdir] at heq
    obtain ⟨x₀, hx₀, hd⟩ := Option.map_eq_some_iff.mp heq.symm
    have hx₀ : (j₀ i).stripe.dirs k = some x₀ := hx₀
    have hg := h₀.traced.generation_eq hx₀
    obtain ⟨hd₀, _, _⟩ := h₀.traced.ring.entry k x₀ hx₀
    have hu₀ := (h₀.entries k x₀ hx₀).1
    have hwrap : t.wraps i = (j₀ i).stripe.ring.generation := congrFun hw i
    -- The generation is the one of the old record.
    have hv : (j₁ i).stripe.ring.allocationValid ⟨x.dir.offset, x₀.mark.1.generation, 0⟩ 1 = true := by
      rw [h₀.traced.ring.phase, hd] at hg
      simp only [removes, if_pos hm, hdir, hwrap] at hr
      by_cases hp : x.dir.phase = odd (j₀ i).stripe.ring.generation
      case pos =>
        rw [if_pos hp] at hr hg
        rwa [← hg]
      case neg =>
        rw [if_neg hp] at hr hg
        rw [← hg]
        split at hr
        case isTrue => cases hr
        case isFalse => exact hr
    have hx₁ : x.mark.1 = x₀.mark.1 := by
      refine h₁.traced.record_at (h₁.flushed _ (hu hu₀)) hx ?_ ?_ ?_
      case refine_1 => rw [← hd, hd₀.offset]
      case refine_2 => rw [← hd, hd₀.phase]
      case refine_3 =>
        obtain ⟨_, _, _, hg⟩ := Ring.allocationValid_iff.mp hv
        rcases hg with ⟨hg, _⟩ | ⟨hg, _⟩
        case inl => exact hg ▸ Nat.le_succ _
        case inr => exact hg.ge
    rw [hx₁]
    exact hu₀

-- The same for the heads that a writer finds at its key when it is detached.
theorem renewed_of_removes {j : Nat} (h₀ : (j₀ i).Inv H) (h₁ : (j₁ i).Inv H)
    (hu : (j₀ i).used ⊆ (j₁ i).used) (ht : Captures H (fun i => (j₀ i).stripe) t)
    (hf : familyLocked H (fun i => (j₁ i).stripe) t = .ok heads)
    (hj : j ∈ (invalidateStripe H t heads i (j₁ i).stripe).2) :
    ∃ key, Stripe.Journal.Renewed (j₀ i).used (j₁ i).used key
        ⟨(invalidateStripe H t heads i (j₁ i).stripe).1, (j₁ i).used⟩ ∧
      (j₁ i).stripe.entries key = some j ∧
      (invalidateStripe H t heads i (j₁ i).stripe).1.entries key = none := by
  have ⟨head, hm, hr, he⟩ := (mem_invalidateHeads hj).resolve_left List.not_mem_nil
  refine ⟨head.key, ⟨List.Subset.refl _, fun x' hx' => ?_⟩, he, detached_invalidateHeads hm hr⟩
  have ⟨hm, hi⟩ := List.mem_filter.mp hm
  have hhead := of_mem_familyLocked hf hm
  rw [of_decide_eq_true hi] at hhead
  rw [hhead] at hr
  have ⟨x, _, hx, he⟩ := shrinks_invalidateHeads.dirs _ x' hx'
  have hold := mem_used_of_removes (x := x) h₀ h₁ hu ht hx hr
  rw [he]
  exact .inl hold

-- A head with another record than those that had been published when the token was captured is not
-- removed.
theorem dirs_invalidateStripe {x : Entry (Record × Mark)} (h₀ : (j₀ i).Inv H) (h₁ : (j₁ i).Inv H)
    (hu : (j₀ i).used ⊆ (j₁ i).used) (ht : Captures H (fun i => (j₀ i).stripe) t)
    (hf : familyLocked H (fun i => (j₁ i).stripe) t = .ok heads)
    (hx : (j₁ i).stripe.dirs k = some x) (hm : x.mark.2.head = true) (hn : x.mark.1 ∉ (j₀ i).used) :
    (invalidateStripe H t heads i (j₁ i).stripe).1.dirs k = some x := by
  refine (dirs_invalidateHeads fun head hmem hr idx hk => hn ?_).trans hx
  have ⟨_, hkey⟩ := ((h₁.entries k x hx).2 hm).of_fragmentKey hk
  have ⟨hmem, hi⟩ := List.mem_filter.mp hmem
  have hhead := of_mem_familyLocked hf hmem
  rw [of_decide_eq_true hi, hkey] at hhead
  rw [hhead] at hr
  exact mem_used_of_removes h₀ h₁ hu ht hx hr

theorem closing_of_familyLocked (hf : c.familyLocked H t = .ok heads) (i : Fin n) :
    (c i).closing = false := by
  have ⟨hc, _⟩ := familyLocked_eq_ok.mp hf
  exact (Fence.check_eq_ok.mp (Fences.check_eq_ok.mp hc).2 i).1

-- The writers that are aborted spare the head as well.
theorem dirs_abort_invalidated {x : Entry (Record × Mark)} {j₂ : Stripe.Journal} {j : Nat} {w : Writer}
    (h₀ : (j₀ i).Inv H) (h₁ : (j₁ i).Inv H) (hu : (j₀ i).used ⊆ (j₁ i).used)
    (ht : Captures H (fun i => (j₀ i).stripe) t)
    (hf : familyLocked H (fun i => (j₁ i).stripe) t = .ok heads)
    (hj : j ∈ (invalidateStripe H t heads i (j₁ i).stripe).2)
    (h₂ : Run (Stripe.Journal.Step H) (Stripe.Journal.Allowed H)
      ⟨(invalidateStripe H t heads i (j₁ i).stripe).1, (j₁ i).used⟩ j₂)
    (hw : j₂.stripe.writers[j]? = some w) (hx : j₂.stripe.dirs k = some x)
    (hm : x.mark.2.head = true) (hn : x.mark.1 ∉ (j₀ i).used) :
    (j₂.stripe.abortLocked j w).dirs k = some x := by
  have ⟨key, hrenew, he, hdetached⟩ := renewed_of_removes h₀ h₁ hu ht hf hj
  have hrun : Run (Stripe.Step H) (fun _ e => e = .other) (j₁ i).stripe
      (invalidateStripe H t heads i (j₁ i).stripe).1 :=
    run_invalidateStripe (closing_of_familyLocked hf i)
  have hok (s : Stripe) (e : Stripe.Event) (he : e = .other) :
      e.publication = none ∧ ∀ used, Stripe.Journal.Allowed H ⟨s, used⟩ e :=
    he ▸ ⟨rfl, fun _ => ⟨Stripe.Event.not_aliases rfl, nofun⟩⟩
  have hinv := h₁.run (Stripe.Journal.run_other hok hrun (j₁ i).used)
  have hretired : Stripe.Journal.Retired (j₁ i).used key j
      ⟨(invalidateStripe H t heads i (j₁ i).stripe).1, (j₁ i).used⟩ := by
    have hname := h₁.attached key j he
    constructor
    case name => exact hrun.invariant (fun _ _ _ hn hs _ => hs.enrols.name hn) hname
    case entries =>
      intro k' hk'
      have hk : { (j₁ i).stripe with policyEpochs := _ }.entries k' = some j := entries_invalidateHeads hk'
      cases (h₁.attached k' j hk).symm.trans hname
      cases hdetached.symm.trans hk'
    case published => exact fun w hw p hp => (hinv.writers j w hw p hp).1
  exact (hrenew.run hinv h₂).abortLocked (hretired.run h₂) (hinv.run h₂) hw hx hm hn

end Spares

-- A journal whose stripe has got the links of the directory.
def settle (H : Hash) (s : Stripe) (used : List Record) (dm : DirManager) : Backed Stripe.Journal :=
  ⟨⟨s.follow H dm, used⟩, dm⟩

theorem step_settle {used : List Record} {dm : DirManager} :
    Stripe.Journal.Step H ⟨s, used⟩ .other (settle H s used dm).state :=
  .other .other _ (.drop _ Stripe.drops_follow) rfl

theorem settle_spec {K : KeySpace H} {used : List Record} {dm : DirManager} (h : dm.Agrees K s.dirs) :
    (settle H s used dm).Mirrored K (·.stripe) ∧ ∀ k ∈ K.keys, ∀ x, s.dirs k = some x →
      ∃ next, (settle H s used dm).Finds H (·.stripe) k (x.relink next) :=
  Backed.settles h rfl

-- In a run in which no publication aliases the phase of the lap that is being started, objects do not
-- have the keys of fragments and no call overwrites a slot of the directory, neither `InvalidateFill`
-- nor the writers that it aborts remove a head with a record that was published after the token had
-- been captured. If `InvalidateFill` fails, it does nothing.
theorem invalidateFill_spares {K : KeySpace H} {b₀ b₁ : Fin n → Backed Stripe.Journal} {err : Option Err}
    {writers : Fin n → List Nat}
    (h₀ : ∀ i, ∃ b : Backed Stripe.Journal, b.state.Opened H ∧ b.Mirrored K (·.stripe) ∧
      Run (Backed.Step K (·.stripe) (Stripe.Journal.Step H)) (fun b => b.state.Allowed H) b (b₀ i))
    (h₁ : ∀ i, Run (Backed.Step K (·.stripe) (Stripe.Journal.Step H)) (fun b => b.state.Allowed H)
      (b₀ i) (b₁ i))
    (ht : Captures H (fun i => (b₀ i).state.stripe) t)
    (hi : invalidateFill H (fun i => (b₁ i).state.stripe) t = (err, c', writers)) :
    (err ≠ none → (c' = fun i => (b₁ i).state.stripe) ∧ ∀ i, writers i = []) ∧
    ∀ i dm, DirManager.Performs K (invalidateCalls H (fun i => (b₁ i).state.stripe) t i) (b₁ i).dirMgr dm →
      ∀ k ∈ K.keys, ∀ x, x.mark.2.head = true → x.mark.1 ∉ (b₀ i).state.used →
      ((b₁ i).Finds H (·.stripe) k x →
        ∃ next, (settle H (c' i) (b₁ i).state.used dm).Finds H (·.stripe) k (x.relink next)) ∧
      ∀ b₂ j w dm', Run (Backed.Step K (·.stripe) (Stripe.Journal.Step H)) (fun b => b.state.Allowed H)
          (settle H (c' i) (b₁ i).state.used dm) b₂ →
        j ∈ writers i → b₂.state.stripe.writers[j]? = some w →
        DirManager.Performs K (b₂.state.stripe.abortCalls w) b₂.dirMgr dm' → b₂.Finds H (·.stripe) k x →
        ∃ next, (settle H (b₂.state.stripe.abortLocked j w) b₂.state.used dm').Finds H (·.stripe) k
          (x.relink next) := by
  have hother (j : Stripe.Journal) : j.Allowed H .other := ⟨Stripe.Event.not_aliases rfl, nofun⟩
  have inv₀ (i) : (b₀ i).state.Inv H :=
    have ⟨_, ho, _, hr⟩ := h₀ i
    ho.run (Backed.run_state hr hother)
  have hr₁ (i) := Backed.run_state (h₁ i) hother
  have inv₁ (i) : (b₁ i).state.Inv H := (inv₀ i).run (hr₁ i)
  have hu (i) : (b₀ i).state.used ⊆ (b₁ i).state.used := Stripe.Journal.used_subset (hr₁ i)
  have m₁ (i) : (b₁ i).Mirrored K (·.stripe) :=
    have ⟨_, _, hm, hr⟩ := h₀ i
    Backed.mirrored_run (h₁ i) (Backed.mirrored_run hr hm)
  cases hf : familyLocked H (fun i => (b₁ i).state.stripe) t
  case error e =>
    simp only [invalidateFill, hf] at hi
    cases hi
    refine ⟨fun _ => ⟨rfl, fun _ => rfl⟩, fun i dm hp k hk x _ _ => ⟨fun hx => ?_, fun _ _ _ _ _ hj => ?_⟩⟩
    case refine_1 =>
      simp only [invalidateCalls, hf] at hp
      cases hp
      exact (settle_spec (m₁ i).toAgrees).2 k hk x hx.entry
    case refine_2 => cases hj
  case ok heads =>
    simp only [invalidateFill, hf] at hi
    cases hi
    refine ⟨fun he => absurd rfl he, fun i dm hp k hk x hm hn => ?_⟩
    have ha := agrees_invalidateFill (i := i) hf (m₁ i).toAgrees hp
    refine ⟨fun hx => ?_, fun b₂ j w dm' h₂ hj hw hp' hx => ?_⟩
    case refine_1 =>
      exact (settle_spec ha).2 k hk x (dirs_invalidateStripe (inv₀ i) (inv₁ i) (hu i) ht hf hx.entry hm hn)
    case refine_2 =>
      have hrun := (Run.single step_settle (hother _)).trans (Backed.run_state h₂ hother)
      have hd := dirs_abort_invalidated (inv₀ i) (inv₁ i) (hu i) ht hf hj hrun hw hx.entry hm hn
      have hm₂ := Backed.mirrored_run h₂ (settle_spec ha).1
      exact (settle_spec (Stripe.agrees_abortLocked hm₂.toAgrees hp')).2 k hk x hd

section Sample

open Stripe (sampleStripe sampleWriter sampleLog sampleFill sampleAddition sampleCopy sampleTurn finished
  dirs_finished run_finished)

theorem plain_sample : sampleHash.Plain [97] := by
  intro k idx hi h
  have := congrArg List.length h
  simp [Hash.fragmentKey, hi] at this

-- The token is captured before the object is written.
def sampleBefore : Stripe.Journal := ⟨sampleStripe, []⟩

theorem opened_sampleBefore : sampleBefore.Opened sampleHash where
  stripe  := Stripe.opened_sampleStripe
  used    := rfl
  heads   := nofun
  writers := rfl
  entries := fun _ => rfl

def sampleIndex : DirTrie := ((DirTrie.new 4).setIdentity [97] [97]).toOption.getD (.new 4)

-- Nothing has been fenced, and an object has been written.
structure Settled (s : Stripe) : Prop where
  closing    : s.closing = false
  generation : s.generation = 0
  policies   : s.policyEpochs = fun _ => 0
  index      : s.index = sampleIndex

variable {s₀ s₁ : Stripe} {token : FillToken 1}

theorem Settled.beginFill (h : Settled s) :
    ∃ t, Cache.beginFill H (fun _ : Fin 1 => s) [97] [97] = .ok t := by
  have hc : ¬∃ i : Fin 1, ((fun _ : Fin 1 => s) i).closing = true := by simp [h.closing]
  simp only [Cache.beginFill, hc, if_false, fillSnapshotLocked, rangeSnapshotLocked, heads, h.index]
  exact ⟨_, rfl⟩

theorem Settled.mem_keysOf (h : Settled s) : [97] ∈ s.index.keysOf [97] := by
  rw [h.index]
  exact .head _

theorem heads_sample {keys : DirTrie → Int → Except Err (List Bytes)} {l : List Bytes}
    (h : s.index = sampleIndex) (hk : keys sampleIndex (MaxFillVariants - 0) = .ok l) :
    Cache.heads (fun _ : Fin 1 => s) keys = .ok (l.map (fillHead (fun _ : Fin 1 => s) 0)) := by
  simp only [Cache.heads, h, show List.finRange 1 = [0] from rfl, List.foldlM_cons, List.foldlM_nil]
  exact Except.bind_eq_ok.mpr ⟨_, Except.bind_eq_ok.mpr ⟨_, hk, rfl⟩, rfl⟩

-- The object is the family of a token which is still valid.
theorem Settled.family (h : Settled s₁)
    (ht : Cache.beginFill H (fun _ : Fin 1 => s₀) [97] [97] = .ok token)
    (hg : s₀.generation = 0) (hp : s₀.policyEpochs = fun _ => 0) :
    familyLocked H (fun _ : Fin 1 => s₁) token = .ok [fillHead (fun _ : Fin 1 => s₁) 0 [97]] := by
  simp only [Cache.beginFill, Except.bind_eq_ok, Except.check_bind_eq_ok] at ht
  obtain ⟨_, _, _, _, _, _, _, he⟩ := ht
  cases he
  have hf : (Fences.begin H (epochs fun _ : Fin 1 => s₀) [97]).check H
      (epochs fun _ : Fin 1 => s₁) = .ok () := by
    rw [Fences.check_eq_ok]
    refine ⟨fun _ h => (by cases h), Fence.check_eq_ok.mpr fun i =>
      ⟨h.closing, hg.trans h.generation.symm, ?_⟩⟩
    simp [Fences.begin, Fence.capture, epochs, hp, h.policies]
  have hk₁ : sampleIndex.keysForSelectorLimit [97] (MaxFillVariants - 0) = .ok [[97]] := by decide +kernel
  have hk₂ : sampleIndex.keysForPrefixLimit ([97] ++ Bytes.text "\nrange:manifest:") (MaxFillVariants - 0) =
      .ok [] := by
    decide +kernel
  exact familyLocked_eq_ok.mpr ⟨hf, _, _, heads_sample h.index hk₁, heads_sample h.index hk₂, rfl⟩

section Backed

open DirManager (Performs)
open Stripe (sampleLinks sampleLogged)

-- What the directory does, whether the object is removed or not.
theorem exists_performs {t : FillToken 1} (ha : Backed.Alone sampleLinks s) (hn : s.fragmentsNum = 4)
    (hf : familyLocked sampleHash (fun _ : Fin 1 => s) t = .ok [fillHead (fun _ : Fin 1 => s) 0 [97]]) :
    ∃ dm, Performs Backed.sampleSpace (invalidateCalls sampleHash (fun _ : Fin 1 => s) t 0) sampleLinks
      dm := by
  obtain ⟨dm, hdel⟩ : ∃ dm, Performs Backed.sampleSpace
      [.op (.delete [97]), .get (sampleHash.fragmentKey [97] 1)] sampleLinks dm :=
    ⟨((sampleLinks.delete sampleHash [97]).toOption.map Prod.snd).getD sampleLinks,
      .op (by rintro _ ⟨⟩; exact Backed.mem_sampleSpace) trivial (.inr (.inl (by decide +kernel))) rfl
        (.get (.inr rfl) .nil)⟩
  have hcalls : invalidateCalls sampleHash (fun _ : Fin 1 => s) t 0 = .get [97] ::
      if removes s (t.wraps 0) (t.snapshot ++ t.rangeSnapshot) (fillHead (fun _ : Fin 1 => s) 0 [97]) then
        Stripe.removeCalls sampleHash [97] 4 0 s.dirs ++ [] else [] := by
    have hone : [fillHead (fun _ : Fin 1 => s) 0 [97]].filter (·.stripe = 0) =
        [fillHead (fun _ : Fin 1 => s) 0 [97]] := rfl
    simp only [invalidateCalls, hf, hn, hone, List.filter_cons, List.filter_nil]
    split
    all_goals rfl
  rw [hcalls]
  split
  case isFalse => exact ⟨_, .get Backed.mem_sampleSpace .nil⟩
  case isTrue =>
    rw [List.append_nil, Stripe.removeCalls]
    split
    case isTrue => exact ⟨_, .get Backed.mem_sampleSpace (.get Backed.mem_sampleSpace .nil)⟩
    case isFalse =>
      have hnone : (s.dirs.exec (.op (.delete [97]))) (sampleHash.fragmentKey [97] 1) = none :=
        (Function.update_of_ne (by decide +kernel) ..).trans (ha.only _ (by decide +kernel))
      refine ⟨dm, .get Backed.mem_sampleSpace (.get Backed.mem_sampleSpace ?_)⟩
      rw [Stripe.removeCalls, if_pos (by exact hnone)]
      exact hdel

-- The steps of a stripe are those of its journal.
theorem backed_other {K : KeySpace H} {Ok : Backed Stripe → Stripe.Event → Prop} {b b' : Backed Stripe}
    (hok : ∀ b e, Ok b e → e.publication = none ∧ ∀ used, Stripe.Journal.Allowed H ⟨b.state, used⟩ e)
    (h : Run (Backed.Step K id (Stripe.Step H)) Ok b b') (used : List Record) :
    Run (Backed.Step K (·.stripe) (Stripe.Journal.Step H)) (fun b => b.state.Allowed H)
      ⟨⟨b.state, used⟩, b.dirMgr⟩ ⟨⟨b'.state, used⟩, b'.dirMgr⟩ := by
  induction h
  case refl => exact .refl
  case step hs ho hi =>
    obtain ⟨he, ha⟩ := hok _ _ ho
    cases hs with | mk s s' dm calls hn hc hp hd hv =>
    have h₁ (s₀) (hn : Stripe.Step H s₀ _ s) : Stripe.Journal.Step H ⟨s₀, used⟩ _ ⟨s, used⟩ :=
      .other _ _ hn he
    have h₂ : Stripe.Journal.Step H ⟨s, used⟩ .other ⟨s', used⟩ := .other _ _ hd rfl
    exact hi.step (.mk _ _ dm calls (h₁ _ hn) hc hp h₂ hv) (ha used)

-- The head of an object which is written after the token has been captured is not removed.
theorem invalidateFill_spares_sample : ∃ (b₁ : Backed Stripe.Journal) (t : FillToken 1)
    (x : Entry (Record × Mark)) (c' : Cache 1) (writers : Fin 1 → List Nat) (dm : DirManager) (next : BitVec 16),
    Run (Backed.Step Backed.sampleSpace (·.stripe) (Stripe.Journal.Step sampleHash))
      (fun b => b.state.Allowed sampleHash) ⟨sampleBefore, .init 4⟩ b₁ ∧
    Captures sampleHash (fun _ => sampleBefore.stripe) t ∧
    invalidateFill sampleHash (fun _ => b₁.state.stripe) t = (none, c', writers) ∧
    Performs Backed.sampleSpace (invalidateCalls sampleHash (fun _ => b₁.state.stripe) t 0) b₁.dirMgr dm ∧
    b₁.Finds sampleHash (·.stripe) [97] x ∧ x.mark.2.head = true ∧ x.mark.1 ∉ sampleBefore.used ∧
    (settle sampleHash (c' 0) b₁.state.used dm).Finds sampleHash (·.stripe) [97] (x.relink next) := by
  let Ok : Backed Stripe → Stripe.Event → Prop := fun b e =>
    e.publication = none ∧ ∀ used, Stripe.Journal.Allowed sampleHash ⟨b.state, used⟩ e
  have ho : ∀ b, Ok b .flush := fun _ => ⟨rfl, fun _ => ⟨Stripe.Event.not_aliases rfl, nofun⟩⟩
  have hopen : Ok ⟨sampleStripe, .init 4⟩ (.openWrite [97] [97]) :=
    ⟨rfl, fun _ => ⟨Stripe.Event.not_aliases rfl, by rintro _ _ ⟨⟩; exact plain_sample⟩⟩
  have hlog := (Run.single (Stripe.backed_sampleOpen 1) hopen).trans (Stripe.backed_sampleLog 1 ho)
  have hent := Stripe.enters_sampleLog 1
  let r := sampleCopy 20512 2 1
  have hstep : Backed.Step Backed.sampleSpace (·.stripe) (Stripe.Journal.Step sampleHash)
      ⟨⟨sampleLog 1, []⟩, .init 4⟩ (.publish [97] r) ⟨⟨sampleLogged 1, [r]⟩, sampleLinks⟩ :=
    Backed.Alone.step (by exact hent.alone)
      (.publish (.publish [97] r) [97] r _ hent.step rfl List.not_mem_nil)
      (.other .other _ (.drop _ .refl) rfl) hent.calls hent.performs
  have h₁ := (backed_other (fun _ _ => id) hlog []).step hstep
    ⟨fun ⟨_, _, _, hlt, _⟩ => absurd (Stripe.flushes_sampleLog 1).2.idle hlt.ne', nofun⟩
  have hm₀ : Backed.Mirrored Backed.sampleSpace (·.stripe)
      (⟨sampleBefore, .init 4⟩ : Backed Stripe.Journal) :=
    Backed.mirrored_init le_rfl fun _ => rfl
  have hx : (sampleLogged 1).dirs [97] = some _ := hent.entry.entry
  have hfind := (Backed.mirrored_run h₁ hm₀).finds Backed.mem_sampleSpace hx
  have ⟨t, ht⟩ : ∃ t, Cache.beginFill sampleHash (fun _ : Fin 1 => sampleStripe) [97] [97] = .ok t :=
    ⟨_, rfl⟩
  have hs : Settled (sampleLogged 1) := ⟨rfl, rfl, rfl, rfl⟩
  have hf := hs.family ht rfl rfl
  have ⟨dm, hp⟩ := exists_performs hent.alone rfl hf
  have ⟨c', writers, hinv⟩ : ∃ c' writers,
      invalidateFill sampleHash (fun _ => sampleLogged 1) t = (none, c', writers) := by
    simp only [invalidateFill, hf]
    exact ⟨_, _, rfl⟩
  let b₀ : Fin 1 → Backed Stripe.Journal := fun _ => ⟨sampleBefore, .init 4⟩
  let b₁ : Fin 1 → Backed Stripe.Journal := fun _ => ⟨⟨sampleLogged 1, [r]⟩, sampleLinks⟩
  have hrun (i : Fin 1) : Run (Backed.Step Backed.sampleSpace (·.stripe) (Stripe.Journal.Step sampleHash))
    (fun b => b.state.Allowed sampleHash) (b₀ i) (b₁ i) := h₁
  have hcapture : Captures sampleHash (fun i => (b₀ i).state.stripe) t := .begin [97] [97] ht
  have ⟨next, hn⟩ := ((invalidateFill_spares (fun i => ⟨b₀ i, opened_sampleBefore, hm₀, .refl⟩) hrun hcapture
    hinv).2 0 dm hp [97] Backed.mem_sampleSpace _ rfl List.not_mem_nil).1 hfind
  exact ⟨b₁ 0, t, _, c', writers, dm, next, h₁, .begin [97] [97] ht, hinv, hp, hfind, rfl,
    List.not_mem_nil, hn⟩

end Backed

def sampleSecond : Writer := { sampleWriter with version := 2 }

def sampleThird : Writer := { sampleWriter with version := 3 }

def commits (w : Writer) (r : Record) : Writer := { w with published := w.published ++ [([97], r)] }

-- The second version is published for the lap which is being started.
def sampleAliased (d : Dir) : Stripe :=
  let s := sampleTurn.publish sampleHash 0 sampleSecond 0 (sampleCopy 20512 2 2) d (fun _ => none) true
  finished { s with ring := s.ring.endFlush (sampleFill 4) } 0
    (commits sampleSecond (sampleCopy 20512 2 2))

def sampleAdded (d : Dir) : Stripe :=
  ((sampleAliased d).openWrite sampleThird).lap (sampleAddition 20512 4 3)

-- The third version gets the same place in that lap.
def sampleReplaced (d : Dir) : Stripe :=
  finished ((sampleAdded d).publish sampleHash 1 sampleThird 0 (sampleCopy 20512 4 3) d (fun _ => none) true)
    1 (commits sampleThird (sampleCopy 20512 4 3))

variable {d : Dir}

theorem ready_sampleAliased : (sampleAliased d).Ready 4 20512 :=
  { Stripe.ready_afterTurn (sampleTurn.publish sampleHash 0 sampleSecond 0 (sampleCopy 20512 2 2) d
      (fun _ => none) true) rfl rfl with }

theorem ready_sampleAdded : (sampleAdded d).Ready 4 20585 := by
  have h : ((sampleAliased d).openWrite sampleThird).Ready 4 20512 := { ready_sampleAliased (d := d) with }
  exact { h.lap (t := sampleAddition 20512 4 3) with writePos := Stripe.stop_sampleAddition }

theorem settled_sampleAliased : Settled (sampleAliased d) := ⟨rfl, rfl, rfl, rfl⟩

theorem settled_sampleReplaced : Settled (sampleReplaced d) := ⟨rfl, rfl, rfl, rfl⟩

theorem places_sampleAdded (hp : sampleTurn.Places (sampleCopy 20512 2 2)
      (sectors (sampleCopy 20512 2 2).data.length) d) :
    (sampleAdded d).Places (sampleCopy 20512 4 3) (sectors (sampleCopy 20512 4 3).data.length) d where
  flushed    := Stripe.mem_lap_sampleAddition
  allocation := ready_sampleAdded.allocationValid rfl (by decide : 512 ≤ 20512)
    Stripe.stop_sampleCopy.le (by decide)
  dir        := by
    have h₂ : sectors (sampleCopy 20512 2 2).data.length = 512 := Stripe.length_sectors_sampleCopy
    have h₄ : sectors (sampleCopy 20512 4 3).data.length = 512 := Stripe.length_sectors_sampleCopy
    rw [h₄, ← h₂]
    exact hp.dir

theorem run_sampleAliased (hp : sampleTurn.Places (sampleCopy 20512 2 2)
      (sectors (sampleCopy 20512 2 2).data.length) d) :
    Run (Stripe.Journal.Step sampleHash) (fun _ _ => True) sampleBefore
      ⟨sampleAliased d, [sampleCopy 20512 2 2]⟩ := by
  have hs : Stripe.Step sampleHash sampleStripe (.openWrite [97] [97])
    (sampleStripe.openWrite sampleSecond) := .openWrite sampleSecond rfl rfl rfl rfl nofun rfl rfl rfl
  have hs' : Stripe.Step sampleHash sampleTurn (.publish [97] (sampleCopy 20512 2 2))
      (sampleTurn.publish sampleHash 0 sampleSecond 0 (sampleCopy 20512 2 2) d (fun _ => none) true) :=
    .publish 0 sampleSecond 0 _ d (fun _ => none) true rfl rfl ⟨rfl, rfl, nofun, rfl, rfl, rfl⟩ hp
      (Stripe.fragment_sampleDocument 2) fun _ => nofun
  have h : Run (Stripe.Journal.Step sampleHash) (fun _ _ => True) sampleBefore _ :=
    .single (.other _ _ hs rfl) trivial
  have h := h.trans (Stripe.Journal.run_other
    (fun _ e (he : e = .flush) => he ▸ ⟨rfl, fun _ => trivial⟩) Stripe.flushes_sampleTurn [])
  have h := h.step (.publish _ _ _ _ hs' rfl List.not_mem_nil) trivial
  have h := h.step (.other _ _ (.finish (sampleFill 4) rfl) rfl) trivial
  exact h.trans (Stripe.Journal.run_other (fun _ e (he : e = .other) => he ▸ ⟨rfl, fun _ => trivial⟩)
    (run_finished rfl rfl rfl) _)

theorem run_sampleReplaced (hp : sampleTurn.Places (sampleCopy 20512 2 2)
      (sectors (sampleCopy 20512 2 2).data.length) d) :
    Run (Stripe.Journal.Step sampleHash) (fun _ _ => True) ⟨sampleAliased d, [sampleCopy 20512 2 2]⟩
      ⟨sampleReplaced d, [sampleCopy 20512 4 3, sampleCopy 20512 2 2]⟩ := by
  have hs : Stripe.Step sampleHash (sampleAliased d) (.openWrite [97] [97])
      ((sampleAliased d).openWrite sampleThird) :=
    .openWrite sampleThird rfl rfl rfl rfl nofun rfl rfl rfl
  have hready : ((sampleAliased d).openWrite sampleThird).Ready 4 20512 :=
    { ready_sampleAliased (d := d) with }
  have hlap : Run (Stripe.Step sampleHash) Stripe.Event.IsFlush
      ((sampleAliased d).openWrite sampleThird) (sampleAdded d) :=
    hready.run (Stripe.fits_sampleAddition (by decide) (by decide)) Stripe.isFlush .refl
  have hs' : Stripe.Step sampleHash (sampleAdded d) (.publish [97] (sampleCopy 20512 4 3)) _ :=
    .publish 1 sampleThird 0 _ d (fun _ => none) true rfl rfl ⟨rfl, rfl, nofun, rfl, rfl, rfl⟩
      (places_sampleAdded hp) (Stripe.fragment_sampleDocument 3) fun _ => nofun
  have h : Run (Stripe.Journal.Step sampleHash) (fun _ _ => True)
      ⟨sampleAliased d, [sampleCopy 20512 2 2]⟩ _ := .single (.other _ _ hs rfl) trivial
  have h := h.trans (Stripe.Journal.run_other
    (fun _ e (he : e = .flush) => he ▸ ⟨rfl, fun _ => trivial⟩) hlap _)
  have h := h.step (.publish _ _ _ _ hs' rfl (by simp [sampleCopy])) trivial
  exact h.trans (Stripe.Journal.run_other (fun _ e (he : e = .other) => he ▸ ⟨rfl, fun _ => trivial⟩)
    (run_finished rfl rfl rfl) _)

theorem dirs_sampleAliased : (sampleAliased d).dirs [97] =
    some ⟨d, sampleCopy 20512 2 2, sampleTurn.markOf sampleSecond 0⟩ := by
  have h (s : Stripe) (t : FlushTask) : Stripe.dirs { s with ring := s.ring.endFlush t } = s.dirs := rfl
  rw [sampleAliased, dirs_finished, h, Stripe.dirs_publish]
  exact Table.set_self _

theorem dirs_sampleReplaced : (sampleReplaced d).dirs [97] =
    some ⟨d, sampleCopy 20512 4 3, (sampleAdded d).markOf sampleThird 0⟩ := by
  rw [sampleReplaced, dirs_finished, Stripe.dirs_publish]
  exact Table.set_self _

-- The head of the second version is published while the first task of the lap after the next one is
-- being written. The token is captured later in that lap. Then the third version gets the same place,
-- and its head is removed as if it were that of the second version.
theorem invalidateFill_removes_newer : ∃ (j₀ j₁ : Stripe.Journal) (t : FillToken 1)
    (x : Entry (Record × Mark)) (c' : Cache 1) (writers : Fin 1 → List Nat),
    sampleBefore.Opened sampleHash ∧
    Run (Stripe.Journal.Step sampleHash) (fun _ _ => True) sampleBefore j₀ ∧
    Run (Stripe.Journal.Step sampleHash) (fun _ _ => True) j₀ j₁ ∧
    Captures sampleHash (fun _ => j₀.stripe) t ∧
    invalidateFill sampleHash (fun _ => j₁.stripe) t = (none, c', writers) ∧
    j₁.stripe.dirs [97] = some x ∧ x.mark.2.head = true ∧ x.mark.1 ∉ j₀.used ∧
    (c' 0).dirs [97] = none := by
  obtain ⟨d, hp, hoff, hphase⟩ := Stripe.places_sampleTurn
  obtain ⟨t, ht⟩ := (settled_sampleAliased (d := d)).beginFill (H := sampleHash)
  obtain ⟨heads, hf, hmem⟩ : ∃ heads,
    familyLocked sampleHash (fun _ : Fin 1 => sampleReplaced d) t = .ok heads ∧
    fillHead (fun _ : Fin 1 => sampleReplaced d) 0 [97] ∈ heads :=
    ⟨_, settled_sampleReplaced.family ht rfl rfl, .head _⟩
  have hx₀ := dirs_sampleAliased (d := d)
  have hx₁ := dirs_sampleReplaced (d := d)
  -- Nothing distinguishes the two heads.
  have hhead : fillHead (fun _ : Fin 1 => sampleReplaced d) 0 [97] =
      fillHead (fun _ : Fin 1 => sampleAliased d) 0 [97] := by
    simp only [fillHead, hx₀, hx₁]
    rfl
  obtain ⟨hcheck, hsel⟩ := checkFillLocked_beginFill ht
  obtain ⟨_, hwraps, hsnap⟩ := checkFillLocked_eq_ok.mp hcheck
  rw [hsel] at hsnap
  have hold : fillHead (fun _ : Fin 1 => sampleReplaced d) 0 [97] ∈ t.snapshot := by
    rw [hhead]
    exact (mem_fillSnapshotLocked hsnap).mpr ⟨0, [97], settled_sampleAliased.mem_keysOf, rfl⟩
  have hready : (sampleReplaced d).Ready 4 20585 := { ready_sampleAdded (d := d) with }
  have hwrap : t.wraps 0 = 4 := (congrFun hwraps 0).trans ready_sampleAliased.generation
  have hr : removes (sampleReplaced d) (t.wraps 0) (t.snapshot ++ t.rangeSnapshot)
      (fillHead (fun _ : Fin 1 => sampleReplaced d) 0 [97]) = true := by
    have hdir : (fillHead (fun _ : Fin 1 => sampleReplaced d) 0 [97]).dir = some d := by
      simp [fillHead, hx₁]
    have hp : d.phase = odd 4 := hphase
    simp only [removes, if_pos (List.mem_append_left _ hold), hdir, hwrap, if_pos hp]
    rw [Ring.allocationValid_iff, hoff, hready.idle, hready.start, hready.stop, hready.generation,
      hready.writePos]
    exact ⟨by simp, by decide, by decide, .inl ⟨rfl, by decide⟩⟩
  have hinv : invalidateFill sampleHash (fun _ => sampleReplaced d) t =
      (none, fun _ => (invalidateStripe sampleHash t heads 0 (sampleReplaced d)).1,
        fun _ => (invalidateStripe sampleHash t heads 0 (sampleReplaced d)).2) := by
    simp only [invalidateFill, hf, Fin.isValue, Fin.eq_zero]
  have hroom : (sampleReplaced d).fragmentsNum = 4 := rfl
  have hgone : (invalidateStripe sampleHash t heads 0 (sampleReplaced d)).1.dirs [97] = none :=
    dirs_invalidateStripe_self hmem rfl hr (hroom ▸ by decide)
  exact ⟨⟨sampleAliased d, _⟩, ⟨sampleReplaced d, _⟩, t, _, _, _, opened_sampleBefore,
    run_sampleAliased hp, run_sampleReplaced hp, .begin [97] [97] ht, hinv, hx₁, rfl,
    by simp [sampleCopy], hgone⟩

end Sample

end Cache
end Bakemono
