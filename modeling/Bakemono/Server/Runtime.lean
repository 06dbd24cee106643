import Bakemono.Lib.Run
import Mathlib.Data.Multiset.Count
import Mathlib.Tactic

namespace Bakemono

structure RuntimeSnapshot where
  version : Nat
  refs    : Int := 0
  -- How often its proxy has been closed.
  closes  : Nat := 0

-- What a reload learns about a configuration: the outcomes of the checks and constructions between its
-- critical sections. An outcome that is an error is its text.
structure ReloadInput where
  isNil        : Bool
  validate     : Option String
  reloadable   : Bool
  sameSettings : Bool
  files        : Except String Bool
  newHTTPProxy : Option String
  newRuntime   : Option String
  startHealth  : Option String

-- What a reload does next. Each step but `build` is at most one critical section.
inductive ReloadStep
  | validate
  | check
  | build (old : Nat)
  | publish (old : Nat)
  | close
  deriving DecidableEq

structure ReloadCall where
  call  : Nat
  input : ReloadInput
  step  : ReloadStep

inductive ShutdownStep
  | running
  | draining
  | closed
  deriving DecidableEq

-- Runtimes are known by their addresses. `reload` is the call that holds `reloadMu`. The last five
-- fields stand for what is outside of the source's record: the allocated runtimes, the leases that have
-- not been given back, the reloads that have begun, and how far they and the shutdown are.
structure Server where
  current  : Option Nat
  retired  : Option Nat := none
  draining : Bool := false
  initErr  : Option String
  runtimes : Nat → RuntimeSnapshot
  fresh    : Nat := 1
  leases   : Multiset Nat := 0
  calls    : Nat := 0
  reload   : Option ReloadCall := none
  shutdown : ShutdownStep := .running

namespace Server

-- The arguments are the errors of the parts of the initialization.
def new (files runtime network health : Option String) : Server :=
  let initErr := files.or (runtime.or (network.or health))
  { current  := if files.isNone && runtime.isNone then some 0 else none
    initErr  := initErr
    runtimes := fun _ => { version := 1, closes := if initErr.isSome then 1 else 0 } }

def unavailable (s : Server) : Bool := s.draining || s.initErr.isSome

def addRefs (s : Server) (rt : Nat) (d : Int) : Server :=
  { s with
    runtimes := Function.update s.runtimes rt
      { s.runtimes rt with refs := (s.runtimes rt).refs + d } }

def closeProxy (s : Server) (rt : Nat) : Server :=
  { s with
    runtimes := Function.update s.runtimes rt
      { s.runtimes rt with closes := (s.runtimes rt).closes + 1 } }

def closeRetiredLocked (s : Server) : Server :=
  match s.retired with
  | some rt => if (s.runtimes rt).refs = 0 then { s.closeProxy rt with retired := none } else s
  | none    => s

def closeCurrent (s : Server) : Server :=
  match s.current with
  | some rt => s.closeProxy rt
  | none    => s

def retainRuntime (s : Server) (rt : Nat) : Server :=
  { s.addRefs rt 1 with leases := rt ::ₘ s.leases }

def releaseRuntime (s : Server) (rt : Nat) : Server :=
  closeRetiredLocked { s.addRefs rt (-1) with leases := s.leases.erase rt }

def errReloadBusy : String := "reload busy: retired runtime still has active requests"

-- The error of the reload's next step.
def reloadError (s : Server) (r : ReloadCall) : Option String :=
  match r.step with
  | .validate => if r.input.isNil then some "reload config is nil" else r.input.validate
  | .check    =>
    if s.unavailable then some "server unavailable"
    else if s.retired.isSome then some errReloadBusy
    else none
  | .build _  =>
    if !r.input.reloadable then some "custom upstream transport requires restart"
    else if !r.input.sameSettings then
      some "listener, storage, logging or management authorization changes require restart"
    else match r.input.files with
      | .error err  => some ("reload files: " ++ err)
      | .ok false   => some "storage or listener TLS contents changed; restart required"
      | .ok true    => r.input.newHTTPProxy.or (r.input.newRuntime.or r.input.startHealth)
  | .publish _ | .close => none

def reloadNext (s : Server) (r : ReloadCall) : Server :=
  match r.step with
  | .validate    => { s with reload := some { r with step := .check } }
  -- A server that has been initialized has a runtime.
  | .check       => { s with reload := some { r with step := .build (s.current.getD 0) } }
  | .build old   => { s with reload := some { r with step := .publish old } }
  | .publish old =>
    { s with
      current  := some s.fresh
      retired  := some old
      runtimes := Function.update s.runtimes s.fresh { version := (s.runtimes old).version + 1 }
      fresh    := s.fresh + 1
      reload   := some { r with step := .close } }
  | .close       => { s.closeRetiredLocked with reload := none }

inductive Event
  | serveHTTP
  | retain (rt : Nat)
  | release (rt : Nat)
  | reload (call : Nat)
  | reloadFails (call : Nat) (err : String)
  | shutdown

-- The critical sections of `mu`. The shutdown's waits for handlers and producers are left out: it may
-- come to its last section at any time.
inductive Step (s : Server) : Event → Server → Prop
  | reject : (s.unavailable) → Step s .serveHTTP s
  | accept (rt) : (s.unavailable = false) → (s.current = some rt) → Step s .serveHTTP (s.retainRuntime rt)
  -- By a producer whose request has a lease.
  | retain (rt) : (rt ∈ s.leases) → Step s (.retain rt) (s.retainRuntime rt)
  | release (rt) : (rt ∈ s.leases) → Step s (.release rt) (s.releaseRuntime rt)
  | reloadBegin (input) :
    (s.reload = none) →
    Step s (.reload s.calls)
      { s with calls := s.calls + 1, reload := some ⟨s.calls, input, .validate⟩ }
  | reloadNext (r) :
    (s.reload = some r) → (s.reloadError r = none) → Step s (.reload r.call) (s.reloadNext r)
  | reloadFails (r err) :
    (s.reload = some r) → (s.reloadError r = some err) →
    Step s (.reloadFails r.call err) { s with reload := none }
  | drain :
    (s.shutdown = .running) → (s.reload = none) →
    Step s .shutdown { s with draining := true, shutdown := .draining }
  | close :
    (s.shutdown = .draining) →
    Step s .shutdown { s.closeRetiredLocked.closeCurrent with shutdown := .closed }

variable {s s' : Server} {rt : Nat} {e : Event} {r : ReloadCall}

section Fields

variable {rt' : Nat} {d : Int}

theorem refs_addRefs :
    ((s.addRefs rt d).runtimes rt').refs = (s.runtimes rt').refs + if rt' = rt then d else 0 := by
  by_cases h : rt' = rt <;> simp [addRefs, h]

@[simp]
theorem closes_addRefs : ((s.addRefs rt d).runtimes rt').closes = (s.runtimes rt').closes := by
  by_cases h : rt' = rt <;> simp [addRefs, h]

@[simp]
theorem refs_closeProxy : ((s.closeProxy rt).runtimes rt').refs = (s.runtimes rt').refs := by
  by_cases h : rt' = rt <;> simp [closeProxy, h]

theorem closes_closeProxy_self :
    ((s.closeProxy rt).runtimes rt).closes = (s.runtimes rt).closes + 1 := by
  simp [closeProxy]

theorem closes_closeProxy_of_ne (h : rt' ≠ rt) :
    ((s.closeProxy rt).runtimes rt').closes = (s.runtimes rt').closes := by
  simp [closeProxy, h]

theorem closeRetiredLocked_eq (s : Server) :
    ∃ runtimes retired, s.closeRetiredLocked = { s with runtimes := runtimes, retired := retired } := by
  unfold closeRetiredLocked
  repeat' split
  all_goals exact ⟨_, _, rfl⟩

theorem closeCurrent_eq (s : Server) :
    ∃ runtimes, s.closeCurrent = { s with runtimes := runtimes } := by
  unfold closeCurrent
  split <;> exact ⟨_, rfl⟩

end Fields

section Books

-- Where a reload past its check stands.
def Reloading (s : Server) : ReloadStep → Prop
  | .build old | .publish old => s.unavailable = false ∧ s.current = some old ∧ s.retired = none
  | _ => True

structure Books (s : Server) : Prop where
  refs      : ∀ rt, (s.runtimes rt).refs = s.leases.count rt
  -- A runtime that is neither current nor retired has been closed once and has no lease.
  others    : ∀ rt, rt < s.fresh → s.current ≠ some rt → s.retired ≠ some rt →
              (s.runtimes rt).closes = 1 ∧ rt ∉ s.leases
  retired   : ∀ rt, s.retired = some rt → s.current ≠ some rt ∧ (s.runtimes rt).closes = 0
  leased    : ∀ rt, rt ∈ s.leases → rt < s.fresh
  allocated : ∀ rt, s.current = some rt ∨ s.retired = some rt → rt < s.fresh
  running   : s.unavailable = false → ∃ rt, s.current = some rt ∧ (s.runtimes rt).closes = 0
  reloading : ∀ r, s.reload = some r → s.Reloading r.step
  drained   : s.shutdown ≠ .running → s.draining

-- A retired runtime without leases is closed, or a reload is about to close it.
def Tidy (s : Server) : Prop :=
  ∀ rt, s.retired = some rt → rt ∉ s.leases → ∃ r, s.reload = some r ∧ r.step = .close

theorem Books.new (files runtime network health : Option String) :
    (new files runtime network health).Books where
  refs := by simp [Server.new]
  others := by
    intro rt hlt hc _
    obtain rfl : rt = 0 := by simpa [Server.new] using hlt
    cases files <;> cases runtime <;> simp_all [Server.new]
  retired := nofun
  leased := nofun
  allocated := by
    intro rt hrt
    cases files <;> cases runtime <;> simp_all [Server.new]
  running := by
    intro h
    cases files <;> cases runtime <;> simp_all [Server.new, unavailable]
  reloading := fun _ h => nomatch h
  drained := nofun

theorem Books.refs_eq_zero (h : s.Books) : (s.runtimes rt).refs = 0 ↔ rt ∉ s.leases := by
  rw [h.refs rt, Int.natCast_eq_zero, Multiset.count_eq_zero]

theorem Books.closeRetiredLocked (h : s.Books) : s.closeRetiredLocked.Books := by
  unfold Server.closeRetiredLocked
  split
  case h_2 => exact h
  case h_1 rt hrt =>
  split
  case isFalse => exact h
  case isTrue hrefs =>
    have ⟨hcur, hcloses⟩ := h.retired rt hrt
    refine ⟨fun rt' => ?_, fun rt' hlt hc _ => ?_, nofun, h.leased, ?_, fun ha => ?_, ?_, h.drained⟩
    case refine_1 => exact refs_closeProxy.trans (h.refs rt')
    case refine_2 =>
      by_cases hne : rt' = rt
      case pos =>
        rw [hne]
        exact ⟨by rw [closes_closeProxy_self, hcloses], h.refs_eq_zero.mp hrefs⟩
      case neg =>
        rw [closes_closeProxy_of_ne hne]
        exact h.others rt' hlt hc (by simpa [hrt] using Ne.symm hne)
    case refine_3 => exact fun rt' hrt' => h.allocated rt' (.inl (hrt'.resolve_right nofun))
    case refine_4 =>
      have ⟨c, hc, hc0⟩ := h.running ha
      have hne : c ≠ rt := fun hcr => hcur (hcr ▸ hc)
      exact ⟨c, hc, (closes_closeProxy_of_ne hne).trans hc0⟩
    case refine_5 =>
      intro r hr
      have hl := h.reloading r hr
      revert hl
      cases r.step <;> simp [Reloading, hrt]

-- Every retired runtime is in use.
def Leased (s : Server) : Prop := ∀ rt, s.retired = some rt → rt ∈ s.leases

theorem Leased.tidy (h : s.Leased) : s.Tidy :=
  fun rt hrt hin => absurd (h rt hrt) hin

theorem Books.leased_closeRetiredLocked (h : s.Books) : s.closeRetiredLocked.Leased := by
  intro rt hrt
  have ⟨_, _, hq⟩ := closeRetiredLocked_eq s
  suffices rt ∈ s.leases by rwa [hq]
  unfold Server.closeRetiredLocked at hrt
  split at hrt
  case h_2 hn => simp [hn] at hrt
  case h_1 rt' hrt' =>
  split at hrt
  case isTrue => simp at hrt
  case isFalse hrefs =>
    obtain rfl : rt' = rt := Option.some.inj (hrt'.symm.trans hrt)
    exact not_not.mp (mt h.refs_eq_zero.mpr hrefs)

theorem Books.relet {leases : Multiset Nat} {d : Int} (h : s.Books)
    (hcount : ∀ rt', (leases.count rt' : Int) = s.leases.count rt' + if rt' = rt then d else 0)
    (hmem : ∀ rt' ∈ leases, rt' ∈ s.leases ∨ s.current = some rt') :
    Books { s.addRefs rt d with leases := leases } where
  refs rt' := by
    change ((s.addRefs rt d).runtimes rt').refs = _
    rw [refs_addRefs, h.refs, hcount]
  others rt' hlt hc hr := by
    have ⟨hcloses, hnot⟩ := h.others rt' hlt hc hr
    exact ⟨closes_addRefs.trans hcloses, fun hin => (hmem rt' hin).elim hnot hc⟩
  retired rt' hr := (h.retired rt' hr).imp_right closes_addRefs.trans
  leased rt' hin := (hmem rt' hin).elim (h.leased rt') (h.allocated rt' ∘ .inl)
  allocated := h.allocated
  running ha := (h.running ha).imp fun _ hc => hc.imp_right closes_addRefs.trans
  reloading r hr := by
    have := h.reloading r hr
    revert this
    cases r.step <;> exact id
  drained := h.drained

theorem Books.retainRuntime (h : s.Books) (hrt : rt ∈ s.leases ∨ s.current = some rt) :
    (s.retainRuntime rt).Books := by
  refine h.relet (fun rt' => ?_) fun rt' hin => ?_
  case refine_1 =>
    rw [Multiset.count_cons]
    split <;> simp
  case refine_2 =>
    rcases Multiset.mem_cons.mp hin with heq | hin
    case inl => exact heq ▸ hrt
    case inr => exact .inl hin

theorem Books.dropLease (h : s.Books) (hrt : rt ∈ s.leases) :
    Books { s.addRefs rt (-1) with leases := s.leases.erase rt } := by
  refine h.relet (fun rt' => ?_) fun rt' hin => .inl (Multiset.mem_of_mem_erase hin)
  by_cases hne : rt' = rt
  case pos =>
    have := Multiset.one_le_count_iff_mem.mpr hrt
    rw [hne, Multiset.count_erase_self]
    simp only [if_true]
    omega
  case neg => simp [Multiset.count_erase_of_ne hne, hne]

-- Only the shutdown closes the current runtime.
theorem Books.closeCurrent (h : s.Books) (hd : s.draining) : s.closeCurrent.Books := by
  unfold Server.closeCurrent
  split
  case h_2 => exact h
  case h_1 rt hrt =>
  have ne {rt'} (hne : s.current ≠ some rt') : rt' ≠ rt := fun heq => hne (heq ▸ hrt)
  refine ⟨?_, ?_, ?_, h.leased, h.allocated, ?_, h.reloading, h.drained⟩
  case refine_1 => exact fun rt' => refs_closeProxy.trans (h.refs rt')
  case refine_2 =>
    intro rt' hlt hc hr
    rw [closes_closeProxy_of_ne (ne hc)]
    exact h.others rt' hlt hc hr
  case refine_3 =>
    intro rt' hr
    have ⟨hc, hcloses⟩ := h.retired rt' hr
    exact ⟨hc, (closes_closeProxy_of_ne (ne hc)).trans hcloses⟩
  case refine_4 =>
    intro ha
    simp [unavailable, closeProxy, hd] at ha

theorem Books.setReload {o : Option ReloadCall} {calls : Nat} (h : s.Books)
    (ho : ∀ r, o = some r → s.Reloading r.step) : Books { s with calls := calls, reload := o } :=
  { h with reloading := ho }

-- The candidate takes the place of the runtime which the reload has found at its check.
theorem Books.publish {old : Nat} (h : s.Books) (hs : r.step = .publish old)
    (hl : s.Reloading (.publish old)) : (s.reloadNext r).Books := by
  have ⟨ha, hc, hr⟩ := hl
  have ⟨c, hc', hopen⟩ := h.running ha
  obtain rfl : old = c := Option.some.inj (hc.symm.trans hc')
  have hlt := h.allocated old (.inl hc)
  have hnew : s.fresh ∉ s.leases := fun hin => Nat.lt_irrefl _ (h.leased _ hin)
  simp only [reloadNext, hs]
  refine ⟨?_, ?_, ?_, ?_, ?_, ?_, ?_, h.drained⟩
  case refine_1 =>
    intro rt
    by_cases hrt : rt = s.fresh
    case pos => simp [hrt, hnew]
    case neg => simpa [hrt] using h.refs rt
  case refine_2 =>
    intro rt hrt hnc hnr
    have hne : rt ≠ s.fresh := fun heq => hnc (heq ▸ rfl)
    have hold : s.current ≠ some rt := fun heq => hnr (hc ▸ heq)
    simpa [hne] using h.others rt (by simp only at hrt; omega) hold (by simp [hr])
  case refine_3 =>
    intro rt hrt
    obtain rfl : old = rt := Option.some.inj hrt
    have hne : old ≠ s.fresh := hlt.ne
    exact ⟨by simpa using hne.symm, by simpa [hne] using hopen⟩
  case refine_4 => exact fun rt hin => (h.leased rt hin).trans (Nat.lt_succ_self _)
  case refine_5 =>
    rintro rt (hrt | hrt)
    case inl => exact Option.some.inj hrt ▸ Nat.lt_succ_self _
    case inr => exact Option.some.inj hrt ▸ hlt.trans (Nat.lt_succ_self _)
  case refine_6 => exact fun _ => ⟨s.fresh, rfl, by simp⟩
  case refine_7 =>
    intro r' hr'
    cases hr'
    trivial

theorem Books.reloadNext (h : s.Books) (hr : s.reload = some r) (he : s.reloadError r = none) :
    (s.reloadNext r).Books := by
  have hl := h.reloading r hr
  match hstep : r.step with
  | .validate =>
    simp only [Server.reloadNext, hstep]
    refine h.setReload fun r' hr' => ?_
    cases hr'
    trivial
  | .check =>
    simp only [Server.reloadNext, hstep]
    refine h.setReload fun r' hr' => ?_
    cases hr'
    simp only [reloadError, hstep] at he
    have ha : s.unavailable = false := by
      cases ha : s.unavailable
      case false => rfl
      case true => simp [ha] at he
    have hret : s.retired = none := by simpa [ha] using he
    have ⟨c, hc, _⟩ := h.running ha
    exact ⟨ha, by simp [hc], hret⟩
  | .build old =>
    simp only [Server.reloadNext, hstep]
    refine h.setReload fun r' hr' => ?_
    cases hr'
    rw [hstep] at hl
    exact hl
  | .publish old => exact h.publish hstep (hstep ▸ hl)
  | .close =>
    simp only [Server.reloadNext, hstep]
    exact h.closeRetiredLocked.setReload fun _ h => nomatch h

theorem Books.step (h : s.Books) (hs : s.Step e s') : s'.Books := by
  cases hs
  case reject => exact h
  case accept hc => exact h.retainRuntime (.inr hc)
  case retain hrt => exact h.retainRuntime (.inl hrt)
  case release hrt => exact (h.dropLease hrt).closeRetiredLocked
  case reloadBegin hr =>
    refine h.setReload fun r hr => ?_
    cases hr
    trivial
  case reloadNext hr he => exact h.reloadNext hr he
  case reloadFails => exact h.setReload fun _ h => nomatch h
  case drain hr =>
    exact { h with
      running   := nofun
      reloading := fun r hr' => nomatch hr.symm.trans hr'
      drained   := fun _ => rfl }
  case close hd =>
    have hdrain := h.drained (by simp [hd])
    have ⟨_, _, hq⟩ := closeRetiredLocked_eq s
    have ⟨_, hq'⟩ := closeCurrent_eq s.closeRetiredLocked
    have h := h.closeRetiredLocked.closeCurrent (by rw [hq]; exact hdrain)
    refine { h with drained := fun _ => ?_ }
    rw [hq', hq]
    exact hdrain

theorem Tidy.leased (h : s.Tidy) (hr : ∀ r, s.reload = some r → r.step ≠ .close) : s.Leased := by
  intro rt hrt
  by_contra hin
  have ⟨r, hr', hclose⟩ := h rt hrt hin
  exact hr r hr' hclose

theorem Tidy.step (h : s.Tidy) (hb : s.Books) (hs : s.Step e s') : s'.Tidy := by
  have leased {r : ReloadCall} (hr : s.reload = some r) (hstep : r.step ≠ .close) : s.Leased :=
    h.leased fun r' hr' => Option.some.inj (hr.symm.trans hr') ▸ hstep
  cases hs
  case reject => exact h
  case accept => exact fun rt hrt hin => h rt hrt (hin ∘ Multiset.mem_cons_of_mem)
  case retain => exact fun rt hrt hin => h rt hrt (hin ∘ Multiset.mem_cons_of_mem)
  case release hrt => exact (hb.dropLease hrt).leased_closeRetiredLocked.tidy
  case reloadBegin hr =>
    have hl : s.Leased := h.leased fun r hr' => nomatch hr.symm.trans hr'
    exact Leased.tidy hl
  case reloadNext r hr he =>
    match hstep : r.step with
    | .validate | .check | .build _ =>
      have hl := leased hr (by simp [hstep])
      simp only [reloadNext, hstep]
      exact Leased.tidy hl
    | .publish old =>
      simp only [reloadNext, hstep]
      exact fun _ _ _ => ⟨_, rfl, rfl⟩
    | .close =>
      simp only [reloadNext, hstep]
      exact Leased.tidy hb.leased_closeRetiredLocked
  case reloadFails r _ hr he =>
    have hl := leased hr fun hclose => by simp [reloadError, hclose] at he
    exact Leased.tidy hl
  case drain => exact h
  case close =>
    have ⟨_, hq⟩ := closeCurrent_eq s.closeRetiredLocked
    rw [hq]
    exact Leased.tidy hb.leased_closeRetiredLocked

end Books

section Leases

-- A runtime that is not current does not become so.
theorem Step.current (hs : s.Step e s') :
    s'.current = s.current ∧ s'.fresh = s.fresh ∨
    s'.current = some s.fresh ∧ s'.fresh = s.fresh + 1 := by
  have closed (s : Server) :
      s.closeRetiredLocked.current = s.current ∧ s.closeRetiredLocked.fresh = s.fresh := by
    have ⟨_, _, hq⟩ := closeRetiredLocked_eq s
    rw [hq]
    exact ⟨rfl, rfl⟩
  cases hs
  case reloadNext r hr he =>
    match hstep : r.step with
    | .validate | .check | .build _ | .publish _ => simp [Server.reloadNext, hstep]
    | .close =>
      simp only [Server.reloadNext, hstep]
      exact .inl (closed s)
  case release => exact .inl (closed _)
  case close =>
    have ⟨_, hq⟩ := closeCurrent_eq s.closeRetiredLocked
    rw [hq]
    exact .inl (closed s)
  all_goals exact .inl ⟨rfl, rfl⟩

-- The retired runtime is closed when its last lease is gone.
theorem Books.closes_step (h : s.Books) (hs : s.Step e s') (hrt : s.retired = some rt)
    (hc : (s'.runtimes rt).closes ≠ (s.runtimes rt).closes) :
    s'.current ≠ some rt ∧ rt ∉ s'.leases ∧ (s'.runtimes rt).closes = 1 := by
  have ⟨hcur, hopen⟩ := h.retired rt hrt
  have hlt := h.allocated rt (.inr hrt)
  have h' := h.step hs
  have ⟨hcur', hlt'⟩ : s'.current ≠ some rt ∧ rt < s'.fresh := by
    rcases hs.current with ⟨hq, hf⟩ | ⟨hq, hf⟩
    case inl => exact ⟨hq ▸ hcur, hf ▸ hlt⟩
    case inr => exact ⟨by simpa [hq] using hlt.ne', hf ▸ hlt.trans (Nat.lt_succ_self _)⟩
  have hret' : s'.retired ≠ some rt := fun hr => hc ((h'.retired rt hr).2.trans hopen.symm)
  have ⟨hone, hin⟩ := h'.others rt hlt' hcur' hret'
  exact ⟨hcur', hin, hone⟩

-- A request starts on the current runtime.
theorem Step.serveHTTP (hs : s.Step .serveHTTP s') :
    s' = s ∨ ∃ rt, s.current = some rt ∧ s' = s.retainRuntime rt := by
  cases hs
  case reject => exact .inl rfl
  case accept rt _ hc => exact .inr ⟨rt, hc, rfl⟩

-- What a step does to the reload in progress: nothing, its end, its begin or its progress.
inductive Follows (s s' : Server) : Prop
  | same : (s'.reload = s.reload) → (s'.calls = s.calls) → Follows s s'
  | ends : (s'.reload = none) → (s'.calls = s.calls) → Follows s s'
  | begins (input) :
    (s'.reload = some ⟨s.calls, input, .validate⟩) → (s'.calls = s.calls + 1) → Follows s s'
  | goes (r : ReloadCall) (step : ReloadStep) :
    (s.reload = some r) → (r.step ≠ .close) → (s'.reload = some { r with step := step }) →
    (s'.calls = s.calls) → Follows s s'

theorem Step.follows (hs : s.Step e s') : s.Follows s' := by
  cases hs
  case reloadBegin input _ => exact .begins input rfl rfl
  case reloadNext r hr he =>
    match hstep : r.step with
    | .validate | .check | .build _ | .publish _ =>
      simp only [Server.reloadNext, hstep]
      exact .goes r _ hr (by simp [hstep]) rfl rfl
    | .close =>
      have ⟨_, _, hq⟩ := closeRetiredLocked_eq s
      simp only [Server.reloadNext, hstep, hq]
      exact .ends rfl rfl
  case reloadFails => exact .ends rfl rfl
  case release rt _ =>
    have ⟨_, _, hq⟩ := closeRetiredLocked_eq { s.addRefs rt (-1) with leases := s.leases.erase rt }
    simp only [releaseRuntime, hq]
    exact .same rfl rfl
  case close =>
    have ⟨_, _, hq⟩ := closeRetiredLocked_eq s
    have ⟨_, hq'⟩ := closeCurrent_eq s.closeRetiredLocked
    rw [hq', hq]
    exact .same rfl rfl
  all_goals exact .same rfl rfl

def Numbered (s : Server) : Prop := ∀ r, s.reload = some r → r.call < s.calls

theorem Numbered.step (h : s.Numbered) (hs : s.Step e s') : s'.Numbered := by
  intro r' hr'
  cases hs.follows
  case same hr hc => exact hc ▸ h r' (hr ▸ hr')
  case ends hr hc => simp [hr] at hr'
  case begins input hr hc =>
    obtain rfl := Option.some.inj (hr.symm.trans hr')
    exact hc ▸ Nat.lt_succ_self _
  case goes r step hr _ hr'' hc =>
    obtain rfl := Option.some.inj (hr''.symm.trans hr')
    exact hc ▸ h r hr

-- The call has published, if it has not returned.
structure Published (call : Nat) (s : Server) : Prop where
  begun : call < s.calls
  past  : ∀ r, s.reload = some r → r.call = call → r.step = .close

theorem Published.step {call : Nat} (h : Published call s) (hs : s.Step e s') : Published call s' := by
  cases hs.follows
  case same hr hc => exact ⟨hc ▸ h.begun, hr ▸ h.past⟩
  case ends hr hc => exact ⟨hc ▸ h.begun, by simp [hr]⟩
  case begins input hr hc =>
    refine ⟨hc ▸ h.begun.trans (Nat.lt_succ_self _), fun r' hr' hcall => ?_⟩
    obtain rfl := Option.some.inj (hr.symm.trans hr')
    exact absurd hcall h.begun.ne'
  case goes r step hr hne hr'' hc =>
    refine ⟨hc ▸ h.begun, fun r' hr' hcall => ?_⟩
    obtain rfl := Option.some.inj (hr''.symm.trans hr')
    exact absurd (h.past r hr hcall) hne

-- A call that has published does not fail.
theorem Published.not_fails {call : Nat} {err : String} (h : Published call s) :
    ¬s.Step (.reloadFails call err) s' := by
  intro hs
  cases hs
  case reloadFails r hr he =>
  have := h.past r hr rfl
  simp [reloadError, this] at he

-- Only with its publication does a reload change the runtimes.
theorem Step.reload_frame {call : Nat} (hs : s.Step (.reload call) s') (hn : s.Numbered) :
    s'.current = s.current ∧ s'.retired = s.retired ∨ Published call s' := by
  cases hs
  case reloadBegin => exact .inl ⟨rfl, rfl⟩
  case reloadNext r hr he =>
    match hstep : r.step with
    | .validate | .check | .build _ => simp [Server.reloadNext, hstep]
    | .publish _ =>
      simp only [Server.reloadNext, hstep]
      refine .inr ⟨hn r hr, fun r' hr' _ => ?_⟩
      cases hr'
      rfl
    | .close =>
      have ⟨_, _, hq⟩ := closeRetiredLocked_eq s
      simp only [Server.reloadNext, hstep, hq]
      exact .inr ⟨hn r hr, fun _ h => nomatch h⟩

-- The runs of a server that has been started with some outcome of its initialization.
def Reachable (s : Server) : Prop :=
  ∃ files runtime network health, Run Step (fun _ _ => True) (new files runtime network health) s

theorem Reachable.inv (h : s.Reachable) : s.Books ∧ s.Tidy ∧ s.Numbered := by
  have ⟨files, runtime, network, health, hr⟩ := h
  refine hr.invariant (I := fun s => s.Books ∧ s.Tidy ∧ s.Numbered) ?_ ⟨.new .., nofun, fun _ h => nomatch h⟩
  intro s e s' ⟨hb, ht, hn⟩ hs _
  exact ⟨hb.step hs, ht.step hb hs, hn.step hs⟩

theorem runtime_leases (h : s.Reachable) :
    (∀ rt, (s.runtimes rt).refs = s.leases.count rt ∧ 0 ≤ (s.runtimes rt).refs) ∧
    -- Besides the current and the retired runtime all are closed, and none of them is in use.
    (∀ rt, rt < s.fresh → s.current ≠ some rt → s.retired ≠ some rt →
      (s.runtimes rt).closes = 1 ∧ rt ∉ s.leases) ∧
    (∀ rt, s.retired = some rt → s.current ≠ some rt ∧ (s.runtimes rt).closes = 0) ∧
    -- A retired runtime is closed when it has no lease.
    (∀ e s' rt, s.Step e s' → s.retired = some rt →
      (s'.runtimes rt).closes ≠ (s.runtimes rt).closes →
      s'.current ≠ some rt ∧ rt ∉ s'.leases ∧ (s'.runtimes rt).closes = 1) ∧
    (∀ rt, s.retired = some rt → rt ∉ s.leases → ∃ r, s.reload = some r ∧ r.step = .close) ∧
    -- A request starts on the current runtime, or is rejected.
    (∀ s', s.Step .serveHTTP s' → s' = s ∨
      ∃ rt, s' = s.retainRuntime rt ∧ s.current = some rt ∧ s.retired ≠ some rt) ∧
    -- No step of a reload that fails later changes the runtimes, and neither does its failure.
    (∀ call err s₁ s₂ s₃, s.Step (.reload call) s₁ → Run Step (fun _ _ => True) s₁ s₂ →
      s₂.Step (.reloadFails call err) s₃ →
      s₁.current = s.current ∧ s₁.retired = s.retired ∧
      s₃.current = s₂.current ∧ s₃.retired = s₂.retired) := by
  have ⟨hb, ht, hn⟩ := h.inv
  refine ⟨fun rt => ?_, hb.others, hb.retired, ?_, ht, ?_, ?_⟩
  case refine_1 => exact ⟨hb.refs rt, hb.refs rt ▸ Int.natCast_nonneg _⟩
  case refine_2 => exact fun e s' rt hs hrt hc => hb.closes_step hs hrt hc
  case refine_3 =>
    intro s' hs
    rcases hs.serveHTTP with hq | ⟨rt, hc, hq⟩
    case inl => exact .inl hq
    case inr => exact .inr ⟨rt, hq, hc, fun hr => (hb.retired rt hr).1 hc⟩
  case refine_4 =>
    intro call err s₁ s₂ s₃ hs hrun hf
    rcases hs.reload_frame hn with ⟨hc, hr⟩ | hp
    case inl =>
      refine ⟨hc, hr, ?_⟩
      cases hf
      exact ⟨rfl, rfl⟩
    case inr =>
      have hp := hrun.invariant (fun _ _ _ h hs _ => Published.step h hs) hp
      exact absurd hf hp.not_fails

def sampleInput : ReloadInput where
  isNil        := false
  validate     := none
  reloadable   := true
  sameSettings := true
  files        := .ok true
  newHTTPProxy := none
  newRuntime   := none
  startHealth  := none

-- A reload publishes while a request is served.
theorem runtime_leases_sample : ∃ s : Server, s.Reachable ∧ s.current = some 1 ∧ s.retired = some 0 ∧
    0 ∈ s.leases ∧ (s.runtimes 0).refs = s.leases.count 0 ∧ (s.runtimes 0).closes = 0 := by
  have h : Run Step (fun _ _ => True) (new none none none none) (new none none none none) := .refl
  have h := h.step (.accept 0 rfl rfl) trivial
  have h := h.step (.reloadBegin sampleInput rfl) trivial
  have h := h.step (.reloadNext ⟨0, sampleInput, .validate⟩ rfl rfl) trivial
  have h := h.step (.reloadNext ⟨0, sampleInput, .check⟩ rfl rfl) trivial
  have h := h.step (.reloadNext ⟨0, sampleInput, .build 0⟩ rfl rfl) trivial
  have h := h.step (.reloadNext ⟨0, sampleInput, .publish 0⟩ rfl rfl) trivial
  have ⟨hrefs, _, hret, _⟩ := runtime_leases ⟨none, none, none, none, h⟩
  refine ⟨_, ⟨none, none, none, none, h⟩, rfl, rfl, ?_, (hrefs 0).1, (hret 0 rfl).2⟩
  exact Multiset.mem_cons_self 0 0

end Leases

end Server
end Bakemono
