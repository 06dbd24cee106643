import Bakemono.Error
import Bakemono.Lib.Bytes
import Bakemono.Lib.Count
import Bakemono.Lib.Run

namespace Bakemono

inductive FillErr
  | unshareable
  | failed (e : Err)
  deriving DecidableEq

structure FillResult where
  key    : Bytes := []
  err    : Option FillErr := none
  status : Bytes := []
  deriving DecidableEq

-- What the producer of a task does next. The first step stands for `fetchFill` up to its decision, and
-- the responses are those of the origin.
inductive ProducerStep (ρ : Type)
  | fetch
  -- `privateFill`: the publication and the two selections.
  | publishPrivate (resp : ρ)
  | send (resp : ρ)
  | stream (resp : ρ)
  -- The end of `produceFill`.
  | publish (result : FillResult)
  -- The deferred calls: the bodies are closed and the resources released, then `finish`.
  | release
  | finish
  | exit
  | exited

namespace ProducerStep

variable {ρ : Type}

-- The channel `done` has been closed.
def published : ProducerStep ρ → Bool
  | .fetch | .publishPrivate _ | .publish _ => false
  | _ => true

def offers : ProducerStep ρ → Bool
  | .send _ | .stream _ => true
  | _ => false

def cancels : ProducerStep ρ → Bool
  | .exit | .exited => true
  | _ => false

def ended : ProducerStep ρ → Bool
  | .exited => true
  | _ => false

-- A bound of the steps that are left.
def rank : ProducerStep ρ → Nat
  | .fetch => 7
  | .publishPrivate _ | .publish _ => 6
  | .send _ => 5
  | .stream _ => 4
  | .release => 3
  | .finish => 2
  | .exit => 1
  | .exited => 0

end ProducerStep

-- What a request does next in `serveSharedMiss`.
inductive ClientStep (ρ : Type)
  | absent
  | wait
  | «private»
  | streaming (resp : ρ)
  -- The deferred calls of the creator which has got a response of its own.
  | awaitExit
  | serve (key : Bytes)
  | leave
  | gone

namespace ClientStep

variable {ρ : Type}

-- What only the creator does.
def solitary : ClientStep ρ → Bool
  | .private | .streaming _ | .awaitExit => true
  | _ => false

-- The response that the creator has got is not given back yet.
def holds : ClientStep ρ → Bool
  | .streaming _ | .awaitExit => true
  | _ => false

def leaves : ClientStep ρ → Bool
  | .leave | .gone => true
  | _ => false

def isGone : ClientStep ρ → Bool
  | .gone => true
  | _ => false

def rank : ClientStep ρ → Nat
  | .wait => 5
  | .private => 4
  | .streaming _ => 3
  | .awaitExit | .serve _ => 2
  | .leave => 1
  | .absent | .gone => 0

end ClientStep

-- The closings of the channels are counted. The last field is not one of the source: the private
-- response that a request has got.
structure SharedFill (ι ρ : Type) where
  creator     : ι
  producer    : ProducerStep ρ := .fetch
  client      : ι → ClientStep ρ
  refs        : Nat := 1
  cancelled   : Bool := false
  result      : FillResult := {}
  done        : Nat := 0
  creatorGone : Nat := 0
  privateDone : Nat := 0
  exits       : Nat := 0
  received    : ι → Option ρ := fun _ => none

namespace SharedFill

variable {ι ρ : Type} [DecidableEq ι]

-- The creator has joined, and its producer has been started.
def new (creator : ι) : SharedFill ι ρ where
  creator
  client := Function.update (fun _ => .absent) creator .wait

def goto (s : SharedFill ι ρ) (i : ι) (c : ClientStep ρ) : SharedFill ι ρ :=
  { s with client := Function.update s.client i c }

-- What a request does after the channel `done` has been closed.
def answer (s : SharedFill ι ρ) (i : ι) : ClientStep ρ :=
  if i = s.creator ∧ s.result.err = some .unshareable then .private
  else if s.result.err = none then .serve s.result.key
  else .leave

-- `leave`.
def left (s : SharedFill ι ρ) (i : ι) : SharedFill ι ρ :=
  { s.goto i .gone with
    creatorGone := if i = s.creator then s.creatorGone + 1 else s.creatorGone
    refs        := s.refs - 1
    cancelled   := s.cancelled || s.refs == 1 }

-- Who moves. The environment may end the context of a request or of the task at any moment.
inductive Event (ι : Type)
  | producer
  | client (i : ι)
  | join (i : ι)
  | cancel

inductive Step (s : SharedFill ι ρ) : Event ι → SharedFill ι ρ → Prop
  | unshared (resp) : (s.producer = .fetch) → Step s .producer { s with producer := .publishPrivate resp }
  | fetched (result) :
    (s.producer = .fetch) → (result.err ≠ some .unshareable) →
    Step s .producer { s with producer := .publish result }
  | publishPrivate (resp) :
    (s.producer = .publishPrivate resp) → Step s .producer
      { s with producer := .send resp, result := { err := some .unshareable }, done := s.done + 1 }
  | publish (result) :
    (s.producer = .publish result) →
    Step s .producer { s with producer := .release, result, done := s.done + 1 }
  | unsent (resp) :
    (s.producer = .send resp) → (0 < s.creatorGone ∨ s.cancelled = true) →
    Step s .producer { s with producer := .release }
  | streamed (resp) :
    (s.producer = .stream resp) → (0 < s.privateDone ∨ 0 < s.creatorGone ∨ s.cancelled = true) →
    Step s .producer { s with producer := .release }
  | release : (s.producer = .release) → Step s .producer { s with producer := .finish }
  | finish : (s.producer = .finish) → Step s .producer { s with producer := .exit, cancelled := true }
  | exit : (s.producer = .exit) → Step s .producer { s with producer := .exited, exits := s.exits + 1 }
  | notified (i) :
    (s.client i = .wait) → (0 < s.done) → Step s (.client i) (s.goto i (s.answer i))
  | receive (i resp) :
    (s.client i = .private) → (s.producer = .send resp) → Step s (.client i)
      { s.goto i (.streaming resp) with
        producer := .stream resp
        received := Function.update s.received i (some resp) }
  | unavailable (i) :
    (s.client i = .private) → (s.cancelled = true) → Step s (.client i) (s.goto i .leave)
  | sent (i resp) :
    (s.client i = .streaming resp) →
    Step s (.client i) { s.goto i .awaitExit with privateDone := s.privateDone + 1 }
  | joined (i) : (s.client i = .awaitExit) → (0 < s.exits) → Step s (.client i) (s.goto i .leave)
  | served (i key) : (s.client i = .serve key) → Step s (.client i) (s.goto i .leave)
  | leave (i) : (s.client i = .leave) → Step s (.client i) (s.left i)
  | join (i) :
    (s.client i = .absent) → (s.cancelled = false) →
    Step s (.join i) { s.goto i .wait with refs := s.refs + 1 }
  | abandon (i) : (s.client i = .wait ∨ s.client i = .private) → Step s .cancel (s.goto i .leave)
  | timeout : (s.cancelled = false) → Step s .cancel { s with cancelled := true }

variable {s s' : SharedFill ι ρ} {e : Event ι} {c : ClientStep ρ} {got : Option ρ} {i : ι}

-- What holds of the producer.
structure Producing (s : SharedFill ι ρ) : Prop where
  done      : s.done = if s.producer.published then 1 else 0
  exits     : s.exits = if s.producer.ended then 1 else 0
  result    : s.producer.offers → s.result.err = some .unshareable
  shared    : ∀ r, s.producer = .publish r → r.err ≠ some .unshareable
  cancelled : s.producer.cancels → s.cancelled = true

-- What holds of the creator as long as it has not got a response of its own.
structure Before (s : SharedFill ι ρ) (c : ClientStep ρ) : Prop where
  gone      : s.creatorGone = if c.isGone then 1 else 0
  present   : c ≠ .absent
  unheld    : c.holds = false
  unclosed  : s.privateDone = 0
  unsent    : ∀ r, s.producer ≠ .stream r
  offered   : c = .private → s.done = 1 ∧ s.result.err = some .unshareable
  available : c.isGone = false → s.done = 1 → s.result.err = some .unshareable →
    (∃ r, s.producer = .send r) ∨ s.cancelled = true

-- What holds of it afterwards. The body of the response is not closed while it is copied, unless the
-- task has been cancelled.
structure After (s : SharedFill ι ρ) (c : ClientStep ρ) (r : ρ) : Prop where
  gone      : s.creatorGone = if c.isGone then 1 else 0
  held      : c.holds = true ∨ c.leaves = true
  published : s.producer.published = true
  sent      : ∀ r, s.producer ≠ .send r
  streaming : ∀ r', c = .streaming r' →
    r' = r ∧ s.privateDone = 0 ∧ (s.producer = .stream r ∨ s.cancelled = true)
  awaiting  : c = .awaitExit → s.privateDone = 1
  left      : c.leaves = true → s.privateDone = 1 ∧ s.exits = 1

def Creating (s : SharedFill ι ρ) (c : ClientStep ρ) : Option ρ → Prop
  | none   => s.Before c
  | some r => s.After c r

structure Inv (s : SharedFill ι ρ) : Prop where
  producing : s.Producing
  creating  : s.Creating (s.client s.creator) (s.received s.creator)
  others    : ∀ i, i ≠ s.creator → (s.client i).solitary = false ∧ s.received i = none
  serves    : ∀ i key, s.client i = .serve key →
    s.done = 1 ∧ s.result.err = none ∧ s.result.key = key

theorem Producing.step (h : s.Producing) (hs : s.Step e s') : s'.Producing := by
  have hd {p q : ProducerStep ρ} (hp : s.producer = p) (hq : p.published = q.published) :
      s.done = if q.published then 1 else 0 := hq ▸ hp ▸ h.done
  have hx {p q : ProducerStep ρ} (hp : s.producer = p) (hq : p.ended = q.ended) :
      s.exits = if q.ended then 1 else 0 := hq ▸ hp ▸ h.exits
  cases hs
  case unshared resp hp => exact ⟨hd hp rfl, hx hp rfl, nofun, nofun, nofun⟩
  case fetched result hp hr =>
    refine ⟨hd hp rfl, hx hp rfl, nofun, fun r he => ?_, nofun⟩
    cases he
    exact hr
  case publishPrivate resp hp =>
    exact ⟨congrArg (· + 1) (hd (q := .fetch) hp rfl), hx hp rfl, fun _ => rfl, nofun, nofun⟩
  case publish result hp =>
    exact ⟨congrArg (· + 1) (hd (q := .fetch) hp rfl), hx hp rfl, nofun, nofun, nofun⟩
  case unsent resp hp _ => exact ⟨hd hp rfl, hx hp rfl, nofun, nofun, nofun⟩
  case streamed resp hp _ => exact ⟨hd hp rfl, hx hp rfl, nofun, nofun, nofun⟩
  case release hp => exact ⟨hd hp rfl, hx hp rfl, nofun, nofun, nofun⟩
  case finish hp => exact ⟨hd hp rfl, hx hp rfl, nofun, nofun, fun _ => rfl⟩
  case exit hp =>
    have hx := hx (q := .fetch) hp rfl
    exact ⟨hd hp rfl, congrArg (· + 1) hx, nofun, nofun, fun _ => h.cancelled (hp ▸ rfl)⟩
  case receive i resp hc hp =>
    exact ⟨hd hp rfl, hx hp rfl, fun _ => h.result (hp ▸ rfl), nofun, nofun⟩
  case leave => exact { h with cancelled := fun hp => by simp [left, h.cancelled hp] }
  case timeout => exact { h with cancelled := fun _ => rfl }
  all_goals exact { h with }

section Producer

omit [DecidableEq ι] in
theorem Producing.unpublished {p : ProducerStep ρ} (h : s.Producing) (hp : s.producer = p)
    (hu : p.published = false) : s.done = 0 := by
  rw [h.done, hp, hu]
  rfl

theorem Before.produce (h : s.Before c) (hp : s.Producing) (hs : s.Step .producer s') : s'.Before c := by
  -- The offer is withdrawn only if the creator has gone or the task has been cancelled.
  have ha {p : ProducerStep ρ} (he : s.producer = p) (hn : ∀ r, p ≠ .send r) (hg : c.isGone = false)
      (hd : s.done = 1) (hr : s.result.err = some .unshareable) : s.cancelled = true := by
    obtain ⟨r, hr⟩ | hc := h.available hg hd hr
    case inl => exact absurd (he.symm.trans hr) (hn r)
    case inr => exact hc
  cases hs
  case unshared resp he =>
    have hd := hp.unpublished he rfl
    exact { h with unsent := nofun, available := fun _ h₁ => by simp [hd] at h₁ }
  case fetched result he hr =>
    have hd := hp.unpublished he rfl
    exact { h with unsent := nofun, available := fun _ h₁ => by simp [hd] at h₁ }
  case publishPrivate resp he =>
    have hd := hp.unpublished he rfl
    exact { h with
      unsent    := nofun
      offered   := fun hc => absurd (h.offered hc).1 (by simp [hd])
      available := fun _ _ _ => .inl ⟨resp, rfl⟩ }
  case publish result he =>
    have hd := hp.unpublished he rfl
    exact { h with
      unsent    := nofun
      offered   := fun hc => absurd (h.offered hc).1 (by simp [hd])
      available := fun _ _ hr => absurd hr (hp.shared result he) }
  case unsent resp he hg =>
    refine { h with unsent := nofun, available := fun hn hd hr => .inr ?_ }
    have hz := h.gone
    simp only [hn] at hz
    exact hg.resolve_left (by simp [hz])
  case streamed resp he hg => exact absurd he (h.unsent resp)
  case release he =>
    exact { h with unsent := nofun, available := fun h₁ h₂ h₃ => .inr (ha he nofun h₁ h₂ h₃) }
  case finish he => exact { h with unsent := nofun, available := fun _ _ _ => .inr rfl }
  case exit he => exact { h with unsent := nofun, available := fun h₁ h₂ h₃ => .inr (ha he nofun h₁ h₂ h₃) }

theorem After.produce {r : ρ} (h : s.After c r) (hp : s.Producing) (hs : s.Step .producer s') :
    s'.After c r := by
  have hpub {p : ProducerStep ρ} (he : s.producer = p) : p.published = true := he ▸ h.published
  have hst {p : ProducerStep ρ} (he : s.producer = p) (hn : p ≠ .stream r) (r') (hc : c = .streaming r') :
      r' = r ∧ s.privateDone = 0 ∧ s.cancelled = true := by
    obtain ⟨h₁, h₂, h₃⟩ := h.streaming r' hc
    exact ⟨h₁, h₂, h₃.resolve_left fun hr => hn (he.symm.trans hr)⟩
  cases hs
  case unshared resp he => exact absurd (hpub he) (by simp [ProducerStep.published])
  case fetched result he hr => exact absurd (hpub he) (by simp [ProducerStep.published])
  case publishPrivate resp he => exact absurd (hpub he) (by simp [ProducerStep.published])
  case publish result he => exact absurd (hpub he) (by simp [ProducerStep.published])
  case unsent resp he hg => exact absurd he (h.sent resp)
  case streamed resp he hg =>
    refine { h with published := rfl, sent := nofun, streaming := fun r' hc => ?_ }
    obtain ⟨h₁, h₂, h₃⟩ := h.streaming r' hc
    have hz := h.gone
    rw [hc] at hz
    have hz : s.creatorGone = 0 := hz
    refine ⟨h₁, h₂, .inr ?_⟩
    simpa [h₂, hz] using hg
  case release he =>
    exact { h with
      published := rfl
      sent      := nofun
      streaming := fun r' hc => (hst he nofun r' hc).imp_right (.imp_right .inr) }
  case finish he =>
    exact { h with
      published := rfl
      sent      := nofun
      streaming := fun r' hc => (hst he nofun r' hc).imp_right (.imp_right fun _ => .inr rfl) }
  case exit he =>
    have hx : s.exits = 0 := by rw [hp.exits, he]; rfl
    exact { h with
      published := rfl
      sent      := nofun
      streaming := fun r' hc => (hst he nofun r' hc).imp_right (.imp_right .inr)
      left      := fun hc => absurd (h.left hc).2 (by simp [hx]) }

end Producer

section Client

-- A response is received before the creator holds it.
omit [DecidableEq ι] in
theorem Creating.before (h : s.Creating c got) (hh : c.holds = false) (hl : c.leaves = false) :
    got = none ∧ s.Before c := by
  cases got
  case none => exact ⟨rfl, h⟩
  case some r => cases After.held h <;> simp_all

omit [DecidableEq ι] in
theorem Creating.after (h : s.Creating c got) (hh : c.holds = true) : ∃ r, got = some r ∧ s.After c r := by
  cases got
  case none => exact absurd hh (by simp [Before.unheld h])
  case some r => exact ⟨r, rfl, h⟩

-- What the others do, and the end of a context.
omit [DecidableEq ι] in
theorem Creating.mono {client : ι → ClientStep ρ} {refs : Nat} {cancelled : Bool} (h : s.Creating c got)
    (hc : s.cancelled = true → cancelled = true) : Creating { s with client, refs, cancelled } c got := by
  cases got
  case none =>
    exact { h with available := fun h₁ h₂ h₃ => (Before.available h h₁ h₂ h₃).imp_right hc }
  case some r =>
    exact { h with
      streaming := fun r' hr => (After.streaming h r' hr).imp_right (.imp_right (.imp_right hc)) }

-- The creator goes on without a response of its own.
theorem Before.goto (h : s.Before c) (hc : c.isGone = false) {c' : ClientStep ρ} (hg : c'.isGone = false)
    (ha : c' ≠ .absent) (hh : c'.holds = false)
    (ho : c' = .private → s.done = 1 ∧ s.result.err = some .unshareable) : (s.goto i c').Before c' :=
  { h with
    gone      := by rw [hg]; rw [← hc]; exact h.gone
    present   := ha
    unheld    := hh
    offered   := ho
    available := fun _ => h.available hc }

-- `leave`, by the creator.
theorem Creating.leave {refs : Nat} {cancelled : Bool} (h : s.Creating .leave got) :
    Creating { s.goto i .gone with creatorGone := s.creatorGone + 1, refs, cancelled } .gone got := by
  cases got
  case none =>
    have h : s.Before .leave := h
    exact { h with
      gone      := congrArg (· + 1) h.gone
      present   := nofun
      unheld    := rfl
      offered   := nofun
      available := nofun }
  case some r =>
    have h : s.After .leave r := h
    exact { h with
      gone      := congrArg (· + 1) h.gone
      held      := .inr rfl
      streaming := nofun
      awaiting  := nofun
      left      := fun _ => h.left rfl }

-- A request moves. What the creator closes is not touched by the others.
theorem Inv.move {c : ClientStep ρ} {refs creatorGone privateDone : Nat} {cancelled : Bool} (h : s.Inv)
    (hp : Producing { s.goto i c with refs, creatorGone, privateDone, cancelled })
    (hn : s.cancelled = true → cancelled = true)
    (hs : c.solitary = true → i = s.creator)
    (hk : ∀ key, c = .serve key → s.done = 1 ∧ s.result.err = none ∧ s.result.key = key)
    (ho : i ≠ s.creator → creatorGone = s.creatorGone ∧ privateDone = s.privateDone)
    (hc : i = s.creator → Creating { s.goto i c with refs, creatorGone, privateDone, cancelled } c
      (s.received s.creator)) :
    Inv { s.goto i c with refs, creatorGone, privateDone, cancelled } where
  producing := hp
  creating  := by
    by_cases hi : i = s.creator
    case pos =>
      have hu : Function.update s.client i c s.creator = c := by rw [hi, Function.update_self]
      simpa only [SharedFill.goto, hu] using hc hi
    case neg =>
      obtain ⟨rfl, rfl⟩ := ho hi
      have hu : Function.update s.client i c s.creator = s.client s.creator :=
        Function.update_of_ne (Ne.symm hi) ..
      simpa only [SharedFill.goto, hu] using h.creating.mono hn
  others    := by
    intro j hj
    refine ⟨?_, (h.others j hj).2⟩
    by_cases hi : j = i
    case pos =>
      subst hi
      simpa [SharedFill.goto] using fun h => hj (hs h)
    case neg => simpa [SharedFill.goto, Function.update_of_ne hi] using (h.others j hj).1
  serves    := by
    intro j key hj
    by_cases hi : j = i
    case pos =>
      subst hi
      exact hk key (by simpa [SharedFill.goto] using hj)
    case neg => exact h.serves j key (by simpa [SharedFill.goto, Function.update_of_ne hi] using hj)

omit [DecidableEq ι] in
theorem Inv.own (h : s.Inv) (hc : s.client i = c) (hi : i = s.creator) :
    s.Creating c (s.received s.creator) := by
  rw [← hc, hi]
  exact h.creating

omit [DecidableEq ι] in
theorem Inv.creator (h : s.Inv) (hc : s.client i = c) (hs : c.solitary = true) : i = s.creator := by
  by_contra hi
  simpa [hc, hs] using (h.others i hi).1

omit [DecidableEq ι] in
theorem Inv.done (h : s.Inv) (hd : 0 < s.done) : s.done = 1 := by
  have := h.producing.done
  split at this <;> omega

omit [DecidableEq ι] in
theorem Inv.exits (h : s.Inv) (hx : 0 < s.exits) : s.exits = 1 := by
  have := h.producing.exits
  split at this <;> omega

-- A request gives up, or has been answered from the cache.
theorem Inv.quit (h : s.Inv) (hc : s.client i = c) (hh : c.holds = false) (hl : c.leaves = false) :
    (s.goto i .leave).Inv := by
  refine h.move { h.producing with } id nofun nofun (fun _ => ⟨rfl, rfl⟩) fun hi => ?_
  obtain ⟨hn, hb⟩ := (h.own hc hi).before hh hl
  rw [hn]
  refine hb.goto ?_ rfl nofun rfl nofun
  cases c <;> first | rfl | cases hl

theorem Inv.notified (h : s.Inv) (hc : s.client i = .wait) (hd : s.done = 1) :
    (s.goto i (s.answer i)).Inv := by
  refine h.move { h.producing with } id (fun hs => ?_) (fun key hk => ?_) (fun _ => ⟨rfl, rfl⟩) fun hi => ?_
  case refine_1 =>
    simp only [answer] at hs
    split at hs
    case isTrue hu => exact hu.1
    case isFalse => split at hs <;> cases hs
  case refine_2 =>
    simp only [answer] at hk
    split at hk
    case isTrue => cases hk
    case isFalse =>
      split at hk
      case isTrue he =>
        cases hk
        exact ⟨hd, he, rfl⟩
      case isFalse => cases hk
  case refine_3 =>
    obtain ⟨hn, hb⟩ := (h.own hc hi).before rfl rfl
    rw [hn]
    simp only [answer]
    split
    case isTrue hu => exact hb.goto rfl rfl nofun rfl fun _ => ⟨hd, hu.2⟩
    case isFalse => split <;> exact hb.goto rfl rfl nofun rfl nofun

-- The response is handed over.
theorem Inv.receive {resp : ρ} (h : s.Inv) (hc : s.client i = .private) (hp : s.producer = .send resp) :
    Inv { s.goto i (.streaming resp) with
      producer := .stream resp
      received := Function.update s.received i (some resp) } := by
  obtain rfl := h.creator hc rfl
  obtain ⟨_, hb⟩ := (h.own hc rfl).before rfl rfl
  refine ⟨h.producing.step (.receive s.creator resp hc hp), ?_, fun j hj => ?_, fun j key hj => ?_⟩
  case refine_1 =>
    simp only [SharedFill.goto, Function.update_self]
    exact {
      gone      := hb.gone
      held      := .inl rfl
      published := rfl
      sent      := nofun
      streaming := fun r' hr => by
        cases hr
        exact ⟨rfl, hb.unclosed, .inl rfl⟩
      awaiting  := nofun
      left      := nofun }
  case refine_2 =>
    have hj : j ≠ s.creator := hj
    simpa [SharedFill.goto, Function.update_of_ne hj] using h.others j hj
  case refine_3 =>
    by_cases hi : j = s.creator
    case pos => simp [SharedFill.goto, hi] at hj
    case neg => exact h.serves j key (by simpa [SharedFill.goto, Function.update_of_ne hi] using hj)

end Client

-- The producer publishes once, and it touches nobody else.
theorem Step.produces (h : s.Step .producer s') (hp : s.Producing) :
    s'.creator = s.creator ∧ s'.client = s.client ∧ s'.received = s.received ∧
      (s.done = 1 → s'.done = 1 ∧ s'.result = s.result) := by
  cases h
  case publishPrivate resp he =>
    exact ⟨rfl, rfl, rfl, fun hd => absurd hd (by simp [hp.unpublished he rfl])⟩
  case publish result he =>
    exact ⟨rfl, rfl, rfl, fun hd => absurd hd (by simp [hp.unpublished he rfl])⟩
  all_goals exact ⟨rfl, rfl, rfl, fun hd => ⟨hd, rfl⟩⟩

theorem Creating.produce (h : s.Creating c got) (hp : s.Producing) (hs : s.Step .producer s') :
    s'.Creating c got := by
  cases got
  case none => exact Before.produce h hp hs
  case some r => exact After.produce h hp hs

theorem Inv.produce (h : s.Inv) (hs : s.Step .producer s') : s'.Inv := by
  obtain ⟨hi, hc, hr, hd⟩ := hs.produces h.producing
  refine ⟨h.producing.step hs, ?_, ?_, fun i key hk => ?_⟩
  case refine_1 =>
    rw [hi, hc, hr]
    exact h.creating.produce h.producing hs
  case refine_2 =>
    rw [hi, hc, hr]
    exact h.others
  case refine_3 =>
    obtain ⟨h₁, h₂⟩ := h.serves i key (hc ▸ hk)
    obtain ⟨h₃, h₄⟩ := hd h₁
    exact ⟨h₃, h₄ ▸ h₂⟩

theorem Inv.step (h : s.Inv) (hs : s.Step e s') : s'.Inv := by
  have hp := h.producing.step hs
  cases e
  case producer => exact h.produce hs
  all_goals cases hs
  case client.notified i hd hc => exact h.notified hc (h.done hd)
  case client.receive i resp he hc => exact h.receive hc he
  case client.unavailable i hx hc => exact h.quit hc rfl rfl
  case client.sent i resp hc =>
    have hi := h.creator hc rfl
    refine h.move hp id (fun _ => hi) nofun (absurd hi) fun hi => ?_
    obtain ⟨r, hr, ha⟩ := (h.own hc hi).after rfl
    rw [hr]
    exact { ha with
      held      := .inl rfl
      streaming := nofun
      awaiting  := fun _ => congrArg (· + 1) (ha.streaming resp rfl).2.1
      left      := nofun }
  case client.joined i hx hc =>
    refine h.move hp id nofun nofun (fun _ => ⟨rfl, rfl⟩) fun hi => ?_
    obtain ⟨r, hr, ha⟩ := (h.own hc hi).after rfl
    rw [hr]
    exact { ha with
      held      := .inr rfl
      streaming := nofun
      awaiting  := nofun
      left      := fun _ => ⟨ha.awaiting rfl, h.exits hx⟩ }
  case client.served i key hc => exact h.quit hc rfl rfl
  case client.leave i hc =>
    refine h.move hp (fun hx => by simp [hx]) nofun nofun (fun hi => ⟨if_neg hi, rfl⟩) fun hi => ?_
    rw [if_pos hi]
    exact (h.own hc hi).leave
  case join.join i hx hc =>
    refine h.move hp id nofun nofun (fun _ => ⟨rfl, rfl⟩) fun hi => ?_
    obtain ⟨_, hb⟩ := (h.own hc hi).before rfl rfl
    exact absurd rfl hb.present
  case cancel.abandon i hc =>
    obtain hc | hc := hc
    case inl => exact h.quit hc rfl rfl
    case inr => exact h.quit hc rfl rfl
  case cancel.timeout => exact { h with producing := hp, creating := h.creating.mono fun _ => rfl }

section Ends

variable [Fintype ι]

def rank (s : SharedFill ι ρ) : Nat :=
  s.producer.rank + ∑ i, (s.client i).rank + (!s.cancelled).toNat

theorem sum_rank_goto (s : SharedFill ι ρ) (i : ι) (c : ClientStep ρ) :
    ∑ j, ((s.goto i c).client j).rank + (s.client i).rank = ∑ j, (s.client j).rank + c.rank := by
  have h : (fun j => ((s.goto i c).client j).rank) =
      Function.update (fun j => (s.client j).rank) i c.rank :=
    funext fun j => Function.apply_update (fun _ a => a.rank) s.client i c j
  rw [h]
  exact sum_update ..

-- A request moves on, and nothing of the producer is lost.
theorem rank_lt_of_goto {c : ClientStep ρ} {producer : ProducerStep ρ} {result : FillResult}
    {refs done creatorGone privateDone exits : Nat} {cancelled : Bool} {received : ι → Option ρ}
    (hc : c.rank < (s.client i).rank) (hp : producer.rank ≤ s.producer.rank)
    (hn : s.cancelled = true → cancelled = true) :
    rank { s.goto i c with
      producer, refs, cancelled, result, done, creatorGone, privateDone, exits, received } < s.rank := by
  have hg := sum_rank_goto s i c
  have hb : (!cancelled).toNat ≤ (!s.cancelled).toNat := by
    cases h : s.cancelled
    case false => exact Bool.toNat_le _
    case true => simp [hn h]
  simp only [rank, goto] at hg ⊢
  omega

omit [Fintype ι] in
theorem rank_answer : (s.answer i).rank < 5 := by
  simp only [answer]
  split
  case isTrue => simp [ClientStep.rank]
  case isFalse => split <;> simp [ClientStep.rank]

theorem Step.rank_lt (h : s.Step e s') (hj : ∀ i, e ≠ .join i) : s'.rank < s.rank := by
  cases h
  case notified i hc hd => exact rank_lt_of_goto (by rw [hc]; exact rank_answer) le_rfl id
  case receive i resp hc hp =>
    exact rank_lt_of_goto (by simp [hc, ClientStep.rank]) (by simp [hp, ProducerStep.rank]) id
  case unavailable i hc hx => exact rank_lt_of_goto (by simp [hc, ClientStep.rank]) le_rfl id
  case sent i resp hc => exact rank_lt_of_goto (by simp [hc, ClientStep.rank]) le_rfl id
  case joined i hc hx => exact rank_lt_of_goto (by simp [hc, ClientStep.rank]) le_rfl id
  case served i key hc => exact rank_lt_of_goto (by simp [hc, ClientStep.rank]) le_rfl id
  case leave i hc =>
    exact rank_lt_of_goto (by simp [hc, ClientStep.rank]) le_rfl fun hx => by simp [hx]
  case join i hc hx => exact absurd rfl (hj i)
  case abandon i hc =>
    obtain hc | hc := hc
    case inl => exact rank_lt_of_goto (by simp [hc, ClientStep.rank]) le_rfl id
    case inr => exact rank_lt_of_goto (by simp [hc, ClientStep.rank]) le_rfl id
  case timeout hx => simp [rank, hx]
  all_goals
    simp only [rank, *, ProducerStep.rank, Bool.not_true, Bool.toNat_false]
    omega

end Ends

-- Neither the producer nor a request can move.
def Stuck (s : SharedFill ι ρ) : Prop := ∀ s', ¬ s.Step .producer s' ∧ ∀ i, ¬ s.Step (.client i) s'

section Stuck

-- Only two selections of the producer wait for somebody.
theorem Stuck.producer (h : s.Stuck) :
    s.producer = .exited ∨ s.creatorGone = 0 ∧ s.cancelled = false ∧
      ((∃ r, s.producer = .send r) ∨ s.privateDone = 0 ∧ ∃ r, s.producer = .stream r) := by
  cases hp : s.producer
  case fetch => exact absurd (.fetched {} hp nofun) (h _).1
  case publishPrivate resp => exact absurd (.publishPrivate resp hp) (h _).1
  case send resp =>
    have hg : ¬ (0 < s.creatorGone ∨ s.cancelled = true) := fun hg => (h _).1 (.unsent resp hp hg)
    simp only [not_or, Nat.pos_iff_ne_zero, not_not, Bool.not_eq_true] at hg
    exact .inr ⟨hg.1, hg.2, .inl ⟨resp, rfl⟩⟩
  case stream resp =>
    have hg : ¬ (0 < s.privateDone ∨ 0 < s.creatorGone ∨ s.cancelled = true) :=
      fun hg => (h _).1 (.streamed resp hp hg)
    simp only [not_or, Nat.pos_iff_ne_zero, not_not, Bool.not_eq_true] at hg
    exact .inr ⟨hg.2.1, hg.2.2, .inr ⟨hg.1, resp, rfl⟩⟩
  case publish result => exact absurd (.publish result hp) (h _).1
  case release => exact absurd (.release hp) (h _).1
  case finish => exact absurd (.finish hp) (h _).1
  case exit => exact absurd (.exit hp) (h _).1
  case exited => exact .inl rfl

-- A request waits for the publication, for the response or for the end of the producer.
theorem Stuck.client (h : s.Stuck) (i : ι) :
    s.client i = .absent ∨ s.client i = .gone ∨ s.client i = .wait ∧ s.done = 0 ∨
      s.client i = .private ∧ s.cancelled = false ∧ (∀ r, s.producer ≠ .send r) ∨
      s.client i = .awaitExit ∧ s.exits = 0 := by
  cases hc : s.client i
  case absent => exact .inl rfl
  case wait =>
    have hd : ¬ 0 < s.done := fun hd => (h _).2 i (.notified i hc hd)
    exact .inr (.inr (.inl ⟨rfl, by omega⟩))
  case «private» =>
    refine .inr (.inr (.inr (.inl ⟨rfl, ?_, fun r hp => (h _).2 i (.receive i r hc hp)⟩)))
    exact Bool.eq_false_iff.mpr fun hx => (h _).2 i (.unavailable i hc hx)
  case streaming resp => exact absurd (.sent i resp hc) ((h _).2 i)
  case awaitExit =>
    have hx : ¬ 0 < s.exits := fun hx => (h _).2 i (.joined i hc hx)
    exact .inr (.inr (.inr (.inr ⟨rfl, by omega⟩)))
  case serve key => exact absurd (.served i key hc) ((h _).2 i)
  case leave => exact absurd (.leave i hc) ((h _).2 i)
  case gone => exact .inr (.inl rfl)

theorem Before.moves (h : s.Before (s.client s.creator)) (hs : s.Stuck) (hd : s.done = 1)
    (hg : s.creatorGone = 0) : ∀ r, s.producer ≠ .send r := by
  have h₁ := h.gone
  have h₂ := h.present
  have h₃ := h.unheld
  obtain hc | hc | ⟨hc, hw⟩ | ⟨hc, _, hp⟩ | ⟨hc, _⟩ := hs.client s.creator
  case inl => exact absurd hc h₂
  case inr.inl => simp [hc, hg, ClientStep.isGone] at h₁
  case inr.inr.inl => simp [hd] at hw
  case inr.inr.inr.inl => exact hp
  case inr.inr.inr.inr => simp [hc, ClientStep.holds] at h₃

theorem After.moves {r : ρ} (h : s.After (s.client s.creator) r) (hs : s.Stuck) (hg : s.creatorGone = 0) :
    s.privateDone = 1 := by
  have h₁ := h.gone
  have h₂ := h.held
  obtain hc | hc | ⟨hc, _⟩ | ⟨hc, _⟩ | ⟨hc, _⟩ := hs.client s.creator
  case inr.inl => simp [hc, hg, ClientStep.isGone] at h₁
  case inr.inr.inr.inr => exact h.awaiting hc
  all_goals simp [hc, ClientStep.holds, ClientStep.leaves] at h₂

-- The creator takes the response and lets the producer go on, or it leaves.
theorem Inv.exited (h : s.Inv) (hs : s.Stuck) : s.producer = .exited := by
  obtain hp | ⟨hg, _, ⟨r, hp⟩ | ⟨hd, r, hp⟩⟩ := hs.producer
  case inl => exact hp
  all_goals
    exfalso
    have hc := h.creating
    cases hr : s.received s.creator
  case inr.inl.none =>
    have hd : s.done = 1 := by rw [h.producing.done, hp]; rfl
    rw [hr] at hc
    exact Before.moves hc hs hd hg r hp
  case inr.inl.some =>
    rw [hr] at hc
    exact After.sent hc r hp
  case inr.inr.none =>
    rw [hr] at hc
    exact Before.unsent hc r hp
  case inr.inr.some =>
    rw [hr] at hc
    simp [After.moves hc hs hg] at hd

theorem Inv.settled (h : s.Inv) (hs : s.Stuck) :
    s.producer = .exited ∧ ∀ i, s.client i = .absent ∨ s.client i = .gone := by
  have hp := h.exited hs
  have hd : s.done = 1 := by rw [h.producing.done, hp]; rfl
  have hx : s.exits = 1 := by rw [h.producing.exits, hp]; rfl
  have hc : s.cancelled = true := h.producing.cancelled (by rw [hp]; rfl)
  refine ⟨hp, fun i => ?_⟩
  have := hs.client i
  simpa [hd, hx, hc] using this

end Stuck

-- What the requests of a task can rely on. No channel is closed twice. A response that may not be shared
-- goes to the creator only, its body stays open while it is copied, and the creator leaves after the
-- producer has released everything. The others are answered by what has been published. If no more
-- requests join, then all of them and the producer come to an end.
structure Orderly [Fintype ι] (s : SharedFill ι ρ) : Prop where
  closed    : s.done ≤ 1 ∧ s.creatorGone ≤ 1 ∧ s.privateDone ≤ 1 ∧ s.exits ≤ 1
  alone     : ∀ i r, s.received i = some r → i = s.creator
  streaming : ∀ i r, s.client i = .streaming r →
    s.received i = some r ∧ (s.producer = .stream r ∨ s.cancelled = true)
  joined    : ∀ i r, s.received i = some r → (s.client i).leaves = true → s.producer = .exited
  served    : ∀ i key, s.client i = .serve key →
    s.done = 1 ∧ s.result.err = none ∧ s.result.key = key
  settles   : ∀ e s', s.Step e s' → (∀ i, e ≠ .join i) → s'.rank < s.rank
  settled   : s.Stuck → s.producer = .exited ∧ ∀ i, s.client i = .absent ∨ s.client i = .gone

omit [DecidableEq ι] in
theorem Creating.closed (h : s.Creating c got) : s.creatorGone ≤ 1 ∧ s.privateDone ≤ 1 := by
  cases got
  case none =>
    have hg := Before.gone h
    have hd := Before.unclosed h
    exact ⟨by split at hg <;> omega, by omega⟩
  case some r =>
    replace h : s.After c r := h
    have hg := h.gone
    refine ⟨by split at hg <;> omega, ?_⟩
    cases c
    case streaming r' =>
      rw [(h.streaming r' rfl).2.1]
      exact Nat.zero_le 1
    case awaitExit => exact (h.awaiting rfl).le
    case leave => exact (h.left rfl).1.le
    case gone => exact (h.left rfl).1.le
    all_goals cases h.held <;> contradiction

omit [DecidableEq ι] in
theorem Producing.exited (h : s.Producing) (hx : s.exits = 1) : s.producer = .exited := by
  have he := h.exits
  cases hp : s.producer <;> simp [hp, hx, ProducerStep.ended] at he ⊢

theorem Inv.orderly [Fintype ι] (h : s.Inv) : s.Orderly where
  closed    := by
    have hd := h.producing.done
    have hx := h.producing.exits
    obtain ⟨h₁, h₂⟩ := h.creating.closed
    exact ⟨by split at hd <;> omega, h₁, h₂, by split at hx <;> omega⟩
  alone     := fun i r hr => by
    by_contra hi
    simp [(h.others i hi).2] at hr
  streaming := fun i r hc => by
    have hi := h.creator hc rfl
    obtain ⟨r', hr, ha⟩ := (h.own hc hi).after rfl
    obtain ⟨rfl, _, hp⟩ := ha.streaming r rfl
    exact ⟨hi ▸ hr, hp⟩
  joined    := fun i r hr hc => by
    have hi : i = s.creator := by
      by_contra hi
      simp [(h.others i hi).2] at hr
    have ha := h.own rfl hi
    rw [← hi, hr] at ha
    exact h.producing.exited (After.left ha hc).2
  served    := h.serves
  settles   := fun _ _ hs => hs.rank_lt
  settled   := h.settled

abbrev Reachable (creator : ι) (s : SharedFill ι ρ) : Prop := Run Step (fun _ _ => True) (new creator) s

theorem client_new {creator : ι} :
    (new creator : SharedFill ι ρ).client i = if i = creator then .wait else .absent := by
  simp only [new, Function.update_apply]

theorem Inv.new (creator : ι) : (new creator : SharedFill ι ρ).Inv where
  producing := ⟨rfl, rfl, nofun, nofun, nofun⟩
  creating  := by
    rw [client_new, if_pos (show (SharedFill.new creator).creator = creator from rfl)]
    exact ⟨rfl, nofun, rfl, rfl, nofun, nofun, nofun⟩
  others    := by
    intro i (hi : i ≠ creator)
    rw [client_new, if_neg hi]
    exact ⟨rfl, rfl⟩
  serves    := by
    intro i key hc
    rw [client_new] at hc
    split at hc <;> cases hc

-- For any number of requests and every order of their steps.
theorem reachable_orderly [Fintype ι] {creator : ι} (h : Reachable creator s) : s.Orderly :=
  (h.invariant (I := Inv) (fun _ _ _ h hs _ => h.step hs) (.new creator)).orderly

-- The creator copies a response of its own while another request has joined.
theorem reachable_orderly_sample : ∃ s : SharedFill (Fin 2) Nat, s.Orderly ∧
    s.client 0 = .streaming 7 ∧ s.producer = .stream 7 ∧ s.client 1 = .wait := by
  have h : ∃ s : SharedFill (Fin 2) Nat, Reachable 0 s ∧
      s.client 0 = .streaming 7 ∧ s.producer = .stream 7 ∧ s.client 1 = .wait :=
    ⟨_, (((((Run.refl.step (.join 1 rfl rfl) trivial).step (.unshared 7 rfl) trivial).step
      (.publishPrivate 7 rfl) trivial).step (.notified 0 rfl Nat.one_pos) trivial).step
      (.receive 0 7 rfl rfl) trivial), rfl, rfl, rfl⟩
  obtain ⟨s, hr, hs⟩ := h
  exact ⟨s, reachable_orderly hr, hs⟩

end SharedFill
end Bakemono
