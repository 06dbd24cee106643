import Bakemono.Fill.Replace
import Bakemono.Stripe.Abort

namespace Bakemono

namespace Stripe

variable {H : Hash} {s s' s'' : Stripe} {e : Event} {key : Bytes}

-- Only what has been published by the writer is taken out of the memory.
theorem ram_abortLocked_cases {i : Nat} {w : Writer} : (s.abortLocked i w).ram key = s.ram key ∨
    (s.abortLocked i w).ram key = none ∧ ∃ p ∈ w.published, p.1 = key := by
  by_cases hp : ∃ p ∈ w.published, p.1 = key
  case pos =>
    cases h : (s.abortLocked i w).ram key
    case none => exact .inr ⟨rfl, hp⟩
    case some x => exact .inl (shrinks_abortLocked.ram key x h).symm
  case neg =>
    rw [ram_abortLocked]
    exact .inl (ram_retracts fun p hm => ⟨fun h => hp ⟨p, hm, h.1⟩, fun h => hp ⟨p, hm, h.1⟩⟩)

-- The counters of a stripe only grow, and its writers stay what they are.
structure Advances (s s' : Stripe) : Prop where
  closing    : s.closing = true → s'.closing = true
  generation : s.generation ≤ s'.generation
  policies   : ∀ slot, s.policyEpochs slot ≤ s'.policyEpochs slot
  writers    : ∀ (j : Nat) (w : Writer), s.writers[j]? = some w → ∃ published closed,
    s'.writers[j]? = some { w with published, closed }

namespace Advances

theorem of_eq (hc : s'.closing = s.closing) (hg : s'.generation = s.generation)
    (hp : s'.policyEpochs = s.policyEpochs) (hw : s'.writers = s.writers) : Advances s s' :=
  ⟨fun h => hc ▸ h, hg.ge, fun _ => hp ▸ le_rfl, fun _ w h => ⟨w.published, w.closed, hw ▸ h⟩⟩

theorem refl : Advances s s := .of_eq rfl rfl rfl rfl

theorem trans (h : Advances s s') (h' : Advances s' s'') : Advances s s'' where
  closing    := fun hc => h'.closing (h.closing hc)
  generation := h.generation.trans h'.generation
  policies   := fun slot => (h.policies slot).trans (h'.policies slot)
  writers    := fun j w hw =>
    have ⟨_, _, hw⟩ := h.writers j w hw
    have ⟨published, closed, hw⟩ := h'.writers j _ hw
    ⟨published, closed, hw⟩

theorem drops (h : Drops s s') : Advances s s' :=
  .of_eq (by rw [h.rest]) (by rw [h.rest]) (by rw [h.rest]) (by rw [h.rest])

-- One writer goes on.
theorem set {i : Nat} {w : Writer} {published : List (Bytes × Record)} {closed : Bool}
    (hw : s.writers[i]? = some w) (hc : s'.closing = s.closing) (hg : s'.generation = s.generation)
    (hp : s'.policyEpochs = s.policyEpochs)
    (hs : s'.writers = s.writers.set i { w with published, closed }) : Advances s s' where
  closing    := fun h => hc ▸ h
  generation := hg.ge
  policies   := fun _ => hp ▸ le_rfl
  writers    := fun j w' hw' => by
    rw [hs]
    by_cases hj : i = j
    case pos =>
      subst hj
      cases hw.symm.trans hw'
      exact ⟨published, closed, List.getElem?_set_self (List.getElem?_eq_some_iff.mp hw).1⟩
    case neg => exact ⟨w'.published, w'.closed, by rwa [List.getElem?_set_ne hj]⟩

theorem removeLocked : Advances s (s.removeLocked H key) := by
  have h : Advances s { s.detach key with index := s.index.delete key } := .of_eq rfl rfl rfl rfl
  exact h.trans (.drops drops_removeFragments)

theorem removals {keys : List Bytes} : Advances s (keys.foldl (Stripe.removeLocked H) s) := by
  induction keys generalizing s
  case nil => exact .refl
  case cons k keys hi => exact removeLocked.trans hi

theorem counted : Advances s { s.advance with removals := s.removals + 1 } :=
  ⟨id, Nat.le_succ _, fun _ => le_rfl, fun _ w h => ⟨w.published, w.closed, h⟩⟩

theorem abortLocked {i : Nat} {w : Writer} (hw : s.writers[i]? = some w) :
    Advances s (s.abortLocked i w) := by
  have h : Drops s (w.published.foldl retract s) := Drops.foldl (fun _ => drops_retract) _
  have hd : Advances s ((w.published.foldl retract s).disown i w) := by
    unfold disown
    split
    all_goals exact (drops h).trans (.of_eq rfl rfl rfl rfl)
  have hs := (writers_abortLocked (s := s) (i := i) (w := w)).1
  have h' : Advances s { s with writers := (s.abortLocked i w).writers } := set hw rfl rfl rfl hs
  exact ⟨hd.closing, hd.generation, hd.policies, h'.writers⟩

theorem openWrite {w : Writer} : Advances s (s.openWrite w) := by
  unfold Stripe.openWrite
  split
  case h_1 => exact .of_eq rfl rfl rfl rfl
  case h_2 =>
    refine ⟨id, le_rfl, fun _ => le_rfl, fun j w' hw => ⟨w'.published, w'.closed, ?_⟩⟩
    exact (List.getElem?_append_left (List.getElem?_eq_some_iff.mp hw).1).trans hw

theorem purgeSelector {selector : Bytes} {asPrefix : Bool} :
    Advances s (s.purgeSelector H selector asPrefix) :=
  counted.trans removals

end Advances

theorem Step.advances (h : Step H s e s') : Advances s s' := by
  cases h
  case publish hw _ _ _ _ _ => exact .set hw rfl rfl rfl rfl
  case abort hw _ => exact .abortLocked hw
  case close hw _ => exact .set hw rfl rfl rfl rfl
  case openWrite => exact .openWrite
  case remove => exact Advances.counted.trans .removeLocked
  case purge => exact .purgeSelector
  case removeLocked => exact .removeLocked
  case policy slot _ =>
    refine ⟨id, le_rfl, fun slot' => ?_, fun _ w h => ⟨w.published, w.closed, h⟩⟩
    by_cases hs : slot' = slot
    case pos => simp [hs]
    case neg => simp [hs]
  case closing => exact ⟨fun _ => rfl, le_rfl, fun _ => le_rfl, fun _ w h => ⟨w.published, w.closed, h⟩⟩
  case abortOpenWriters =>
    exact ⟨id, Nat.le_succ _, fun _ => le_rfl, fun _ w h => ⟨w.published, w.closed, h⟩⟩
  case drop h => exact .drops h
  all_goals exact .of_eq rfl rfl rfl rfl

end Stripe

-- A cache, the tokens that have been captured, each with the number of its parent, and the tokens
-- under which the writers of the stripes have been opened.
structure Filling (n : Nat) where
  cache  : Cache (n + 1)
  tokens : List (FillToken (n + 1) × Option Nat)
  owner  : Fin (n + 1) → Nat → Option Nat

namespace Filling

inductive Event
  | begin
  | derive (parent : Nat)
  | under (token : Nat)
  | purge
  | invalidate (token : Nat)
  | other

variable {n : Nat}

-- The owner of the writer which has been opened, if there is one.
def enlist (f : Filling n) (i : Fin (n + 1)) (res : Except Err Nat) (k : Nat) :
    Fin (n + 1) → Nat → Option Nat :=
  match res with
  | .ok j    => Function.update f.owner i (Function.update (f.owner i) j (some k))
  | .error _ => f.owner

def put (f : Filling n) (i : Fin (n + 1)) (s : Stripe) : Filling n :=
  { f with cache := Function.update f.cache i s }

-- Everything that can happen to a cache. What is done under a token is the opening of writers and what
-- these writers do.
inductive Step (H : Hash) (f : Filling n) : Event → Filling n → Prop
  | beginFill (key selector t) :
    (f.cache.beginFill H key selector = .ok t) →
    Step H f .begin { f with tokens := f.tokens ++ [(t, none)] }
  | deriveFill (p parent key t) :
    (f.tokens[p]? = some parent) → (f.cache.deriveFillLocked H parent.1 key = .ok t) →
    Step H f (.derive p) { f with tokens := f.tokens ++ [(t, some p)] }
  | openWriteFillKey (k t key version res s) :
    (f.tokens[k]? = some t) →
    ((f.cache (Cache.keyToStripe H key)).newCacheVCWriteLocked H
      (Cache.bound t.1 key (Cache.keyToStripe H key)) version = (res, s)) →
    Step H f (.under k)
      { f.put (Cache.keyToStripe H key) s with owner := f.enlist (Cache.keyToStripe H key) res k }
  | openWriteFillKeyReplacing (k t key remove ctx version res c) :
    (f.tokens[k]? = some t) →
    (f.cache.openWriteFillKeyReplacing H (some t.1) key remove ctx version = (res, c)) →
    Step H f (.under k)
      { f with cache := c, owner := f.enlist (Cache.keyToStripe H key) res k }
  | openWriteDerivedFill (p parent key t version res c) :
    (f.tokens[p]? = some parent) → (f.cache.deriveFillLocked H parent.1 key = .ok t) →
    (f.cache.openWriteFillKeyReplacingLocked H t key [] version = (res, c)) →
    Step H f (.under f.tokens.length)
      { cache  := c
        tokens := f.tokens ++ [(t, some p)]
        owner  := f.enlist (Cache.keyToStripe H key) res f.tokens.length }
  -- A fragment or a head is published.
  | publish (i : Fin (n + 1)) (j k : Nat) (w : Writer) (idx r d fate kept) :
    (f.owner i j = some k) → ((f.cache i).writers[j]? = some w) → ((f.cache i).Admits H j w) →
    (Stripe.Step H (f.cache i) (.publish (H.fragmentKey w.key idx) r)
      ((f.cache i).publish H j w idx r d fate kept)) →
    Step H f (.under k) (f.put i ((f.cache i).publish H j w idx r d fate kept))
  | abort (i : Fin (n + 1)) (j k : Nat) (w : Writer) :
    (f.owner i j = some k) → ((f.cache i).writers[j]? = some w) → (w.closed = false) →
    Step H f (.under k) (f.put i ((f.cache i).abortLocked j w))
  | close (i : Fin (n + 1)) (j k : Nat) (w : Writer) :
    (f.owner i j = some k) → ((f.cache i).writers[j]? = some w) → (w.closed = false) →
    Step H f (.under k)
      (f.put i { f.cache i with writers := (f.cache i).writers.set j { w with closed := true } })
  -- The second critical section of `UpdateHTTPInfo`, which has no writer.
  | updateHTTPInfo (i k t key r s) :
    (f.tokens[k]? = some t) → (f.cache.checkFillLocked H t.1 = .ok ()) →
    (Stripe.Step H (f.cache i) (.publish key r) s) → (s.writers = (f.cache i).writers) →
    Step H f (.under k) (f.put i s)
  | purgeSelector (selector asPrefix) :
    (selector ≠ []) → (∀ i, (f.cache i).closing = false) →
    Step H f .purge { f with cache := fun i => (f.cache i).purgeSelector H selector asPrefix }
  | invalidateFill (k t c writers) :
    (f.tokens[k]? = some t) → (f.cache.invalidateFill H t.1 = (none, c, writers)) →
    Step H f (.invalidate k) { f with cache := c }
  -- What `Get` shows may change in any way, since nothing here rests on the directory.
  | shows (i dirs) :
    Step H f .other (f.put i { f.cache i with ring := { (f.cache i).ring with dirs } })
  -- What is not done under a token: the log, evacuation, `Remove`, `Close`.
  | other (i e s) :
    (Stripe.Step H (f.cache i) e s) → (s.writers = (f.cache i).writers) →
    (∀ key r, e ≠ .publish key r) → Step H f .other (f.put i s)

-- The writer belongs to the token.
structure Bound {m : Nat} (t : FillToken m) (i : Fin m) (w : Writer) : Prop where
  generation : w.generation = t.fences.own.generations i
  selector   : w.selector = t.selector
  policy     : w.policy = t.fences.own.policies i
  fence      : ∀ p ∈ t.fences.parent, w.fenceSelector = p.selector ∧ w.fencePolicy = p.policies i

-- A derived token keeps the generations of its parent, and its fence.
structure Derived {m : Nat} (t parent : FillToken m) : Prop where
  generations : t.fences.own.generations = parent.fences.own.generations
  parent      : t.fences.parent = some parent.fences.own

-- Nothing has been captured yet.
structure Initial (f : Filling n) : Prop where
  tokens : f.tokens = []
  owner  : ∀ i j, f.owner i j = none

structure Inv (H : Hash) (f : Filling n) : Prop where
  captured : ∀ (k : Nat) t, f.tokens[k]? = some t → t.1.fences.Captured H f.cache.epochs ∧ t.1.selector ≠ []
  parents  : ∀ (k : Nat) t p, f.tokens[k]? = some t → t.2 = some p →
    ∃ q, f.tokens[p]? = some q ∧ Derived t.1 q.1
  owners   : ∀ i (j k : Nat), f.owner i j = some k → ∃ t w, f.tokens[k]? = some t ∧
    (f.cache i).writers[j]? = some w ∧ Bound t.1 i w

-- What a token is made of when it is captured.
inductive Captures (H : Hash) (f : Filling n) (t : FillToken (n + 1)) : Option Nat → Prop
  | begin (key selector : Bytes) : (f.cache.beginFill H key selector = .ok t) → Captures H f t none
  | derive (p : Nat) (q : FillToken (n + 1) × Option Nat) (key : Bytes) :
    (f.tokens[p]? = some q) → (f.cache.deriveFillLocked H q.1 key = .ok t) → Captures H f t (some p)

-- What every step does.
structure Moves (H : Hash) (f f' : Filling n) : Prop where
  stripes : ∀ i, (f.cache i).Advances (f'.cache i)
  tokens  : f'.tokens = f.tokens ∨
    ∃ t p, f'.tokens = f.tokens ++ [(t, p)] ∧ Captures H f t p
  owners  : ∀ i (j k : Nat), f'.owner i j = some k → f.owner i j = some k ∨
    ∃ t w, f'.tokens[k]? = some t ∧ (f'.cache i).writers[j]? = some w ∧ Bound t.1 i w

variable {H : Hash} {f f' f₀ f₁ f₂ f₃ f₄ : Filling n} {e : Event} {c c' : Cache (n + 1)} {key : Bytes}
  {t : FillToken (n + 1)} {version : Except Err UInt64} {res : Except Err Nat} {remove : List Bytes}
  {i : Fin (n + 1)}

section Opening

theorem bound_bound {v : UInt64} : Bound t i (Cache.bound t key i v) where
  generation := rfl
  selector   := rfl
  policy     := rfl
  fence      := fun p hp => by
    have hp : t.fences.parent = some p := hp
    simp [Cache.bound, hp]

theorem advances_update {s : Stripe} (h : (c i).Advances s) (i' : Fin (n + 1)) :
    (c i').Advances (Function.update c i s i') :=
  (Function.forall_update_iff c fun i s => (c i).Advances s).mpr ⟨h, fun _ _ => .refl⟩ i'

theorem advances_removals (keys : List Bytes) (i : Fin (n + 1)) :
    (c i).Advances (keys.foldl (Cache.removeOld H) c i) := by
  induction keys generalizing c
  case nil => exact .refl
  case cons key keys hi => exact (advances_update .removeLocked i).trans hi

-- A writer of the token is opened, or an attempt to do so fails.
structure Opens (t : FillToken (n + 1)) (i : Fin (n + 1)) (c : Cache (n + 1)) (res : Except Err Nat)
    (c' : Cache (n + 1)) : Prop where
  stripes : ∀ i, (c i).Advances (c' i)
  writer  : ∀ j, res = .ok j → ∃ w, (c' i).writers[j]? = some w ∧ Bound t i w

theorem Opens.refl {e : Err} : Opens t i c (.error e) c := ⟨fun _ => .refl, nofun⟩

theorem opens_newCacheVCWriteLocked {s : Stripe}
    (h : (c i).newCacheVCWriteLocked H (Cache.bound t key i) version = (res, s)) :
    Opens t i c res (Function.update c i s) := by
  constructor
  case stripes =>
    rcases Stripe.newCacheVCWriteLocked_cases h with ⟨rfl, _⟩ | ⟨v, _, rfl, _⟩
    case inl => exact advances_update .refl
    case inr => exact advances_update .openWrite
  case writer =>
    intro j hj
    have ⟨v, _, hs, hlen, hr⟩ := (Stripe.newCacheVCWriteLocked_spec h).2 j hj
    rw [Function.update_self, hs, hlen]
    exact ⟨_, (Stripe.openWrite_spec hr).2.2, bound_bound⟩

theorem Opens.removals (h : Opens t i c res c') (keys : List Bytes) :
    Opens t i c res (keys.foldl (Cache.removeOld H) c') := by
  constructor
  case stripes => exact fun i => (h.stripes i).trans (advances_removals keys i)
  case writer =>
    intro j hj
    have ⟨w, hw, hb⟩ := h.writer j hj
    have ⟨_, _, hw⟩ := (advances_removals (H := H) (c := c') keys i).writers j w hw
    exact ⟨_, hw, hb.generation, hb.selector, hb.policy, hb.fence⟩

theorem opens_openWriteFillKeyReplacingLocked
    (h : c.openWriteFillKeyReplacingLocked H t key remove version = (res, c')) :
    Opens t (Cache.keyToStripe H key) c res c' := by
  unfold Cache.openWriteFillKeyReplacingLocked at h
  split at h
  case h_1 => cases h; exact .refl
  case h_2 =>
    split at h
    case isTrue => cases h; exact .refl
    split at h
    case isTrue => cases h; exact .refl
    simp only at h
    split at h
    case h_1 hs => cases h; exact opens_newCacheVCWriteLocked hs
    case h_2 hs => cases h; exact (opens_newCacheVCWriteLocked hs).removals _

theorem opens_openWriteFillKeyReplacing {ctx : Option Err}
    (h : c.openWriteFillKeyReplacing H (some t) key remove ctx version = (res, c')) :
    Opens t (Cache.keyToStripe H key) c res c' := by
  simp only [Cache.openWriteFillKeyReplacing] at h
  split at h
  case h_1 => cases h; exact .refl
  case h_2 => cases h; exact .refl
  case h_3 => exact opens_openWriteFillKeyReplacingLocked h

end Opening

section Moves

theorem Moves.put {s : Stripe} (h : (f.cache i).Advances s) : Moves H f (f.put i s) where
  stripes := advances_update h
  tokens  := .inl rfl
  owners  := fun _ _ _ => .inl

-- The owner of a new writer is the token.
theorem owners_enlist {k : Nat} {p : Option Nat} {tokens : List (FillToken (n + 1) × Option Nat)}
    (h : Opens t i f.cache res c') (ht : tokens[k]? = some (t, p)) (i' : Fin (n + 1)) (j k' : Nat)
    (hk : f.enlist i res k i' j = some k') : f.owner i' j = some k' ∨
      ∃ t w, tokens[k']? = some t ∧ (c' i').writers[j]? = some w ∧ Bound t.1 i' w := by
  cases res
  case error => exact .inl hk
  case ok j' =>
    simp only [enlist] at hk
    by_cases hi : i' = i
    case neg =>
      rw [Function.update_of_ne hi] at hk
      exact .inl hk
    case pos =>
      subst hi
      rw [Function.update_self] at hk
      by_cases hj : j = j'
      case neg =>
        rw [Function.update_of_ne hj] at hk
        exact .inl hk
      case pos =>
        subst hj
        rw [Function.update_self] at hk
        cases hk
        have ⟨w, hw, hb⟩ := h.writer j rfl
        exact .inr ⟨_, w, ht, hw, hb⟩

theorem Moves.opens {k : Nat} {p : Option Nat} (h : Opens t i f.cache res c')
    (ht : f.tokens[k]? = some (t, p)) :
    Moves H f { f with cache := c', owner := f.enlist i res k } :=
  ⟨h.stripes, .inl rfl, owners_enlist h ht⟩

theorem advances_invalidateFill {writers : Fin (n + 1) → List Nat}
    (h : c.invalidateFill H t = (none, c', writers)) (i : Fin (n + 1)) :
    (c i).Advances (c' i) ∧
      (c i).policyEpochs (H.policySlot t.selector) < (c' i).policyEpochs (H.policySlot t.selector) := by
  cases hf : c.familyLocked H t
  case error =>
    simp only [Cache.invalidateFill, hf] at h
    cases h
  case ok heads =>
    simp only [Cache.invalidateFill, hf] at h
    cases h
    have hc := Cache.closing_of_familyLocked hf i
    have mono {s s' : Stripe} (h : Run (Stripe.Step H) (fun _ e => e = .other) s s') : s.Advances s' :=
      h.relation (fun _ => .refl) (fun h h' => h.trans h') (fun _ _ _ h _ => h.advances)
    refine ⟨mono (Cache.run_invalidateStripe hc), ?_⟩
    have hle : Stripe.Advances { c i with policyEpochs := _ } (Cache.invalidateStripe H t heads i (c i)).1 :=
      mono (Cache.run_invalidateHeads hc)
    refine lt_of_lt_of_le ?_ (hle.policies _)
    simp

theorem Step.moves (h : Step H f e f') : Moves H f f' := by
  cases h
  case beginFill key selector t ht =>
    exact ⟨fun _ => .refl, .inr ⟨t, none, rfl, .begin key selector ht⟩, fun _ _ _ => .inl⟩
  case deriveFill p q key t hq ht =>
    exact ⟨fun _ => .refl, .inr ⟨t, some p, rfl, .derive p q key hq ht⟩, fun _ _ _ => .inl⟩
  case openWriteFillKey ht h => exact .opens (opens_newCacheVCWriteLocked h) ht
  case openWriteFillKeyReplacing ht h => exact .opens (opens_openWriteFillKeyReplacing h) ht
  case openWriteDerivedFill p q key t version res c hq ht h =>
    have h := opens_openWriteFillKeyReplacingLocked h
    refine ⟨h.stripes, .inr ⟨t, some p, rfl, .derive p q key hq ht⟩, ?_⟩
    exact owners_enlist (p := some p) h (by simp)
  case publish h => exact .put h.advances
  case abort hw _ => exact .put (.abortLocked hw)
  case close hw _ => exact .put (.set hw rfl rfl rfl rfl)
  case updateHTTPInfo h _ => exact .put h.advances
  case purgeSelector => exact ⟨fun _ => .purgeSelector, .inl rfl, fun _ _ _ => .inl⟩
  case invalidateFill h =>
    exact ⟨fun i => (advances_invalidateFill h i).1, .inl rfl, fun _ _ _ => .inl⟩
  case shows => exact .put (.of_eq rfl rfl rfl rfl)
  case other h _ _ => exact .put h.advances

theorem Moves.epochs (h : Moves H f f') : f.cache.epochs.Le f'.cache.epochs where
  closing i    := (h.stripes i).closing
  generation i := (h.stripes i).generation
  policy i     := (h.stripes i).policies

theorem Moves.token {k : Nat} {x} (h : Moves H f f') (ht : f.tokens[k]? = some x) :
    f'.tokens[k]? = some x := by
  rcases h.tokens with h | ⟨t, p, h, _⟩
  case inl => rw [h, ht]
  case inr => rw [h, List.getElem?_append_left (List.getElem?_eq_some_iff.mp ht).1, ht]

-- A token is an old one or has just been captured.
theorem Moves.token_cases {k : Nat} {x} (h : Moves H f f') (ht : f'.tokens[k]? = some x) :
    f.tokens[k]? = some x ∨ Captures H f x.1 x.2 := by
  rcases h.tokens with h | ⟨t, p, h, hc⟩
  case inl => exact .inl (h ▸ ht)
  case inr =>
    rw [h] at ht
    by_cases hk : k < f.tokens.length
    case pos => exact .inl (by rwa [List.getElem?_append_left hk] at ht)
    case neg =>
      rw [List.getElem?_append_right (by omega), List.getElem?_singleton] at ht
      split at ht
      case isTrue => cases ht; exact .inr hc
      case isFalse => cases ht

end Moves

section Invariant

theorem fences_beginFill {selector : Bytes} (h : c.beginFill H key selector = .ok t) :
    t.fences = .begin H c.epochs selector ∧ selector ≠ [] := by
  simp only [Cache.beginFill, Except.bind_eq_ok, Except.check_bind_eq_ok] at h
  obtain ⟨_, hv, _, _, _, _, _, he⟩ := h
  cases he
  exact ⟨rfl, (DirTrie.validateIdentity_eq_ok.mp hv).2.1⟩

theorem fences_deriveFillLocked {parent : FillToken (n + 1)}
    (h : c.deriveFillLocked H parent key = .ok t) :
    t.fences = parent.fences.derive H c.epochs key ∧ key ≠ [] := by
  simp only [Cache.deriveFillLocked, Except.bind_eq_ok, Except.check_bind_eq_ok] at h
  obtain ⟨_, _, hv, _, _, _, _, he⟩ := h
  cases he
  exact ⟨rfl, (DirTrie.validateIdentity_eq_ok.mp hv).2.1⟩

theorem Initial.inv (h : f.Initial) : f.Inv H where
  captured := by simp [h.tokens]
  parents  := by simp [h.tokens]
  owners   := by simp [h.owner]

theorem Inv.captures (h : f.Inv H) {p : Option Nat} (hc : Captures H f t p) :
    t.fences.Captured H f.cache.epochs ∧ t.selector ≠ [] ∧
    ∀ k, p = some k → ∃ q, f.tokens[k]? = some q ∧ Derived t q.1 := by
  cases hc
  case begin key selector ht =>
    obtain ⟨he, hn⟩ := fences_beginFill ht
    refine ⟨he ▸ Fences.captured_begin, ?_, by simp⟩
    rw [FillToken.selector, he]
    exact hn
  case derive k q key hq ht =>
    obtain ⟨he, hn⟩ := fences_deriveFillLocked ht
    refine ⟨he ▸ (h.captured k q hq).1.derive key, ?_, ?_⟩
    case refine_1 =>
      rw [FillToken.selector, he]
      exact hn
    case refine_2 =>
      rintro k ⟨⟩
      exact ⟨q, hq, by rw [he]; rfl, by rw [he]; rfl⟩

theorem Inv.step (h : f.Inv H) (hs : Step H f e f') : f'.Inv H := by
  have hm := hs.moves
  constructor
  case captured =>
    intro k x hx
    cases hm.token_cases hx
    case inl hx => exact (h.captured k x hx).imp_left (·.mono hm.epochs)
    case inr hc =>
      have ⟨hc, hn, _⟩ := h.captures hc
      exact ⟨hc.mono hm.epochs, hn⟩
  case parents =>
    intro k x p hx hp
    have ⟨q, hq, hd⟩ : ∃ q, f.tokens[p]? = some q ∧ Derived x.1 q.1 := by
      cases hm.token_cases hx
      case inl hx => exact h.parents k x p hx hp
      case inr hc => exact (h.captures hc).2.2 p hp
    exact ⟨q, hm.token hq, hd⟩
  case owners =>
    intro i j k ho
    cases hm.owners i j k ho
    case inr hnew => exact hnew
    case inl ho =>
      have ⟨x, w, hx, hw, hb⟩ := h.owners i j k ho
      have ⟨_, _, hw⟩ := (hm.stripes i).writers j w hw
      exact ⟨x, _, hm.token hx, hw, hb.generation, hb.selector, hb.policy, hb.fence⟩

theorem Inv.run (h : f.Inv H) (hr : Run (Step H) (fun _ _ => True) f f') : f'.Inv H :=
  hr.invariant (fun _ _ _ h hs _ => h.step hs) h

end Invariant

section Fence

-- The token is behind an invalidation on every stripe.
def Fenced (H : Hash) (f : Filling n) (t : FillToken (n + 1)) : Prop :=
  ∀ i, t.fences.own.generations i < (f.cache i).generation ∨
    t.fences.own.policies i < (f.cache i).policyEpoch H t.selector ∨
    ∃ p ∈ t.fences.parent, p.selector ≠ [] ∧ p.policies i < (f.cache i).policyEpoch H p.selector

theorem Fenced.step (h : f.Fenced H t) (hm : Moves H f f') : f'.Fenced H t := by
  intro i
  rcases h i with h | h | ⟨p, hp, hn, h⟩
  case inl => exact .inl (h.trans_le (hm.stripes i).generation)
  case inr.inl => exact .inr (.inl (h.trans_le ((hm.stripes i).policies _)))
  case inr.inr => exact .inr (.inr ⟨p, hp, hn, h.trans_le ((hm.stripes i).policies _)⟩)

theorem Fenced.run (h : f.Fenced H t) (hr : Run (Step H) (fun _ _ => True) f f') : f'.Fenced H t :=
  hr.invariant (I := fun f => Fenced H f t) (fun _ _ _ h hs _ => h.step hs.moves) h

theorem Fenced.check (h : f.Fenced H t) : t.fences.check H f.cache.epochs ≠ .ok () := by
  intro hc
  have ⟨hp, ho⟩ := Fences.check_eq_ok.mp hc
  have ⟨_, hg, hpol⟩ := Fence.check_eq_ok.mp ho 0
  rcases h 0 with h | h | ⟨p, hm, _, h⟩
  case inl => exact h.ne hg
  case inr.inl => exact h.ne hpol
  case inr.inr => exact h.ne (Fence.check_eq_ok.mp (hp p hm) 0).2.2

-- A writer of the token is neither opened nor does it publish anything.

theorem Fenced.stale (h : f.Fenced H t) {w : Writer} (hb : Bound t i w) :
    w.generation ≠ (f.cache i).generation ∨ w.policy ≠ (f.cache i).policyEpoch H w.selector ∨
      w.fenceSelector ≠ [] ∧ w.fencePolicy ≠ (f.cache i).policyEpoch H w.fenceSelector := by
  rw [hb.generation, hb.policy, hb.selector]
  rcases h i with h | h | ⟨p, hm, hn, h⟩
  case inl => exact .inl h.ne
  case inr.inl => exact .inr (.inl h.ne)
  case inr.inr =>
    have ⟨hs, hp⟩ := hb.fence p hm
    rw [hs, hp]
    exact .inr (.inr ⟨hn, h.ne⟩)

theorem Fenced.not_admits (h : f.Fenced H t) {w : Writer} {j : Nat} (hb : Bound t i w) :
    ¬(f.cache i).Admits H j w := by
  intro ha
  rcases h.stale hb with h | h | ⟨hn, h⟩
  case inl => exact h ha.generation
  case inr.inl => exact h ha.policy
  case inr.inr => exact h (ha.fence hn)

theorem Fenced.newCacheVCWriteLocked {s : Stripe} (h : f.Fenced H t)
    (hs : (f.cache i).newCacheVCWriteLocked H (Cache.bound t key i) version = (res, s)) :
    s = f.cache i := by
  unfold Stripe.newCacheVCWriteLocked at hs
  cases version
  case error => cases hs; rfl
  case ok v =>
    have hb : Bound t i (Cache.bound t key i v) := bound_bound
    simp only [if_pos (h.stale hb)] at hs
    split at hs
    all_goals cases hs; rfl

theorem Fenced.openWriteFillKeyReplacingLocked (h : f.Fenced H t)
    (hs : f.cache.openWriteFillKeyReplacingLocked H t key remove version = (res, c')) : c' = f.cache := by
  unfold Cache.openWriteFillKeyReplacingLocked at hs
  split at hs
  case h_1 => cases hs; rfl
  case h_2 hc => exact absurd (Cache.checkFillLocked_eq_ok.mp hc).1 h.check

theorem Fenced.openWriteFillKeyReplacing {ctx : Option Err} (h : f.Fenced H t)
    (hs : f.cache.openWriteFillKeyReplacing H (some t) key remove ctx version = (res, c')) :
    c' = f.cache := by
  simp only [Cache.openWriteFillKeyReplacing] at hs
  split at hs
  case h_1 => cases hs; rfl
  case h_2 => cases hs; rfl
  case h_3 => exact h.openWriteFillKeyReplacingLocked hs

-- What is done to a stripe under a token that has been fenced, and what is asked of the directory: nothing
-- at all, or a writer of the token is closed, or it is aborted.
inductive Retreats (f : Filling n) (k : Nat) (i : Fin (n + 1)) : Stripe → List Call → Prop
  | none : Retreats f k i (f.cache i) []
  | close (j : Nat) (w : Writer) :
    (f.owner i j = some k) → ((f.cache i).writers[j]? = some w) →
    Retreats f k i { f.cache i with writers := (f.cache i).writers.set j { w with closed := true } } []
  | abort (j : Nat) (w : Writer) :
    (f.owner i j = some k) → ((f.cache i).writers[j]? = some w) →
    Retreats f k i ((f.cache i).abortLocked j w) ((f.cache i).abortCalls w)

theorem retreats_put {k : Nat} {s : Stripe} {calls : List Call} (h : f.Retreats k i s calls)
    (i' : Fin (n + 1)) : ∃ calls, f.Retreats k i' ((f.put i s).cache i') calls := by
  by_cases hi : i' = i
  case pos =>
    subst hi
    exact ⟨calls, by simpa [put] using h⟩
  case neg =>
    have h : f.Retreats k i' (f.cache i') [] := .none
    exact ⟨[], by simpa [put, hi] using h⟩

theorem Fenced.retreats {k : Nat} {x : FillToken (n + 1) × Option Nat} (hi : f.Inv H)
    (hs : Step H f (.under k) f') (hx : f'.tokens[k]? = some x) (h : f.Fenced H x.1) (i : Fin (n + 1)) :
    ∃ calls, f.Retreats k i (f'.cache i) calls := by
  cases hs
  case openWriteFillKey t key version res s hs ht =>
    cases hx.symm.trans ht
    cases h.newCacheVCWriteLocked hs
    exact retreats_put .none i
  case openWriteFillKeyReplacing hs ht =>
    cases hx.symm.trans ht
    cases h.openWriteFillKeyReplacing hs
    exact ⟨[], .none⟩
  case openWriteDerivedFill hs =>
    cases List.getElem?_concat_length.symm.trans hx
    cases h.openWriteFillKeyReplacingLocked hs
    exact ⟨[], .none⟩
  case publish i j w idx r d fate kept hw ha hs ho =>
    have ⟨x', w', hx', hw', hb⟩ := hi.owners i j k ho
    cases hw.symm.trans hw'
    cases hx.symm.trans hx'
    exact absurd ha (h.not_admits hb)
  case abort j w hw _ ho => exact retreats_put (.abort j w ho hw) i
  case close j w hw _ ho => exact retreats_put (.close j w ho hw) i
  case updateHTTPInfo i t key r s hc _ _ ht =>
    cases hx.symm.trans ht
    exact absurd (Cache.checkFillLocked_eq_ok.mp hc).1 h.check

-- A fragment that a writer of the token has published on the stripe.
def Publication (f : Filling n) (k : Nat) (i : Fin (n + 1)) (p : Bytes × Record) : Prop :=
  ∃ (j : Nat) (w : Writer), f.owner i j = some k ∧ (f.cache i).writers[j]? = some w ∧ p ∈ w.published

-- The directory is only asked to delete such fragments, and nothing else is taken out of the memory.
structure Withdraws (H : Hash) (f : Filling n) (k : Nat) (i : Fin (n + 1)) (s : Stripe)
    (calls : List Call) : Prop where
  asks    : ∀ dm, Stripe.Calls H dm (f.cache i) .other s calls
  deletes : ∀ c ∈ calls, ∃ p, f.Publication k i p ∧ c = .op (.deleteAt p.1 p.2.offset)
  ram     : ∀ key, s.ram key = (f.cache i).ram key ∨
    s.ram key = none ∧ ∃ p, f.Publication k i p ∧ p.1 = key

theorem Retreats.withdraws {k : Nat} {s : Stripe} {calls : List Call} (h : f.Retreats k i s calls) :
    Withdraws H f k i s calls := by
  cases h
  case none => exact ⟨fun _ => .none _ _ rfl rfl, by simp, fun _ => .inl rfl⟩
  case close => exact ⟨fun _ => .none _ _ rfl rfl, by simp, fun _ => .inl rfl⟩
  case abort j w ho hw =>
    refine ⟨fun _ => .abort j w, fun c hc => ?_, fun key => ?_⟩
    case refine_1 =>
      obtain ⟨p, hp, rfl⟩ := List.mem_map.mp hc
      exact ⟨p, ⟨j, w, ho, hw, (List.mem_filter.mp hp).1⟩, rfl⟩
    case refine_2 =>
      refine Stripe.ram_abortLocked_cases.imp_right ?_
      rintro ⟨hn, p, hp, hk⟩
      exact ⟨hn, p, ⟨j, w, ho, hw, hp⟩, hk⟩

-- The parent of a token, if it has one.
def ParentOf (f : Filling n) (x : FillToken (n + 1) × Option Nat) (p : Nat)
    (q : FillToken (n + 1) × Option Nat) : Prop :=
  x.2 = some p ∧ f.tokens[p]? = some q

-- The event is an invalidation which concerns a token of the given number: all tokens that have been
-- captured before a purge and all that are derived from them, and those with the selector of an
-- `InvalidateFill` that have been captured before it and all that are derived from them.
inductive Invalidates (f : Filling n) (k : Nat) (x : FillToken (n + 1) × Option Nat) : Event → Prop
  | purge : (f.tokens[k]? = some x) → Invalidates f k x .purge
  | purgeParent (p : Nat) (q : FillToken (n + 1) × Option Nat) :
    (f.ParentOf x p q) → Invalidates f k x .purge
  | invalidate (k' : Nat) (x' : FillToken (n + 1) × Option Nat) :
    (f.tokens[k]? = some x) → (f.tokens[k']? = some x') → (x'.1.selector = x.1.selector) →
    Invalidates f k x (.invalidate k')
  | invalidateParent (p : Nat) (q : FillToken (n + 1) × Option Nat) (k' : Nat)
      (x' : FillToken (n + 1) × Option Nat) :
    (f.ParentOf x p q) → (f.tokens[k']? = some x') → (x'.1.selector = q.1.selector) →
    Invalidates f k x (.invalidate k')

theorem generation_purge (hs : Step H f .purge f') (i : Fin (n + 1)) :
    (f.cache i).generation < (f'.cache i).generation := by
  cases hs
  exact (Nat.lt_succ_self _).trans_le
    (Stripe.Advances.removals (s := { (f.cache i).advance with removals := _ })).generation

theorem policy_invalidate {k : Nat} {x : FillToken (n + 1) × Option Nat}
    (hs : Step H f (.invalidate k) f') (hx : f.tokens[k]? = some x) (i : Fin (n + 1)) :
    (f.cache i).policyEpoch H x.1.selector < (f'.cache i).policyEpoch H x.1.selector := by
  cases hs
  case invalidateFill t c writers h ht =>
    cases hx.symm.trans ht
    exact (advances_invalidateFill h i).2

-- The token may have been derived after the invalidation. Then its parent decides.
theorem Invalidates.fenced {k : Nat} {x : FillToken (n + 1) × Option Nat} (h : f.Invalidates k x e)
    (hi : f.Inv H) (hs : Step H f e f')
    (hd : ∀ p q, f.ParentOf x p q → Derived x.1 q.1) : f'.Fenced H x.1 := by
  intro i
  cases h
  case purge hx =>
    exact .inl (((hi.captured k x hx).1.own.generations i).trans_lt (generation_purge hs i))
  case purgeParent p q hp =>
    rw [(hd p q hp).generations]
    exact .inl (((hi.captured p q hp.2).1.own.generations i).trans_lt (generation_purge hs i))
  case invalidate k' x' hx hx' he =>
    have hlt := policy_invalidate hs hx' i
    rw [he] at hlt
    exact .inr (.inl (((hi.captured k x hx).1.own.policies i).trans_lt hlt))
  case invalidateParent p q k' x' hp hx' he =>
    have hlt := policy_invalidate hs hx' i
    rw [he] at hlt
    have ⟨hc, hn⟩ := hi.captured p q hp.2
    exact .inr (.inr ⟨_, (hd p q hp).parent, hn, (hc.own.policies i).trans_lt hlt⟩)

end Fence

theorem token_run {k : Nat} {x : FillToken (n + 1) × Option Nat}
    (hr : Run (Step H) (fun _ _ => True) f f') (hx : f.tokens[k]? = some x) : f'.tokens[k]? = some x :=
  hr.invariant (fun _ _ _ hx hs _ => hs.moves.token hx) hx

theorem epochs_run (hr : Run (Step H) (fun _ _ => True) f f') : f.cache.epochs.Le f'.cache.epochs :=
  hr.relation (R := fun f f' : Filling n => f.cache.epochs.Le f'.cache.epochs) (fun _ => .refl)
    (fun h h' => h.trans h') (fun _ _ _ hs _ => hs.moves.epochs)

-- After an invalidation, nothing that is done under a token which it concerns adds or replaces an entry
-- of the directory or of the memory on any stripe. All that is left to do is to take back what has been
-- published under the token. A token which has been fenced stays fenced.
theorem invalidation_fences (h₀ : f₀.Initial) (h₁ : Run (Step H) (fun _ _ => True) f₀ f₁) :
    (∀ e f₂ f₃ f₄ (k : Nat) x, Step H f₁ e f₂ → Run (Step H) (fun _ _ => True) f₂ f₃ →
      Step H f₃ (.under k) f₄ → f₄.tokens[k]? = some x → f₁.Invalidates k x e →
      ∀ i, ∃ calls, f₃.Retreats k i (f₄.cache i) calls ∧ f₃.Withdraws H k i (f₄.cache i) calls) ∧
    ∀ f₂ (k : Nat) x, f₁.tokens[k]? = some x → Run (Step H) (fun _ _ => True) f₁ f₂ →
      x.1.fences.check H f₁.cache.epochs ≠ .ok () → x.1.fences.check H f₂.cache.epochs ≠ .ok () := by
  have inv₁ : f₁.Inv H := (h₀.inv (H := H)).run h₁
  refine ⟨fun e f₂ f₃ f₄ k x hs h₂ hu hx hi i => ?_, fun f₂ k x hx h₂ hf hc => ?_⟩
  case refine_1 =>
    have inv₃ := (inv₁.step hs).run h₂
    have hd (p q) (hp : f₁.ParentOf x p q) : Derived x.1 q.1 := by
      have hq := hu.moves.token (token_run h₂ (hs.moves.token hp.2))
      have ⟨q', hq', hd⟩ := (inv₃.step hu).parents k x p hx hp.1
      cases hq.symm.trans hq'
      exact hd
    have hf := (hi.fenced inv₁ hs hd).run h₂
    have ⟨calls, hr⟩ := hf.retreats inv₃ hu hx i
    exact ⟨calls, hr, hr.withdraws⟩
  case refine_2 => exact hf ((inv₁.captured k x hx).1.check (epochs_run h₂) hc)

section Sample

open Stripe (sampleStripe)

-- A digest for which the selectors below have different policy epochs.
def sampleSlots : Hash :=
  { md5 := fun _ => 0, sha256 := fun p => .ofNat 256 (p.length <<< 248), crc32 := fun _ => 0 }

-- A cache with one stripe, on which the first writer may belong to a token.
def single (s : Stripe) (tokens : List (FillToken 1 × Option Nat)) (owner : Option Nat) : Filling 0 where
  cache     := fun _ => s
  tokens    := tokens
  owner _ j := if j = 0 then owner else none

theorem put_single {s s' : Stripe} {tokens : List (FillToken 1 × Option Nat)} {owner : Option Nat}
    (i : Fin 1) : (single s tokens owner).put i s' = single s' tokens owner := by
  cases Fin.eq_zero i
  simp only [put, single, mk.injEq, and_self, and_true]
  funext i
  cases Fin.eq_zero i
  exact Function.update_self ..

theorem initial_single {s : Stripe} : (single s [] none).Initial := ⟨rfl, by simp [single]⟩

def sampleStart : Filling 0 := single sampleStripe [] none

-- A stripe without objects and writers, on which nothing has been purged.
structure Fresh (s : Stripe) : Prop where
  index      : s.index = .new 4
  closing    : s.closing = false
  generation : s.generation = 0

variable {s : Stripe}

theorem heads_singleton {keys : DirTrie → Int → Except Err (List Bytes)}
    (h : keys s.index MaxFillVariants = .ok []) : Cache.heads (fun _ : Fin 1 => s) keys = .ok [] := by
  have hr : List.finRange 1 = [0] := rfl
  simp only [Cache.heads, hr, List.foldlM_cons, List.length_nil, Nat.cast_zero, sub_zero, h]
  rfl

theorem Fresh.heads (h : Fresh s) (selector : Bytes) :
    Cache.fillSnapshotLocked (fun _ : Fin 1 => s) selector = .ok [] ∧
    Cache.rangeSnapshotLocked (fun _ : Fin 1 => s) selector = .ok [] := by
  constructor
  case left =>
    refine heads_singleton ?_
    have hk : (DirTrie.new 4).keysOf selector = [] := rfl
    simp [h.index, DirTrie.keysForSelectorLimit, Bytes.sorted, hk]
  case right =>
    refine heads_singleton ?_
    have he : (DirTrie.new 4).selectors.entries = [] := rfl
    simp [h.index, DirTrie.keysForPrefixLimit, Bytes.sorted, he, DirTrie.gather]

-- The token of a stripe without objects.
def sampleToken (s : Stripe) (fences : Fences 1) : FillToken 1 := ⟨fences, fun _ => s.ring.generation, [], []⟩

def sampleParent : FillToken 1 :=
  sampleToken sampleStripe (.begin sampleSlots (Cache.epochs fun _ => sampleStripe) [97])

theorem fresh_sampleStripe : Fresh sampleStripe := ⟨rfl, rfl, rfl⟩

theorem beginFill_sample :
    Cache.beginFill sampleSlots (fun _ : Fin 1 => sampleStripe) [97] [97] = .ok sampleParent := by
  have ⟨h₁, h₂⟩ := fresh_sampleStripe.heads [97]
  simp only [Cache.beginFill, h₁, h₂]
  rfl

-- The selector of a range object, and its token.
def sampleRange : Bytes := Stripe.rangePrefix [97]

def sampleChild (s : Stripe) : FillToken 1 :=
  sampleToken s (sampleParent.fences.derive sampleSlots (Cache.epochs fun _ => s) sampleRange)

theorem deriveFillLocked_sample (h : Fresh s) (hp : s.policyEpoch sampleSlots [97] = 0) :
    Cache.deriveFillLocked sampleSlots (fun _ : Fin 1 => s) sampleParent sampleRange =
      .ok (sampleChild s) := by
  have hc : sampleParent.fences.check sampleSlots (Cache.epochs fun _ : Fin 1 => s) = .ok () := by
    rw [Fences.check_eq_ok]
    exact ⟨nofun, Fence.check_eq_ok.mpr fun _ => ⟨h.closing, h.generation.symm, hp.symm⟩⟩
  have hn : ¬(sampleParent.fences.parent ≠ none ∨
      ¬Stripe.rangePrefix sampleParent.selector <+: sampleRange) := by
    simp [sampleParent, sampleToken, Fences.begin, sampleRange, FillToken.selector, Fence.capture]
  have hv : validateIdentity sampleRange sampleRange = .ok () := by decide +kernel
  simp only [Cache.deriveFillLocked, if_neg hn, hv, hc, (h.heads sampleRange).1]
  rfl

-- The stripe after `InvalidateFill` for the range object.
def sampleBumped : Stripe :=
  { sampleStripe with
    policyEpochs := Function.update (fun _ => 0) (sampleSlots.policySlot sampleRange) 1 }

theorem fresh_sampleBumped : Fresh sampleBumped := ⟨rfl, rfl, rfl⟩

theorem policyEpoch_sampleBumped : sampleBumped.policyEpoch sampleSlots [97] = 0 := by
  have hs : sampleSlots.policySlot [97] ≠ sampleSlots.policySlot sampleRange := by decide +kernel
  simp [Stripe.policyEpoch, sampleBumped, hs]

theorem invalidateFill_sample : ∃ writers,
    Cache.invalidateFill sampleSlots (fun _ : Fin 1 => sampleStripe) (sampleChild sampleStripe) =
      (none, fun _ => sampleBumped, writers) := by
  have hf : Cache.familyLocked sampleSlots (fun _ : Fin 1 => sampleStripe) (sampleChild sampleStripe) =
      .ok [] := by
    refine Cache.familyLocked_eq_ok.mpr ⟨?_, [], [], (fresh_sampleStripe.heads _).1,
      (fresh_sampleStripe.heads _).2, rfl⟩
    rw [Fences.check_eq_ok]
    refine ⟨?_, Fence.check_eq_ok.mpr fun _ => ⟨rfl, rfl, rfl⟩⟩
    rintro p ⟨⟩
    exact Fence.check_eq_ok.mpr fun _ => ⟨rfl, rfl, rfl⟩
  simp only [Cache.invalidateFill, hf]
  exact ⟨_, rfl⟩

-- The first writer of a token is opened.
theorem step_openWrite {tokens : List (FillToken 1 × Option Nat)} {k : Nat}
    {x : FillToken 1 × Option Nat} {w : Writer} (hx : tokens[k]? = some x)
    (h : s.newCacheVCWriteLocked sampleSlots (Cache.bound x.1 w.key 0) (.ok w.version) =
      (.ok 0, s.openWrite w)) :
    Step sampleSlots (single s tokens none) (.under k) (single (s.openWrite w) tokens (some k)) := by
  have hs := Step.openWriteFillKey (f := single s tokens none) k x w.key (.ok w.version) (.ok 0)
    (s.openWrite w) hx h
  rw [put_single] at hs
  have ho : (single s tokens none).enlist (Cache.keyToStripe sampleSlots w.key) (.ok 0) k =
      (single s tokens (some k)).owner := by
    funext i j
    have hi : i = Cache.keyToStripe sampleSlots w.key := Fin.subsingleton_one.elim ..
    simp only [enlist, single, hi, Function.update_self, Function.update_apply]
    split
    case isTrue => rfl
    case isFalse => rfl
  rw [ho] at hs
  exact hs

-- A purge after which the writer of the token can only be aborted.
theorem invalidation_fences_sample : ∃ f₁ f₂ f₄ : Filling 0,
    sampleStart.Initial ∧ Run (Step sampleSlots) (fun _ _ => True) sampleStart f₁ ∧
    f₁.Invalidates 0 (sampleParent, none) .purge ∧ Step sampleSlots f₁ .purge f₂ ∧
    Step sampleSlots f₂ (.under 0) f₄ ∧
    ∃ calls, f₂.Retreats 0 0 (f₄.cache 0) calls ∧ f₂.Withdraws sampleSlots 0 0 (f₄.cache 0) calls := by
  let x : FillToken 1 × Option Nat := (sampleParent, none)
  let w := Cache.bound sampleParent [98] 0 1
  let s := sampleStripe.openWrite w
  have h₁ : Run (Step sampleSlots) (fun _ _ => True) sampleStart (single sampleStripe [x] none) :=
    .single (.beginFill [97] [97] sampleParent beginFill_sample) trivial
  have h₁ : Run (Step sampleSlots) (fun _ _ => True) sampleStart (single s [x] (some 0)) :=
    h₁.step (step_openWrite rfl rfl) trivial
  have hpurge : Step sampleSlots (single s [x] (some 0)) .purge
      (single (s.purgeSelector sampleSlots [97] false) [x] (some 0)) :=
    .purgeSelector [97] false (by simp) fun _ => rfl
  have hwriters : (s.purgeSelector sampleSlots [97] false).writers = [w] := (Stripe.writers_removals _).1
  have hu := Step.abort (H := sampleSlots)
    (f := single (s.purgeSelector sampleSlots [97] false) [x] (some 0)) 0 0 0 w rfl
    (congrArg (fun ws : List Writer => ws[0]?) hwriters) rfl
  have hi : (single s [x] (some 0)).Invalidates 0 x .purge := .purge rfl
  have hb := (invalidation_fences initial_single h₁).1 .purge _ _ _ 0 x hpurge .refl hu rfl hi 0
  exact ⟨_, _, _, initial_single, h₁, hi, hpurge, hu, hb⟩

-- What is written to the log is not done under a token.
theorem run_flush {s' : Stripe} {tokens : List (FillToken 1 × Option Nat)} {owner : Option Nat}
    (h : Run (Stripe.Step sampleSlots) Stripe.Event.IsFlush s s') :
    Run (Step sampleSlots) (fun _ _ => True) (single s tokens owner) (single s' tokens owner) := by
  induction h
  case refl => exact .refl
  case step s₁ s₂ e _ hs he hi =>
    cases (show e = .flush from he)
    have hw : s₂.writers = s₁.writers := by
      cases hs
      all_goals rfl
    have hs' := Step.other (f := single s₁ tokens owner) 0 .flush s₂ hs hw nofun
    rw [put_single] at hs'
    exact hi.step hs' trivial

theorem admitted_sampleChild (hp : s.policyEpoch sampleSlots [97] = 0) (hg : s.generation = 0)
    {w : Writer} (hw : w = Cache.bound (sampleChild s) sampleRange 0 1) :
    w.generation = s.generation ∧ w.policy = s.policyEpoch sampleSlots w.selector ∧
    (w.fenceSelector ≠ [] → w.fencePolicy = s.policyEpoch sampleSlots w.fenceSelector) := by
  subst hw
  exact ⟨hg.symm, rfl, fun _ => hp.symm⟩

-- The token for the range object is derived from a parent that has been captured before an
-- `InvalidateFill` for the same range object. It has been captured after it and is not fenced.
theorem invalidation_spares_derived : ∃ (f₁ f₂ f₃ f₄ : Filling 0) (t t' : FillToken 1),
    sampleStart.Initial ∧ Run (Step sampleSlots) (fun _ _ => True) sampleStart f₁ ∧
    f₁.tokens = [(sampleParent, none), (t', some 0)] ∧ Step sampleSlots f₁ (.invalidate 1) f₂ ∧
    Run (Step sampleSlots) (fun _ _ => True) f₂ f₃ ∧ Step sampleSlots f₃ (.under 2) f₄ ∧
    f₄.tokens[2]? = some (t, some 0) ∧ t.selector = t'.selector ∧
    ¬(f₄.cache 0).dirs.Below (f₃.cache 0).dirs := by
  let x₀ : FillToken 1 × Option Nat := (sampleParent, none)
  let x₁ : FillToken 1 × Option Nat := (sampleChild sampleStripe, some 0)
  let x₂ : FillToken 1 × Option Nat := (sampleChild sampleBumped, some 0)
  let w := Cache.bound (sampleChild sampleBumped) sampleRange 0 1
  let s := sampleBumped.openWrite w
  have h₁ : Run (Step sampleSlots) (fun _ _ => True) sampleStart (single sampleStripe [x₀] none) :=
    .single (.beginFill [97] [97] sampleParent beginFill_sample) trivial
  have h₁ : Run (Step sampleSlots) (fun _ _ => True) sampleStart (single sampleStripe [x₀, x₁] none) :=
    h₁.step (.deriveFill 0 x₀ sampleRange _ rfl (deriveFillLocked_sample fresh_sampleStripe rfl)) trivial
  obtain ⟨writers, hi⟩ := invalidateFill_sample
  have hs : Step sampleSlots (single sampleStripe [x₀, x₁] none) (.invalidate 1)
      (single sampleBumped [x₀, x₁] none) := .invalidateFill 1 x₁ _ writers rfl hi
  have h₂ : Run (Step sampleSlots) (fun _ _ => True) (single sampleBumped [x₀, x₁] none)
      (single sampleBumped [x₀, x₁, x₂] none) :=
    .single (.deriveFill 0 x₀ sampleRange _ rfl
      (deriveFillLocked_sample fresh_sampleBumped policyEpoch_sampleBumped)) trivial
  have hreserve : (sampleBumped.reserveIdentityLocked w.key w.selector).1 = none := by decide +kernel
  obtain ⟨hg, hp, hf⟩ := admitted_sampleChild policyEpoch_sampleBumped rfl (w := w) rfl
  have hopen : sampleBumped.newCacheVCWriteLocked sampleSlots
      (Cache.bound (sampleChild sampleBumped) w.key 0) (.ok w.version) = (.ok 0, s) := by
    have hidle : ¬(sampleBumped.closing = true ∨ sampleBumped.ring.storageErr = true) := by decide
    have hfence : ¬(w.generation ≠ sampleBumped.generation ∨
        w.policy ≠ sampleBumped.policyEpoch sampleSlots w.selector ∨
        w.fenceSelector ≠ [] ∧ w.fencePolicy ≠ sampleBumped.policyEpoch sampleSlots w.fenceSelector) := by
      rintro (h | h | ⟨h, h'⟩)
      case inl => exact h hg
      case inr.inl => exact h hp
      case inr.inr => exact h' (hf h)
    have hentry : ¬sampleBumped.entries w.key ≠ none := not_not.mpr rfl
    have hw : Cache.bound (sampleChild sampleBumped) w.key 0 w.version = w := rfl
    simp only [Stripe.newCacheVCWriteLocked, hw, if_neg hidle, if_neg hfence, if_neg hentry, hreserve]
    rfl
  have h₂ := h₂.step (step_openWrite (k := 2) (x := x₂) rfl hopen) trivial
  obtain ⟨hdirs, hentry, hwriter⟩ := Stripe.openWrite_spec hreserve
  have hready : s.Ready 2 512 := ⟨rfl, rfl, rfl, rfl, rfl, rfl, rfl, rfl, rfl, rfl⟩
  obtain ⟨hflush, _, d, hplaces, _⟩ := hready.head sampleSlots sampleRange le_rfl (by decide)
  let s' := s.lap (Stripe.headTask sampleSlots sampleRange 512 2)
  let r := Stripe.headRecord sampleSlots sampleRange 512 2
  have h₂ := h₂.trans (run_flush hflush)
  have hwriter : s'.writers[0]? = some w := hwriter
  have hadmits : s'.Admits sampleSlots 0 w := ⟨rfl, rfl, hf, hg, hp, hentry⟩
  have hpublish := Stripe.Step.publish 0 w 0 r d (fun _ => none) true hwriter rfl hadmits hplaces
    Stripe.fragment_headDocument fun _ _ h => by cases h
  have hu := Step.publish (f := single s' [x₀, x₁, x₂] (some 2)) 0 0 2 w 0 r d (fun _ => none) true rfl
    hwriter hadmits hpublish
  rw [put_single] at hu
  refine ⟨_, _, _, _, x₂.1, x₁.1, initial_single, h₁, rfl, hs, h₂, hu, rfl, rfl, fun hb => ?_⟩
  have hnew : (s'.publish sampleSlots 0 w 0 r d (fun _ => none) true).dirs w.key =
      some ⟨d, r, s'.markOf w 0⟩ := by
    rw [Stripe.dirs_publish]
    exact Table.set_self _
  obtain ⟨_, _, hold, _⟩ := hb _ _ hnew
  have hdirs : s'.dirs w.key = none := by
    rw [Stripe.dirs_lap_same rfl]
    exact hdirs
  cases hdirs.symm.trans hold

end Sample

end Filling
end Bakemono
