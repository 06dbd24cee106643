import Bakemono.Fill.Invalidate

namespace Bakemono

-- Fragments of different objects of the set have different keys. No digest keeps a key and the key of
-- its own second fragment apart.
def Hash.KeepsApart (H : Hash) (keys : Set Bytes) : Prop :=
  ∀ k ∈ keys, ∀ k' ∈ keys, k ≠ k' → ∀ i j, H.fragmentKey k i ≠ H.fragmentKey k' j

namespace Stripe

variable (H : Hash)

-- The number of the new writer. The version is drawn at random, which may fail.
def newCacheVCWriteLocked (s : Stripe) (w : UInt64 → Writer) (version : Except Err UInt64) :
    Except Err Nat × Stripe :=
  match version with
  | .error e => (.error e, s)
  | .ok version =>
    let w := w version
    if s.closing ∨ s.ring.storageErr then
      (.error .cacheClosed, s)
    else if w.generation ≠ s.generation ∨ w.policy ≠ s.policyEpoch H w.selector ∨
        w.fenceSelector ≠ [] ∧ w.fencePolicy ≠ s.policyEpoch H w.fenceSelector then
      (.error .invalidated, s)
    else if s.entries w.key ≠ none then
      (.error (.other "write conflict: another writer is active"), s)
    else
      match (s.reserveIdentityLocked w.key w.selector).1 with
      | some e => (.error e, s.openWrite w)
      | none   => (.ok s.writers.length, s.openWrite w)

end Stripe

namespace Cache

variable {n : Nat} (H : Hash)

-- A cache has at least one stripe.
def keyToStripe (key : Bytes) : Fin (n + 1) := .ofNat (n + 1) (H.crc32 key).toNat

-- The writer of a token which has been bound to a key.
def bound (t : FillToken n) (key : Bytes) (i : Fin n) (version : UInt64) : Writer where
  key           := key
  selector      := t.selector
  generation    := t.fences.own.generations i
  policy        := t.fences.own.policies i
  fenceSelector := (t.fences.parent.map Fence.selector).getD []
  fencePolicy   := (t.fences.parent.map fun p => p.policies i).getD 0
  version       := version

def removeOld (c : Cache (n + 1)) (old : Bytes) : Cache (n + 1) :=
  Function.update c (keyToStripe H old) ((c (keyToStripe H old)).removeLocked H old)

def openWriteFillKeyReplacingLocked (c : Cache (n + 1)) (t : FillToken (n + 1)) (key : Bytes)
    (remove : List Bytes) (version : Except Err UInt64) : Except Err Nat × Cache (n + 1) :=
  match c.checkFillLocked H t with
  | .error e => (.error e, c)
  | .ok _    =>
    if ∃ head ∈ t.snapshot, head.writer ≠ none then
      (.error .invalidated, c)
    else if ∃ old ∈ remove, ∀ head ∈ t.snapshot, head.key ≠ old then
      (.error (.other "replacement outside selector"), c)
    else
      let i := keyToStripe H key
      match (c i).newCacheVCWriteLocked H (bound t key i) version with
      | (.error e, s) => (.error e, Function.update c i s)
      | (.ok j, s)    => (.ok j, (remove.filter (· ≠ key)).foldl (removeOld H) (Function.update c i s))

-- The token may be missing, and the context may have been cancelled.
def openWriteFillKeyReplacing (c : Cache (n + 1)) (t : Option (FillToken (n + 1))) (key : Bytes)
    (remove : List Bytes) (ctx : Option Err) (version : Except Err UInt64) :
    Except Err Nat × Cache (n + 1) :=
  match t with
  | none   => (.error .invalidated, c)
  | some t =>
    match validateIdentity key t.selector, ctx with
    | .error e, _ => (.error e, c)
    | .ok _, some e => (.error e, c)
    | .ok _, none   => c.openWriteFillKeyReplacingLocked H t key remove version

end Cache

namespace Stripe

variable {H : Hash} {s s' s'' : Stripe} {k key : Bytes} {w : Writer}

-- The part of a stripe that belongs to an object has not been changed. Its identity may have been
-- pruned if its head is lost.
structure Spared (H : Hash) (s s' : Stripe) (k : Bytes) : Prop where
  ring    : s'.ring = { s.ring with dirs := s'.dirs }
  closing : s'.closing = s.closing
  dirs    : ∀ idx, s'.dirs (H.fragmentKey k idx) = s.dirs (H.fragmentKey k idx)
  ram     : ∀ idx, s'.ram (H.fragmentKey k idx) = s.ram (H.fragmentKey k idx)
  entry   : s'.entries k = s.entries k
  index   : s'.index.lookup k = s.index.lookup k ∨
    s'.index.lookup k = none ∧ s.entries k = none ∧ s.lost k = true

namespace Spared

theorem refl : Spared H s s k := ⟨rfl, rfl, fun _ => rfl, fun _ => rfl, rfl, .inl rfl⟩

theorem lost (h : Spared H s s' k) : s'.lost k = s.lost k := by
  have hd : s'.dirs k = s.dirs k := h.dirs 0
  simp only [Stripe.lost, hd, h.ring]
  rfl

theorem trans (h : Spared H s s' k) (h' : Spared H s' s'' k) : Spared H s s'' k where
  ring    := by rw [h'.ring, h.ring]
  closing := h'.closing.trans h.closing
  dirs    := fun idx => (h'.dirs idx).trans (h.dirs idx)
  ram     := fun idx => (h'.ram idx).trans (h.ram idx)
  entry   := h'.entry.trans h.entry
  index   := by
    cases h'.index
    case inl hi =>
      rw [hi]
      exact h.index
    case inr hi => exact .inr ⟨hi.1, h.entry ▸ hi.2.1, h.lost ▸ hi.2.2⟩

theorem removeLocked (h : ∀ i j, H.fragmentKey key i ≠ H.fragmentKey k j) :
    Spared H s (s.removeLocked H key) k := by
  have hk : k ≠ key := fun hk => h 0 0 hk.symm
  have hd : Drops { s.detach key with index := s.index.delete key } (s.removeLocked H key) :=
    drops_removeFragments
  have other (idx) : (s.removeLocked H key).dirs (H.fragmentKey k idx) = s.dirs (H.fragmentKey k idx) ∧
      (s.removeLocked H key).ram (H.fragmentKey k idx) = s.ram (H.fragmentKey k idx) :=
    removeLocked_other fun i => (h i idx).symm
  constructor
  case ring => exact shrinks_removeLocked.ring
  case closing => rw [hd.rest]; rfl
  case dirs => exact fun idx => (other idx).1
  case ram => exact fun idx => (other idx).2
  case entry =>
    rw [hd.rest]
    exact Function.update_of_ne hk ..
  case index =>
    rw [hd.rest]
    simp [hk]

end Spared

section Admission

-- A failed admission changes nothing but the index.
theorem Spared.openWrite (h : (s.reserveIdentityLocked w.key w.selector).1 ≠ none ∨
      ∀ i j, H.fragmentKey w.key i ≠ H.fragmentKey k j) : Spared H s (s.openWrite w) k := by
  cases hr : s.reserveIdentityLocked w.key w.selector with | mk e index =>
  cases e
  case some e =>
    have hi := lookup_reserveIdentityLocked (s := s) (k := k) w.key w.selector (.inr (by simp [hr]))
    rw [hr] at hi
    simp only [Stripe.openWrite, hr]
    exact ⟨rfl, rfl, fun _ => rfl, fun _ => rfl, rfl, hi⟩
  case none =>
    have h : ∀ i j, H.fragmentKey w.key i ≠ H.fragmentKey k j := by simpa [hr] using h
    have hk : k ≠ w.key := fun hk => h 0 0 hk.symm
    have hi := lookup_reserveIdentityLocked (s := s) w.key w.selector (.inl hk)
    rw [hr] at hi
    simp only [Stripe.openWrite, hr]
    refine ⟨rfl, rfl, fun idx => ?_, fun idx => ?_, ?_, hi⟩
    case refine_1 => exact Function.update_of_ne (h 0 idx).symm ..
    case refine_2 => exact Function.update_of_ne (h 0 idx).symm ..
    case refine_3 => exact Function.update_of_ne hk ..

-- Nothing happens, or the writer is opened, as far as the index allows it.
theorem newCacheVCWriteLocked_cases {w : UInt64 → Writer} {version : Except Err UInt64}
    {res : Except Err Nat} (h : s.newCacheVCWriteLocked H w version = (res, s')) :
    (s' = s ∧ ∃ e, res = .error e) ∨ ∃ v, version = .ok v ∧ s' = s.openWrite (w v) ∧
      ((∃ e, res = .error e ∧ (s.reserveIdentityLocked (w v).key (w v).selector).1 = some e) ∨
        res = .ok s.writers.length ∧ (s.reserveIdentityLocked (w v).key (w v).selector).1 = none) := by
  unfold newCacheVCWriteLocked at h
  cases version
  case error e =>
    cases h
    exact .inl ⟨rfl, e, rfl⟩
  case ok v =>
    simp only at h
    split at h
    case isTrue => cases h; exact .inl ⟨rfl, _, rfl⟩
    split at h
    case isTrue => cases h; exact .inl ⟨rfl, _, rfl⟩
    split at h
    case isTrue => cases h; exact .inl ⟨rfl, _, rfl⟩
    split at h
    case h_1 e hr => cases h; exact .inr ⟨v, rfl, rfl, .inl ⟨e, rfl, hr⟩⟩
    case h_2 hr => cases h; exact .inr ⟨v, rfl, rfl, .inr ⟨rfl, hr⟩⟩

-- What `newCacheVCWriteLocked` does if it succeeds, and that it only changes the index if it fails.
theorem newCacheVCWriteLocked_spec {w : UInt64 → Writer} {version : Except Err UInt64}
    {res : Except Err Nat} (h : s.newCacheVCWriteLocked H w version = (res, s')) :
    (∀ e, res = .error e → ∀ k, Spared H s s' k) ∧
    ∀ j, res = .ok j → ∃ v, version = .ok v ∧ s' = s.openWrite (w v) ∧ j = s.writers.length ∧
      (s.reserveIdentityLocked (w v).key (w v).selector).1 = none := by
  rcases newCacheVCWriteLocked_cases h with ⟨rfl, e, rfl⟩ | ⟨v, hv, rfl, ⟨e, rfl, hr⟩ | ⟨rfl, hr⟩⟩
  case inl => exact ⟨fun _ _ _ => .refl, nofun⟩
  case inr.inl => exact ⟨fun _ _ _ => .openWrite (.inl (by simp [hr])), nofun⟩
  case inr.inr =>
    refine ⟨nofun, ?_⟩
    rintro j ⟨⟩
    exact ⟨v, hv, rfl, rfl, hr⟩

end Admission

section Content

-- Readers of the object get the same from both stripes.
def SameContent (H : Hash) (s s' : Stripe) (k : Bytes) : Prop :=
  ∀ v v' : View, v.Shows s → v'.Shows s' → v'.storageErr = v.storageErr → v'.readAt = v.readAt →
    (CacheReader.loadHTTPInfo H s'.ring.start s'.ring.stop k (fun _ => v') {}).1 =
      (CacheReader.loadHTTPInfo H s.ring.start s.ring.stop k (fun _ => v) {}).1 ∧
    ∀ infos sizes,
      CacheReader.readCalls H s'.ring.start s'.ring.stop k (fun _ => v') sizes
        (CacheReader.infoCalls H s'.ring.start s'.ring.stop k (fun _ => v') infos) =
      CacheReader.readCalls H s.ring.start s.ring.stop k (fun _ => v) sizes
        (CacheReader.infoCalls H s.ring.start s.ring.stop k (fun _ => v) infos)

-- No reader can load the head of the object.
def Unreadable (H : Hash) (s : Stripe) (k : Bytes) : Prop :=
  ∀ v : View, v.Shows s → ∀ r, ∃ e, CacheReader.load H s.ring.start s.ring.stop k v 0 r = .error e

theorem Spared.sameContent (h : Spared H s s' k) : SameContent H s s' k := by
  intro v v' hv hv' he hr
  have ha : v.Alike H k v' := by
    constructor
    case storageErr => exact he
    case closed => rw [hv'.closed, hv.closed, h.closing, h.ring]
    case get => exact fun idx => by rw [hv'.get, hv.get, h.dirs]
    case dirValid => exact fun d => by rw [hv'.dirValid, hv.dirValid, h.ring]; rfl
    case ram => exact fun idx => by rw [hv'.ram, hv.ram, h.ram]
    case readAt => exact hr
  have hstart : s'.ring.start = s.ring.start := by rw [h.ring]
  have hstop : s'.ring.stop = s.ring.stop := by rw [h.ring]
  rw [hstart, hstop]
  refine ⟨congrArg Prod.fst (CacheReader.loadHTTPInfo_alike (fun _ => ha) {}), fun infos sizes => ?_⟩
  rw [CacheReader.infoCalls_alike fun _ => ha, CacheReader.readCalls_alike fun _ => ha]

-- A representation and all that can be read of it are the same. Its identity may have been pruned if
-- its head is lost.
structure Preserved (H : Hash) (s s' : Stripe) (k : Bytes) : Prop where
  content : SameContent H s s' k
  dir     : s'.dirs k = s.dirs k
  writer  : s'.entries k = s.entries k
  index   : s'.index.lookup k = s.index.lookup k ∨
    s'.index.lookup k = none ∧ s.entries k = none ∧ s.lost k = true

theorem Spared.preserved (h : Spared H s s' k) : Preserved H s s' k := ⟨h.sameContent, h.dirs 0, h.entry, h.index⟩

theorem unreadable_of_dirs (h : s.dirs k = none) : Unreadable H s k := by
  intro v hv r
  have hg : v.get k = none := by rw [hv.get, h]; rfl
  cases hl : CacheReader.load H s.ring.start s.ring.stop k v 0 r
  case error e => exact ⟨e, rfl⟩
  case ok r' =>
    have ⟨x, hx, _⟩ := Except.bind_eq_ok.mp hl
    rw [CacheReader.handleRead_eq] at hx
    have ⟨d, hd, _⟩ := Except.bind_eq_ok.mp hx
    cases hg.symm.trans (CacheReader.get_of_locate hd)

end Content

end Stripe

namespace Cache

variable {n : Nat} {H : Hash} {c c' : Cache (n + 1)} {k key : Bytes} {remove : List Bytes}

theorem spared_removeOld {old : Bytes} (h : ∀ i j, H.fragmentKey old i ≠ H.fragmentKey k j)
    (i : Fin (n + 1)) : Stripe.Spared H (c i) (c.removeOld H old i) k := by
  by_cases hi : i = keyToStripe H old
  case pos =>
    subst hi
    rw [removeOld, Function.update_self]
    exact .removeLocked h
  case neg =>
    rw [removeOld, Function.update_of_ne hi]
    exact .refl

theorem spared_removals (h : ∀ old ∈ remove, ∀ i j, H.fragmentKey old i ≠ H.fragmentKey k j)
    (i : Fin (n + 1)) : Stripe.Spared H (c i) (remove.foldl (removeOld H) c i) k := by
  induction remove generalizing c
  case nil => exact .refl
  case cons old remove hi =>
    have ⟨ho, h⟩ := List.forall_mem_cons.mp h
    exact (spared_removeOld ho i).trans (hi h)

theorem removeOld_frame {old : Bytes} (i : Fin (n + 1)) :
    (c.removeOld H old i).fragmentsNum = (c i).fragmentsNum ∧
    ((c i).dirs k = none → (c.removeOld H old i).dirs k = none) := by
  by_cases hi : i = keyToStripe H old
  case pos =>
    subst hi
    rw [removeOld, Function.update_self]
    have hd : Stripe.Drops _ ((c (keyToStripe H old)).removeLocked H old) := Stripe.drops_removeFragments
    refine ⟨by rw [hd.rest]; rfl, fun hn => ?_⟩
    by_contra hc
    have ⟨x, hx⟩ := Option.ne_none_iff_exists'.mp hc
    have ⟨_, _, hx, _⟩ := hd.dirs k x hx
    cases hn.symm.trans hx
  case neg =>
    rw [removeOld, Function.update_of_ne hi]
    exact ⟨rfl, id⟩

-- What is gone does not come back.
theorem dirs_removals (i : Fin (n + 1)) (h : (c i).dirs k = none) :
    (remove.foldl (removeOld H) c i).dirs k = none := by
  induction remove generalizing c
  case nil => exact h
  case cons old remove hi => exact hi ((removeOld_frame i).2 h)

theorem dirs_removals_self (hn : ∀ i, (c i).fragmentsNum ≠ 0) (hm : k ∈ remove) :
    (remove.foldl (removeOld H) c (keyToStripe H k)).dirs k = none := by
  induction remove generalizing c
  case nil => cases hm
  case cons old remove hi =>
    cases hm
    case head =>
      have h : (c.removeOld H k (keyToStripe H k)).dirs k = none := by
        rw [removeOld, Function.update_self]
        exact Stripe.dirs_removeLocked (hn _)
      exact dirs_removals (c := c.removeOld H k) _ h
    case tail hm =>
      refine hi (fun i => ?_) hm
      rw [(removeOld_frame (k := k) i).1]
      exact hn i

-- The family of the selector is the one in the snapshot, no stripe has begun another lap, and nobody
-- writes.
structure Unchanged (c : Cache n) (t : FillToken n) : Prop where
  snapshot : c.fillSnapshotLocked t.selector = .ok t.snapshot
  wraps    : t.wraps = c.wraps
  idle     : ∀ head ∈ t.snapshot, head.writer = none

theorem openWriteFillKeyReplacingLocked_spec {t : FillToken (n + 1)} {version : Except Err UInt64}
    {res : Except Err Nat} (h : c.openWriteFillKeyReplacingLocked H t key remove version = (res, c')) :
    (∀ e, res = .error e → ∀ i k, Stripe.Spared H (c i) (c' i) k) ∧
    ∀ j, res = .ok j → c.Unchanged t ∧ (∀ old ∈ remove, ∃ head ∈ t.snapshot, head.key = old) ∧
      ∃ s, (c (keyToStripe H key)).newCacheVCWriteLocked H (bound t key (keyToStripe H key)) version =
          (.ok j, s) ∧
        c' = (remove.filter (· ≠ key)).foldl (removeOld H) (Function.update c (keyToStripe H key) s) := by
  unfold openWriteFillKeyReplacingLocked at h
  split at h
  case h_1 => cases h; exact ⟨fun _ _ _ _ => .refl, nofun⟩
  case h_2 hcheck =>
    split at h
    case isTrue => cases h; exact ⟨fun _ _ _ _ => .refl, nofun⟩
    case isFalse hidle =>
      split at h
      case isTrue => cases h; exact ⟨fun _ _ _ _ => .refl, nofun⟩
      case isFalse hfamily =>
        simp only at h
        split at h
        case h_1 e s hs =>
          cases h
          refine ⟨fun _ _ i k => ?_, nofun⟩
          by_cases hi : i = keyToStripe H key
          case pos =>
            subst hi
            rw [Function.update_self]
            exact (Stripe.newCacheVCWriteLocked_spec hs).1 e rfl k
          case neg =>
            rw [Function.update_of_ne hi]
            exact .refl
        case h_2 j s hs =>
          cases h
          refine ⟨nofun, ?_⟩
          rintro j ⟨⟩
          have ⟨_, hwraps, hsnap⟩ := checkFillLocked_eq_ok.mp hcheck
          refine ⟨⟨hsnap, hwraps, ?_⟩, ?_, s, hs, rfl⟩
          case refine_1 => simpa using hidle
          case refine_2 => simpa using hfamily

theorem openWriteFillKeyReplacing_spec {t : Option (FillToken (n + 1))} {ctx : Option Err}
    {version : Except Err UInt64} {res : Except Err Nat}
    (h : c.openWriteFillKeyReplacing H t key remove ctx version = (res, c')) :
    (∀ e, res = .error e → ∀ i k, Stripe.Spared H (c i) (c' i) k) ∧
    ∀ j, res = .ok j → ∃ token, t = some token ∧
      c.openWriteFillKeyReplacingLocked H token key remove version = (.ok j, c') := by
  unfold openWriteFillKeyReplacing at h
  split at h
  case h_1 => cases h; exact ⟨fun _ _ _ _ => .refl, nofun⟩
  case h_2 token =>
    split at h
    case h_1 => cases h; exact ⟨fun _ _ _ _ => .refl, nofun⟩
    case h_2 => cases h; exact ⟨fun _ _ _ _ => .refl, nofun⟩
    case h_3 =>
      refine ⟨(openWriteFillKeyReplacingLocked_spec h).1, ?_⟩
      rintro j rfl
      exact ⟨token, rfl, h⟩

section Sample

open Stripe (sampleStripe)

-- A digest which keeps the fragments of short keys apart.
def sampleDigest : Hash :=
  { md5 := fun p => .ofNat 128 (p.headD 0).toNat, sha256 := fun _ => 0, crc32 := fun _ => 0 }

def sampleKeys : Set Bytes := { k | ∃ b : UInt8, k = [b] }

theorem keepsApart_sampleKeys : sampleDigest.KeepsApart sampleKeys := by
  rintro _ ⟨a, rfl⟩ _ ⟨b, rfl⟩ hne i j h
  have hab : a.toNat ≠ b.toNat := fun h => hne (by rw [UInt8.toNat_inj.mp h])
  have ha := a.toNat_lt
  have hb := b.toNat_lt
  by_cases hi : i = 0
  case pos =>
    by_cases hj : j = 0
    case pos => simp [Hash.fragmentKey, hi, hj] at h; exact hne (by rw [h])
    case neg =>
      have := congrArg List.length h
      simp [Hash.fragmentKey, hi, hj] at this
  case neg =>
    by_cases hj : j = 0
    case pos =>
      have := congrArg List.length h
      simp [Hash.fragmentKey, hi, hj] at this
    case neg =>
      have := congrArg Bytes.ofBE h
      simp only [Hash.fragmentKey, hi, hj, if_false, Bytes.ofBE_be, sampleDigest, List.headD_cons,
        List.cons_append, BitVec.toNat_ofNat] at this
      omega

-- An object has been written.
def sampleCommitted : Stripe :=
  { sampleStripe with
    index := sampleIndex
    ring  := { sampleStripe.ring with
      dirs := Function.update (fun _ => none) [97]
        (some ⟨{}, ⟨⟨512, 2, 1⟩, []⟩, ⟨true, [97], 0, 0⟩⟩) } }

section Run

variable {s : Stripe} {t : FillToken 1}

-- The object is replaced under a token which has been captured just before.
theorem replaced_sample (ht : beginFill sampleDigest (fun _ : Fin 1 => s) [97] [97] = .ok t)
    (hm : [97] ∈ s.index.keysOf [97]) (he : s.entries = fun _ => none) (hc : s.closing = false)
    (hs : s.ring.storageErr = false) (hr : (s.reserveIdentityLocked [98] [97]).1 = none) :
    openWriteFillKeyReplacing sampleDigest (fun _ : Fin 1 => s) (some t) [98] [[97]] none (.ok 1) =
      (.ok s.writers.length,
        removeOld sampleDigest (Function.update (fun _ => s) 0 (s.openWrite (bound t [98] 0 1))) [97]) := by
  obtain ⟨hcheck, hsel⟩ := checkFillLocked_beginFill ht
  obtain ⟨_, _, hsnap⟩ := checkFillLocked_eq_ok.mp hcheck
  have hidle : ¬∃ head ∈ t.snapshot, head.writer ≠ none := by
    rintro ⟨head, hm, hw⟩
    rw [of_mem_heads hsnap hm] at hw
    exact hw (by simp [fillHead, he])
  have hfamily : ¬∃ old ∈ [([97] : Bytes)], ∀ head ∈ t.snapshot, head.key ≠ old := by
    rintro ⟨_, ho, h⟩
    cases List.mem_singleton.mp ho
    rw [hsel] at hsnap
    exact h _ ((mem_fillSnapshotLocked hsnap).mpr ⟨0, [97], hm, rfl⟩) rfl
  have hfences : t.fences = .begin sampleDigest (epochs fun _ : Fin 1 => s) [97] := by
    simp only [Cache.beginFill, Except.bind_eq_ok, Except.check_bind_eq_ok] at ht
    obtain ⟨_, _, _, _, _, _, _, he⟩ := ht
    cases he
    rfl
  have hnew : s.newCacheVCWriteLocked sampleDigest (bound t [98] 0) (.ok 1) =
      (.ok s.writers.length, s.openWrite (bound t [98] 0 1)) := by
    have hp : s.policyEpoch sampleDigest [97] = t.fences.own.policies 0 := by rw [hfences]; rfl
    have hg : s.generation = t.fences.own.generations 0 := by rw [hfences]; rfl
    have hf : t.fences.parent = none := by rw [hfences]; rfl
    simp [Stripe.newCacheVCWriteLocked, bound, hsel, hp, hg, hf, hc, hs, hr, he]
  have hv : validateIdentity [98] t.selector = .ok () := by rw [hsel]; rfl
  have hk : keyToStripe sampleDigest [98] = (0 : Fin 1) := rfl
  simp only [openWriteFillKeyReplacing, hv, openWriteFillKeyReplacingLocked, hcheck, if_neg hidle,
    if_neg hfamily, hk, hnew]
  rfl

end Run

-- The key that a second fragment of the object would have.
def sampleNext : Bytes := sampleDigest.fragmentKey [97] 1

-- An object with one byte of data has been written to the given place.
def commitSmall (s : Stripe) (key : Bytes) (offset : Nat) (version : UInt64) : Stripe :=
  let data := CacheWriter.document sampleDigest key version 1 0 [version.toUInt8] []
  { s.put key ((Dir.make offset data.length 0 false).getD {}) ⟨⟨offset, 2, 1⟩, data⟩ ⟨true, [97], 0, 0⟩
      (fun _ => some 0) true with
    index := (s.index.setIdentity key [97]).toOption.getD s.index }

-- Two objects of a selector, each of which has one fragment.
def sampleNeighbours : Stripe :=
  commitSmall (commitSmall { sampleStripe with ring := { sampleStripe.ring with writePos := 658 } }
    [97] 512 1) sampleNext 585 2

theorem removed_sampleNext {w : Writer} (hk : w.key = [98]) (hs : w.selector = [97]) :
    ((sampleNeighbours.openWrite w).removeLocked sampleDigest [97]).dirs sampleNext = none := by
  cases w
  cases hk
  cases hs
  rfl

end Sample

end Cache
end Bakemono
