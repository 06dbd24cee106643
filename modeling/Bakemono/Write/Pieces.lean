import Bakemono.Lib.Hoare
import Bakemono.Write.Writer

namespace Bakemono

open EStateM (Spec)

-- Publications that all succeed, one after the other.
def Storage.publishAll {σ : Type} (S : Storage σ) : List (Nat × Bytes) → EStateM Err σ Unit
  | []          => pure ()
  | (i, q) :: l => do
    S.publish i q
    S.publishAll l

-- An error of the stripe or with a text of its own.
def Storage.Raises {σ : Type} (S : Storage σ) (e : Err) : Prop :=
  (∃ i q s s', S.publish i q s = .error e s') ∨ ∃ text, e = .other text

namespace CacheWriter

-- A fragment behind the first one of an object that begins with the given bytes.
def tail (H : Hash) (key : Bytes) (version : UInt64) (body : Bytes) (i : Nat) : Nat × Bytes :=
  let data := body.slice (i * TargetFragmentSize) TargetFragmentSize
  (i, document H key version (i * TargetFragmentSize + data.length) i data [])

def tails (H : Hash) (key : Bytes) (version : UInt64) (body : Bytes) (n : Nat) : List (Nat × Bytes) :=
  (List.range' 1 (n - 1)).map (tail H key version body)

-- The head of an object.
def head (H : Hash) (key : Bytes) (version : UInt64) (body info : Bytes) : Nat × Bytes :=
  (0, document H key version body.length 0 (body.take TargetFragmentSize) info)

-- The number of fragments.
def count (n : Nat) : Nat := max 1 ((n + TargetFragmentSize - 1) / TargetFragmentSize)

-- All documents of an object in the order in which they are written.
def documentsOf (H : Hash) (key : Bytes) (version : UInt64) (body info : Bytes) : List (Nat × Bytes) :=
  tails H key version body (count body.length) ++ [head H key version body info]

-- The document holds bytes of the object at the place of the fragment.
def Piece (H : Hash) (key : Bytes) (version : UInt64) (body : Bytes) (d : Nat × Bytes) : Prop :=
  ∃ total data info, d.2 = document H key version total d.1 data info ∧
    data <+: body.drop (d.1 * TargetFragmentSize)

variable {σ : Type} {H : Hash} {start stop : Nat} {key : Bytes} {S : Storage σ} {s₀ : σ}
  {w w' : CacheWriter σ}

-- What holds of a writer, also after an error.
structure Sound (H : Hash) (key : Bytes) (w : CacheWriter σ) : Prop where
  total  : w.accepted.length = w.totalWritten
  pieces : ∀ d ∈ w.documents, Piece H key w.version w.accepted d

-- The state of the stripe follows from the documents that the writer has handed to it. The last one
-- may have been refused.
structure Trace (H : Hash) (key : Bytes) (S : Storage σ) (s₀ : σ) (w : CacheWriter σ) (s : σ) :
    Prop where
  stripe    : s = (S.publishAll w.documents s₀).state
  documents : (∃ n, w.documents = tails H key w.version w.accepted n) ∨
    ∃ info, w.documents = documentsOf H key w.version w.accepted info

-- What an error does to a writer before it is aborted.
structure Breaks (H : Hash) (key : Bytes) (S : Storage σ) (s₀ : σ) (w : CacheWriter σ) (e : Err)
    (w' : CacheWriter σ) : Prop where
  sound    : w'.Sound H key
  accepted : w.accepted <+: w'.accepted
  raised   : S.Raises e
  trace    : w'.Trace H key S s₀ w'.stripe

-- Where the bytes of an open writer are. All publications have succeeded.
structure Layout (H : Hash) (key : Bytes) (S : Storage σ) (s₀ : σ) (w : CacheWriter σ) : Prop where
  total     : w.accepted.length = w.totalWritten
  index     : w.nextFragIdx * TargetFragmentSize ≤ w.totalWritten
  buffer    : w.buffer = w.accepted.drop (w.nextFragIdx * TargetFragmentSize)
  frag0Data : w.frag0Data =
    if w.nextFragIdx = 0 then none else some (w.accepted.take TargetFragmentSize)
  documents : w.documents = tails H key w.version w.accepted w.nextFragIdx
  stripe    : S.publishAll w.documents s₀ = .ok () w.stripe
  opened    : w.closed = false ∧ w.err = none

section Pieces

variable {version : UInt64} {body : Bytes} {i n : Nat}

-- Full fragments do not change when more bytes follow.
theorem tail_append {more : Bytes} (h : (i + 1) * TargetFragmentSize ≤ body.length) :
    tail H key version (body ++ more) i = tail H key version body i := by
  rw [Nat.succ_mul] at h
  simp only [tail, Bytes.slice_append_left h]

theorem tails_append {more : Bytes} (h : n * TargetFragmentSize ≤ body.length) :
    tails H key version (body ++ more) n = tails H key version body n := by
  refine List.map_congr_left fun i hi => tail_append ?_
  have hi := List.mem_range'_1.mp hi
  exact (Nat.mul_le_mul_right _ (by omega)).trans h

theorem tails_succ (h : n ≠ 0) :
    tails H key version body (n + 1) = tails H key version body n ++ [tail H key version body n] := by
  obtain ⟨n, rfl⟩ := Nat.exists_eq_succ_of_ne_zero h
  simp [tails, List.range'_1_concat, Nat.add_comm]

theorem piece_tail : Piece H key version body (tail H key version body i) :=
  ⟨_, _, _, rfl, List.take_prefix ..⟩

theorem Layout.sound (h : w.Layout H key S s₀) : w.Sound H key where
  total  := h.total
  pieces := by
    rw [h.documents]
    intro d hd
    have ⟨i, _, hi⟩ := List.mem_map.mp hd
    exact hi ▸ piece_tail

theorem Layout.trace (h : w.Layout H key S s₀) : w.Trace H key S s₀ w.stripe where
  stripe    := by rw [h.stripe]; rfl
  documents := .inl ⟨_, h.documents⟩

theorem publishAll_concat {l : List (Nat × Bytes)} {q : Bytes} {s s₁ : σ}
    (h₁ : S.publishAll l s = .ok () s₁) : S.publishAll (l ++ [(i, q)]) s = S.publish i q s₁ := by
  induction l generalizing s
  case nil =>
    cases h₁
    simp only [List.nil_append, Storage.publishAll, Bind.bind, EStateM.bind]
    cases S.publish i q s₁ <;> rfl
  case cons d l hi =>
    simp only [List.cons_append, Storage.publishAll, Bind.bind, EStateM.bind] at h₁ ⊢
    cases hd : S.publish d.1 d.2 s
    case error => simp [hd] at h₁
    case ok s' =>
      rw [hd] at h₁
      exact hi h₁

theorem publishAll_error {l l' : List (Nat × Bytes)} {s s₁ : σ} {e : Err}
    (h : S.publishAll l s = .error e s₁) : S.publishAll (l ++ l') s = .error e s₁ := by
  induction l generalizing s
  case nil => cases h
  case cons d l hi =>
    simp only [List.cons_append, Storage.publishAll, Bind.bind, EStateM.bind] at h ⊢
    cases hd : S.publish d.1 d.2 s
    case error =>
      rw [hd] at h
      exact h
    case ok s' =>
      rw [hd] at h
      exact hi h

end Pieces

section Write

variable {p : Bytes}

theorem writeFragment_spec {idx : Nat} {data info q : Bytes}
    (hq : q = document H key w.version w.totalWritten idx data info) :
    Spec (· = w) (writeFragment H key S idx data info)
      (fun _ w' => ∃ s, S.publish idx q w.stripe = .ok () s ∧ w' = w.handed s idx q)
      (fun e w' => ∃ s, S.publish idx q w.stripe = .error e s ∧ w' = w.handed s idx q) := by
  intro w hw
  subst hw hq
  simp only [writeFragment]
  cases hp : S.publish idx (document H key w.version w.totalWritten idx data info) w.stripe
  case ok s => exact ⟨s, rfl, rfl⟩
  case error e s => exact ⟨s, rfl, rfl⟩

-- A document of the accepted bytes keeps a writer sound.
theorem Sound.handed {s : σ} {idx : Nat} {q : Bytes} (h : w.Sound H key)
    (hq : Piece H key w.version w.accepted (idx, q)) : (w.handed s idx q).Sound H key where
  total  := h.total
  pieces := by
    intro d hd
    cases List.mem_append.mp hd
    case inl hd => exact h.pieces d hd
    case inr hd => exact List.mem_singleton.mp hd ▸ hq

-- The stripe has refused a document.
theorem breaks_handed {w₀ : CacheWriter σ} {s : σ} {idx : Nat} {q : Bytes} {e : Err}
    (hs : (w.handed s idx q).Sound H key) (ha : w₀.accepted <+: w.accepted)
    (h : S.publishAll w.documents s₀ = .ok () w.stripe) (hp : S.publish idx q w.stripe = .error e s)
    (hd : (∃ n, w.documents ++ [(idx, q)] = tails H key w.version w.accepted n) ∨
      ∃ info, w.documents ++ [(idx, q)] = documentsOf H key w.version w.accepted info) :
    w₀.Breaks H key S s₀ e (w.handed s idx q) where
  sound    := hs
  accepted := ha
  raised   := .inl ⟨_, _, _, _, hp⟩
  trace    := {
    stripe    := by rw [handed, publishAll_concat h, hp]; rfl
    documents := hd }

-- The next document of a writer whose buffer holds a whole fragment.
theorem Layout.document (h : w.Layout H key S s₀) (hl : w.buffer.length = TargetFragmentSize) :
    (w.nextFragIdx, CacheWriter.document H key w.version w.totalWritten w.nextFragIdx
      (w.buffer.take TargetFragmentSize) []) = tail H key w.version w.accepted w.nextFragIdx := by
  have hb : w.accepted.slice (w.nextFragIdx * TargetFragmentSize) TargetFragmentSize =
      w.buffer.take TargetFragmentSize := by rw [Bytes.slice, h.buffer]
  have ht : w.totalWritten = w.nextFragIdx * TargetFragmentSize + w.buffer.length := by
    rw [h.buffer, List.length_drop, h.total]
    have := h.index
    omega
  simp only [tail, hb, ht, List.length_take, hl, Nat.min_self]

theorem Layout.totalWritten (h : w.Layout H key S s₀) :
    w.totalWritten = w.nextFragIdx * TargetFragmentSize + w.buffer.length := by
  rw [h.buffer, List.length_drop, h.total]
  have := h.index
  omega

theorem processChunk_spec (h : w.Layout H key S s₀) (hl : w.buffer.length = TargetFragmentSize) :
    Spec (· = w) (processChunk H key S)
      (fun _ w' => w'.advanced.Layout H key S s₀ ∧ w'.buffer = w.buffer ∧ w'.accepted = w.accepted)
      (w.Breaks H key S s₀) := by
  have hindex : (w.nextFragIdx + 1) * TargetFragmentSize = w.totalWritten := by
    rw [Nat.succ_mul, h.totalWritten, hl]
  have hbuffer : w.buffer.drop TargetFragmentSize =
      w.accepted.drop ((w.nextFragIdx + 1) * TargetFragmentSize) := by
    rw [h.buffer, List.drop_drop, Nat.succ_mul]
  refine .read <| .ite (fun h₀ => .update ⟨?_, rfl, rfl⟩) fun h₀ =>
    (writeFragment_spec rfl).mono (fun _ => id) ?_ ?_
  case refine_1 =>
    constructor
    case total => exact h.total
    case index => exact hindex.le
    case buffer => exact hbuffer
    case frag0Data =>
      simp [advanced, h.buffer, h₀]
    case documents =>
      have := h.documents
      simp only [advanced, h₀] at this ⊢
      simpa [tails] using this
    case stripe => exact h.stripe
    case opened => exact h.opened
  case refine_2 =>
    rintro _ _ ⟨s, hs, rfl⟩
    refine ⟨?_, rfl, rfl⟩
    constructor
    case total => exact h.total
    case index => exact hindex.le
    case buffer => exact hbuffer
    case frag0Data =>
      have := h.frag0Data
      simpa [advanced, handed, h₀] using this
    case documents =>
      simp only [advanced, handed, h.documents, h.document hl]
      rw [tails_succ h₀]
    case stripe => exact (publishAll_concat h.stripe).trans hs
    case opened => exact h.opened
  case refine_3 =>
    rintro _ _ ⟨s, hr, rfl⟩
    refine breaks_handed (h.sound.handed (h.document hl ▸ piece_tail)) List.prefix_rfl h.stripe hr
      (.inl ⟨w.nextFragIdx + 1, ?_⟩)
    rw [h.documents, h.document hl, tails_succ h₀]

-- The buffer of an open writer between two calls is not full.
structure Open (H : Hash) (key : Bytes) (S : Storage σ) (s₀ : σ) (w : CacheWriter σ) : Prop where
  layout : w.Layout H key S s₀
  room   : w.buffer.length < TargetFragmentSize

theorem processBuffer_spec (h : w.Layout H key S s₀) (hl : w.buffer.length ≤ TargetFragmentSize) :
    Spec (· = w) (processBuffer H key S (w.buffer.length / TargetFragmentSize))
      (fun _ w' => w'.Open H key S s₀ ∧ w'.accepted = w.accepted) (w.Breaks H key S s₀) := by
  have hpos : 0 < TargetFragmentSize := by decide
  by_cases hf : w.buffer.length = TargetFragmentSize
  case pos =>
    rw [hf, Nat.div_self hpos]
    refine .bind (processChunk_spec h hf) fun _ => .at_state fun w₁ ⟨h₁, hb, ha⟩ => ?_
    refine .bind (Q := fun _ w' => w' = w₁.advanced) (.update rfl) fun _ => .ret ⟨⟨h₁, ?_⟩, ha⟩
    simpa [advanced, hb, hf] using hpos
  case neg =>
    have hlt : w.buffer.length < TargetFragmentSize := by omega
    rw [Nat.div_eq_of_lt hlt]
    exact .ret ⟨⟨h, hlt⟩, rfl⟩

theorem Layout.appended (h : w.Layout H key S s₀) (p : Bytes) :
    (w.appended p).Layout H key S s₀ := by
  have hle : w.nextFragIdx * TargetFragmentSize ≤ w.accepted.length := h.total ▸ h.index
  constructor
  case total => simp [CacheWriter.appended, h.total]
  case index => exact h.index.trans (Nat.le_add_right ..)
  case buffer => simp [CacheWriter.appended, h.buffer, List.drop_append_of_le_length hle]
  case frag0Data =>
    rw [CacheWriter.appended, h.frag0Data]
    split
    case isTrue => rfl
    case isFalse h₀ =>
      have : TargetFragmentSize ≤ w.accepted.length :=
        (Nat.le_mul_of_pos_left _ (Nat.pos_of_ne_zero h₀)).trans hle
      simp only [List.take_append_of_le_length this]
  case documents => exact h.documents.trans (tails_append hle).symm
  case stripe => exact h.stripe
  case opened => exact h.opened

theorem writeChunk_spec (h : w.Open H key S s₀) (p : Bytes) :
    Spec (· = w) (writeChunk H key S p)
      (fun rest w' => w'.Open H key S s₀ ∧ w'.accepted ++ rest = w.accepted ++ p ∧
        w.accepted <+: w'.accepted ∧ rest.length ≤ p.length - 1)
      (w.Breaks H key S s₀) := by
  let take := min (TargetFragmentSize - w.buffer.length) p.length
  let w₁ := w.appended (p.take take)
  have hroom := h.room
  have hlen : w₁.buffer.length = w.buffer.length + take := by
    simp [w₁, appended, take]
  have hspec := processBuffer_spec (h.layout.appended (p.take take))
    (by rw [hlen]; simp only [take]; omega)
  rw [hlen] at hspec
  refine .read <| .bind (Q := fun _ w' => w' = w₁) (.update rfl) fun _ => .bind
    (Q := fun _ w' => w'.Open H key S s₀ ∧ w'.accepted = w₁.accepted) ?_
    fun _ => .at_state fun w₂ ⟨h₂, ha⟩ => .ret ⟨h₂, ?_, ha ▸ List.prefix_append .., ?_⟩
  case refine_1 =>
    refine hspec.mono (fun _ => id) (fun _ _ => id) fun _ w' hb => { hb with accepted := ?_ }
    exact (List.prefix_append ..).trans hb.accepted
  case refine_2 =>
    rw [ha]
    exact (List.append_assoc ..).trans (congrArg _ (List.take_append_drop take p))
  case refine_3 =>
    rw [List.length_drop]
    omega

theorem writeLoop_spec (h : w.Open H key S s₀) {p : Bytes} {fuel : Nat} (hf : p.length ≤ fuel) :
    Spec (· = w) (writeLoop H key S fuel p)
      (fun rest w' => w'.Open H key S s₀ ∧ w'.accepted = w.accepted ++ p ∧ rest = [])
      (w.Breaks H key S s₀) := by
  induction fuel generalizing p w
  case zero =>
    have hp : p = [] := List.eq_nil_of_length_eq_zero (by omega)
    exact .ret ⟨h, by simp [hp], hp⟩
  case succ fuel hi =>
    refine .ite (fun hp => .ret ⟨h, by simp [hp], hp⟩) fun _ => ?_
    refine .bind ((writeChunk_spec h p).mono (fun _ => id) (fun _ _ => id) fun _ _ => id)
      fun rest => .at_state fun w₁ ⟨h₁, ha, hp, hr⟩ => ?_
    refine (hi h₁ (by omega)).mono (fun _ => id) ?_ ?_
    case refine_1 => exact fun _ w' ⟨h', ha', hr'⟩ => ⟨h', ha'.trans ha, hr'⟩
    case refine_2 => exact fun _ w' hb => { hb with accepted := hp.trans hb.accepted }

-- A writer that has been closed or aborted.
structure Closed (H : Hash) (key : Bytes) (w : CacheWriter σ) : Prop where
  sound  : w.Sound H key
  closed : w.closed = true
  empty  : w.buffer = [] ∧ w.frag0Data = none

theorem Sound.abortLocked (h : w.Sound H key) (e : Err) : (w.abortLocked S e).Closed H key :=
  ⟨⟨h.total, h.pieces⟩, rfl, rfl, rfl⟩

-- An error closes the writer with it.
structure Fails (H : Hash) (key : Bytes) (S : Storage σ) (s₀ : σ) (w : CacheWriter σ) (e : Err)
    (w' : CacheWriter σ) : Prop where
  closed   : w'.Closed H key
  err      : w'.err = some e
  accepted : w.accepted <+: w'.accepted
  raised   : S.Raises e
  trace    : ∃ s, w'.Trace H key S s₀ s ∧ w'.stripe = S.abandon s

theorem aborting_spec {α : Type} {x : WriterM σ α} {Q : α → CacheWriter σ → Prop}
    (h : Spec (· = w) x Q (w.Breaks H key S s₀)) : Spec (· = w) (aborting S x) Q (w.Fails H key S s₀) :=
  .tryCatch h fun e => .at_state fun w' hb =>
    .bind (Q := fun _ w₁ => w₁ = w'.abortLocked S e) (.update rfl) fun _ =>
      .fail ⟨hb.sound.abortLocked e, rfl, hb.accepted, hb.raised, _, ⟨hb.trace.1, hb.trace.2⟩, rfl⟩

theorem raises_ctxErr {e : Err} (h : CtxErr (some e)) : S.Raises e := by
  simp only [CtxErr, List.mem_cons, reduceCtorEq, Option.some.injEq, false_or, List.not_mem_nil,
    or_false] at h
  obtain h | h := h
  all_goals exact .inr ⟨_, h⟩

theorem write_spec (h : w.Open H key S s₀) {ctxErr : Option Err} (hc : CtxErr ctxErr) (p : Bytes) :
    Spec (· = w) (write H start stop key S ctxErr p)
      (fun n w' => w'.Open H key S s₀ ∧ w'.accepted = w.accepted ++ p ∧ n = p.length)
      (w.Fails H key S s₀) := by
  refine .read <| .ite (fun hc => ?_) fun _ => aborting_spec ?_
  case refine_1 => simp [h.layout.opened.1] at hc
  case refine_2 =>
    cases ctxErr
    case some e =>
      exact .fail ⟨h.layout.sound, List.prefix_rfl, raises_ctxErr hc, h.layout.trace⟩
    case none =>
      refine .ite (fun _ => .fail ?_) fun _ => ?_
      case refine_1 => exact ⟨h.layout.sound, List.prefix_rfl, .inr ⟨_, rfl⟩, h.layout.trace⟩
      refine .bind (writeLoop_spec h le_rfl) fun rest => .at_state fun w' ⟨ho, ha, hr⟩ => .ret ?_
      exact ⟨ho, ha, by simp [hr]⟩

end Write

section Close

-- The metadata as it is stored.
def Encodes (info : Option CacheHTTPInfo) (bytes : Bytes) : Prop :=
  match info with
  | none      => bytes = []
  | some info => info.marshal = .ok bytes

-- All fragments but the head have been published.
structure Flushed (H : Hash) (key : Bytes) (S : Storage σ) (s₀ : σ) (w w' : CacheWriter σ) : Prop where
  accepted  : w'.accepted = w.accepted
  version   : w'.version = w.version
  err       : w'.err = none
  sound     : w'.Sound H key
  frag0Data : w'.frag0Data =
    if w'.totalWritten = 0 then none else some (w.accepted.take TargetFragmentSize)
  documents : w'.documents = tails H key w.version w.accepted (count w.accepted.length)
  stripe    : S.publishAll w'.documents s₀ = .ok () w'.stripe

theorem count_full {n : Nat} (h : n ≠ 0) : count (n * TargetFragmentSize) = n := by
  rw [count]
  have : (n * TargetFragmentSize + TargetFragmentSize - 1) / TargetFragmentSize = n := by
    simp only [TargetFragmentSize]
    omega
  omega

theorem count_partial {n m : Nat} (h : 0 < m) (hm : m < TargetFragmentSize) :
    count (n * TargetFragmentSize + m) = n + 1 := by
  rw [count]
  simp only [TargetFragmentSize] at *
  omega

-- The document of what is left in the buffer.
theorem Open.document (h : w.Open H key S s₀) :
    (w.nextFragIdx, CacheWriter.document H key w.version w.totalWritten w.nextFragIdx w.buffer []) =
      tail H key w.version w.accepted w.nextFragIdx := by
  have hb : w.accepted.slice (w.nextFragIdx * TargetFragmentSize) TargetFragmentSize = w.buffer := by
    rw [Bytes.slice, ← h.layout.buffer, List.take_of_length_le h.room.le]
  simp only [tail, hb, h.layout.totalWritten]

theorem closeBuffer_spec (h : w.Open H key S s₀) :
    Spec (· = w) (closeBuffer H key S) (fun _ w' => Flushed H key S s₀ w w') (w.Breaks H key S s₀) := by
  have ht := h.layout.totalWritten
  have hlen : w.accepted.length = w.nextFragIdx * TargetFragmentSize + w.buffer.length :=
    h.layout.total.trans ht
  refine .read <| .ite (fun hb => .ret ?_) fun hb => .ite (fun h₀ => .update ?_) fun h₀ => ?_
  case refine_1 =>
    -- The length is a multiple of that of a fragment.
    rw [hb, List.length_nil, Nat.add_zero] at ht hlen
    refine ⟨rfl, rfl, h.layout.opened.2, h.layout.sound, ?_, ?_, h.layout.stripe⟩
    case refine_1 =>
      rw [h.layout.frag0Data, ht]
      simp [TargetFragmentSize]
    case refine_2 =>
      rw [h.layout.documents, hlen]
      by_cases h₀ : w.nextFragIdx = 0
      case pos =>
        rw [h₀, Nat.zero_mul]
        rfl
      case neg => rw [count_full h₀]
  case refine_2 =>
    -- There is only one fragment.
    have hpos : 0 < w.buffer.length := List.length_pos_of_ne_nil hb
    have hbuf : w.buffer = w.accepted := by rw [h.layout.buffer, h₀]; simp
    rw [h₀] at ht hlen
    refine ⟨rfl, rfl, h.layout.opened.2, ⟨h.layout.total, h.layout.sound.pieces⟩, ?_, ?_,
      h.layout.stripe⟩
    case refine_1 =>
      rw [if_neg (show ¬w.totalWritten = 0 by omega)]
      simp [hbuf, List.take_of_length_le (hbuf ▸ h.room.le)]
    case refine_2 =>
      rw [hlen, count_partial hpos h.room]
      exact h.layout.documents.trans (by simp [h₀, tails])
  case refine_3 =>
    have hpos : 0 < w.buffer.length := List.length_pos_of_ne_nil hb
    let q := CacheWriter.document H key w.version w.totalWritten w.nextFragIdx w.buffer []
    have hsound (s : σ) : (w.handed s w.nextFragIdx q).Sound H key :=
      h.layout.sound.handed (h.document ▸ piece_tail)
    refine .bind ((writeFragment_spec (q := q) rfl).mono (fun _ => id) (fun _ _ => id) ?_)
      fun _ => .at_state fun w' hw' => .update ?_
    case refine_1 =>
      rintro _ _ ⟨s, hr, rfl⟩
      refine breaks_handed (hsound s) List.prefix_rfl h.layout.stripe hr
        (.inl ⟨w.nextFragIdx + 1, ?_⟩)
      rw [h.layout.documents, h.document, tails_succ h₀]
    case refine_2 =>
      obtain ⟨s, hs, rfl⟩ := hw'
      refine ⟨rfl, rfl, h.layout.opened.2, ⟨(hsound s).total, (hsound s).pieces⟩, ?_, ?_,
        (publishAll_concat h.layout.stripe).trans hs⟩
      case refine_1 =>
        have ht₀ : w.totalWritten ≠ 0 := by omega
        simpa [handed, h₀, ht₀] using h.layout.frag0Data
      case refine_2 =>
        simp only [handed, q, h.document, h.layout.documents]
        rw [hlen, count_partial hpos h.room, tails_succ h₀]

theorem closeHead_spec {w₀ : CacheWriter σ} (info : Bytes) (h : Flushed H key S s₀ w₀ w) :
    Spec (· = w) (closeHead H key S info)
      (fun _ w' => w'.accepted = w₀.accepted ∧ w'.version = w₀.version ∧ w'.err = none ∧
        w'.Sound H key ∧ w'.documents = documentsOf H key w₀.version w₀.accepted info ∧
        S.publishAll w'.documents s₀ = .ok () w'.stripe)
      (w₀.Breaks H key S s₀) := by
  have hdata : (if w.frag0Data = none ∧ w.totalWritten = 0 then some [] else w.frag0Data) =
      some (w₀.accepted.take TargetFragmentSize) := by
    have ht := h.sound.total
    rw [h.accepted] at ht
    by_cases h₀ : w.totalWritten = 0
    case pos =>
      rw [h₀] at ht
      simp [h.frag0Data, h₀, List.eq_nil_of_length_eq_zero ht]
    case neg => simp [h.frag0Data, h₀]
  have hq : (0, CacheWriter.document H key w.version w.totalWritten 0
      (w₀.accepted.take TargetFragmentSize) info) = head H key w₀.version w₀.accepted info := by
    rw [head, h.version, ← h.sound.total, h.accepted]
  have hpiece : Piece H key w.version w.accepted (0, CacheWriter.document H key w.version
      w.totalWritten 0 (w₀.accepted.take TargetFragmentSize) info) :=
    ⟨_, _, _, rfl, by simp [h.accepted, List.take_prefix]⟩
  refine .read ?_
  rw [hdata]
  refine (writeFragment_spec rfl).mono (fun _ => id) ?_ ?_
  case refine_1 =>
    rintro _ _ ⟨s, hs, rfl⟩
    refine ⟨h.accepted, h.version, h.err, h.sound.handed hpiece, ?_, (publishAll_concat h.stripe).trans hs⟩
    simp only [handed, h.documents, hq, documentsOf]
  case refine_2 =>
    rintro _ _ ⟨s, hr, rfl⟩
    refine breaks_handed (h.sound.handed hpiece) (h.accepted ▸ List.prefix_rfl) h.stripe hr
      (.inr ⟨info, ?_⟩)
    rw [h.documents, hq, h.version, h.accepted, documentsOf]

theorem infoBytes_spec {w₁ : CacheWriter σ} : Spec (· = w₁) (infoBytes w)
    (fun info w' => w' = w₁ ∧ Encodes w.info info) (fun e w' => w' = w₁ ∧ ∃ text, e = .other text) := by
  unfold infoBytes
  cases hi : w.info
  case none => exact .ret ⟨rfl, rfl⟩
  case some info =>
    simp only
    cases hm : info.marshal
    case ok bytes => exact .ret ⟨rfl, hm⟩
    case error => exact .fail ⟨rfl, _, rfl⟩

theorem close_spec (h : w.Open H key S s₀) :
    Spec (· = w) (close H key S)
      (fun _ w' => w'.Closed H key ∧ w'.err = none ∧ w'.accepted = w.accepted ∧ w'.version = w.version ∧
        ∃ info, Encodes w.info info ∧
          w'.documents = documentsOf H key w.version w.accepted info ∧
          S.publishAll w'.documents s₀ = .ok () w'.stripe)
      (w.Fails H key S s₀) := by
  refine .read <| .ite (fun hc => ?_) fun _ => aborting_spec ?_
  case refine_1 => simp [h.layout.opened.1] at hc
  case refine_2 =>
    refine .bind (infoBytes_spec.mono (fun _ => id) (fun _ _ => id) ?_) fun info =>
      .at_state fun w₁ ⟨he, hi⟩ => ?_
    case refine_1 =>
      rintro _ _ ⟨rfl, he⟩
      exact ⟨h.layout.sound, List.prefix_rfl, .inr he, h.layout.trace⟩
    case refine_2 =>
      subst he
      refine .bind (closeBuffer_spec h) fun _ => .at_state fun w₂ h₂ => ?_
      refine .bind (closeHead_spec info h₂) fun _ => .at_state fun w₃ h₃ => .update ?_
      have ⟨ha, hv, he, hs, hd, hp⟩ := h₃
      exact ⟨⟨⟨hs.total, hs.pieces⟩, rfl, rfl, rfl⟩, he, ha, hv, info, hi, hd, hp⟩

end Close

section Calls

-- The calls of a writer. The error of a context is one of its own errors.
inductive Call
  | write (ctxErr : Option Err) (own : CtxErr ctxErr) (p : Bytes)
  | setHTTPInfo (info : Option CacheHTTPInfo)
  | abort (e : Option Err)
  | close

variable (H start stop key S) in
def Call.perform (w : CacheWriter σ) : Call → CacheWriter σ
  | write ctxErr _ p => (CacheWriter.write H start stop key S ctxErr p w).state
  | setHTTPInfo info => w.setHTTPInfo info
  | abort e          => w.abort S e
  | close            => (CacheWriter.close H key S w).state

variable (H start stop key S) in
def performAll (calls : List Call) (w : CacheWriter σ) : CacheWriter σ :=
  calls.foldl (Call.perform H start stop key S) w

-- The stripe as a writer leaves it. An error may have withdrawn the documents again.
inductive Reached (H : Hash) (key : Bytes) (S : Storage σ) (s₀ : σ) (w : CacheWriter σ) : Prop
  | opened : (w.Open H key S s₀) → Reached H key S s₀ w
  | closed (s) :
    (w.closed = true) → (w.Trace H key S s₀ s) → (w.stripe = s ∨ w.stripe = S.abandon s) →
    Reached H key S s₀ w

theorem open_new (stripe : σ) (version : UInt64) :
    CacheWriter.Open H key S stripe { stripe, version } := by
  refine ⟨?_, Nat.succ_pos _⟩
  constructor
  all_goals simp [tails, Storage.publishAll]
  rfl

theorem state_write_closed {ctxErr : Option Err} {p : Bytes} (h : w.closed = true) :
    (write H start stop key S ctxErr p w).state = w := by
  simp [write, h, bind, EStateM.bind, get, getThe, MonadStateOf.get, EStateM.get_apply, throw, throwThe,
    MonadExceptOf.throw, EStateM.throw_apply, EStateM.Result.state]

theorem state_close_closed (h : w.closed = true) : (close H key S w).state = w := by
  cases herr : w.err <;>
    simp [close, h, herr, bind, EStateM.bind, get, getThe, MonadStateOf.get, EStateM.get_apply, throw,
      throwThe, MonadExceptOf.throw, EStateM.throw_apply, EStateM.Result.state, pure, EStateM.pure]

theorem Fails.reached {e : Err} (h : w.Fails H key S s₀ e w') : w'.Reached H key S s₀ := by
  have ⟨s, ht, hs⟩ := h.trace
  exact .closed s h.closed.closed ht (.inr hs)

theorem Open.perform (h : w.Open H key S s₀) (c : Call) :
    (c.perform H start stop key S w).Reached H key S s₀ := by
  cases c
  case write ctxErr hc p =>
    obtain ⟨_, ho, _⟩ | ⟨_, hf⟩ := (write_spec h hc p).state
    case inl => exact .opened ho
    case inr => exact hf.reached
  case setHTTPInfo info =>
    have hc : ¬w.closed = true := by simp [h.layout.opened.1]
    simp only [Call.perform, CacheWriter.setHTTPInfo, if_neg hc]
    exact .opened ⟨{ h.layout with }, h.room⟩
  case abort e =>
    have hc : ¬w.closed = true := by simp [h.layout.opened.1]
    simp only [Call.perform, CacheWriter.abort, if_neg hc]
    exact .closed w.stripe rfl ⟨h.layout.trace.1, h.layout.trace.2⟩ (.inr rfl)
  case close =>
    simp only [Call.perform]
    obtain ⟨_, hc, _, ha, hv, info, _, hd, hp⟩ | ⟨_, hf⟩ := (close_spec h).state
    case inl =>
      refine .closed _ hc.closed ⟨?_, .inr ⟨info, ?_⟩⟩ (.inl rfl)
      case refine_1 => rw [hp]; rfl
      case refine_2 => rw [ha, hv]; exact hd
    case inr => exact hf.reached

theorem perform_closed (h : w.closed = true) (c : Call) : c.perform H start stop key S w = w := by
  cases c
  case write => exact state_write_closed h
  case setHTTPInfo => simp [Call.perform, CacheWriter.setHTTPInfo, h]
  case abort => simp [Call.perform, CacheWriter.abort, h]
  case close => exact state_close_closed h

theorem Reached.performAll (h : w.Reached H key S s₀) (calls : List Call) :
    (w.performAll H start stop key S calls).Reached H key S s₀ := by
  induction calls generalizing w
  case nil => exact h
  case cons c calls hi =>
    apply hi
    cases h
    case opened ho => exact ho.perform c
    case closed s hc ht hs => exact (perform_closed hc c).symm ▸ .closed s hc ht hs

-- What the stripe has got from a writer, whether it has been withdrawn or not.
theorem Reached.trace (h : w.Reached H key S s₀) :
    ∃ s, w.Trace H key S s₀ s ∧ (w.stripe = s ∨ w.stripe = S.abandon s) := by
  cases h
  case opened ho => exact ⟨_, ho.layout.trace, .inl rfl⟩
  case closed s _ ht hs => exact ⟨s, ht, hs⟩

end Calls

end CacheWriter
end Bakemono
