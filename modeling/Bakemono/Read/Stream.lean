import Bakemono.Read.WhileWrite
import Bakemono.Write.Document

namespace Bakemono

open CacheReader (header payload Fragment Seen)
open Except (Avoids)

section Load

variable {H : Hash} {start stop : Nat} {key p q : Bytes} {version : UInt64} {v : View}
  {index offset n total : Nat} {data info : Bytes}

theorem loadWriting_eq_ok (h : CacheReader.loadWriting H start stop key version v index = .ok q) :
    Fragment H key index version q ∧ Seen H start stop key v index q := by
  simp only [CacheReader.loadWriting, Except.bind_eq_ok, Except.check_bind_eq_ok] at h
  obtain ⟨⟨dir, buf, ram⟩, hr, hl, _, hv, hi, _, _, _, hw, ht⟩ := h
  dsimp only at hl hv hi hw ht
  have ⟨_, hf, _⟩ := Doc.validate_eq_ok.mp hv
  have hq : q = buf.take (header buf).len.toNat :=
    (Except.ok.inj <| (CacheReader.trim_eq hf.size).symm.trans ht).symm
  have hh : header q = header buf := by
    rw [hq, CacheReader.header_take (by have := hf.hlen; omega)]
  push Not at hi hw
  refine ⟨?_, dir, buf, ram, hr, hq ▸ List.take_prefix ..⟩
  constructor
  case valid    => rw [hh, hq]; exact CacheReader.validate_take hv
  case identity => rw [hh]; exact hi.1
  case firstKey => rw [hh]; exact hi.2
  case version  => rw [hh]; exact hw.symm
  case length   => rw [hh, hq, List.length_take, Nat.min_eq_left hf.size]

theorem avoids_readFlushed (hv : CacheReader.Spares H start stop key v .eof) :
    Avoids .eof (CacheReader.readFlushed H start stop key version v offset n) := by
  have he := CacheReader.foreign_eof
  apply Avoids.bind
  case hx =>
    apply Avoids.bind (hv _)
    intro _ _
    apply Avoids.check (he.other _)
    intro _
    apply Avoids.bind (CacheReader.avoids_validate he)
    intro _ hval
    apply Avoids.check (he.other _)
    intro _
    apply Avoids.check (he.other _)
    intro _
    apply Avoids.check (he.other _)
    intro _
    apply Avoids.check (he.other _)
    intro _
    apply Avoids.check (he.other _)
    intro _
    have hf := (Doc.validate_eq_ok.mp hval).2.1
    exact CacheReader.trim_eq hf.size ▸ .ok
  case hf =>
    intro q _
    exact .ite (fun _ => .throw (he.other _)) fun _ => .ok

end Load

namespace Streaming

variable {σ : Type} {H : Hash} {start stop : Nat} {key p : Bytes} {S : Storage σ} {s s' : Streaming σ}
  {w : CacheWriter σ} {v : View} {n : Nat}

-- What is loaded continues what has been delivered.
theorem prefix_readFlushed {offset : Nat} (hs : w.Sound H key) (hu : Unforged H start stop key w v)
    (h : CacheReader.readFlushed H start stop key w.version v offset n = .ok p) :
    p <+: w.accepted.drop offset := by
  rw [CacheReader.readFlushed, Except.bind_eq_ok] at h
  have ⟨q, hq, hp⟩ := h
  have ⟨hf, hseen⟩ := loadWriting_eq_ok hq
  have ⟨total, data, info, hd, hdata⟩ := hs.pieces _ (hu _ _ hseen hf)
  dsimp only at hd hdata
  have hpay : payload q = data := by rw [hd] at hf ⊢; exact CacheWriter.payload_document hf
  have hdrop : p <+: data.drop (offset % TargetFragmentSize) := by
    simp only [CacheReader.readLoaded] at hp
    split at hp
    case isTrue => cases hp
    case isFalse =>
      cases hp
      rw [← hpay, payload, List.drop_drop]
      exact List.take_prefix ..
  refine hdrop.trans ?_
  have := hdata.drop (offset % TargetFragmentSize)
  rwa [List.drop_drop, Nat.mul_comm, Nat.div_add_mod] at this

section Sections

-- What a writer has in memory is at the right place.
structure Resident (w : CacheWriter σ) : Prop where
  total     : w.accepted.length = w.totalWritten
  buffer    : w.buffer = w.accepted.drop (w.totalWritten - w.buffer.length)
  frag0Data : w.frag0Data.getD [] <+: w.accepted

theorem resident_open {s₀ : σ} (h : w.Open H key S s₀) : Resident w where
  total     := h.layout.total
  buffer    := by
    have := h.layout.totalWritten
    rw [show w.totalWritten - w.buffer.length = w.nextFragIdx * TargetFragmentSize by omega]
    exact h.layout.buffer
  frag0Data := by
    rw [h.layout.frag0Data]
    split
    case isTrue => exact List.nil_prefix
    case isFalse => exact List.take_prefix ..

theorem resident_closed (h : w.Closed H key) : Resident w where
  total     := h.sound.total
  buffer    := by simp [h.empty.1, ← h.sound.total]
  frag0Data := by simp [h.empty.2]

-- A reader may be told that it is at the end.
def AtEnd (w : CacheWriter σ) (offset : Nat) : Prop :=
  w.closed = true ∧ w.err = none ∧ w.totalWritten ≤ offset

theorem ctxErr_ne_eof {e : Err} (h : CtxErr (some e)) : e ≠ .eof := by
  rintro rfl
  simp [CtxErr] at h

theorem firstSection_data {ctxErr : Option Err} {offset : Nat} (h : Resident w)
    (hd : w.firstSection ctxErr offset n = .data p) : p <+: w.accepted.drop offset := by
  simp only [CacheWriter.firstSection] at hd
  split at hd
  case h_1 | h_2 => cases hd
  case h_3 =>
    split at hd
    case isTrue =>
      split at hd
      case isTrue hle =>
        cases hd
        refine (List.take_prefix ..).trans ?_
        have hb := h.buffer
        generalize w.totalWritten - w.buffer.length = from' at hb hle
        rw [hb, List.drop_drop, Nat.add_sub_of_le hle]
      case isFalse =>
        split at hd
        case isTrue =>
          cases hd
          exact (List.take_prefix ..).trans (h.frag0Data.drop offset)
        case isFalse => cases hd
    case isFalse =>
      split at hd
      all_goals cases hd

theorem firstSection_eof {ctxErr : Option Err} {offset : Nat} (hc : CtxErr ctxErr)
    (he : w.err ≠ some .eof) (hd : w.firstSection ctxErr offset n = .fail .eof) : AtEnd w offset := by
  simp only [CacheWriter.firstSection] at hd
  split at hd
  case h_1 e _ =>
    cases hd
    exact absurd rfl (ctxErr_ne_eof hc)
  case h_2 e herr =>
    cases hd
    exact absurd herr he
  case h_3 herr =>
    split at hd
    case isTrue =>
      split at hd
      case isTrue => cases hd
      case isFalse =>
        split at hd
        all_goals cases hd
    case isFalse ht =>
      split at hd
      case isTrue hcl => exact ⟨hcl, herr, by omega⟩
      case isFalse => cases hd

theorem secondSection_eof {ctxErr : Option Err} {offset : Nat} (hc : CtxErr ctxErr)
    (he : w.err ≠ some .eof) (hd : w.secondSection ctxErr offset = .fail .eof) :
    w.closed = true ∧ w.err = none := by
  simp only [CacheWriter.secondSection] at hd
  split at hd
  case h_1 e _ =>
    cases hd
    exact absurd rfl (ctxErr_ne_eof hc)
  case h_2 =>
    split at hd
    case isTrue hcl =>
      refine ⟨hcl, ?_⟩
      cases herr : w.err
      case none => rfl
      case some e =>
        rw [herr] at hd he
        simp at hd he
        exact absurd hd he
    case isFalse =>
      split at hd
      all_goals cases hd

theorem secondSection_data {ctxErr : Option Err} {offset : Nat} :
    w.secondSection ctxErr offset ≠ .data p ∧ w.secondSection ctxErr offset ≠ .disk := by
  simp only [CacheWriter.secondSection]
  split
  case h_1 => exact ⟨nofun, nofun⟩
  case h_2 =>
    split
    case isTrue => exact ⟨nofun, nofun⟩
    case isFalse =>
      split
      all_goals exact ⟨nofun, nofun⟩

end Sections

section Invariant

variable {e : Event}

def Usable (H : Hash) (key : Bytes) (S : Storage σ) (w : CacheWriter σ) : Prop :=
  (∃ s₀, w.Open H key S s₀) ∨ w.Closed H key

structure Inv (H : Hash) (key : Bytes) (S : Storage σ) (s : Streaming σ) : Prop where
  writer    : Usable H key S s.writer
  err       : s.writer.err ≠ some .eof
  readErr   : s.readErr ≠ some .eof
  length    : s.delivered.length = s.totalRead
  delivered : s.delivered <+: s.writer.accepted
  ended     : s.ended = true → AtEnd s.writer s.totalRead

theorem Usable.resident (h : Usable H key S w) : Resident w :=
  h.elim (fun ⟨_, h⟩ => resident_open h) resident_closed

theorem Usable.sound (h : Usable H key S w) : w.Sound H key :=
  h.elim (fun ⟨_, h⟩ => h.layout.sound) fun h => h.sound

-- What a call of the writer may do.
structure Changes (H : Hash) (key : Bytes) (S : Storage σ) (w w' : CacheWriter σ) : Prop where
  usable   : Usable H key S w'
  err      : w'.err ≠ some .eof
  accepted : w.accepted <+: w'.accepted
  closed   : w.closed = true → w' = w

theorem Inv.change {w' : CacheWriter σ} (h : s.Inv H key S) (hc : Changes H key S s.writer w') :
    { s with writer := w' }.Inv H key S where
  writer    := hc.usable
  err       := hc.err
  readErr   := h.readErr
  length    := h.length
  delivered := h.delivered.trans hc.accepted
  ended     := fun he => (hc.closed (h.ended he).1).symm ▸ h.ended he

theorem Inv.deliver (h : s.Inv H key S) (hp : p <+: s.writer.accepted.drop s.totalRead) :
    (s.deliver p).Inv H key S where
  writer    := h.writer
  err       := h.err
  readErr   := h.readErr
  length    := by simp [Streaming.deliver, h.length]
  delivered := by
    obtain ⟨t, ht⟩ := h.delivered
    rw [← h.length, ← ht, List.drop_left] at hp
    simp only [Streaming.deliver, ← ht]
    exact (List.prefix_append_right_inj _).mpr hp
  ended     := fun he => ⟨(h.ended he).1, (h.ended he).2.1, (h.ended he).2.2.trans (Nat.le_add_right ..)⟩

theorem Inv.fail {err : Err} (h : s.Inv H key S) (he : err = .eof → AtEnd s.writer s.totalRead) :
    (s.fail err).Inv H key S where
  writer    := h.writer
  err       := h.err
  readErr   := by
    simp only [Streaming.fail]
    split
    case isTrue => exact h.readErr
    case isFalse hne => exact fun hc => hne (Option.some.inj hc)
  length    := h.length
  delivered := h.delivered
  ended     := by
    simp only [Streaming.fail, Bool.or_eq_true, decide_eq_true_eq]
    exact fun hor => hor.elim h.ended he

theorem Inv.phase (h : s.Inv H key S) (phase : StreamPhase) : { s with phase }.Inv H key S :=
  ⟨h.writer, h.err, h.readErr, h.length, h.delivered, h.ended⟩

end Invariant

section Writer

-- No publication fails with `io.EOF`.
def Spares (S : Storage σ) : Prop := ∀ i q s s', S.publish i q s ≠ .error .eof s'

theorem ne_eof_of_raises {err : Err} (hS : Spares S) (h : S.Raises err) : err ≠ .eof := by
  rintro rfl
  obtain ⟨i, q, s, s', h⟩ | ⟨text, h⟩ := h
  case inl => exact hS i q s s' h
  case inr => cases h

theorem changes_fails {w' : CacheWriter σ} {err : Err} {s₀ : σ} (hS : Spares S)
    (ho : w.Open H key S s₀) (h : w.Fails H key S s₀ err w') : Changes H key S w w' where
  usable   := .inr h.closed
  err      := by
    rw [h.err]
    exact fun hc => ne_eof_of_raises hS h.raised (Option.some.inj hc)
  accepted := h.accepted
  closed   := fun hc => by simp [ho.layout.opened.1] at hc

theorem changes_open {w' : CacheWriter σ} {s₀ s₁ : σ} (ho : w.Open H key S s₀)
    (h : w'.Open H key S s₁) (ha : w.accepted <+: w'.accepted) : Changes H key S w w' where
  usable   := .inl ⟨s₁, h⟩
  err      := by simp [h.layout.opened.2]
  accepted := ha
  closed   := fun hc => by simp [ho.layout.opened.1] at hc

theorem changes_self (h : Usable H key S w) (he : w.err ≠ some .eof) : Changes H key S w w :=
  ⟨h, he, List.prefix_rfl, fun _ => rfl⟩

theorem changes_write {ctxErr : Option Err} (hS : Spares S) (hc : CtxErr ctxErr)
    (h : Usable H key S w) (he : w.err ≠ some .eof) (p : Bytes) :
    Changes H key S w (CacheWriter.write H start stop key S ctxErr p w).state := by
  obtain ⟨s₀, ho⟩ | hcl := h
  case inl =>
    obtain ⟨_, hw, ha, _⟩ | ⟨_, hf⟩ := (CacheWriter.write_spec ho hc p).state
    case inl => exact changes_open ho hw (ha ▸ List.prefix_append ..)
    case inr => exact changes_fails hS ho hf
  case inr =>
    rw [CacheWriter.state_write_closed hcl.closed]
    exact changes_self (.inr hcl) he

theorem changes_close (hS : Spares S) (h : Usable H key S w) (he : w.err ≠ some .eof) :
    Changes H key S w (CacheWriter.close H key S w).state := by
  obtain ⟨s₀, ho⟩ | hcl := h
  case inl =>
    obtain ⟨_, hw, herr, ha, _⟩ | ⟨_, hf⟩ := (CacheWriter.close_spec ho).state
    case inl =>
      refine ⟨.inr hw, by simp [herr], ha ▸ List.prefix_rfl, fun hc => ?_⟩
      simp [ho.layout.opened.1] at hc
    case inr => exact changes_fails hS ho hf
  case inr =>
    rw [CacheWriter.state_close_closed hcl.closed]
    exact changes_self (.inr hcl) he

theorem changes_abort {err : Option Err} (h : Usable H key S w) (he : w.err ≠ some .eof)
    (hne : err ≠ some .eof) : Changes H key S w (w.abort S err) := by
  unfold CacheWriter.abort
  split
  case isTrue => exact changes_self h he
  case isFalse hcl =>
    refine ⟨.inr (h.sound.abortLocked _), ?_, List.prefix_rfl, fun hc => absurd hc hcl⟩
    cases err
    case none => simp [CacheWriter.abortLocked]
    case some e => exact hne

theorem changes_setHTTPInfo {info : Option CacheHTTPInfo} (h : Usable H key S w)
    (he : w.err ≠ some .eof) : Changes H key S w (w.setHTTPInfo info) := by
  unfold CacheWriter.setHTTPInfo
  split
  case isTrue => exact changes_self h he
  case isFalse hcl =>
    obtain ⟨s₀, ho⟩ | hc := h
    case inl =>
      have ho' : CacheWriter.Open H key S s₀ { w with info } := ⟨{ ho.layout with }, ho.room⟩
      exact changes_open ho ho' List.prefix_rfl
    case inr => exact absurd hc.closed hcl

end Writer

section Run

variable {e : Event}

-- The errors of the caller, of the storage and of the disk are not `io.EOF`, and the writer is not
-- closed successfully with bytes which the reader has not got between the two lock sections.
def Allowed (H : Hash) (start stop : Nat) (key : Bytes) (s : Streaming σ) : Event → Prop
  | .abort e => e ≠ some .eof
  | .second  =>
    ¬(s.writer.closed = true ∧ s.writer.err = none ∧ s.totalRead < s.writer.totalWritten)
  | .load v  => CacheReader.Spares H start stop key v .eof
  | _        => True

theorem Inv.step (hS : Spares S) (h : s.Inv H key S) (hst : Step H start stop key S s e s')
    (ha : s.Allowed H start stop key e) : s'.Inv H key S := by
  cases hst
  case write hc => exact h.change (changes_write hS hc h.writer h.err _)
  case close => exact h.change (changes_close hS h.writer h.err)
  case abort => exact h.change (changes_abort h.writer h.err ha)
  case setHTTPInfo => exact h.change (changes_setHTTPInfo h.writer h.err)
  case refuse err _ he => exact h.fail fun hc => absurd (hc ▸ he) h.readErr
  case call => exact h.phase _
  case spin => exact h
  case first ctxErr n _ _ hc =>
    cases hsec : s.writer.firstSection ctxErr s.totalRead n
    case data p => exact h.deliver (firstSection_data h.writer.resident hsec)
    case fail err => exact h.fail fun he => firstSection_eof hc h.err (he ▸ hsec)
    all_goals exact h.phase _
  case second ctxErr n _ hc =>
    cases hsec : s.writer.secondSection ctxErr s.totalRead
    case data p => exact absurd hsec secondSection_data.1
    case disk => exact absurd hsec (secondSection_data (p := [])).2
    case fail err =>
      refine h.fail fun he => ?_
      have ⟨hcl, herr⟩ := secondSection_eof hc h.err (he ▸ hsec)
      exact ⟨hcl, herr, not_lt.mp fun hlt => ha ⟨hcl, herr, hlt⟩⟩
    all_goals exact h.phase _
  case wake => exact h.phase _
  case load hu hr => exact h.deliver (prefix_readFlushed h.writer.sound hu hr)
  case loadFailed v n err _ _ hr =>
    have hne : err ≠ .eof := fun he => avoids_readFlushed ha (he ▸ hr)
    have hf : (s.fail err).Inv H key S := h.fail fun he => absurd he hne
    exact { hf with readErr := fun hc => hne (Option.some.inj hc) }

theorem inv_attached (stripe : σ) (version : UInt64) :
    (attached stripe version).Inv H key S where
  writer    := .inl ⟨stripe, CacheWriter.open_new stripe version⟩
  err       := nofun
  readErr   := nofun
  length    := rfl
  delivered := List.nil_prefix
  ended     := nofun

-- What a reader has got is a prefix of what the writer has accepted. The end is only reported when the
-- writer has been closed and the reader has got everything.
structure Faithful (s : Streaming σ) : Prop where
  delivered : s.delivered <+: s.writer.accepted
  ended     : s.ended = true →
    s.writer.closed = true ∧ s.writer.err = none ∧ s.delivered = s.writer.accepted
  aborted   : s.writer.err ≠ none → s.ended = false

theorem Inv.faithful (h : s.Inv H key S) : s.Faithful where
  delivered := h.delivered
  ended he  := by
    have ⟨hc, herr, ht⟩ := h.ended he
    refine ⟨hc, herr, h.delivered.eq_of_length_le ?_⟩
    rw [h.length, h.writer.sound.total]
    exact ht
  aborted ha := by
    by_contra he
    exact ha (h.ended (by simpa using he)).2.1

theorem read_while_write {stripe : σ} {version : UInt64} (hS : Spares S)
    (h : Run (Step H start stop key S) (Allowed H start stop key) (attached stripe version) s) : s.Faithful :=
  Inv.faithful <| h.invariant (I := Inv H key S) (fun _ _ _ hi hst ha => hi.step hS hst ha)
    (inv_attached stripe version)

-- A stripe that takes every document.
def sampleStorage : Storage Unit := { publish := fun _ _ => pure (), abandon := id }

theorem spares_sampleStorage : Spares sampleStorage := nofun

def sampleWritten : CacheWriter Unit :=
  { stripe := (), version := 1, buffer := [97], totalWritten := 1, accepted := [97] }

def sampleClosed : CacheWriter Unit :=
  { stripe := (), version := 1, totalWritten := 1, closed := true, accepted := [97]
    documents := [(0, CacheWriter.document sampleHash [97] 1 1 0 [97] [])] }

abbrev SampleStep := Step sampleHash 512 1024 [97] sampleStorage

abbrev SampleAllowed : Streaming Unit → Event → Prop := Allowed sampleHash 512 1024 [97]

theorem read_while_write_sample : ∃ s : Streaming Unit,
    Run SampleStep SampleAllowed (attached () 1) s ∧
      s.delivered = [97] ∧ s.ended = true ∧ s.Faithful := by
  have h₁ : Run SampleStep SampleAllowed (attached () 1)
      { writer := sampleWritten } :=
    Run.refl.step (.write none [97] (.head _)) trivial
  have h₂ := h₁.step (.call 5 rfl rfl) trivial
  have h₃ : Run SampleStep SampleAllowed (attached () 1)
      { writer := sampleWritten, totalRead := 1, delivered := [97] } :=
    h₂.step (.first none 5 rfl (by decide) (.head _)) trivial
  have h₄ : Run SampleStep SampleAllowed (attached () 1)
      { writer := sampleClosed, totalRead := 1, delivered := [97] } := h₃.step .close trivial
  have h₅ := h₄.step (.call 5 rfl rfl) trivial
  have h₆ := h₅.step (.first none 5 rfl (by decide) (.head _)) trivial
  exact ⟨_, h₆, rfl, rfl, read_while_write spares_sampleStorage h₆⟩

-- The writer writes a byte and is closed when the reader is between its two lock sections.
theorem second_section_eof : ∃ s : Streaming Unit,
    Run SampleStep (fun _ _ => True) (attached () 1) s ∧
      s.ended = true ∧ s.writer.accepted = [97] ∧ s.delivered = [] ∧ ¬s.Faithful := by
  have h₁ : Run SampleStep (fun _ _ => True) (attached () 1)
      { writer := { stripe := (), version := 1 }, phase := .first 1 } :=
    Run.refl.step (.call 1 rfl rfl) trivial
  have h₂ : Run SampleStep (fun _ _ => True) (attached () 1)
      { writer := { stripe := (), version := 1 }, phase := .second 1 } :=
    h₁.step (.first none 1 rfl (by decide) (.head _)) trivial
  have h₃ : Run SampleStep (fun _ _ => True) (attached () 1)
      { writer := sampleWritten, phase := .second 1 } := h₂.step (.write none [97] (.head _)) trivial
  have h₄ : Run SampleStep (fun _ _ => True) (attached () 1)
      { writer := sampleClosed, phase := .second 1 } := h₃.step .close trivial
  have h₅ := h₄.step (.second none 1 rfl (.head _)) trivial
  exact ⟨_, h₅, rfl, rfl, rfl, fun h => by cases (h.ended rfl).2.2⟩

end Run

end Streaming
end Bakemono
