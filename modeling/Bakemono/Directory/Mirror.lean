import Bakemono.Directory.Set
import Bakemono.Directory.Sweep
import Bakemono.Directory.Table
import Mathlib.Data.Set.Function

namespace Bakemono

-- The keys that are in use. The directory tells them apart by their digests, and takes a slot without
-- a digest for that of any key.
structure KeySpace (H : Hash) where
  keys    : Set Bytes
  inj     : keys.InjOn H.docKey
  ne_zero : ∀ k ∈ keys, H.docKey k ≠ 0

-- What is asked of the directory, and what is done to it.
inductive Call
  | get (key : Bytes)
  | op (op : DirManager.Op)

namespace DirManager

variable {μ : Type} {H : Hash} (K : KeySpace H)

variable (H) in
-- What `Get` shows.
def shown (dm : DirManager) (key : Bytes) : Option Dir :=
  if (dm.get H key).hit then some (dm.get H key).dir else none

variable (H) in
def fate (dm : DirManager) : Table.Fate Bytes := fun key => (dm.shown H key).map Dir.next

def Op.key : Op → Option Bytes
  | .set key .. | .delete key | .deleteAt key _ => some key
  | .removePhase _ | .unmarshal _               => none

-- A sequence of calls about keys in use, none of which panics or overwrites a slot.
inductive Performs : List Call → DirManager → DirManager → Prop
  | nil {dm} : Performs [] dm dm
  | get {dm dm' key calls} : (key ∈ K.keys) → Performs calls dm dm' → Performs (.get key :: calls) dm dm'
  | op {dm dm₁ dm' op calls} :
    (∀ key ∈ op.key, key ∈ K.keys) → op.InRange → (op.Roomy H dm) → (op.exec H dm = .ok dm₁) →
    Performs calls dm₁ dm' → Performs (.op op :: calls) dm dm'

-- The table has the entries of the directory, up to their links.
structure Agrees (dm : DirManager) (t : Table Bytes μ) : Prop where
  sound : dm.Sound
  named : ∀ k ∈ K.keys, ∀ x, dm.occupant H k = some x → x.identity ≠ 0
  dirs  : ∀ k ∈ K.keys, (t k).map (·.dir.setNext 0) = (dm.lookup H k).map Slot.dir

-- The table is what `Get` shows.
structure Mirrors (dm : DirManager) (t : Table Bytes μ) : Prop extends dm.Agrees K t where
  shows : ∀ k ∈ K.keys, (t k).map Entry.dir = dm.shown H k

end DirManager

namespace Table

variable {μ : Type}

-- What a call does to the table. The entry of `Set` is not known here.
def exec (t : Table Bytes μ) : Call → Table Bytes μ
  | .op (.delete key)        => Function.update t key none
  | .op (.deleteAt key off)  => if (t key).any (·.dir.offset = off) then Function.update t key none else t
  | .op (.removePhase phase) => fun k => (t k).filter fun e => e.dir.phase != phase
  | _                        => t

def run (t : Table Bytes μ) (calls : List Call) : Table Bytes μ := calls.foldl exec t

@[simp] theorem run_cons (t : Table Bytes μ) (c : Call) (calls : List Call) :
    t.run (c :: calls) = (t.exec c).run calls := rfl

theorem run_append (t : Table Bytes μ) (calls calls' : List Call) :
    t.run (calls ++ calls') = (t.run calls).run calls' := List.foldl_append

end Table

def Call.IsSet : Call → Bool
  | .op (.set ..) => true
  | _             => false

namespace DirManager

variable {μ : Type} {H : Hash} {K : KeySpace H} {dm dm' : DirManager} {t : Table Bytes μ}
  {key : Bytes} {calls calls' : List Call}

theorem Performs.split (h : Performs K (calls ++ calls') dm dm') :
    ∃ dm₁, Performs K calls dm dm₁ ∧ Performs K calls' dm₁ dm' := by
  induction calls generalizing dm
  case nil => exact ⟨dm, .nil, h⟩
  case cons c calls hi =>
    cases h
    case get hk h =>
      have ⟨dm₁, h₁, h₂⟩ := hi h
      exact ⟨dm₁, .get hk h₁, h₂⟩
    case op hk hr hroom he h =>
      have ⟨dm₁, h₁, h₂⟩ := hi h
      exact ⟨dm₁, .op hk hr hroom he h₁, h₂⟩

theorem Performs.append {dm₁ : DirManager} (h : Performs K calls dm dm₁)
    (h' : Performs K calls' dm₁ dm') : Performs K (calls ++ calls') dm dm' := by
  induction h
  case nil => exact h'
  case get hk _ hi => exact .get hk (hi h')
  case op hk hr hroom he _ hi => exact .op hk hr hroom he (hi h')

-- Lookups do not change anything.
theorem Performs.gets {keys : List Bytes} (h : Performs K (keys.map .get) dm dm') : dm' = dm := by
  induction keys
  case nil => cases h; rfl
  case cons hi => cases h with | get _ h => exact hi h

theorem Performs.mem_keys {keys : List Bytes} (h : Performs K (keys.map .get) dm dm') :
    ∀ k ∈ keys, k ∈ K.keys := by
  induction keys
  case nil => simp
  case cons hi => cases h with | get hk h => exact List.forall_mem_cons.mpr ⟨hk, hi h⟩

theorem performs_gets {keys : List Bytes} (h : ∀ k ∈ keys, k ∈ K.keys) :
    Performs K (keys.map .get) dm dm := by
  induction keys
  case nil => exact .nil
  case cons hi =>
    obtain ⟨hk, h⟩ := List.forall_mem_cons.mp h
    exact .get hk (hi h)

theorem map_shown (h : dm.Sound) :
    (dm.shown H key).map (·.setNext 0) = (dm.lookup H key).map Slot.dir := by
  have ⟨h₁, h₂⟩ := get_eq h.shape h.chained H key
  cases hl : dm.lookup H key
  case none => simp [shown, h₁, hl]
  case some x =>
    rw [hl] at h₁ h₂
    have h₁ : (dm.get H key).hit = true := h₁
    have h₂ : (dm.get H key).dir.setNext 0 = x.dir := h₂
    simpa [shown, h₁] using h₂

section Exec

theorem agrees_init {n : Nat} (hn : 4 ≤ n) (ht : ∀ k, t k = none) : (init n).Agrees K t := by
  have hnone (k) : (init n).occupant H k = none := by
    have ⟨hp₁, hp₂⟩ := (shape_init hn).position H k
    rw [occupant, entries_init hn hp₁ hp₂]
    rfl
  exact ⟨sound_init hn, fun k _ x hx => by simp [hnone] at hx, fun k _ => by simp [ht, lookup, hnone]⟩

-- Only the owner of the entry at a position has one there.
theorem Agrees.lookup_of_ne (h : dm.Agrees K t) {k : Bytes} (hkey : key ∈ K.keys) (hk : k ∈ K.keys)
    (hne : k ≠ key) (hpos : dm.position H k = dm.position H key)
    (ho : ∀ x, dm.occupant H key = some x → Owned H x key) : dm.lookup H k = none := by
  have hocc : dm.occupant H k = dm.occupant H key := by rw [occupant, hpos, occupant]
  rw [lookup, Option.filter_eq_none_iff]
  intro x hx hown
  have hx' := hocc ▸ hx
  have hid := (ho x hx').resolve_left (h.named key hkey x hx')
  have hid' := (of_decide_eq_true hown).resolve_left (h.named k hk x hx)
  exact hne (K.inj hk hkey (hid'.symm.trans hid))

-- The entry of the key is removed.
theorem Agrees.removes (h : dm.Agrees K t) (hkey : key ∈ K.keys) (hs : dm'.Sound)
    (hr : Removes dm dm' (dm.position H key)) (ho : ∀ x, dm.occupant H key = some x → Owned H x key) :
    dm'.Agrees K (Function.update t key none) := by
  have hocc := hr.occupant (H := H) h.sound
  refine ⟨hs, fun k hk x hx => ?_, fun k hk => ?_⟩
  case refine_1 =>
    rw [hocc] at hx
    split at hx
    case isTrue => cases hx
    case isFalse => exact h.named k hk x hx
  case refine_2 =>
    rw [lookup, hocc]
    by_cases hne : k = key
    case pos => simp [hne]
    case neg =>
      rw [Function.update_of_ne hne, h.dirs k hk]
      split
      case isTrue hpos => rw [h.lookup_of_ne hkey hk hne hpos ho]; rfl
      case isFalse => rfl

theorem Agrees.eq_none (h : dm.Agrees K t) (hkey : key ∈ K.keys) (hn : dm.lookup H key = none) :
    t key = none := by
  have := h.dirs key hkey
  rw [hn] at this
  simpa using this

theorem Agrees.delete (h : dm.Agrees K t) (hkey : key ∈ K.keys) (hr : dm.DeleteRoom H key) {i : Nat}
    (he : dm.delete H key = .ok (i, dm')) : dm'.Agrees K (t.exec (.op (.delete key))) := by
  rcases delete_cases h.sound hr with ⟨x, hx, ho, he'⟩ | ⟨ho, _, _, he', hs, hrm⟩
  case inl =>
    cases he.symm.trans he'
    have hn : t key = none := h.eq_none hkey (by simp [lookup, hx, Option.filter_some, ho])
    rwa [Table.exec, Function.update_eq_self_iff.mpr hn.symm]
  case inr =>
    cases he.symm.trans he'
    exact h.removes hkey hs hrm ho

theorem Agrees.offset (h : dm.Agrees K t) (hkey : key ∈ K.keys) {e : Entry μ} (he : t key = some e) :
    (dm.get H key).hit = true ∧ (dm.get H key).dir.offset = e.dir.offset := by
  have hd := h.dirs key hkey
  rw [← map_shown h.sound, he] at hd
  obtain ⟨d, hs, hd⟩ := Option.map_eq_some_iff.mp hd.symm
  simp only [shown, Option.ite_none_right_eq_some, Option.some.injEq] at hs
  have ho : (d.setNext 0).offset = (e.dir.setNext 0).offset := congrArg Dir.offset hd
  exact ⟨hs.1, hs.2 ▸ ho⟩

theorem Agrees.exists_shown (h : dm.Agrees K t) (hkey : key ∈ K.keys) {e : Entry μ}
    (he : t key = some e) : ∃ d, dm.shown H key = some d :=
  ⟨_, if_pos (h.offset hkey he).1⟩

-- The entry of a key has the tag of its position.
theorem Agrees.tag (h : dm.Agrees K t) (hkey : key ∈ K.keys) {e : Entry μ} (he : t key = some e) :
    e.dir.tag = (dm.position H key).tag := by
  have hd := h.dirs key hkey
  rw [he] at hd
  obtain ⟨x, hx, hd⟩ := Option.map_eq_some_iff.mp hd.symm
  have hx := (Option.filter_eq_some_iff.mp hx).1
  rw [occupant, Segment.find] at hx
  have ht := List.find?_some hx
  rw [← of_decide_eq_true ht, hd]
  rfl

theorem Agrees.deleteAt (h : dm.Agrees K t) (hkey : key ∈ K.keys) {off : Int}
    (hr : dm.DeleteAtRoom H key off) {r : Bool} (he : dm.deleteAt H key off = .ok (r, dm')) :
    dm'.Agrees K (t.exec (.op (.deleteAt key off))) := by
  rcases deleteAt_cases h.sound hr with ⟨hmiss, _, he'⟩ | ⟨⟨hhit, hoff⟩, _, he', hs, hrm⟩
  case inl =>
    cases he.symm.trans he'
    rw [Table.exec, if_neg]
    · exact h
    · rw [Option.any_eq_true]
      rintro ⟨e, hte, heq⟩
      obtain ⟨hh, ho⟩ := h.offset hkey hte
      exact hmiss.elim (by simp [hh]) (· (by simpa [ho] using heq))
  case inr =>
    cases he.symm.trans he'
    obtain ⟨x, hx, hown⟩ := (get_hit_iff H key h.sound).mp hhit
    have hrm := h.removes hkey hs hrm fun y hy => by
      cases hx.symm.trans hy
      exact hown
    rw [Table.exec]
    split
    case isTrue => exact hrm
    case isFalse hne =>
      -- An entry of the table would have the offset.
      have hn : t key = none := by
        cases ht : t key
        case none => rfl
        case some e => exact absurd (by simp [ht, ← (h.offset hkey ht).2, hoff]) hne
      rwa [Function.update_eq_self_iff.mpr hn.symm] at hrm

theorem Agrees.removePhase (h : dm.Agrees K t) {phase : Bool}
    (hq : ∀ s ∈ dm.segments, s.Sweepable phase) (he : dm.removePhase phase = .ok dm') :
    dm'.Agrees K (t.exec (.op (.removePhase phase))) := by
  have hocc := occupant_removePhase (H := H) h.sound hq he
  refine ⟨removePhase_sound h.sound hq he, fun k hk x hx => ?_, fun k hk => ?_⟩
  case refine_1 =>
    rw [hocc] at hx
    exact h.named k hk x (Option.filter_eq_some_iff.mp hx).1
  case refine_2 =>
    have hd := h.dirs k hk
    rw [Table.exec, lookup, hocc]
    rw [lookup] at hd
    cases ho : dm.occupant H k
    case none =>
      have hn : t k = none := by simpa [ho] using hd
      simp [hn]
    case some x =>
      rw [ho, Option.filter_some] at hd
      split at hd
      case isFalse hown =>
        have hn : t k = none := by simpa using hd
        simp only [hn, Option.filter_none, Option.map_none, Option.filter_some]
        split
        case isTrue => simp [Option.filter_some, hown]
        case isFalse => rfl
      case isTrue hown =>
        obtain ⟨e, hte, hde⟩ := Option.map_eq_some_iff.mp hd
        have hp : x.dir.phase = e.dir.phase := by rw [← hde]; rfl
        simp only [hte, Option.filter_some, hp]
        by_cases hph : e.dir.phase = phase
        case pos => simp [hph]
        case neg => simpa [hph, Option.filter_some, of_decide_eq_true hown] using hde

theorem Agrees.exec (h : dm.Agrees K t) {op : Op} (hk : ∀ key ∈ op.key, key ∈ K.keys)
    (hr : op.Roomy H dm) (he : op.exec H dm = .ok dm') (hs : (Call.op op).IsSet = false) :
    dm'.Agrees K (t.exec (.op op)) := by
  cases op
  case set => cases hs
  case unmarshal => exact hr.elim
  case removePhase phase => exact h.removePhase hr he
  case delete key =>
    have ⟨r, he, hd⟩ := Except.map_eq_ok.mp he
    exact hd ▸ h.delete (hk key rfl) hr he
  case deleteAt key off =>
    have ⟨r, he, hd⟩ := Except.map_eq_ok.mp he
    exact hd ▸ h.deleteAt (hk key rfl) hr he

-- The table keeps up with all calls but insertions.
theorem Agrees.performs (h : dm.Agrees K t) (hp : Performs K calls dm dm')
    (hs : ∀ c ∈ calls, c.IsSet = false) : dm'.Agrees K (t.run calls) := by
  induction hp generalizing t
  case nil => exact h
  case get hi => exact hi h (List.forall_mem_cons.mp hs).2
  case op hk _ hr he _ hi =>
    have ⟨hc, hs⟩ := List.forall_mem_cons.mp hs
    exact hi (h.exec hk hr he hc) hs

-- The entry of an insertion is the one that the directory has made, and the other entries suffer what
-- they suffer there.
theorem Agrees.set (h : dm.Agrees K t) (hkey : key ∈ K.keys) {off size i : Nat} {phase : Bool}
    {rand : Nat → Fin 10} (ho : 0 < off ∧ off < 2 ^ 40) (hz : 0 < size ∧ size ≤ DirMaxDataSize)
    (he : dm.set H key off size phase rand = .ok (i, dm')) (m : μ) :
    dm'.Agrees K (t.set key ⟨(dm'.get H key).dir, m⟩ (dm'.fate H)) := by
  obtain ⟨hs, hc⟩ := And.intro h.sound.shape h.sound.chained
  have hs' := set_sound h.sound ho hz he
  obtain ⟨d, _, hocc⟩ := occupant_set hs hc ho hz he
  have hother {k} (hpos : dm.position H k ≠ dm.position H key) :
      dm'.occupant H k = dm.occupant H k ∨ dm'.occupant H k = none :=
    (occupant_set_of_ne hs hc ho hz he hpos).imp_right fun hn => by rw [occupant, hn.2]; rfl
  refine ⟨hs', fun k hk x hx => ?_, fun k hk => ?_⟩
  case refine_1 =>
    by_cases hpos : dm.position H k = dm.position H key
    case pos =>
      cases (hocc k hpos).symm.trans hx
      exact K.ne_zero key hkey
    case neg =>
      rcases hother hpos with hsame | hn
      case inl => exact h.named k hk x (hsame ▸ hx)
      case inr => cases hn.symm.trans hx
  case refine_2 =>
    rw [← map_shown hs', Table.set]
    split
    case isTrue hke =>
      subst hke
      obtain ⟨_, _, hhit, _⟩ := get_set hs hc ho hz he
      simp [shown, hhit]
    case isFalse hne =>
      cases hsh : dm'.shown H k
      case none => simp [fate, hsh]
      case some d' =>
        have hl : (dm'.lookup H k).map Slot.dir = some (d'.setNext 0) := by rw [← map_shown hs', hsh]; rfl
        have hid : H.docKey key ≠ H.docKey k := fun hc => hne (K.inj hk hkey hc.symm)
        have hlookup : dm'.lookup H k = dm.lookup H k := by
          by_cases hpos : dm.position H k = dm.position H key
          case pos =>
            have hn : dm'.lookup H k = none := by
              rw [lookup, hocc k hpos]
              simpa [Option.filter_some, Owned, hid] using K.ne_zero key hkey
            simp [hn] at hl
          case neg =>
            rcases hother hpos with hsame | hn
            case inl => rw [lookup, hsame, lookup]
            case inr => simp [lookup, hn] at hl
        have hd := h.dirs k hk
        rw [← hlookup, hl] at hd
        obtain ⟨e, hte, hde⟩ := Option.map_eq_some_iff.mp hd
        simpa [hte, fate, hsh, Entry.relink] using hde

end Exec

-- The links of the entries are those in the directory.
theorem Agrees.evict (h : dm.Agrees K t) : dm.Mirrors K (t.evict (dm.fate H)) := by
  have hd (k) (hk : k ∈ K.keys) : ((t.evict (dm.fate H)) k).map Entry.dir = dm.shown H k := by
    have hd := h.dirs k hk
    rw [← map_shown h.sound] at hd
    cases hs : dm.shown H k
    case none => simp [Table.evict, fate, hs]
    case some d =>
      rw [hs] at hd
      obtain ⟨e, hte, hde⟩ := Option.map_eq_some_iff.mp hd
      have hlink : (e.dir.setNext 0).setNext d.next = (d.setNext 0).setNext d.next :=
        congrArg (Dir.setNext · d.next) hde
      simpa [Table.evict, hte, fate, hs, Entry.relink] using hlink
  refine ⟨⟨h.sound, h.named, fun k hk => ?_⟩, hd⟩
  rw [← map_shown h.sound, ← hd k hk, Option.map_map]
  rfl

end DirManager
end Bakemono
