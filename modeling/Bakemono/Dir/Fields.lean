import Bakemono.Dir
import Bakemono.Lib.Fields

namespace Bakemono.Dir

inductive Field
  | offset
  | bigInternal
  | sizeInternal
  | tag
  | phase
  | head
  | pinned
  | token
  | next
  deriving DecidableEq

-- The number of bits of a field.
def Field.width : Field → Nat
  | .offset       => 40
  | .bigInternal  => 2
  | .sizeInternal => 6
  | .tag          => 12
  | .next         => 16
  | _             => 1

-- The getters and the setters, where a flag is a number below two.
def get (d : Dir) : Field → Nat
  | .offset       => d.offset
  | .bigInternal  => d.bigInternal.toNat
  | .sizeInternal => d.sizeInternal.toNat
  | .tag          => d.tag.toNat
  | .phase        => d.phase.toNat
  | .head         => d.head.toNat
  | .pinned       => d.pinned.toNat
  | .token        => d.token.toNat
  | .next         => d.next.toNat

def set (d : Dir) : Field → Nat → Dir
  | .offset,       v => d.setOffset v
  | .bigInternal,  v => d.setBigInternal (.ofNat 8 v)
  | .sizeInternal, v => d.setSizeInternal (.ofNat 8 v)
  | .tag,          v => d.setTag (.ofNat 16 v)
  | .phase,        v => d.setPhase (v = 1)
  | .head,         v => d.setHead (v = 1)
  | .pinned,       v => d.setPinned (v = 1)
  | .token,        v => d.setToken (v = 1)
  | .next,         v => d.setNext (.ofNat 16 v)

-- The setter of the size does not clear the upper bit of its field, and those of two flags clear
-- everything else in their word.
def Clears (d : Dir) : Field → Nat → Prop
  | .sizeInternal, v => d.sizeInternal.toNat < 32 ∨ 32 ≤ v
  | .head,         v => v = 1 ∨ d.prev = 0
  | .pinned,       v => v = 1 ∨ d.prev = 0
  | _,             _ => True

-- Several setters one after the other, each of which finds an entry that it can be used on.
def setAll (d : Dir) (values : List (Field × Nat)) : Dir := values.foldl (fun d a => d.set a.1 a.2) d

def ClearsAll (d : Dir) : List (Field × Nat) → Prop
  | []          => True
  | a :: values => d.Clears a.1 a.2 ∧ (d.set a.1 a.2).ClearsAll values

-- The values of different fields, all of which fit.
structure Fit (values : List (Field × Nat)) : Prop where
  nodup : (values.map Prod.fst).Nodup
  lt    : ∀ a ∈ values, a.2 < 2 ^ a.1.width

-- The value is read back, and the others are as before.
structure Sets (d : Dir) (f : Field) (v : Nat) : Prop where
  self  : (d.set f v).get f = v
  other : ∀ f', f' ≠ f → (d.set f v).get f' = d.get f'

open BitVec (field setField)

variable {d d' : Dir} {f : Field} {v : Nat}

section Words

-- The fields are parts of the words.
theorem get_offset : d.get .offset =
    d.raw0.toNat + 2 ^ 16 * (field 0 8 d.raw1).toNat + 2 ^ 24 * d.raw4.toNat := by
  have h : (d.raw1 &&& 0xff).toNat = (field 0 8 d.raw1).toNat :=
    BitVec.toNat_ushiftRight_and (s := 0) (w := 8) rfl
  rw [get, offset_eq, h]

theorem get_bigInternal : d.get .bigInternal = (field 8 2 d.raw1).toNat := by
  have h : (field 8 2 d.raw1).toNat < 2 ^ 2 := BitVec.toNat_field_lt
  rw [get, bigInternal, BitVec.toNat_setWidth, BitVec.toNat_ushiftRight_and (w := 2) rfl]
  omega

theorem get_sizeInternal : d.get .sizeInternal = (field 10 6 d.raw1).toNat := by
  have h : (field 10 6 d.raw1).toNat < 2 ^ 6 := BitVec.toNat_field_lt
  rw [get, sizeInternal, BitVec.toNat_setWidth, BitVec.toNat_ushiftRight_and (w := 6) rfl]
  omega

theorem get_tag : d.get .tag = (field 0 12 d.raw2).toNat :=
  BitVec.toNat_ushiftRight_and (s := 0) (w := 12) rfl

theorem toNat_flag (s : Nat) (x : BitVec 16) : (x >>> s &&& 1 == 1).toNat = (field s 1 x).toNat := by
  have hm : (x >>> s &&& 1).toNat = (field s 1 x).toNat := BitVec.toNat_ushiftRight_and rfl
  have hlt : (field s 1 x).toNat < 2 ^ 1 := BitVec.toNat_field_lt
  have he : x >>> s &&& 1 = 1 ↔ (field s 1 x).toNat = 1 := by
    rw [← hm, ← BitVec.toNat_inj]
    rfl
  rw [beq_eq_decide, decide_eq_decide.mpr he]
  by_cases h : (field s 1 x).toNat = 1
  case pos => rw [decide_eq_true h, h]; rfl
  case neg => rw [decide_eq_false h, Bool.toNat_false]; omega

theorem get_phase : d.get .phase = (field 12 1 d.raw2).toNat := toNat_flag ..

theorem get_head : d.get .head = (field 13 1 d.raw2).toNat := toNat_flag ..

theorem get_pinned : d.get .pinned = (field 14 1 d.raw2).toNat := toNat_flag ..

theorem get_token : d.get .token = (field 15 1 d.raw2).toNat := toNat_flag ..

-- Where a field of the third word is, and how many bits it has.
def Field.spot : Field → Option (Nat × Nat)
  | .tag    => some (0, 12)
  | .phase  => some (12, 1)
  | .head   => some (13, 1)
  | .pinned => some (14, 1)
  | .token  => some (15, 1)
  | _       => none

theorem get_spot {s w : Nat} (h : f.spot = some (s, w)) : d.get f = (field s w d.raw2).toNat := by
  cases f <;> cases h
  case tag    => exact get_tag
  case phase  => exact get_phase
  case head   => exact get_head
  case pinned => exact get_pinned
  case token  => exact get_token

theorem spot_disjoint {f f' : Field} {p p' : Nat × Nat} (h : f.spot = some p) (h' : f'.spot = some p')
    (hne : f' ≠ f) : p'.1 + p'.2 ≤ 16 ∧ (p'.1 + p'.2 ≤ p.1 ∨ p.1 + p.2 ≤ p'.1) := by
  cases f <;> cases h <;> cases f' <;> cases h'
  all_goals first | exact absurd rfl hne | decide

-- The other fields are not in the third word.
theorem get_of_spot (h : f.spot = none) (x : BitVec 16) : { d with raw2 := x }.get f = d.get f := by
  cases f <;> first | rfl | cases h

-- Two entries with the same fields are the same.
theorem ext_get (h : ∀ f, d.get f = d'.get f) : d = d' := by
  have word {s w : Nat} {x y : BitVec 16} (hw : (field s w x).toNat = (field s w y).toNat) :
      field s w x = field s w y := BitVec.eq_of_toNat_eq hw
  have ho := h .offset
  have h₀ := d.raw0.isLt
  have h₀' := d'.raw0.isLt
  have hm : (field 0 8 d.raw1).toNat < 2 ^ 8 := BitVec.toNat_field_lt
  have hm' : (field 0 8 d'.raw1).toNat < 2 ^ 8 := BitVec.toNat_field_lt
  rw [get_offset, get_offset] at ho
  have h₁ : d.raw1 = d'.raw1 := by
    apply BitVec.eq_of_fields [(0, 8), (8, 2), (10, 6)] (by decide)
    have hb := h .bigInternal
    have hs := h .sizeInternal
    rw [get_bigInternal, get_bigInternal] at hb
    rw [get_sizeInternal, get_sizeInternal] at hs
    simp only [List.forall_mem_cons]
    exact ⟨word (by omega), word hb, word hs, nofun⟩
  have h₂ : d.raw2 = d'.raw2 := by
    apply BitVec.eq_of_fields [(0, 12), (12, 1), (13, 1), (14, 1), (15, 1)] (by decide)
    have spot {f : Field} {p : Nat × Nat} (hp : f.spot = some p) :
        field p.1 p.2 d.raw2 = field p.1 p.2 d'.raw2 := by
      have hf := h f
      rw [get_spot hp, get_spot hp] at hf
      exact word hf
    simp only [List.forall_mem_cons]
    exact ⟨spot (f := .tag) rfl, spot (f := .phase) rfl, spot (f := .head) rfl,
      spot (f := .pinned) rfl, spot (f := .token) rfl, nofun⟩
  ext1
  case raw0 => exact BitVec.eq_of_toNat_eq (by omega)
  case raw1 => exact h₁
  case raw2 => exact h₂
  case raw3 => exact BitVec.eq_of_toNat_eq (h .next)
  case raw4 => exact BitVec.eq_of_toNat_eq (by omega)

end Words

section Setters

theorem sets_offset (hv : v < 2 ^ 40) : d.Sets .offset v := by
  have h₁ : (d.setOffset v).raw1 = setField 0 d.raw1 (.ofNat 8 ((v >>> 16) &&& 0xff)) := by
    have hlt : (v >>> 16) &&& 0xff < 2 ^ 8 := Nat.and_lt_two_pow _ (by decide)
    rw [← BitVec.setField_ofNat (m := 0xff00) (by decide) hlt, BitVec.shiftLeft_zero, BitVec.or_comm]
    rfl
  constructor
  case self => exact (offset_setOffset d v).trans (Nat.mod_eq_of_lt hv)
  case other =>
    intro f hf
    rw [set]
    cases f
    case offset => exact absurd rfl hf
    case bigInternal =>
      rw [get_bigInternal, h₁, BitVec.field_setField_of_disjoint (by decide) (by decide), get_bigInternal]
    case sizeInternal =>
      rw [get_sizeInternal, h₁, BitVec.field_setField_of_disjoint (by decide) (by decide),
        get_sizeInternal]
    all_goals rfl

-- The two size fields are in the second word, behind the offset.
theorem sets_raw1 {s w : Nat} (hs : f = .bigInternal ∧ s = 8 ∧ w = 2 ∨ f = .sizeInternal ∧ s = 10 ∧ w = 6)
    (hv : v < 2 ^ w) (h : d.set f v = { d with raw1 := setField s d.raw1 (.ofNat w v) }) :
    d.Sets f v := by
  have hbit : field 0 8 (setField s d.raw1 (BitVec.ofNat w v)) = field 0 8 d.raw1 :=
    BitVec.field_setField_of_disjoint (by decide) (by omega)
  constructor
  case self =>
    rw [h]
    obtain ⟨hf, hs, hw⟩ | ⟨hf, hs, hw⟩ := hs <;> subst hf hs hw
    case inl =>
      rw [get_bigInternal]
      exact BitVec.toNat_field_setField (by decide) hv
    case inr =>
      rw [get_sizeInternal]
      exact BitVec.toNat_field_setField (by decide) hv
  case other =>
    intro f' hne
    rw [h]
    cases f'
    case offset =>
      rw [get_offset, get_offset]
      simp only [hbit]
    case bigInternal =>
      have hbit : field 8 2 (setField s d.raw1 (BitVec.ofNat w v)) = field 8 2 d.raw1 := by
        refine BitVec.field_setField_of_disjoint (by decide) ?_
        have := hs.resolve_left fun hs => hne hs.1.symm
        omega
      rw [get_bigInternal, get_bigInternal]
      simp only [hbit]
    case sizeInternal =>
      have hbit : field 10 6 (setField s d.raw1 (BitVec.ofNat w v)) = field 10 6 d.raw1 := by
        refine BitVec.field_setField_of_disjoint (by decide) ?_
        have := hs.resolve_right fun hs => hne hs.1.symm
        omega
      rw [get_sizeInternal, get_sizeInternal]
      simp only [hbit]
    all_goals rfl

theorem setWidth_ofNat (hv : v < 2 ^ 8) : (BitVec.ofNat 8 v).setWidth 16 = .ofNat 16 v := by
  apply BitVec.eq_of_toNat_eq
  simp only [BitVec.toNat_setWidth, BitVec.toNat_ofNat]
  omega

theorem sets_bigInternal (hv : v < 2 ^ 2) : d.Sets .bigInternal v := by
  refine sets_raw1 (.inl ⟨rfl, rfl, rfl⟩) hv ?_
  rw [set, setBigInternal, setWidth_ofNat (hv.trans (by decide)), BitVec.setField_ofNat (by decide) hv]

-- The mask of the setter leaves the upper bit of the size as it is.
theorem sets_sizeInternal (hv : v < 2 ^ 6) : d.Sets .sizeInternal v ↔ d.Clears .sizeInternal v := by
  have hset : d.set .sizeInternal v =
      { d with raw1 := (d.raw1 &&& 0x83ff#16) ||| BitVec.ofNat 16 v <<< 10 } := by
    rw [set, setSizeInternal, setWidth_ofNat (hv.trans (by decide))]
    rfl
  have htop {d : Dir} : 32 ≤ d.get .sizeInternal ↔ d.raw1.getLsbD 15 = true := by
    rw [get_sizeInternal]
    exact BitVec.le_toNat_field (s := 10) (w := 5)
  constructor
  case mp =>
    intro h
    by_contra hc
    obtain ⟨hd, hv'⟩ : 32 ≤ d.get .sizeInternal ∧ v < 32 := by simpa [Clears, get] using hc
    have hself := h.self
    have hkept : 32 ≤ (d.set .sizeInternal v).get .sizeInternal := by
      rw [htop, hset]
      simp [htop.mp hd]
    omega
  case mpr =>
    intro hc
    refine sets_raw1 (.inr ⟨rfl, rfl, rfl⟩) hv ?_
    -- The bit is not there, or it is set.
    have hbit : d.raw1.getLsbD 15 = false ∨ (BitVec.ofNat 16 v).getLsbD 5 = true := by
      refine hc.imp (fun hd => ?_) fun hv' => ?_
      case refine_1 =>
        by_contra hb
        have := htop.mpr (by simpa using hb)
        exact absurd hd (Nat.not_lt.mpr this)
      case refine_2 =>
        have : v.testBit 5 = true := by
          rw [Nat.testBit_eq_decide_div_mod_eq, decide_eq_true_iff]
          omega
        rw [BitVec.getLsbD_ofNat, this]
        rfl
    have hword : (d.raw1 &&& 0x83ff#16) ||| BitVec.ofNat 16 v <<< 10 =
        (d.raw1 &&& 0x03ff#16) ||| BitVec.ofNat 16 v <<< 10 := by
      apply BitVec.eq_of_getLsbD_eq
      intro i hi
      simp only [BitVec.getLsbD_or, BitVec.getLsbD_and, BitVec.getLsbD_shiftLeft]
      by_cases h15 : i = 15
      case pos =>
        subst h15
        cases hbit
        case inl hb => rw [hb, Bool.false_and, Bool.false_and]
        case inr hb => rw [hb]; simp
      case neg =>
        have hmask : (0x83ff#16).getLsbD i = (0x03ff#16).getLsbD i := by
          interval_cases i <;> first | rfl | exact absurd rfl h15
        rw [hmask]
    rw [hset, hword, BitVec.setField_ofNat (by decide) hv]

theorem sets_next (hv : v < 2 ^ 16) : d.Sets .next v where
  self  := Nat.mod_eq_of_lt hv
  other := fun f hf => by cases f <;> first | rfl | exact absurd rfl hf

-- The fields of the third word.
theorem sets_spot {s w : Nat} (hs : f.spot = some (s, w)) (hv : v < 2 ^ w)
    (h : d.set f v = { d with raw2 := setField s d.raw2 (.ofNat w v) }) : d.Sets f v := by
  constructor
  case self =>
    have hle : s + w ≤ 16 := by cases f <;> cases hs <;> decide
    rw [h, get_spot hs]
    exact BitVec.toNat_field_setField hle hv
  case other =>
    intro f' hne
    rw [h]
    cases hs' : f'.spot
    case none => exact get_of_spot hs' _
    case some p =>
      have ⟨hle, hd⟩ := spot_disjoint hs hs' hne
      have hbit : field p.1 p.2 (setField s d.raw2 (BitVec.ofNat w v)) = field p.1 p.2 d.raw2 :=
        BitVec.field_setField_of_disjoint hle hd
      rw [get_spot hs', get_spot hs']
      simp only [hbit]

theorem sets_tag (hv : v < 2 ^ 12) : d.Sets .tag v := by
  refine sets_spot rfl hv ?_
  have hm : BitVec.ofNat 16 v &&& (0xfff : BitVec 16) = .ofNat 16 v := by
    have hmask : (0xfff : BitVec 16).toNat = 2 ^ 12 - 1 := rfl
    apply BitVec.eq_of_toNat_eq
    rw [BitVec.toNat_and, BitVec.toNat_ofNat, hmask, Nat.and_two_pow_sub_one_eq_mod]
    omega
  rw [set, setTag, hm, ← BitVec.setField_ofNat (m := 0xf000) (by decide) hv, BitVec.shiftLeft_zero]

theorem sets_flag {s : Nat} (hs : f.spot = some (s, 1))
    (h : d.set f 1 = { d with raw2 := d.raw2 ||| 1#16 <<< s }) : d.Sets f 1 :=
  sets_spot hs (by decide) (h.trans (by rw [BitVec.or_one_shiftLeft]))

theorem sets_cleared {s : Nat} (hs : f.spot = some (s, 1))
    (h : d.set f 0 = { d with raw2 := d.raw2 &&& ~~~(1#16 <<< s) }) : d.Sets f 0 :=
  sets_spot hs (by decide) (h.trans (by rw [BitVec.and_not_one_shiftLeft]))

-- A setter that keeps its flag and clears the others works if there is nothing to clear.
theorem sets_kept {s : Nat} (hs : f.spot = some (s, 1))
    (h : d.set f 0 = { d with raw2 := d.raw2 &&& 1#16 <<< s }) : d.Sets f 0 ↔ d.prev = 0 := by
  constructor
  case mp =>
    intro hsets
    -- The flag was not set, so that nothing is left of the word.
    have hflag : field s 1 (d.raw2 &&& 1#16 <<< s) = field s 1 d.raw2 := by
      apply BitVec.eq_of_getLsbD_eq
      intro i hi
      have hlt : s + i < 16 := by cases f <;> cases hs <;> omega
      have hi : s + i = s := by omega
      rw [BitVec.getLsbD_field, BitVec.getLsbD_field, BitVec.getLsbD_and,
        BitVec.getLsbD_one_shiftLeft hlt, decide_eq_true hi, Bool.and_true]
    have hzero : d.get f = 0 := by
      have hself := hsets.self
      rw [h, get_spot hs] at hself
      rw [get_spot hs, ← hflag]
      exact hself
    have he : d.set f 0 = d := by
      apply ext_get
      intro f'
      by_cases hf : f' = f
      case pos => rw [hf, hsets.self, hzero]
      case neg => exact hsets.other f' hf
    have hw : d.raw2 &&& 1#16 <<< s = d.raw2 := congrArg raw2 (h.symm.trans he)
    apply BitVec.eq_of_getLsbD_eq
    intro i hi
    rw [get_spot hs] at hzero
    have hbit : d.raw2.getLsbD s = false := by
      have : (field s 1 d.raw2).getLsbD 0 = false := by
        rw [BitVec.eq_of_toNat_eq (y := 0#1) hzero]
        rfl
      rwa [BitVec.getLsbD_field] at this
    have hbits := congrArg (·.getLsbD i) hw
    simp only [BitVec.getLsbD_and, BitVec.getLsbD_one_shiftLeft hi] at hbits
    by_cases his : i = s
    case pos => simpa [prev, his] using hbit
    case neg => simpa [prev, his] using hbits.symm
  case mpr =>
    intro hp
    have hp : d.raw2 = 0 := hp
    have he : d.set f 0 = d := by rw [h, hp]; ext1 <;> simp [hp]
    refine ⟨?_, fun f' _ => by rw [he]⟩
    rw [he, get_spot hs, hp]
    cases f <;> cases hs <;> rfl

-- Every setter but three can be used at any time.
theorem sets_iff (hv : v < 2 ^ f.width) : d.Sets f v ↔ d.Clears f v := by
  have flag (hv : v < 2 ^ 1) : v = 0 ∨ v = 1 := by omega
  cases f
  case offset => exact iff_of_true (sets_offset hv) trivial
  case bigInternal => exact iff_of_true (sets_bigInternal hv) trivial
  case sizeInternal => exact sets_sizeInternal hv
  case tag => exact iff_of_true (sets_tag hv) trivial
  case next => exact iff_of_true (sets_next hv) trivial
  all_goals obtain rfl | rfl := flag hv
  case phase.inl => exact iff_of_true (sets_cleared rfl rfl) trivial
  case phase.inr => exact iff_of_true (sets_flag rfl rfl) trivial
  case token.inl => exact iff_of_true (sets_cleared rfl rfl) trivial
  case token.inr => exact iff_of_true (sets_flag rfl rfl) trivial
  case head.inl => exact (sets_kept rfl rfl).trans (by simp [Clears])
  case head.inr => exact iff_of_true (sets_flag rfl rfl) (.inl rfl)
  case pinned.inl => exact (sets_kept rfl rfl).trans (by simp [Clears])
  case pinned.inr => exact iff_of_true (sets_flag rfl rfl) (.inl rfl)

end Setters

section Orders

variable {values values' : List (Field × Nat)}

theorem get_setAll (hf : Fit values) (hc : d.ClearsAll values) :
    (∀ a ∈ values, (d.setAll values).get a.1 = a.2) ∧
    ∀ f ∉ values.map Prod.fst, (d.setAll values).get f = d.get f := by
  induction values generalizing d
  case nil => exact ⟨nofun, fun _ _ => rfl⟩
  case cons a values hi =>
    have ⟨hv, hlt⟩ := List.forall_mem_cons.mp hf.lt
    have ⟨hna, hn⟩ := List.nodup_cons.mp hf.nodup
    have hs := (sets_iff hv).mpr hc.1
    have ⟨h₁, h₂⟩ := hi ⟨hn, hlt⟩ hc.2
    constructor
    case left =>
      intro b hb
      cases hb
      case head => exact (h₂ a.1 hna).trans hs.self
      case tail hb => exact h₁ b hb
    case right =>
      intro f hm
      have ⟨hne, hm⟩ : f ≠ a.1 ∧ f ∉ values.map Prod.fst := by simpa using hm
      exact (h₂ f hm).trans (hs.other f hne)

theorem setAll_perm (hf : Fit values) (hp : values'.Perm values) (hc : d.ClearsAll values)
    (hc' : d.ClearsAll values') : d.setAll values' = d.setAll values := by
  have hf' : Fit values' :=
    ⟨(hp.map _).nodup_iff.mpr hf.nodup, fun a ha => hf.lt a (hp.mem_iff.mp ha)⟩
  have ⟨h₁, h₂⟩ := get_setAll hf hc
  have ⟨h₁', h₂'⟩ := get_setAll hf' hc'
  apply ext_get
  intro f
  by_cases hm : f ∈ values.map Prod.fst
  case pos =>
    have ⟨a, ha, he⟩ := List.mem_map.mp hm
    rw [← he, h₁ a ha, h₁' a (hp.mem_iff.mpr ha)]
  case neg => rw [h₂ f hm, h₂' f fun hm' => hm ((hp.map _).mem_iff.mp hm')]

-- Every setter writes its field and nothing else, except for those that do not clear what they should.
-- Where this does not matter, the order of the setters does not matter either.
theorem fields_independent (d : Dir) :
    (∀ f v, v < 2 ^ f.width → (d.Sets f v ↔ d.Clears f v)) ∧
    ∀ values, Fit values → d.ClearsAll values →
      (∀ a ∈ values, (d.setAll values).get a.1 = a.2) ∧
      (∀ f ∉ values.map Prod.fst, (d.setAll values).get f = d.get f) ∧
      ∀ values', values'.Perm values → d.ClearsAll values' → d.setAll values' = d.setAll values := by
  refine ⟨fun f v hv => sets_iff hv, fun values hf hc => ?_⟩
  have ⟨h₁, h₂⟩ := get_setAll hf hc
  exact ⟨h₁, h₂, fun values' hp hc' => setAll_perm hf hp hc hc'⟩

-- The values of an entry that is not empty are changed in another order.
theorem fields_independent_sample :
    let d : Dir := { raw1 := 0x1234, raw2 := 0x5678 }
    let values : List (Field × Nat) := [(.head, 1), (.tag, 7), (.sizeInternal, 40), (.offset, 2 ^ 39)]
    (d.setAll values).get .sizeInternal = 40 ∧ d.setAll values.reverse = d.setAll values := by
  intro d values
  have hf : Fit values := ⟨by decide, by decide⟩
  have hc : d.ClearsAll values := ⟨.inl rfl, trivial, .inr (by decide), trivial, trivial⟩
  have hc' : d.ClearsAll values.reverse := ⟨trivial, .inr (by decide), trivial, .inl rfl, trivial⟩
  have ⟨h₁, _, h₃⟩ := (fields_independent d).2 values hf hc
  exact ⟨h₁ (.sizeInternal, 40) (by decide), h₃ _ (List.reverse_perm _) hc'⟩

-- The head flag cannot be cleared, the attempt clears the tag, and the size 0 is read back as 32.
theorem fields_dependent :
    let d : Dir := { raw1 := 0x8000, raw2 := 0x2007 }
    (d.setHead false).head = true ∧ d.tag = 7 ∧ (d.setHead false).tag = 0 ∧
    (d.setPinned false).tag = 0 ∧ (d.setSizeInternal 0).sizeInternal = 32 := by
  decide

end Orders

end Bakemono.Dir
