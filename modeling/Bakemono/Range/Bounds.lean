import Bakemono.Lib.Strings
import Bakemono.Range.Exact

namespace Bakemono

open Bytes (isDigit ofDecimal)

-- A single byte range, whose numbers may be of any size.
inductive ByteRange
  | closed (first last : Nat)
  | onwards (first : Nat)
  | suffix (length : Nat)

def Digits (l : Bytes) : Prop := l ≠ [] ∧ ∀ c ∈ l, isDigit c = true

instance : DecidablePred Digits := fun _ => inferInstanceAs (Decidable (_ ∧ _))

namespace ByteRange

-- The value of the field for a range.
inductive Spells : ByteRange → Bytes → Prop
  | closed (left right : Bytes) :
    (Digits left) → (Digits right) →
    Spells (.closed (ofDecimal left) (ofDecimal right)) (.text "bytes=" ++ (left ++ 45 :: right))
  | onwards (left : Bytes) :
    (Digits left) → Spells (.onwards (ofDecimal left)) (.text "bytes=" ++ (left ++ [45]))
  | suffix (right : Bytes) :
    (Digits right) → Spells (.suffix (ofDecimal right)) (.text "bytes=" ++ 45 :: right)

-- The part of a representation of the given size, if there is one.
def resolve (total : Nat) : ByteRange → Option (Nat × Nat)
  | .closed first last => if first ≤ last ∧ first < total then some (first, min last (total - 1)) else none
  | .onwards first     => if first < total then some (first, total - 1) else none
  | .suffix length     => if 0 < length ∧ 0 < total then some (total - length, total - 1) else none

-- The last number of a range that can be satisfied is one of the integers of the source.
def Parses (total : Nat) : ByteRange → Prop
  | .closed first last => last < 2 ^ 63 ∨ total ≤ first
  | .onwards _         => True
  | .suffix length     => length < 2 ^ 63 ∨ total = 0

end ByteRange

variable {l left right value : Bytes} {n total : Nat} {p : Nat × Nat} {r : ByteRange}

theorem decimalValue_eq_ok :
    decimalValue l = .ok n ↔ Digits l ∧ ofDecimal l = n ∧ ofDecimal l < 2 ^ 63 := by
  have hd : (l = [] ∨ l.any (fun c => c < 48 || 57 < c) = true) ↔ ¬Digits l := by
    rw [Digits, not_and_or, not_not]
    simp [isDigit, List.any_eq_true, imp_iff_not_or]
  unfold decimalValue
  split
  case isTrue h => simp [hd.mp h]
  case isFalse h =>
    have h := not_not.mp (mt hd.mpr h)
    have hn : l.foldl (fun n c => 10 * n + (c.toNat - 48)) 0 = ofDecimal l := rfl
    simp only [hn]
    split
    case isTrue hlt =>
      rw [Except.ok.injEq]
      exact ⟨fun hn => ⟨h, hn, hlt⟩, fun hn => hn.2.1⟩
    case isFalse hlt => exact ⟨nofun, fun hn => absurd hn.2.2 hlt⟩

theorem boundsOf_nil_eq_ok : boundsOf [] right total = .ok p ↔
    Digits right ∧ ofDecimal right < 2 ^ 63 ∧ 0 < ofDecimal right ∧ 0 < total ∧
      p = (total - ofDecimal right, total - 1) := by
  simp only [boundsOf, if_pos, Except.bind_eq_ok, Except.check_bind_eq_ok, decimalValue_eq_ok]
  constructor
  case mp =>
    rintro ⟨suffix, ⟨hd, rfl, hlt⟩, hs, h⟩
    exact ⟨hd, hlt, by omega, by omega, (Except.ok.inj h).symm⟩
  case mpr =>
    rintro ⟨hd, hlt, h₀, ht, rfl⟩
    exact ⟨_, ⟨hd, rfl, hlt⟩, by omega, rfl⟩

theorem boundsOf_eq_ok (hl : left ≠ []) : boundsOf left right total = .ok p ↔
    Digits left ∧ ofDecimal left < 2 ^ 63 ∧ ofDecimal left < total ∧
      (right = [] ∧ p = (ofDecimal left, total - 1) ∨
        Digits right ∧ ofDecimal right < 2 ^ 63 ∧ ofDecimal left ≤ ofDecimal right ∧
          p = (ofDecimal left, min (ofDecimal right) (total - 1))) := by
  simp only [boundsOf, if_neg hl, Except.bind_eq_ok, Except.check_bind_eq_ok, decimalValue_eq_ok]
  by_cases hr : right = []
  case pos =>
    simp only [if_pos hr]
    constructor
    case mp =>
      rintro ⟨start, ⟨hd, rfl, hlt⟩, hs, h⟩
      exact ⟨hd, hlt, by omega, .inl ⟨hr, (Except.ok.inj h).symm⟩⟩
    case mpr =>
      rintro ⟨hd, hlt, ht, ⟨-, rfl⟩ | ⟨⟨hr', -⟩, -⟩⟩
      case inl => exact ⟨_, ⟨hd, rfl, hlt⟩, by omega, rfl⟩
      case inr => exact absurd hr hr'
  case neg =>
    simp only [if_neg hr, Except.bind_eq_ok, Except.check_bind_eq_ok, decimalValue_eq_ok]
    constructor
    case mp =>
      rintro ⟨start, ⟨hd, rfl, hlt⟩, hs, stop, ⟨hd', rfl, hlt'⟩, hs', h⟩
      exact ⟨hd, hlt, by omega, .inr ⟨hd', hlt', by omega, (Except.ok.inj h).symm⟩⟩
    case mpr =>
      rintro ⟨hd, hlt, ht, ⟨hr', -⟩ | ⟨hd', hlt', hs, rfl⟩⟩
      case inl => exact absurd hr' hr
      case inr => exact ⟨_, ⟨hd, rfl, hlt⟩, by omega, _, ⟨hd', rfl, hlt'⟩, by omega, rfl⟩

theorem Digits.notMem (h : Digits l) : 45 ∉ l := fun hm => absurd (h.2 _ hm) (by decide)

theorem trimPrefix_bytes : Bytes.trimPrefix (.text "bytes=") (.text "bytes=" ++ l) = l := by
  rw [Bytes.trimPrefix, if_pos (by simp), List.drop_left]

theorem rangeBounds_append (h : 45 ∉ left) :
    rangeBounds (.text "bytes=" ++ (left ++ 45 :: right)) total = boundsOf left right total := by
  have ht : (left ++ 45 :: right).takeWhile (fun c : UInt8 => c ≠ 45) = left := by
    rw [List.takeWhile_append_of_pos (by aesop), List.takeWhile_cons_of_neg (by simp), List.append_nil]
  have hd : (left ++ 45 :: right).dropWhile (fun c : UInt8 => c ≠ 45) = 45 :: right := by
    rw [List.dropWhile_append_of_pos (by aesop), List.dropWhile_cons_of_neg (by simp)]
  rw [rangeBounds, trimPrefix_bytes, ht, hd]
  simp

-- A field which names bytes and has no dash, or the two sides of its first one.
theorem rangeBounds_cases (total : Nat) (h : Bytes.text "bytes=" <+: value) :
    (rangeBounds value total = .error .bypass) ∨
    ∃ left right : Bytes, 45 ∉ left ∧ value = Bytes.text "bytes=" ++ (left ++ 45 :: right) := by
  obtain ⟨rest, he⟩ := h
  by_cases hm : (45 : UInt8) ∈ rest
  case neg =>
    refine .inl ?_
    rw [← he, rangeBounds, trimPrefix_bytes]
    simp [hm]
    rfl
  case pos =>
    obtain ⟨left, right, hr, hl⟩ := List.eq_append_cons_of_mem hm
    exact .inr ⟨left, right, hl, by rw [← he, hr]⟩

namespace ByteRange

-- The number which is read last.
def last : ByteRange → Nat
  | .closed _ last => last
  | .onwards _     => 0
  | .suffix length => length

-- The first number of a range that can be satisfied is below the size, so only the last one can be
-- too large to be read.
theorem Spells.eq_ok_iff (h : Spells r value) (ht : total < 2 ^ 63) :
    rangeBounds value total = .ok p ↔ r.resolve total = some p ∧ r.last < 2 ^ 63 := by
  cases h
  case closed left right hl hr =>
    rw [rangeBounds_append hl.notMem, boundsOf_eq_ok hl.1, resolve, last, Option.ite_none_right_eq_some,
      Option.some.injEq]
    constructor
    case mp =>
      rintro ⟨-, -, hlt, ⟨h, -⟩ | ⟨-, hb, hle, hp⟩⟩
      case inl => exact absurd h hr.1
      case inr => exact ⟨⟨⟨hle, hlt⟩, hp.symm⟩, hb⟩
    case mpr =>
      rintro ⟨⟨⟨hle, hlt⟩, hp⟩, hb⟩
      exact ⟨hl, by omega, hlt, .inr ⟨hr, hb, hle, hp.symm⟩⟩
  case onwards left hl =>
    rw [rangeBounds_append hl.notMem, boundsOf_eq_ok hl.1, resolve, last, Option.ite_none_right_eq_some,
      Option.some.injEq]
    constructor
    case mp =>
      rintro ⟨-, -, hlt, ⟨-, hp⟩ | ⟨⟨h, -⟩, -⟩⟩
      case inl => exact ⟨⟨hlt, hp.symm⟩, by omega⟩
      case inr => exact absurd rfl h
    case mpr =>
      rintro ⟨⟨hlt, hp⟩, -⟩
      exact ⟨hl, by omega, hlt, .inl ⟨rfl, hp.symm⟩⟩
  case suffix right hr =>
    have he : rangeBounds (.text "bytes=" ++ 45 :: right) total = boundsOf [] right total :=
      rangeBounds_append (List.not_mem_nil)
    rw [he, boundsOf_nil_eq_ok, resolve, last, Option.ite_none_right_eq_some, Option.some.injEq]
    constructor
    case mp =>
      rintro ⟨-, hb, hn, h₀, hp⟩
      exact ⟨⟨⟨hn, h₀⟩, hp.symm⟩, hb⟩
    case mpr =>
      rintro ⟨⟨⟨hn, h₀⟩, hp⟩, hb⟩
      exact ⟨hr, hb, hn, h₀, hp.symm⟩

theorem parses_iff (ht : total < 2 ^ 63) :
    r.Parses total ↔ r.resolve total = none ∨ r.last < 2 ^ 63 := by
  cases r
  case closed first last =>
    simp only [Parses, resolve, ByteRange.last, ite_eq_right_iff, reduceCtorEq, imp_false]
    omega
  case onwards => simp [Parses, last]
  case suffix length =>
    simp only [Parses, resolve, last, ite_eq_right_iff, reduceCtorEq, imp_false]
    omega

theorem Spells.toOption_eq_iff (h : Spells r value) (ht : total < 2 ^ 63) :
    (rangeBounds value total).toOption = r.resolve total ↔ r.Parses total := by
  rw [parses_iff ht]
  cases hb : rangeBounds value total
  case error =>
    have hn p (hr : r.resolve total = some p) : ¬r.last < 2 ^ 63 := fun hl => by
      rw [(h.eq_ok_iff ht).mpr ⟨hr, hl⟩] at hb
      cases hb
    cases hr : r.resolve total
    case none   => simp [Except.toOption]
    case some p => exact iff_of_false nofun fun ho => ho.elim nofun (hn p hr)
  case ok p =>
    have ⟨hr, hl⟩ := (h.eq_ok_iff ht).mp hb
    exact iff_of_true hr.symm (.inr hl)

-- What is read is a range.
theorem spells_of_eq_ok (h : Bytes.text "bytes=" <+: value) (hb : rangeBounds value total = .ok p) :
    ∃ r, Spells r value := by
  cases rangeBounds_cases total h
  case inl he => simp [he] at hb
  case inr hs =>
    have ⟨left, right, hl, he⟩ := hs
    rw [he, rangeBounds_append hl] at hb
    subst he
    by_cases hn : left = []
    case pos =>
      subst hn
      exact ⟨_, .suffix _ (boundsOf_nil_eq_ok.mp hb).1⟩
    case neg =>
      have ⟨hd, _, _, hr⟩ := (boundsOf_eq_ok hn).mp hb
      cases hr
      case inl hr =>
        cases hr.1
        exact ⟨_, .onwards _ hd⟩
      case inr hr => exact ⟨_, .closed _ _ hd hr.1⟩

end ByteRange

-- A range is resolved unless its last number matters and is too large to be read. No other field is.
theorem rangeBounds_resolves (ht : total < 2 ^ 63) :
    (∀ r value, ByteRange.Spells r value →
      ((rangeBounds value total).toOption = r.resolve total ↔ r.Parses total)) ∧
    (∀ value, Bytes.text "bytes=" <+: value → (¬∃ r, ByteRange.Spells r value) →
      ∃ e, rangeBounds value total = .error e) ∧
    ∀ value start stop, rangeBounds value total = .ok (start, stop) → start ≤ stop ∧ stop < total := by
  refine ⟨fun r value h => h.toOption_eq_iff ht, fun value hv hn => ?_, fun value start stop h => ?_⟩
  case refine_1 =>
    cases hb : rangeBounds value total
    case error e => exact ⟨e, rfl⟩
    case ok      => exact absurd (ByteRange.spells_of_eq_ok hv hb) hn
  case refine_2 =>
    rw [rangeBounds, Except.check_bind_eq_ok] at h
    exact boundsOf_valid h.2

theorem rangeBounds_resolves_ten :
    (rangeBounds (.text "bytes=2-40") 10).toOption = (ByteRange.closed 2 40).resolve 10 :=
  ((rangeBounds_resolves (by decide)).1 _ _ (.closed [50] [52, 48] (by decide +kernel) (by decide +kernel))).mpr
    (.inl (by decide))

-- The range from the first byte to one far behind the end.
theorem rangeBounds_unresolved :
    ByteRange.Spells (.closed 0 (2 ^ 63)) (.text "bytes=0-9223372036854775808") ∧
    (ByteRange.closed 0 (2 ^ 63)).resolve 10 = some (0, 9) ∧
    rangeBounds (.text "bytes=0-9223372036854775808") 10 = .error .bypass :=
  ⟨.closed [48] (.text "9223372036854775808") (by decide +kernel) (by decide +kernel), rfl, rfl⟩

end Bakemono
