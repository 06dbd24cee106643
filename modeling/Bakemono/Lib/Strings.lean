import Bakemono.Lib.Text

-- Functions on texts in UTF-8 that are given as bytes.

namespace Bytes

-- The white space of Unicode.
def spaces : List Bytes :=
  [[9], [10], [11], [12], [13], [32], [0xC2, 0x85], [0xC2, 0xA0], [0xE1, 0x9A, 0x80]] ++
  ([0x80, 0x81, 0x82, 0x83, 0x84, 0x85, 0x86, 0x87, 0x88, 0x89, 0x8A, 0xA8, 0xA9, 0xAF].map
    fun b => [0xE2, 0x80, b]) ++
  [[0xE2, 0x81, 0x9F], [0xE3, 0x80, 0x80]]

-- Removes the given words from the beginning of a text, as often as the number says.
def strip (ws : List Bytes) : Nat → Bytes → Bytes
  | 0,     l => l
  | n + 1, l =>
    match ws.find? (·.isPrefixOf l) with
    | none   => l
    | some w => strip ws n (l.drop w.length)

def trimLeft (l : Bytes) : Bytes := strip spaces l.length l

def trimRight (l : Bytes) : Bytes := (strip (spaces.map List.reverse) l.length l.reverse).reverse

def trimSpace (l : Bytes) : Bytes := trimRight (trimLeft l)

def lower (c : UInt8) : UInt8 := if 65 ≤ c ∧ c ≤ 90 then c + 32 else c

-- Replaces letters beyond ASCII.
def substitute (letters : List (Bytes × UInt8)) : Nat → Bytes → Bytes
  | 0,     l => l
  | n + 1, l =>
    match letters.find? (·.1.isPrefixOf l) with
    | some (w, c) => c :: substitute letters n (l.drop w.length)
    | none        => l.take 1 ++ substitute letters n (l.drop 1)

-- The Kelvin sign and the capital I with a dot have ASCII letters as their lower case. The lower case
-- of the other letters beyond ASCII is beyond ASCII, too; they are left as they are.
def toLower (l : Bytes) : Bytes :=
  substitute [([0xE2, 0x84, 0xAA], 107), ([0xC4, 0xB0], 105)] l.length (l.map lower)

-- Equality up to the case of letters, where the second text is ASCII. The Kelvin sign is a K and the
-- long s an S.
def equalFold (l m : Bytes) : Bool :=
  substitute [([0xE2, 0x84, 0xAA], 107), ([0xC5, 0xBF], 115)] l.length (l.map lower) == m.map lower

-- The text before and after the first occurrence of a byte.
def cut (c : UInt8) (l : Bytes) : Bytes × Bytes × Bool :=
  match l.dropWhile (· != c) with
  | []     => (l, [], false)
  | _ :: y => (l.takeWhile (· != c), y, true)

def isDigit (c : UInt8) : Bool := 48 ≤ c && c ≤ 57

def ofDecimal (l : Bytes) : Nat := l.foldl (fun n c => 10 * n + (c.toNat - 48)) 0

section Strip

variable {ws : List Bytes} {n m : Nat} {l x y w : Bytes} {c : UInt8}

theorem strip_eq_self (h : ∀ w ∈ ws, ¬w <+: l) : strip ws n l = l := by
  cases n
  case zero => rfl
  case succ n =>
    have hf : ws.find? (·.isPrefixOf l) = none :=
      List.find?_eq_none.mpr fun w hw => by simpa using h w hw
    rw [strip, hf]

-- A word is found, or there is none.
theorem strip_cases (ws : List Bytes) (l : Bytes) :
    (∀ n, strip ws n l = l) ∧ (∀ w ∈ ws, ¬w <+: l) ∨
    ∃ w ∈ ws, w <+: l ∧ ∀ n, strip ws (n + 1) l = strip ws n (l.drop w.length) := by
  cases hf : ws.find? (·.isPrefixOf l)
  case none =>
    have h : ∀ w ∈ ws, ¬w <+: l := by simpa using List.find?_eq_none.mp hf
    exact .inl ⟨fun _ => strip_eq_self h, h⟩
  case some w =>
    refine .inr ⟨w, List.mem_of_find?_eq_some hf, ?_, fun n => by rw [strip, hf]⟩
    simpa using List.find?_some hf

theorem length_drop_lt (hw : w ≠ []) (hp : w <+: l) : (l.drop w.length).length < l.length := by
  have := hp.length_le
  have := List.length_pos_iff.mpr hw
  rw [List.length_drop]
  omega

theorem strip_nil (hne : ∀ w ∈ ws, w ≠ []) : strip ws n [] = [] :=
  strip_eq_self fun w hw hp => hne w hw (List.prefix_nil.mp hp)

theorem strip_fuel (hne : ∀ w ∈ ws, w ≠ []) (hn : l.length ≤ n) (hm : l.length ≤ m) :
    strip ws n l = strip ws m l := by
  induction n generalizing l m
  case zero =>
    cases List.length_eq_zero_iff.mp (Nat.le_zero.mp hn)
    rw [strip_nil hne, strip_nil hne]
  case succ n hi =>
    obtain ⟨hs, _⟩ | ⟨w, hw, hp, hs⟩ := strip_cases ws l
    case inl => rw [hs, hs]
    case inr =>
      have := length_drop_lt (hne w hw) hp
      cases m
      case zero => omega
      case succ m =>
        rw [hs, hs]
        exact hi (by omega) (by omega)

theorem not_prefix_strip (hne : ∀ w ∈ ws, w ≠ []) (hn : l.length ≤ n) :
    ∀ w ∈ ws, ¬w <+: strip ws n l := by
  induction n generalizing l
  case zero =>
    cases List.length_eq_zero_iff.mp (Nat.le_zero.mp hn)
    exact fun w hw hp => hne w hw (List.prefix_nil.mp hp)
  case succ n hi =>
    obtain ⟨hs, hp⟩ | ⟨w, hw, hp, hs⟩ := strip_cases ws l
    case inl => rwa [hs]
    case inr =>
      have := length_drop_lt (hne w hw) hp
      rw [hs]
      exact hi (by omega)

theorem strip_suffix : strip ws n l <:+ l := by
  induction n generalizing l
  case zero => exact List.suffix_refl _
  case succ n hi =>
    obtain ⟨hs, _⟩ | ⟨w, _, _, hs⟩ := strip_cases ws l
    case inl => rw [hs]
    case inr =>
      rw [hs]
      exact hi.trans (List.drop_suffix ..)

theorem find?_isPrefixOf_congr (h : ∀ w ∈ ws, w <+: x ↔ w <+: y) :
    ws.find? (·.isPrefixOf x) = ws.find? (·.isPrefixOf y) := by
  apply List.find?_congr
  intro w hw
  rw [Bool.eq_iff_iff, List.isPrefixOf_iff_prefix, List.isPrefixOf_iff_prefix]
  exact h w hw

-- Stripping does not depend on bytes that cannot be told apart by the words.
theorem strip_map {f : UInt8 → UInt8} (hf : ∀ w ∈ ws, ∀ l, w <+: l.map f ↔ w <+: l) :
    strip ws n (l.map f) = (strip ws n l).map f := by
  induction n generalizing l
  case zero => rfl
  case succ n hi =>
    rw [strip, strip, find?_isPrefixOf_congr fun w hw => hf w hw l]
    cases ws.find? (·.isPrefixOf l)
    case none => rfl
    case some w => simp only [← List.map_drop, hi]

-- One step at the beginning of a longer text, where no word goes beyond the shorter one.
theorem strip_succ_append (h : ∀ w ∈ ws, w <+: x ++ y ↔ w <+: x) :
    strip ws (n + 1) (x ++ y) = x ++ y ∧ strip ws (n + 1) x = x ∨
    ∃ w ∈ ws, w <+: x ∧ strip ws (n + 1) (x ++ y) = strip ws n (x.drop w.length ++ y) ∧
      strip ws (n + 1) x = strip ws n (x.drop w.length) := by
  rw [strip, strip, find?_isPrefixOf_congr h]
  cases hs : ws.find? (·.isPrefixOf x)
  case none => exact .inl ⟨rfl, rfl⟩
  case some w =>
    have hp : w <+: x := by simpa using List.find?_some hs
    refine .inr ⟨w, List.mem_of_find?_eq_some hs, hp, ?_, rfl⟩
    simp only [List.drop_append_of_le_length hp.length_le]

-- The words end in front of a byte that none of them has.
theorem strip_append_cons (hc : ∀ w ∈ ws, c ∉ w) :
    strip ws n (x ++ c :: y) = strip ws n x ++ c :: y := by
  have hp {x} : ∀ w ∈ ws, w <+: x ++ c :: y ↔ w <+: x := by
    intro w hw
    constructor
    case mp =>
      intro h
      obtain hx | ⟨z, hz⟩ := List.prefix_or_prefix_of_prefix h (List.prefix_append x (c :: y))
      case inl => exact hx
      case inr =>
        subst hz
        have h := (List.prefix_append_right_inj x).mp h
        cases z
        case nil => simp
        case cons d z =>
          have hd := (List.cons_prefix_cons.mp h).1
          exact absurd (by simp [hd]) (hc _ hw)
    case mpr => exact fun h => h.trans (List.prefix_append ..)
  induction n generalizing x
  case zero => rfl
  case succ n hi =>
    obtain ⟨h₁, h₂⟩ | ⟨w, _, _, h₁, h₂⟩ := strip_succ_append (n := n) (hp (x := x))
    case inl => rw [h₁, h₂]
    case inr => rw [h₁, h₂, hi]

-- A byte that is a word, and is in no other one.
def Blank (ws : List Bytes) (c : UInt8) : Prop := [c] ∈ ws ∧ ∀ w ∈ ws, c ∈ w → w = [c]

theorem Blank.strip_cons (hb : Blank ws c) (hne : ∀ w ∈ ws, w ≠ []) :
    strip ws (n + 1) (c :: l) = strip ws n l := by
  obtain ⟨_, hs⟩ | ⟨w, hw, hp, hs⟩ := strip_cases ws (c :: l)
  case inl => exact absurd (by simp) (hs [c] hb.1)
  case inr =>
    have hc : c ∈ w := by
      cases w
      case nil => exact absurd rfl (hne _ hw)
      case cons d w => simp [(List.cons_prefix_cons.mp hp).1]
    rw [hs, hb.2 w hw hc]
    rfl

theorem Blank.strip_append (hb : Blank ws c) (hne : ∀ w ∈ ws, w ≠ []) (hn : l.length < n) :
    strip ws n (l ++ [c]) = if strip ws n l = [] then [] else strip ws n l ++ [c] := by
  induction n generalizing l
  case zero => omega
  case succ n hi =>
    by_cases hl : l = []
    case pos => rw [hl, List.nil_append, hb.strip_cons hne, strip_nil hne, strip_nil hne, if_pos rfl]
    case neg =>
      have hp : ∀ w ∈ ws, w <+: l ++ [c] ↔ w <+: l := by
        intro w hw
        constructor
        case mp =>
          intro hp
          -- The last byte is a word of its own.
          obtain he | hp := List.prefix_concat_iff.mp hp
          case inl =>
            have hw' := hb.2 w hw (by simp [he])
            rw [he, List.append_eq_singleton_iff] at hw'
            simp [hl] at hw'
          case inr => exact hp
        case mpr => exact fun h => h.trans (List.prefix_append ..)
      obtain ⟨h₁, h₂⟩ | ⟨w, hw, hp, h₁, h₂⟩ := strip_succ_append (n := n) hp
      case inl => rw [h₁, h₂, if_neg hl]
      case inr =>
        have := length_drop_lt (hne w hw) hp
        rw [h₁, h₂, hi (by omega)]

end Strip

section Trim

variable {l x y : Bytes} {c : UInt8}

theorem spaces_ne_nil : ∀ w ∈ spaces, w ≠ [] := by decide

theorem reverse_spaces_ne_nil : ∀ w ∈ spaces.map List.reverse, w ≠ [] := by decide

-- The white space of ASCII.
def blanks : Bytes := [9, 10, 11, 12, 13, 32]

theorem blank_of_mem_blanks : ∀ c ∈ blanks, Blank spaces c ∧ Blank (spaces.map List.reverse) c := by
  unfold Blank
  decide +kernel

theorem trimLeft_cons (hc : c ∈ blanks) : trimLeft (c :: l) = trimLeft l :=
  (blank_of_mem_blanks c hc).1.strip_cons spaces_ne_nil

theorem trimLeft_concat (hc : c ∈ blanks) :
    trimLeft (l ++ [c]) = if trimLeft l = [] then [] else trimLeft l ++ [c] := by
  have hf : strip spaces (l.length + 1) l = trimLeft l :=
    strip_fuel spaces_ne_nil (Nat.le_succ _) le_rfl
  have h := (blank_of_mem_blanks c hc).1.strip_append spaces_ne_nil (Nat.lt_succ_self l.length)
  rw [hf] at h
  rw [trimLeft, List.length_append, List.length_singleton, h]

theorem trimRight_concat (hc : c ∈ blanks) : trimRight (l ++ [c]) = trimRight l := by
  have h := (blank_of_mem_blanks c hc).2.strip_cons (n := l.length) (l := l.reverse)
    reverse_spaces_ne_nil
  rw [trimRight, List.length_append, List.length_singleton, List.reverse_append, List.reverse_singleton,
    List.singleton_append, h, trimRight]

theorem trimRight_cons (hc : c ∈ blanks) :
    trimRight (c :: l) = if trimRight l = [] then [] else c :: trimRight l := by
  have hf : strip (spaces.map List.reverse) (l.length + 1) l.reverse = (trimRight l).reverse := by
    rw [trimRight, List.reverse_reverse]
    exact strip_fuel reverse_spaces_ne_nil (by simp) (by simp)
  have h := (blank_of_mem_blanks c hc).2.strip_append (n := l.length + 1) (l := l.reverse)
    reverse_spaces_ne_nil (by simp)
  rw [hf] at h
  rw [trimRight, List.length_cons, List.reverse_cons, h]
  split
  case isTrue he => rw [if_pos (List.reverse_eq_nil_iff.mp he), List.reverse_nil]
  case isFalse he =>
    rw [if_neg (mt List.reverse_eq_nil_iff.mpr he), List.reverse_append, List.reverse_reverse]
    rfl

theorem trimLeft_suffix : trimLeft l <:+ l := strip_suffix

theorem trimRight_prefix_self : trimRight l <+: l := by
  rw [← List.reverse_suffix, trimRight, List.reverse_reverse]
  exact strip_suffix

theorem trimSpace_subset : trimSpace l ⊆ l :=
  fun _ h => trimLeft_suffix.subset (trimRight_prefix_self.subset h)

-- What is left does not begin or end with white space.
theorem trimLeft_trimLeft : trimLeft (trimLeft l) = trimLeft l :=
  strip_eq_self (not_prefix_strip spaces_ne_nil le_rfl)

theorem trimRight_trimRight : trimRight (trimRight l) = trimRight l := by
  have h : strip (spaces.map List.reverse) (trimRight l).length (trimRight l).reverse =
      (trimRight l).reverse := by
    apply strip_eq_self
    rw [trimRight, List.reverse_reverse]
    exact not_prefix_strip reverse_spaces_ne_nil (by simp)
  rw [trimRight, h, List.reverse_reverse]

theorem trimSpace_trimLeft : trimSpace (trimLeft l) = trimSpace l := by
  rw [trimSpace, trimLeft_trimLeft, trimSpace]

theorem trimSpace_trimSpace : trimSpace (trimSpace l) = trimSpace l := by
  have h : trimLeft (trimSpace l) = trimSpace l := by
    apply strip_eq_self
    intro w hw hp
    exact not_prefix_strip spaces_ne_nil le_rfl w hw (hp.trans trimRight_prefix_self)
  rw [trimSpace, h, trimSpace, trimRight_trimRight]

-- Blanks around a text are removed.
theorem trimSpace_cons (hc : c ∈ blanks) : trimSpace (c :: l) = trimSpace l := by
  rw [trimSpace, trimLeft_cons hc, trimSpace]

theorem trimSpace_concat (hc : c ∈ blanks) : trimSpace (l ++ [c]) = trimSpace l := by
  rw [trimSpace, trimLeft_concat hc]
  split
  case isTrue h => rw [trimSpace, h]
  case isFalse => rw [trimRight_concat hc, trimSpace]

theorem trimSpace_trimRight_cons (hc : c ∈ blanks) :
    trimSpace (trimRight (c :: l)) = trimSpace (trimRight l) := by
  rw [trimRight_cons hc]
  split
  case isTrue h => rw [h]
  case isFalse => exact trimSpace_cons hc

theorem trimSpace_append (hx : ∀ c ∈ x, c ∈ blanks) : trimSpace (x ++ l) = trimSpace l := by
  induction x
  case nil => rfl
  case cons c x hi =>
    rw [List.cons_append, trimSpace_cons (hx c (.head _)), hi fun c hc => hx c (.tail _ hc)]

theorem trimSpace_append_right (hx : ∀ c ∈ x, c ∈ blanks) : trimSpace (l ++ x) = trimSpace l := by
  induction x using List.reverseRecOn
  case nil => rw [List.append_nil]
  case append_singleton x c hi =>
    rw [← List.append_assoc, trimSpace_concat (hx c (by simp)), hi fun c hc => hx c (by simp [hc])]

theorem trimRight_append_right (hx : ∀ c ∈ x, c ∈ blanks) : trimRight (l ++ x) = trimRight l := by
  induction x using List.reverseRecOn
  case nil => rw [List.append_nil]
  case append_singleton x c hi =>
    rw [← List.append_assoc, trimRight_concat (hx c (by simp)), hi fun c hc => hx c (by simp [hc])]

theorem trimSpace_trimRight_append (hx : ∀ c ∈ x, c ∈ blanks) :
    trimSpace (trimRight (x ++ l)) = trimSpace (trimRight l) := by
  induction x
  case nil => rfl
  case cons c x hi =>
    rw [List.cons_append, trimSpace_trimRight_cons (hx c (.head _)), hi fun c hc => hx c (.tail _ hc)]

-- The two sides of a byte that is not in any white space.
theorem trimLeft_append_cons (hc : ∀ w ∈ spaces, c ∉ w) :
    trimLeft (x ++ c :: y) = trimLeft x ++ c :: y := by
  rw [trimLeft, strip_append_cons hc, trimLeft, strip_fuel spaces_ne_nil (by simp) le_rfl]

theorem trimRight_append_cons (hc : ∀ w ∈ spaces, c ∉ w) :
    trimRight (x ++ c :: y) = x ++ c :: trimRight y := by
  have hc' : ∀ w ∈ spaces.map List.reverse, c ∉ w := by
    intro w hw
    have ⟨v, hv, he⟩ := List.mem_map.mp hw
    rw [← he, List.mem_reverse]
    exact hc v hv
  rw [trimRight, trimRight, List.reverse_append, List.reverse_cons, List.append_assoc,
    List.singleton_append, strip_append_cons hc',
    strip_fuel reverse_spaces_ne_nil (m := y.length) (by simp; omega) (by simp)]
  simp

theorem trimSpace_append_cons (hc : ∀ w ∈ spaces, c ∉ w) :
    trimSpace (x ++ c :: y) = trimLeft x ++ c :: trimRight y := by
  rw [trimSpace, trimLeft_append_cons hc, trimRight_append_cons hc]

-- What ends a text does not end with white space, if the text does not.
theorem trimRight_of_append (h : trimRight (x ++ y) = x ++ y) : trimRight y = y := by
  have hn := not_prefix_strip (l := (x ++ y).reverse) reverse_spaces_ne_nil le_rfl
  rw [List.length_reverse, ← List.reverse_reverse (strip ..), ← trimRight, h, List.reverse_append] at hn
  rw [trimRight, strip_eq_self fun w hw hp => hn w hw (hp.trans (List.prefix_append ..)),
    List.reverse_reverse]

-- A text of white space.
def Space (b : Bytes) : Prop := ∃ ws : List Bytes, (∀ w ∈ ws, w ∈ spaces) ∧ ws.flatten = b

theorem eq_of_prefix_spaces : ∀ w ∈ spaces, ∀ w' ∈ spaces, w <+: w' → w = w' := by decide

theorem trimLeft_append {w : Bytes} (hw : w ∈ spaces) : trimLeft (w ++ l) = trimLeft l := by
  obtain ⟨n, hn⟩ : ∃ n, (w ++ l).length = n + 1 := by
    refine ⟨_, (Nat.succ_pred ?_).symm⟩
    simp [spaces_ne_nil w hw]
  obtain ⟨_, hs⟩ | ⟨w', hw', hp, hs⟩ := strip_cases spaces (w ++ l)
  case inl => exact absurd (List.prefix_append ..) (hs w hw)
  case inr =>
    have he : w' = w := by
      obtain h | h := List.prefix_or_prefix_of_prefix hp (List.prefix_append w l)
      case inl => exact eq_of_prefix_spaces w' hw' w hw h
      case inr => exact (eq_of_prefix_spaces w hw w' hw' h).symm
    have := List.length_pos_iff.mpr (spaces_ne_nil w hw)
    rw [List.length_append] at hn
    rw [trimLeft, List.length_append, hn, hs, he, List.drop_left, trimLeft,
      strip_fuel spaces_ne_nil (by omega) le_rfl]

theorem Space.trimLeft_append {b : Bytes} (hb : Space b) : trimLeft (b ++ l) = trimLeft l := by
  have ⟨ws, hw, he⟩ := hb
  subst he
  clear hb
  induction ws
  case nil => rfl
  case cons w ws hi =>
    rw [List.flatten_cons, List.append_assoc, Bytes.trimLeft_append (hw w (.head _)),
      hi fun w h => hw w (.tail _ h)]

theorem Space.trimLeft_eq_nil {b : Bytes} (hb : Space b) : trimLeft b = [] := by
  have h := hb.trimLeft_append (l := [])
  rwa [List.append_nil] at h

theorem Space.eq_nil {b : Bytes} (hb : Space b) (h : trimRight b = b) : b = [] := by
  have hs : ∀ w ∈ spaces, trimRight w ≠ w := by decide
  have ⟨ws, hw, he⟩ := hb
  obtain rfl | ⟨ws, w, rfl⟩ := List.eq_nil_or_concat ws
  case inl => exact he.symm
  case inr =>
    rw [List.concat_eq_append, List.flatten_concat] at he
    subst he
    exact absurd (trimRight_of_append h) (hs w (hw w (by simp)))

theorem exists_space_strip (n : Nat) (l : Bytes) : ∃ b, Space b ∧ b ++ strip spaces n l = l := by
  induction n generalizing l
  case zero => exact ⟨[], ⟨[], by simp, rfl⟩, rfl⟩
  case succ n hi =>
    obtain ⟨hs, _⟩ | ⟨w, hw, hp, hs⟩ := strip_cases spaces l
    case inl => exact ⟨[], ⟨[], by simp, rfl⟩, by rw [hs, List.nil_append]⟩
    case inr =>
      have ⟨b, ⟨ws, hws, hf⟩, hb⟩ := hi (l.drop w.length)
      refine ⟨w ++ b, ⟨w :: ws, List.forall_mem_cons.mpr ⟨hw, hws⟩, by rw [List.flatten_cons, hf]⟩, ?_⟩
      rw [hs, List.append_assoc, hb]
      have ⟨t, ht⟩ := hp
      rw [← ht, List.drop_left]

theorem exists_space_trimLeft (l : Bytes) : ∃ b, Space b ∧ b ++ trimLeft l = l :=
  exists_space_strip l.length l

theorem exists_space_trimSpace (h : trimRight l = l) : ∃ b, Space b ∧ b ++ trimSpace l = l := by
  have ⟨b, hb, he⟩ := exists_space_trimLeft l
  have hr : trimRight (trimLeft l) = trimLeft l := trimRight_of_append (x := b) (by rw [he, h])
  exact ⟨b, hb, by rw [trimSpace, hr, he]⟩

end Trim

section Cut

variable {l x y : Bytes} {c : UInt8}

theorem dropWhile_append (h : c ∉ x) : (x ++ y).dropWhile (· != c) = y.dropWhile (· != c) :=
  List.dropWhile_append_of_pos fun b hb => by simpa using fun he : b = c => h (he ▸ hb)

theorem cut_of_notMem (h : c ∉ l) : cut c l = (l, [], false) := by
  have hd : l.dropWhile (· != c) = [] := by simpa using dropWhile_append (y := []) h
  rw [cut, hd]

theorem cut_append_cons (h : c ∉ x) : cut c (x ++ c :: y) = (x, y, true) := by
  have ht : (x ++ c :: y).takeWhile (· != c) = x := by
    rw [List.takeWhile_append_of_pos fun b hb => by simpa using fun he : b = c => h (he ▸ hb),
      List.takeWhile_cons_of_neg (by simp), List.append_nil]
  rw [cut, dropWhile_append h, List.dropWhile_cons_of_neg (by simp), ht]

end Cut

section Lower

variable {l x y : Bytes} {c : UInt8}

theorem lower_cases (c : UInt8) : lower c = c ∨ 97 ≤ lower c ∧ lower c ≤ 122 ∧ 65 ≤ c ∧ c ≤ 90 := by
  have h : ∀ n : Fin 256, lower (.ofFin n) = .ofFin n ∨
      97 ≤ lower (.ofFin n) ∧ lower (.ofFin n) ≤ 122 ∧ 65 ≤ UInt8.ofFin n ∧ UInt8.ofFin n ≤ 90 := by
    decide +kernel
  exact h c.toFin

-- Bytes that are not letters can be seen in both cases.
theorem lower_eq_iff {d : UInt8} (hd : ¬(65 ≤ d ∧ d ≤ 90) ∧ ¬(97 ≤ d ∧ d ≤ 122)) : lower c = d ↔ c = d := by
  obtain h | ⟨h₁, h₂, h₃, h₄⟩ := lower_cases c
  case inl => rw [h]
  case inr =>
    constructor
    case mp => exact fun h => absurd ⟨h ▸ h₁, h ▸ h₂⟩ hd.2
    case mpr => exact fun h => absurd ⟨h ▸ h₃, h ▸ h₄⟩ hd.1

theorem prefix_map_lower {w : Bytes} (hw : ∀ d ∈ w, ¬(65 ≤ d ∧ d ≤ 90) ∧ ¬(97 ≤ d ∧ d ≤ 122)) (l : Bytes) :
    w <+: l.map lower ↔ w <+: l := by
  induction w generalizing l
  case nil => simp
  case cons d w hi =>
    cases l
    case nil => simp
    case cons c l =>
      rw [List.map_cons, List.cons_prefix_cons, List.cons_prefix_cons, hi fun d hd => hw d (.tail _ hd),
        eq_comm, lower_eq_iff (hw d (.head _)), eq_comm]

theorem trimSpace_map_lower : trimSpace (l.map lower) = (trimSpace l).map lower := by
  have h₁ : ∀ w ∈ spaces, ∀ d ∈ w, ¬(65 ≤ d ∧ d ≤ 90) ∧ ¬(97 ≤ d ∧ d ≤ 122) := by
    decide +kernel
  have h₂ : ∀ w ∈ spaces.map List.reverse, ∀ d ∈ w, ¬(65 ≤ d ∧ d ≤ 90) ∧ ¬(97 ≤ d ∧ d ≤ 122) := by
    decide +kernel
  have hl : trimLeft (l.map lower) = (trimLeft l).map lower := by
    rw [trimLeft, List.length_map, strip_map fun w hw => prefix_map_lower (h₁ w hw), trimLeft]
  rw [trimSpace, hl, trimRight, List.length_map, ← List.map_reverse,
    strip_map fun w hw => prefix_map_lower (h₂ w hw), ← List.map_reverse, trimSpace, trimRight]

theorem toLower_congr (h : x.map lower = y.map lower) : toLower x = toLower y := by
  have hl : x.length = y.length := by simpa using congrArg List.length h
  rw [toLower, toLower, h, hl]

end Lower

end Bytes
