import Bakemono.HttpInfo
import Bakemono.Lib.Strings

namespace Bakemono

open Bytes (trimSpace toLower equalFold cut isDigit ofDecimal lower blanks)

def Header.values (h : Header) (name : Bytes) : List Bytes :=
  ((h.find? (·.1 == canonicalMIMEHeaderKey name)).map Prod.snd).getD []

-- The largest value of `time.Duration`, in nanoseconds.
def maxDuration : Int := 2 ^ 63 - 1

def second : Int := 10 ^ 9

-- `strconv.ParseUint` is given 63 bits.
def deltaSeconds (value : Bytes) : Option Int :=
  if value = [] then none
  else if value.any (!isDigit ·) then none
  else
    let seconds := ofDecimal value
    if 2 ^ 63 ≤ seconds ∨ maxDuration / second < seconds then none
    else some (seconds * second)

-- The supported directives with and without a number of seconds.
def numerics (request : Bool) : List Bytes :=
  .text "max-age" :: if request then [.text "min-fresh"] else [.text "s-maxage"]

def flags (request : Bool) : List Bytes :=
  .text "no-cache" :: if request then [] else
    ["public", "must-revalidate", "proxy-revalidate", "immutable", "no-transform"].map .text

abbrev Directives := Bytes → Option Bytes

def unquote (value : Bytes) : Bytes :=
  if 2 ≤ value.length ∧ value.head? = some 34 ∧ value.getLast? = some 34 then value.tail.dropLast else value

-- The body of the loop of `cacheDirectives`.
def directive (request : Bool) (directives : Directives) (raw : Bytes) : Option Directives :=
  let (name, value, valued) := cut 61 (trimSpace raw)
  let name := toLower (trimSpace name)
  let value := trimSpace value
  if (directives name).isSome then none
  else if name ∈ numerics request then
    if !valued then none
    else
      let value := unquote value
      if (deltaSeconds value).isNone then none
      else some (Function.update directives name (some value))
  else if name ∉ flags request ∨ valued then none
  else some (Function.update directives name (some value))

def cacheDirectives (h : Header) (request : Bool) : Option Directives :=
  (h.values (.text "Cache-Control")).foldlM
    (fun directives line => (line.splitOn 44).foldlM (directive request) directives) fun _ => none

namespace CacheControl

variable {request : Bool} {x y raw value : Bytes} {lines lines' l : List Bytes} {d d' : Directives}

-- The name and the value of a directive, and whether it has a value at all.
def fields (raw : Bytes) : Bytes × Bytes × Bool :=
  let (name, value, valued) := cut 61 (trimSpace raw)
  (toLower (trimSpace name), trimSpace value, valued)

theorem fields_of_notMem (h : 61 ∉ x) : fields x = (toLower (trimSpace x), [], false) := by
  rw [fields, Bytes.cut_of_notMem fun hc => h (Bytes.trimSpace_subset hc)]
  simp only [Bytes.trimSpace_trimSpace]
  rfl

theorem fields_append_cons (h : 61 ∉ x) :
    fields (x ++ 61 :: y) = (toLower (trimSpace x), trimSpace (Bytes.trimRight y), true) := by
  rw [fields, Bytes.trimSpace_append_cons (by decide),
    Bytes.cut_append_cons fun hc => h (Bytes.trimLeft_suffix.subset hc)]
  simp only [Bytes.trimSpace_trimLeft]

-- What a directive contributes.
def entry (request : Bool) (raw : Bytes) : Option (Bytes × Bytes) :=
  let (name, value, valued) := fields raw
  if name ∈ numerics request then
    if valued ∧ (deltaSeconds (unquote value)).isSome then some (name, unquote value) else none
  else if name ∈ flags request ∧ !valued then some (name, value)
  else none

-- A directive that occurs for the first time is added to the map.
def insertNew (d : Directives) (e : Bytes × Bytes) : Option Directives :=
  if (d e.1).isSome then none else some (Function.update d e.1 (some e.2))

theorem directive_eq : directive request d raw = (entry request raw).bind (insertNew d) := by
  rcases hc : cut 61 (trimSpace raw) with ⟨name, value, valued⟩
  simp only [directive, entry, fields, hc]
  by_cases hn : toLower (trimSpace name) ∈ numerics request
  case pos =>
    cases valued
    case false => simp [hn]
    case true =>
      cases deltaSeconds (unquote (trimSpace value)) <;> simp [hn, insertNew]
  case neg =>
    by_cases hf : toLower (trimSpace name) ∈ flags request
    case pos => cases valued <;> simp [hn, hf, insertNew]
    case neg => simp [hn, hf]

theorem insertNew_comm (d : Directives) (e e' : Bytes × Bytes) :
    (insertNew d e).bind (insertNew · e') = (insertNew d e').bind (insertNew · e) := by
  by_cases he : e.1 = e'.1
  case pos =>
    have hne (e e' : Bytes × Bytes) (he : e.1 = e'.1) : (insertNew d e).bind (insertNew · e') = none := by
      cases h : d e.1 <;> simp [insertNew, h, ← he]
    rw [hne e e' he, hne e' e he.symm]
  case neg =>
    cases h : d e.1 <;> cases h' : d e'.1 <;>
      simp [insertNew, h, h', Function.update_of_ne he, Function.update_of_ne (Ne.symm he),
        Function.update_comm he]

theorem directive_comm (d : Directives) (x y : Bytes) :
    (directive request d x).bind (directive request · y) =
      (directive request d y).bind (directive request · x) := by
  simp only [directive_eq]
  cases entry request x
  case none => cases entry request y <;> simp
  case some e =>
    cases entry request y
    case none => simp
    case some e' => exact insertNew_comm d e e'

-- The order of the directives does not matter.
theorem foldlM_directive_perm {l' : List Bytes} (h : l.Perm l') :
    l.foldlM (directive request) d = l'.foldlM (directive request) d := by
  induction h generalizing d
  case nil => rfl
  case cons x _ _ _ hi =>
    rw [List.foldlM_cons, List.foldlM_cons]
    exact congrArg _ (funext fun d => hi)
  case swap x y l =>
    simp only [List.foldlM_cons, ← bind_assoc]
    exact congrArg (· >>= _) (directive_comm d y x)
  case trans hi hi' => exact hi.trans hi'

theorem fst_entry {e : Bytes × Bytes} (h : entry request raw = some e) : e.1 = (fields raw).1 := by
  simp only [entry] at h
  split_ifs at h <;> cases h <;> rfl

theorem isSome_foldlM_directive : (l.foldlM (directive request) d).isSome = true ↔
    (∀ raw ∈ l, (entry request raw).isSome = true ∧ d (fields raw).1 = none) ∧
    (l.map fun raw => (fields raw).1).Nodup := by
  induction l generalizing d
  case nil => simp
  case cons x l hi =>
    rw [List.foldlM_cons, List.forall_mem_cons, List.map_cons, List.nodup_cons, directive_eq]
    cases he : entry request x
    case none => simp
    case some e =>
      have hn := fst_entry he
      cases hd : d (fields x).1
      case some v => simp [insertNew, hn, hd]
      case none =>
        have hu (raw : Bytes) : Function.update d (fields x).1 (some e.2) (fields raw).1 = none ↔
            (fields raw).1 ≠ (fields x).1 ∧ d (fields raw).1 = none := by
          by_cases h : (fields raw).1 = (fields x).1
          case pos => simp [h]
          case neg => simp [h]
        simp only [Option.bind_some, insertNew, hn, hd, Option.isSome_none, Bool.false_eq_true, if_false,
          Option.bind_eq_bind, hi, Option.isSome_some, and_self, true_and, hu, List.mem_map, not_exists,
          not_and]
        constructor
        case mp => exact fun ⟨h, hnd⟩ => ⟨fun raw hr => ⟨(h raw hr).1, (h raw hr).2.2⟩,
          fun raw hr => (h raw hr).2.1, hnd⟩
        case mpr => exact fun ⟨h, hx, hnd⟩ => ⟨fun raw hr => ⟨(h raw hr).1, hx raw hr, (h raw hr).2⟩, hnd⟩

-- A decimal number of seconds that a duration can hold.
def Seconds (v : Bytes) : Prop := v ≠ [] ∧ (∀ c ∈ v, isDigit c = true) ∧ ofDecimal v * 10 ^ 9 < 2 ^ 63

theorem isSome_deltaSeconds : (deltaSeconds value).isSome = true ↔ Seconds value := by
  simp only [deltaSeconds, Seconds]
  by_cases h₁ : value = []
  case pos => simp [h₁]
  case neg =>
    by_cases h₂ : ∀ c ∈ value, isDigit c = true
    case neg =>
      have h : value.any (!isDigit ·) = true := by simpa using h₂
      simp [h₁, h, h₂]
    case pos =>
      have h : value.any (!isDigit ·) = false := by simpa using h₂
      rw [if_neg h₁, if_neg (by simp [h])]
      have hle : ¬(2 ^ 63 ≤ ofDecimal value ∨ maxDuration / second < (ofDecimal value : Nat)) ↔
          ofDecimal value * 10 ^ 9 < 2 ^ 63 := by
        simp only [maxDuration, second]
        omega
      by_cases hc : ofDecimal value * 10 ^ 9 < 2 ^ 63
      case pos =>
        rw [if_neg (hle.mpr hc)]
        exact iff_of_true rfl ⟨h₁, h₂, hc⟩
      case neg =>
        rw [if_pos (not_not.mp (mt hle.mp hc))]
        exact iff_of_false nofun fun h => hc h.2.2

theorem isSome_deltaSeconds_unquote : (deltaSeconds (unquote value)).isSome = true ↔
    ∃ v, (value = v ∨ value = 34 :: (v ++ [34])) ∧ Seconds v := by
  rw [isSome_deltaSeconds]
  constructor
  case mp =>
    intro h
    refine ⟨unquote value, ?_, h⟩
    by_cases hq : 2 ≤ value.length ∧ value.head? = some 34 ∧ value.getLast? = some 34
    case neg => exact .inl (if_neg hq).symm
    case pos =>
      right
      rw [unquote, if_pos hq]
      have ⟨hl, hh, ht⟩ := hq
      have ⟨w, hw⟩ := List.head?_eq_some_iff.mp hh
      subst hw
      rcases List.eq_nil_or_concat w with rfl | ⟨w, c, rfl⟩
      case inl => simp at hl
      case inr =>
        rw [List.concat_eq_append, ← List.cons_append, List.getLast?_concat] at ht
        cases ht
        simp
  case mpr =>
    rintro ⟨v, hv, hs⟩
    rcases hv with rfl | rfl
    case inl =>
      have hq : ¬(2 ≤ value.length ∧ value.head? = some 34 ∧ value.getLast? = some 34) := by
        rintro ⟨_, hh, _⟩
        exact absurd (hs.2.1 34 (List.mem_of_mem_head? hh)) (by decide)
      rwa [unquote, if_neg hq]
    case inr =>
      have hl : (34 :: (v ++ [34])).getLast? = some 34 := by rw [← List.cons_append, List.getLast?_concat]
      simpa [unquote, hl] using hs

-- The directives that are understood. The names of the directives are compared in lower case.
inductive Supported (request : Bool) (raw : Bytes) : Prop
  | flag : (61 ∉ trimSpace raw) → (toLower (trimSpace raw) ∈ flags request) → Supported request raw
  | numeric (x y v) : (trimSpace raw = x ++ 61 :: y) → (61 ∉ x) →
    (toLower (trimSpace x) ∈ numerics request) → (trimSpace y = v ∨ trimSpace y = 34 :: (v ++ [34])) →
    (Seconds v) → Supported request raw

theorem isSome_entry : (entry request raw).isSome = true ↔ Supported request raw := by
  have hdisj : ∀ request, ∀ n ∈ flags request, n ∉ numerics request := by decide
  by_cases h : 61 ∈ trimSpace raw
  case pos =>
    have ⟨x, y, he, hx⟩ := List.eq_append_cons_of_mem h
    have hf : fields raw = (toLower (trimSpace x), trimSpace y, true) := by
      rw [fields, he, Bytes.cut_append_cons hx]
    constructor
    case mp =>
      intro hs
      by_cases hn : toLower (trimSpace x) ∈ numerics request
      case neg => simp [entry, hf, hn] at hs
      case pos =>
        have hd : (deltaSeconds (unquote (trimSpace y))).isSome = true := by
          by_contra hd
          simp [entry, hf, hn, hd] at hs
        have ⟨v, hv, hs⟩ := isSome_deltaSeconds_unquote.mp hd
        exact .numeric x y v he hx hn hv hs
    case mpr =>
      intro hs
      cases hs
      case flag hc _ => exact absurd h hc
      case numeric x' y' v he' hx' hn hv hs =>
        have ⟨h₁, h₂⟩ := Bytes.split_first hx' hx (he'.symm.trans he)
        subst h₁ h₂
        have hd := isSome_deltaSeconds_unquote.mpr ⟨v, hv, hs⟩
        simp [entry, hf, hn, hd]
  case neg =>
    have hf : fields raw = (toLower (trimSpace raw), [], false) := by
      rw [fields, Bytes.cut_of_notMem h]
      simp only [Bytes.trimSpace_trimSpace]
      rfl
    constructor
    case mp =>
      intro hs
      by_cases hl : toLower (trimSpace raw) ∈ flags request
      case pos => exact .flag h hl
      case neg => simp [entry, hf, hl] at hs
    case mpr =>
      intro hs
      cases hs
      case flag hl => simp [entry, hf, hl, hdisj request _ hl]
      case numeric he _ _ _ _ => exact absurd (by simp [he]) h

-- Two spellings of a directive: the case of the letters of its name and blanks around its parts.
inductive Respelled : Bytes → Bytes → Prop
  | letters (x y z) : (x.map lower = y.map lower) → (61 ∉ x) → (z = [] ∨ z.head? = some 61) →
    Respelled (x ++ z) (y ++ z)
  | around (b x b') : (∀ c ∈ b, c ∈ blanks) → (∀ c ∈ b', c ∈ blanks) → Respelled x (b ++ x ++ b')
  | within (x b b' y) : (∀ c ∈ b, c ∈ blanks) → (∀ c ∈ b', c ∈ blanks) → (61 ∉ x) →
    Respelled (x ++ 61 :: y) (x ++ b ++ 61 :: (b' ++ y))

-- Two layouts of a list of directives.
inductive Layout : List Bytes → List Bytes → Prop
  | join (l₁ x y l₂) : Layout (l₁ ++ x :: y :: l₂) (l₁ ++ (x ++ 44 :: y) :: l₂)
  | perm {l l'} : l.Perm l' → Layout l l'
  | respell (l₁ x y l₂) : (44 ∉ x) → (44 ∉ y) → Respelled x y → Layout (l₁ ++ x :: l₂) (l₁ ++ y :: l₂)
  | symm {l l'} : Layout l l' → Layout l' l
  | trans {l₁ l₂ l₃} : Layout l₁ l₂ → Layout l₂ l₃ → Layout l₁ l₃

theorem Respelled.fields_eq (h : Respelled x y) : fields x = fields y := by
  have hb {b : Bytes} (hb : ∀ c ∈ b, c ∈ blanks) : 61 ∉ b := fun hc => absurd (hb 61 hc) (by decide)
  cases h
  case letters x y z hm hx hz =>
    have hy : 61 ∉ y := by
      intro hc
      have hc : 61 ∈ x.map lower := hm ▸ List.mem_map.mpr ⟨61, hc, rfl⟩
      have ⟨c, hc, he⟩ := List.mem_map.mp hc
      exact hx ((Bytes.lower_eq_iff (by decide)).mp he ▸ hc)
    have hl : toLower (trimSpace x) = toLower (trimSpace y) := by
      apply Bytes.toLower_congr
      rw [← Bytes.trimSpace_map_lower, hm, Bytes.trimSpace_map_lower]
    rcases hz with rfl | hz
    case inl => rw [List.append_nil, List.append_nil, fields_of_notMem hx, fields_of_notMem hy, hl]
    case inr =>
      have ⟨z, hz⟩ := List.head?_eq_some_iff.mp hz
      rw [hz, fields_append_cons hx, fields_append_cons hy, hl]
  case around b b' h₁ h₂ =>
    by_cases h : 61 ∈ x
    case neg =>
      have hx : 61 ∉ b ++ x ++ b' := by simp [h, hb h₁, hb h₂]
      rw [fields_of_notMem h, fields_of_notMem hx, Bytes.trimSpace_append_right h₂,
        Bytes.trimSpace_append h₁]
    case pos =>
      have ⟨p, q, he, hp⟩ := List.eq_append_cons_of_mem h
      have hbp : 61 ∉ b ++ p := by simp [hp, hb h₁]
      rw [he, fields_append_cons hp, show b ++ (p ++ 61 :: q) ++ b' = (b ++ p) ++ 61 :: (q ++ b') by simp,
        fields_append_cons hbp, Bytes.trimSpace_append h₁, Bytes.trimRight_append_right h₂]
  case within x b b' y h₁ h₂ hx =>
    have hbx : 61 ∉ x ++ b := by simp [hx, hb h₁]
    rw [fields_append_cons hx, fields_append_cons hbx, Bytes.trimSpace_append_right h₁,
      Bytes.trimSpace_trimRight_append h₂]

-- The directives of some lines.
def parse (request : Bool) (lines : List Bytes) : Option Directives :=
  (lines.flatMap (List.splitOn 44)).foldlM (directive request) fun _ => none

theorem cacheDirectives_eq (h : Header) :
    cacheDirectives h request = parse request (h.values (.text "Cache-Control")) := by
  have go {l : List Bytes} {d : Directives} : l.foldlM (fun d line =>
      (line.splitOn 44).foldlM (directive request) d) d =
      (l.flatMap (List.splitOn 44)).foldlM (directive request) d := by
    induction l generalizing d
    case nil => rfl
    case cons line l hi =>
      rw [List.foldlM_cons, List.flatMap_cons, List.foldlM_append]
      exact congrArg _ (funext fun d => hi)
  exact go

theorem Layout.parse_eq (h : Layout lines lines') : parse request lines = parse request lines' := by
  induction h
  case join l₁ x y l₂ =>
    simp only [parse, List.flatMap_append, List.flatMap_cons, List.splitOn_append_cons_self,
      List.append_assoc]
  case perm h => exact foldlM_directive_perm (h.flatMap_right _)
  case respell l₁ x y l₂ hx hy h =>
    have hd (d : Directives) : directive request d x = directive request d y := by
      rw [directive_eq, directive_eq, entry, entry, h.fields_eq]
    simp only [parse, List.flatMap_append, List.flatMap_cons, List.foldlM_append,
      List.splitOn_eq_singleton hx, List.splitOn_eq_singleton hy, List.foldlM_cons, hd]
  case symm hi => exact hi.symm
  case trans hi hi' => exact hi.trans hi'

-- The layout of the directives does not matter, and exactly the supported ones are accepted.
theorem cacheDirectives_spec (request : Bool) :
    (∀ h h' : Header, Layout (h.values (.text "Cache-Control")) (h'.values (.text "Cache-Control")) →
      cacheDirectives h request = cacheDirectives h' request) ∧
    ∀ h : Header, (cacheDirectives h request).isSome = true ↔
      let items := (h.values (.text "Cache-Control")).flatMap (List.splitOn 44)
      (∀ raw ∈ items, Supported request raw) ∧ (items.map fun raw => (fields raw).1).Nodup := by
  constructor
  case left =>
    intro h h' hl
    rw [cacheDirectives_eq, cacheDirectives_eq, hl.parse_eq]
  case right =>
    intro h
    rw [cacheDirectives_eq, parse, isSome_foldlM_directive]
    simp only [isSome_entry, and_true]

-- Two directives in one line and in two lines.
theorem cacheDirectives_spec_sample :
    cacheDirectives [(.text "Cache-Control", [.text "public", .text "Max-Age=1"])] false =
      cacheDirectives [(.text "Cache-Control", [.text "public,Max-Age=1"])] false ∧
    Supported false (.text "Max-Age=1") := by
  constructor
  case left =>
    exact (cacheDirectives_spec false).1 _ _ (.join [] (Bytes.text "public") (Bytes.text "Max-Age=1") [])
  case right =>
    have h : (cacheDirectives [(.text "Cache-Control", [.text "public", .text "Max-Age=1"])]
        false).isSome := by decide +kernel
    exact (((cacheDirectives_spec false).2 _).mp h).1 _ (by decide +kernel)

end CacheControl

end Bakemono
