import Bakemono.Server.Directives

namespace Bakemono

open Bytes (trimSpace equalFold)

namespace Header

variable (h : Header)

def hasHeader (name : Bytes) : Bool := h.any (equalFold ·.1 name)

def connectionNominates (names : List Bytes) : Bool :=
  (h.values (.text "Connection")).any fun line =>
    (line.splitOn 44).any fun field => names.any fun name => equalFold (trimSpace field) name

-- The loop of `varyFields`.
def varyField (fields : List Bytes) (field : Bytes) : Option (List Bytes) :=
  let field := canonicalMIMEHeaderKey (trimSpace field)
  if field ≠ .text "Accept-Encoding" ∧ field ≠ .text "Accept-Language" then none
  else if field ∈ fields then some fields
  else some (fields ++ [field])

def varyFields : Option (List Bytes) := do
  let fields ← (h.values (.text "Vary")).foldlM (fun fields line => (line.splitOn 44).foldlM varyField fields) []
  return Bytes.sorted fields

end Header

-- `Time.Sub`, for times in nanoseconds. All instants are readings of one clock: whether a `Time` has a
-- monotonic reading is not modelled.
def sub (t u : Int) : Int := max (-2 ^ 63) (min maxDuration (t - u))

def addAge (a b : Int) : Int := if a > maxDuration - b then maxDuration else a + b

structure Freshness where
  age       : Int
  lifetime  : Int
  validate  : Bool
  evaluated : Int
  deriving DecidableEq

namespace Freshness

def currentAge (p : Freshness) (now : Int) : Option Int :=
  let elapsed := sub now p.evaluated
  if elapsed < 0 then none else some (addAge p.age elapsed)

end Freshness

-- The fields that a response must not have, and those that may not be nominated.
def refusedFields : List Bytes := ["Set-Cookie", "Content-Range", "Trailer"].map .text

def policyFields : List Bytes :=
  ["Cache-Control", "Age", "Date", "Set-Cookie", "Vary", "Content-Range", "Trailer", "ETag",
    "Last-Modified"].map .text

section Source

-- `http.ParseTime` of the standard library.
variable (parseTime : Bytes → Option Int)

-- The age in the header, if there is one.
def headerAge (h : Header) : Option Int :=
  match h.values (.text "Age") with
  | []  => some 0
  | [v] => deltaSeconds v
  | _   => none

-- The age is at least the time since the date in the header.
def dateAge (h : Header) (responseTime age : Int) : Option Int :=
  match h.values (.text "Date") with
  | []  => some age
  | [v] => (parseTime v).map fun date => max age (sub responseTime date)
  | _   => none

def responsePolicy (info : CacheHTTPInfo) (now : Int) : Option Freshness := do
  let h := info.responseHeaders
  guard (info.status = 200 ∧ info.requestMethod = .text "GET")
  let _ ← h.varyFields
  guard (h.connectionNominates policyFields = false)
  guard (∀ name ∈ refusedFields, h.hasHeader name = false)
  let directives ← cacheDirectives h false
  let shared := directives (.text "s-maxage")
  guard ((directives (.text "public")).isSome ∨ shared.isSome)
  let lifetime ← deltaSeconds ((shared <|> directives (.text "max-age")).getD [])
  let age ← headerAge h
  let delay := sub info.responseTime info.requestTime
  let resident := sub now info.responseTime
  guard (0 ≤ delay ∧ 0 ≤ resident)
  let age ← dateAge parseTime h info.responseTime (addAge age delay)
  return ⟨addAge age resident, lifetime, (directives (.text "no-cache")).isSome, now⟩

-- Only the headers of the request are looked at.
def requestPolicyFresh (r : Header) (p : Freshness) (now : Int) : Bool :=
  match p.currentAge now with
  | none     => false
  | some age =>
    if p.validate ∨ age ≥ p.lifetime ∨ r.hasHeader (.text "Pragma") then false
    else match cacheDirectives r true with
      | none            => false
      | some directives =>
        if (directives (.text "no-cache")).isSome then false
        else if ∃ v ∈ directives (.text "max-age"), age > (deltaSeconds v).getD 0 then false
        else if ∃ v ∈ directives (.text "min-fresh"), (deltaSeconds v).getD 0 ≥ p.lifetime - age then false
        else true

def requestFresh (r : Header) (info : CacheHTTPInfo) (now : Int) : Bool :=
  match responsePolicy parseTime info now with
  | none   => false
  | some p => requestPolicyFresh r p now

end Source

section Age

variable {a b t u t₁ t₂ : Int}

theorem addAge_eq : addAge a b = min maxDuration (a + b) := by
  rw [addAge]
  split <;> omega

theorem sub_of_le (h : u ≤ t) : sub t u = min maxDuration (t - u) := by
  rw [sub, maxDuration]
  omega

theorem sub_nonneg_iff : 0 ≤ sub t u ↔ u ≤ t := by
  rw [sub, maxDuration]
  omega

-- The age can be advanced in two steps, also where it is saturated.
theorem addAge_addAge (ha : 0 ≤ a) (h₁ : u ≤ t₁) (h₂ : t₁ ≤ t₂) :
    addAge (addAge a (sub t₁ u)) (sub t₂ t₁) = addAge a (sub t₂ u) := by
  rw [addAge_eq, addAge_eq, addAge_eq, sub_of_le h₁, sub_of_le h₂, sub_of_le (h₁.trans h₂), maxDuration]
  omega

theorem addAge_mono (h₁ : u ≤ t₁) (h₂ : t₁ ≤ t₂) : addAge a (sub t₁ u) ≤ addAge a (sub t₂ u) := by
  rw [addAge_eq, addAge_eq, sub_of_le h₁, sub_of_le (h₁.trans h₂)]
  omega

theorem deltaSeconds_nonneg {v : Bytes} (h : deltaSeconds v = some a) : 0 ≤ a := by
  simp only [deltaSeconds] at h
  split_ifs at h
  cases h
  exact Int.mul_nonneg (Int.natCast_nonneg _) (by decide)

end Age

variable {parseTime : Bytes → Option Int} {info : CacheHTTPInfo} {now age lifetime t₁ t₂ : Int}
  {validate : Bool} {p : Freshness} {r : Header}

-- What makes a response acceptable, at whatever time it is asked for: its age when it was received,
-- and its lifetime.
structure Admitted (parseTime : Bytes → Option Int) (info : CacheHTTPInfo) (age lifetime : Int)
    (validate : Bool) : Prop where
  status     : info.status = 200 ∧ info.requestMethod = .text "GET"
  vary       : ∃ fields, info.responseHeaders.varyFields = some fields
  connection : info.responseHeaders.connectionNominates policyFields = false
  refused    : ∀ name ∈ refusedFields, info.responseHeaders.hasHeader name = false
  directives : ∃ d, cacheDirectives info.responseHeaders false = some d ∧
    ((d (.text "public")).isSome ∨ (d (.text "s-maxage")).isSome) ∧
    deltaSeconds ((d (.text "s-maxage") <|> d (.text "max-age")).getD []) = some lifetime ∧
    validate = (d (.text "no-cache")).isSome
  delay      : 0 ≤ sub info.responseTime info.requestTime
  age        : ∃ a, headerAge info.responseHeaders = some a ∧
    dateAge parseTime info.responseHeaders info.responseTime
      (addAge a (sub info.responseTime info.requestTime)) = some age

theorem exists_guard {c : Prop} [Decidable c] {P : Unit → Prop} :
    (∃ a, guard c = some a ∧ P a) ↔ c ∧ P () := by
  by_cases h : c
  case pos => simpa [guard, h] using ⟨fun ⟨_, h⟩ => h, fun h => ⟨(), h⟩⟩
  case neg => simp [guard, h]

theorem responsePolicy_eq_some : responsePolicy parseTime info now = some p ↔
    ∃ age lifetime validate, Admitted parseTime info age lifetime validate ∧
      info.responseTime ≤ now ∧ p = ⟨addAge age (sub now info.responseTime), lifetime, validate, now⟩ := by
  simp only [responsePolicy, Option.bind_eq_bind, Option.bind_eq_some_iff, exists_guard, sub_nonneg_iff,
    Option.pure_def, Option.some.injEq]
  constructor
  case mp =>
    rintro ⟨h₁, fields, h₂, h₃, h₄, d, h₅, h₆, lifetime, h₇, a, h₈, ⟨h₉, hn⟩, age, ha, hp⟩
    exact ⟨age, lifetime, _, ⟨h₁, ⟨fields, h₂⟩, h₃, h₄, ⟨d, h₅, h₆, h₇, rfl⟩, sub_nonneg_iff.mpr h₉,
      ⟨a, h₈, ha⟩⟩, hn, hp.symm⟩
  case mpr =>
    rintro ⟨age, lifetime, validate, h, hn, hp⟩
    have ⟨fields, hf⟩ := h.vary
    have ⟨d, h₅, h₆, h₇, hv⟩ := h.directives
    have ⟨a, h₈, ha⟩ := h.age
    subst hv
    exact ⟨h.status, fields, hf, h.connection, h.refused, d, h₅, h₆, lifetime, h₇, a, h₈,
      ⟨sub_nonneg_iff.mp h.delay, hn⟩, age, ha, hp.symm⟩

theorem Admitted.age_nonneg (h : Admitted parseTime info age lifetime validate) : 0 ≤ age := by
  obtain ⟨a, ha, hd⟩ := h.age
  have hdelay := h.delay
  have h₀ : 0 ≤ a := by
    simp only [headerAge] at ha
    split at ha
    case h_1 => cases ha; exact le_rfl
    case h_2 => exact deltaSeconds_nonneg ha
    case h_3 => cases ha
  have h₁ : 0 ≤ addAge a (sub info.responseTime info.requestTime) := by
    rw [addAge_eq, maxDuration]
    omega
  simp only [dateAge] at hd
  split at hd
  case h_1 => cases hd; exact h₁
  case h_2 =>
    obtain ⟨_, _, he⟩ := Option.map_eq_some_iff.mp hd
    exact he ▸ h₁.trans (le_max_left ..)
  case h_3 => cases hd

-- What a request demands of a response of some age.
def Demands (r : Header) (lifetime : Int) (validate : Bool) (age : Int) : Prop :=
  validate = false ∧ age < lifetime ∧ r.hasHeader (.text "Pragma") = false ∧
  ∃ d, cacheDirectives r true = some d ∧ d (.text "no-cache") = none ∧
    (∀ v, d (.text "max-age") = some v → age ≤ (deltaSeconds v).getD 0) ∧
    ∀ v, d (.text "min-fresh") = some v → (deltaSeconds v).getD 0 < lifetime - age

theorem Demands.mono {age' : Int} (h : Demands r lifetime validate age') (ha : age ≤ age') :
    Demands r lifetime validate age := by
  have ⟨hv, hl, hp, d, hd, hn, hmax, hmin⟩ := h
  refine ⟨hv, by omega, hp, d, hd, hn, fun v hv => ha.trans (hmax v hv), fun v hv => ?_⟩
  have := hmin v hv
  omega

theorem requestPolicyFresh_iff : requestPolicyFresh r p now = true ↔
    p.evaluated ≤ now ∧ Demands r p.lifetime p.validate (addAge p.age (sub now p.evaluated)) := by
  by_cases hn : p.evaluated ≤ now
  case neg =>
    have hs : sub now p.evaluated < 0 := not_le.mp (mt sub_nonneg_iff.mp hn)
    simp [requestPolicyFresh, Freshness.currentAge, hs, hn]
  case pos =>
    have hs : ¬sub now p.evaluated < 0 := not_lt.mpr (sub_nonneg_iff.mpr hn)
    have check {c : Prop} [Decidable c] {b : Bool} : (if c then false else b) = true ↔ ¬c ∧ b = true := by
      by_cases c <;> simp [*]
    cases hd : cacheDirectives r true
    case none => simp [requestPolicyFresh, Freshness.currentAge, hs, Demands, hd]
    case some d =>
      simp only [requestPolicyFresh, Freshness.currentAge, if_neg hs, hd, check, hn, true_and, Demands,
        not_or, not_exists, not_and, not_le, not_lt, Bool.not_eq_true, ge_iff_le, gt_iff_lt, and_true,
        Option.isSome_eq_false_iff, Option.isNone_iff_eq_none, Option.mem_def, Option.some.injEq,
        exists_eq_left', and_assoc]

-- Both ways to judge the freshness are about the age at the later time.
theorem exists_policy_iff (h₁ : info.responseTime ≤ t₁) (h₂ : t₁ ≤ t₂) :
    (∃ p, responsePolicy parseTime info t₁ = some p ∧ requestPolicyFresh r p t₂ = true) ↔
      ∃ age lifetime validate, Admitted parseTime info age lifetime validate ∧
        Demands r lifetime validate (addAge age (sub t₂ info.responseTime)) := by
  constructor
  case mp =>
    rintro ⟨p, hp, hf⟩
    have ⟨age, lifetime, validate, ha, _, he⟩ := responsePolicy_eq_some.mp hp
    have ⟨_, hd⟩ := requestPolicyFresh_iff.mp hf
    subst he
    rw [addAge_addAge ha.age_nonneg h₁ h₂] at hd
    exact ⟨age, lifetime, validate, ha, hd⟩
  case mpr =>
    rintro ⟨age, lifetime, validate, ha, hd⟩
    refine ⟨_, responsePolicy_eq_some.mpr ⟨age, lifetime, validate, ha, h₁, rfl⟩, ?_⟩
    refine requestPolicyFresh_iff.mpr ⟨h₂, ?_⟩
    rwa [addAge_addAge ha.age_nonneg h₁ h₂]

theorem requestFresh_iff : requestFresh parseTime r info now = true ↔
    ∃ p, responsePolicy parseTime info now = some p ∧ requestPolicyFresh r p now = true := by
  cases h : responsePolicy parseTime info now <;> simp [requestFresh, h]

-- Freshness can be judged in two steps, and is only lost.
theorem requestFresh_decays (parseTime : Bytes → Option Int) (r : Header) (h₁ : info.responseTime ≤ t₁)
    (h₂ : t₁ ≤ t₂) :
    ((∃ p, responsePolicy parseTime info t₁ = some p ∧ requestPolicyFresh r p t₂ = true) ↔
      requestFresh parseTime r info t₂ = true) ∧
    (requestFresh parseTime r info t₂ = true → requestFresh parseTime r info t₁ = true) := by
  rw [requestFresh_iff, requestFresh_iff, exists_policy_iff h₁ h₂, exists_policy_iff h₁ le_rfl,
    exists_policy_iff (h₁.trans h₂) le_rfl]
  refine ⟨Iff.rfl, ?_⟩
  rintro ⟨age, lifetime, validate, ha, hd⟩
  exact ⟨age, lifetime, validate, ha, hd.mono (addAge_mono h₁ h₂)⟩

section Sample

-- A response that can be used for a minute.
def sampleInfo : CacheHTTPInfo where
  requestTime     := 0
  responseTime    := 0
  requestMethod   := .text "GET"
  requestURL      := []
  status          := 200
  responseHeaders := [(.text "Cache-Control", [.text "public, max-age=60"])]

theorem admitted_sampleInfo : Admitted parseTime sampleInfo 0 60000000000 false where
  status     := ⟨rfl, rfl⟩
  vary       := ⟨_, rfl⟩
  connection := by decide
  refused    := by decide
  directives := ⟨_, rfl, by decide, by decide, by decide⟩
  delay      := by decide
  age        := ⟨0, rfl, rfl⟩

theorem requestFresh_decays_sample :
    requestFresh (fun _ => none) [] sampleInfo 20000000000 = true ∧
    requestFresh (fun _ => none) [] sampleInfo 10000000000 = true := by
  have h₁ : sampleInfo.responseTime ≤ 10000000000 := by decide
  have hd : Demands [] 60000000000 false (addAge 0 (sub 20000000000 sampleInfo.responseTime)) :=
    ⟨rfl, by decide, rfl, _, rfl, rfl, nofun, nofun⟩
  have hf : requestFresh (fun _ => none) [] sampleInfo 20000000000 = true :=
    requestFresh_iff.mpr <| (exists_policy_iff (h₁.trans (by decide)) le_rfl).mpr
      ⟨_, _, _, admitted_sampleInfo, hd⟩
  exact ⟨hf, (requestFresh_decays _ [] h₁ (by decide)).2 hf⟩

end Sample

end Bakemono
