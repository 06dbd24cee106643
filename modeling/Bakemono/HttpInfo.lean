import Bakemono.Error
import Bakemono.Lib.Bytes
import Bakemono.Lib.Except

namespace Bakemono

-- A map from names to values. The entries are in the order in which the map is iterated.
abbrev Header := List (Bytes × List Bytes)

namespace Header

def isTokenByte (c : UInt8) : Bool :=
  (48 ≤ c && c ≤ 57) || (65 ≤ c && c ≤ 90) || (97 ≤ c && c ≤ 122) ||
  c ∈ ([33, 35, 36, 37, 38, 39, 42, 43, 45, 46, 94, 95, 96, 124, 126] : Bytes)

-- The first letter and every letter after a hyphen is an upper case one.
def capitalize (upper : Bool) : Bytes → Bytes
  | []     => []
  | c :: l =>
    let c' := if upper && 97 ≤ c && c ≤ 122 then c - 32
              else if !upper && 65 ≤ c && c ≤ 90 then c + 32 else c
    c' :: capitalize (c == 45) l

-- Names with other bytes than those of tokens are not changed.
def canonicalMIMEHeaderKey (name : Bytes) : Bytes :=
  if name.all isTokenByte then capitalize true name else name

def insert : Header → Bytes → Bytes → Header
  | [],           name, value => [(name, [value])]
  | (k, vs) :: h, name, value =>
    if k = name then (k, vs ++ [value]) :: h else (k, vs) :: insert h name value

def add (h : Header) (name value : Bytes) : Header := h.insert (canonicalMIMEHeaderKey name) value

-- The pairs in the order in which they are encoded.
def pairs (h : Header) : List (Bytes × Bytes) := h.flatMap fun (k, vs) => vs.map (k, ·)

end Header

-- The metadata of an object. Times are in nanoseconds since 1970.
structure CacheHTTPInfo where
  requestTime     : Int
  responseTime    : Int
  requestMethod   : Bytes
  requestURL      : Bytes
  status          : Int
  responseHeaders : Header
  deriving DecidableEq, Repr

namespace CacheHTTPInfo

-- The times of `NewCacheHTTPInfo` are the zero time of the first year.
def new : CacheHTTPInfo where
  requestTime     := -62135596800000000000
  responseTime    := -62135596800000000000
  requestMethod   := []
  requestURL      := []
  status          := 0
  responseHeaders := []

-- The two's complement of a number.
def signed (w : Nat) (n : Int) : Bytes := .be w (n % 256 ^ w).toNat

def counted (p : Bytes) : Bytes := .be 2 p.length ++ p

def marshal (h : CacheHTTPInfo) : Except Err Bytes := do
  if h.requestMethod.length > 65535 then throw (.other "method too long")
  if h.requestURL.length > 65535 then throw (.other "url too long")
  let pairs := h.responseHeaders.pairs
  if pairs.length > 65535 ∨ ∃ p ∈ pairs, p.1.length > 65535 ∨ p.2.length > 65535 then
    throw (.other "HTTP metadata headers exceed format limits")
  return signed 8 h.requestTime ++ signed 8 h.responseTime ++ counted h.requestMethod ++
    counted h.requestURL ++ signed 2 h.status ++ .be 2 pairs.length ++
    pairs.flatMap fun p => counted p.1 ++ counted p.2

-- `io.ReadFull` returns the bytes and what is left of the buffer.
def readFull (n : Nat) (buf : Bytes) : Except Err (Bytes × Bytes) :=
  if n ≤ buf.length then .ok (buf.take n, buf.drop n)
  else if buf = [] then .error .eof
  else .error .unexpectedEOF

def readNat (w : Nat) (buf : Bytes) : Except Err (Nat × Bytes) := do
  let (p, buf) ← readFull w buf
  return (Bytes.ofBE p, buf)

def readSigned (w : Nat) (buf : Bytes) : Except Err (Int × Bytes) := do
  let (n, buf) ← readNat w buf
  return (if n < 256 ^ w / 2 then (n : Int) else n - 256 ^ w, buf)

def readCounted (buf : Bytes) : Except Err (Bytes × Bytes) := do
  let (n, buf) ← readNat 2 buf
  readFull n buf

def readHeaders : Nat → Header → Bytes → Except Err (Header × Bytes)
  | 0,         h, buf => return (h, buf)
  | count + 1, h, buf => do
    let (k, buf) ← readCounted buf
    let (v, buf) ← readCounted buf
    readHeaders count (h.add k v) buf

def unmarshal (data : Bytes) : Except Err CacheHTTPInfo := do
  let (requestTime, buf) ← readSigned 8 data
  let (responseTime, buf) ← readSigned 8 buf
  let (requestMethod, buf) ← readCounted buf
  let (requestURL, buf) ← readCounted buf
  let (status, buf) ← readNat 2 buf
  let (count, buf) ← readNat 2 buf
  let (responseHeaders, buf) ← readHeaders count [] buf
  if buf ≠ [] then throw (.other "trailing HTTP metadata")
  return { requestTime, responseTime, requestMethod, requestURL, status, responseHeaders }

end CacheHTTPInfo

namespace Header

variable {h : Header} {name value : Bytes} {values : List Bytes}

theorem insert_new (hn : name ∉ h.map Prod.fst) : h.insert name value = h ++ [(name, [value])] := by
  induction h
  case nil => rfl
  case cons e h hi =>
    simp only [List.map_cons, List.mem_cons, not_or] at hn
    simp [insert, Ne.symm hn.1, hi hn.2]

theorem insert_last (hn : name ∉ h.map Prod.fst) :
    insert (h ++ [(name, values)]) name value = h ++ [(name, values ++ [value])] := by
  induction h
  case nil => simp [insert]
  case cons e h hi =>
    simp only [List.map_cons, List.mem_cons, not_or] at hn
    simp [insert, Ne.symm hn.1, hi hn.2]

-- Adding the values of a new name one after the other.
theorem foldl_insert (hn : name ∉ h.map Prod.fst) (hv : values ≠ []) :
    values.foldl (fun h v => insert h name v) h = h ++ [(name, values)] := by
  induction values using List.reverseRecOn
  case nil => exact absurd rfl hv
  case append_singleton values v hi =>
    rw [List.foldl_append]
    cases values
    case nil => exact insert_new hn
    case cons => rw [hi (by simp)]; exact insert_last hn

-- A header is lossless if its names are canonical and all of them have a value.
structure Lossless (h : Header) : Prop where
  names     : (h.map Prod.fst).Nodup
  canonical : ∀ e ∈ h, canonicalMIMEHeaderKey e.1 = e.1
  values    : ∀ e ∈ h, e.2 ≠ []

theorem foldl_add (acc : Header) (hd : (acc.map Prod.fst).Disjoint (h.map Prod.fst))
    (hl : h.Lossless) : h.pairs.foldl (fun h p => h.add p.1 p.2) acc = acc ++ h := by
  induction h generalizing acc
  case nil => simp [pairs]
  case cons e h hi =>
    have ⟨hn, hc, hv⟩ := hl
    simp only [List.map_cons, List.nodup_cons, List.disjoint_cons_right] at hn hd
    have he : (e.2.map (e.1, ·)).foldl (fun h p => h.add p.1 p.2) acc = acc ++ [e] := by
      simpa [List.foldl_map, add, hc e] using foldl_insert hd.1 (hv e (by simp))
    have hd' : ((acc ++ [e]).map Prod.fst).Disjoint (h.map Prod.fst) := by
      simpa [List.disjoint_append_left] using ⟨hd.2, by simpa using hn.1⟩
    have := hi (acc ++ [e]) hd' ⟨hn.2, fun x hx => hc x (by simp [hx]), fun x hx => hv x (by simp [hx])⟩
    simpa [pairs, List.foldl_append, he] using this

theorem Lossless.foldl_add (hl : h.Lossless) :
    h.pairs.foldl (fun (h : Header) p => h.add p.1 p.2) [] = h :=
  Header.foldl_add [] (by simp) hl

end Header

namespace CacheHTTPInfo

variable {p l : Bytes} {w n : Nat}

@[simp] theorem readFull_append : readFull p.length (p ++ l) = .ok (p, l) := by
  simp [readFull]

theorem readNat_append (h : n < 256 ^ w) : readNat w (.be w n ++ l) = .ok (n, l) := by
  have := readFull_append (p := .be w n) (l := l)
  rw [Bytes.length_be] at this
  simp only [readNat, this]
  simp [bind, Except.bind, pure, Except.pure, Bytes.ofBE_be, Nat.mod_eq_of_lt h]

theorem readSigned_append {t : Int} (h₁ : -((256 ^ w / 2 : Nat) : Int) ≤ t)
    (h₂ : t < (256 ^ w / 2 : Nat)) : readSigned w (signed w t ++ l) = .ok (t, l) := by
  have hp : 0 < 256 ^ w := by positivity
  have hc : ((256 ^ w : Nat) : Int) = 256 ^ w := by simp
  have h₀ := Int.emod_nonneg t (b := 256 ^ w) (by positivity)
  have hl := Int.emod_lt_of_pos t (b := 256 ^ w) (by positivity)
  have hn : (t % 256 ^ w).toNat < 256 ^ w := by omega
  simp only [readSigned, signed, readNat_append hn, bind, Except.bind, pure, Except.pure,
    Int.toNat_of_nonneg h₀]
  -- The remainder is the number itself or, for a negative one, its complement.
  by_cases ht : 0 ≤ t
  case pos =>
    have he : t % 256 ^ w = t := Int.emod_eq_of_lt ht (by omega)
    rw [if_pos (by omega), he]
  case neg =>
    have he : t % 256 ^ w = t + 256 ^ w := by
      rw [← Int.add_emod_right]
      exact Int.emod_eq_of_lt (by omega) (by omega)
    rw [if_neg (by omega), he, Int.add_sub_cancel]

theorem readCounted_append (h : p.length ≤ 65535) : readCounted (counted p ++ l) = .ok (p, l) := by
  rw [counted, List.append_assoc, readCounted, readNat_append (by omega)]
  exact readFull_append

theorem readHeaders_append {pairs : List (Bytes × Bytes)} (acc : Header)
    (h : ∀ q ∈ pairs, q.1.length ≤ 65535 ∧ q.2.length ≤ 65535) :
    readHeaders pairs.length acc ((pairs.flatMap fun q => counted q.1 ++ counted q.2) ++ l) =
      .ok (pairs.foldl (fun h q => h.add q.1 q.2) acc, l) := by
  induction pairs generalizing acc
  case nil => rfl
  case cons q pairs hi =>
    have ⟨hk, hv⟩ := h q (by simp)
    simp only [List.length_cons, List.flatMap_cons, List.append_assoc, readHeaders,
      readCounted_append hk, readCounted_append hv, bind, Except.bind]
    exact hi (acc.add q.1 q.2) fun q hq => h q (by simp [hq])

-- What the format can represent. Values that are too long are not encoded at all.
structure Lossless (h : CacheHTTPInfo) : Prop where
  requestTime     : -2 ^ 63 ≤ h.requestTime ∧ h.requestTime < 2 ^ 63
  responseTime    : -2 ^ 63 ≤ h.responseTime ∧ h.responseTime < 2 ^ 63
  status          : 0 ≤ h.status ∧ h.status ≤ 65535
  responseHeaders : h.responseHeaders.Lossless

theorem of_marshal {h : CacheHTTPInfo} (hm : h.marshal = .ok p) :
    h.requestMethod.length ≤ 65535 ∧ h.requestURL.length ≤ 65535 ∧
    h.responseHeaders.pairs.length ≤ 65535 ∧
    (∀ q ∈ h.responseHeaders.pairs, q.1.length ≤ 65535 ∧ q.2.length ≤ 65535) ∧
    p = signed 8 h.requestTime ++ (signed 8 h.responseTime ++ (counted h.requestMethod ++
      (counted h.requestURL ++ (signed 2 h.status ++ (Bytes.be 2 h.responseHeaders.pairs.length ++
      ((h.responseHeaders.pairs.flatMap fun q => counted q.1 ++ counted q.2) ++ [])))))) := by
  simp only [marshal, bind, Except.bind, pure, Except.pure, throw, throwThe,
    MonadExceptOf.throw] at hm
  split_ifs at hm with h₁ h₂ h₃
  case neg =>
    push Not at h₁ h₂ h₃
    refine ⟨h₁, h₂, h₃.1, h₃.2, ?_⟩
    simpa [List.append_assoc, eq_comm] using hm

theorem unmarshal_marshal {h : CacheHTTPInfo} (hl : h.Lossless) (hm : h.marshal = .ok p) :
    unmarshal p = .ok h := by
  have ⟨h₁, h₂, h₃, h₄, he⟩ := of_marshal hm
  have ⟨⟨ht₁, ht₂⟩, ⟨ht₃, ht₄⟩, ⟨hs₁, hs₂⟩, hh⟩ := hl
  have hs : signed 2 h.status = .be 2 h.status.toNat := by
    rw [signed, Int.emod_eq_of_lt hs₁ (by omega)]
  have hc : ((h.status.toNat : Nat) : Int) = h.status := Int.toNat_of_nonneg hs₁
  simp only [he, unmarshal, readSigned_append (w := 8) ht₁ ht₂, readSigned_append (w := 8) ht₃ ht₄,
    readCounted_append h₁, readCounted_append h₂, hs, readNat_append (n := h.status.toNat) (w := 2)
    (by omega), readNat_append (n := h.responseHeaders.pairs.length) (w := 2) (by omega),
    readHeaders_append [] h₄, hh.foldl_add, bind, Except.bind, pure, Except.pure, hc]
  rfl

end CacheHTTPInfo
end Bakemono
