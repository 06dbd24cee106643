import Bakemono.Error
import Bakemono.Lib.While

namespace Bakemono

-- What the layout depends on.
structure Span where
  path : String
  size : Int64

-- The elements of the three slices that `BuildStripeLayout` returns.
structure Piece where
  path   : String
  size   : Int64
  offset : Int64

namespace Store

-- The index of the first span that is before all others in some order of the sizes.
def extreme (before : Int64 → Int64 → Bool) (spans : List Span) : Nat :=
  let size (i : Nat) : Int64 := (spans.map Span.size).getD i 0
  (List.range' 1 (spans.length - 1)).foldl (fun m i => if before (size i) (size m) then i else m) 0

def largest (spans : List Span) : Nat := extreme (fun a b => decide (a > b)) spans

def smallest (spans : List Span) : Nat := extreme (fun a b => decide (a < b)) spans

-- The numbers of stripes of the spans, and their sum.
structure Alloc where
  alloc    : List Int64
  sumAlloc : Int64

def portion (nStripes total size : Int64) : Int64 :=
  let portion := size * nStripes / total
  if portion = 0 then 1 else portion

def Alloc.new (spans : List Span) (nStripes total : Int64) : Alloc :=
  let alloc := spans.map fun sp => portion nStripes total sp.size
  ⟨alloc, alloc.foldl (· + ·) 0⟩

def Alloc.grow (i : Nat) (a : Alloc) : Alloc := ⟨a.alloc.modify i (· + 1), a.sumAlloc + 1⟩

def Alloc.shrink (i : Nat) (a : Alloc) : Alloc := ⟨a.alloc.modify i (· - 1), a.sumAlloc - 1⟩

-- A stripe is taken from the first span with more than one. If there is none, a span may be dropped.
def Alloc.shrinkFirst (spans : List Span) (a : Alloc) : Alloc :=
  match a.alloc.findIdx? fun n => decide (n > 1) with
  | some i => a.shrink i
  | none   =>
    let i := smallest spans
    if a.alloc.getD i 0 > 0 then a.shrink i else a

-- The two loops that adjust the numbers.
def adjust (fuel : Nat) (spans : List Span) (nStripes : Int64) (a : Alloc) : Option Alloc := do
  let a ← whileLoop (fun a => decide (a.sumAlloc < nStripes)) (Alloc.grow (largest spans)) fuel a
  whileLoop (fun a => decide (a.sumAlloc > nStripes)) (Alloc.shrinkFirst spans) fuel a

-- The chunks of a span with the given numbers, and whether the last stripe has been found.
def cutSpan (nStripes : Int64) (path : String) (base rem : Int64) :
    List Nat → Int64 → List Piece → List Piece × Bool
  | [],      _,   pieces => (pieces, false)
  | j :: js, off, pieces =>
    let chunk := if Int64.ofNat j < rem then base + 1 else base
    if chunk = 0 then cutSpan nStripes path base rem js off pieces
    else
      let pieces := pieces ++ [⟨path, chunk, off⟩]
      if pieces.length = nStripes.toInt then (pieces, true)
      else cutSpan nStripes path base rem js (off + chunk) pieces

def cutSpans (nStripes : Int64) : List (Span × Int64) → List Piece → List Piece
  | [],           pieces => pieces
  | (sp, n) :: l, pieces =>
    if n ≤ 0 then cutSpans nStripes l pieces
    else
      let (pieces, done) := cutSpan nStripes sp.path (sp.size / n) (sp.size % n)
        (List.range n.toInt.toNat) 0 pieces
      if done then pieces else cutSpans nStripes l pieces

-- The result is missing if the loops take more rounds than allowed.
def buildStripeLayout (fuel : Nat) (spans : List Span) (nStripes : Int64) :
    Option (Except Err (List Piece)) :=
  let total := spans.foldl (fun total sp => total + sp.size) 0
  if nStripes ≤ 0 then some (.error (.other "nStripes must be > 0"))
  else if spans = [] then some (.error (.other "no spans configured"))
  else if nStripes.toInt < spans.length then
    some (.error (.other s!"nStripes ({nStripes}) must be >= number of spans ({spans.length})"))
  else if total = 0 then some (.error (.other "total span size is zero"))
  else
    (adjust fuel spans nStripes (.new spans nStripes total)).map fun a =>
      let pieces := cutSpans nStripes (spans.zip a.alloc) []
      if pieces.length < nStripes.toInt then
        .error (.other s!"insufficient non-zero spans to allocate {nStripes} stripes (got {pieces.length})")
      else .ok pieces

section Arithmetic

variable {a b : Int64} {i : Nat} {l : List Int64}

theorem toInt_add (h₁ : -2 ^ 63 ≤ a.toInt + b.toInt) (h₂ : a.toInt + b.toInt < 2 ^ 63) :
    (a + b).toInt = a.toInt + b.toInt := by
  rw [Int64.toInt_add]
  exact Int.bmod_eq_of_le (by omega) (by omega)

theorem toInt_sub (h₁ : -2 ^ 63 ≤ a.toInt - b.toInt) (h₂ : a.toInt - b.toInt < 2 ^ 63) :
    (a - b).toInt = a.toInt - b.toInt := by
  rw [Int64.toInt_sub]
  exact Int.bmod_eq_of_le (by omega) (by omega)

theorem toInt_div (ha : 0 ≤ a.toInt) (hb : 0 < b.toInt) : (a / b).toInt = a.toInt / b.toInt := by
  have hlt := a.toInt_lt
  have h₀ : 0 ≤ a.toInt / b.toInt := Int.ediv_nonneg ha hb.le
  have hle : a.toInt / b.toInt ≤ a.toInt := Int.ediv_le_self _ ha
  rw [Int64.toInt_div, Int.tdiv_eq_ediv_of_nonneg ha]
  exact Int.bmod_eq_of_le (by omega) (by omega)

theorem toInt_mod (ha : 0 ≤ a.toInt) : (a % b).toInt = a.toInt % b.toInt := by
  rw [Int64.toInt_mod, Int.tmod_eq_emod_of_nonneg ha]

-- Sums of numbers that are not negative are exact up to the limit, and wrap around behind it.
def total (l : List Int64) : Int := (l.map Int64.toInt).sum

@[simp] theorem total_nil : total [] = 0 := rfl

@[simp] theorem total_cons : total (a :: l) = a.toInt + total l := by
  simp [total]

theorem toInt_foldl_add : (l.foldl (· + ·) a).toInt = (a.toInt + total l).bmod (2 ^ 64) := by
  induction l generalizing a
  case nil =>
    have := a.toInt_lt
    have := a.le_toInt
    rw [List.foldl_nil, total_nil, Int.add_zero]
    exact (Int.bmod_eq_of_le (by omega) (by omega)).symm
  case cons b l hi =>
    rw [List.foldl_cons, hi, Int64.toInt_add, total_cons, ← Int.add_assoc, Int.bmod_add_bmod]

theorem total_nonneg (h : ∀ a ∈ l, 0 ≤ a.toInt) : 0 ≤ total l := by
  induction l
  case nil => exact le_rfl
  case cons a l hi =>
    have h₁ := h a (.head _)
    have h₂ := hi fun a ha => h a (.tail _ ha)
    rw [total_cons]
    omega

theorem length_le_total (h : ∀ a ∈ l, 1 ≤ a.toInt) : l.length ≤ total l := by
  induction l
  case nil => exact le_rfl
  case cons a l hi =>
    have h₁ := h a (.head _)
    have h₂ := hi fun a ha => h a (.tail _ ha)
    rw [total_cons, List.length_cons]
    omega

theorem le_total (h : ∀ a ∈ l, 0 ≤ a.toInt) (ha : a ∈ l) : a.toInt ≤ total l := by
  induction l
  case nil => cases ha
  case cons b l hi =>
    have h₁ := h b (.head _)
    have h₂ := total_nonneg fun a ha => h a (.tail _ ha)
    rw [total_cons]
    cases ha
    case head => omega
    case tail ha =>
      have := hi (fun a ha => h a (.tail _ ha)) ha
      omega

-- A change of one number.
theorem total_modify {f : Int64 → Int64} (hi : i < l.length) :
    ∃ a ∈ l, l[i]? = some a ∧ total (l.modify i f) = total l - a.toInt + (f a).toInt := by
  induction l generalizing i
  case nil => exact absurd hi (Nat.not_lt_zero _)
  case cons b l hl =>
    cases i
    case zero => exact ⟨b, .head _, rfl, by simp; omega⟩
    case succ i =>
      have ⟨a, ha, hg, ht⟩ := hl (Nat.lt_of_succ_lt_succ hi)
      refine ⟨a, .tail _ ha, by simpa using hg, ?_⟩
      rw [List.modify_succ_cons, total_cons, ht, total_cons]
      omega

end Arithmetic

section Adjust

variable {spans : List Span} {n : Int64} {a : Alloc} {before : Int64 → Int64 → Bool}

theorem extreme_lt (hs : spans ≠ []) : extreme before spans < spans.length := by
  have hpos := List.length_pos_of_ne_nil hs
  refine List.foldlRecOn (motive := (· < spans.length)) _ _ hpos fun m hm i hi => ?_
  have ⟨_, hlt⟩ := List.mem_range'_1.mp hi
  split
  · omega
  · exact hm

-- There is a number for each of the spans, all of them are positive, and the sum is exact.
structure Alloc.Exact (spans : List Span) (a : Alloc) : Prop where
  length : a.alloc.length = spans.length
  pos    : ∀ k ∈ a.alloc, 1 ≤ k.toInt
  sum    : total a.alloc = a.sumAlloc.toInt

namespace Alloc

theorem sumAlloc_grow {i : Nat} (h : a.sumAlloc.toInt < n.toInt) :
    (a.grow i).sumAlloc.toInt = a.sumAlloc.toInt + 1 := by
  have := n.toInt_lt
  have := a.sumAlloc.le_toInt
  exact toInt_add (by simp; omega) (by simp; omega)

theorem sumAlloc_shrink {i : Nat} (h : n.toInt < a.sumAlloc.toInt) :
    (a.shrink i).sumAlloc.toInt = a.sumAlloc.toInt - 1 := by
  have := n.le_toInt
  have := a.sumAlloc.toInt_lt
  exact toInt_sub (by simp; omega) (by simp; omega)

theorem mem_modify {f : Int64 → Int64} {i : Nat} {l : List Int64} {k x : Int64}
    (hx : l[i]? = some x) (hk : k ∈ l.modify i f) : k ∈ l ∨ k = f x := by
  have ⟨j, hj⟩ := List.mem_iff_getElem?.mp hk
  rw [List.getElem?_modify] at hj
  split at hj
  case isTrue h =>
    subst h
    rw [hx] at hj
    exact .inr (Option.some.inj hj).symm
  case isFalse => exact .inl (List.mem_of_getElem? (by simpa using hj))

theorem Exact.grow {i : Nat} (h : a.Exact spans) (hi : i < spans.length)
    (hn : a.sumAlloc.toInt < n.toInt) : (a.grow i).Exact spans := by
  have ⟨x, hx, hget, ht⟩ := total_modify (f := (· + 1)) (h.length.symm ▸ hi)
  have hle := le_total (fun k hk => by have := h.pos k hk; omega) hx
  have h₁ := h.pos x hx
  have hlt := n.toInt_lt
  have hsum := h.sum
  have hadd : (x + 1).toInt = x.toInt + 1 := toInt_add (by simp; omega) (by simp; omega)
  refine ⟨by simpa [Alloc.grow] using h.length, fun k hk => ?_, ?_⟩
  · rcases mem_modify hget hk with hk | rfl
    · exact h.pos k hk
    · omega
  · rw [sumAlloc_grow hn]
    show total (a.alloc.modify i (· + 1)) = _
    omega

theorem Exact.shrink {i : Nat} {x : Int64} (h : a.Exact spans) (hget : a.alloc[i]? = some x)
    (hx : 1 < x.toInt) (hn : n.toInt < a.sumAlloc.toInt) : (a.shrink i).Exact spans := by
  have ⟨x', _, hget', ht⟩ := total_modify (f := (· - 1)) (List.getElem?_eq_some_iff.mp hget).1
  obtain rfl : x' = x := Option.some.inj (hget'.symm.trans hget)
  have hlt := x'.toInt_lt
  have hsum := h.sum
  have hsub : (x' - 1).toInt = x'.toInt - 1 := toInt_sub (by simp; omega) (by simp; omega)
  refine ⟨by simpa [Alloc.shrink] using h.length, fun k hk => ?_, ?_⟩
  · rcases mem_modify hget hk with hk | rfl
    · exact h.pos k hk
    · omega
  · rw [sumAlloc_shrink hn]
    show total (a.alloc.modify i (· - 1)) = _
    omega

-- With more stripes than spans some span has two of them.
theorem Exact.exists_gt (h : a.Exact spans) (hs : spans.length < a.sumAlloc.toInt) :
    ∃ i x, (a.alloc.findIdx? fun k => decide (k > 1)) = some i ∧ a.alloc[i]? = some x ∧
      1 < x.toInt := by
  cases hi : a.alloc.findIdx? fun k => decide (k > 1)
  case none =>
    have hone : ∀ k ∈ a.alloc, k.toInt ≤ 1 := by
      intro k hk
      have := List.findIdx?_eq_none_iff.mp hi k hk
      simpa [Int64.lt_iff_toInt_lt] using this
    have hle : total a.alloc ≤ a.alloc.length := by
      generalize a.alloc = l at hone
      induction l
      case nil => exact le_rfl
      case cons k l hl =>
        have h₁ := hone k (.head _)
        have h₂ := hl fun k hk => hone k (.tail _ hk)
        rw [total_cons, List.length_cons]
        omega
    have h₁ := h.sum
    have h₂ := h.length
    omega
  case some i =>
    have ⟨hlt, hx, _⟩ := List.findIdx?_eq_some_iff_getElem.mp hi
    exact ⟨i, _, rfl, List.getElem?_eq_getElem hlt, by simpa [Int64.lt_iff_toInt_lt] using hx⟩

theorem Exact.shrinkFirst (h : a.Exact spans) (hs : spans.length ≤ n.toInt)
    (hn : n.toInt < a.sumAlloc.toInt) :
    (a.shrinkFirst spans).Exact spans ∧
      (a.shrinkFirst spans).sumAlloc.toInt = a.sumAlloc.toInt - 1 := by
  have ⟨i, x, hi, hget, hx⟩ := h.exists_gt (by omega)
  have he : a.shrinkFirst spans = a.shrink i := by
    unfold Alloc.shrinkFirst
    rw [hi]
  rw [he]
  exact ⟨h.shrink hget hx hn, sumAlloc_shrink hn⟩

end Alloc

-- The loops end if a sum that is too large is exact. If the sum is exact in any case, the numbers
-- end up with the requested sum.
theorem adjust_total (hs : spans ≠ []) (hlen : spans.length ≤ n.toInt)
    (ha : n.toInt < a.sumAlloc.toInt → a.Exact spans) :
    ∃ a', (∃ k, ∀ fuel, k ≤ fuel → adjust fuel spans n a = some a') ∧
      (a.Exact spans → a'.Exact spans ∧ a'.sumAlloc = n) := by
  have ⟨a₁, ⟨hbig₁, hex₁⟩, hc₁, hw₁⟩ := whileLoop_total
    (c := fun a => decide (a.sumAlloc < n)) (f := Alloc.grow (largest spans)) (s := a)
    (I := fun a' => (n.toInt < a'.sumAlloc.toInt → a'.Exact spans) ∧
      (a.Exact spans → a'.Exact spans))
    (m := fun a' => (n.toInt - a'.sumAlloc.toInt).toNat)
    (by
      intro a' ⟨_, hex⟩ hc
      have hlt : a'.sumAlloc.toInt < n.toInt := by simpa [Int64.lt_iff_toInt_lt] using hc
      have hg := Alloc.sumAlloc_grow (i := largest spans) hlt
      exact ⟨⟨fun hgt => by omega, fun h => (hex h).grow (extreme_lt hs) hlt⟩, by omega⟩)
    ⟨ha, id⟩
  have hle₁ : n.toInt ≤ a₁.sumAlloc.toInt := by
    simpa [Int64.lt_iff_toInt_lt, Int64.le_iff_toInt_le] using hc₁
  have ⟨a₂, ⟨hle₂, hbig₂, hex₂⟩, hc₂, hw₂⟩ := whileLoop_total
    (c := fun a => decide (a.sumAlloc > n)) (f := Alloc.shrinkFirst spans) (s := a₁)
    (I := fun a' => n.toInt ≤ a'.sumAlloc.toInt ∧ (n.toInt < a'.sumAlloc.toInt → a'.Exact spans) ∧
      (a.Exact spans → a'.Exact spans))
    (m := fun a' => (a'.sumAlloc.toInt - n.toInt).toNat)
    (by
      intro a' ⟨hle, hbig, hex⟩ hc
      have hlt : n.toInt < a'.sumAlloc.toInt := by simpa [Int64.lt_iff_toInt_lt] using hc
      have ⟨h₁, h₂⟩ := (hbig hlt).shrinkFirst hlen hlt
      exact ⟨⟨by omega, fun _ => h₁, fun _ => h₁⟩, by omega⟩)
    ⟨hle₁, hbig₁, hex₁⟩
  let rounds := (n.toInt - a.sumAlloc.toInt).toNat + (a₁.sumAlloc.toInt - n.toInt).toNat
  refine ⟨a₂, ⟨rounds + 1, fun fuel hf => ?_⟩, fun h => ⟨hex₂ h, ?_⟩⟩
  case refine_1 =>
    unfold adjust
    rw [hw₁ fuel (by omega)]
    exact hw₂ fuel (by omega)
  case refine_2 =>
    have hge : a₂.sumAlloc.toInt ≤ n.toInt := by
      simpa [Int64.lt_iff_toInt_lt, Int64.le_iff_toInt_le] using hc₂
    exact Int64.toInt_inj.mp (by omega)

end Adjust

section Cut

variable {n base rem off : Int64} {path : String} {z e o : Int} {acc l : List Piece} {j m : Nat}

-- The pieces cover a range of a file one after the other.
def Tiles (path : String) : Int → List Piece → Int → Prop
  | off, [],     e => off = e
  | off, p :: l, e =>
    p.path = path ∧ p.offset.toInt = off ∧ 0 < p.size.toInt ∧ Tiles path (off + p.size.toInt) l e

theorem Tiles.total (h : Tiles path o l e) : total (l.map Piece.size) = e - o := by
  induction l generalizing o
  case nil =>
    have : o = e := h
    simp only [List.map_nil, total_nil]
    omega
  case cons p l hi =>
    have := hi h.2.2.2
    rw [List.map_cons, total_cons]
    omega

theorem Tiles.length_le (h : Tiles path o l e) : l.length ≤ e - o := by
  induction l generalizing o
  case nil =>
    have : o = e := h
    simp only [List.length_nil]
    omega
  case cons p l hi =>
    have ⟨_, _, hpos, h⟩ := h
    have := hi h
    rw [List.length_cons]
    omega

-- With `m` pieces to go, starting with number `j`: the rest of the span is what these pieces have.
-- The pieces cover the span up to `e`, which is its end except if the last stripe has been found
-- before.
theorem cutSpan_spec (path) (hb : 0 ≤ base.toInt) (hz : z < 2 ^ 63) (ho : 0 ≤ off.toInt)
    (hm : z - off.toInt = m * base.toInt + max 0 (rem.toInt - j)) (hr : rem.toInt ≤ j + m)
    (hj : j + m < 2 ^ 63) (hacc : acc.length < n.toInt) :
    ∃ l done e, cutSpan n path base rem (List.range' j m) off acc = (acc ++ l, done) ∧
      Tiles path off.toInt l e ∧ e ≤ z ∧ l.length ≤ m ∧ (l.length = m → e = z) ∧
      (done = true → acc.length + l.length = n.toInt) ∧
      (done = false → acc.length + l.length < n.toInt) := by
  induction m generalizing j off acc
  case zero =>
    refine ⟨[], false, off.toInt, by simp [cutSpan], rfl, ?_, le_rfl, fun _ => ?_, nofun,
      fun _ => by simpa using hacc⟩ <;> simp only [Nat.cast_zero, Int.zero_mul] at hm hr <;> omega
  case succ m hi =>
    have hbm : 0 ≤ m * base.toInt := Int.mul_nonneg (by omega) hb
    have hstep : ((m + 1 : Nat) : Int) * base.toInt = m * base.toInt + base.toInt := by
      push_cast
      ring
    have hofj : (Int64.ofNat j).toInt = j := Int64.toInt_ofNat_of_lt (by omega)
    generalize hchunk : (if Int64.ofNat j < rem then base + 1 else base) = chunk
    have hc : chunk.toInt = base.toInt + (if (j : Int) < rem.toInt then 1 else 0) := by
      subst hchunk
      simp only [Int64.lt_iff_toInt_lt, hofj]
      split
      · exact toInt_add (by simp; omega) (by simp; omega)
      · simp
    have hnext : z - (off.toInt + chunk.toInt)
        = m * base.toInt + max 0 (rem.toInt - ((j + 1 : Nat) : Int)) := by
      rw [hc]
      split <;> omega
    have hc₀ : 0 ≤ chunk.toInt := by
      rw [hc]
      split <;> omega
    have hoff : (off + chunk).toInt = off.toInt + chunk.toInt := toInt_add (by omega) (by omega)
    rw [List.range'_succ, cutSpan, hchunk]
    by_cases hzero : chunk = 0
    · -- An empty chunk is skipped, so that one piece is missing.
      have : chunk.toInt = 0 := by simp [hzero]
      have ⟨l, done, e, hcut, htiles, hez, hlen, _, hd⟩ :=
        hi (j := j + 1) ho (by omega) (by omega) (by omega) hacc
      exact ⟨l, done, e, by rw [if_pos hzero, hcut], htiles, hez, by omega, by omega, hd⟩
    have hpos : 0 < chunk.toInt := by
      have : chunk.toInt ≠ 0 := fun h => hzero (Int64.toInt_inj.mp (by simpa using h))
      omega
    rw [if_neg hzero]
    by_cases hlast : ((acc ++ [⟨path, chunk, off⟩] : List Piece).length : Int) = n.toInt
    · refine ⟨[⟨path, chunk, off⟩], true, off.toInt + chunk.toInt, by rw [if_pos hlast],
        ⟨rfl, rfl, hpos, rfl⟩, by omega, by simp, fun h => ?_, fun _ => ?_, nofun⟩
      · obtain rfl : m = 0 := by simpa using h.symm
        simp only [Nat.cast_zero, Int.zero_mul] at hnext
        omega
      · simpa using hlast
    · have hlen : (acc ++ [⟨path, chunk, off⟩] : List Piece).length = acc.length + 1 := by simp
      have ⟨l, done, e, hcut, htiles, hez, hle, hend, hd, hnd⟩ :=
        hi (j := j + 1) (by omega : 0 ≤ (off + chunk).toInt) (by rw [hoff, hnext]) (by omega) (by omega)
          (by omega : (acc ++ [⟨path, chunk, off⟩] : List Piece).length < n.toInt)
      refine ⟨⟨path, chunk, off⟩ :: l, done, e, ?_, ⟨rfl, rfl, hpos, hoff ▸ htiles⟩, hez, ?_,
        fun h => hend ?_, fun h => ?_, fun h => ?_⟩
      · rw [if_neg hlast, hcut, List.append_assoc]
        rfl
      · simpa using hle
      · simpa using h
      · have := hd h
        rw [List.length_cons]
        omega
      · have := hnd h
        rw [List.length_cons]
        omega

-- The pieces of a span that has `k` of the stripes.
theorem cutSpan_tiles (path) {k size : Int64} (hk : 0 < k.toInt) (hs : 0 ≤ size.toInt)
    (hacc : acc.length < n.toInt) :
    ∃ l done e, cutSpan n path (size / k) (size % k) (List.range k.toInt.toNat) 0 acc
        = (acc ++ l, done) ∧
      Tiles path 0 l e ∧ e ≤ size.toInt ∧ l.length ≤ k.toInt ∧
      (l.length = k.toInt → e = size.toInt) ∧
      (done = true → acc.length + l.length = n.toInt) ∧
      (done = false → acc.length + l.length < n.toInt) := by
  have hq : (size / k).toInt = size.toInt / k.toInt := toInt_div hs hk
  have hr : (size % k).toInt = size.toInt % k.toInt := toInt_mod hs
  have hlt := Int.emod_lt_of_pos size.toInt hk
  have h₀ := Int.emod_nonneg size.toInt hk.ne'
  have hdiv := Int.mul_ediv_add_emod size.toInt k.toInt
  have hkn : (k.toInt.toNat : Int) = k.toInt := Int.toNat_of_nonneg hk.le
  have hkt := k.toInt_lt
  have hbase : 0 ≤ (size / k).toInt := by
    rw [hq]
    exact Int.ediv_nonneg hs hk.le
  have hm : size.toInt - (0 : Int64).toInt =
      k.toInt.toNat * (size / k).toInt + max 0 ((size % k).toInt - (0 : Nat)) := by
    rw [hq, hr, hkn, Int64.toInt_zero]
    omega
  have ⟨l, done, e, hcut, htiles, hez, hle, hend, hd⟩ :=
    cutSpan_spec path hbase size.toInt_lt (by simp) hm (by rw [hr, hkn]; omega) (by omega) hacc
  rw [List.range_eq_range']
  exact ⟨l, done, e, hcut, htiles, hez, by omega, fun h => hend (by omega), hd⟩

variable {l : List (Span × Int64)} {pieces : List Piece}

-- Every piece is a byte of its span at least.
theorem length_cutSpans_le (hz : ∀ x ∈ l, 0 ≤ x.1.size.toInt) (hacc : acc.length < n.toInt) :
    (cutSpans n l acc).length ≤ acc.length + total (l.map (·.1.size)) := by
  induction l generalizing acc
  case nil => simp [cutSpans]
  case cons x l hi =>
    obtain ⟨sp, k⟩ := x
    have hsp : 0 ≤ sp.size.toInt := hz _ (.head _)
    have hz := fun x hx => hz x (.tail _ hx)
    have hrest : 0 ≤ total (l.map (·.1.size)) := by
      refine total_nonneg fun a ha => ?_
      have ⟨x, hx, he⟩ := List.mem_map.mp ha
      exact he ▸ hz x hx
    simp only [cutSpans, List.map_cons, total_cons]
    split
    case isTrue =>
      have := hi hz hacc
      omega
    case isFalse hk =>
      have hk : 0 < k.toInt := by simpa [Int64.le_iff_toInt_le] using hk
      have ⟨l', done, e, hcut, htiles, hez, _, _, _, hnd⟩ :=
        cutSpan_tiles sp.path hk hsp hacc
      have hlen := htiles.length_le
      rw [hcut]
      cases done
      case true =>
        simp only [if_true, List.length_append]
        omega
      case false =>
        have hacc : ((acc ++ l').length : Int) < n.toInt := by simpa using hnd rfl
        have := hi hz hacc
        simp only [List.length_append, Bool.false_eq_true, if_false] at this ⊢
        omega

-- A part of a layout for each of the spans.
def Covers (spans : List Span) (pieces : List Piece) : Prop :=
  ∃ parts, parts.flatten = pieces ∧
    List.Forall₂ (fun (sp : Span) part => part ≠ [] ∧ Tiles sp.path 0 part sp.size.toInt) spans parts

-- If the stripes suffice for the numbers of all spans and no piece is missing, all spans are covered.
theorem cutSpans_covers (hz : ∀ x ∈ l, 0 ≤ x.1.size.toInt) (hk : ∀ k ∈ l.map Prod.snd, 1 ≤ k.toInt)
    (hacc : acc.length < n.toInt) (hn : acc.length + total (l.map Prod.snd) ≤ n.toInt) :
    ∃ pieces, cutSpans n l acc = acc ++ pieces ∧ pieces.length ≤ total (l.map Prod.snd) ∧
      (pieces.length = total (l.map Prod.snd) → Covers (l.map Prod.fst) pieces) := by
  induction l generalizing acc
  case nil => exact ⟨[], by simp [cutSpans], le_rfl, fun _ => ⟨[], rfl, .nil⟩⟩
  case cons x l hi =>
    obtain ⟨sp, k⟩ := x
    have hsp := hz _ (.head _)
    have hz := fun x hx => hz x (.tail _ hx)
    have hk₁ : 1 ≤ k.toInt := hk _ (.head _)
    have hk := fun x hx => hk x (.tail _ hx)
    have hrest := length_le_total hk
    simp only [List.map_cons, total_cons] at hn ⊢
    have ⟨part, done, e, hcut, htiles, hez, hle, hend, hd, hnd⟩ :=
      cutSpan_tiles sp.path (by omega : 0 < k.toInt) hsp hacc
    have hpos : ¬ k ≤ 0 := by
      simp [Int64.le_iff_toInt_le]
      omega
    simp only [cutSpans, if_neg hpos, hcut]
    have hpart (h : (part.length : Int) = k.toInt) :
        part ≠ [] ∧ Tiles sp.path 0 part sp.size.toInt := by
      refine ⟨fun h' => ?_, hend h ▸ htiles⟩
      simp only [h', List.length_nil] at h
      omega
    cases done
    case true =>
      -- The last stripe has been found, so that no span can be left.
      have hlast := hd rfl
      obtain rfl : l = [] := by
        refine List.eq_nil_of_length_eq_zero ?_
        rw [List.length_map] at hrest
        omega
      refine ⟨part, if_pos rfl, by omega, fun h => ⟨[part], by simp, .cons (hpart ?_) .nil⟩⟩
      simpa using h
    case false =>
      have hacc : ((acc ++ part).length : Int) < n.toInt := by simpa using hnd rfl
      have ⟨pieces, hp, hlen, hcov⟩ := hi hz hk hacc
        (by simp only [List.length_append]; omega)
      refine ⟨part ++ pieces, by rw [if_neg nofun, hp, List.append_assoc], ?_, fun h => ?_⟩
      · simp only [List.length_append]
        omega
      · simp only [List.length_append] at h
        have ⟨parts, hflat, hall⟩ := hcov (by omega)
        exact ⟨part :: parts, by rw [List.flatten_cons, hflat], .cons (hpart (by omega)) hall⟩

theorem Covers.total {spans : List Span} (h : Covers spans pieces) :
    total (pieces.map Piece.size) = total (spans.map Span.size) := by
  obtain ⟨parts, rfl, hall⟩ := h
  induction hall
  case nil => rfl
  case cons sp part spans parts hp _ hi =>
    have := hp.2.total
    simp only [List.flatten_cons, List.map_append, List.map_cons, total_cons] at hi ⊢
    simp only [Store.total, List.map_append, List.sum_append] at this hi ⊢
    omega

end Cut

section Layout

variable {spans : List Span} {n t : Int64}

-- The stripes of a span, with sizes up to the total size and without overflow.
theorem toInt_portion {size : Int64} (hs : 0 ≤ size.toInt) (hst : size.toInt ≤ t.toInt)
    (ht : 0 < t.toInt) (hn : 0 < n.toInt) (hfit : t.toInt * n.toInt < 2 ^ 63) :
    1 ≤ (portion n t size).toInt ∧ t.toInt * (portion n t size).toInt
      ≤ size.toInt * n.toInt + t.toInt := by
  have hle : size.toInt * n.toInt ≤ t.toInt * n.toInt := Int.mul_le_mul_of_nonneg_right hst hn.le
  have h₀ : 0 ≤ size.toInt * n.toInt := Int.mul_nonneg hs hn.le
  have hmul : (size * n).toInt = size.toInt * n.toInt := by
    rw [Int64.toInt_mul]
    exact Int.bmod_eq_of_le (by omega) (by omega)
  have hdiv : (size * n / t).toInt = size.toInt * n.toInt / t.toInt := by
    rw [toInt_div (by omega) ht, hmul]
  have hfloor : t.toInt * (size.toInt * n.toInt / t.toInt) ≤ size.toInt * n.toInt :=
    Int.mul_ediv_self_le ht.ne'
  have hq : 0 ≤ size.toInt * n.toInt / t.toInt := Int.ediv_nonneg h₀ ht.le
  unfold portion
  simp only
  split
  case isTrue => simp only [Int64.toInt_one, Int.mul_one]; omega
  case isFalse hne =>
    have : (size * n / t).toInt ≠ 0 := fun h => hne (Int64.toInt_inj.mp (by simpa using h))
    rw [hdiv] at this ⊢
    omega

theorem total_portions (hs : ∀ sp ∈ spans, 0 ≤ sp.size.toInt ∧ sp.size.toInt ≤ t.toInt)
    (ht : 0 < t.toInt) (hn : 0 < n.toInt) (hfit : t.toInt * n.toInt < 2 ^ 63) :
    t.toInt * total (spans.map fun sp => portion n t sp.size)
      ≤ total (spans.map Span.size) * n.toInt + t.toInt * spans.length := by
  induction spans
  case nil => simp
  case cons sp spans hi =>
    have h₁ := (toInt_portion (hs sp (.head _)).1 (hs sp (.head _)).2 ht hn hfit).2
    have h₂ := hi fun sp hsp => hs sp (.tail _ hsp)
    simp only [List.map_cons, total_cons, List.length_cons, Nat.cast_succ, Int.mul_add, Int.add_mul]
    omega

-- The numbers of stripes before the loops.
theorem new_exact (hs : ∀ sp ∈ spans, 0 ≤ sp.size.toInt)
    (ht : t.toInt = total (spans.map Span.size)) (hpos : 0 < t.toInt) (hn : 0 < n.toInt)
    (hlen : spans.length ≤ n.toInt) (hfit : t.toInt * n.toInt < 2 ^ 63) :
    (n.toInt < (Alloc.new spans n t).sumAlloc.toInt → (Alloc.new spans n t).Exact spans) ∧
      (n.toInt ≤ t.toInt → (Alloc.new spans n t).Exact spans) := by
  have hsize : ∀ sp ∈ spans, 0 ≤ sp.size.toInt ∧ sp.size.toInt ≤ t.toInt := by
    refine fun sp hsp => ⟨hs sp hsp, ht ▸ le_total (fun a ha => ?_) (List.mem_map_of_mem hsp)⟩
    have ⟨sp, hsp, he⟩ := List.mem_map.mp ha
    exact he ▸ hs sp hsp
  let alloc := spans.map fun sp => portion n t sp.size
  have hone : ∀ k ∈ alloc, 1 ≤ k.toInt := by
    intro k hk
    have ⟨sp, hsp, he⟩ := List.mem_map.mp hk
    exact he ▸ (toInt_portion (hsize sp hsp).1 (hsize sp hsp).2 hpos hn hfit).1
  have h₀ : 0 ≤ total alloc := total_nonneg fun k hk => by have := hone k hk; omega
  have hle : total alloc ≤ n.toInt + spans.length := by
    have := total_portions hsize hpos hn hfit
    rw [← ht, ← Int.mul_add] at this
    exact Int.le_of_mul_le_mul_left this hpos
  have hsum : (Alloc.new spans n t).sumAlloc.toInt = (total alloc).bmod (2 ^ 64) := by
    show (alloc.foldl (· + ·) 0).toInt = _
    rw [toInt_foldl_add, Int64.toInt_zero, Int.zero_add]
  have hexact (h : total alloc < 2 ^ 63) : (Alloc.new spans n t).Exact spans :=
    ⟨List.length_map .., hone, by rw [hsum, Int.bmod_eq_of_le (by omega) (by omega)]; rfl⟩
  have hlt := n.toInt_lt
  refine ⟨fun h => hexact ?_, fun h => hexact ?_⟩
  · -- A sum that has wrapped around is negative.
    by_contra hbig
    have : (total alloc).bmod (2 ^ 64) = total alloc - 2 ^ 64 := by
      rw [← Int.sub_bmod_right]
      exact Int.bmod_eq_of_le (by omega) (by omega)
    omega
  · -- There are fewer stripes than the root of the limit.
    have hsq : n.toInt * n.toInt < 2 ^ 63 :=
      (Int.mul_le_mul_of_nonneg_right h hn.le).trans_lt hfit
    have : n.toInt < 2 ^ 62 := by
      by_contra hge
      have : 2 ^ 62 * 2 ^ 62 ≤ n.toInt * n.toInt :=
        Int.mul_le_mul (by omega) (by omega) (by omega) (by omega)
      omega
    omega

theorem total_zip_le (ks : List Int64) (hs : ∀ sp ∈ spans, 0 ≤ sp.size.toInt) :
    total ((spans.zip ks).map (·.1.size)) ≤ total (spans.map Span.size) := by
  induction spans generalizing ks
  case nil => exact le_rfl
  case cons sp spans hi =>
    have hsp := hs sp (.head _)
    cases ks
    case nil =>
      refine total_nonneg fun a ha => ?_
      have ⟨sp, hsp, he⟩ := List.mem_map.mp ha
      exact he ▸ hs sp hsp
    case cons k ks =>
      have := hi ks fun sp hsp => hs sp (.tail _ hsp)
      simp only [List.zip_cons_cons, List.map_cons, total_cons]
      omega

-- Sizes are not negative and their sum, taken for every stripe, does not overflow.
theorem buildStripeLayout_covers (hs : ∀ sp ∈ spans, 0 ≤ sp.size.toInt)
    (hfit : total (spans.map Span.size) * n.toInt < 2 ^ 63) :
    ∃ out, (∃ k, ∀ fuel, k ≤ fuel → buildStripeLayout fuel spans n = some out) ∧
      ∀ pieces, out = .ok pieces → pieces.length = n.toInt ∧ Covers spans pieces ∧
        total (pieces.map Piece.size) = total (spans.map Span.size) := by
  unfold buildStripeLayout
  set t := spans.foldl (fun total sp => total + sp.size) 0 with ht
  by_cases hn : n ≤ 0
  · exact ⟨.error _, ⟨0, fun fuel _ => if_pos hn⟩, nofun⟩
  by_cases hne : spans = []
  · exact ⟨.error _, ⟨0, fun fuel _ => by rw [if_neg hn, if_pos hne]⟩, nofun⟩
  by_cases hlen : n.toInt < spans.length
  · exact ⟨.error _, ⟨0, fun fuel _ => by rw [if_neg hn, if_neg hne, if_pos hlen]⟩, nofun⟩
  by_cases hzero : t = 0
  · exact ⟨.error _, ⟨0, fun fuel _ => by rw [if_neg hn, if_neg hne, if_neg hlen, if_pos hzero]⟩, nofun⟩
  simp only [if_neg hn, if_neg hne, if_neg hlen, if_neg hzero]
  have hn : 0 < n.toInt := by simpa [Int64.le_iff_toInt_le] using hn
  have hlen : spans.length ≤ n.toInt := by omega
  have hnonneg : 0 ≤ total (spans.map Span.size) := by
    refine total_nonneg fun a ha => ?_
    have ⟨sp, hsp, he⟩ := List.mem_map.mp ha
    exact he ▸ hs sp hsp
  have htotal : t.toInt = total (spans.map Span.size) := by
    have hle : total (spans.map Span.size) ≤ total (spans.map Span.size) * n.toInt :=
      le_mul_of_one_le_right hnonneg (by omega)
    rw [ht, ← List.foldl_map, toInt_foldl_add, Int64.toInt_zero, Int.zero_add]
    exact Int.bmod_eq_of_le (by omega) (by omega)
  have hpos : 0 < t.toInt := by
    have : t.toInt ≠ 0 := fun h => hzero (Int64.toInt_inj.mp (by simpa using h))
    omega
  have ⟨hbig, hsmall⟩ := new_exact hs htotal hpos hn hlen (htotal ▸ hfit)
  have ⟨a, ⟨k, hk⟩, ha⟩ := adjust_total hne hlen hbig
  refine ⟨_, ⟨k, fun fuel hf => by rw [hk fuel hf, Option.map_some]⟩, fun pieces hp => ?_⟩
  split at hp
  case isTrue => cases hp
  case isFalse hge =>
    obtain rfl := Except.ok.inj hp
    have hz : ∀ x ∈ spans.zip a.alloc, 0 ≤ x.1.size.toInt :=
      fun x hx => hs x.1 (List.of_mem_zip hx).1
    have hacc : (([] : List Piece).length : Int) < n.toInt := by simpa using hn
    have hnt : n.toInt ≤ t.toInt := by
      have h₁ := length_cutSpans_le hz hacc
      have h₂ := total_zip_le a.alloc hs
      rw [List.length_nil] at h₁
      omega
    have ⟨hexact, hsum⟩ := ha (hsmall hnt)
    have hks : (spans.zip a.alloc).map Prod.snd = a.alloc :=
      List.map_snd_zip hexact.length.le
    have htot : total ((spans.zip a.alloc).map Prod.snd) = n.toInt := by
      rw [hks, hexact.sum, hsum]
    have ⟨pieces, hcut, hle, hcov⟩ := cutSpans_covers hz (hks.symm ▸ hexact.pos) hacc
      (by rw [htot, List.length_nil]; omega)
    rw [List.nil_append] at hcut
    rw [hcut] at hge ⊢
    rw [List.map_fst_zip hexact.length.ge] at hcov
    have hcov := hcov (by omega)
    exact ⟨by omega, hcov, hcov.total⟩

-- Three stripes on two spans, one of them twice as large as the other.
theorem buildStripeLayout_covers_sample :
    ∃ out, (∃ k, ∀ fuel, k ≤ fuel →
        buildStripeLayout fuel [⟨"a", 2⟩, ⟨"b", 4⟩] 3 = some out) ∧
      ∀ pieces, out = .ok pieces → pieces.length = (3 : Int64).toInt ∧
        Covers [⟨"a", 2⟩, ⟨"b", 4⟩] pieces ∧ total (pieces.map Piece.size) = 6 :=
  buildStripeLayout_covers (by decide) (by decide)

example : (buildStripeLayout 1 [⟨"a", 2⟩, ⟨"b", 4⟩] 3).map (Except.map (List.map Piece.size))
    = some (.ok [2, 2, 2]) := by decide

end Layout

end Store

end Bakemono
