import Bakemono.Lib.Bytes

-- Numbers and digests in texts of ASCII characters.

namespace Bytes

def ascii (l : List Char) : Bytes := l.map fun c => .ofNat c.toNat

def text (s : String) : Bytes := ascii s.toList

def decimal (n : Nat) : Bytes := ascii (Nat.toDigits 10 n)

def hexDigit (n : Nat) : UInt8 := .ofNat (if n < 10 then 48 + n else 87 + n)

def hex (l : Bytes) : Bytes :=
  l.flatMap fun b => [hexDigit (b.toNat / 16), hexDigit (b.toNat % 16)]

def trimPrefix (pre l : Bytes) : Bytes := if pre.isPrefixOf l then l.drop pre.length else l

variable {m n : Nat} {l l₁ l₂ : Bytes} {b : UInt8}

theorem toNat_of_isDigit {c : Char} (h : c.isDigit = true) : 48 ≤ c.toNat ∧ c.toNat ≤ 57 := by
  simp only [Char.isDigit, Bool.and_eq_true, decide_eq_true_eq] at h
  exact h

theorem mem_decimal (h : b ∈ decimal n) : 48 ≤ b.toNat ∧ b.toNat ≤ 57 := by
  have ⟨c, hc, he⟩ := List.mem_map.mp h
  have := toNat_of_isDigit (Nat.isDigit_of_mem_toDigits (by decide) (by decide) hc)
  rw [← he, UInt8.toNat_ofNat']
  omega

theorem notMem_decimal (h : b.toNat < 48 ∨ 57 < b.toNat) : b ∉ decimal n := by
  intro hb
  have := mem_decimal hb
  omega

theorem map_decimal : (decimal n).map (fun b => Char.ofNat b.toNat) = Nat.toDigits 10 n := by
  rw [decimal, ascii, List.map_map]
  refine (List.map_congr_left fun c hc => ?_).trans (List.map_id _)
  have := toNat_of_isDigit (Nat.isDigit_of_mem_toDigits (by decide) (by decide) hc)
  simp only [Function.comp_apply, UInt8.toNat_ofNat', Nat.mod_eq_of_lt (by omega : c.toNat < 2 ^ 8),
    Char.ofNat_toNat, id]

theorem decimal_inj (h : decimal m = decimal n) : m = n := by
  have hd : Nat.toDigits 10 m = Nat.toDigits 10 n := by rw [← map_decimal, h, map_decimal]
  rw [← Nat.ofDigitChars_toDigits (b := 10) (n := m) (by decide) (by decide), hd,
    Nat.ofDigitChars_toDigits (by decide) (by decide)]

@[simp] theorem length_hex : (hex l).length = 2 * l.length :=
  length_flatMap fun _ _ => rfl

theorem hexDigit_inj (hm : m < 16) (hn : n < 16) (h : hexDigit m = hexDigit n) : m = n := by
  interval_cases m <;> interval_cases n <;> revert h <;> decide

theorem hex_inj (h : hex l₁ = hex l₂) : l₁ = l₂ := by
  induction l₁ generalizing l₂
  case nil => cases l₂ <;> simp_all [hex]
  case cons b l₁ hi =>
    cases l₂
    case nil => simp [hex] at h
    case cons b' l₂ =>
      simp only [hex, List.flatMap_cons, List.cons_append, List.nil_append, List.cons.injEq] at h
      have hb := b.toNat_lt
      have hb' := b'.toNat_lt
      have h₁ := hexDigit_inj (by omega) (by omega) h.1
      have h₂ := hexDigit_inj (by omega) (by omega) h.2.1
      rw [hi h.2.2, UInt8.toNat_inj.mp (by omega : b.toNat = b'.toNat)]

-- Texts are split at the first or at the last separator.
theorem split_first {x₁ x₂ z₁ z₂ : Bytes} (h₁ : b ∉ x₁) (h₂ : b ∉ x₂)
    (h : x₁ ++ b :: z₁ = x₂ ++ b :: z₂) : x₁ = x₂ ∧ z₁ = z₂ := by
  induction x₁ generalizing x₂
  case nil =>
    cases x₂
    case nil => simpa using h
    case cons a x₂ => exact absurd (List.cons.inj h).1 fun he => h₂ (by simp [he])
  case cons a x₁ hi =>
    cases x₂
    case nil => exact absurd (List.cons.inj h).1 fun he => h₁ (by simp [he])
    case cons a' x₂ =>
      simp only [List.cons_append, List.cons.injEq, List.mem_cons, not_or] at h h₁ h₂
      have ⟨hx, hz⟩ := hi h₁.2 h₂.2 h.2
      exact ⟨by rw [h.1, hx], hz⟩

theorem split_last {x₁ x₂ z₁ z₂ : Bytes} (h₁ : b ∉ z₁) (h₂ : b ∉ z₂)
    (h : x₁ ++ b :: z₁ = x₂ ++ b :: z₂) : x₁ = x₂ ∧ z₁ = z₂ := by
  have hr := congrArg List.reverse h
  simp only [List.reverse_append, List.reverse_cons, List.append_assoc, List.singleton_append] at hr
  have ⟨hz, hx⟩ := split_first (by simpa using h₁) (by simpa using h₂) hr
  exact ⟨List.reverse_injective hx, List.reverse_injective hz⟩

-- The parts between separators do not contain the separator.
theorem notMem_of_mem_splitOn {x : Bytes} (h : x ∈ l.splitOn b) : b ∉ x := by
  rw [List.splitOn_eq_splitOnP] at h
  induction l generalizing x
  case nil =>
    cases List.mem_singleton.mp h
    exact List.not_mem_nil
  case cons a l hi =>
    rw [List.splitOnP_cons_eq_if_modifyHead] at h
    split at h
    case isTrue =>
      cases h
      case head => exact List.not_mem_nil
      case tail h => exact hi h
    case isFalse ha =>
      have hne : b ≠ a := by simpa using Ne.symm (by simpa using ha)
      cases hs : l.splitOnP (· == b)
      case nil => simp [hs] at h
      case cons y ys =>
        rw [hs] at h hi
        cases h
        case head => simp [hne, hi (.head _)]
        case tail h => exact hi (.tail _ h)

def sorted (ls : List Bytes) : List Bytes := ls.mergeSort fun x y => decide (x ≤ y)

theorem pairwise_sorted (ls : List Bytes) : (sorted ls).Pairwise fun x y => decide (x ≤ y) = true := by
  apply List.pairwise_mergeSort
  case trans => simpa using fun x y z => List.le_trans
  case total => simpa using List.le_total

theorem sorted_eq_sorted_iff {ls ls' : List Bytes} : sorted ls = sorted ls' ↔ ls.Perm ls' := by
  have hperm (ls : List Bytes) : (sorted ls).Perm ls := List.mergeSort_perm ..
  constructor
  case mp => exact fun h => (hperm ls).symm.trans (h ▸ hperm ls')
  case mpr =>
    intro h
    refine List.Perm.eq_of_pairwise ?_ (pairwise_sorted ls) (pairwise_sorted ls')
      ((hperm ls).trans (h.trans (hperm ls').symm))
    intro x y _ _ hx hy
    exact List.le_antisymm (by simpa using hx) (by simpa using hy)

-- Sorting the parts of a text forgets their order and nothing else.
theorem intercalate_sorted_inj {x y : Bytes} :
    [b].intercalate (sorted (x.splitOn b)) = [b].intercalate (sorted (y.splitOn b)) ↔
    (x.splitOn b).Perm (y.splitOn b) := by
  have hsplit (x : Bytes) :
      ([b].intercalate (sorted (x.splitOn b))).splitOn b = sorted (x.splitOn b) := by
    have hp : (sorted (x.splitOn b)).Perm (x.splitOn b) := List.mergeSort_perm ..
    apply List.splitOn_intercalate
    case hx => exact fun z hz => notMem_of_mem_splitOn (hp.mem_iff.mp hz)
    case hls =>
      intro hn
      rw [hn] at hp
      exact absurd hp.nil_eq.symm (by rw [List.splitOn_eq_splitOnP]; exact List.splitOnP_ne_nil _ _)
  rw [← sorted_eq_sorted_iff]
  constructor
  case mp => exact fun h => by rw [← hsplit x, h, hsplit y]
  case mpr => exact fun h => by rw [h]

end Bytes
