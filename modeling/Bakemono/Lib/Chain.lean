import Mathlib.Tactic

-- Chains of cells that are linked by index. The index `0` is the end mark.

namespace Chain

-- Following `next` from `i` visits exactly the cells `l`, in order, and then arrives at `j`.
def Path (next : Nat → Nat) : Nat → List Nat → Nat → Prop
  | i, [],     j => i = j
  | i, x :: l, j => i = x ∧ x ≠ 0 ∧ Path next (next x) l j

-- Each cell of `l` points back at the one before it, and the first one at `p`.
def Back (prev : Nat → Nat) : Nat → List Nat → Prop
  | _, []     => True
  | p, x :: l => prev x = p ∧ Back prev x l

variable {next next' prev prev' : Nat → Nat} {i j k p x y : Nat} {l l₁ l₂ : List Nat}

namespace Path

@[simp] theorem nil_iff : Path next i [] j ↔ i = j := .rfl

@[simp] theorem cons_iff : Path next i (x :: l) j ↔ i = x ∧ x ≠ 0 ∧ Path next (next x) l j := .rfl

theorem append_iff : Path next i (l₁ ++ l₂) k ↔ ∃ j, Path next i l₁ j ∧ Path next j l₂ k := by
  induction l₁ generalizing i
  case nil => simp
  case cons hi => simp [hi, and_assoc]

theorem congr (h : Path next i l j) (hc : ∀ x ∈ l, next' x = next x) : Path next' i l j := by
  induction l generalizing i
  case nil => exact h
  case cons x l hi =>
    have ⟨h₁, h₂, h₃⟩ := h
    refine ⟨h₁, h₂, ?_⟩
    rw [hc x (by simp)]
    exact hi h₃ (fun y hy => hc y (by simp [hy]))

theorem ne_zero (h : Path next i l j) (hx : x ∈ l) : x ≠ 0 := by
  induction l generalizing i
  case nil => simp at hx
  case cons hi =>
    have ⟨_, h₂, h₃⟩ := h
    cases List.mem_cons.mp hx
    case inl hx => exact hx ▸ h₂
    case inr hx => exact hi h₃ hx

theorem deterministic (h₁ : Path next i l₁ 0) (h₂ : Path next i l₂ 0) : l₁ = l₂ := by
  induction l₁ generalizing i l₂ <;> cases l₂
  case nil.nil => rfl
  case nil.cons => exact absurd (h₂.1 ▸ h₁) h₂.2.1
  case cons.nil => exact absurd (h₁.1 ▸ h₂) h₁.2.1
  case cons.cons hi _ _ =>
    have h := h₁.1.symm.trans h₂.1
    subst h
    rw [hi h₁.2.2 h₂.2.2]

-- A chain that ends is acyclic: a repeated cell would have two continuations of different lengths.
theorem not_mem (h : Path next (next x) l 0) : x ∉ l := by
  intro hx
  have ⟨l₁, l₂, he⟩ := List.append_of_mem hx
  have ⟨_, _, h₂⟩ := append_iff.mp (he ▸ h)
  have hl := deterministic h h₂.2.2
  have := congrArg List.length (hl.symm.trans he)
  simp at this
  omega

theorem nodup (h : Path next i l 0) : l.Nodup := by
  induction l generalizing i
  case nil => exact List.nodup_nil
  case cons hi => exact List.nodup_cons.mpr ⟨not_mem h.2.2, hi h.2.2⟩

theorem head?_eq (h : Path next i l 0) : l.head?.getD 0 = i := by
  cases l
  case nil => exact h.symm
  case cons => simp [h.1]

-- Unlinking the cell `y`, which stands behind `x`.
theorem unlink (h : Path next i (l₁ ++ x :: y :: l₂) j) (hx : next' x = next y)
    (hc : ∀ z ∈ l₁ ++ l₂, next' z = next z) : Path next' i (l₁ ++ x :: l₂) j := by
  have ⟨_, h₁, h₂⟩ := append_iff.mp h
  simp only [cons_iff] at h₂
  refine append_iff.mpr ⟨_, h₁.congr (fun z hz => hc z (by simp [hz])), ?_⟩
  simp only [cons_iff, hx]
  exact ⟨h₂.1, h₂.2.1, h₂.2.2.2.2.congr (fun z hz => hc z (by simp [hz]))⟩

-- Appending the cell `x` to a chain whose first cell is `i`, which may be the index `0`.
theorem snoc (h : Path next (next i) l 0) (hd : (i :: l).Nodup) (hx : x ≠ 0) (hn : next' x = 0)
    (hc : ∀ y ∈ i :: l, next' y = if y = (i :: l).getLastD 0 then x else next y) :
    Path next' (next' i) (l ++ [x]) 0 := by
  induction l generalizing i
  case nil => exact ⟨by simpa using hc i, hx, hn⟩
  case cons k l hi =>
    have ⟨h₁, h₂, h₃⟩ := h
    have ⟨hd₁, hd₂⟩ := List.nodup_cons.mp hd
    have hl : (i :: k :: l).getLastD 0 = (k :: l).getLastD 0 := by simp
    have hm : (k :: l).getLastD 0 ∈ k :: l := by
      rw [List.getLastD_eq_getLast?, List.getLast?_eq_getLast_of_ne_nil (by simp)]
      exact List.getLast_mem _
    refine ⟨?_, h₂, hi h₃ hd₂ fun y hy => hl ▸ hc y (by simp at hy ⊢; tauto)⟩
    rw [hc i (by simp), hl, if_neg (by rintro he; exact hd₁ (he ▸ hm)), h₁]

-- Cutting the cell `x` out of a chain whose first cell is `i`.
theorem cut (h : Path next (next i) (l₁ ++ x :: l₂) 0) (hd : (i :: l₁ ++ x :: l₂).Nodup)
    (hc : ∀ y ∈ i :: l₁ ++ l₂, next' y = if y = (i :: l₁).getLastD 0 then next x else next y) :
    Path next' (next' i) (l₁ ++ l₂) 0 := by
  induction l₁ generalizing i
  case nil =>
    have ⟨_, _, hp⟩ := h
    have hi : i ∉ l₂ := by simp at hd; tauto
    rw [show next' i = next x by simpa using hc i (by simp)]
    refine hp.congr fun y hy => ?_
    rw [hc y (by simp [hy]), if_neg]
    rintro rfl
    exact hi (by simpa using hy)
  case cons k l₁ hi =>
    have ⟨h₁, h₂, h₃⟩ := h
    have ⟨hd₁, hd₂⟩ := List.nodup_cons.mp hd
    have hl : (i :: k :: l₁).getLastD 0 = (k :: l₁).getLastD 0 := by simp
    have hm : (k :: l₁).getLastD 0 ∈ k :: l₁ := by
      rw [List.getLastD_eq_getLast?, List.getLast?_eq_getLast_of_ne_nil (by simp)]
      exact List.getLast_mem _
    refine ⟨?_, h₂, hi h₃ hd₂ fun y hy => hl ▸ hc y (by simp at hy ⊢; tauto)⟩
    rw [hc i (by simp), hl, if_neg, h₁]
    intro he
    exact hd₁ (List.mem_append_left _ (he ▸ hm))

end Path

namespace Back

@[simp] theorem nil_iff : Back prev p [] ↔ True := .rfl

@[simp] theorem cons_iff : Back prev p (x :: l) ↔ prev x = p ∧ Back prev x l := .rfl

theorem congr (h : Back prev p l) (hc : ∀ x ∈ l, prev' x = prev x) : Back prev' p l := by
  induction l generalizing p
  case nil => trivial
  case cons x l hi =>
    refine ⟨(hc x (by simp)).trans h.1, ?_⟩
    exact hi h.2 (fun y hy => hc y (by simp [hy]))

theorem append_iff : Back prev p (l₁ ++ l₂) ↔ Back prev p l₁ ∧ Back prev (l₁.getLastD p) l₂ := by
  induction l₁ generalizing p
  case nil => simp [List.getLastD]
  case cons x l hi => rw [List.cons_append, cons_iff, cons_iff, hi, List.getLastD_cons, and_assoc]

theorem eq_getLastD (h : Back prev p (l₁ ++ x :: l₂)) : prev x = l₁.getLastD p :=
  (append_iff.mp h).2.1

end Back

-- A chain that is linked in both directions.
structure Doubly (next prev : Nat → Nat) (i : Nat) (l : List Nat) : Prop where
  path : Path next i l 0
  back : Back prev 0 l

namespace Doubly

theorem next_mem (h : Doubly next prev i l) (hx : x ∈ l) : next x = 0 ∨ next x ∈ l := by
  have ⟨l₁, l₂, he⟩ := List.append_of_mem hx
  subst he
  have ⟨_, _, hp⟩ := Path.append_iff.mp h.path
  cases l₂
  case nil => exact .inl hp.2.2
  case cons => exact .inr (by simp [hp.2.2.1])

theorem prev_mem (h : Doubly next prev i l) (hx : x ∈ l) : prev x = 0 ∨ prev x ∈ l := by
  have ⟨l₁, l₂, he⟩ := List.append_of_mem hx
  subst he
  have hb := h.back.eq_getLastD
  cases l₁ using List.reverseRecOn
  case nil => exact .inl hb
  case append_singleton => exact .inr (by simp [hb])

theorem prev_ne (h : Doubly next prev i l) (hx : x ∈ l) : prev x ≠ x := by
  have ⟨l₁, l₂, he⟩ := List.append_of_mem hx
  subst he
  have hb := h.back.eq_getLastD
  cases l₁ using List.reverseRecOn
  case nil => exact fun hc => h.path.ne_zero hx (hc.symm.trans hb)
  case append_singleton l y _ =>
    have hd := h.path.nodup
    simp only [List.getLastD_concat] at hb
    rw [hb]
    rintro rfl
    simp [List.nodup_append] at hd

-- Unlinking the cell `x` from its neighbours.
theorem erase (h : Doubly next prev i l) (hx : x ∈ l)
    (hi : j = if prev x = 0 then next x else i)
    (hn : ∀ y ∈ l, y ≠ x → next' y = if y = prev x then next x else next y)
    (hp : ∀ y ∈ l, y ≠ x → prev' y = if y = next x then prev x else prev y) :
    Doubly next' prev' j (l.erase x) := by
  have ⟨l₁, l₂, he⟩ := List.append_of_mem hx
  subst he
  have hd := h.path.nodup
  have hz {y} (hy : y ∈ l₁ ++ x :: l₂) : y ≠ 0 := h.path.ne_zero hy
  have hb := h.back.eq_getLastD
  have hd' := List.nodup_append.mp hd
  have h₁ : x ∉ l₁ := fun hc => hd'.2.2 x hc x (by simp) rfl
  have h₂ : x ∉ l₂ := (List.nodup_cons.mp hd'.2.1).1
  have h₃ {y} (hy : y ∈ l₁) : y ∉ l₂ := fun hc => hd'.2.2 y hy y (by simp [hc]) rfl
  rw [List.erase_append_right _ h₁, List.erase_cons_head]
  constructor
  case path =>
    cases l₁ using List.reverseRecOn
    case nil =>
      simp only [List.getLastD_nil] at hb
      simp only [hi, hb, if_true, List.nil_append]
      refine h.path.2.2.congr fun y hy => ?_
      rw [hn y (by simp [hy]) (by rintro rfl; exact h₂ hy), if_neg (hb ▸ hz (by simp [hy]))]
    case append_singleton l y _ =>
      simp only [List.getLastD_concat] at hb
      have hy : y ≠ 0 := hz (by simp)
      simp only [hi, hb, hy, if_false]
      have hp' := h.path
      rw [List.append_assoc] at hp' ⊢
      refine hp'.unlink (by rw [hn y (by simp) (by rintro rfl; simp at h₁), hb, if_pos rfl]) ?_
      intro z hm
      have hzy : z ≠ y := by
        rintro rfl
        have hd'' := List.nodup_append.mp hd'.1
        cases List.mem_append.mp hm
        case inl hm => exact hd''.2.2 z hm z (by simp) rfl
        case inr hm => exact h₃ (by simp) hm
      have hzx : z ≠ x := by
        rintro rfl
        simp at hm h₁
        tauto
      rw [hn z (by simp at hm ⊢; tauto) hzx, hb, if_neg hzy]
  case back =>
    have ⟨hk₁, hk₂⟩ := Back.append_iff.mp h.back
    have hn' : next x = l₂.head?.getD 0 := by
      have ⟨_, _, hp⟩ := Path.append_iff.mp h.path
      exact hp.2.2.head?_eq.symm
    refine Back.append_iff.mpr ⟨hk₁.congr fun y hy => ?_, ?_⟩
    case refine_1 =>
      have hyn : y ≠ next x := by
        rintro rfl
        cases l₂
        case nil => exact hz (by simp [hy]) hn'
        case cons => exact h₃ hy (by simp [hn'])
      rw [hp y (by simp [hy]) (by rintro rfl; exact h₁ hy), if_neg hyn]
    case refine_2 =>
      cases l₂
      case nil => trivial
      case cons y l =>
        simp only [List.head?_cons, Option.getD_some] at hn'
        refine ⟨?_, hk₂.2.2.congr fun z hl => ?_⟩
        case refine_1 => rw [hp y (by simp) (by rintro rfl; simp at h₂), if_pos hn'.symm, hb]
        case refine_2 =>
          have hzy : z ≠ y := by
            rintro rfl
            have hd'' := (List.nodup_cons.mp hd'.2.1).2
            simp [hl] at hd''
          rw [hp z (by simp [hl]) (by rintro rfl; simp [hl] at h₂), if_neg (hn' ▸ hzy)]

-- Pushing the cell `x`, which has no predecessor, on the chain.
theorem push (h : Doubly next prev i l) (hx : x ≠ 0) (hl : x ∉ l) (hn : next' x = i)
    (hp : prev' x = 0) (hc : ∀ y ∈ l, next' y = next y)
    (hb : ∀ y ∈ l, prev' y = if y = i then x else prev y) : Doubly next' prev' x (x :: l) := by
  refine ⟨⟨rfl, hx, hn ▸ h.path.congr hc⟩, hp, ?_⟩
  cases l
  case nil => trivial
  case cons y l =>
    have hi := h.path.1
    refine ⟨by rw [hb y (by simp), if_pos hi.symm], h.back.2.congr fun z hz => ?_⟩
    have hd := (List.nodup_cons.mp h.path.nodup).1
    rw [hb z (by simp [hz]), if_neg (by rintro rfl; exact hd (hi ▸ hz))]

-- Appending the cell `x`, which has no successor, to the chain.
theorem concat (h : Doubly next prev i l) (hx : x ≠ 0) (hl : x ∉ l)
    (hj : j = if l = [] then x else i) (hn : next' x = 0) (hp : prev' x = l.getLastD 0)
    (hc : ∀ y ∈ l, next' y = if y = l.getLastD 0 then x else next y)
    (hb : ∀ y ∈ l, prev' y = prev y) : Doubly next' prev' j (l ++ [x]) := by
  constructor
  case back => exact Back.append_iff.mpr ⟨h.back.congr hb, hp, trivial⟩
  case path =>
    cases l using List.reverseRecOn
    case nil => exact ⟨by simpa using hj, hx, hn⟩
    case append_singleton l y _ =>
      have ⟨a, h₁, h₂⟩ := Path.append_iff.mp h.path
      have hd := List.nodup_append.mp h.path.nodup
      simp only [List.getLastD_concat] at hc
      rw [hj, if_neg (by simp), List.append_assoc]
      refine Path.append_iff.mpr ⟨a, h₁.congr fun z hz => ?_, h₂.1, h₂.2.1, ?_, hx, hn⟩
      case refine_1 => rw [hc z (by simp [hz]), if_neg (hd.2.2 z hz y (by simp))]
      case refine_2 => rw [hc y (by simp), if_pos rfl]

end Doubly
end Chain
