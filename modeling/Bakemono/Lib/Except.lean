import Mathlib.Tactic

-- Successful runs of computations that may fail.

namespace Except

variable {ε α β : Type} {x : Except ε α} {f : α → Except ε β} {g : α → β} {l : List α} {r : List β}

theorem bind_eq_ok {c : β} : (x >>= f) = .ok c ↔ ∃ a, x = .ok a ∧ f a = .ok c := by
  cases x <;> simp [bind, Except.bind]

theorem isOk_iff {x : Except ε Unit} : x.isOk = true ↔ x = .ok () := by
  cases x <;> simp [isOk, Except.toBool]

theorem map_eq_ok {c : β} : g <$> x = .ok c ↔ ∃ a, x = .ok a ∧ g a = c := by
  cases x <;> simp [Functor.map, Except.map]

theorem mapError_eq_ok {ε' : Type} {f : ε → ε'} {a : α} : x.mapError f = .ok a ↔ x = .ok a := by
  cases x <;> simp [Except.mapError]

theorem mapError_eq_error {ε' : Type} {f : ε → ε'} {e' : ε'} :
    x.mapError f = .error e' ↔ ∃ e, x = .error e ∧ f e = e' := by
  cases x <;> simp [Except.mapError]

theorem bind_eq_error {e : ε} :
    (x >>= f) = .error e ↔ x = .error e ∨ ∃ a, x = .ok a ∧ f a = .error e := by
  cases x <;> simp [bind, Except.bind]

-- The two forms of a check, at the end of a block and in front of another statement.
theorem check_eq_ok {c : Prop} [Decidable c] {e : ε} {y : Except ε α} {a : α} :
    (if c then throw e else y) = .ok a ↔ ¬c ∧ y = .ok a := by
  by_cases h : c <;> simp [h, throw, throwThe, MonadExceptOf.throw]

theorem check_bind_eq_ok {c : Prop} [Decidable c] {e : ε} {f : β → Except ε α} {y : Except ε α}
    {a : α} : (if c then throw e >>= f else y) = .ok a ↔ ¬c ∧ y = .ok a := by
  by_cases h : c <;> simp [h, throw, throwThe, MonadExceptOf.throw, bind, Except.bind]

theorem mapM_eq_ok : l.mapM f = .ok r ↔ List.Forall₂ (f · = .ok ·) l r := by
  induction l generalizing r
  case nil =>
    rw [List.mapM_nil]
    constructor
    case mp =>
      intro h
      cases h
      exact .nil
    case mpr =>
      intro h
      cases h
      rfl
  case cons a l hi =>
    simp only [List.mapM_cons, bind_eq_ok, hi, List.forall₂_cons_left_iff]
    constructor
    case mp =>
      rintro ⟨b, hb, r', hr, h⟩
      cases h
      exact ⟨b, r', hb, hr, rfl⟩
    case mpr =>
      rintro ⟨b, r', hb, hr, rfl⟩
      exact ⟨b, hb, r', hr, rfl⟩

theorem mapM_ok (h : ∀ a ∈ l, f a = .ok (g a)) : l.mapM f = .ok (l.map g) :=
  mapM_eq_ok.mpr <| List.forall₂_map_right_iff.mpr <| List.forall₂_same.mpr h

theorem mem_mapM {b : β} (h : l.mapM f = .ok r) : b ∈ r ↔ ∃ a ∈ l, f a = .ok b := by
  rw [mapM_eq_ok] at h
  induction h
  case nil => simp
  case cons a b' _ _ hf _ hi =>
    rw [List.mem_cons, hi, List.exists_mem_cons_iff, hf, Except.ok.injEq, eq_comm]

theorem exists_of_mem_mapM {b : β} (h : l.mapM f = .ok r) (hb : b ∈ r) : ∃ a ∈ l, f a = .ok b :=
  (mem_mapM h).mp hb

theorem exists_of_mapM {a : α} (h : l.mapM f = .ok r) (ha : a ∈ l) : ∃ b, f a = .ok b := by
  rw [mapM_eq_ok] at h
  induction h
  case nil => cases ha
  case cons hf _ hi =>
    cases ha
    case head => exact ⟨_, hf⟩
    case tail ha => exact hi ha

theorem exists_mapM (h : ∀ a ∈ l, ∃ b, f a = .ok b) : ∃ r, l.mapM f = .ok r := by
  induction l
  case nil => exact ⟨[], rfl⟩
  case cons a l hi =>
    have ⟨b, hb⟩ := h a (by simp)
    have ⟨r, hr⟩ := hi fun a ha => h a (by simp [ha])
    exact ⟨b :: r, mapM_eq_ok.mpr (.cons hb (mapM_eq_ok.mp hr))⟩

theorem length_mapM (h : l.mapM f = .ok r) : r.length = l.length :=
  (mapM_eq_ok.mp h).length_eq.symm

theorem forM_eq_ok {h : α → Except ε PUnit} : forM l h = .ok () ↔ ∀ a ∈ l, h a = .ok () := by
  induction l
  case nil => simp [pure, Except.pure]
  case cons a l hi =>
    simp only [List.forM_cons, bind_eq_ok, hi, List.forall_mem_cons]
    constructor
    case mp =>
      rintro ⟨_, ha, hl⟩
      exact ⟨ha, hl⟩
    case mpr =>
      rintro ⟨ha, hl⟩
      exact ⟨_, ha, hl⟩

theorem foldlM_invariant {step : β → α → Except ε β} (I : β → Prop) {b b' : β}
    (h : ∀ a b b', I b → step b a = .ok b' → I b') (hb : I b) (hf : l.foldlM step b = .ok b') :
    I b' := by
  induction l generalizing b
  case nil =>
    cases hf
    exact hb
  case cons a l hi =>
    rw [List.foldlM_cons, bind_eq_ok] at hf
    have ⟨b₁, h₁, hf⟩ := hf
    exact hi (h a b b₁ hb h₁) hf

-- Computations which do not fail with a certain error.
def Avoids (e : ε) (x : Except ε α) : Prop := x ≠ .error e

namespace Avoids

variable {e e' : ε}

theorem ok {a : α} : Avoids e (.ok a) := nofun

theorem throw (h : e' ≠ e) : Avoids e (throw e' : Except ε α) := fun hc => h (Except.error.inj hc)

theorem bind (hx : Avoids e x) (hf : ∀ a, x = .ok a → Avoids e (f a)) : Avoids e (x >>= f) := by
  cases x
  case error => exact fun h => hx (congrArg Except.error (Except.error.inj h))
  case ok a  => exact hf a rfl

theorem ite {c : Prop} [Decidable c] {x y : Except ε α} (hx : c → Avoids e x) (hy : ¬c → Avoids e y) :
    Avoids e (if c then x else y) := by
  by_cases h : c
  case pos => simpa [h] using hx h
  case neg => simpa [h] using hy h

-- A check in front of another statement.
theorem check {c : Prop} [Decidable c] {f : β → Except ε α} {y : Except ε α} (he : e' ≠ e)
    (hy : ¬c → Avoids e y) : Avoids e (if c then MonadExcept.throw e' >>= f else y) :=
  ite (fun _ => bind (throw he) nofun) hy

end Avoids
end Except
