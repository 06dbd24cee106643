import Bakemono.Dir

namespace Bakemono

-- A directory entry and what it was published for.
structure Entry (μ : Type) where
  dir  : Dir
  mark : μ

-- The directory as a map from keys to entries.
abbrev Table (κ μ : Type) := κ → Option (Entry μ)

-- Operations on other keys of the same bucket change the link of an entry and nothing else.
def Entry.relink {μ : Type} (e : Entry μ) (next : BitVec 16) : Entry μ :=
  { e with dir := e.dir.setNext next }

namespace Table

variable {κ μ : Type} [DecidableEq κ] {t : Table κ μ} {k k' : κ} {e e' : Entry μ}

-- What `Set` does to the other entries: it evicts them or gives them a link.
abbrev Fate (κ : Type) := κ → Option (BitVec 16)

def set (t : Table κ μ) (k : κ) (e : Entry μ) (fate : Fate κ) : Table κ μ := fun k' =>
  if k' = k then some e else (t k').bind fun e' => (fate k').map e'.relink

-- A failed `Set` may have purged entries.
def evict (t : Table κ μ) (fate : Fate κ) : Table κ μ := fun k =>
  (t k).bind fun e => (fate k).map e.relink

def removePhase (t : Table κ μ) (phase : Bool) (links : κ → BitVec 16) : Table κ μ := fun k =>
  ((t k).filter fun e => e.dir.phase != phase).map fun e => e.relink (links k)

-- Every entry of the first table is one of the second table up to its link.
def Below (t' t : Table κ μ) : Prop :=
  ∀ k e', t' k = some e' → ∃ e next, t k = some e ∧ e' = e.relink next

@[simp] theorem set_self (fate : Fate κ) : t.set k e fate k = some e := by
  simp [set]

theorem of_set {fate : Fate κ} (h : t.set k e fate k' = some e') :
    (k' = k ∧ e' = e) ∨ (k' ≠ k ∧ ∃ e₀ next, t k' = some e₀ ∧ e' = e₀.relink next) := by
  unfold set at h
  split at h
  case isTrue hk => exact .inl ⟨hk, (Option.some_inj.mp h).symm⟩
  case isFalse hk =>
    have ⟨e₀, h₀, h⟩ := Option.bind_eq_some_iff.mp h
    have ⟨next, _, h⟩ := Option.map_eq_some_iff.mp h
    exact .inr ⟨hk, e₀, next, h₀, h.symm⟩

omit [DecidableEq κ] in
theorem below_evict (fate : Fate κ) : (t.evict fate).Below t := by
  intro k e' h
  have ⟨e, he, h⟩ := Option.bind_eq_some_iff.mp h
  have ⟨next, _, h⟩ := Option.map_eq_some_iff.mp h
  exact ⟨e, next, he, h.symm⟩

omit [DecidableEq κ] in
theorem of_removePhase {phase : Bool} {links : κ → BitVec 16}
    (h : t.removePhase phase links k = some e') :
    ∃ e next, t k = some e ∧ e' = e.relink next ∧ e.dir.phase ≠ phase := by
  have ⟨e, he, h⟩ := Option.map_eq_some_iff.mp h
  have ⟨he, hp⟩ := Option.filter_eq_some_iff.mp he
  exact ⟨e, links k, he, h.symm, by simpa using hp⟩

omit [DecidableEq κ] in
theorem Below.refl : t.Below t :=
  fun _ e h => ⟨e, e.dir.next, h, rfl⟩

omit [DecidableEq κ] in
theorem Below.trans {t₁ t₂ t₃ : Table κ μ} (h₁ : t₁.Below t₂) (h₂ : t₂.Below t₃) : t₁.Below t₃ := by
  intro k e h
  have ⟨e₂, n, h, he⟩ := h₁ k e h
  have ⟨e₃, _, h, he₃⟩ := h₂ k e₂ h
  exact ⟨e₃, n, h, by rw [he, he₃]; rfl⟩

end Table
end Bakemono
