import Mathlib.Tactic.Common

/-! # Owners and resources

A ledger says which resources are in use and who owns which. Two properties of
it matter: no resource has two owners and an owned one is in use, and nothing
is in use without an owner. Taking and giving back keep both; an owner that
disappears together with its claim keeps the first only.
-/

namespace Ownership

universe u v

variable {κ : Type u} {ι : Type v}

structure Ledger (κ : Type u) (ι : Type v) where
  used : ι → Prop
  owns : κ → ι → Prop

namespace Ledger

/-- What is owned is in use, and has one owner. -/
structure Exclusive (s : Ledger κ ι) : Prop where
  used : ∀ o i, s.owns o i → s.used i
  unique : ∀ o o' i, s.owns o i → s.owns o' i → o = o'

/-- What is in use has an owner. -/
def Accounted (s : Ledger κ ι) : Prop := ∀ i, s.used i → ∃ o, s.owns o i

/-- The ways a ledger changes. -/
inductive Move (s s' : Ledger κ ι) : Prop where
  /-- Nothing changes. -/
  | stay (hused : ∀ i, s'.used i ↔ s.used i) (howns : ∀ o i, s'.owns o i ↔ s.owns o i)
  /-- Somebody takes a free resource. -/
  | take (o : κ) (i : ι) (hfree : ¬ s.used i) (hused : ∀ j, s'.used j ↔ s.used j ∨ j = i)
      (howns : ∀ o' j, s'.owns o' j ↔ s.owns o' j ∨ o' = o ∧ j = i)
  /-- An owner gives its only resource back. -/
  | give (o : κ) (i : ι) (hown : s.owns o i) (honly : ∀ j, s.owns o j → j = i)
      (hused : ∀ j, s'.used j ↔ s.used j ∧ j ≠ i)
      (howns : ∀ o' j, s'.owns o' j ↔ s.owns o' j ∧ o' ≠ o)

variable {s s' : Ledger κ ι}

theorem Move.exclusive (h : Move s s') (hs : s.Exclusive) : s'.Exclusive := by
  cases h with
  | stay hused howns =>
      constructor
      · intro o i hown
        exact (hused i).mpr (hs.used o i ((howns o i).mp hown))
      · intro o o' i hown hown'
        exact hs.unique o o' i ((howns o i).mp hown) ((howns o' i).mp hown')
  | take o i hfree hused howns =>
      constructor
      · intro o' j hown
        rw [hused]
        rcases (howns o' j).mp hown with hold | ⟨_, hj⟩
        · exact .inl (hs.used o' j hold)
        · exact .inr hj
      · -- the new owner is the only one, because the resource was free
        intro o₁ o₂ j h₁ h₂
        rcases (howns o₁ j).mp h₁ with h₁ | ⟨rfl, rfl⟩
        · rcases (howns o₂ j).mp h₂ with h₂ | ⟨_, rfl⟩
          · exact hs.unique o₁ o₂ j h₁ h₂
          · exact absurd (hs.used o₁ j h₁) hfree
        · rcases (howns o₂ j).mp h₂ with h₂ | ⟨rfl, _⟩
          · exact absurd (hs.used o₂ j h₂) hfree
          · rfl
  | give o i hown _ hused howns =>
      constructor
      · intro o' j hown'
        rcases (howns o' j).mp hown' with ⟨hold, hne⟩
        refine (hused j).mpr ⟨hs.used o' j hold, ?_⟩
        rintro rfl
        exact hne (hs.unique o' o j hold hown)
      · intro o₁ o₂ j h₁ h₂
        exact hs.unique o₁ o₂ j ((howns o₁ j).mp h₁).1 ((howns o₂ j).mp h₂).1

theorem Move.accounted (h : Move s s') (hs : s.Accounted) : s'.Accounted := by
  cases h with
  | stay hused howns =>
      intro i hi
      rcases hs i ((hused i).mp hi) with ⟨o, hown⟩
      exact ⟨o, (howns o i).mpr hown⟩
  | take o i hfree hused howns =>
      intro j hj
      rcases (hused j).mp hj with hold | rfl
      · rcases hs j hold with ⟨o', hown⟩
        exact ⟨o', (howns o' j).mpr (.inl hown)⟩
      · exact ⟨o, (howns o j).mpr (.inr ⟨rfl, rfl⟩)⟩
  | give o i hown honly hused howns =>
      intro j hj
      rcases (hused j).mp hj with ⟨hold, hne⟩
      rcases hs j hold with ⟨o', hown'⟩
      refine ⟨o', (howns o' j).mpr ⟨hown', ?_⟩⟩
      rintro rfl
      exact hne (honly j hown')

/-- Owners that disappear leave their resources in use. -/
theorem Exclusive.drop (hs : s.Exclusive) (hused : ∀ i, s.used i → s'.used i)
    (howns : ∀ o i, s'.owns o i → s.owns o i) : s'.Exclusive where
  used := fun o i hown => hused i (hs.used o i (howns o i hown))
  unique := fun o o' i hown hown' => hs.unique o o' i (howns o i hown) (howns o' i hown')

end Ledger

end Ownership
