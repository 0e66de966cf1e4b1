import Mathlib.Data.List.Basic
import Mathlib.Tactic.Common

/-! # Finite runs of a labelled transition relation

A system is a relation `step : σ → α → σ → Prop`; a run is a finite list of
labels with the states between them left implicit. Everything here is proved
from the inductive definition; the rules below (composition, invariants,
conditional invariants, refinement of the step relation, runs of a step
*function*) are what the developments of the individual systems build on.
-/

namespace Lts

universe u v w

variable {σ : Type u} {α : Type v}

/-- `Run step s as t`: performing the labels `as` one after the other leads
from `s` to `t`. -/
inductive Run (step : σ → α → σ → Prop) : σ → List α → σ → Prop where
  | nil (s : σ) : Run step s [] s
  | cons {s t u : σ} {a : α} {as : List α} :
      step s a t → Run step t as u → Run step s (a :: as) u

/-- `t` is reached from `s` by some run. -/
def Reaches (step : σ → α → σ → Prop) (s t : σ) : Prop := ∃ as, Run step s as t

namespace Run

variable {step step' : σ → α → σ → Prop} {s t u : σ} {a : α} {as bs : List α}

theorem single (h : step s a t) : Run step s [a] t := .cons h (.nil t)

/-- Runs compose. -/
theorem append (h₁ : Run step s as t) (h₂ : Run step t bs u) :
    Run step s (as ++ bs) u := by
  induction h₁ with
  | nil _ => exact h₂
  | cons hstep _ ih => exact .cons hstep (ih h₂)

/-- A run extended by one step at its end. -/
theorem snoc (h₁ : Run step s as t) (h₂ : step t a u) : Run step s (as ++ [a]) u :=
  h₁.append (single h₂)

/-- A run over a concatenation passes through a state in between. -/
theorem split (h : Run step s (as ++ bs) u) :
    ∃ t, Run step s as t ∧ Run step t bs u := by
  induction as generalizing s with
  | nil => exact ⟨s, .nil s, h⟩
  | cons a as ih =>
      cases h with
      | cons hstep hrest =>
          obtain ⟨t, h₁, h₂⟩ := ih hrest
          exact ⟨t, .cons hstep h₁, h₂⟩

/-- Invariant induction: what every step preserves, every run preserves. -/
theorem invariant {P : σ → Prop} (hstep : ∀ s a t, step s a t → P s → P t)
    (h : Run step s as t) (hs : P s) : P t := by
  induction h with
  | nil _ => exact hs
  | cons h₁ _ ih => exact ih (hstep _ _ _ h₁ hs)

/-- Invariant induction for the labels of one run. -/
theorem invariant_of_mem {P : σ → Prop} (h : Run step s as t)
    (hstep : ∀ s a t, a ∈ as → step s a t → P s → P t) (hs : P s) : P t := by
  induction h with
  | nil _ => exact hs
  | cons h₁ _ ih =>
      exact ih (fun s a t ha => hstep s a t (List.mem_cons_of_mem _ ha))
        (hstep _ _ _ List.mem_cons_self h₁ hs)

/-- Invariant induction for a property of a state and the labels that lead to it. -/
theorem invariant_trace {P : List α → σ → Prop}
    (hstep : ∀ as s a t, step s a t → P as s → P (as ++ [a]) t) (h : Run step s as t)
    (hs : P [] s) : P as t := by
  suffices hgen : ∀ pre, P pre s → P (pre ++ as) t from hgen [] hs
  clear hs
  intro pre hpre
  induction h generalizing pre with
  | nil _ =>
      rw [List.append_nil]
      exact hpre
  | @cons _ _ _ a as h₁ _ ih =>
      rw [List.append_cons]
      exact ih (pre ++ [a]) (hstep pre _ _ _ h₁ hpre)

/-- A run of a relation is a run of any larger relation. -/
theorem mono (hsub : ∀ s a t, step s a t → step' s a t) (h : Run step s as t) :
    Run step' s as t := by
  induction h with
  | nil s => exact .nil s
  | cons h₁ _ ih => exact .cons (hsub _ _ _ h₁) ih

/-- The same for the labels of one run. -/
theorem mono_of_mem (h : Run step s as t) (hsub : ∀ s a t, a ∈ as → step s a t → step' s a t) :
    Run step' s as t := by
  induction h with
  | nil s => exact .nil s
  | cons h₁ _ ih =>
      exact .cons (hsub _ _ _ List.mem_cons_self h₁)
        (ih fun s a t ha => hsub s a t (List.mem_cons_of_mem _ ha))

end Run

namespace Reaches

variable {step : σ → α → σ → Prop} {s t u : σ} {a : α}

theorem refl (s : σ) : Reaches step s s := ⟨[], .nil s⟩

theorem tail (h₁ : Reaches step s t) (h₂ : step t a u) : Reaches step s u := by
  obtain ⟨as, h⟩ := h₁
  exact ⟨as ++ [a], h.snoc h₂⟩

theorem trans (h₁ : Reaches step s t) (h₂ : Reaches step t u) : Reaches step s u := by
  obtain ⟨as, h⟩ := h₁
  obtain ⟨bs, h'⟩ := h₂
  exact ⟨as ++ bs, h.append h'⟩

theorem invariant {P : σ → Prop} (hstep : ∀ s a t, step s a t → P s → P t)
    (h : Reaches step s t) (hs : P s) : P t := by
  obtain ⟨as, h⟩ := h
  exact h.invariant hstep hs

end Reaches

/-! ## Systems given by a step function -/

section Function

variable {ε : Type w} (f : σ → α → Except ε σ)

/-- A sequenced computation succeeds iff its two parts do. -/
theorem bind_eq_ok {β γ : Type u} {x : Except ε β} {g : β → Except ε γ} {r : γ} :
    (x >>= g) = .ok r ↔ ∃ b, x = .ok b ∧ g b = .ok r := by
  cases x with
  | error e => simp [bind, Except.bind]
  | ok b => simp [bind, Except.bind]

/-- A sequenced computation succeeds if its parts do. -/
theorem bind_succeeds {β γ : Type u} {x : Except ε β} {g : β → Except ε γ} {b : β} (hx : x = .ok b)
    (hg : ∃ r, g b = .ok r) : ∃ r, (x >>= g) = .ok r := by
  obtain ⟨r, hr⟩ := hg
  exact ⟨r, bind_eq_ok.mpr ⟨b, hx, hr⟩⟩

/-- A computation whose result is changed succeeds iff it does. -/
theorem map_eq_ok {β γ : Type u} {x : Except ε β} {g : β → γ} {r : γ} :
    x.map g = .ok r ↔ ∃ b, x = .ok b ∧ g b = r := by
  cases x with
  | error e => simp [Except.map]
  | ok b => simp [Except.map]

/-- A computation behind an assertion succeeds iff the assertion holds and it does. -/
theorem guard_eq_ok {β : Type u} {c : Prop} [Decidable c] {x : Except ε β} {err : ε} {r : β} :
    (if c then x else .error err) = .ok r ↔ c ∧ x = .ok r := by
  split
  next hc => exact (and_iff_right hc).symm
  next hc =>
      refine ⟨fun h => ?_, fun h => absurd h.1 hc⟩
      cases h

/-- A computation with a result succeeds. -/
theorem eq_ok_of_toOption {β : Type u} {x : Except ε β} {b : β} (h : x.toOption = some b) :
    x = .ok b := by
  cases x with
  | error e => cases h
  | ok c => exact congrArg _ (Option.some.inj h)

/-- A sequenced computation does not fail in a way in which its parts do not. -/
theorem bind_ne_error {β γ : Type u} {x : Except ε β} {g : β → Except ε γ} {err : ε}
    (hx : x ≠ .error err) (hg : ∀ b, x = .ok b → g b ≠ .error err) : (x >>= g) ≠ .error err := by
  cases x with
  | error e => exact fun h => hx (congrArg _ (Except.error.inj h))
  | ok b => exact hg b rfl

/-- The step relation of a partial step function: the steps that succeed. -/
def Succeeds (s : σ) (a : α) (t : σ) : Prop := f s a = .ok t

/-- Folding the step function over a list of labels performs a run. -/
theorem run_of_foldlM {as : List α} {s t : σ} (h : as.foldlM f s = .ok t) :
    Run (Succeeds f) s as t := by
  induction as generalizing s with
  | nil =>
      obtain rfl : s = t := by simpa [pure, Except.pure] using h
      exact .nil _
  | cons a as ih =>
      rw [List.foldlM_cons] at h
      obtain ⟨s', hfa, hrest⟩ := bind_eq_ok.mp h
      exact .cons hfa (ih hrest)

/-- A run of it is what folding performs. -/
theorem foldlM_of_run {as : List α} {s t : σ} (h : Run (Succeeds f) s as t) :
    as.foldlM f s = .ok t := by
  induction h with
  | nil s => rfl
  | cons hstep _ ih =>
      rw [List.foldlM_cons]
      exact bind_eq_ok.mpr ⟨_, hstep, ih⟩

/-- What is seen of a run, where `see` says what is seen of a label in a state. -/
def trace {β : Type w} (see : σ → α → Option β) : σ → List α → List β
  | _, [] => []
  | s, a :: as => (see s a).toList ++
      match f s a with
      | .ok t => trace see t as
      | .error _ => []

variable {f}

/-- Refinement: if every step is a step of another system with the label that is seen of it,
or changes nothing there if none is seen, then what is seen of a run is a run of that
system. `P` is an invariant of the runs. -/
theorem run_trace {τ : Type u} {β : Type w} {see : σ → α → Option β} {step' : τ → β → τ → Prop}
    {P : σ → Prop} {as : List α} {s t : σ} (g : σ → τ)
    (hstep : ∀ s a t, f s a = .ok t → P s →
      P t ∧ (see s a).elim (g t = g s) fun b => step' (g s) b (g t))
    (h : Run (Succeeds f) s as t) (hs : P s) : Run step' (g s) (trace f see s as) (g t) := by
  induction h with
  | nil s => exact .nil (g s)
  | @cons s t u a as h₁ _ ih =>
      obtain ⟨ht, hsee⟩ := hstep s a t h₁ hs
      have hrest := ih ht
      have htrace : trace f see s (a :: as) = (see s a).toList ++ trace f see t as := by
        conv_lhs => unfold trace
        rw [show f s a = .ok t from h₁]
      rw [htrace]
      cases hb : see s a with
      | none =>
          rw [hb] at hsee
          rw [show g s = g t from hsee.symm]
          exact hrest
      | some b =>
          rw [hb] at hsee
          exact .cons hsee hrest

/-- A run of a step function leads to one state. -/
theorem run_unique {as : List α} {s t u : σ} (ht : Run (Succeeds f) s as t)
    (hu : Run (Succeeds f) s as u) : t = u :=
  Except.ok.inj ((foldlM_of_run f ht).symm.trans (foldlM_of_run f hu))

end Function

end Lts
