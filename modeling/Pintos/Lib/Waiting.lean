import Mathlib.Algebra.BigOperators.Group.List.Basic
import Mathlib.Algebra.GroupWithZero.Nat
import Mathlib.Data.List.Basic
import Pintos.Lib.Run

/-! # Waiting in a queue

Two ways to say that nobody who waits is forgotten. A history of what entered
and what left a queue shows that it is left in the order in which it is entered;
and a potential that falls with every step of some kind bounds how many of these
steps a run can take before it comes to a goal.
-/

namespace Waiting

universe u v

/-! ## First in, first out -/

section

variable {E : Type u} {α : Type v} {ins outs : E → Option α} {hist : List E} {q : List α} {e : E}
  {a : α}

/-- In a history, newest event first, `ins` are the elements that have entered the queue and
`outs` those that have left it: what has entered is what has left and then what is in the
queue, in this order. -/
def Served (ins outs : E → Option α) (hist : List E) (q : List α) : Prop :=
  (hist.filterMap ins).reverse = (hist.filterMap outs).reverse ++ q

namespace Served

/-- An event that has nothing to do with the queue. -/
theorem other (h : Served ins outs hist q) (hi : ins e = none) (ho : outs e = none) :
    Served ins outs (e :: hist) q := by
  unfold Served
  rw [List.filterMap_cons_none hi, List.filterMap_cons_none ho]
  exact h

/-- An element enters at the end. -/
theorem push (h : Served ins outs hist q) (hi : ins e = some a) (ho : outs e = none) :
    Served ins outs (e :: hist) (q ++ [a]) := by
  unfold Served
  rw [List.filterMap_cons_some hi, List.filterMap_cons_none ho, List.reverse_cons, h,
    List.append_assoc]

/-- The first element leaves. -/
theorem pop (h : Served ins outs hist (a :: q)) (hi : ins e = none) (ho : outs e = some a) :
    Served ins outs (e :: hist) q := by
  unfold Served
  rw [List.filterMap_cons_none hi, List.filterMap_cons_some ho, List.reverse_cons, h,
    List.append_assoc]
  rfl

end Served

end

/-! ## Bounded waiting -/

section

variable {σ : Type u} {α : Type v} {step : σ → α → σ → Prop} {s t : σ} {as : List α}

/-- If every step away from a waiting state reaches the goal or lowers the potential by its
weight, a run whose steps weigh more than the potential passes the goal. -/
theorem passes_goal (P Goal : σ → Prop) (w : α → ℕ) (φ : σ → ℕ)
    (hstep : ∀ s a t, step s a t → P s → Goal t ∨ P t ∧ φ t + w a ≤ φ s)
    (h : Lts.Run step s as t) (hs : P s) (hlong : φ s < (as.map w).sum) :
    ∃ as₁ as₂ g, as = as₁ ++ as₂ ∧ Lts.Run step s as₁ g ∧ Goal g ∧ Lts.Run step g as₂ t := by
  induction h with
  | nil _ => simp at hlong
  | @cons s s' _ a as h₁ hrest ih =>
      rcases hstep s a s' h₁ hs with hgoal | ⟨hs', hφ⟩
      · exact ⟨[a], as, s', rfl, .single h₁, hgoal, hrest⟩
      · rw [List.map_cons, List.sum_cons] at hlong
        obtain ⟨as₁, as₂, g, rfl, hrun, hgoal, hrest'⟩ := ih hs' (by omega)
        exact ⟨a :: as₁, as₂, g, rfl, .cons h₁ hrun, hgoal, hrest'⟩

end

end Waiting
