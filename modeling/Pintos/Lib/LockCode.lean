import Mathlib.Data.Finset.Basic

/-! # Code as the sequence of its lock operations

A thread is what it does to locks. `Code` collects the operations of a function
in the order in which they are executed, so that a function can be written down
with `do`, statement by statement. A `Discipline` says what is demanded of each
operation, given the locks that the thread holds; `wp` is the weakest
precondition for code to meet the demands, with one rule for each way to make
code.
-/

namespace Sync

universe u v

/-- What a thread does to locks. `reach` marks a place in the code, and `stop` is a
place that it does not get past: a panic, or a loop without an end. -/
inductive Op (L : Type u) (M : Type v) where
  | acquire (l : L)
  | release (l : L)
  | reach (m : M)
  | stop
deriving DecidableEq

section

variable {L : Type u} {M : Type v}

/-- The locks that are held after an operation. -/
def Op.after [DecidableEq L] : Op L M → Finset L → Finset L
  | .acquire l, held => insert l held
  | .release l, held => held.erase l
  | .reach _, held => held
  | .stop, held => held

/-- A thread gets past an operation: it does not hold a lock that it acquires, and
holds one that it releases. -/
@[reducible] def Op.Proceeds (held : Finset L) : Op L M → Prop
  | .acquire l => l ∉ held
  | .release l => l ∈ held
  | .reach _ => True
  | .stop => False

/-- What is demanded of the operations of a thread that holds some locks, and what
may be assumed about those that it gets past. -/
structure Discipline (L : Type u) (M : Type v) where
  demands : Finset L → Op L M → Prop
  assumes : Finset L → Op L M → Prop

variable [DecidableEq L] {d : Discipline L M} {ops ops' : List (Op L M)} {held : Finset L}
  {Q : Finset L → Prop}

/-- Every operation that the thread comes to meets the demands, and `Q` holds at
the end. -/
def Discipline.wp (d : Discipline L M) :
    List (Op L M) → (Finset L → Prop) → Finset L → Prop
  | [], Q, held => Q held
  | op :: ops, Q, held => d.demands held op ∧ (d.assumes held op → d.wp ops Q (op.after held))

theorem Discipline.wp_cons {op : Op L M} :
    d.wp (op :: ops) Q held ↔
      d.demands held op ∧ (d.assumes held op → d.wp ops Q (op.after held)) := Iff.rfl

theorem Discipline.wp_append : d.wp (ops ++ ops') Q held ↔ d.wp ops (d.wp ops' Q) held := by
  induction ops generalizing held with
  | nil => exact Iff.rfl
  | cons op ops ih =>
      rw [List.cons_append, wp_cons, wp_cons]
      constructor
      · rintro ⟨hd, hrest⟩
        exact ⟨hd, fun ha => ih.mp (hrest ha)⟩
      · rintro ⟨hd, hrest⟩
        exact ⟨hd, fun ha => ih.mpr (hrest ha)⟩

end

section

variable {L : Type u} {M : Type v} [DecidableEq L] {d : Discipline L M}
  {pre post ops : List (Op L M)} {op : Op L M} {held : Finset L} {Q : Finset L → Prop}

/-- The locks that are held after some operations. -/
def heldAfter (held : Finset L) : List (Op L M) → Finset L
  | [] => held
  | op :: ops => heldAfter (op.after held) ops

/-- A thread gets past all operations. -/
def Passes (held : Finset L) : List (Op L M) → Prop
  | [] => True
  | op :: ops => op.Proceeds held ∧ Passes (op.after held) ops

theorem heldAfter_append :
    heldAfter held (pre ++ post) = heldAfter (heldAfter held pre) post := by
  induction pre generalizing held with
  | nil => rfl
  | cons op pre ih => exact ih

theorem passes_append :
    Passes held (pre ++ post) ↔ Passes held pre ∧ Passes (heldAfter held pre) post := by
  induction pre generalizing held with
  | nil => exact ⟨fun h => ⟨trivial, h⟩, fun h => h.2⟩
  | cons op pre ih =>
      show op.Proceeds held ∧ Passes (op.after held) (pre ++ post) ↔
        (op.Proceeds held ∧ Passes (op.after held) pre) ∧ _
      rw [ih, and_assoc]
      exact Iff.rfl

/-- What holds at the end of code whose operations the thread gets past. -/
theorem Discipline.post_of_passes
    (hassumes : ∀ held (op : Op L M), op.Proceeds held → d.assumes held op)
    (h : d.wp ops Q held) (hpass : Passes held ops) : Q (heldAfter held ops) := by
  induction ops generalizing held with
  | nil => exact h
  | cons op ops ih => exact ih (h.2 (hassumes held op hpass.1)) hpass.2

/-- Code whose operations the thread does not get past has no end. -/
theorem Discipline.wp_of_not_passes {Q' : Finset L → Prop}
    (hassumes : ∀ held (op : Op L M), d.assumes held op → op.Proceeds held)
    (h : d.wp ops Q held) (hpass : ¬ Passes held ops) : d.wp ops Q' held := by
  induction ops generalizing held with
  | nil => exact (hpass trivial).elim
  | cons op ops ih =>
      refine ⟨h.1, fun ha => ih (h.2 ha) fun hrest => hpass ?_⟩
      exact ⟨hassumes held op ha, hrest⟩

/-- What is demanded of the operation that a thread has got to. -/
theorem Discipline.demands_of_passes
    (hassumes : ∀ held (op : Op L M), op.Proceeds held → d.assumes held op)
    (h : d.wp (pre ++ op :: post) Q held) (hpass : Passes held pre) :
    d.demands (heldAfter held pre) op := by
  rw [wp_append] at h
  exact (post_of_passes hassumes h hpass).1

end

/-! ## Functions -/

/-- The operations of a function in order, and its result; a call that does not
return has none. -/
structure Code (L : Type u) (M : Type v) (α : Type) where
  ops : List (Op L M)
  result : Option α

namespace Code

variable {L : Type u} {M : Type v} {α β : Type}

/-- What comes after a call that does not return is not executed. -/
def andThen (x : Code L M α) (f : α → Code L M β) : Code L M β :=
  match x.result with
  | none => ⟨x.ops, none⟩
  | some a => ⟨x.ops ++ (f a).ops, (f a).result⟩

instance : Monad (Code L M) where
  pure a := ⟨[], some a⟩
  bind := andThen

/-- The operations of a call come before what follows it. -/
theorem ops_bind (x : Code L M α) (f : α → Code L M β) :
    ∃ post, (x >>= f).ops = x.ops ++ post := by
  show ∃ post, (x.andThen f).ops = x.ops ++ post
  unfold andThen
  cases x.result with
  | none => exact ⟨[], (List.append_nil _).symm⟩
  | some a => exact ⟨(f a).ops, rfl⟩

/-- One operation. -/
def exec (op : Op L M) : Code L M Unit := ⟨[op], some ()⟩

def acquire (l : L) : Code L M Unit := exec (.acquire l)

def release (l : L) : Code L M Unit := exec (.release l)

def reach (m : M) : Code L M Unit := exec (.reach m)

/-- The thread does not get on. -/
def stop : Code L M α := ⟨[.stop], none⟩

/-- The end of the thread. -/
def leave : Code L M α := ⟨[], none⟩

end Code

/-! ## Rules for functions -/

section

variable {L : Type u} {M : Type v} {α β : Type} [DecidableEq L] {d : Discipline L M}
  {held : Finset L} {E : Finset L → Prop}

/-- The weakest precondition for a call: `Q` holds when it returns, and `E` at the
end of the thread if it does not. -/
def Discipline.wpCode (d : Discipline L M) (c : Code L M α) (Q : α → Finset L → Prop)
    (E : Finset L → Prop) (held : Finset L) : Prop :=
  d.wp c.ops (c.result.elim E Q) held

theorem Discipline.wpCode_bind {x : Code L M α} {f : α → Code L M β} {Q : β → Finset L → Prop} :
    d.wpCode (x >>= f) Q E held ↔ d.wpCode x (fun a => d.wpCode (f a) Q E) E held := by
  show d.wpCode (x.andThen f) Q E held ↔ _
  rcases x with ⟨ops, result⟩
  cases result with
  | none => exact Iff.rfl
  | some a => exact d.wp_append

theorem Discipline.wpCode_acquire {l : L} {Q : Unit → Finset L → Prop} :
    d.wpCode (.acquire l) Q E held ↔
      d.demands held (.acquire l) ∧ (d.assumes held (.acquire l) → Q () (insert l held)) := Iff.rfl

theorem Discipline.wpCode_release {l : L} {Q : Unit → Finset L → Prop} :
    d.wpCode (.release l) Q E held ↔
      d.demands held (.release l) ∧ (d.assumes held (.release l) → Q () (held.erase l)) := Iff.rfl

theorem Discipline.wpCode_reach {m : M} {Q : Unit → Finset L → Prop} :
    d.wpCode (.reach m) Q E held ↔
      d.demands held (.reach m) ∧ (d.assumes held (.reach m) → Q () held) := Iff.rfl

theorem Discipline.wpCode_leave {Q : α → Finset L → Prop} :
    d.wpCode (.leave : Code L M α) Q E held ↔ E held := Iff.rfl

end

end Sync
