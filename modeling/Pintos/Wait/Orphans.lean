import Pintos.Wait.Original

/-! # Orphans

The loop of `process_exit` of the original `process.c` over the children, and what the
process does with its own record. What a step reads and frees is recorded. The loop goes
backwards from the tail of the list, which it takes for a child, up to the first element,
which it leaves out.
-/

namespace Pintos.Wait

open Intrusive
open Vm (Ptr)

/-! ## Memory -/

/-- A field of the `struct process` around a list element is accessed, the `struct process`
is freed, or a field is accessed through a null pointer. -/
inductive Access where
  | touch (n : Node ℤ Ptr)
  | free (n : Node ℤ Ptr)
  | null
deriving DecidableEq, Repr

/-- The records, the links of the lists of children and what has been accessed. -/
structure Memory where
  records : Ptr → Option Process
  links : Links (Node ℤ Ptr)
  accesses : List Access

/-- What is read as the status where there is no record, and the links that are read from a
record that has been freed. -/
structure Garbage where
  status : Node ℤ Ptr → ProcessStatus
  links : Links (Node ℤ Ptr)

def Memory.access (m : Memory) (a : Access) : Memory := { m with accesses := m.accesses ++ [a] }

/-- `child->status`. -/
def Memory.status (g : Garbage) (m : Memory) : Node ℤ Ptr → ProcessStatus
  | .elem p => (m.records p).elim (g.status (.elem p)) (·.status)
  | n => g.status n

/-- A store to `child->status`. Where there is no record, something else is overwritten. -/
def Memory.setStatus (m : Memory) (n : Node ℤ Ptr) (status : ProcessStatus) : Memory :=
  match n with
  | .elem p =>
      let x := (m.records p).map fun x => { x with status := status }
      { m with records := Function.update m.records p x }
  | _ => m

/-- `free (child)`. -/
def Memory.free (g : Garbage) (m : Memory) (n : Node ℤ Ptr) : Memory :=
  let m := m.access (.free n)
  match n with
  | .elem p => { m with
      records := Function.update m.records p none
      links := (m.links.setPrev n (g.links.prev n)).setNext n (g.links.next n) }
  | _ => m

/-! ## `process_exit` -/

/-- The body of the loop, between `lock_acquire` and `lock_release`. -/
def orphanChild (g : Garbage) (m : Memory) (e : Node ℤ Ptr) : Memory :=
  let m := m.access (.touch e)
  let m := if m.status g e ≠ .run then m.free g e else m.setStatus e .orphan
  m.access (.touch e)

/-- The loop over the children, for a number of rounds: whether it has ended. -/
def orphanLoop (g : Garbage) (t : ℤ) : ℕ → Node ℤ Ptr → Memory → Memory × Bool
  | 0, _, m => (m, false)
  | rounds + 1, e, m =>
      if m.links.next (children t).head = some e then
        (m, true)
      else
        let m := (orphanChild g m e).access (.touch e)
        match m.links.prev e with
        | none => (m.access .null, false)
        | some e => orphanLoop g t rounds e m

/-- The end of `process_exit`: the process's own record. An orphan releases the lock of its
record through the pointer that it has set to null. -/
def leave (g : Garbage) (m : Memory) (p : Ptr) : Memory × Bool :=
  let m := m.access (.touch (.elem p))
  match m.status g (.elem p) with
  | .run => ((m.setStatus (.elem p) .dead).access (.touch (.elem p)), true)
  | .orphan => ((m.free g (.elem p)).access .null, false)
  | _ => (m.access (.touch (.elem p)), true)

/-- `process_exit` of the thread `t` with the record `p`. -/
def processExit (g : Garbage) (rounds : ℕ) (m : Memory) (t : ℤ) (p : Option Ptr) :
    Memory × Bool :=
  match orphanLoop g t rounds (children t).tail m, p with
  | (m, true), some p => leave g m p
  | r, _ => r

/-- Threads exit one after the other. -/
def exits (g : Garbage) (rounds : ℕ) : List (ℤ × Option Ptr) → Memory → Memory × Bool
  | [], m => (m, true)
  | (t, p) :: rest, m =>
      match processExit g rounds m t p with
      | (m, true) => exits g rounds rest m
      | (m, false) => (m, false)

/-! ## What is to happen to the children -/

/-- Nothing has been accessed yet. -/
def Memory.start (m : Memory) : Memory := { m with accesses := [] }

/-- In any order of exits of the parent `t` and its running children, which have no children
themselves, every record of a child is freed once by the end. -/
def FreedInAnyOrder (g : Garbage) (m : Memory) (t : ℤ) (own : Option Ptr) (ps : List Ptr) : Prop :=
  ∀ kids : List (ℤ × Ptr), kids.map (·.2) = ps →
    (∀ x ∈ kids, IsList m.links (children x.1) []) →
    (∀ p ∈ ps, ∃ x, m.records p = some x ∧ x.status = .run) →
    ∀ order : List (ℤ × Option Ptr),
      order.Perm ((t, own) :: kids.map fun x => (x.1, some x.2)) → ∀ rounds,
        (exits g rounds order m.start).2 = true →
          ∀ p ∈ ps, (exits g rounds order m.start).1.accesses.count (.free (.elem p)) = 1

/-- The loop treats the children `ps` of `t` as it should, and nothing else. -/
structure OrphansOnExit (g : Garbage) (m : Memory) (t : ℤ) (own : Option Ptr) (ps : List Ptr) :
    Prop where
  /-- Only elements of the list are treated as children. -/
  children_only : ∀ rounds, ∀ a ∈ (orphanLoop g t rounds (children t).tail m.start).1.accesses,
    ∃ p ∈ ps, a = .touch (.elem p) ∨ a = .free (.elem p)
  /-- No record is accessed after it was freed. -/
  freed_last : ∀ rounds pre post n,
    (orphanLoop g t rounds (children t).tail m.start).1.accesses = pre ++ .free n :: post →
      .touch n ∉ post ∧ .free n ∉ post
  /-- The loop ends, running children are orphans then, and the others have been freed. -/
  ends : ∃ rounds m', orphanLoop g t rounds (children t).tail m.start = (m', true) ∧
    ∀ p ∈ ps, ∀ x, m.records p = some x →
      (x.status = .run → m'.records p = some { x with status := .orphan }) ∧
      (x.status ≠ .run → m'.accesses.count (.free (.elem p)) = 1)
  any_order : FreedInAnyOrder g m t own ps

variable {g : Garbage} {m : Memory} {t : ℤ} {own : Option Ptr} {ps : List Ptr} {e : Node ℤ Ptr}
  {rounds : ℕ}

/-! ## The first round -/

theorem access_accesses (m : Memory) (a : Access) :
    (m.access a).accesses = m.accesses ++ [a] :=
  rfl

theorem setStatus_accesses (m : Memory) (n : Node ℤ Ptr) (status : ProcessStatus) :
    (m.setStatus n status).accesses = m.accesses := by
  cases n <;> rfl

theorem free_accesses (g : Garbage) (m : Memory) (n : Node ℤ Ptr) :
    (m.free g n).accesses = m.accesses ++ [.free n] := by
  cases n <;> rfl

/-- The body of the loop begins with the lock of what it takes for a child. -/
theorem orphanChild_accesses (g : Garbage) (m : Memory) (e : Node ℤ Ptr) :
    ∃ rest, (orphanChild g m e).accesses = m.accesses ++ .touch e :: rest := by
  unfold orphanChild
  dsimp only
  rw [access_accesses]
  split
  next =>
    rw [free_accesses, access_accesses]
    exact ⟨[.free e, .touch e], by simp⟩
  next =>
    rw [setStatus_accesses, access_accesses]
    exact ⟨[.touch e], by simp⟩

/-- The list is empty if it begins with its tail. -/
theorem begins_with_tail (h : IsList m.links (children t) (ps.map .elem)) :
    m.links.next (children t).head = some (children t).tail ↔ ps = [] := by
  rw [h.segment.next_eq]
  cases ps with
  | nil => exact ⟨fun _ => rfl, fun _ => rfl⟩
  | cons p ps =>
      constructor
      · intro heq
        cases Option.some.inj heq
      · intro hno
        cases hno

/-- The first round of the loop takes the tail for a child. -/
theorem tail_touched (h : IsList m.links (children t) (ps.map .elem)) (hne : ps ≠ []) :
    .touch (children t).tail ∈ (orphanLoop g t 1 (children t).tail m).1.accesses := by
  unfold orphanLoop
  rw [if_neg fun heq => hne ((begins_with_tail h).mp heq)]
  obtain ⟨rest, hrest⟩ := orphanChild_accesses g m (children t).tail
  have hmem : .touch (children t).tail ∈ (orphanChild g m (children t).tail).accesses := by
    rw [hrest]
    exact List.mem_append_right _ List.mem_cons_self
  have hmem' : .touch (children t).tail ∈
      ((orphanChild g m (children t).tail).access (.touch (children t).tail)).accesses :=
    List.mem_append_left _ hmem
  dsimp only
  split
  next => exact List.mem_append_left _ hmem'
  next => exact hmem'

/-- Without children the loop does nothing. -/
theorem orphanLoop_nil (h : IsList m.links (children t) []) (g : Garbage) (rounds : ℕ) :
    orphanLoop g t rounds (children t).tail m = (m, decide (0 < rounds)) := by
  have h' : IsList m.links (children t) (([] : List Ptr).map .elem) := h
  cases rounds with
  | zero => rfl
  | succ n =>
      unfold orphanLoop
      rw [if_pos ((begins_with_tail h').mpr rfl)]
      rfl

/-! ## The result -/

theorem not_orphansOnExit (h : IsList m.links (children t) (ps.map .elem)) (hne : ps ≠ []) :
    ¬ OrphansOnExit g m t own ps := by
  intro horphans
  have hstart : IsList m.start.links (children t) (ps.map .elem) := h
  obtain ⟨p, -, htouch | hfree⟩ := horphans.children_only 1 _ (tail_touched hstart hne)
  · cases htouch
  · cases hfree

/-- The loop treats the children as it should exactly if there are none. -/
theorem orphans_on_exit (h : IsList m.links (children t) (ps.map .elem)) :
    OrphansOnExit g m t own ps ↔ ps = [] := by
  constructor
  · intro horphans
    by_contra hne
    exact not_orphansOnExit h hne horphans
  · rintro rfl
    have hstart : IsList m.start.links (children t) [] := h
    have hloop := orphanLoop_nil hstart g
    constructor
    · intro rounds a ha
      rw [hloop] at ha
      exact absurd ha List.not_mem_nil
    · intro rounds pre post n heq
      rw [hloop] at heq
      exact absurd heq.symm (List.append_ne_nil_of_right_ne_nil _ (List.cons_ne_nil _ _))
    · exact ⟨1, m.start, hloop 1, fun p hp => absurd hp List.not_mem_nil⟩
    · intro kids _ _ _ order _ rounds _ p hp
      exact absurd hp List.not_mem_nil

/-- A thread with two children, the second of which has exited. -/
def twoChildren : Memory where
  records := fun p =>
    if p = 10 then some { pid := 2, status := .run, exit := -1, sema := 0 }
    else if p = 11 then some { pid := 3, status := .dead, exit := 0, sema := 1 }
    else none
  links :=
    { prev := fun
        | .tail 1 => some (.elem 11)
        | .elem 11 => some (.elem 10)
        | .elem 10 => some (.head 1)
        | _ => none
      next := fun
        | .head 1 => some (.elem 10)
        | .elem 10 => some (.elem 11)
        | .elem 11 => some (.tail 1)
        | _ => none }
  accesses := []

theorem twoChildren_list : IsList twoChildren.links (children 1) ([10, 11].map .elem) where
  nodup := by decide
  segment := ⟨⟨rfl, rfl⟩, ⟨rfl, rfl⟩, rfl, rfl⟩
  headPrev := rfl
  tailNext := rfl

/-- Even if a freed record keeps its contents, the loop touches the tail, frees the second
child and touches it again, and leaves the first child running. -/
theorem first_child_left_out : ∃ g m,
    orphanLoop g 1 10 (children 1).tail twoChildren = (m, true) ∧
    m.accesses = [.touch (.tail 1), .touch (.tail 1), .touch (.tail 1), .touch (.elem 11),
      .free (.elem 11), .touch (.elem 11), .touch (.elem 11)] ∧
    (m.records 10).map (·.status) = some .run ∧
    ¬ OrphansOnExit g twoChildren 1 none [10, 11] := by
  let g : Garbage := ⟨fun _ => .run, twoChildren.links⟩
  have hrun : (orphanLoop g 1 10 (children 1).tail twoChildren).2 = true ∧
      (orphanLoop g 1 10 (children 1).tail twoChildren).1.accesses =
        [.touch (.tail 1), .touch (.tail 1), .touch (.tail 1), .touch (.elem 11),
          .free (.elem 11), .touch (.elem 11), .touch (.elem 11)] ∧
      ((orphanLoop g 1 10 (children 1).tail twoChildren).1.records 10).map (·.status) =
        some .run := by
    decide
  exact ⟨g, _, Prod.ext rfl hrun.1, hrun.2.1, hrun.2.2,
    not_orphansOnExit twoChildren_list (List.cons_ne_nil _ _)⟩

/-- A thread without children. -/
theorem orphans_on_exit_run : ∃ g m, IsList m.links (children 1) [] ∧
    OrphansOnExit g m 1 (some 10) [] := by
  let links : Links (Node ℤ Ptr) := ⟨fun _ => none, fun _ => none⟩
  have hlist : IsList (listInit links (children 1)) (children 1) (([] : List Ptr).map .elem) :=
    isList_listInit nofun
  exact ⟨⟨fun _ => .run, links⟩, ⟨fun _ => none, listInit links (children 1), []⟩, hlist,
    (orphans_on_exit hlist).mpr rfl⟩

end Pintos.Wait
