import Pintos.Locks.Discipline

/-! # The balance of `file_lock`

A thread releases `file_lock` only if it holds it, and does not hold it where it
returns to user mode or from `load` or enters `thread_exit`. System calls keep to
that except for a `seek` that finds no file, and `load` does unless it gets no
page directory.
-/

namespace Pintos.Locks

open Sync Lock

/-- What holds of the lock operations of a thread: wherever the thread gets to
without an assertion that fails, it releases `file_lock` only if it holds it, and
it does not hold it where it leaves the kernel, `load`, or for good. -/
def FileLockBalanced (ops : List Op) : Prop :=
  ∀ pre op post, ops = pre ++ op :: post → Passes ∅ pre →
    (op = .release fileLock → fileLock ∈ heldAfter ∅ pre) ∧
    (op = .reach .userMode ∨ op = .reach .loadReturns ∨ op = .reach .threadExit →
      fileLock ∉ heldAfter ∅ pre)

/-- Where a thread gets to a `seek` of a descriptor without a file, or to a `load`
without a page directory. -/
def Activity.Slips : Activity → Prop
  | .syscall p esp reads (.seek fd) =>
      notValid p esp = false ∧ Passes ∅ (access reads).ops ∧ getFile p fd = none
  | .startProcess _ o => o.pagedir = false
  | _ => False

/-- The lenient discipline assumes no more than that the thread gets past its
operations. -/
theorem lenient_assumes (held : Finset Lock) (op : Op) (h : op.Proceeds held) :
    (discipline false).assumes held op := by
  refine ⟨h, ?_⟩
  cases op with
  | reach m =>
      cases m with
      | loadPage p => exact fun hs => by cases hs
      | stackGrowth g => exact fun hs => by cases hs
      | loadReturns => trivial
      | threadExit => trivial
      | userMode => trivial
  | acquire l => trivial
  | release l => trivial
  | stop => trivial

/-- Operations that obey the lenient discipline are balanced. -/
theorem balanced_of_wp {ops : List Op} {Q : Finset Lock → Prop}
    (h : (discipline false).wp ops Q ∅) : FileLockBalanced ops := by
  rintro pre op post rfl hpass
  have hdemands := Discipline.demands_of_passes lenient_assumes h hpass
  constructor
  · rintro rfl
    exact hdemands rfl
  · rintro (rfl | rfl | rfl)
    · exact hdemands rfl
    · exact hdemands rfl
    · exact hdemands rfl

/-! ## Where it is not balanced -/

variable {p : Process} {fd : ℤ} {esp : Vm.Vaddr} {reads : List Fault}

/-- The handler has read the arguments, and holds no lock. -/
theorem access_passed (h : Passes ∅ (access reads).ops) :
    (access reads).result = some () ∧ heldAfter ∅ (access reads).ops = ∅ := by
  have hpost := Discipline.post_of_passes lenient_assumes
    (access_spec (E := fun _ => False) (Q := fun _ held => held = ∅) clear_empty rfl) h
  cases hres : (access reads).result with
  | none =>
      rw [hres] at hpost
      exact hpost.elim
  | some u =>
      rw [hres] at hpost
      exact ⟨rfl, hpost⟩

/-- The operations up to a `seek`. -/
theorem syscallHandler_seek_ops (hesp : notValid p esp = false)
    (hres : (access reads).result = some ()) :
    (syscallHandler p esp reads (.seek fd)).ops =
      (access reads).ops ++ (serve p (.seek fd)).ops := by
  unfold syscallHandler
  rw [hesp]
  show ((access reads).andThen _).ops = _
  unfold Code.andThen
  rw [hres]

theorem seek_unknown_ops (hfile : getFile p fd = none) :
    ∃ post, (serve p (.seek fd)).ops = .acquire fileLock :: .reach .threadExit :: post := by
  have hseek : ∃ post, (seek p fd).ops = .acquire fileLock :: .reach .threadExit :: post := by
    unfold seek
    rw [hfile]
    exact ⟨_, rfl⟩
  obtain ⟨post, hpost⟩ := hseek
  obtain ⟨rest, hrest⟩ := Code.ops_bind (seek p fd) fun _ => reach .userMode
  refine ⟨post ++ rest, ?_⟩
  rw [← List.cons_append, ← List.cons_append, ← hpost]
  exact hrest

theorem seek_unknown_unbalanced (hesp : notValid p esp = false)
    (hreads : Passes ∅ (access reads).ops) (hfile : getFile p fd = none) :
    ¬ FileLockBalanced (syscallHandler p esp reads (.seek fd)).ops := by
  intro h
  obtain ⟨hres, hheld⟩ := access_passed hreads
  obtain ⟨post, hpost⟩ := seek_unknown_ops hfile
  -- `exit` is called after the lock has been acquired
  have hops : (syscallHandler p esp reads (.seek fd)).ops =
      ((access reads).ops ++ [.acquire fileLock]) ++ .reach .threadExit :: post := by
    rw [syscallHandler_seek_ops hesp hres, hpost, List.append_assoc]
    rfl
  have hpass : Passes ∅ ((access reads).ops ++ [.acquire fileLock]) := by
    rw [passes_append, hheld]
    exact ⟨hreads, Finset.notMem_empty _, trivial⟩
  obtain ⟨-, hexit⟩ := h _ _ _ hops hpass
  have hmem : fileLock ∉ heldAfter ∅ ((access reads).ops ++ [.acquire fileLock]) :=
    hexit (Or.inr (Or.inr rfl))
  rw [heldAfter_append, hheld] at hmem
  exact hmem (Finset.mem_insert_self _ _)

theorem load_unbalanced {o : Loading} (hpagedir : o.pagedir = false) :
    ¬ FileLockBalanced (startProcess p o).ops := by
  intro h
  -- the first operation is the release at `done`
  have hops : ∃ post, (startProcess p o).ops = [] ++ .release fileLock :: post := by
    unfold startProcess
    show ∃ post, ((load o).andThen _).ops = _
    unfold Code.andThen load
    rw [hpagedir]
    exact ⟨_, rfl⟩
  obtain ⟨post, hpost⟩ := hops
  obtain ⟨hrelease, -⟩ := h _ _ _ hpost trivial
  exact absurd (hrelease rfl) (Finset.notMem_empty _)

/-! ## When it is balanced -/

theorem lenient_proceeds (held : Finset Lock) (op : Op) (h : (discipline false).assumes held op) :
    op.Proceeds held := h.1

/-- A handler that does not get to a `seek` of a descriptor without a file. -/
theorem syscallHandler_seek_spec
    (h : ¬ (Activity.syscall p esp reads (.seek fd)).Slips) :
    (discipline false).wpCode (syscallHandler p esp reads (.seek fd)) (fun _ held => held = ∅)
      (· = ∅) ∅ := by
  by_cases hfile : getFile p fd = none
  · unfold syscallHandler
    cases hesp : notValid p esp with
    | true =>
        show (discipline false).wpCode (exit p >>= fun _ => _) _ _ _
        rw [Discipline.wpCode_bind]
        exact exit_spec rfl
    | false =>
        show (discipline false).wpCode (access reads >>= fun _ => _) _ _ _
        rw [Discipline.wpCode_bind]
        have hreads : ¬ Passes ∅ (access reads).ops := fun hp => h ⟨hesp, hp, hfile⟩
        exact Discipline.wp_of_not_passes lenient_proceeds
          (access_spec (E := fun _ => True) (Q := fun _ _ => True) clear_empty trivial) hreads
  · refine syscallHandler_spec ?_ rfl rfl
    rintro fd' hc
    obtain ⟨⟩ := hc
    exact hfile

/-- Every system call, fault and `load` keeps the balance of `file_lock` but for the
two slips. -/
theorem file_lock_balanced (a : Activity) : FileLockBalanced a.ops ↔ ¬ a.Slips := by
  constructor
  · intro h hslip
    cases a with
    | syscall p esp reads c =>
        cases c with
        | seek fd =>
            obtain ⟨hesp, hreads, hfile⟩ := hslip
            exact seek_unknown_unbalanced hesp hreads hfile h
        | _ => exact hslip.elim
    | userFault p f => exact hslip.elim
    | startProcess p o => exact load_unbalanced hslip h
  · intro h
    cases a with
    | syscall p esp reads c =>
        cases c with
        | seek fd => exact balanced_of_wp (wp_of_wpCode (syscallHandler_seek_spec h))
        | _ => exact balanced_of_wp (activity_spec h fun _ => id)
    | userFault p f => exact balanced_of_wp (activity_spec id fun _ => id)
    | startProcess p o => exact balanced_of_wp (activity_spec id fun _ => h)

/-- A process without open files. -/
def noFiles : Process where
  present _ := true
  files := []
  filesFirst := 1
  fileList := []
  mmapList := []
  pages := []

/-- What happens to `load` when there is no memory for a page directory. -/
def noPagedir : Loading where
  pagedir := false
  opened := true
  header := true
  phdrs := []
  stack := {
    growth := {
      inRange := true
      malloc := true
      allocation := { evictions := [], malloc := true }
      installed := true
      inserted := true }
    malloc := true
    args := []
    pushes := [] }

/-- `seek` of descriptor 5 of a process without open files enters `thread_exit` with
`file_lock`, and `load` without a page directory releases `file_lock` for somebody else. -/
theorem file_lock_unbalanced :
    ¬ FileLockBalanced (Activity.syscall noFiles 0x8050000 [] (.seek 5)).ops ∧
      ¬ FileLockBalanced (Activity.startProcess noFiles noPagedir).ops := by
  constructor
  · refine seek_unknown_unbalanced ?_ trivial ?_
    · decide
    · decide
  · exact load_unbalanced rfl

end Pintos.Locks
