import Pintos.Lib.LockSystem
import Pintos.Locks.Discipline

/-! # The order of the locks

`evict_frame` takes `file_lock` while it holds `frame_tbl_lock`, and a page fault
of a thread that holds `file_lock` takes `frame_tbl_lock`. What the locks rely on
is that these two do not meet, and that neither the fault nor an eviction on its
behalf needs `file_lock` again.
-/

namespace Pintos.Locks

open Sync Lock
open Vm (Tid)

abbrev State := Sync.State Tid Lock Place

abbrev Label := Sync.Label Tid Activity

/-- The step relation of the threads. -/
def Step (s : State) (a : Label) (s' : State) : Prop := Sync.Step Activity.ops s a s'

/-- The states that any number of threads reach in any order of their steps. -/
def Reachable (s : State) : Prop := Lts.Reaches Step Sync.init s

variable {s s' : State} {a : Label} {as : List Label} {t u : Tid}

/-- What the locks rely on in a step. -/
structure Careful (s : State) (a : Label) : Prop where
  /-- Nobody calls `seek` for a descriptor without a file. -/
  seek : ∀ t x, a = .call t x → ¬ x.SeeksUnknown
  /-- A page that is loaded by a thread with `file_lock` is not read from a file, nor
  is a dirty page of a mapping evicted for it. -/
  loadPage : ∀ t p ops, a = .run t → s.rest t = .reach (.loadPage p) :: ops →
    s.holder fileLock = some t → p.usesFile = false
  /-- Nor is one evicted when the stack is grown by a thread with `file_lock`. -/
  stackGrowth : ∀ t g ops, a = .run t → s.rest t = .reach (.stackGrowth g) :: ops →
    s.holder fileLock = some t → g.usesFile = false
  /-- No eviction of a dirty page of a mapping begins while a thread that holds
  `file_lock` has yet to get a frame. -/
  evict : ∀ t ops, a = .run t → s.rest t = .acquire frameTblLock :: ops →
    nests frameTblLock fileLock ops = true → ∀ u, u ≠ t → ¬ s.Nesting u fileLock frameTblLock
  /-- No thread that is to get a frame before it releases `file_lock` takes it while
  a dirty page of a mapping is about to be written back. -/
  enter : ∀ t ops, a = .run t → s.rest t = .acquire fileLock :: ops →
    nests fileLock frameTblLock ops = true → ∀ u, u ≠ t → ¬ s.Nesting u frameTblLock fileLock

/-- A step of threads that are careful. -/
def CarefulStep (s : State) (a : Label) (s' : State) : Prop := Step s a s' ∧ Careful s a

/-- What careful threads keep. -/
structure Orderly (s : State) : Prop where
  obeys : s.Obeys (discipline true)
  apart : ∀ t u, ¬ s.Crossed t u fileLock frameTblLock

theorem orderly_init : Orderly Sync.init where
  obeys := obeys_init
  apart := by
    rintro t u ⟨-, ⟨hheld, -⟩, -⟩
    cases hheld

theorem Orderly.step (h : Orderly s) (hs : CarefulStep s a s') : Orderly s' := by
  obtain ⟨hstep, hcareful⟩ := hs
  constructor
  · refine h.obeys.step hstep ?_ ?_
    · intro t x ha
      exact activity_spec (hcareful.seek t x ha) fun hs => by cases hs
    · intro t op ops ha hrest hen
      refine ⟨proceeds_of_enabled hen, ?_⟩
      cases op with
      | reach m =>
          cases m with
          | loadPage p =>
              intro _ hmem
              exact hcareful.loadPage t p ops ha hrest (mem_heldBy.mp hmem)
          | stackGrowth g =>
              intro _ hmem
              exact hcareful.stackGrowth t g ops ha hrest (mem_heldBy.mp hmem)
          | loadReturns => trivial
          | threadExit => trivial
          | userMode => trivial
      | acquire l => trivial
      | release l => trivial
      | stop => trivial
  · refine not_crossed_step hstep (fun t hrest l hl => ?_) hcareful.enter hcareful.evict h.apart
    -- a thread without operations left holds nothing
    have hmem : l ∈ s.heldBy t := mem_heldBy.mpr hl
    rw [h.obeys.idle hrest] at hmem
    cases hmem

/-- What a thread that wants a lock does not hold. -/
theorem Orderly.wants (h : Orderly s) {l l' : Lock} (hheld : s.holder l = some t)
    (hwants : s.Wants t l') : l ≠ l' ∧ l ≠ swapLock := by
  obtain ⟨ops, hrest⟩ := hwants
  obtain ⟨hself, hswap⟩ := h.obeys.demands hrest rfl
  constructor
  · rintro rfl
    exact hself (mem_heldBy.mpr hheld)
  · rintro rfl
    exact hswap (mem_heldBy.mpr hheld)

theorem Orderly.not_selfAcquires (h : Orderly s) : ¬ s.SelfAcquires t := by
  rintro ⟨l, hwants, hheld⟩
  exact (h.wants hheld hwants).1 rfl

/-- A thread that wants a lock is going to acquire it. -/
theorem nesting_of_wants {l l' : Lock} (hheld : s.holder l = some t) (hwants : s.Wants t l') :
    s.Nesting t l l' := by
  obtain ⟨ops, hrest⟩ := hwants
  refine ⟨hheld, ?_⟩
  rw [hrest]
  unfold nests
  rw [decide_eq_true rfl, Bool.true_or]

/-- In one of the two orders of `file_lock` and `frame_tbl_lock` nobody waits. -/
theorem Orderly.one_order (h : Orderly s) :
    (∀ t, s.holder fileLock = some t → ¬ s.Wants t frameTblLock) ∨
      ∀ t, s.holder frameTblLock = some t → ¬ s.Wants t fileLock := by
  by_contra hno
  rw [not_or] at hno
  obtain ⟨hfile, hframe⟩ := hno
  push Not at hfile hframe
  obtain ⟨t, ht, htw⟩ := hfile
  obtain ⟨u, hu, huw⟩ := hframe
  have hne : t ≠ u := by
    rintro rfl
    have heq := State.Wants.unique htw huw
    cases heq
  exact h.apart t u ⟨hne, nesting_of_wants ht htw, nesting_of_wants hu huw⟩

/-- The ranks of the locks if `file_lock` comes first. -/
def fileFirst : Lock → ℕ
  | .fileLock => 0
  | .frameTblLock => 1
  | .swapLock => 2

/-- The ranks of the locks if `frame_tbl_lock` comes first. -/
def frameFirst : Lock → ℕ
  | .fileLock => 1
  | .frameTblLock => 0
  | .swapLock => 2

theorem Orderly.not_waitCycle (h : Orderly s) : ¬ s.WaitCycle t := by
  rcases h.one_order with hno | hno
  · refine no_wait_cycle frameFirst ?_
    intro v l l' hheld hwants
    obtain ⟨hne, hswap⟩ := h.wants hheld hwants
    cases l with
    | fileLock =>
        cases l' with
        | fileLock => exact absurd rfl hne
        | frameTblLock => exact absurd hwants (hno v hheld)
        | swapLock => decide
    | frameTblLock =>
        cases l' with
        | fileLock => decide
        | frameTblLock => exact absurd rfl hne
        | swapLock => decide
    | swapLock => exact absurd rfl hswap
  · refine no_wait_cycle fileFirst ?_
    intro v l l' hheld hwants
    obtain ⟨hne, hswap⟩ := h.wants hheld hwants
    cases l with
    | fileLock =>
        cases l' with
        | fileLock => exact absurd rfl hne
        | frameTblLock => decide
        | swapLock => decide
    | frameTblLock =>
        cases l' with
        | fileLock => exact absurd hwants (hno v hheld)
        | frameTblLock => exact absurd rfl hne
        | swapLock => decide
    | swapLock => exact absurd rfl hswap

theorem orderly_of_run (h : Lts.Run CarefulStep Sync.init as s) : Orderly s :=
  h.invariant (fun _ _ _ hs hx => hx.step hs) orderly_init

/-- In a run of careful threads nobody acquires a lock that it holds, and there is
no cycle of threads that wait for each other. -/
theorem lock_discipline (h : Lts.Run CarefulStep Sync.init as s) :
    (∀ t, ¬ s.SelfAcquires t) ∧ ∀ t, ¬ s.WaitCycle t :=
  ⟨fun _ => (orderly_of_run h).not_selfAcquires, fun _ => (orderly_of_run h).not_waitCycle⟩

/-- Where an eviction meets a thread with `file_lock` that has yet to get a frame,
neither of the two gets on any more. -/
theorem crossed_for_ever (h : s.Crossed t u fileLock frameTblLock)
    (hrun : Lts.Run Step s as s') : s'.Crossed t u fileLock frameTblLock :=
  hrun.invariant (P := fun s => s.Crossed t u fileLock frameTblLock) (fun _ _ _ hs hx => hx.step hs) h

/-! ## Runs in which the discipline is kept and broken -/

/-- A process with a file open as descriptor 2, whose first page from the bottom and
the one two pages on are present. -/
def reader : Process where
  present := fun va => va = 0x08048000 ∨ va = 0x0804a000 ∨ va = 0xbffffff0
  files := [{ file := 7, fd := 2 }]
  filesFirst := 5
  fileList := []
  mmapList := []
  pages := [true, false, true]

/-- A frame is free. -/
def freeFrameFound : Allocation := { evictions := [], malloc := true }

/-- `read` into a buffer of two pages; its second page is loaded in between. -/
def readTwoPages (p : PageLoad) : Activity :=
  .syscall reader 0xbffffff0 [] (.read 2 0x08048000 0x2000 [.page p])

/-- The state after some labels. -/
def runLabels (as : List Label) : Except String State := as.foldlM (Sync.next Activity.ops) Sync.init

theorem reachable_of_runLabels (h : runLabels as = .ok s) : Reachable s :=
  ⟨as, Lts.run_of_foldlM _ h⟩

/-- The page of the buffer belongs to the executable. -/
def fileFaultRun : List Label :=
  .call 1 (readTwoPages (.file ⟨freeFrameFound, 4096, true, true⟩)) :: List.replicate 4 (.run 1)

/-- The page of the buffer is in the swap partition, and another thread evicts a dirty
page of a mapping for a page of its own. -/
def evictionRun : List Label :=
  [.call 1 (readTwoPages (.swap ⟨freeFrameFound, true, .read⟩)), .run 1, .run 1,
   .call 2 (.userFault reader (.page (.swap ⟨⟨[.mmap], true⟩, true, .read⟩))), .run 2, .run 2]

/-- A thread acquires a lock that it holds, and two threads wait for each other. -/
theorem lock_discipline_broken : (∃ s, Reachable s ∧ ∃ t, s.SelfAcquires t) ∧
    ∃ s, Reachable s ∧ ∃ t, s.WaitCycle t := by
  constructor
  · have hrun : (runLabels fileFaultRun).toOption.map (fun s => decide
        (s.holder fileLock = some 1 ∧ (s.rest 1).head? = some (.acquire fileLock))) =
        some true := by decide
    rcases hk : runLabels fileFaultRun with err | s
    · rw [hk] at hrun
      cases hrun
    · rw [hk] at hrun
      obtain ⟨hheld, hhead⟩ := of_decide_eq_true (Option.some.inj hrun)
      obtain ⟨ops, hrest⟩ := List.head?_eq_some_iff.mp hhead
      exact ⟨s, reachable_of_runLabels hk, 1, fileLock, ⟨ops, hrest⟩, hheld⟩
  · have hrun : (runLabels evictionRun).toOption.map (fun s => decide
        (s.holder fileLock = some 1 ∧ (s.rest 2).head? = some (.acquire fileLock) ∧
          s.holder frameTblLock = some 2 ∧ (s.rest 1).head? = some (.acquire frameTblLock))) =
        some true := by decide
    rcases hk : runLabels evictionRun with err | s
    · rw [hk] at hrun
      cases hrun
    · rw [hk] at hrun
      obtain ⟨hfile, hhead₂, hframe, hhead₁⟩ := of_decide_eq_true (Option.some.inj hrun)
      obtain ⟨ops₁, hrest₁⟩ := List.head?_eq_some_iff.mp hhead₁
      obtain ⟨ops₂, hrest₂⟩ := List.head?_eq_some_iff.mp hhead₂
      have h₁₂ : s.WaitsFor 1 2 := ⟨frameTblLock, ⟨ops₁, hrest₁⟩, hframe⟩
      have h₂₁ : s.WaitsFor 2 1 := ⟨fileLock, ⟨ops₂, hrest₂⟩, hfile⟩
      exact ⟨s, reachable_of_runLabels hk, 1, .tail (.single h₁₂) h₂₁⟩

/-- Whether no thread but `t` nests two locks. -/
def noneNests (s : State) (t : Tid) (l₁ l₂ : Lock) : Bool :=
  (s.holder l₁).all fun u => u = t || !nests l₁ l₂ (s.rest u)

/-- Whether a label is careful. -/
def carefulLabel (s : State) : Label → Bool
  | .call _ (.syscall p _ _ (.seek fd)) => (getFile p fd).isSome
  | .call _ _ => true
  | .run t =>
      match s.rest t with
      | .reach (.loadPage p) :: _ => s.holder fileLock ≠ some t || !p.usesFile
      | .reach (.stackGrowth g) :: _ => s.holder fileLock ≠ some t || !g.usesFile
      | .acquire .frameTblLock :: ops =>
          !nests frameTblLock fileLock ops || noneNests s t fileLock frameTblLock
      | .acquire .fileLock :: ops =>
          !nests fileLock frameTblLock ops || noneNests s t frameTblLock fileLock
      | _ => true

theorem not_nesting_of_noneNests {l₁ l₂ : Lock} (h : noneNests s t l₁ l₂ = true) (hne : u ≠ t) :
    ¬ s.Nesting u l₁ l₂ := by
  rintro ⟨hheld, hnests⟩
  unfold noneNests at h
  rw [hheld, Option.all_some, hnests] at h
  simp [hne] at h

theorem careful_of_carefulLabel (h : carefulLabel s a = true) : Careful s a where
  seek := by
    rintro t x rfl hseek
    cases x with
    | syscall p esp reads c =>
        cases c with
        | seek fd =>
            have hsome : (getFile p fd).isSome = true := h
            rw [show getFile p fd = none from hseek] at hsome
            cases hsome
        | _ => exact hseek
    | _ => exact hseek
  loadPage := by
    rintro t p ops rfl hrest hheld
    unfold carefulLabel at h
    dsimp only at h
    rw [hrest] at h
    simpa [hheld] using h
  stackGrowth := by
    rintro t g ops rfl hrest hheld
    unfold carefulLabel at h
    dsimp only at h
    rw [hrest] at h
    simpa [hheld] using h
  evict := by
    -- what is to come nests the two locks, so nobody nests them the other way
    rintro t ops rfl hrest hnests u hne
    unfold carefulLabel at h
    dsimp only at h
    rw [hrest] at h
    dsimp only at h
    rw [hnests, Bool.not_true, Bool.false_or] at h
    exact not_nesting_of_noneNests h hne
  enter := by
    rintro t ops rfl hrest hnests u hne
    unfold carefulLabel at h
    dsimp only at h
    rw [hrest] at h
    dsimp only at h
    rw [hnests, Bool.not_true, Bool.false_or] at h
    exact not_nesting_of_noneNests h hne

/-- Take a careful step. -/
def nextCareful (s : State) (a : Label) : Except String State :=
  if carefulLabel s a then Sync.next Activity.ops s a else .error "not careful"

theorem run_of_nextCareful (h : as.foldlM nextCareful s = .ok s') :
    Lts.Run CarefulStep s as s' := by
  refine (Lts.run_of_foldlM nextCareful h).mono ?_
  intro x b y hnext
  unfold Lts.Succeeds nextCareful at hnext
  split at hnext
  next hcareful => exact ⟨hnext, careful_of_carefulLabel hcareful⟩
  next => cases hnext

/-- The page of the buffer is read from the swap partition while another thread, which
evicts a clean page for one of its own, has `frame_tbl_lock`. -/
def carefulRun : List Label :=
  [.call 1 (readTwoPages (.swap ⟨freeFrameFound, true, .read⟩)), .run 1, .run 1,
   .call 2 (.userFault reader (.page (.swap ⟨⟨[.clean], true⟩, true, .read⟩))), .run 2, .run 2]

theorem lock_discipline_run : ∃ s, Lts.Run CarefulStep Sync.init carefulRun s ∧
    s.WaitsFor 1 2 ∧ (∀ t, ¬ s.SelfAcquires t) ∧ ∀ t, ¬ s.WaitCycle t := by
  have hrun : (carefulRun.foldlM nextCareful Sync.init).toOption.map (fun s => decide
      (s.holder frameTblLock = some 2 ∧ (s.rest 1).head? = some (.acquire frameTblLock))) =
      some true := by decide
  rcases hk : carefulRun.foldlM nextCareful Sync.init with err | s
  · rw [hk] at hrun
    cases hrun
  · rw [hk] at hrun
    obtain ⟨hheld, hhead⟩ := of_decide_eq_true (Option.some.inj hrun)
    obtain ⟨ops, hrest⟩ := List.head?_eq_some_iff.mp hhead
    have hcareful := run_of_nextCareful hk
    exact ⟨s, hcareful, ⟨frameTblLock, ⟨ops, hrest⟩, hheld⟩, lock_discipline hcareful⟩

end Pintos.Locks
