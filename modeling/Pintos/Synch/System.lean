import Mathlib.Tactic.Common
import Pintos.Lib.Run
import Pintos.Synch.Kernel

/-! # The synchronization system as a labelled transition relation

A thread that is not inside a function calls one, or executes the next act of
the one that it is inside; in between come timer interrupts, and interrupts of
devices whose handlers up a semaphore.
-/

namespace Pintos.Synch

open Threads (ThreadStatus assertThat)

/-- What a thread calls. The semaphores are those that are not part of a lock. -/
inductive Call where
  | semaDown (p : Ptr)
  | semaTryDown (p : Ptr)
  | semaUp (p : Ptr)
  | lockAcquire (l : Ptr)
  | lockRelease (l : Ptr)
  | condWait (c l : Ptr)
  | condSignal (c l : Ptr)
  | condBroadcast (c l : Ptr)
  /-- `thread_create`, with the page that `palloc_get_page` returns. -/
  | threadCreate (t : Ptr)
  | threadYield
  | threadExit
deriving DecidableEq, Repr

/-- What thread `t` has to do for a call. -/
def Call.code (t : Ptr) : Call → List Act
  | .semaDown p => [.down (.plain p)]
  | .semaTryDown p => [.tryDown (.plain p)]
  | .semaUp p => [.up (.plain p)]
  | .lockAcquire l => Synch.lockAcquire l
  | .lockRelease l => Synch.lockRelease l
  | .condWait c l => Synch.condWait t c l
  | .condSignal c l => [.signal c l]
  | .condBroadcast c l => [.broadcast c l]
  | .threadCreate t' => Synch.threadCreate t'
  | .threadYield => [.yield]
  | .threadExit => [.releaseLocks]

/-- The labels. -/
inductive Label where
  /-- The running thread calls a function. -/
  | call (c : Call)
  /-- The running thread executes its next act. -/
  | run
  /-- A timer interrupt. -/
  | tick
  /-- The interrupt of a device, whose handler calls `sema_up`. -/
  | device (p : Ptr)
  /-- The running thread sets or clears its `pagedir`. -/
  | setPagedir (b : Bool)
deriving DecidableEq, Repr

/-- What the running thread has left to do. -/
def Kernel.todo (k : Kernel) : List Act := k.rest k.current

/-- A thread turns interrupts off before it blocks in `sema_down`, and finds them off when
it goes on; `thread_exit` turns them off for good. -/
def Act.interruptible : Act → Bool
  | .retest _ => false
  | .releaseLocks => false
  | _ => true

/-- An interrupt can come. -/
@[reducible] def InterruptsOn (k : Kernel) : Prop := k.todo.head?.all Act.interruptible = true

/-- What the comments of the functions demand of their callers; `palloc_get_page` returns
a page that is not in use. -/
@[reducible] def Call.Allowed (k : Kernel) : Call → Prop
  | .lockAcquire l => k.holder l ≠ some k.current
  | .lockRelease l => k.holder l = some k.current
  | .condWait _ l => k.holder l = some k.current
  | .condSignal _ l => k.holder l = some k.current
  | .condBroadcast _ l => k.holder l = some k.current
  | .threadCreate t => k.holder tidLock ≠ some k.current ∧ k.status t = none
  | _ => True

instance (k : Kernel) : ∀ c : Call, Decidable (c.Allowed k)
  | .lockAcquire l => inferInstanceAs (Decidable (k.holder l ≠ _))
  | .lockRelease l => inferInstanceAs (Decidable (k.holder l = _))
  | .condWait _ l => inferInstanceAs (Decidable (k.holder l = _))
  | .condSignal _ l => inferInstanceAs (Decidable (k.holder l = _))
  | .condBroadcast _ l => inferInstanceAs (Decidable (k.holder l = _))
  | .threadCreate _ => inferInstanceAs (Decidable (_ ∧ _))
  | .semaDown _ => inferInstanceAs (Decidable True)
  | .semaTryDown _ => inferInstanceAs (Decidable True)
  | .semaUp _ => inferInstanceAs (Decidable True)
  | .threadYield => inferInstanceAs (Decidable True)
  | .threadExit => inferInstanceAs (Decidable True)

/-- When a label can occur. A thread that has executed `hlt` waits for an interrupt, and
`next_tid` does not overflow. -/
@[reducible] def Enabled (k : Kernel) : Label → Prop
  | .call c => k.todo = [] ∧ c.Allowed k
  | .run => k.todo ≠ [] ∧ k.todo.head? ≠ some .halt ∧
      (k.todo.head? = some .storeTid → k.newTid k.current ≠ intMax)
  | .tick => InterruptsOn k
  | .device _ => InterruptsOn k
  | .setPagedir _ => k.todo = []

instance (k : Kernel) : ∀ a : Label, Decidable (Enabled k a)
  | .call _ => inferInstanceAs (Decidable (_ ∧ _))
  | .run => inferInstanceAs (Decidable (_ ∧ _ ∧ (_ → _)))
  | .tick => inferInstanceAs (Decidable (_ = _))
  | .device _ => inferInstanceAs (Decidable (_ = _))
  | .setPagedir _ => inferInstanceAs (Decidable (_ = _))

/-- The running thread is interrupted: it goes on behind `hlt`. -/
def leaveHalt (k : Kernel) : Kernel :=
  if k.todo = [.halt] then k.setRest k.current [.idleBlock] else k

/-- The running thread is inside a function now. -/
def begin (k : Kernel) (c : Call) : Kernel :=
  match c with
  | .threadCreate t => (initThread k t).setRest k.current (Call.code k.current c)
  | _ => k.setRest k.current (Call.code k.current c)

/-- What a label does, if the running thread is one. -/
def perform (k : Kernel) : Label → Except String Kernel
  | .call c => .ok (begin k c)
  | .run =>
      match k.todo with
      | [] => .error "no act"
      | a :: acts => exec k acts a
  | .tick => threadTick (leaveHalt k)
  | .device p => semaUp (leaveHalt k) (.plain p)
  | .setPagedir b => .ok { k with pagedir := Function.update k.pagedir k.current b }

/-- `thread_current`. -/
def threadCurrent (k : Kernel) : Except String Ptr := do
  assertThat (k.status k.current = some .running) "t->status == THREAD_RUNNING"
  return k.current

/-- One step of the system. -/
def Step (k : Kernel) (a : Label) (k' : Kernel) : Prop :=
  Enabled k a ∧ (threadCurrent k >>= fun _ => perform k a) = .ok k'

/-- The same as a function, for running the model. -/
def next (k : Kernel) (a : Label) : Except String Kernel := do
  assertThat (Enabled k a) "not enabled"
  let _ ← threadCurrent k
  perform k a

/-- The state in which `thread_start` turns interrupts on: the initial thread is going to
wait for the idle thread, which is ready. The semaphores have the values `value`. Both
threads have acquired `tid_lock` before, so that the source only gets here if it makes
lists of the `lock_list`s. -/
def boot (listed : Bool) (main idlePage started : Ptr) (value : Ptr → ℕ) : Kernel where
  listed := listed
  status := Function.update (Function.update (fun _ => none) main (some .running)) idlePage
    (some .ready)
  rest := Function.update (Function.update (fun _ => []) main [.down (.plain started)]) idlePage
    (idle started)
  tid := Function.update (Function.update (fun _ => 0) main 1) idlePage 2
  newTid := fun _ => 0
  pagedir := fun _ => false
  lockList := fun _ => []
  readyList := [idlePage]
  allList := [main, idlePage]
  current := main
  idleThread := none
  initialThread := main
  nextTid := 3
  threadTicks := 0
  idleTicks := 0
  kernelTicks := 0
  userTicks := 0
  value := fun s =>
    match s with
    | .plain p => value p % uintRange
    | .ofLock _ => 1
    | .ofWaiter _ => 0
  waiters := fun _ => []
  holder := fun _ => none
  conds := fun _ => []
  hist := [.enqueue idlePage, .named idlePage 2, .named main 1]

/-- The initial states. -/
def Boot (k : Kernel) : Prop :=
  ∃ listed main idlePage started value, main ≠ idlePage ∧
    k = boot listed main idlePage started value

/-- The states that the system can be in. -/
def Reachable (k : Kernel) : Prop := ∃ k₀, Boot k₀ ∧ Lts.Reaches Step k₀ k

/-! ## Running the model -/

/-- The labels, one after the other. -/
def runLabels (bs : List Label) (k : Kernel) : Except String Kernel := bs.foldlM next k

theorem step_of_next {k k' : Kernel} {b : Label} (h : next k b = .ok k') : Step k b k' := by
  obtain ⟨_, hen, h⟩ := Lts.bind_eq_ok.mp h
  refine ⟨?_, h⟩
  unfold assertThat at hen
  split at hen
  next hb => exact hb
  next => cases hen

theorem next_of_step {k k' : Kernel} {b : Label} (h : Step k b k') : next k b = .ok k' := by
  obtain ⟨hen, h⟩ := h
  refine Lts.bind_eq_ok.mpr ⟨(), ?_, h⟩
  unfold assertThat
  rw [if_pos hen]

theorem run_of_runLabels {k k' : Kernel} {bs : List Label}
    (h : (runLabels bs k).toOption = some k') : Lts.Run Step k bs k' :=
  (Lts.run_of_foldlM next (Lts.eq_ok_of_toOption h)).mono fun _ _ _ hstep => step_of_next hstep

/-- The state in which the threads of pages 1 and 2 start. -/
def bootOne : Kernel := boot true 1 2 9 fun _ => 0

theorem bootOne_boot : Boot bootOne := ⟨true, 1, 2, 9, fun _ => 0, by decide, rfl⟩

/-- A state that is found by running the model. -/
theorem reachable_of_check (bs : List Label) (check : Kernel → Bool)
    (h : (runLabels bs bootOne).toOption.map check = some true) :
    ∃ k, Reachable k ∧ Lts.Run Step bootOne bs k ∧ check k = true := by
  obtain ⟨k, hk, hcheck⟩ := Option.map_eq_some_iff.mp h
  have hrun := run_of_runLabels hk
  exact ⟨k, ⟨bootOne, bootOne_boot, bs, hrun⟩, hrun, hcheck⟩

/-- The initial thread has started and creates the thread of page 5. -/
def creation : List Label :=
  List.replicate 5 .run ++ .call (.threadCreate 5) :: List.replicate 11 .run

/-- It holds lock 7, which the new thread waits for. -/
def contention : List Label :=
  creation ++ .call (.lockAcquire 7) :: List.replicate 4 .run ++
    [.call .threadYield, .run, .call (.lockAcquire 7), .run, .run]

/-- It waits for condition 3, and the new thread is going to wake it. -/
def signalling : List Label :=
  creation ++ .call (.lockAcquire 7) :: List.replicate 4 .run ++
    .call (.condWait 3 7) :: List.replicate 5 .run ++
    .call (.lockAcquire 7) :: List.replicate 4 .run ++ [.call (.condSignal 3 7), .run]

end Pintos.Synch
