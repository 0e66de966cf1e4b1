import Pintos.Threads.Kernel

/-! # The thread system as a labelled transition system

One label for each thing that can happen between two instructions of a thread
that runs with interrupts on: a kernel call of the running thread, a timer
interrupt, an unblocking by other kernel code. Between the two halves of
`timer_sleep` the running thread makes no other call, but it can be
interrupted.
-/

namespace Pintos.Threads

/-- The labels. -/
inductive Act where
  /-- `thread_create`, with the page `palloc_get_page` returns. -/
  | create (t : Tid) (priority : Int32)
  /-- `thread_create` when `palloc_get_page` returns a null pointer. -/
  | createFails
  /-- Other kernel code calls `thread_block`. -/
  | block
  /-- The idle thread's loop calls `thread_block`. -/
  | idleBlock
  /-- Other kernel code calls `thread_unblock`. -/
  | unblock (t : Tid)
  /-- `thread_yield`. -/
  | yield
  /-- `thread_exit`. -/
  | exit
  /-- `thread_set_priority`. -/
  | setPriority (newPriority : Int32)
  /-- `timer_sleep (n)` reads the clock. -/
  | sleepRead (n : Int64)
  /-- `timer_sleep` turns interrupts off and goes to sleep. -/
  | sleepBlock
  /-- `timer_interrupt`. -/
  | tick
deriving DecidableEq, Repr

/-- The running thread executes code of its own: it is not the idle thread,
whose code is a loop around `thread_block`, and it is not inside
`timer_sleep`. -/
@[reducible] def OwnCode (k : Kernel) : Prop :=
  k.idleThread ≠ some k.current ∧ k.sleepFrameOf k.current = none

/-- When a label can occur. `palloc_get_page` returns a page that is not in
use, `thread_create` is called with a valid priority, and other kernel code
unblocks only threads it blocked itself. -/
@[reducible] def Enabled (k : Kernel) : Act → Prop
  | .create t priority =>
      OwnCode k ∧ k.threads t = none ∧ priMin ≤ priority ∧ priority ≤ priMax
  | .createFails => OwnCode k
  | .block => OwnCode k
  | .idleBlock => k.idleThread = some k.current
  | .unblock t => t ∈ k.waiters
  | .yield => True
  | .exit => OwnCode k
  | .setPriority _ => OwnCode k
  | .sleepRead _ => OwnCode k
  | .sleepBlock => k.idleThread ≠ some k.current ∧ k.sleepFrameOf k.current ≠ none
  | .tick => True

instance (k : Kernel) : ∀ a, Decidable (Enabled k a)
  | .create _ _ => inferInstanceAs (Decidable (_ ∧ _))
  | .createFails => inferInstanceAs (Decidable (_ ∧ _))
  | .block => inferInstanceAs (Decidable (_ ∧ _))
  | .idleBlock => inferInstanceAs (Decidable (_ = _))
  | .unblock _ => inferInstanceAs (Decidable (_ ∈ _))
  | .yield => inferInstanceAs (Decidable True)
  | .exit => inferInstanceAs (Decidable (_ ∧ _))
  | .setPriority _ => inferInstanceAs (Decidable (_ ∧ _))
  | .sleepRead _ => inferInstanceAs (Decidable (_ ∧ _))
  | .sleepBlock => inferInstanceAs (Decidable (_ ∧ _))
  | .tick => inferInstanceAs (Decidable True)

/-- What a label does. -/
def perform (k : Kernel) : Act → Except String Kernel
  | .create t priority => threadCreate k t priority
  | .createFails => .ok k
  | .block => blockElsewhere k
  | .idleBlock => threadBlock k
  | .unblock t => unblockElsewhere k t
  | .yield => threadYield k
  | .exit => threadExit k
  | .setPriority p => threadSetPriority k p
  | .sleepRead n => timerSleepRead k n
  | .sleepBlock => timerSleepBlock k
  | .tick => timerInterrupt k

/-- One step of the system. -/
def Step (k : Kernel) (a : Act) (k' : Kernel) : Prop :=
  Enabled k a ∧ perform k a = .ok k'

/-- The same as a function, for running the model. -/
def next (k : Kernel) (a : Act) : Except String Kernel :=
  if Enabled k a then perform k a else .error "not enabled"

theorem step_of_next {k k' : Kernel} {a : Act} (h : next k a = .ok k') : Step k a k' := by
  unfold next at h
  split at h
  next hen => exact ⟨hen, h⟩
  next => cases h

/-- The runs after `thread_start`. -/
def Run (k : Kernel) (as : List Act) (k' : Kernel) : Prop := Lts.Run Step k as k'

/-- The states reachable after `thread_start`, with `main` and `idle` the pages
of the initial and of the idle thread. -/
def Reachable (main idle : Tid) (k : Kernel) : Prop :=
  ∃ k₀, threadStart main idle = .ok k₀ ∧ Lts.Reaches Step k₀ k

end Pintos.Threads
