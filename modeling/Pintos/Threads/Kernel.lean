import Mathlib.Data.List.Sort
import Mathlib.Logic.Function.Basic
import Pintos.Lib.Run

/-! # The thread system of Project 1

`thread.c` and `timer.c` of Project 1: threads with a priority, a priority
ordered `ready_list`, and an alarm clock whose sleepers wait on `wait_list`
in the order of their wake-up ticks.

Every operation below runs with interrupts off in the source, so it is one
function on the kernel state; the exception is `timer_sleep`, which reads the
clock first and turns interrupts off afterwards, so it is two
(`timerSleepRead`, `timerSleepBlock`). A failed `ASSERT` stops the kernel: it
is an error that carries the asserted expression.

Threads are named by the page that holds their `struct thread`. Statistics,
names, stacks and the tid counter are left out; `hist` is a history variable
that no operation reads.
-/

namespace Pintos.Threads

/-- `enum thread_status`. -/
inductive ThreadStatus where
  | running
  | ready
  | blocked
  | dying
deriving DecidableEq, Repr

/-- The page of a `struct thread`; what the source's thread pointers point to. -/
abbrev Tid := ℕ

/-- `struct thread`, with the local variables `start` and `ticks` of a
`timer_sleep` call that has read the clock and not yet gone to sleep. -/
structure Thread where
  status : ThreadStatus
  priority : Int32
  wakeTick : Int64
  sleepFrame : Option (Int64 × Int64)
deriving DecidableEq, Repr

/-- What the history variable records. -/
inductive Event where
  /-- `t` is inserted into `ready_list`. -/
  | enqueue (t : Tid)
  /-- `schedule` picks `next`; `idle` is `idle_thread` and `ready` is
  `ready_list` with the priorities at that moment, `next` included. -/
  | dispatch (idle next : Option Tid) (ready : List (Tid × Int32))
  /-- `t` is inserted into `wait_list`. -/
  | sleep (t : Tid)
  /-- `timer_interrupt` unblocks `t`. -/
  | wake (t : Tid)
deriving DecidableEq, Repr

/-- The kernel state: the pages that hold a thread, the three lists of
threads, the running thread, `idle_thread`, `initial_thread` and `ticks`.
`waiters` are the threads that other kernel code (semaphores, locks, condition
variables) has blocked and not unblocked yet. `hist` is newest first. -/
structure Kernel where
  threads : Tid → Option Thread
  allList : List Tid
  readyList : List Tid
  waitList : List Tid
  waiters : List Tid
  current : Tid
  idleThread : Option Tid
  initialThread : Tid
  ticks : Int64
  hist : List Event

def priMin : Int32 := 0
def priDefault : Int32 := 31
def priMax : Int32 := 63

namespace Kernel

/-- The status of the thread in page `t`, if the page holds one. -/
def statusOf (k : Kernel) (t : Tid) : Option ThreadStatus := (k.threads t).map (·.status)

def priorityOf (k : Kernel) (t : Tid) : Int32 := (k.threads t).elim 0 (·.priority)

def wakeTickOf (k : Kernel) (t : Tid) : Int64 := (k.threads t).elim 0 (·.wakeTick)

/-- The local variables of the `timer_sleep` call that thread `t` is inside. -/
def sleepFrameOf (k : Kernel) (t : Tid) : Option (Int64 × Int64) :=
  (k.threads t).bind (·.sleepFrame)

/-- Write a thread's page. -/
def setThread (k : Kernel) (t : Tid) (th : Option Thread) : Kernel :=
  { k with threads := Function.update k.threads t th }

def log (k : Kernel) (e : Event) : Kernel := { k with hist := e :: k.hist }

end Kernel

/-- `ASSERT (c)`. -/
def assertThat (c : Prop) [Decidable c] (text : String) : Except String Unit :=
  if c then .ok () else .error text

/-- Access to a thread's page; `is_thread` fails on a page without one. -/
def threadAt (k : Kernel) (t : Tid) : Except String Thread :=
  match k.threads t with
  | some th => .ok th
  | none => .error "is_thread (t)"

/-! ## thread.c -/

/-- `list_insert_ordered` of the kernel's list library: before the first
element `e` with `less elem e`. -/
def listInsertOrdered (less : Tid → Tid → Bool) (elem : Tid) (l : List Tid) : List Tid :=
  l.orderedInsert (fun a b => less a b) elem

def leastSleep (k : Kernel) (a b : Tid) : Bool := k.wakeTickOf a < k.wakeTickOf b

def prioDetect (k : Kernel) (a b : Tid) : Bool := k.priorityOf a > k.priorityOf b

/-- `thread_current`. -/
def threadCurrent (k : Kernel) : Except String Thread := do
  let th ← threadAt k k.current
  assertThat (th.status = .running) "t->status == THREAD_RUNNING"
  return th

/-- `list_insert_ordered (&ready_list, &t->elem, prio_detect, NULL)`. -/
def readyInsert (k : Kernel) (t : Tid) : Kernel :=
  { k with readyList := listInsertOrdered (prioDetect k) t k.readyList }.log (.enqueue t)

/-- `next_thread_to_run`: pop the front of `ready_list`, or the idle thread. -/
def nextThreadToRun (k : Kernel) : Option Tid × Kernel :=
  let ready := k.readyList.map fun t => (t, k.priorityOf t)
  match k.readyList with
  | [] => (k.idleThread, k.log (.dispatch k.idleThread k.idleThread ready))
  | t :: rest =>
      (some t, { k with readyList := rest }.log (.dispatch k.idleThread (some t) ready))

/-- `thread_schedule_tail`: mark the new thread running and free the previous
one's page if it is dying. -/
def threadScheduleTail (k : Kernel) (prev : Option Tid) : Except String Kernel := do
  let cur ← threadAt k k.current
  let k := k.setThread k.current (some { cur with status := .running })
  match prev with
  | none => return k
  | some p =>
      let pth ← threadAt k p
      if pth.status = .dying ∧ p ≠ k.initialThread then
        assertThat (p ≠ k.current) "prev != cur"
        return k.setThread p none
      else
        return k

/-- `schedule`. -/
def schedule (k : Kernel) : Except String Kernel := do
  let cur := k.current
  let (next, k) := nextThreadToRun k
  let curTh ← threadAt k cur
  assertThat (curTh.status ≠ .running) "cur->status != THREAD_RUNNING"
  match next with
  | none => .error "is_thread (next)"
  | some n =>
      let _ ← threadAt k n
      threadScheduleTail { k with current := n } (if cur ≠ n then some cur else none)

/-- `thread_block`. -/
def threadBlock (k : Kernel) : Except String Kernel := do
  let th ← threadCurrent k
  schedule (k.setThread k.current (some { th with status := .blocked }))

/-- `thread_unblock`. -/
def threadUnblock (k : Kernel) (t : Tid) : Except String Kernel := do
  let th ← threadAt k t
  assertThat (th.status = .blocked) "t->status == THREAD_BLOCKED"
  let k := readyInsert k t
  return k.setThread t (some { th with status := .ready })

/-- The page `init_thread` leaves behind. -/
def initThread (priority : Int32) : Thread :=
  { status := .blocked, priority := priority, wakeTick := 0, sleepFrame := none }

/-- `thread_create` once `palloc_get_page` has returned page `t`; `init_thread`
asserts the range of the priority. -/
def threadCreate (k : Kernel) (t : Tid) (priority : Int32) : Except String Kernel := do
  assertThat (priMin ≤ priority ∧ priority ≤ priMax) "PRI_MIN <= priority && priority <= PRI_MAX"
  let k := k.setThread t (some (initThread priority))
  threadUnblock { k with allList := k.allList ++ [t] } t

/-- `thread_exit`. -/
def threadExit (k : Kernel) : Except String Kernel := do
  let th ← threadCurrent k
  let k := { k with allList := k.allList.erase k.current }
  schedule (k.setThread k.current (some { th with status := .dying }))

/-- `thread_yield`. -/
def threadYield (k : Kernel) : Except String Kernel := do
  let th ← threadCurrent k
  let k := if k.idleThread ≠ some k.current then readyInsert k k.current else k
  schedule (k.setThread k.current (some { th with status := .ready }))

/-- `thread_set_priority`. -/
def threadSetPriority (k : Kernel) (newPriority : Int32) : Except String Kernel := do
  let th ← threadCurrent k
  return k.setThread k.current (some { th with priority := newPriority })

/-! ## timer.c -/

/-- `timer_sleep (n)` up to the end of `timer_ticks ()`: interrupts are still
on when it is done. -/
def timerSleepRead (k : Kernel) (n : Int64) : Except String Kernel := do
  let th ← threadCurrent k
  return k.setThread k.current (some { th with sleepFrame := some (k.ticks, n) })

/-- The rest of `timer_sleep`, with interrupts off: store the wake-up tick,
insert into `wait_list` and block. -/
def timerSleepBlock (k : Kernel) : Except String Kernel := do
  let th ← threadCurrent k
  match th.sleepFrame with
  | none => .error "timer_sleep has not read the clock"
  | some (start, n) =>
      let k := k.setThread k.current
        (some { th with wakeTick := start + n, sleepFrame := none })
      let k := { k with waitList := listInsertOrdered (leastSleep k) k.current k.waitList }
      threadBlock (k.log (.sleep k.current))

/-- The loop of `timer_interrupt` over `wait_list`, which is its first
argument: after each pop the source starts again from the head, so the next
element looked at is the new front; the first thread that is not due ends the
loop. -/
def wakeExpired : List Tid → Kernel → Except String Kernel
  | [], k => .ok k
  | t :: rest, k => do
      let th ← threadAt k t
      if th.wakeTick ≤ k.ticks then
        let k ← threadUnblock ({ k with waitList := rest }.log (.wake t)) t
        wakeExpired rest k
      else
        return k

/-- `timer_interrupt`. `thread_tick` only updates statistics (preemption is
commented out), so what is left of it is `thread_current`'s check. -/
def timerInterrupt (k : Kernel) : Except String Kernel := do
  let k := { k with ticks := k.ticks + 1 }
  let _ ← threadCurrent k
  wakeExpired k.waitList k

/-! ## Start-up -/

/-- The state `thread_init` and `timer_init` leave behind: only the initial
thread exists and it is running. -/
def threadInit (main : Tid) : Kernel where
  threads := Function.update (fun _ => none) main
    (some { initThread priDefault with status := .running })
  allList := [main]
  readyList := []
  waitList := []
  waiters := []
  current := main
  idleThread := none
  initialThread := main
  ticks := 0
  hist := []

/-- Other kernel code blocks the running thread: it is remembered among the
`waiters` (of a semaphore, say) and `thread_block` is called. -/
def blockElsewhere (k : Kernel) : Except String Kernel :=
  threadBlock { k with waiters := k.waiters ++ [k.current] }

/-- Other kernel code unblocks a thread it blocked itself. -/
def unblockElsewhere (k : Kernel) (t : Tid) : Except String Kernel :=
  threadUnblock { k with waiters := k.waiters.erase t } t

/-- `thread_start`: create the idle thread in page `idle` and wait on
`idle_started`; the idle thread sets `idle_thread`, ups the semaphore and
enters its loop, which blocks. -/
def threadStart (main idle : Tid) : Except String Kernel := do
  let k ← threadCreate (threadInit main) idle priMin
  let k ← blockElsewhere k
  let k := { k with idleThread := some k.current }
  let k ← unblockElsewhere k main
  threadBlock k

end Pintos.Threads
