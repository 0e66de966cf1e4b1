import Mathlib.Algebra.Group.Nat.Defs
import Mathlib.Logic.Function.Basic
import Mathlib.Tactic.Simps.Basic
import Pintos.Threads.Kernel

/-! # Threads and synchronization of Project 3

`synch.c` and the scheduler of `thread.c`: semaphores, locks and condition
variables on top of a `ready_list` that is served round robin, with a timer
interrupt that takes the processor away after `TIME_SLICE` ticks.

What a thread does between two points at which an interrupt can come is an
`Act`: the part of a function that runs with interrupts off, or a statement
that runs with interrupts on. A function is the list of its acts, and a thread
keeps the acts it has not executed yet. The running thread executes its acts,
and an interrupt can come before each of them, unless the thread has them off.

A member of `struct thread` is a map from the pages that hold one. The lists
are those of their elements; that the links behave as lists is the subject of
other modules (`Lib/IntrusiveList`, `Locks/LockList`). Only that of a `lock_list` does
not go without saying: `init_thread` clears it by `memset` and makes no list of it, so
that the first `lock_acquire` fails an assertion. Whether it is made a list is a
parameter of the kernel (`listed`). `init_thread` pushes the new thread to `all_list`
with interrupts on; here it does all that it does in one step. Names, priorities (the
scheduler does not read them), stacks and what is compiled for `USERPROG` are left
out, and so is `lock_try_acquire`, which nothing calls (`Locks/LockList` is about
it). A failed `ASSERT` stops the kernel: it is an error that carries the asserted
expression. `hist` is a history variable that no operation reads.
-/

namespace Pintos.Synch

open Threads (ThreadStatus assertThat)

/-- The address of a structure; that of a `struct thread` names the thread. -/
abbrev Ptr := ℕ

/-- The semaphores: one on its own, the one inside a lock, and the one that
`cond_wait` has on the stack of a thread. -/
inductive Sema where
  | plain (p : Ptr)
  | ofLock (l : Ptr)
  | ofWaiter (t : Ptr)
deriving DecidableEq, Repr

/-- What a thread does without an interrupt in between. -/
inductive Act where
  /-- `sema_down`, up to the first test of the value. -/
  | down (s : Sema)
  /-- The next test, in the loop of `sema_down`, once `thread_block` has returned. -/
  | retest (s : Sema)
  /-- `sema_try_down`. -/
  | tryDown (s : Sema)
  /-- `sema_up`. -/
  | up (s : Sema)
  /-- `ASSERT (!lock_held_by_current_thread (lock))`. -/
  | checkFree (l : Ptr)
  /-- `lock->holder = thread_current ()`. -/
  | setHolder (l : Ptr)
  /-- `list_push_back (&thread_current ()->lock_list, &lock->lock_elem)`. -/
  | pushLock (l : Ptr)
  /-- `ASSERT (lock_held_by_current_thread (lock)); lock->holder = NULL`. -/
  | clearHolder (l : Ptr)
  /-- `list_remove (&lock->lock_elem)`. -/
  | removeLock (l : Ptr)
  /-- `cond_wait` up to the call of `lock_release`. -/
  | enqueueWaiter (c l : Ptr)
  /-- `cond_signal` up to the call of `sema_up`. -/
  | signal (c l : Ptr)
  /-- The test of the loop of `cond_broadcast`. -/
  | broadcast (c l : Ptr)
  /-- `tid = next_tid`, of `tid = next_tid++`. -/
  | loadTid
  /-- `next_tid = tid + 1`, of `tid = next_tid++`. -/
  | storeTid
  /-- `t->tid = allocate_tid ()`, once that has returned. -/
  | setTid (t : Ptr)
  /-- `thread_unblock (t)`, at the end of `thread_create`. -/
  | unblock (t : Ptr)
  /-- `thread_yield`. -/
  | yield
  /-- `thread_exit` from `intr_disable` on: `release_locks`, and the end. -/
  | releaseLocks
  /-- `idle_thread = thread_current ()`. -/
  | setIdle
  /-- `intr_disable (); thread_block ()`, in the loop of `idle`. -/
  | idleBlock
  /-- `sti; hlt`, in the loop of `idle`: wait for an interrupt. -/
  | halt
deriving DecidableEq, Repr

/-- What the history variable records. -/
inductive Event where
  /-- `t` is pushed to `ready_list`. -/
  | enqueue (t : Ptr)
  /-- `next_thread_to_run` pops `t` from `ready_list`. -/
  | dispatch (t : Ptr)
  /-- `next_thread_to_run` finds `ready_list` empty. -/
  | idle
  /-- `t` is pushed to the waiters of `s`. -/
  | sleep (t : Ptr) (s : Sema)
  /-- `sema_up` pops `t` from the waiters of `s`. -/
  | wake (t : Ptr) (s : Sema)
  /-- `t` has decremented the value of `s`. -/
  | down (t : Ptr) (s : Sema)
  /-- The value of `s` has been incremented. -/
  | up (s : Sema)
  /-- `cond_wait` pushes `t` to the waiters of `c`. -/
  | wait (t c : Ptr)
  /-- `cond_signal` pops `t` from the waiters of `c`. -/
  | signal (t c : Ptr)
  /-- `t->tid` is set. -/
  | named (t : Ptr) (tid : ℕ)
deriving DecidableEq, Repr

/-- The kernel. `status` is that of the `struct thread` in a page, if it holds one;
`rest` is what a thread has left to do of the function it is in, and `newTid` its
local variable `tid` in `allocate_tid`. `pagedir` says whether there is one.
`listed` says whether `init_thread` makes lists of the `lock_list`s by `list_init`; in the
source it does not.
`value` and `waiters` belong to the semaphores, `holder` to the locks and `conds`
are the `waiters` of the condition variables. `hist` is newest first. -/
structure Kernel where
  listed : Bool
  status : Ptr → Option ThreadStatus
  rest : Ptr → List Act
  tid : Ptr → ℕ
  newTid : Ptr → ℕ
  pagedir : Ptr → Bool
  lockList : Ptr → List Ptr
  readyList : List Ptr
  allList : List Ptr
  current : Ptr
  idleThread : Option Ptr
  initialThread : Ptr
  nextTid : ℕ
  threadTicks : ℕ
  idleTicks : ℕ
  kernelTicks : ℕ
  userTicks : ℕ
  value : Sema → ℕ
  waiters : Sema → List Ptr
  holder : Ptr → Option Ptr
  conds : Ptr → List Ptr
  hist : List Event

namespace Kernel

@[simps -fullyApplied]
def setStatus (k : Kernel) (t : Ptr) (st : Option ThreadStatus) : Kernel :=
  { k with status := Function.update k.status t st }

@[simps -fullyApplied]
def setRest (k : Kernel) (t : Ptr) (acts : List Act) : Kernel :=
  { k with rest := Function.update k.rest t acts }

@[simps -fullyApplied]
def setValue (k : Kernel) (s : Sema) (v : ℕ) : Kernel :=
  { k with value := Function.update k.value s v }

@[simps -fullyApplied]
def setWaiters (k : Kernel) (s : Sema) (ts : List Ptr) : Kernel :=
  { k with waiters := Function.update k.waiters s ts }

@[simps -fullyApplied]
def setHolder (k : Kernel) (l : Ptr) (t : Option Ptr) : Kernel :=
  { k with holder := Function.update k.holder l t }

@[simps -fullyApplied]
def setLockList (k : Kernel) (t : Ptr) (ls : List Ptr) : Kernel :=
  { k with lockList := Function.update k.lockList t ls }

@[simps -fullyApplied]
def setConds (k : Kernel) (c : Ptr) (ts : List Ptr) : Kernel :=
  { k with conds := Function.update k.conds c ts }

@[simps -fullyApplied]
def log (k : Kernel) (e : Event) : Kernel := { k with hist := e :: k.hist }

end Kernel

def timeSlice : ℕ := 4

/-- `UINT_MAX + 1`, where the value of a semaphore wraps around. -/
def uintRange : ℕ := 2 ^ 32

/-- `INT_MAX`: `next_tid++` overflows there. -/
def intMax : ℕ := 2 ^ 31 - 1

/-! ## thread.c -/

/-- `list_push_back (&ready_list, &t->elem)`. -/
def readyPush (k : Kernel) (t : Ptr) : Kernel :=
  { k with readyList := k.readyList ++ [t] }.log (.enqueue t)

/-- `next_thread_to_run`: pop the front of `ready_list`, or the idle thread. -/
def nextThreadToRun (k : Kernel) : Option Ptr × Kernel :=
  match k.readyList with
  | [] => (k.idleThread, k.log .idle)
  | t :: ts => (some t, { k with readyList := ts }.log (.dispatch t))

/-- `thread_schedule_tail`. -/
def threadScheduleTail (k : Kernel) (prev : Option Ptr) : Except String Kernel :=
  let k := { k.setStatus k.current (some .running) with threadTicks := 0 }
  match prev with
  | none => .ok k
  | some p =>
      if k.status p = some .dying ∧ p ≠ k.initialThread then do
        assertThat (p ≠ k.current) "prev != cur"
        return k.setStatus p none
      else
        .ok k

/-- `schedule`. -/
def schedule (k : Kernel) : Except String Kernel := do
  let cur := k.current
  let (next, k) := nextThreadToRun k
  assertThat (k.status cur ≠ some .running) "cur->status != THREAD_RUNNING"
  match next with
  | none => .error "is_thread (next)"
  | some n =>
      assertThat (k.status n ≠ none) "is_thread (next)"
      threadScheduleTail { k with current := n } (if cur ≠ n then some cur else none)

/-- `thread_block`. -/
def threadBlock (k : Kernel) : Except String Kernel :=
  schedule (k.setStatus k.current (some .blocked))

/-- `thread_unblock`. -/
def threadUnblock (k : Kernel) (t : Ptr) : Except String Kernel := do
  assertThat (k.status t ≠ none) "is_thread (t)"
  assertThat (k.status t = some .blocked) "t->status == THREAD_BLOCKED"
  return (readyPush k t).setStatus t (some .ready)

/-- `thread_yield`. -/
def threadYield (k : Kernel) : Except String Kernel :=
  let k := if k.idleThread ≠ some k.current then readyPush k k.current else k
  schedule (k.setStatus k.current (some .ready))

/-- The end of `thread_exit`, behind `release_locks`. -/
def threadEnd (k : Kernel) : Except String Kernel :=
  let k := { k with allList := k.allList.erase k.current }
  schedule ((k.setRest k.current []).setStatus k.current (some .dying))

/-- The statistics of `thread_tick`. -/
def countTick (k : Kernel) : Kernel :=
  if k.idleThread = some k.current then { k with idleTicks := k.idleTicks + 1 }
  else if k.pagedir k.current then { k with userTicks := k.userTicks + 1 }
  else { k with kernelTicks := k.kernelTicks + 1 }

/-- `thread_tick`. After `intr_yield_on_return` the interrupt handler calls
`thread_yield` before it returns. -/
def threadTick (k : Kernel) : Except String Kernel :=
  let k := { countTick k with threadTicks := k.threadTicks + 1 }
  if k.threadTicks ≥ timeSlice then threadYield k else .ok k

/-- `init_thread`, for a page that `palloc_get_page` has returned. -/
def initThread (k : Kernel) (t : Ptr) : Kernel :=
  { (k.setStatus t (some .blocked)).setRest t [] with
    tid := Function.update k.tid t 0
    pagedir := Function.update k.pagedir t false
    lockList := Function.update k.lockList t []
    allList := k.allList ++ [t] }

/-! ## synch.c -/

/-- The loop of `sema_down`: the thread takes one from the value and goes on with
`acts`, or it joins the waiters and blocks, to test again when it wakes up. -/
def semaTest (k : Kernel) (s : Sema) (acts : List Act) : Except String Kernel :=
  if k.value s = 0 then
    threadBlock (((k.setWaiters s (k.waiters s ++ [k.current])).setRest k.current
      (.retest s :: acts)).log (.sleep k.current s))
  else
    .ok (((k.setValue s (k.value s - 1)).setRest k.current acts).log (.down k.current s))

/-- `sema_try_down`. -/
def semaTryDown (k : Kernel) (s : Sema) : Kernel :=
  if k.value s > 0 then (k.setValue s (k.value s - 1)).log (.down k.current s) else k

/-- `sema_up` up to the increment: unblock the first waiter, if there is one. -/
def wakeFirst (k : Kernel) (s : Sema) : Except String Kernel :=
  match k.waiters s with
  | [] => .ok k
  | t :: ts => threadUnblock ((k.setWaiters s ts).log (.wake t s)) t

/-- `sema_up`. -/
def semaUp (k : Kernel) (s : Sema) : Except String Kernel := do
  let k ← wakeFirst k s
  return (k.setValue s ((k.value s + 1) % uintRange)).log (.up s)

/-- `list_remove (&lock->lock_elem)`, which asserts that the element is in a list. -/
def lockRemove (k : Kernel) (l : Ptr) : Except String Kernel := do
  assertThat (l ∈ k.lockList k.current) "is_interior (elem)"
  return k.setLockList k.current ((k.lockList k.current).erase l)

/-- `ASSERT (lock_held_by_current_thread (lock))`. -/
def assertHeld (k : Kernel) (l : Ptr) : Except String Unit :=
  assertThat (k.holder l = some k.current) "lock_held_by_current_thread (lock)"

/-- One round of the loop of `release_locks`, or what follows the loop. The `list_remove`
behind `lock_release` unlinks the same element again, between the same neighbours
(`Locks/ReleaseLocks`). Where there is no list the first link is null, and `list_next`
asserts that it is not. -/
def releaseRound (k : Kernel) : Except String Kernel := do
  assertThat (k.listed = true) "is_head (elem) || is_interior (elem)"
  match k.lockList k.current with
  | [] => threadEnd k
  | l :: _ => do
      assertHeld k l
      let k ← lockRemove (k.setHolder l none) l
      semaUp k (.ofLock l)

/-- The running thread executes an act, with `acts` behind it. -/
def exec (k : Kernel) (acts : List Act) : Act → Except String Kernel
  | .down s => semaTest k s acts
  | .retest s => semaTest k s acts
  | .tryDown s => .ok (semaTryDown (k.setRest k.current acts) s)
  | .up s => semaUp (k.setRest k.current acts) s
  | .checkFree l => do
      assertThat (k.holder l ≠ some k.current) "!lock_held_by_current_thread (lock)"
      return k.setRest k.current acts
  | .setHolder l => .ok ((k.setHolder l (some k.current)).setRest k.current acts)
  | .pushLock l => do
      assertThat (k.listed = true) "is_interior (before) || is_tail (before)"
      return (k.setLockList k.current (k.lockList k.current ++ [l])).setRest k.current acts
  | .clearHolder l => do
      assertHeld k l
      return (k.setHolder l none).setRest k.current acts
  | .removeLock l => lockRemove (k.setRest k.current acts) l
  | .enqueueWaiter c l => do
      assertHeld k l
      let k := (k.setValue (.ofWaiter k.current) 0).setWaiters (.ofWaiter k.current) []
      return ((k.setConds c (k.conds c ++ [k.current])).setRest k.current acts).log
        (.wait k.current c)
  | .signal c l => do
      assertHeld k l
      match k.conds c with
      | [] => return k.setRest k.current acts
      | t :: ts =>
          return ((k.setConds c ts).setRest k.current (.up (.ofWaiter t) :: acts)).log (.signal t c)
  | .broadcast c l =>
      match k.conds c with
      | [] => .ok (k.setRest k.current acts)
      | _ :: _ => .ok (k.setRest k.current (.signal c l :: .broadcast c l :: acts))
  | .loadTid =>
      .ok ({ k with newTid := Function.update k.newTid k.current k.nextTid }.setRest
        k.current acts)
  | .storeTid => do
      assertThat (k.newTid k.current ≠ intMax) "signed overflow"
      return { k with nextTid := k.newTid k.current + 1 }.setRest k.current acts
  | .setTid t =>
      .ok (({ k with tid := Function.update k.tid t (k.newTid k.current) }.setRest
        k.current acts).log (.named t (k.newTid k.current)))
  | .unblock t => threadUnblock (k.setRest k.current acts) t
  | .yield => threadYield (k.setRest k.current acts)
  | .releaseLocks => releaseRound k
  | .setIdle => .ok ({ k with idleThread := some k.current }.setRest k.current acts)
  | .idleBlock => threadBlock (k.setRest k.current [.halt])
  | .halt => .error "hlt"

/-! ## The functions -/

def lockAcquire (l : Ptr) : List Act :=
  [.checkFree l, .down (.ofLock l), .setHolder l, .pushLock l]

def lockRelease (l : Ptr) : List Act := [.clearHolder l, .removeLock l, .up (.ofLock l)]

/-- `cond_wait`, called by `t`. -/
def condWait (t c l : Ptr) : List Act :=
  .enqueueWaiter c l :: (lockRelease l ++ .down (.ofWaiter t) :: lockAcquire l)

/-- The `tid_lock`. -/
def tidLock : Ptr := 0

def allocateTid : List Act := lockAcquire tidLock ++ .loadTid :: .storeTid :: lockRelease tidLock

/-- `thread_create` behind `init_thread`. -/
def threadCreate (t : Ptr) : List Act := allocateTid ++ [.setTid t, .unblock t]

/-- `idle`, whose loop goes on with `idleBlock` after each interrupt. -/
def idle (started : Ptr) : List Act := [.setIdle, .up (.plain started), .idleBlock]

end Pintos.Synch
