import Pintos.Lib.Waiting
import Pintos.Synch.Elem

/-! # Queues are served in order

`ready_list`, the waiters of every semaphore and those of every condition
variable are first in, first out: threads run, wake up and are signalled in the
order in which they became ready, went to sleep and began to wait, and none of
them is lost on the way.
-/

namespace Pintos.Synch

open Waiting

variable {k k' : Kernel} {p t u n : Ptr} {s : Sema} {a : Act} {acts : List Act} {e : Event}

/-- The thread that enters `ready_list`. -/
def Event.enqueued : Event → Option Ptr
  | .enqueue t => some t
  | _ => none

/-- The thread that leaves `ready_list`. -/
def Event.dispatched : Event → Option Ptr
  | .dispatch t => some t
  | _ => none

/-- The thread that joins the waiters of a semaphore. -/
def Event.slept (s : Sema) : Event → Option Ptr
  | .sleep t s' => if s' = s then some t else none
  | _ => none

/-- The thread that `sema_up` wakes. -/
def Event.woken (s : Sema) : Event → Option Ptr
  | .wake t s' => if s' = s then some t else none
  | _ => none

/-- The thread that begins to wait for a condition. -/
def Event.waited (c : Ptr) : Event → Option Ptr
  | .wait t c' => if c' = c then some t else none
  | _ => none

/-- The thread that is signalled. -/
def Event.signalled (c : Ptr) : Event → Option Ptr
  | .signal t c' => if c' = c then some t else none
  | _ => none

/-- All queues are what their history says. -/
structure InOrder (k : Kernel) : Prop where
  ready : Served Event.enqueued Event.dispatched k.hist k.readyList
  waiters : ∀ s, Served (Event.slept s) (Event.woken s) k.hist (k.waiters s)
  conds : ∀ c, Served (Event.waited c) (Event.signalled c) k.hist (k.conds c)

/-- The queues and the history are the same. -/
theorem InOrder.congr (h : InOrder k) (hhist : k'.hist = k.hist)
    (hready : k'.readyList = k.readyList) (hwaiters : k'.waiters = k.waiters)
    (hconds : k'.conds = k.conds) : InOrder k' := by
  refine ⟨?_, fun s => ?_, fun c => ?_⟩
  · rw [hhist, hready]
    exact h.ready
  · rw [hhist, hwaiters]
    exact h.waiters s
  · rw [hhist, hconds]
    exact h.conds c

/-- The event has nothing to do with a queue. -/
def Event.Quiet (e : Event) : Prop :=
  e = .idle ∨ (∃ t s, e = .down t s) ∨ (∃ s, e = .up s) ∨ ∃ t n, e = .named t n

theorem InOrder.log (h : InOrder k) (he : e.Quiet) : InOrder (k.log e) := by
  rcases he with rfl | ⟨t, s, rfl⟩ | ⟨s, rfl⟩ | ⟨t, n, rfl⟩
  · exact ⟨h.ready.other rfl rfl, fun s => (h.waiters s).other rfl rfl,
      fun c => (h.conds c).other rfl rfl⟩
  · exact ⟨h.ready.other rfl rfl, fun s => (h.waiters s).other rfl rfl,
      fun c => (h.conds c).other rfl rfl⟩
  · exact ⟨h.ready.other rfl rfl, fun s => (h.waiters s).other rfl rfl,
      fun c => (h.conds c).other rfl rfl⟩
  · exact ⟨h.ready.other rfl rfl, fun s => (h.waiters s).other rfl rfl,
      fun c => (h.conds c).other rfl rfl⟩

theorem InOrder.readyPush (h : InOrder k) : InOrder (readyPush k t) :=
  ⟨h.ready.push rfl rfl, fun s => (h.waiters s).other rfl rfl,
    fun c => (h.conds c).other rfl rfl⟩

theorem InOrder.scheduled (h : InOrder k) (hs : schedule k = .ok k') : InOrder k' := by
  obtain ⟨-, n, hn, -, rfl⟩ := schedule_iff.mp hs
  have hready := h.ready
  cases hlist : k.readyList with
  | nil =>
      refine (h.log (.inl rfl)).congr ?_ ?_ rfl rfl
      · show k.readyList.head?.elim .idle .dispatch :: k.hist = _
        rw [hlist]
        rfl
      · show k.readyList.tail = k.readyList
        rw [hlist]
        rfl
  | cons m ready =>
      have hhist : (switchTo k n).hist = .dispatch m :: k.hist := by
        show k.readyList.head?.elim .idle .dispatch :: k.hist = _
        rw [hlist]
        rfl
      refine ⟨?_, fun s => ?_, fun c => ?_⟩
      · rw [hhist]
        show Served _ _ _ k.readyList.tail
        rw [hlist] at hready ⊢
        exact hready.pop rfl rfl
      · rw [hhist]
        exact (h.waiters s).other rfl rfl
      · rw [hhist]
        exact (h.conds c).other rfl rfl

theorem InOrder.asleep (h : InOrder k) : InOrder (asleep k s acts) := by
  refine ⟨h.ready.other rfl rfl, fun s' => ?_, fun c => (h.conds c).other rfl rfl⟩
  show Served _ _ (.sleep k.current s :: k.hist) (Function.update k.waiters s _ s')
  by_cases hs : s' = s
  · subst hs
    rw [Function.update_self]
    exact (h.waiters s').push (if_pos rfl) rfl
  · rw [Function.update_of_ne hs]
    exact (h.waiters s').other (if_neg (Ne.symm hs)) rfl

theorem InOrder.popWaiter (h : InOrder k) : InOrder (popWaiter k s) := by
  unfold Synch.popWaiter
  split
  next => exact h
  next t ts hw =>
    have hwake : InOrder ((k.setWaiters s ts).log (.wake t s)) := by
      refine ⟨h.ready.other rfl rfl, fun s' => ?_, fun c => (h.conds c).other rfl rfl⟩
      show Served _ _ (.wake t s :: k.hist) (Function.update k.waiters s ts s')
      by_cases hs : s' = s
      · subst hs
        rw [Function.update_self]
        have hs := h.waiters s'
        rw [hw] at hs
        exact hs.pop rfl (if_pos rfl)
      · rw [Function.update_of_ne hs]
        exact (h.waiters s').other rfl (if_neg (Ne.symm hs))
    exact hwake.readyPush.congr rfl rfl rfl rfl

theorem InOrder.raised (h : InOrder k) : InOrder (raised k s) :=
  (h.popWaiter.log (.inr (.inr (.inl ⟨s, rfl⟩)))).congr rfl rfl rfl rfl

theorem InOrder.yielded (h : InOrder k) : InOrder (yielded k) := by
  unfold Synch.yielded
  split
  next => exact h.readyPush.congr rfl rfl rfl rfl
  next => exact h.congr rfl rfl rfl rfl

/-- An act keeps the order. -/
theorem InOrder.exec (h : InOrder k) (hs : Settled k p) (htodo : k.todo = a :: acts)
    (he : Exec k acts a k') : InOrder k' := by
  have hdown : ∀ s, InOrder (taken k s acts) := fun s =>
    (h.log (.inr (.inl ⟨k.current, s, rfl⟩))).congr rfl rfl rfl rfl
  cases he with
  | sleep ha hv hsched => exact h.asleep.scheduled hsched
  | take ha hv => exact hdown _
  | tryTake hv => exact hdown _
  | tryFails hv => exact h.congr rfl rfl rfl rfl
  | @up s hw =>
      have h₁ : InOrder (k.setRest k.current acts) := h.congr rfl rfl rfl rfl
      exact h₁.raised
  | checkFree hl => exact h.congr rfl rfl rfl rfl
  | setHolder => exact h.congr rfl rfl rfl rfl
  | pushLock => exact h.congr rfl rfl rfl rfl
  | clearHolder hl => exact h.congr rfl rfl rfl rfl
  | removeLock hl => exact h.congr rfl rfl rfl rfl
  | @enqueueWaiter c l hl =>
      refine ⟨h.ready.other rfl rfl, fun s => ?_, fun c' => ?_⟩
      · show Served _ _ _ (Function.update k.waiters (.ofWaiter k.current) [] s)
        rw [hs.update_ownWaiters]
        exact (h.waiters s).other rfl rfl
      · show Served _ _ (.wait k.current c :: k.hist) (Function.update k.conds c _ c')
        by_cases hc : c' = c
        · subst hc
          rw [Function.update_self]
          exact (h.conds c').push (if_pos rfl) rfl
        · rw [Function.update_of_ne hc]
          exact (h.conds c').other (if_neg (Ne.symm hc)) rfl
  | signalNone hl hc => exact h.congr rfl rfl rfl rfl
  | @signal c l t ts hl hc =>
      refine ⟨h.ready.other rfl rfl, fun s => (h.waiters s).other rfl rfl, fun c' => ?_⟩
      show Served _ _ (.signal t c :: k.hist) (Function.update k.conds c ts c')
      by_cases hc' : c' = c
      · subst hc'
        rw [Function.update_self]
        have hs := h.conds c'
        rw [hc] at hs
        exact hs.pop rfl (if_pos rfl)
      · rw [Function.update_of_ne hc']
        exact (h.conds c').other rfl (if_neg (Ne.symm hc'))
  | broadcastEnd hc => exact h.congr rfl rfl rfl rfl
  | broadcast hc => exact h.congr rfl rfl rfl rfl
  | loadTid => exact h.congr rfl rfl rfl rfl
  | storeTid ht => exact h.congr rfl rfl rfl rfl
  | setTid => exact (h.log (.inr (.inr (.inr ⟨_, _, rfl⟩)))).congr rfl rfl rfl rfl
  | unblock ht => exact (h.readyPush).congr rfl rfl rfl rfl
  | yield hsched =>
      have h₁ : InOrder (k.setRest k.current acts) := h.congr rfl rfl rfl rfl
      exact h₁.yielded.scheduled hsched
  | finish hl hsched =>
      have h₁ : InOrder (ended k) := h.congr rfl rfl rfl rfl
      exact h₁.scheduled hsched
  | @releaseLock l hl hmem hw =>
      have h₁ : InOrder (unlisted k l) := h.congr rfl rfl rfl rfl
      exact h₁.raised
  | setIdle => exact h.congr rfl rfl rfl rfl
  | idleBlock hsched =>
      have h₁ : InOrder ((k.setRest k.current [.halt]).setStatus k.current (some .blocked)) :=
        h.congr rfl rfl rfl rfl
      exact h₁.scheduled hsched

theorem InOrder.leaveHalt (h : InOrder k) : InOrder (leaveHalt k) := by
  unfold Synch.leaveHalt
  split
  next => exact h.congr rfl rfl rfl rfl
  next => exact h

theorem InOrder.ticked (h : InOrder k) : InOrder (ticked k) := by
  unfold Synch.ticked countTick
  split
  next => exact h.congr rfl rfl rfl rfl
  next =>
    split
    next => exact h.congr rfl rfl rfl rfl
    next => exact h.congr rfl rfl rfl rfl

theorem InOrder.begin (h : InOrder k) {c : Call} : InOrder (begin k c) := by
  cases c with
  | threadCreate t => exact h.congr rfl rfl rfl rfl
  | _ => exact h.congr rfl rfl rfl rfl

/-- A step keeps the order. -/
theorem InOrder.step (h : InOrder k) (hs : Settled k p) {b : Label} (hstep : Step k b k') :
    InOrder k' := by
  obtain ⟨-, hhappens⟩ := step_cases hstep
  cases hhappens with
  | call hc hidle => exact h.begin
  | exec htodo he => exact h.exec hs htodo he
  | tick hon ht => exact h.leaveHalt.ticked
  | slice hon ht hsched => exact h.leaveHalt.ticked.yielded.scheduled hsched
  | device hon hw => exact h.leaveHalt.raised
  | setPagedir hidle => exact h.congr rfl rfl rfl rfl

theorem inOrder_boot {listed : Bool} {main started : Ptr} {value : Ptr → ℕ} :
    InOrder (boot listed main p started value) := ⟨rfl, fun _ => rfl, fun _ => rfl⟩

/-- Threads run, wake up and are signalled in the order in which they became ready, went to
sleep and began to wait, whatever happens in between. -/
theorem served_in_order (h : Reachable k) : InOrder k := by
  obtain ⟨k₀, ⟨listed, main, p, started, value, hne, rfl⟩, hreach⟩ := h
  exact (hreach.invariant (P := fun k => Settled k p ∧ InOrder k)
    (fun _ _ _ hs hk => ⟨hk.1.step hs, hk.2.step hk.1 hs⟩) ⟨settled_boot hne, inOrder_boot⟩).2

theorem served_in_order_contention :
    ∃ k, Reachable k ∧ k.waiters (.ofLock 7) = [5] ∧ InOrder k := by
  obtain ⟨k, hk, -, hw⟩ := reachable_of_check contention
    (fun k => k.waiters (.ofLock 7) = [5]) (by decide +kernel)
  exact ⟨k, hk, of_decide_eq_true hw, served_in_order hk⟩

end Pintos.Synch
