import Mathlib.Tactic.Common
import Pintos.Lib.OrderedInsert
import Pintos.Threads.System

/-! # What each thread operation does

Field lemmas for the state updates and one equation for each operation that
says what it returns when its assertions hold. The invariants in the other
modules are derived from these; none of them unfolds an operation again.
-/

namespace Pintos.Threads

open OrderedInsert

variable {k : Kernel} {t u : Tid} {th : Thread} {o : Option Thread} {e : Event}

/-! ## Field lemmas -/

namespace Kernel

@[simp] theorem setThread_threads :
    (k.setThread t o).threads = Function.update k.threads t o := rfl
@[simp] theorem setThread_allList : (k.setThread t o).allList = k.allList := rfl
@[simp] theorem setThread_readyList : (k.setThread t o).readyList = k.readyList := rfl
@[simp] theorem setThread_waitList : (k.setThread t o).waitList = k.waitList := rfl
@[simp] theorem setThread_waiters : (k.setThread t o).waiters = k.waiters := rfl
@[simp] theorem setThread_current : (k.setThread t o).current = k.current := rfl
@[simp] theorem setThread_idleThread : (k.setThread t o).idleThread = k.idleThread := rfl
@[simp] theorem setThread_initialThread :
    (k.setThread t o).initialThread = k.initialThread := rfl
@[simp] theorem setThread_ticks : (k.setThread t o).ticks = k.ticks := rfl
@[simp] theorem setThread_hist : (k.setThread t o).hist = k.hist := rfl

@[simp] theorem log_threads : (k.log e).threads = k.threads := rfl
@[simp] theorem log_allList : (k.log e).allList = k.allList := rfl
@[simp] theorem log_readyList : (k.log e).readyList = k.readyList := rfl
@[simp] theorem log_waitList : (k.log e).waitList = k.waitList := rfl
@[simp] theorem log_waiters : (k.log e).waiters = k.waiters := rfl
@[simp] theorem log_current : (k.log e).current = k.current := rfl
@[simp] theorem log_idleThread : (k.log e).idleThread = k.idleThread := rfl
@[simp] theorem log_initialThread : (k.log e).initialThread = k.initialThread := rfl
@[simp] theorem log_ticks : (k.log e).ticks = k.ticks := rfl
@[simp] theorem log_hist : (k.log e).hist = e :: k.hist := rfl

theorem statusOf_eq {s : ThreadStatus} :
    k.statusOf t = some s ↔ ∃ th, k.threads t = some th ∧ th.status = s := by
  simp [statusOf]

@[simp] theorem statusOf_setThread :
    (k.setThread t o).statusOf u = if u = t then o.map (·.status) else k.statusOf u := by
  by_cases hu : u = t
  · simp [statusOf, hu]
  · simp [statusOf, hu]

@[simp] theorem priorityOf_setThread :
    (k.setThread t o).priorityOf u = if u = t then o.elim 0 (·.priority) else k.priorityOf u := by
  by_cases hu : u = t
  · simp [priorityOf, hu]
  · simp [priorityOf, hu]

@[simp] theorem wakeTickOf_setThread :
    (k.setThread t o).wakeTickOf u = if u = t then o.elim 0 (·.wakeTick) else k.wakeTickOf u := by
  by_cases hu : u = t
  · simp [wakeTickOf, hu]
  · simp [wakeTickOf, hu]

@[simp] theorem statusOf_log : (k.log e).statusOf u = k.statusOf u := rfl
@[simp] theorem priorityOf_log : (k.log e).priorityOf u = k.priorityOf u := rfl
@[simp] theorem wakeTickOf_log : (k.log e).wakeTickOf u = k.wakeTickOf u := rfl

end Kernel

/-- Inserting into `ready_list` is inserting behind the ties in the order of
descending priority. -/
theorem readyInsert_readyList (k : Kernel) (t : Tid) :
    (readyInsert k t).readyList =
      insertAfterTies (fun u => -(k.priorityOf u).toInt) t k.readyList := by
  have hless : ∀ a b : Tid, (prioDetect k a b = true) ↔
      -(k.priorityOf a).toInt < -(k.priorityOf b).toInt := by
    intro a b
    simp [prioDetect, Int32.lt_iff_toInt_lt]
  show listInsertOrdered (prioDetect k) t k.readyList = _
  unfold listInsertOrdered insertAfterTies
  congr 1
  funext a b
  exact propext (hless a b)

/-- Inserting into `wait_list` is inserting behind the ties in the order of
ascending wake-up ticks. -/
theorem listInsertOrdered_leastSleep (k : Kernel) (t : Tid) (l : List Tid) :
    listInsertOrdered (leastSleep k) t l =
      insertAfterTies (fun u => (k.wakeTickOf u).toInt) t l := by
  have hless : ∀ a b : Tid, (leastSleep k a b = true) ↔
      (k.wakeTickOf a).toInt < (k.wakeTickOf b).toInt := by
    intro a b
    simp [leastSleep, Int64.lt_iff_toInt_lt]
  unfold listInsertOrdered insertAfterTies
  congr 1
  funext a b
  exact propext (hless a b)

@[simp] theorem readyInsert_threads : (readyInsert k t).threads = k.threads := rfl
@[simp] theorem readyInsert_allList : (readyInsert k t).allList = k.allList := rfl
@[simp] theorem readyInsert_waitList : (readyInsert k t).waitList = k.waitList := rfl
@[simp] theorem readyInsert_waiters : (readyInsert k t).waiters = k.waiters := rfl
@[simp] theorem readyInsert_current : (readyInsert k t).current = k.current := rfl
@[simp] theorem readyInsert_idleThread : (readyInsert k t).idleThread = k.idleThread := rfl
@[simp] theorem readyInsert_initialThread :
    (readyInsert k t).initialThread = k.initialThread := rfl
@[simp] theorem readyInsert_ticks : (readyInsert k t).ticks = k.ticks := rfl
@[simp] theorem readyInsert_hist : (readyInsert k t).hist = .enqueue t :: k.hist := rfl
@[simp] theorem readyInsert_statusOf : (readyInsert k t).statusOf u = k.statusOf u := rfl
@[simp] theorem readyInsert_priorityOf : (readyInsert k t).priorityOf u = k.priorityOf u := rfl
@[simp] theorem readyInsert_wakeTickOf : (readyInsert k t).wakeTickOf u = k.wakeTickOf u := rfl

/-! ## Equations of the operations -/

theorem assertThat_pos {c : Prop} [Decidable c] {text : String} (h : c) :
    assertThat c text = .ok () := if_pos h

theorem threadAt_eq (h : k.threads t = some th) : threadAt k t = .ok th := by
  simp [threadAt, h]

theorem threadCurrent_eq (h : k.threads k.current = some th) (hs : th.status = .running) :
    threadCurrent k = .ok th := by
  simp [threadCurrent, threadAt_eq h, assertThat_pos hs, bind, Except.bind, pure, Except.pure]

theorem threadUnblock_eq (h : k.threads t = some th) (hs : th.status = .blocked) :
    threadUnblock k t =
      .ok ((readyInsert k t).setThread t (some { th with status := .ready })) := by
  simp [threadUnblock, threadAt_eq h, assertThat_pos hs, bind, Except.bind, pure, Except.pure]

/-- The state a context switch to `n` leaves behind. -/
def switchTo (k : Kernel) (n : Tid) : Kernel where
  threads := fun u =>
    if u = n then (k.threads u).map fun th => { th with status := .running }
    else if u = k.current ∧ k.statusOf u = some .dying ∧ u ≠ k.initialThread then none
    else k.threads u
  allList := k.allList
  readyList := k.readyList.tail
  waitList := k.waitList
  waiters := k.waiters
  current := n
  idleThread := k.idleThread
  initialThread := k.initialThread
  ticks := k.ticks
  hist := .dispatch k.idleThread (some n) (k.readyList.map fun t => (t, k.priorityOf t)) :: k.hist

@[simp] theorem switchTo_allList : (switchTo k t).allList = k.allList := rfl
@[simp] theorem switchTo_readyList : (switchTo k t).readyList = k.readyList.tail := rfl
@[simp] theorem switchTo_waitList : (switchTo k t).waitList = k.waitList := rfl
@[simp] theorem switchTo_waiters : (switchTo k t).waiters = k.waiters := rfl
@[simp] theorem switchTo_current : (switchTo k t).current = t := rfl
@[simp] theorem switchTo_idleThread : (switchTo k t).idleThread = k.idleThread := rfl
@[simp] theorem switchTo_initialThread :
    (switchTo k t).initialThread = k.initialThread := rfl
@[simp] theorem switchTo_ticks : (switchTo k t).ticks = k.ticks := rfl
@[simp] theorem switchTo_hist : (switchTo k t).hist =
    .dispatch k.idleThread (some t) (k.readyList.map fun t => (t, k.priorityOf t)) :: k.hist := rfl

/-- Only the two threads of a switch change their status. -/
theorem switchTo_statusOf : (switchTo k t).statusOf u =
    if u = t then (k.statusOf u).map fun _ => .running
    else if u = k.current ∧ k.statusOf u = some .dying ∧ u ≠ k.initialThread then none
    else k.statusOf u := by
  unfold switchTo Kernel.statusOf
  by_cases hu : u = t
  · simp [hu, Function.comp_def]
  · by_cases hd : u = k.current ∧ Option.map (·.status) (k.threads u) = some .dying ∧
        u ≠ k.initialThread
    · simp only [hu, if_false]
      rw [if_pos hd, if_pos hd]
      rfl
    · simp only [hu, if_false]
      rw [if_neg hd, if_neg hd]

/-- A switch changes no priority and no wake-up tick; it can only free a page. -/
theorem switchTo_threads_of_ne_none (h : (switchTo k t).threads u ≠ none) :
    (switchTo k t).priorityOf u = k.priorityOf u ∧
    (switchTo k t).wakeTickOf u = k.wakeTickOf u ∧
    (switchTo k t).sleepFrameOf u = k.sleepFrameOf u := by
  unfold switchTo Kernel.priorityOf Kernel.wakeTickOf Kernel.sleepFrameOf at *
  dsimp only at *
  split at h
  next hu =>
    rw [if_pos hu]
    cases k.threads u <;> exact ⟨rfl, rfl, rfl⟩
  next hu =>
    rw [if_neg hu]
    split at h
    next hd => exact absurd rfl h
    next hd =>
      rw [if_neg hd]
      exact ⟨rfl, rfl, rfl⟩

theorem nextThreadToRun_eq {n : Tid} (hnext : (k.readyList.head?.or k.idleThread) = some n) :
    nextThreadToRun k = (some n, { k with readyList := k.readyList.tail }.log
      (.dispatch k.idleThread (some n) (k.readyList.map fun t => (t, k.priorityOf t)))) := by
  unfold nextThreadToRun
  cases hready : k.readyList with
  | nil =>
      have hidle : k.idleThread = some n := by simpa [hready] using hnext
      simp [hidle, Kernel.log, hready]
  | cons a rest =>
      have ha : a = n := by simpa [hready] using hnext
      simp [ha, Kernel.log]

/-- `thread_schedule_tail` marks the current thread running and frees the
previous one's page if that thread is dying (and not the initial one). -/
theorem threadScheduleTail_eq {prev : Option Tid} {cth : Thread}
    (hcur : k.threads k.current = some cth)
    (hprev : ∀ p, prev = some p → p ≠ k.current ∧ ∃ pth, k.threads p = some pth) :
    threadScheduleTail k prev = .ok { k with
      threads := fun u =>
        if u = k.current then some { cth with status := .running }
        else if prev = some u ∧ k.statusOf u = some .dying ∧ u ≠ k.initialThread then none
        else k.threads u } := by
  unfold threadScheduleTail
  simp only [threadAt_eq hcur, bind, Except.bind]
  cases prev with
  | none =>
      simp only [pure, Except.pure, Kernel.setThread]
      congr 2
      funext u
      by_cases hu : u = k.current
      · simp [hu]
      · simp [hu]
  | some p =>
      rcases hprev p rfl with ⟨hne, pth, hp⟩
      have hp' : threadAt (k.setThread k.current (some { cth with status := .running })) p =
          .ok pth := by
        apply threadAt_eq
        simp [Function.update_of_ne hne, hp]
      have hstat : k.statusOf p = some pth.status := by simp [Kernel.statusOf, hp]
      simp only [hp']
      by_cases hdie : pth.status = .dying ∧ p ≠ k.initialThread
      · -- the previous thread is dying: its page is freed
        rw [if_pos (by simpa using hdie)]
        rw [assertThat_pos (by simpa using hne)]
        simp only [pure, Except.pure, Kernel.setThread]
        congr 2
        funext u
        by_cases hu : u = k.current
        · have hup : u ≠ p := fun h => hne (h.symm.trans hu)
          simp [hu, Function.update_of_ne (show k.current ≠ p from fun h => hne h.symm)]
        · by_cases hup : u = p
          · simp [hup, hne, hstat, hdie]
          · have hpu : ¬ (p = u) := fun h => hup h.symm
            simp [hu, hup, hpu]
      · -- it stays: only the new thread is written
        rw [if_neg (by simpa using hdie)]
        simp only [pure, Except.pure, Kernel.setThread]
        congr 2
        funext u
        by_cases hu : u = k.current
        · simp [hu]
        · by_cases hup : u = p
          · have hno : ¬ (k.statusOf p = some .dying ∧ p ≠ k.initialThread) := by
              rw [hstat]
              simpa using hdie
            rw [hup, if_neg hne, if_neg (fun h => hno h.2), Function.update_of_ne hne]
          · have hpu : ¬ (p = u) := fun h => hup h.symm
            simp [hu, hpu]

/-- `schedule` switches to the front of `ready_list`, or to the idle thread if
the list is empty. -/
theorem schedule_eq {n : Tid} {cth nth : Thread}
    (hcur : k.threads k.current = some cth) (hs : cth.status ≠ .running)
    (hnext : (k.readyList.head?.or k.idleThread) = some n)
    (hn : k.threads n = some nth) :
    schedule k = .ok (switchTo k n) := by
  unfold schedule
  rw [nextThreadToRun_eq hnext]
  set k₁ : Kernel := { k with readyList := k.readyList.tail }.log
    (.dispatch k.idleThread (some n) (k.readyList.map fun t => (t, k.priorityOf t))) with hk₁
  have hcur₁ : threadAt k₁ k.current = .ok cth := threadAt_eq hcur
  have hn₁ : threadAt k₁ n = .ok nth := threadAt_eq hn
  simp only [hcur₁, hn₁, assertThat_pos hs, bind, Except.bind]
  rw [threadScheduleTail_eq (show k₁.threads n = some nth from hn)]
  · congr 1
    simp only [switchTo, hk₁, Kernel.log, Kernel.mk.injEq, and_true]
    funext u
    by_cases hu : u = n
    · simp [hu, hn]
    · by_cases huc : u = k.current
      · have hcn : k.current ≠ n := fun h => hu (huc.trans h)
        simp [huc, hcn, Kernel.statusOf]
      · have hcu : ¬ (k.current = u) := fun h => huc h.symm
        simp [hu, huc, hcu]
  · intro p hp
    by_cases hcn : k.current = n
    · simp [hcn] at hp
    · have hpc : k.current = p := by simpa [hcn] using hp
      subst hpc
      exact ⟨hcn, cth, hcur⟩

end Pintos.Threads
