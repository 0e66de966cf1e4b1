import Pintos.Threads.Queues

/-! # What one step of the thread system can do

`Effect k a k'` says once, for each label, what state it leads to; `step_ok`
shows that from a state with consistent queues every enabled label leads to
such a state, to consistent queues again, and to no failed assertion. The
properties of whole runs are proved by cases on `Effect`.
-/

namespace Pintos.Threads

open OrderedInsert

variable {k k' : Kernel} {a : Act} {t : Tid} {run : Option Tid}

/-- The queues are consistent between two operations. -/
@[reducible] def Inv (k : Kernel) : Prop := Queues (some k.current) none k

/-! ## Waking up -/

/-- One round of the loop of `timer_interrupt`: the front of `wait_list` goes
to `ready_list`. -/
def wakeOne (k : Kernel) (t : Tid) : Kernel :=
  let k := { k with waitList := k.waitList.tail }.log (.wake t)
  (readyInsert k t).setThread t ((k.threads t).map fun th => { th with status := .ready })

/-- The sleepers a timer interrupt finds due, in the order of `wait_list`. -/
def due (k : Kernel) : List Tid := k.waitList.takeWhile fun t => k.wakeTickOf t ≤ k.ticks

/-- The effect of the loop of `timer_interrupt`. -/
def wakeAll (k : Kernel) : Kernel := (due k).foldl wakeOne k

@[simp] theorem wakeOne_waitList : (wakeOne k t).waitList = k.waitList.tail := rfl
@[simp] theorem wakeOne_ticks : (wakeOne k t).ticks = k.ticks := rfl
@[simp] theorem wakeOne_current : (wakeOne k t).current = k.current := rfl

@[simp] theorem wakeOne_wakeTickOf {u : Tid} : (wakeOne k t).wakeTickOf u = k.wakeTickOf u := by
  unfold wakeOne
  by_cases hu : u = t
  · subst hu
    cases hth : k.threads u <;> simp [Kernel.wakeTickOf, hth]
  · simp [Kernel.wakeTickOf, hu]

/-- Waking threads does not switch to one of them. -/
theorem foldl_wakeOne_current (l : List Tid) (k : Kernel) :
    (l.foldl wakeOne k).current = k.current := by
  induction l generalizing k with
  | nil => rfl
  | cons b l ih => exact ih (wakeOne k b)

theorem due_wakeOne {rest : List Tid} (hw : k.waitList = t :: rest)
    (hdue : k.wakeTickOf t ≤ k.ticks) : due k = t :: due (wakeOne k t) := by
  unfold due
  rw [hw, List.takeWhile_cons]
  simp [hw, hdue]

/-- The loop succeeds, wakes exactly the sleepers that are due and keeps the
queues consistent. Induction on `wait_list`, one round at a time. -/
theorem wakeExpired_eq (h : Queues run none k) :
    wakeExpired k.waitList k = .ok (wakeAll k) ∧ Queues run none (wakeAll k) := by
  -- by induction on `wait_list`, from whose front each round takes a thread
  suffices hgen : ∀ (l : List Tid) (k : Kernel), Queues run none k → k.waitList = l →
      wakeExpired l k = .ok (wakeAll k) ∧ Queues run none (wakeAll k) from hgen _ k h rfl
  intro l
  induction l with
  | nil =>
      intro k h hw
      have hdue : due k = [] := by simp [due, hw]
      rw [wakeAll, hdue]
      exact ⟨rfl, h⟩
  | cons t rest ih =>
      intro k h hw
      rcases h.wait_thread (t := t) (by rw [hw]; exact List.mem_cons_self ..) with ⟨th, hth, hs⟩
      have hwake : k.wakeTickOf t = th.wakeTick := by simp [Kernel.wakeTickOf, hth]
      unfold wakeExpired
      simp only [threadAt_eq hth, bind, Except.bind]
      by_cases hle : th.wakeTick ≤ k.ticks
      · -- the front is due: one round, then the rest of the list
        rw [if_pos hle]
        have hloose : Queues run (some t) ({ k with waitList := rest }.log (.wake t)) :=
          let h' := h.popWait hw
          { h' with }
        rcases hloose.threadUnblock_ok with ⟨th', hth', heq, hq⟩
        have hth'' : th' = th := by
          have : k.threads t = some th' := hth'
          rw [hth] at this
          exact (Option.some.inj this).symm
        subst hth''
        have hone : (readyInsert ({ k with waitList := rest }.log (.wake t)) t).setThread t
            (some { th' with status := .ready }) = wakeOne k t := by
          simp [wakeOne, hw, Kernel.log, hth]
        rw [hone] at heq hq
        rcases ih (wakeOne k t) hq (by simp [hw]) with ⟨hrest, hqrest⟩
        have hall : wakeAll k = wakeAll (wakeOne k t) := by
          unfold wakeAll
          rw [due_wakeOne hw (by rw [hwake]; exact hle), List.foldl_cons]
        rw [heq, hall]
        exact ⟨hrest, hqrest⟩
      · -- the list is sorted, so nothing behind the front is due either
        rw [if_neg hle]
        have hdue : due k = [] := by simp [due, hw, hwake, hle]
        rw [wakeAll, hdue]
        exact ⟨rfl, h⟩

/-! ## The effects -/

/-- The state in which the running thread calls `schedule`, for each operation
that does. -/
def descheduled (k : Kernel) (th : Thread) : Act → Kernel
  | .block => ({ k with waiters := k.waiters ++ [k.current] } : Kernel).setThread k.current
      (some { th with status := .blocked })
  | .idleBlock => k.setThread k.current (some { th with status := .blocked })
  | .exit => ({ k with allList := k.allList.erase k.current } : Kernel).setThread k.current
      (some { th with status := .dying })
  | .yield => (if k.idleThread ≠ some k.current then readyInsert k k.current else k).setThread
      k.current (some { th with status := .ready })
  | .sleepBlock =>
      let frame := th.sleepFrame.getD (0, 0)
      let awake := { th with wakeTick := frame.1 + frame.2, sleepFrame := none }
      let k₁ := k.setThread k.current (some awake)
      let k₂ := { k₁ with waitList := listInsertOrdered (leastSleep k₁) k.current k.waitList }
      (k₂.log (.sleep k.current)).setThread k.current (some { awake with status := .blocked })
  | _ => k

/-- What the caller of `schedule` does before it leaves the processor and the
idle thread where they are. -/
theorem descheduled_current {th : Thread} : (descheduled k th a).current = k.current := by
  unfold descheduled
  split
  case h_4 =>
    by_cases hidle : k.idleThread ≠ some k.current
    · simp [hidle]
    · simp [hidle]
  all_goals rfl

theorem descheduled_idleThread {th : Thread} :
    (descheduled k th a).idleThread = k.idleThread := by
  unfold descheduled
  split
  case h_4 =>
    by_cases hidle : k.idleThread ≠ some k.current
    · simp [hidle]
    · simp [hidle]
  all_goals rfl

/-- The operations that end in `schedule`. -/
@[reducible] def Deschedules (a : Act) : Prop :=
  a = .block ∨ a = .idleBlock ∨ a = .exit ∨ a = .yield ∨ a = .sleepBlock

/-- What a step can do. -/
inductive Effect (k : Kernel) : Act → Kernel → Prop where
  /-- The new thread goes straight to `ready_list`. -/
  | create {t : Tid} {p : Int32} (ht : k.threads t = none) :
      Effect k (.create t p)
        ((readyInsert { k.setThread t (some (initThread p)) with
            allList := k.allList ++ [t] } t).setThread t
          (some { initThread p with status := .ready }))
  | createFails : Effect k .createFails k
  | unblock {t : Tid} {th : Thread} (ht : t ∈ k.waiters) (hth : k.threads t = some th) :
      Effect k (.unblock t)
        ((readyInsert { k with waiters := k.waiters.erase t } t).setThread t
          (some { th with status := .ready }))
  | setPriority {p : Int32} {th : Thread} (hth : k.threads k.current = some th) :
      Effect k (.setPriority p) (k.setThread k.current (some { th with priority := p }))
  | sleepRead {m : Int64} {th : Thread} (hth : k.threads k.current = some th) :
      Effect k (.sleepRead m)
        (k.setThread k.current (some { th with sleepFrame := some (k.ticks, m) }))
  | deschedule {a : Act} {n : Tid} {th : Thread} (ha : Deschedules a)
      (hth : k.threads k.current = some th)
      (hnext : ((descheduled k th a).readyList.head?.or k.idleThread) = some n)
      (hframe : a = .sleepBlock → th.sleepFrame ≠ none) :
      Effect k a (switchTo (descheduled k th a) n)
  | tick : Effect k .tick (wakeAll { k with ticks := k.ticks + 1 })

/-- `schedule` called in a state where the caller has stopped running. -/
theorem schedule_descheduled {th : Thread} {mid : Kernel} (hq : Queues none none mid)
    (hmid : mid.threads k.current = some th) (hc : mid.current = k.current)
    (hi : mid.idleThread = k.idleThread) :
    ∃ n, (mid.readyList.head?.or k.idleThread) = some n ∧
      schedule mid = .ok (switchTo mid n) ∧ Inv (switchTo mid n) := by
  have hcurrent : mid.threads mid.current = some th := by
    rw [hc]
    exact hmid
  rcases hq.schedule_ok hcurrent with ⟨n, hnext, heq, hinv⟩
  exact ⟨n, by rw [← hi]; exact hnext, heq, hinv⟩

/-- `thread_block` called by the running thread after `mid` was prepared. -/
theorem threadBlock_eq (th : Thread) (hth : k.threads k.current = some th)
    (hs : th.status = .running) :
    threadBlock k = schedule (k.setThread k.current (some { th with status := .blocked })) := by
  unfold threadBlock
  rw [threadCurrent_eq hth hs]
  rfl

/-- Every enabled operation succeeds, with the effect listed above, and keeps
the queues consistent. -/
theorem step_ok (h : Inv k) (hen : Enabled k a) :
    ∃ k', perform k a = .ok k' ∧ Effect k a k' ∧ Inv k' := by
  rcases h.running_thread with ⟨th, hth, hs⟩
  have hcur : threadCurrent k = .ok th := threadCurrent_eq hth hs
  cases a with
  | create t p =>
      rcases hen with ⟨_, ht, hp⟩
      -- the new thread is blocked and on no list until `thread_unblock`
      have hloose := h.addThread ht (show (initThread p).status = .blocked from rfl)
      rcases hloose.threadUnblock_ok with ⟨th', hth', heq, hq⟩
      have hnew : th' = initThread p := by simpa using hth'.symm
      subst hnew
      refine ⟨_, ?_, .create ht, hq⟩
      show threadCreate k t p = _
      unfold threadCreate
      rw [assertThat_pos hp]
      exact heq
  | createFails => exact ⟨k, rfl, .createFails, h⟩
  | unblock t =>
      have ht : t ∈ k.waiters := hen
      rcases (h.eraseWaiter ht).threadUnblock_ok with ⟨th', hth', heq, hq⟩
      exact ⟨_, heq, .unblock ht hth', hq⟩
  | setPriority p =>
      refine ⟨_, ?_, .setPriority hth, h.setRunning hs⟩
      show threadSetPriority k p = _
      unfold threadSetPriority
      rw [hcur]
      rfl
  | sleepRead m =>
      refine ⟨_, ?_, .sleepRead hth, h.setRunning hs⟩
      show timerSleepRead k m = _
      unfold timerSleepRead
      rw [hcur]
      rfl
  | block =>
      rcases schedule_descheduled (k := k) (h.block th hen.1) (Function.update_self ..)
          rfl rfl with
        ⟨n, hnext, heq, hinv⟩
      refine ⟨_, ?_, .deschedule (a := .block) (.inl rfl) hth hnext (by simp), hinv⟩
      show blockElsewhere k = _
      unfold blockElsewhere
      rw [threadBlock_eq th (by exact hth) hs]
      exact heq
  | idleBlock =>
      rcases schedule_descheduled (k := k) (h.idleBlock th hen) (Function.update_self ..)
          rfl rfl with
        ⟨n, hnext, heq, hinv⟩
      refine ⟨_, ?_, .deschedule (a := .idleBlock) (.inr (.inl rfl)) hth hnext (by simp), hinv⟩
      show threadBlock k = _
      rw [threadBlock_eq th hth hs]
      exact heq
  | exit =>
      rcases schedule_descheduled (k := k) (h.exit th hen.1) (Function.update_self ..)
          rfl rfl with
        ⟨n, hnext, heq, hinv⟩
      refine ⟨_, ?_, .deschedule (a := .exit) (.inr (.inr (.inl rfl))) hth hnext (by simp), hinv⟩
      show threadExit k = _
      unfold threadExit
      rw [hcur]
      exact heq
  | yield =>
      have hmid := h.yield hth
      -- the idle thread is not entered in the ready list
      have hthread : (descheduled k th .yield).threads k.current =
          some { th with status := .ready } := Function.update_self ..
      rcases schedule_descheduled (k := k) hmid hthread
          (by by_cases hi : k.idleThread ≠ some k.current <;> simp [hi])
          (by by_cases hi : k.idleThread ≠ some k.current <;> simp [hi]) with
        ⟨n, hnext, heq, hinv⟩
      refine ⟨_, ?_, .deschedule (a := .yield) (.inr (.inr (.inr (.inl rfl)))) hth hnext (by simp),
        hinv⟩
      show threadYield k = _
      unfold threadYield
      rw [hcur]
      have hc : (if k.idleThread ≠ some k.current then readyInsert k k.current else k).current =
          k.current := by
        by_cases hi : k.idleThread ≠ some k.current <;> simp [hi]
      simp only [bind, Except.bind, hc]
      exact heq
  | sleepBlock =>
      rcases hen with ⟨hidle, hframe⟩
      have hframe' : th.sleepFrame ≠ none := by simpa [Kernel.sleepFrameOf, hth] using hframe
      rcases Option.ne_none_iff_exists'.mp hframe' with ⟨⟨start, m⟩, hf⟩
      -- the thread sets its wake time and joins the list of sleepers before it blocks
      set awake : Thread := { th with wakeTick := start + m, sleepFrame := none } with hawake
      have hmid : Queues none none (descheduled k th .sleepBlock) := by
        have hsleep := h.sleep hidle (show awake.status = .running from hs) rfl
        simp only [descheduled, hf, Option.getD_some]
        exact { hsleep with }
      have hthread : (descheduled k th .sleepBlock).threads k.current =
          some { awake with status := .blocked } := by simp [descheduled, hf, hawake]
      rcases schedule_descheduled (k := k) hmid hthread rfl rfl with ⟨n, hnext, heq, hinv⟩
      refine ⟨_, ?_, .deschedule (a := .sleepBlock) (.inr (.inr (.inr (.inr rfl)))) hth hnext
        (fun _ => hframe'), hinv⟩
      show timerSleepBlock k = _
      unfold timerSleepBlock
      rw [hcur]
      simp only [bind, Except.bind, hf]
      rw [threadBlock_eq awake (by simp [hawake]) hs]
      simp only [descheduled, hf, Option.getD_some] at heq ⊢
      exact heq
  | tick =>
      have hq : Queues (some k.current) none { k with ticks := k.ticks + 1 } := { h with }
      rcases wakeExpired_eq hq with ⟨heq, hinv⟩
      have hc : (wakeAll { k with ticks := k.ticks + 1 }).current = k.current :=
        foldl_wakeOne_current _ _
      refine ⟨_, ?_, .tick, ?_⟩
      · show timerInterrupt k = _
        unfold timerInterrupt
        have hcur' : threadCurrent { k with ticks := k.ticks + 1 } = .ok th :=
          threadCurrent_eq (by exact hth) hs
        simp only [hcur', bind, Except.bind]
        exact heq
      · unfold Inv
        rw [hc]
        exact hinv

/-- A step from consistent queues has one of the effects listed above. -/
theorem step_cases (h : Inv k) (hs : Step k a k') : Effect k a k' ∧ Inv k' := by
  rcases step_ok h hs.1 with ⟨k'', heq, heff, hinv⟩
  have hk : k'' = k' := by
    rw [hs.2] at heq
    exact (Except.ok.inj heq).symm
  exact ⟨hk ▸ heff, hk ▸ hinv⟩

end Pintos.Threads
