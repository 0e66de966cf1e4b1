import Pintos.Synch.System

/-! # What a step can do

The result of each function, and with it all that a step can do: one case for
each way through an act, one for each other label. The invariants are derived
from these cases; none of them unfolds a function again.
-/

namespace Pintos.Synch

open Threads (ThreadStatus assertThat)
open Lts (bind_eq_ok)

variable {k k' : Kernel} {t u n : Ptr} {s : Sema} {a : Act} {acts : List Act} {l c : Ptr}

theorem assertThat_ok {p : Prop} [Decidable p] {text : String} {r : Unit} :
    assertThat p text = .ok r ↔ p := by
  unfold assertThat
  split
  next hp => simp [hp]
  next hp => simp [hp]

/-- A check before something else. -/
theorem assertThat_bind {α : Type} {p : Prop} [Decidable p] {text : String}
    {f : Unit → Except String α} {r : α} :
    (assertThat p text >>= f) = .ok r ↔ p ∧ f () = .ok r := by
  rw [bind_eq_ok]
  constructor
  · intro h
    obtain ⟨r, hp, hf⟩ := h
    exact ⟨assertThat_ok.mp hp, hf⟩
  · rintro ⟨hp, hf⟩
    exact ⟨(), assertThat_ok.mpr hp, hf⟩

/-! ## Scheduling -/

/-- The thread that `next_thread_to_run` returns. -/
def Kernel.next (k : Kernel) : Option Ptr := k.readyList.head?.or k.idleThread

/-- The kernel after the switch to a thread. -/
@[simps -fullyApplied]
def switchTo (k : Kernel) (n : Ptr) : Kernel :=
  { k with
    status := fun t =>
      if t = n then some .running
      else if t = k.current ∧ k.status t = some .dying ∧ t ≠ k.initialThread then none
      else k.status t
    readyList := k.readyList.tail
    current := n
    threadTicks := 0
    hist := k.readyList.head?.elim .idle .dispatch :: k.hist }

/-- A switch ends with the page of the previous thread free, if that is dying. -/
theorem threadScheduleTail_eq {prev : Option Ptr} (hprev : prev ≠ some k.current) :
    threadScheduleTail k prev =
      .ok { k with
        status := fun t =>
          if t = k.current then some .running
          else if prev = some t ∧ k.status t = some .dying ∧ t ≠ k.initialThread then none
          else k.status t
        threadTicks := 0 } := by
  have hrunning : ∀ t, t ≠ k.current →
      Function.update k.status k.current (some .running) t = k.status t :=
    fun t ht => Function.update_of_ne ht ..
  unfold threadScheduleTail
  dsimp only [Kernel.setStatus]
  cases prev with
  | none =>
      dsimp only
      congr 2
      funext t
      by_cases ht : t = k.current
      · simp [ht]
      · simp [ht]
  | some u =>
      have hu : u ≠ k.current := fun heq => hprev (congrArg some heq)
      dsimp only
      simp only [hrunning u hu]
      split
      next hdying =>
        refine assertThat_bind.mpr ⟨hu, ?_⟩
        congr 2
        funext t
        by_cases ht : t = u
        · simp [ht, hu, hdying]
        · simp [ht, Ne.symm ht, Function.update_apply]
      next hdying =>
        congr 2
        funext t
        by_cases ht : t = u
        · subst ht
          simp [hu, hdying]
        · simp [Ne.symm ht, Function.update_apply]

theorem nextThreadToRun_eq : nextThreadToRun k = (k.next,
    { k with
      readyList := k.readyList.tail
      hist := k.readyList.head?.elim .idle .dispatch :: k.hist }) := by
  unfold nextThreadToRun Kernel.next
  cases hready : k.readyList with
  | nil => simp [Kernel.log, hready]
  | cons n ready => rfl

/-- `schedule` switches to the next thread, if the running one has given up its status. -/
theorem schedule_iff : schedule k = .ok k' ↔ k.status k.current ≠ some .running ∧
    ∃ n, k.next = some n ∧ k.status n ≠ none ∧ switchTo k n = k' := by
  unfold schedule
  rw [nextThreadToRun_eq]
  dsimp only
  rw [assertThat_bind]
  refine and_congr_right fun _ => ?_
  cases hnext : k.next with
  | none => simp
  | some n =>
      dsimp only
      have hprev : (if k.current ≠ n then some k.current else none) ≠ some n := by
        split
        next hn => simpa using hn
        next => simp
      rw [assertThat_bind, threadScheduleTail_eq hprev]
      have hstatus : (fun t =>
          if t = n then some .running
          else if (if k.current ≠ n then some k.current else none) = some t ∧
            k.status t = some .dying ∧ t ≠ k.initialThread then none
          else k.status t) = (switchTo k n).status := by
        funext t
        show _ = if _ then _ else if _ then _ else _
        by_cases ht : t = n
        · rw [if_pos ht, if_pos ht]
        · rw [if_neg ht, if_neg ht]
          by_cases hcur : k.current = n
          · simp [hcur, ht]
          · simp only [if_pos hcur, Option.some.injEq, eq_comm]
      constructor
      · rintro ⟨hlive, heq⟩
        refine ⟨n, rfl, hlive, ?_⟩
        rw [← Except.ok.inj heq]
        exact congrArg (fun st => { switchTo k n with status := st }) hstatus.symm
      · rintro ⟨m, hm, hlive, rfl⟩
        cases hm
        exact ⟨hlive, congrArg (fun st => Except.ok { switchTo k n with status := st }) hstatus⟩

/-- The kernel once a blocked thread is ready. -/
def wakeUp (k : Kernel) (t : Ptr) : Kernel := (readyPush k t).setStatus t (some .ready)

theorem threadUnblock_iff :
    threadUnblock k t = .ok k' ↔ k.status t = some .blocked ∧ wakeUp k t = k' := by
  unfold threadUnblock
  rw [assertThat_bind, assertThat_bind]
  constructor
  · rintro ⟨-, hblocked, heq⟩
    exact ⟨hblocked, Except.ok.inj heq⟩
  · rintro ⟨hblocked, rfl⟩
    refine ⟨?_, hblocked, rfl⟩
    rw [hblocked]
    exact Option.some_ne_none _

/-! ## Semaphores -/

/-- The kernel without the first waiter of a semaphore, which is ready. -/
def popWaiter (k : Kernel) (s : Sema) : Kernel :=
  match k.waiters s with
  | [] => k
  | t :: ts => wakeUp ((k.setWaiters s ts).log (.wake t s)) t

theorem popWaiter_value : (popWaiter k s).value = k.value := by
  unfold popWaiter
  split
  next => rfl
  next => rfl

theorem popWaiter_rest : (popWaiter k s).rest = k.rest := by
  unfold popWaiter
  split
  next => rfl
  next => rfl

theorem popWaiter_allList : (popWaiter k s).allList = k.allList := by
  unfold popWaiter
  split
  next => rfl
  next => rfl

theorem popWaiter_waiters : (popWaiter k s).waiters =
    Function.update k.waiters s (k.waiters s).tail := by
  unfold popWaiter
  split
  next hw => rw [hw, List.tail_nil, ← hw, Function.update_eq_self]
  next t ts hw =>
    rw [hw]
    rfl

/-- The kernel after `sema_up`. -/
def raised (k : Kernel) (s : Sema) : Kernel :=
  ((popWaiter k s).setValue s ((k.value s + 1) % uintRange)).log (.up s)

theorem raised_value : (raised k s).value =
    Function.update k.value s ((k.value s + 1) % uintRange) := by
  show Function.update (popWaiter k s).value s _ = _
  rw [popWaiter_value]

theorem raised_rest : (raised k s).rest = k.rest := popWaiter_rest

theorem raised_waiters : (raised k s).waiters =
    Function.update k.waiters s (k.waiters s).tail := popWaiter_waiters

theorem wakeFirst_iff : wakeFirst k s = .ok k' ↔
    (∀ t, (k.waiters s).head? = some t → k.status t = some .blocked) ∧ popWaiter k s = k' := by
  unfold wakeFirst popWaiter
  cases k.waiters s with
  | nil => simp
  | cons t ts => simp [threadUnblock_iff]

theorem semaUp_iff : semaUp k s = .ok k' ↔
    (∀ t, (k.waiters s).head? = some t → k.status t = some .blocked) ∧ raised k s = k' := by
  unfold semaUp raised
  rw [bind_eq_ok, ← popWaiter_value (k := k) (s := s)]
  constructor
  · rintro ⟨k₁, h₁, heq⟩
    obtain ⟨hw, rfl⟩ := wakeFirst_iff.mp h₁
    exact ⟨hw, Except.ok.inj heq⟩
  · rintro ⟨hw, rfl⟩
    exact ⟨_, wakeFirst_iff.mpr ⟨hw, rfl⟩, rfl⟩

/-- The kernel when the running thread has joined the waiters of a semaphore. -/
def asleep (k : Kernel) (s : Sema) (acts : List Act) : Kernel :=
  (((k.setWaiters s (k.waiters s ++ [k.current])).setRest k.current (.retest s :: acts)).log
    (.sleep k.current s)).setStatus k.current (some .blocked)

/-- The kernel when the running thread has taken one from the value of a semaphore. -/
def taken (k : Kernel) (s : Sema) (acts : List Act) : Kernel :=
  ((k.setValue s (k.value s - 1)).setRest k.current acts).log (.down k.current s)

/-- The kernel when the running thread has made way. -/
def yielded (k : Kernel) : Kernel :=
  (if k.idleThread ≠ some k.current then readyPush k k.current else k).setStatus k.current
    (some .ready)

theorem threadYield_eq : threadYield k = schedule (yielded k) := by
  unfold threadYield yielded
  by_cases hidle : k.idleThread ≠ some k.current
  · simp only [if_pos hidle]
    rfl
  · simp only [if_neg hidle]

/-- The kernel when the running thread has ended. -/
def ended (k : Kernel) : Kernel :=
  ({ k with allList := k.allList.erase k.current }.setRest k.current []).setStatus k.current
    (some .dying)

/-- The kernel when the running thread does not hold a lock any more, and has not upped its
semaphore yet. -/
def unlisted (k : Kernel) (l : Ptr) : Kernel :=
  (k.setHolder l none).setLockList k.current ((k.lockList k.current).erase l)

/-- The kernel with a tick counted. -/
def ticked (k : Kernel) : Kernel := { countTick k with threadTicks := k.threadTicks + 1 }

/-! ## Acts -/

/-- What can happen when the running thread executes an act. -/
inductive Exec (k : Kernel) (acts : List Act) : Act → Kernel → Prop where
  | sleep {s : Sema} {a : Act} {k' : Kernel} (ha : a = .down s ∨ a = .retest s) (hv : k.value s = 0)
      (hs : schedule (asleep k s acts) = .ok k') : Exec k acts a k'
  | take {s : Sema} {a : Act} (ha : a = .down s ∨ a = .retest s) (hv : k.value s ≠ 0) :
      Exec k acts a (taken k s acts)
  | tryTake {s : Sema} (hv : k.value s ≠ 0) : Exec k acts (.tryDown s) (taken k s acts)
  | tryFails {s : Sema} (hv : k.value s = 0) : Exec k acts (.tryDown s) (k.setRest k.current acts)
  | up {s : Sema} (hw : ∀ t, (k.waiters s).head? = some t → k.status t = some .blocked) :
      Exec k acts (.up s) (raised (k.setRest k.current acts) s)
  | checkFree {l : Ptr} (hl : k.holder l ≠ some k.current) :
      Exec k acts (.checkFree l) (k.setRest k.current acts)
  | setHolder {l : Ptr} :
      Exec k acts (.setHolder l) ((k.setHolder l (some k.current)).setRest k.current acts)
  | pushLock {l : Ptr} (hlisted : k.listed = true) :
      Exec k acts (.pushLock l)
        ((k.setLockList k.current (k.lockList k.current ++ [l])).setRest k.current acts)
  | clearHolder {l : Ptr} (hl : k.holder l = some k.current) :
      Exec k acts (.clearHolder l) ((k.setHolder l none).setRest k.current acts)
  | removeLock {l : Ptr} (hl : l ∈ k.lockList k.current) :
      Exec k acts (.removeLock l)
        ((k.setRest k.current acts).setLockList k.current ((k.lockList k.current).erase l))
  | enqueueWaiter {c l : Ptr} (hl : k.holder l = some k.current) :
      Exec k acts (.enqueueWaiter c l)
        (((((k.setValue (.ofWaiter k.current) 0).setWaiters (.ofWaiter k.current) []).setConds c
          (k.conds c ++ [k.current])).setRest k.current acts).log (.wait k.current c))
  | signalNone {c l : Ptr} (hl : k.holder l = some k.current) (hc : k.conds c = []) :
      Exec k acts (.signal c l) (k.setRest k.current acts)
  | signal {c l t : Ptr} {ts : List Ptr} (hl : k.holder l = some k.current) (hc : k.conds c = t :: ts) :
      Exec k acts (.signal c l)
        (((k.setConds c ts).setRest k.current (.up (.ofWaiter t) :: acts)).log (.signal t c))
  | broadcastEnd {c l : Ptr} (hc : k.conds c = []) :
      Exec k acts (.broadcast c l) (k.setRest k.current acts)
  | broadcast {c l : Ptr} (hc : k.conds c ≠ []) :
      Exec k acts (.broadcast c l) (k.setRest k.current (.signal c l :: .broadcast c l :: acts))
  | loadTid :
      Exec k acts .loadTid
        ({ k with newTid := Function.update k.newTid k.current k.nextTid }.setRest k.current acts)
  | storeTid (ht : k.newTid k.current ≠ intMax) :
      Exec k acts .storeTid
        ({ k with nextTid := k.newTid k.current + 1 }.setRest k.current acts)
  | setTid {t : Ptr} :
      Exec k acts (.setTid t)
        (({ k with tid := Function.update k.tid t (k.newTid k.current) }.setRest
          k.current acts).log (.named t (k.newTid k.current)))
  | unblock {t : Ptr} (ht : k.status t = some .blocked) :
      Exec k acts (.unblock t) (wakeUp (k.setRest k.current acts) t)
  | yield {k' : Kernel} (hs : schedule (yielded (k.setRest k.current acts)) = .ok k') :
      Exec k acts .yield k'
  | finish {k' : Kernel} (hl : k.lockList k.current = []) (hs : schedule (ended k) = .ok k')
      (hlisted : k.listed = true) : Exec k acts .releaseLocks k'
  | releaseLock {l : Ptr} (hl : k.holder l = some k.current)
      (hmem : (k.lockList k.current).head? = some l)
      (hw : ∀ t, (k.waiters (.ofLock l)).head? = some t → k.status t = some .blocked)
      (hlisted : k.listed = true) :
      Exec k acts .releaseLocks (raised (unlisted k l) (.ofLock l))
  | setIdle :
      Exec k acts .setIdle ({ k with idleThread := some k.current }.setRest k.current acts)
  | idleBlock {k' : Kernel}
      (hs : schedule ((k.setRest k.current [.halt]).setStatus k.current (some .blocked)) =
        .ok k') : Exec k acts .idleBlock k'

theorem semaTest_cases (ha : a = .down s ∨ a = .retest s) (h : semaTest k s acts = .ok k') :
    Exec k acts a k' := by
  unfold semaTest at h
  split at h
  next hv => exact .sleep ha hv h
  next hv =>
    obtain rfl := Except.ok.inj h
    exact .take ha hv

theorem releaseRound_cases (h : releaseRound k = .ok k') : Exec k acts .releaseLocks k' := by
  obtain ⟨hlisted, h⟩ := assertThat_bind.mp h
  split at h
  next hl => exact .finish hl h hlisted
  next l ls hl =>
    obtain ⟨hheld, h⟩ := assertThat_bind.mp h
    obtain ⟨k₁, h₁, h⟩ := bind_eq_ok.mp h
    obtain ⟨-, h₁⟩ := assertThat_bind.mp h₁
    obtain rfl := Except.ok.inj h₁
    obtain ⟨hw, rfl⟩ := semaUp_iff.mp h
    exact .releaseLock hheld (by rw [hl]; rfl) hw hlisted

/-- An act that is executed does one of these. -/
theorem exec_cases (h : exec k acts a = .ok k') : Exec k acts a k' := by
  cases a with
  | down s => exact semaTest_cases (.inl rfl) h
  | retest s => exact semaTest_cases (.inr rfl) h
  | tryDown s =>
      obtain rfl := Except.ok.inj h
      unfold semaTryDown
      split
      next hv => exact .tryTake (Nat.pos_iff_ne_zero.mp hv)
      next hv => exact .tryFails (Nat.eq_zero_of_not_pos hv)
  | up s =>
      obtain ⟨hw, rfl⟩ := semaUp_iff.mp h
      exact .up hw
  | checkFree l =>
      obtain ⟨hl, h⟩ := assertThat_bind.mp h
      obtain rfl := Except.ok.inj h
      exact .checkFree hl
  | setHolder l =>
      obtain rfl := Except.ok.inj h
      exact .setHolder
  | pushLock l =>
      obtain ⟨hlisted, h⟩ := assertThat_bind.mp h
      obtain rfl := Except.ok.inj h
      exact .pushLock hlisted
  | clearHolder l =>
      obtain ⟨hl, h⟩ := assertThat_bind.mp h
      obtain rfl := Except.ok.inj h
      exact .clearHolder hl
  | removeLock l =>
      obtain ⟨hl, h⟩ := assertThat_bind.mp h
      obtain rfl := Except.ok.inj h
      exact .removeLock hl
  | enqueueWaiter c l =>
      obtain ⟨hl, h⟩ := assertThat_bind.mp h
      obtain rfl := Except.ok.inj h
      exact .enqueueWaiter hl
  | signal c l =>
      obtain ⟨hl, h⟩ := assertThat_bind.mp h
      split at h
      next hc =>
        obtain rfl := Except.ok.inj h
        exact .signalNone hl hc
      next t ts hc =>
        obtain rfl := Except.ok.inj h
        exact .signal hl hc
  | broadcast c l =>
      dsimp only [exec] at h
      split at h
      next hc =>
        obtain rfl := Except.ok.inj h
        exact .broadcastEnd hc
      next t ts hc =>
        obtain rfl := Except.ok.inj h
        exact .broadcast (by rw [hc]; exact List.cons_ne_nil _ _)
  | loadTid =>
      obtain rfl := Except.ok.inj h
      exact .loadTid
  | storeTid =>
      obtain ⟨ht, h⟩ := assertThat_bind.mp h
      obtain rfl := Except.ok.inj h
      exact .storeTid ht
  | setTid t =>
      obtain rfl := Except.ok.inj h
      exact .setTid
  | unblock t =>
      obtain ⟨ht, rfl⟩ := threadUnblock_iff.mp h
      exact .unblock ht
  | yield => exact .yield (threadYield_eq.symm.trans h)
  | releaseLocks => exact releaseRound_cases h
  | setIdle =>
      obtain rfl := Except.ok.inj h
      exact .setIdle
  | idleBlock => exact .idleBlock h
  | halt => cases h

/-! ## Steps -/

/-- What can happen in a step. -/
inductive Happens (k : Kernel) : Label → Kernel → Prop where
  | call {c : Call} (hc : c.Allowed k) (hidle : k.todo = []) : Happens k (.call c) (begin k c)
  | exec {a : Act} {acts : List Act} {k' : Kernel} (htodo : k.todo = a :: acts)
      (he : Exec k acts a k') : Happens k .run k'
  | tick (hon : InterruptsOn k) (ht : k.threadTicks + 1 < timeSlice) :
      Happens k .tick (ticked (leaveHalt k))
  | slice {k' : Kernel} (hon : InterruptsOn k) (ht : timeSlice ≤ k.threadTicks + 1)
      (hs : schedule (yielded (ticked (leaveHalt k))) = .ok k') : Happens k .tick k'
  | device {p : Ptr} (hon : InterruptsOn k)
      (hw : ∀ t, (k.waiters (.plain p)).head? = some t → k.status t = some .blocked) :
      Happens k (.device p) (raised (leaveHalt k) (.plain p))
  | setPagedir {b : Bool} (hidle : k.todo = []) :
      Happens k (.setPagedir b) { k with pagedir := Function.update k.pagedir k.current b }

theorem leaveHalt_threadTicks : (leaveHalt k).threadTicks = k.threadTicks := by
  unfold leaveHalt
  split
  next => rfl
  next => rfl

theorem leaveHalt_waiters : (leaveHalt k).waiters = k.waiters := by
  unfold leaveHalt
  split
  next => rfl
  next => rfl

theorem leaveHalt_status : (leaveHalt k).status = k.status := by
  unfold leaveHalt
  split
  next => rfl
  next => rfl

/-- A step does one of these. -/
theorem step_cases {b : Label} (h : Step k b k') :
    k.status k.current = some .running ∧ Happens k b k' := by
  obtain ⟨hen, h⟩ := h
  obtain ⟨_, hcur, h⟩ := bind_eq_ok.mp h
  refine ⟨(assertThat_bind.mp hcur).1, ?_⟩
  cases b with
  | call c =>
      obtain rfl := Except.ok.inj h
      exact .call hen.2 hen.1
  | run =>
      unfold perform at h
      dsimp only at h
      split at h
      next => cases h
      next a acts htodo => exact .exec htodo (exec_cases h)
  | tick =>
      have h' : (if (leaveHalt k).threadTicks + 1 ≥ timeSlice then
          threadYield (ticked (leaveHalt k)) else .ok (ticked (leaveHalt k))) = .ok k' := h
      rw [leaveHalt_threadTicks, threadYield_eq] at h'
      split at h'
      next ht => exact .slice hen ht h'
      next ht =>
        obtain rfl := Except.ok.inj h'
        exact .tick hen (Nat.lt_of_not_le ht)
  | device p =>
      obtain ⟨hw, rfl⟩ := semaUp_iff.mp h
      rw [leaveHalt_waiters, leaveHalt_status] at hw
      exact .device hen hw
  | setPagedir b =>
      obtain rfl := Except.ok.inj h
      exact .setPagedir hen

end Pintos.Synch
