import Mathlib.Data.Nat.ModEq
import Pintos.Synch.Elem

/-! # Semaphores

A thread that finds the value of a semaphore zero sleeps until `sema_up` wakes
it, and tests the value again only when it runs: in between another thread can
take the unit that it was woken for. It then goes back to sleep, but no unit is
left over while threads sleep: as many threads as the value says have been woken
and have not tested it yet. And no unit is taken that was not there.
-/

namespace Pintos.Synch

variable {k k' : Kernel} {p t u : Ptr} {s : Sema} {a : Act} {acts : List Act}

/-! ## No wake-up is lost -/

/-- `sema_up` has woken the thread, and it has not tested the value yet. -/
def OnTheWay (k : Kernel) (s : Sema) (t : Ptr) : Prop :=
  (k.rest t).head? = some (.retest s) ∧ t ∉ k.waiters s

/-- While threads sleep, every unit of the value has a thread on its way. -/
def Covered (k : Kernel) (s : Sema) : Prop :=
  k.waiters s ≠ [] → ∃ ts : List Ptr, ts.Nodup ∧ (∀ t ∈ ts, OnTheWay k s t) ∧
    k.value s ≤ ts.length

theorem Covered.of_zero (hv : k.value s = 0) : Covered k s :=
  fun _ => ⟨[], List.nodup_nil, fun _ ht => absurd ht List.not_mem_nil, hv.le⟩

/-- Nothing is added to the value, and whoever is on the way stays there. -/
theorem Covered.mono (h : Covered k s) (hv : k'.value s ≤ k.value s)
    (hw : k'.waiters s = k.waiters s)
    (hrest : ∀ t, (k.rest t).head? = some (.retest s) → k'.rest t = k.rest t) :
    Covered k' s := by
  intro hne
  rw [hw] at hne
  obtain ⟨ts, hnodup, hway, hlen⟩ := h hne
  refine ⟨ts, hnodup, fun t ht => ?_, hv.trans hlen⟩
  obtain ⟨hhead, hno⟩ := hway t ht
  unfold OnTheWay
  rw [hrest t hhead, hw]
  exact ⟨hhead, hno⟩

/-- The same, for a step of the running thread that does not end a sleep on `s`. -/
theorem Covered.advance (h : Covered k s) (htodo : k.todo = a :: acts) (ha : a ≠ .retest s)
    (hv : k'.value s ≤ k.value s) (hw : k'.waiters s = k.waiters s)
    (hrest : ∀ t, t ≠ k.current → k'.rest t = k.rest t) : Covered k' s := by
  refine h.mono hv hw fun t ht => hrest t ?_
  rintro rfl
  rw [show k.rest k.current = _ from htodo] at ht
  exact ha (Option.some.inj ht)

theorem Covered.congr (h : Covered k s) (hv : k'.value = k.value) (hw : k'.waiters = k.waiters)
    (hr : k'.rest = k.rest) : Covered k' s :=
  h.mono (by rw [hv]) (by rw [hw]) fun t _ => by rw [hr]

theorem Covered.scheduled (h : Covered k s) (hs : schedule k = .ok k') : Covered k' s := by
  obtain ⟨-, n, hn, -, rfl⟩ := schedule_iff.mp hs
  exact h.congr rfl rfl rfl

/-- A thread that takes a unit was at most one of those on the way. -/
theorem Covered.take (h : Covered k s) : Covered (taken k s acts) s := by
  intro hne
  obtain ⟨ts, hnodup, hway, hlen⟩ := h hne
  refine ⟨ts.erase k.current, hnodup.erase _, fun t ht => ?_, ?_⟩
  · obtain ⟨htc, hmem⟩ := hnodup.mem_erase_iff.mp ht
    obtain ⟨hhead, hno⟩ := hway t hmem
    refine ⟨?_, hno⟩
    show (Function.update k.rest k.current acts t).head? = _
    rw [Function.update_of_ne htc]
    exact hhead
  · show Function.update k.value s (k.value s - 1) s ≤ _
    rw [Function.update_self]
    rw [List.length_erase]
    split <;> omega

/-- `sema_up` sends the first waiter on its way for the unit that it adds. -/
theorem Queues.covered_raised (hq : Queues k p) (h : Covered k s) : Covered (raised k s) s := by
  intro hne
  rw [raised_waiters, Function.update_self] at hne
  cases hw : k.waiters s with
  | nil =>
      rw [hw] at hne
      exact absurd rfl hne
  | cons t waiters =>
      have hmem : t ∈ k.waiters s := hw ▸ List.mem_cons_self
      obtain ⟨ts, hnodup, hway, hlen⟩ := h (List.ne_nil_of_mem hmem)
      have hfresh : t ∉ ts := fun ht => (hway t ht).2 hmem
      refine ⟨t :: ts, List.nodup_cons.mpr ⟨hfresh, hnodup⟩, fun u hu => ?_, ?_⟩
      · unfold OnTheWay
        rw [raised_rest, raised_waiters, Function.update_self]
        rcases List.mem_cons.mp hu with rfl | hu
        · refine ⟨((hq.waiting u s).mp hmem).2, ?_⟩
          have hdistinct := hq.waitersNodup s
          rw [hw, List.nodup_cons] at hdistinct
          rw [hw]
          exact hdistinct.1
        · exact ⟨(hway u hu).1, fun hu' => (hway u hu).2 (List.mem_of_mem_tail hu')⟩
      · rw [raised_value, Function.update_self, List.length_cons]
        exact (Nat.mod_le _ _).trans (Nat.succ_le_succ hlen)

/-- For the other semaphores nothing changes. -/
theorem Queues.noneForgotten_raised (hq : Queues k p) (h : ∀ s, Covered k s) (s s' : Sema) :
    Covered (raised k s') s := by
  by_cases hs : s = s'
  · subst hs
    exact hq.covered_raised (h s)
  · refine (h s).mono ?_ ?_ fun t _ => by rw [raised_rest]
    · rw [raised_value, Function.update_of_ne hs]
    · rw [raised_waiters, Function.update_of_ne hs]

/-- No wake-up is lost. -/
def NoneForgotten (k : Kernel) : Prop := ∀ s, Covered k s

theorem NoneForgotten.scheduled (h : NoneForgotten k) (hs : schedule k = .ok k') :
    NoneForgotten k' := fun s => (h s).scheduled hs

/-- The running thread goes on, and adds nothing to a value. -/
theorem NoneForgotten.advance (h : NoneForgotten k) (htodo : k.todo = a :: acts)
    (ha : ∀ s, a ≠ .retest s) (hv : ∀ s, k'.value s ≤ k.value s) (hw : k'.waiters = k.waiters)
    (hrest : ∀ t, t ≠ k.current → k'.rest t = k.rest t) : NoneForgotten k' :=
  fun s => (h s).advance htodo (ha s) (hv s) (by rw [hw]) hrest

theorem NoneForgotten.setRest (h : NoneForgotten k) (htodo : k.todo = a :: acts)
    (ha : ∀ s, a ≠ .retest s) (r : List Act) : NoneForgotten (k.setRest k.current r) :=
  h.advance htodo ha (fun _ => le_rfl) rfl fun _ ht => Function.update_of_ne ht ..

theorem NoneForgotten.congr (h : NoneForgotten k) (hv : k'.value = k.value)
    (hw : k'.waiters = k.waiters) (hr : k'.rest = k.rest) : NoneForgotten k' :=
  fun s => (h s).congr hv hw hr

/-- The running thread goes to sleep, because the value is zero. -/
theorem NoneForgotten.asleep (h : NoneForgotten k) (htodo : k.todo = a :: acts)
    (ha : a = .down s ∨ a = .retest s) (hv : k.value s = 0) : NoneForgotten (asleep k s acts) := by
  intro s'
  by_cases hs : s' = s
  · subst hs
    exact .of_zero hv
  · refine (h s').advance htodo ?_ le_rfl (Function.update_of_ne hs ..)
      fun t ht => Function.update_of_ne ht ..
    rcases ha with rfl | rfl
    · exact nofun
    · exact fun heq => hs (Act.retest.inj heq).symm

theorem taken_value_le (s' : Sema) : (taken k s acts).value s' ≤ k.value s' := by
  show Function.update k.value s (k.value s - 1) s' ≤ k.value s'
  by_cases hs : s' = s
  · subst hs
    rw [Function.update_self]
    exact Nat.sub_le _ _
  · rw [Function.update_of_ne hs]

theorem NoneForgotten.taken (h : NoneForgotten k) (htodo : k.todo = a :: acts)
    (ha : ∀ s', a = .retest s' → s' = s) : NoneForgotten (taken k s acts) := by
  intro s'
  by_cases hs : s' = s
  · subst hs
    exact (h s').take
  · exact (h s').advance htodo (fun heq => hs (ha s' heq)) (taken_value_le s') rfl
      fun t ht => Function.update_of_ne ht ..

theorem NoneForgotten.yielded (h : NoneForgotten k) : NoneForgotten (yielded k) := by
  unfold Synch.yielded
  split
  next => exact h.congr rfl rfl rfl
  next => exact h.congr rfl rfl rfl

/-- An act loses no wake-up. -/
theorem NoneForgotten.exec (h : NoneForgotten k) (hs : Settled k p) (htodo : k.todo = a :: acts)
    (he : Exec k acts a k') : NoneForgotten k' := by
  cases he with
  | sleep ha hv hsched => exact (h.asleep htodo ha hv).scheduled hsched
  | take ha hv =>
      refine h.taken htodo fun s' heq => ?_
      rcases ha with rfl | rfl
      · cases heq
      · exact (Act.retest.inj heq).symm
  | tryTake hv => exact h.taken htodo (by simp)
  | tryFails hv => exact h.setRest htodo (by simp) acts
  | @up s hw =>
      have h₁ : Settled (k.setRest k.current acts) p :=
        hs.advance htodo (by simp [Act.OfIdle]) (by simp) ⟨rfl, rfl, rfl, rfl, rfl, rfl, rfl, rfl⟩
      exact fun s' => h₁.queues.noneForgotten_raised (h.setRest htodo (by simp) acts) s' s
  | checkFree hl => exact h.setRest htodo (by simp) acts
  | setHolder => exact (h.setRest htodo (by simp) acts).congr rfl rfl rfl
  | pushLock => exact (h.setRest htodo (by simp) acts).congr rfl rfl rfl
  | clearHolder hl => exact (h.setRest htodo (by simp) acts).congr rfl rfl rfl
  | removeLock hl => exact (h.setRest htodo (by simp) acts).congr rfl rfl rfl
  | @enqueueWaiter c l hl =>
      refine h.advance htodo (by simp) (fun s => ?_) hs.update_ownWaiters
        fun t ht => Function.update_of_ne ht ..
      show Function.update k.value (.ofWaiter k.current) 0 s ≤ k.value s
      by_cases hs : s = .ofWaiter k.current
      · subst hs
        rw [Function.update_self]
        exact Nat.zero_le _
      · rw [Function.update_of_ne hs]
  | signalNone hl hc => exact h.setRest htodo (by simp) acts
  | @signal c l t ts hl hc => exact (h.setRest htodo (by simp) _).congr rfl rfl rfl
  | broadcastEnd hc => exact h.setRest htodo (by simp) acts
  | broadcast hc => exact h.setRest htodo (by simp) _
  | loadTid => exact (h.setRest htodo (by simp) acts).congr rfl rfl rfl
  | storeTid ht => exact (h.setRest htodo (by simp) acts).congr rfl rfl rfl
  | setTid => exact (h.setRest htodo (by simp) acts).congr rfl rfl rfl
  | unblock ht => exact (h.setRest htodo (by simp) acts).congr rfl rfl rfl
  | yield hsched =>
      exact (h.setRest htodo (by simp) acts).yielded.scheduled hsched
  | finish hl hsched =>
      have h₁ : NoneForgotten (ended k) := (h.setRest htodo (by simp) []).congr rfl rfl rfl
      exact h₁.scheduled hsched
  | @releaseLock l hl hmem hw =>
      have h₁ : NoneForgotten (unlisted k l) := h.congr rfl rfl rfl
      have hq : Queues (unlisted k l) p := hs.queues.congr ⟨rfl, rfl, rfl, rfl, rfl, rfl, rfl, rfl⟩
      exact fun s' => hq.noneForgotten_raised h₁ s' (.ofLock l)
  | setIdle => exact (h.setRest htodo (by simp) acts).congr rfl rfl rfl
  | idleBlock hsched =>
      have h₁ : NoneForgotten ((k.setRest k.current [.halt]).setStatus k.current
          (some .blocked)) := (h.setRest htodo (by simp) [.halt]).congr rfl rfl rfl
      exact h₁.scheduled hsched

theorem NoneForgotten.leaveHalt (h : NoneForgotten k) : NoneForgotten (leaveHalt k) := by
  unfold Synch.leaveHalt
  split
  next htodo => exact h.setRest htodo nofun _
  next => exact h

theorem NoneForgotten.ticked (h : NoneForgotten k) : NoneForgotten (ticked k) := by
  unfold Synch.ticked countTick
  split
  next => exact h.congr rfl rfl rfl
  next =>
    split
    next => exact h.congr rfl rfl rfl
    next => exact h.congr rfl rfl rfl

/-- A thread between two calls is on its way to no semaphore. -/
theorem NoneForgotten.begin (h : NoneForgotten k) (hs : Settled k p) {c : Call}
    (hc : c.Allowed k) (hidle : k.todo = []) : NoneForgotten (begin k c) := by
  have hcur : ∀ r : List Act, NoneForgotten (k.setRest k.current r) := by
    intro r s
    refine (h s).mono le_rfl rfl fun t ht => Function.update_of_ne ?_ ..
    rintro rfl
    rw [show k.rest k.current = [] from hidle] at ht
    cases ht
  cases c with
  | threadCreate t =>
      -- the page of the new thread was free
      have hnew : k.rest t = [] := by
        by_contra hne
        exact (hs.queues.alive t hne).1 hc.2
      refine (hcur (threadCreate t)).congr rfl rfl ?_
      show Function.update (Function.update k.rest t []) k.current _ = _
      rw [← hnew, Function.update_eq_self]
      rfl
  | _ => exact hcur _

/-- A step loses no wake-up. -/
theorem NoneForgotten.step (h : NoneForgotten k) (hs : Settled k p) {b : Label}
    (hstep : Step k b k') : NoneForgotten k' := by
  obtain ⟨-, hhappens⟩ := step_cases hstep
  cases hhappens with
  | call hc hidle => exact h.begin hs hc hidle
  | exec htodo he => exact h.exec hs htodo he
  | tick hon ht => exact h.leaveHalt.ticked
  | slice hon ht hsched => exact h.leaveHalt.ticked.yielded.scheduled hsched
  | device hon hw =>
      exact fun s => hs.leaveHalt.queues.noneForgotten_raised h.leaveHalt s _
  | setPagedir hidle => exact h.congr rfl rfl rfl

theorem Reachable.noneForgotten (h : Reachable k) : NoneForgotten k := by
  obtain ⟨k₀, ⟨listed, main, p, started, value, hne, rfl⟩, hreach⟩ := h
  exact (hreach.invariant (P := fun k => Settled k p ∧ NoneForgotten k)
    (fun _ _ _ hs hk => ⟨hk.1.step hs, hk.2.step hk.1 hs⟩)
    ⟨settled_boot hne, fun s hw => absurd rfl hw⟩).2

/-- A thread on its way can run. -/
theorem Settled.ready_of_onTheWay (h : Settled k p) (ht : OnTheWay k s t) :
    t ∈ k.readyList ∨ t = k.current := by
  obtain ⟨hhead, hno⟩ := ht
  have hrest : k.rest t ≠ [] := by
    intro hnil
    rw [hnil] at hhead
    cases hhead
  obtain ⟨hlive, hdying⟩ := h.queues.alive t hrest
  cases hst : k.status t with
  | none => exact absurd hst hlive
  | some st =>
      cases st with
      | dying => exact absurd hst hdying
      | blocked => exact absurd ((h.queues.waiting t s).mpr ⟨hst, hhead⟩) hno
      | running => exact .inr ((h.running t).mp hst)
      | ready =>
          refine .inl ((h.queues.ready t).mpr ⟨hst, fun hidle => ?_⟩)
          obtain rfl := h.queues.idle.eq hidle
          obtain ⟨acts, htodo⟩ := List.head?_eq_some_iff.mp hhead
          obtain hidle | ⟨⟨_, hup⟩, -⟩ := h.queues.idle.head htodo
          · simp [Act.OfIdle] at hidle
          · cases hup

/-- While a thread sleeps on a semaphore, at least as many threads as its value says have been
woken for it and are ready or running: a unit is never left over with everybody asleep. -/
theorem no_lost_wakeup (h : Reachable k) (hw : k.waiters s ≠ []) :
    ∃ ts : List Ptr, ts.Nodup ∧ k.value s ≤ ts.length ∧ ∀ t ∈ ts,
      (k.rest t).head? = some (.retest s) ∧ (t ∈ k.readyList ∨ t = k.current) := by
  obtain ⟨ts, hnodup, hway, hlen⟩ := h.noneForgotten s hw
  obtain ⟨p, hs⟩ := h.settled
  exact ⟨ts, hnodup, hlen, fun t ht => ⟨(hway t ht).1, hs.ready_of_onTheWay (hway t ht)⟩⟩

theorem no_lost_wakeup_contention : ∃ k, Reachable k ∧ k.waiters (.ofLock 7) = [5] ∧
    ∃ ts : List Ptr, ts.Nodup ∧ k.value (.ofLock 7) ≤ ts.length ∧ ∀ t ∈ ts,
      (k.rest t).head? = some (.retest (.ofLock 7)) ∧ (t ∈ k.readyList ∨ t = k.current) := by
  obtain ⟨k, hk, -, hw⟩ := reachable_of_check contention
    (fun k => k.waiters (.ofLock 7) = [5]) (by decide +kernel)
  have hwaits := of_decide_eq_true hw
  exact ⟨k, hk, hwaits, no_lost_wakeup hk (by rw [hwaits]; exact List.cons_ne_nil _ _)⟩

/-! ## Units -/

/-- The event takes a unit of the semaphore. -/
def Event.takes (s : Sema) : Event → Bool
  | .down _ s' => s' = s
  | _ => false

/-- How often threads have taken a unit of a semaphore. -/
def Kernel.downs (k : Kernel) (s : Sema) : ℕ := k.hist.countP (Event.takes s)

/-- How often units have been added to a semaphore. -/
def Kernel.ups (k : Kernel) (s : Sema) : ℕ := k.hist.count (.up s)

/-- The units of a semaphore that had `v` of them at first. The value wraps around when
`sema_up` increments `UINT_MAX`, and units get lost then. -/
structure Balanced (v : ℕ) (k : Kernel) (s : Sema) : Prop where
  bound : k.downs s + k.value s ≤ v + k.ups s
  modEq : k.downs s + k.value s ≡ v + k.ups s [MOD uintRange]
  range : k.value s < uintRange

variable {v : ℕ}

theorem Balanced.congr (h : Balanced v k s) (hv : k'.value s = k.value s)
    (hd : k'.downs s = k.downs s) (hu : k'.ups s = k.ups s) : Balanced v k' s := by
  obtain ⟨hbound, hmod, hrange⟩ := h
  refine ⟨?_, ?_, ?_⟩
  · rw [hv, hd, hu]
    exact hbound
  · rw [hv, hd, hu]
    exact hmod
  · rw [hv]
    exact hrange

/-- The history has an event more, that does not matter here. -/
theorem Balanced.log (h : Balanced v k s) {e : Event} (hv : k'.value s = k.value s)
    (hhist : k'.hist = e :: k.hist) (ht : e.takes s = false) (hu : e ≠ .up s) :
    Balanced v k' s := by
  refine h.congr hv ?_ ?_
  · unfold Kernel.downs
    rw [hhist, List.countP_cons_of_neg (by rw [ht]; exact Bool.false_ne_true)]
  · unfold Kernel.ups
    rw [hhist, List.count_cons_of_ne hu]

theorem Balanced.same (h : Balanced v k s) (hv : k'.value s = k.value s)
    (hhist : k'.hist = k.hist) : Balanced v k' s :=
  h.congr hv (by unfold Kernel.downs; rw [hhist]) (by unfold Kernel.ups; rw [hhist])

theorem Balanced.scheduled (h : Balanced v k s) (hs : schedule k = .ok k') :
    Balanced v k' s := by
  obtain ⟨-, n, hn, -, rfl⟩ := schedule_iff.mp hs
  refine h.log (e := k.readyList.head?.elim .idle .dispatch) rfl rfl ?_ ?_
  · cases k.readyList.head? with
    | none => rfl
    | some m => rfl
  · cases k.readyList.head? with
    | none => exact nofun
    | some m => exact nofun

/-- Taking a unit. -/
theorem Balanced.taken (h : Balanced v k s) {s' : Sema} (hv : k.value s' ≠ 0) :
    Balanced v (taken k s' acts) s := by
  by_cases hs : s' = s
  · subst hs
    obtain ⟨hbound, hmod, hrange⟩ := h
    have hvalue : (Synch.taken k s' acts).value s' = k.value s' - 1 := Function.update_self ..
    have hdowns : (Synch.taken k s' acts).downs s' = k.downs s' + 1 :=
      List.countP_cons_of_pos (decide_eq_true rfl)
    have hups : (Synch.taken k s' acts).ups s' = k.ups s' :=
      List.count_cons_of_ne (show Event.down k.current s' ≠ .up s' from nofun)
    have hsum : k.downs s' + 1 + (k.value s' - 1) = k.downs s' + k.value s' := by omega
    refine ⟨?_, ?_, ?_⟩
    · rw [hvalue, hdowns, hups, hsum]
      exact hbound
    · rw [hvalue, hdowns, hups, hsum]
      exact hmod
    · rw [hvalue]
      omega
  · refine h.log (Function.update_of_ne (Ne.symm hs) ..) rfl ?_ nofun
    exact decide_eq_false hs

theorem Balanced.popWaiter (h : Balanced v k s) {s' : Sema} : Balanced v (popWaiter k s') s := by
  unfold Synch.popWaiter
  split
  next => exact h
  next t ts hw =>
    have hwake : Balanced v ((k.setWaiters s' ts).log (.wake t s')) s := h.log rfl rfl rfl nofun
    exact hwake.log rfl rfl rfl nofun

/-- Adding a unit. -/
theorem Balanced.raised (h : Balanced v k s) {s' : Sema} : Balanced v (raised k s') s := by
  by_cases hs : s = s'
  · subst hs
    have hpop : Balanced v (Synch.popWaiter k s) s := h.popWaiter
    obtain ⟨hbound, hmod, hrange⟩ := hpop
    rw [popWaiter_value] at hbound hmod
    have hdowns : (Synch.raised k s).downs s = (Synch.popWaiter k s).downs s :=
      List.countP_cons_of_neg nofun
    have hups : (Synch.raised k s).ups s = (Synch.popWaiter k s).ups s + 1 :=
      List.count_cons_self ..
    have hvalue : (Synch.raised k s).value s = (k.value s + 1) % uintRange := by
      rw [raised_value, Function.update_self]
    have hle := Nat.mod_le (k.value s + 1) uintRange
    refine ⟨?_, ?_, ?_⟩
    · rw [hvalue, hdowns, hups]
      omega
    · rw [hvalue, hdowns, hups]
      calc (Synch.popWaiter k s).downs s + (k.value s + 1) % uintRange
          ≡ (Synch.popWaiter k s).downs s + (k.value s + 1) [MOD uintRange] :=
            (Nat.mod_modEq _ _).add_left _
        _ ≡ v + (Synch.popWaiter k s).ups s + 1 [MOD uintRange] := hmod.add_right 1
    · rw [hvalue]
      exact Nat.mod_lt _ (by decide)
  · refine h.popWaiter.log (Function.update_of_ne hs ..) rfl rfl ?_
    exact fun heq => hs (Event.up.inj heq).symm

theorem Balanced.yielded (h : Balanced v k s) : Balanced v (yielded k) s := by
  unfold Synch.yielded
  split
  next => exact h.log rfl rfl rfl nofun
  next => exact h.same rfl rfl

/-- An act keeps the balance. The semaphore of a `cond_wait` begins a new life with each
call. -/
theorem Balanced.exec (h : Balanced v k s) (hs : ∀ t, s ≠ .ofWaiter t)
    (he : Exec k acts a k') : Balanced v k' s := by
  have hrest : ∀ r : List Act, Balanced v (k.setRest k.current r) s := fun r => h.same rfl rfl
  cases he with
  | @sleep s' a k' ha hv hsched =>
      have h₁ : Balanced v (asleep k s' acts) s := h.log rfl rfl rfl nofun
      exact h₁.scheduled hsched
  | take ha hv => exact h.taken hv
  | tryTake hv => exact h.taken hv
  | tryFails hv => exact hrest acts
  | up hw => exact (hrest acts).raised
  | checkFree hl => exact hrest acts
  | setHolder => exact h.same rfl rfl
  | pushLock => exact h.same rfl rfl
  | clearHolder hl => exact h.same rfl rfl
  | removeLock hl => exact h.same rfl rfl
  | enqueueWaiter hl => exact h.log (Function.update_of_ne (hs k.current) ..) rfl rfl nofun
  | signalNone hl hc => exact hrest acts
  | signal hl hc => exact h.log rfl rfl rfl nofun
  | broadcastEnd hc => exact hrest acts
  | broadcast hc => exact hrest _
  | loadTid => exact h.same rfl rfl
  | storeTid ht => exact h.same rfl rfl
  | setTid => exact h.log rfl rfl rfl nofun
  | unblock ht => exact h.log rfl rfl rfl nofun
  | yield hsched => exact (hrest acts).yielded.scheduled hsched
  | finish hl hsched =>
      have h₁ : Balanced v (ended k) s := h.same rfl rfl
      exact h₁.scheduled hsched
  | @releaseLock l hl hmem hw =>
      have h₁ : Balanced v (unlisted k l) s := h.same rfl rfl
      exact h₁.raised
  | setIdle => exact h.same rfl rfl
  | idleBlock hsched =>
      have h₁ : Balanced v ((k.setRest k.current [.halt]).setStatus k.current (some .blocked)) s :=
        h.same rfl rfl
      exact h₁.scheduled hsched

theorem Balanced.leaveHalt (h : Balanced v k s) : Balanced v (leaveHalt k) s := by
  unfold Synch.leaveHalt
  split
  next => exact h.same rfl rfl
  next => exact h

theorem Balanced.ticked (h : Balanced v k s) : Balanced v (ticked k) s := by
  unfold Synch.ticked countTick
  split
  next => exact h.same rfl rfl
  next =>
    split
    next => exact h.same rfl rfl
    next => exact h.same rfl rfl

/-- A step keeps the balance. -/
theorem Balanced.step (h : Balanced v k s) (hs : ∀ t, s ≠ .ofWaiter t) {b : Label}
    (hstep : Step k b k') : Balanced v k' s := by
  obtain ⟨-, hhappens⟩ := step_cases hstep
  cases hhappens with
  | @call c hc hidle =>
      cases c with
      | threadCreate t => exact h.same rfl rfl
      | _ => exact h.same rfl rfl
  | exec htodo he => exact h.exec hs he
  | tick hon ht => exact h.leaveHalt.ticked
  | slice hon ht hsched => exact h.leaveHalt.ticked.yielded.scheduled hsched
  | device hon hw => exact h.leaveHalt.raised
  | setPagedir hidle => exact h.same rfl rfl

theorem balanced_boot {listed : Bool} {main started : Ptr} {value : Ptr → ℕ}
    (hs : ∀ t, s ≠ .ofWaiter t) :
    Balanced ((boot listed main p started value).value s) (boot listed main p started value)
      s := by
  refine ⟨(Nat.zero_add _).le, (Nat.zero_add _).symm ▸ Nat.ModEq.refl _, ?_⟩
  cases s with
  | plain q => exact Nat.mod_lt _ (by decide)
  | ofLock l => exact (by decide : 1 < uintRange)
  | ofWaiter t => exact absurd rfl (hs t)

/-- In any run, threads take no more units of a semaphore than it had at first and `sema_up`
has added, and none is left unaccounted for, up to the overflow of the value. -/
theorem semaphore_balance {listed : Bool} {main idlePage started : Ptr} {value : Ptr → ℕ}
    (h : Lts.Reaches Step (boot listed main idlePage started value) k)
    (hs : ∀ t, s ≠ .ofWaiter t) :
    Balanced ((boot listed main idlePage started value).value s) k s :=
  h.invariant (P := fun k => Balanced ((boot listed main idlePage started value).value s) k s)
    (fun _ _ _ hstep hk => hk.step hs hstep) (balanced_boot hs)

theorem semaphore_balance_contention :
    ∃ k, k.downs (.ofLock 7) = 1 ∧ Balanced 1 k (.ofLock 7) := by
  obtain ⟨k, -, hrun, hw⟩ := reachable_of_check contention
    (fun k => k.downs (.ofLock 7) = 1) (by decide +kernel)
  exact ⟨k, of_decide_eq_true hw, semaphore_balance (s := .ofLock 7) ⟨_, hrun⟩ nofun⟩

end Pintos.Synch
