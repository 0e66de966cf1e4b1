import Pintos.Lib.LockSystem
import Pintos.Synch.Exclusion

/-! # Locks are atomic

`lock_acquire` and `lock_release` take many steps, with interrupts in between. Seen
from outside, a lock is acquired in one step, that of the `sema_down` that does not
sleep, and released in one, that of the `sema_up`: what is seen of a run of the kernel is
a run of the system of threads that share locks, of which deadlocks and lock orders are
statements.
-/

namespace Pintos.Synch

variable {k k' : Kernel} {p t u : Ptr} {s : Sema} {a : Act} {acts r : List Act} {l : Ptr}

/-- The lock operations of an act. `held` are the locks that `release_locks` gives back. -/
def Act.ops (held : List Ptr) : Act → List (Sync.Op Ptr Unit)
  | .down (.ofLock l) => [.acquire l]
  | .retest (.ofLock l) => [.acquire l]
  | .up (.ofLock l) => [.release l]
  | .releaseLocks => held.map .release
  | _ => []

/-- The lock operations that a thread has left. -/
def Kernel.ops (k : Kernel) (t : Ptr) : List (Sync.Op Ptr Unit) :=
  (k.rest t).flatMap (Act.ops (k.lockList t))

/-- What other threads see of the locks. -/
def Kernel.locks (k : Kernel) : Sync.State Ptr Ptr Unit where
  holder := k.owner
  rest := k.ops

/-- A thread begins operations, or executes one. -/
abbrev LockLabel := Sync.Label Ptr (List (Sync.Op Ptr Unit))

abbrev LockStep : Sync.State Ptr Ptr Unit → LockLabel → Sync.State Ptr Ptr Unit → Prop :=
  Sync.Step id

/-- The lock operations of a call. -/
def Call.ops (held : List Ptr) : Call → List (Sync.Op Ptr Unit)
  | .lockAcquire l => [.acquire l]
  | .lockRelease l => [.release l]
  | .condWait _ l => [.release l, .acquire l]
  | .threadCreate _ => [.acquire tidLock, .release tidLock]
  | .threadExit => held.map .release
  | _ => []

/-- A lock operation takes effect with this act: with the `sema_down` that gets through, and
with the `sema_up`. -/
def Act.takesEffect (k : Kernel) : Act → Bool
  | .down (.ofLock l) => k.value (.ofLock l) ≠ 0
  | .retest (.ofLock l) => k.value (.ofLock l) ≠ 0
  | .up (.ofLock _) => true
  | .releaseLocks => k.lockList k.current ≠ []
  | _ => false

/-- What is seen of a step: the calls, and the acts with which operations take effect. -/
def Kernel.seen (k : Kernel) : Label → Option LockLabel
  | .call c => some (.call k.current (c.ops (k.lockList k.current)))
  | .run =>
      match k.todo with
      | [] => none
      | a :: _ => if a.takesEffect k then some (.run k.current) else none
  | _ => none

/-- What is seen of a run. -/
def visible (k : Kernel) (bs : List Label) : List LockLabel := Lts.trace next Kernel.seen k bs

/-- Nothing that others see has changed. -/
theorem locks_congr (howner : ∀ l, k'.owner l = k.owner l) (hops : ∀ t, k'.ops t = k.ops t) :
    k'.locks = k.locks := by
  unfold Kernel.locks
  rw [show k'.owner = k.owner from funext howner, show k'.ops = k.ops from funext hops]

/-- The running thread executes an operation. -/
theorem locks_run {op : Sync.Op Ptr Unit} {ops : List (Sync.Op Ptr Unit)}
    (hop : k.ops k.current = op :: ops) (hen : op.Enabled k.owner k.current)
    (howner : k'.owner = op.holders k.current k.owner)
    (hops : k'.ops = Function.update k.ops k.current ops) :
    LockStep k.locks (.run k.current) k'.locks := by
  have hstep : LockStep k.locks (.run k.current) (k.locks.exec k.current op ops) :=
    Sync.step_run hop hen
  have heq : k'.locks = k.locks.exec k.current op ops := by
    unfold Kernel.locks Sync.State.exec
    rw [howner, hops]
  rw [heq]
  exact hstep

/-- The running thread begins a function. -/
theorem locks_call {ops : List (Sync.Op Ptr Unit)} (hidle : k.ops k.current = [])
    (howner : k'.owner = k.owner) (hops : k'.ops = Function.update k.ops k.current ops) :
    LockStep k.locks (.call k.current ops) k'.locks := by
  have hstep : LockStep k.locks (.call k.current ops) (k.locks.begin k.current ops) :=
    Sync.step_call hidle _
  have heq : k'.locks = k.locks.begin k.current ops := by
    unfold Kernel.locks Sync.State.begin
    rw [howner, hops]
  rw [heq]
  exact hstep

/-- Only `release_locks` depends on the locks that the thread holds. -/
theorem flatMap_ops (hno : .releaseLocks ∉ acts) (held held' : List Ptr) :
    acts.flatMap (Act.ops held) = acts.flatMap (Act.ops held') := by
  refine List.flatMap_congr fun a ha => ?_
  cases a with
  | releaseLocks => exact absurd ha hno
  | down s => cases s <;> rfl
  | retest s => cases s <;> rfl
  | up s => cases s <;> rfl
  | _ => rfl

/-- The operations of the running thread when it has something else to do. -/
theorem ops_update (hrest : k'.rest = Function.update k.rest k.current r)
    (hlists : ∀ t, t ≠ k.current → k'.lockList t = k.lockList t) :
    k'.ops = Function.update k.ops k.current (r.flatMap (Act.ops (k'.lockList k.current))) := by
  funext t
  unfold Kernel.ops
  rw [hrest]
  by_cases ht : t = k.current
  · subst ht
    rw [Function.update_self, Function.update_self]
  · rw [Function.update_of_ne ht, Function.update_of_ne ht, hlists t ht]

/-- The running thread has the same operations to do as before. -/
theorem locks_update (howner : ∀ l, k'.owner l = k.owner l)
    (hrest : k'.rest = Function.update k.rest k.current r)
    (hlists : ∀ t, t ≠ k.current → k'.lockList t = k.lockList t)
    (hr : r.flatMap (Act.ops (k'.lockList k.current)) =
      k.todo.flatMap (Act.ops (k.lockList k.current))) : k'.locks = k.locks := by
  refine locks_congr howner fun t => ?_
  rw [ops_update hrest hlists, hr]
  by_cases ht : t = k.current
  · subst ht
    rw [Function.update_self]
    rfl
  · rw [Function.update_of_ne ht]

/-- The running thread is done with an act that is no lock operation. -/
theorem locks_advance (hq : Queues k p) (htodo : k.todo = a :: acts)
    (ha : ∀ held, a.ops held = []) (howner : ∀ l, k'.owner l = k.owner l)
    (hrest : k'.rest = Function.update k.rest k.current acts)
    (hlists : ∀ t, t ≠ k.current → k'.lockList t = k.lockList t) : k'.locks = k.locks := by
  refine locks_update howner hrest hlists ?_
  rw [htodo, List.flatMap_cons, ha, List.nil_append]
  exact flatMap_ops (hq.exits_notMem htodo) _ _

/-- A step is one of the abstract system if something is seen of it, and changes nothing
there if not. -/
def Simulates (k : Kernel) (seen : Option LockLabel) (k' : Kernel) : Prop :=
  seen.elim (k'.locks = k.locks) fun b => LockStep k.locks b k'.locks

theorem Simulates.congr {k₁ : Kernel} {seen : Option LockLabel} (h : Simulates k seen k₁)
    (heq : k'.locks = k₁.locks) : Simulates k seen k' := by
  unfold Simulates
  rw [heq]
  exact h

theorem seen_run (htodo : k.todo = a :: acts) :
    k.seen .run = if a.takesEffect k then some (.run k.current) else none := by
  unfold Kernel.seen
  rw [htodo]

theorem locks_same (he : SameLocks k k') (hrest : k'.rest = k.rest) : k'.locks = k.locks := by
  refine locks_congr he.owner fun t => ?_
  unfold Kernel.ops
  rw [hrest, he.lockList]

theorem locks_scheduled (hs : schedule k = .ok k') : k'.locks = k.locks := by
  obtain ⟨-, n, hn, -, rfl⟩ := schedule_iff.mp hs
  exact locks_same sameLocks_switchTo rfl

theorem locks_yielded : (yielded k).locks = k.locks := by
  unfold yielded
  split
  next => rfl
  next => rfl

/-- Only acts on the semaphores of locks, and `release_locks`, take effect. -/
theorem Act.takesEffect_of_ne (ha : a = .down s ∨ a = .retest s ∨ a = .tryDown s ∨ a = .up s)
    (hs : ∀ l, s ≠ .ofLock l) : a.takesEffect k = false := by
  cases s with
  | ofLock l => exact absurd rfl (hs l)
  | plain q =>
      rcases ha with rfl | rfl | rfl | rfl
      · rfl
      · rfl
      · rfl
      · rfl
  | ofWaiter t =>
      rcases ha with rfl | rfl | rfl | rfl
      · rfl
      · rfl
      · rfl
      · rfl

theorem Act.ops_of_ne (ha : a = .down s ∨ a = .retest s ∨ a = .tryDown s ∨ a = .up s)
    (hs : ∀ l, s ≠ .ofLock l) (held : List Ptr) : a.ops held = [] := by
  cases s with
  | ofLock l => exact absurd rfl (hs l)
  | plain q =>
      rcases ha with rfl | rfl | rfl | rfl
      · rfl
      · rfl
      · rfl
      · rfl
  | ofWaiter t =>
      rcases ha with rfl | rfl | rfl | rfl
      · rfl
      · rfl
      · rfl
      · rfl

/-- The operations of the running thread, first that of its next act. -/
theorem ops_cons (htodo : k.todo = a :: acts) {op : Sync.Op Ptr Unit}
    (hop : a.ops (k.lockList k.current) = [op]) :
    k.ops k.current = op :: acts.flatMap (Act.ops (k.lockList k.current)) := by
  unfold Kernel.ops
  rw [show k.rest k.current = _ from htodo, List.flatMap_cons, hop]
  rfl

/-- The `sema_down` that gets through acquires the lock. -/
theorem locks_take (hu : LockUse k) (htodo : k.todo = a :: acts)
    (ha : a = .down (.ofLock l) ∨ a = .retest (.ofLock l)) (hv : k.value (.ofLock l) ≠ 0) :
    LockStep k.locks (.run k.current) (taken k (.ofLock l) acts).locks := by
  have hfree : k.owner l = none := by
    by_contra hno
    rw [hu.value, if_neg hno] at hv
    exact hv rfl
  have hop : a.ops (k.lockList k.current) = [.acquire l] := by
    rcases ha with rfl | rfl
    · rfl
    · rfl
  refine locks_run (ops_cons htodo hop) hfree (funext fun l' => ?_) (ops_update rfl fun _ _ => rfl)
  show lockOwner l' (.down k.current (.ofLock l) :: k.hist) =
    Function.update k.owner l (some k.current) l'
  by_cases hl : l' = l
  · subst hl
    rw [owner_down, if_pos rfl, Function.update_self]
  · rw [owner_down, if_neg fun heq => hl (Sema.ofLock.inj heq).symm, Function.update_of_ne hl]
    rfl

/-- A `sema_up` of the owner releases the lock. -/
theorem locks_raised {k₁ : Kernel} {ops : List (Sync.Op Ptr Unit)} (hown : k.owner l = some k.current)
    (hop : k.ops k.current = .release l :: ops) (howner : ∀ l, k₁.owner l = k.owner l)
    (hops : k₁.ops = Function.update k.ops k.current ops) :
    LockStep k.locks (.run k.current) (raised k₁ (.ofLock l)).locks := by
  refine locks_run hop hown (funext fun l' => ?_) ?_
  · show (raised k₁ (.ofLock l)).owner l' = Function.update k.owner l none l'
    rw [raised_owner, howner]
    by_cases hl : l' = l
    · subst hl
      rw [if_pos rfl, Function.update_self]
    · rw [if_neg fun heq => hl (Sema.ofLock.inj heq).symm, Function.update_of_ne hl]
  · have hsame : (raised k₁ (.ofLock l)).lockList = k₁.lockList :=
      (sameLocks_popWaiter (k := k₁) (s := .ofLock l)).lockList
    rw [← hops]
    unfold Kernel.ops
    rw [raised_rest, hsame]

/-- A thread that exits has nothing else to do. -/
theorem todo_releaseLocks (hq : Queues k p) (htodo : k.todo = .releaseLocks :: acts) :
    k.rest k.current = [.releaseLocks] := by
  refine hq.exits k.current ?_
  rw [show k.rest k.current = _ from htodo]
  exact List.mem_cons_self

/-- A round of `release_locks` releases the first lock of the list. -/
theorem locks_released (hq : Queues k p) (hu : LockUse k) (htodo : k.todo = .releaseLocks :: acts)
    (hl : k.holder l = some k.current) (hmem : (k.lockList k.current).head? = some l) :
    LockStep k.locks (.run k.current) (raised (unlisted k l) (.ofLock l)).locks := by
  obtain ⟨ls, hlocks⟩ := List.head?_eq_some_iff.mp hmem
  have hnil := todo_releaseLocks hq htodo
  have hop : k.ops k.current = .release l :: ls.map .release := by
    unfold Kernel.ops
    rw [hnil, hlocks, List.flatMap_singleton]
    rfl
  refine locks_raised (hu.owner_of_holder hl) hop (fun _ => rfl) ?_
  -- what is left is to release the others
  have hrest : (unlisted k l).rest = Function.update k.rest k.current (k.rest k.current) :=
    (Function.update_eq_self ..).symm
  have hself : (unlisted k l).lockList k.current = ls := by
    show Function.update k.lockList k.current _ k.current = ls
    rw [Function.update_self, hlocks, List.erase_cons_head]
  rw [ops_update hrest fun _ ht => Function.update_of_ne ht .., hself, hnil,
    List.flatMap_singleton]
  rfl

/-- An act is one operation, or none. -/
theorem Exec.simulates (he : Exec k acts a k') (hq : Queues k p) (hu : LockUse k)
    (htodo : k.todo = a :: acts) : Simulates k (k.seen .run) k' := by
  rw [seen_run htodo]
  -- an act that does not take effect, one that does, and one that is no operation at all
  have hhidden : ∀ {k₁ : Kernel}, a.takesEffect k = false → k₁.locks = k.locks →
      Simulates k (if a.takesEffect k then some (.run k.current) else none) k₁ := by
    intro k₁ hno heq
    rw [hno]
    exact heq
  have hshown : ∀ {k₁ : Kernel}, a.takesEffect k = true →
      LockStep k.locks (.run k.current) k₁.locks →
      Simulates k (if a.takesEffect k then some (.run k.current) else none) k₁ := by
    intro k₁ hyes hstep
    rw [hyes]
    exact hstep
  have hdone : ∀ {k₁ : Kernel}, a.takesEffect k = false → (∀ held, a.ops held = []) →
      (∀ l, k₁.owner l = k.owner l) → k₁.rest = Function.update k.rest k.current acts →
      (∀ t, t ≠ k.current → k₁.lockList t = k.lockList t) →
      Simulates k (if a.takesEffect k then some (.run k.current) else none) k₁ :=
    fun hno ha howner hrest hlists =>
      hhidden hno (locks_advance hq htodo ha howner hrest hlists)
  cases he with
  | @sleep s _ _ ha hv hs =>
      have h₁ : (asleep k s acts).locks = k.locks := by
        refine locks_update (fun _ => rfl) rfl (fun _ _ => rfl) ?_
        rw [htodo]
        rcases ha with rfl | rfl
        · cases s <;> rfl
        · rfl
      refine hhidden ?_ ((locks_scheduled hs).trans h₁)
      -- the value is zero
      cases s with
      | ofLock l =>
          rcases ha with rfl | rfl
          · exact decide_eq_false (not_not.mpr hv)
          · exact decide_eq_false (not_not.mpr hv)
      | _ => exact Act.takesEffect_of_ne (ha.imp_right .inl) nofun
  | @take s _ ha hv =>
      by_cases hs : ∃ l, s = .ofLock l
      · obtain ⟨l, rfl⟩ := hs
        refine hshown ?_ (locks_take hu htodo ha hv)
        rcases ha with rfl | rfl
        · exact decide_eq_true hv
        · exact decide_eq_true hv
      · have hne : ∀ l, s ≠ .ofLock l := fun l heq => hs ⟨l, heq⟩
        have ha' : a = .down s ∨ a = .retest s ∨ a = .tryDown s ∨ a = .up s := ha.imp_right .inl
        exact hdone (Act.takesEffect_of_ne ha' hne) (Act.ops_of_ne ha' hne)
          (sameLocks_taken hne).owner rfl fun _ _ => rfl
  | @tryTake s hv =>
      have hne : ∀ l, s ≠ .ofLock l := fun l heq => by
        subst heq
        obtain ⟨ph, ph', -, hph, -⟩ := hu.head htodo l
        simp [Act.phase] at hph
      exact hdone rfl (Act.ops_of_ne (.inr (.inr (.inl rfl))) hne) (sameLocks_taken hne).owner
        rfl fun _ _ => rfl
  | tryFails hv => exact hdone rfl (fun _ => rfl) (fun _ => rfl) rfl fun _ _ => rfl
  | @up s hw =>
      by_cases hs : ∃ l, s = .ofLock l
      · obtain ⟨l, rfl⟩ := hs
        have hown : k.owner l = some k.current :=
          hu.owner_of_needs htodo (.inr (.inr (.inr (.inr (.inl rfl)))))
        exact hshown rfl (locks_raised hown (ops_cons htodo rfl) (fun _ => rfl)
          (ops_update rfl fun _ _ => rfl))
      · have hne : ∀ l, s ≠ .ofLock l := fun l heq => hs ⟨l, heq⟩
        have ha : Act.up s = .down s ∨ Act.up s = .retest s ∨ Act.up s = .tryDown s ∨
            Act.up s = .up s := .inr (.inr (.inr rfl))
        have h₁ : Simulates k (if (Act.up s).takesEffect k then some (.run k.current) else none)
            (k.setRest k.current acts) :=
          hdone (Act.takesEffect_of_ne ha hne) (Act.ops_of_ne ha hne) (fun _ => rfl) rfl
            fun _ _ => rfl
        exact h₁.congr (locks_same (sameLocks_raised hne) raised_rest)
  | checkFree hl => exact hdone rfl (fun _ => rfl) (fun _ => rfl) rfl fun _ _ => rfl
  | setHolder => exact hdone rfl (fun _ => rfl) (fun _ => rfl) rfl fun _ _ => rfl
  | pushLock =>
      exact hdone rfl (fun _ => rfl) (fun _ => rfl) rfl fun _ ht => Function.update_of_ne ht ..
  | clearHolder hl => exact hdone rfl (fun _ => rfl) (fun _ => rfl) rfl fun _ _ => rfl
  | removeLock hl =>
      exact hdone rfl (fun _ => rfl) (fun _ => rfl) rfl fun _ ht => Function.update_of_ne ht ..
  | enqueueWaiter hl => exact hdone rfl (fun _ => rfl) (fun _ => rfl) rfl fun _ _ => rfl
  | signalNone hl hc => exact hdone rfl (fun _ => rfl) (fun _ => rfl) rfl fun _ _ => rfl
  | signal hl hc =>
      refine hhidden rfl (locks_update (fun _ => rfl) rfl (fun _ _ => rfl) ?_)
      rw [htodo]
      rfl
  | broadcastEnd hc => exact hdone rfl (fun _ => rfl) (fun _ => rfl) rfl fun _ _ => rfl
  | broadcast hc =>
      refine hhidden rfl (locks_update (fun _ => rfl) rfl (fun _ _ => rfl) ?_)
      rw [htodo]
      rfl
  | loadTid => exact hdone rfl (fun _ => rfl) (fun _ => rfl) rfl fun _ _ => rfl
  | storeTid ht => exact hdone rfl (fun _ => rfl) (fun _ => rfl) rfl fun _ _ => rfl
  | setTid => exact hdone rfl (fun _ => rfl) (fun _ => rfl) rfl fun _ _ => rfl
  | unblock ht => exact hdone rfl (fun _ => rfl) (fun _ => rfl) rfl fun _ _ => rfl
  | yield hs =>
      have h₁ : Simulates k (if Act.yield.takesEffect k then some (.run k.current) else none)
          (k.setRest k.current acts) :=
        hdone rfl (fun _ => rfl) (fun _ => rfl) rfl fun _ _ => rfl
      exact h₁.congr ((locks_scheduled hs).trans locks_yielded)
  | finish hl hs =>
      -- no lock is left to release
      have h₁ : (ended k).locks = k.locks := by
        refine locks_update (fun _ => rfl) rfl (fun _ _ => rfl) ?_
        rw [show (ended k).lockList k.current = [] from hl, hl,
          show k.todo = _ from todo_releaseLocks hq htodo]
        rfl
      exact hhidden (decide_eq_false (not_not.mpr hl)) ((locks_scheduled hs).trans h₁)
  | @releaseLock l hl hmem hw =>
      have hne : k.lockList k.current ≠ [] := fun hno => by
        rw [hno] at hmem
        cases hmem
      exact hshown (decide_eq_true hne) (locks_released hq hu htodo hl hmem)
  | setIdle => exact hdone rfl (fun _ => rfl) (fun _ => rfl) rfl fun _ _ => rfl
  | idleBlock hs =>
      have h₁ : ((k.setRest k.current [.halt]).setStatus k.current (some .blocked)).locks =
          k.locks := by
        obtain ⟨-, -, rfl⟩ := hq.idle.of_idleBlock htodo
        refine locks_update (fun _ => rfl) rfl (fun _ _ => rfl) ?_
        rw [htodo]
        rfl
      exact hhidden rfl ((locks_scheduled hs).trans h₁)

/-! ## Steps -/

theorem locks_leaveHalt : (leaveHalt k).locks = k.locks := by
  unfold leaveHalt
  split
  next htodo =>
    refine locks_update (fun _ => rfl) rfl (fun _ _ => rfl) ?_
    rw [htodo]
    rfl
  next => rfl

theorem locks_ticked : (ticked k).locks = k.locks := by
  unfold ticked countTick
  split
  next => rfl
  next =>
    split
    next => rfl
    next => rfl

/-- The lock operations of a function are those of its acts. -/
theorem Call.flatMap_code (c : Call) (t : Ptr) (held : List Ptr) :
    (c.code t).flatMap (Act.ops held) = c.ops held := by
  cases c with
  | threadExit => exact List.flatMap_singleton ..
  | _ => rfl

/-- A function is called. -/
theorem locks_begin (hq : Queues k p) (hu : LockUse k) {c : Call} (hc : c.Allowed k)
    (hidle : k.todo = []) :
    LockStep k.locks (.call k.current (c.ops (k.lockList k.current))) (begin k c).locks := by
  have hnone : k.ops k.current = [] := by
    unfold Kernel.ops
    rw [show k.rest k.current = [] from hidle]
    rfl
  have hcall : LockStep k.locks (.call k.current (c.ops (k.lockList k.current)))
      (k.setRest k.current (c.code k.current)).locks := by
    refine locks_call hnone rfl ?_
    rw [← c.flatMap_code k.current]
    exact ops_update rfl fun _ _ => rfl
  cases c with
  | threadCreate t =>
      have hsame : (begin k (.threadCreate t)).locks =
          (k.setRest k.current (Call.code k.current (.threadCreate t))).locks := by
        refine locks_congr (fun _ => rfl) fun u => ?_
        -- the page of the new thread was free
        have hrest : k.rest t = [] := by
          by_contra hne
          exact (hq.alive t hne).1 hc.2
        have hlist : k.lockList t = [] := by
          refine hu.gone t fun hmem => ?_
          exact ((hq.all t).mp hmem).1 hc.2
        unfold Kernel.ops
        show (Function.update (Function.update k.rest t []) k.current _ u).flatMap
          (Act.ops (Function.update k.lockList t [] u)) = _
        rw [show Function.update k.rest t [] = k.rest by rw [← hrest, Function.update_eq_self],
          show Function.update k.lockList t [] = k.lockList by
            rw [← hlist, Function.update_eq_self]]
        rfl
      rw [hsame]
      exact hcall
  | _ => exact hcall

/-- A step of the kernel is the one step that is seen of it, or none. -/
theorem Step.simulates {b : Label} (h : Step k b k') (hs : Settled k p) (hu : LockUse k) :
    Simulates k (k.seen b) k' := by
  obtain ⟨-, hhappens⟩ := step_cases h
  cases hhappens with
  | call hc hidle => exact locks_begin hs.queues hu hc hidle
  | exec htodo he => exact he.simulates hs.queues hu htodo
  | tick hon ht => exact locks_ticked.trans locks_leaveHalt
  | slice hon ht hsched =>
      exact (locks_scheduled hsched).trans (locks_yielded.trans
        (locks_ticked.trans locks_leaveHalt))
  | @device q hon hw =>
      have hne : ∀ l, Sema.plain q ≠ .ofLock l := nofun
      exact (locks_same (sameLocks_raised hne) raised_rest).trans locks_leaveHalt
  | setPagedir hidle => rfl

theorem locks_boot (listed : Bool) (main p started : Ptr) (value : Ptr → ℕ) :
    (boot listed main p started value).locks = Sync.init := by
  have hops : ∀ t, (boot listed main p started value).ops t = [] := by
    intro t
    unfold Kernel.ops
    rw [boot_rest]
    split_ifs
    · rfl
    · rfl
    · rfl
  unfold Kernel.locks Sync.init
  rw [show (boot listed main p started value).ops = fun _ => [] from funext hops]
  rfl

/-- What a run does to locks is what threads do that acquire and release each lock in one
step, with the calls of the run and where its operations take effect. A thread that sleeps
on the semaphore of a lock wants it there, and what it holds is what it has downed and not
upped. -/
structure RefinesLocks (k₀ : Kernel) (bs : List Label) (k : Kernel) : Prop where
  run : Lts.Run LockStep Sync.init (visible k₀ bs) k.locks
  wants : ∀ t l, t ∈ k.waiters (.ofLock l) → k.locks.Wants t l
  held : ∀ t l, k.holder l = some t → k.locks.holder l = some t

theorem locks_refine {k₀ : Kernel} {bs : List Label} (hboot : Boot k₀)
    (h : Lts.Run Step k₀ bs k) : RefinesLocks k₀ bs k := by
  obtain ⟨p, hs, hu⟩ := Reachable.lockUse ⟨k₀, hboot, bs, h⟩
  refine ⟨?_, fun t l ht => ?_, fun t l ht => hu.owner_of_holder ht⟩
  · obtain ⟨listed, main, p, started, value, hne, rfl⟩ := hboot
    rw [← locks_boot listed main p started value]
    refine Lts.run_trace (P := fun k => Settled k p ∧ LockUse k) Kernel.locks
      (fun k b k' hb hk => ?_) (h.mono fun _ _ _ => next_of_step) ⟨settled_boot hne, lockUse_boot⟩
    have hstep := step_of_next hb
    exact ⟨⟨hk.1.step hstep, hk.2.step hk.1 hstep⟩, hstep.simulates hk.1 hk.2⟩
  · obtain ⟨acts, hacts⟩ := List.head?_eq_some_iff.mp ((hs.queues.waiting t _).mp ht).2
    refine ⟨acts.flatMap (Act.ops (k.lockList t)), ?_⟩
    show (k.rest t).flatMap _ = _
    rw [hacts, List.flatMap_cons]
    rfl

/-- Two threads contend for lock 7: the initial one has created the other one, under
`tid_lock`, and has acquired the lock before. -/
theorem locks_refine_contention : ∃ k, k.waiters (.ofLock 7) = [5] ∧
    visible bootOne contention = [.call 1 [.acquire 0, .release 0], .run 1, .run 1,
      .call 1 [.acquire 7], .run 1, .call 1 [], .call 5 [.acquire 7]] ∧
    RefinesLocks bootOne contention k := by
  obtain ⟨k, -, hrun, hw⟩ := reachable_of_check contention
    (fun k => k.waiters (.ofLock 7) = [5]) (by decide +kernel)
  exact ⟨k, of_decide_eq_true hw, by decide +kernel, locks_refine bootOne_boot hrun⟩

end Pintos.Synch
