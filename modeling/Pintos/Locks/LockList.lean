import Pintos.Lib.IntrusiveList
import Pintos.Lib.Run
import Pintos.Vm.State

/-! # The locks a thread holds

`synch.c` links the locks that a thread holds in its `lock_list`, for
`release_locks` to walk when the thread exits. The operations are taken as
atomic here: a step is one that returns, so that `lock_acquire` is a step of a
thread that finds the lock free, and a failed assertion is none.
-/

namespace Pintos.LockList

open Intrusive
open Vm (Tid Ptr)

/-- `t->lock_list`, of the locks at some addresses. -/
def lockList (t : Tid) : Ends (Node Tid Ptr) := listOf t

/-- The locks, each with its holder and the value of its semaphore, and all links. -/
structure State where
  holder : Ptr → Option Tid
  value : Ptr → ℕ
  links : Links (Node Tid Ptr)

/-- `lock->holder = thread_current ()`, after the semaphore has been downed. -/
def State.take (s : State) (t : Tid) (l : Ptr) : State :=
  { s with
    holder := Function.update s.holder l (some t)
    value := Function.update s.value l (s.value l - 1) }

/-- `list_push_back (&thread_current ()->lock_list, &lock->lock_elem)`. -/
def State.push (s : State) (t : Tid) (l : Ptr) : Option State :=
  (listPushBack s.links (lockList t) (.elem l)).map fun links => { s with links := links }

/-- `list_remove (&lock->lock_elem)`. -/
def State.unlink (s : State) (l : Ptr) : Option State :=
  (listRemove s.links (.elem l)).map fun links => { s with links := links }

/-- `lock_acquire`. -/
def lockAcquire (s : State) (t : Tid) (l : Ptr) : Option State :=
  if s.holder l = some t then none
  else if s.value l = 0 then none
  else (s.take t l).push t l

/-- `lock_try_acquire`, with its result. The lock enters the list either way. -/
def lockTryAcquire (s : State) (t : Tid) (l : Ptr) : Option (Bool × State) :=
  if s.holder l = some t then none
  else if s.value l > 0 then ((s.take t l).push t l).map fun s => (true, s)
  else (s.push t l).map fun s => (false, s)

/-- `lock_release`. -/
def lockRelease (s : State) (t : Tid) (l : Ptr) : Option State :=
  if s.holder l = some t then do
    let s ← { s with holder := Function.update s.holder l none }.unlink l
    return { s with value := Function.update s.value l (s.value l + 1) }
  else
    none

/-- The loop of `release_locks` from the node `e` on, with at most so many rounds. It
removes every lock a second time. -/
def releaseLoop (t : Tid) : ℕ → Node Tid Ptr → State → Option State
  | 0, _, _ => none
  | rounds + 1, e, s =>
      if e = (lockList t).tail then some s
      else
        match e with
        | .elem l => do
            let next ← s.links.next e
            let s ← lockRelease s t l
            let s ← s.unlink l
            releaseLoop t rounds next s
        | _ => none

/-- `release_locks`. -/
def releaseLocks (rounds : ℕ) (s : State) (t : Tid) : Option State := do
  let e ← s.links.next (lockList t).head
  releaseLoop t rounds e s

/-- The operations. -/
inductive Op where
  | acquire (t : Tid) (l : Ptr)
  | tryAcquire (t : Tid) (l : Ptr)
  | release (t : Tid) (l : Ptr)
  /-- `thread_exit`. -/
  | exit (t : Tid)
deriving DecidableEq, Repr

/-- An operation that returns. -/
def Step (s : State) : Op → State → Prop
  | .acquire t l, s' => lockAcquire s t l = some s'
  | .tryAcquire t l, s' => ∃ b, lockTryAcquire s t l = some (b, s')
  | .release t l, s' => lockRelease s t l = some s'
  | .exit t, s' => ∃ rounds, releaseLocks rounds s t = some s'

/-- At the start all locks are free and all lists empty. -/
structure Start (s : State) : Prop where
  free : ∀ l, s.holder l = none
  value : ∀ l, s.value l = 1
  empty : ∀ t, IsList s.links (lockList t) []

/-- The lists of the threads have the elements `ls`, which are the locks they hold. -/
structure Lists (s : State) (ls : Tid → List Ptr) : Prop where
  family : Family s.links ls
  mem : ∀ t l, l ∈ ls t ↔ s.holder l = some t

/-- The bookkeeping is right: a lock is in a thread's list exactly if the thread holds it,
and it is there once and in no other list. -/
def Bookkept (s : State) : Prop := ∃ ls, Lists s ls

/-- The value of a semaphore says whether the lock is free. -/
def Valued (s : State) : Prop := ∀ l, s.value l = if s.holder l = none then 1 else 0

variable {s s' : State} {t : Tid} {l : Ptr} {ls : Tid → List Ptr} {op : Op} {ops : List Op}

/-! ## One lock -/

/-- A free lock is linked for the thread that takes it. -/
theorem Lists.push (h : Lists s ls) (hl : s.holder l = none) :
    ∃ s', (s.take t l).push t l = some s' ∧ s'.holder = Function.update s.holder l (some t) ∧
      s'.value = Function.update s.value l (s.value l - 1) ∧
      Lists s' (Function.update ls t (ls t ++ [l])) := by
  have hnotin : ∀ u, l ∉ ls u := by
    intro u hmem
    rw [h.mem, hl] at hmem
    cases hmem
  obtain ⟨links, hpush, hfamily⟩ := h.family.pushBack (t := t) hnotin
  refine ⟨{ s.take t l with links := links }, ?_, rfl, rfl, hfamily, ?_⟩
  · show (listPushBack s.links (listOf t) (.elem l)).map _ = _
    rw [hpush]
    rfl
  · intro u m
    show _ ↔ Function.update s.holder l (some t) m = some u
    by_cases hm : m = l
    · subst hm
      rw [Function.update_self]
      by_cases hu : u = t
      · subst hu
        rw [Function.update_self]
        exact ⟨fun _ => rfl, fun _ => List.mem_append_right _ List.mem_cons_self⟩
      · rw [Function.update_of_ne hu]
        constructor
        · exact fun hmem => absurd hmem (hnotin u)
        · intro heq
          exact absurd (Option.some.inj heq).symm hu
    · rw [Function.update_of_ne hm, ← h.mem u m]
      by_cases hu : u = t
      · subst hu
        rw [Function.update_self, List.mem_append, List.mem_singleton]
        exact ⟨fun hmem => hmem.resolve_right hm, .inl⟩
      · rw [Function.update_of_ne hu]

/-- A lock that is released is unlinked, and unlinking it once more changes nothing. -/
theorem Lists.release (h : Lists s ls) (hl : s.holder l = some t) :
    ∃ s', lockRelease s t l = some s' ∧ s'.holder = Function.update s.holder l none ∧
      s'.value = Function.update s.value l (s.value l + 1) ∧
      Lists s' (Function.update ls t ((ls t).erase l)) ∧ s'.unlink l = some s' := by
  have hmem : l ∈ ls t := (h.mem t l).mpr hl
  obtain ⟨links, hremove, hfamily, hagain⟩ := h.family.remove hmem
  refine ⟨⟨Function.update s.holder l none, Function.update s.value l (s.value l + 1), links⟩,
    ?_, rfl, rfl, ⟨hfamily, fun u m => ?_⟩, ?_⟩
  · unfold lockRelease State.unlink
    rw [if_pos hl]
    dsimp only
    rw [hremove]
    rfl
  · show _ ↔ Function.update s.holder l none m = some u
    by_cases hu : u = t
    · subst hu
      rw [Function.update_self, (h.family.nodup u).mem_erase_iff, h.mem]
      by_cases hm : m = l
      · subst hm
        rw [Function.update_self]
        exact ⟨fun hno => absurd rfl hno.1, fun hno => by cases hno⟩
      · rw [Function.update_of_ne hm]
        exact and_iff_right hm
    · rw [Function.update_of_ne hu, h.mem]
      by_cases hm : m = l
      · subst hm
        rw [Function.update_self, hl]
        constructor
        · intro heq
          exact absurd (Option.some.inj heq).symm hu
        · intro hno
          cases hno
      · rw [Function.update_of_ne hm]
  · unfold State.unlink
    dsimp only
    rw [hagain]
    rfl

theorem Valued.take (hv : Valued s) (hl : s.holder l = none)
    (hholder : s'.holder = Function.update s.holder l (some t))
    (hvalue : s'.value = Function.update s.value l (s.value l - 1)) : Valued s' := by
  intro m
  rw [hholder, hvalue]
  by_cases hm : m = l
  · subst hm
    rw [Function.update_self, Function.update_self, hv m, hl]
    rfl
  · rw [Function.update_of_ne hm, Function.update_of_ne hm]
    exact hv m

theorem Valued.release (hv : Valued s) (hl : s.holder l = some t)
    (hholder : s'.holder = Function.update s.holder l none)
    (hvalue : s'.value = Function.update s.value l (s.value l + 1)) : Valued s' := by
  intro m
  rw [hholder, hvalue]
  by_cases hm : m = l
  · subst hm
    rw [Function.update_self, Function.update_self, if_pos rfl, hv m, hl]
    rfl
  · rw [Function.update_of_ne hm, Function.update_of_ne hm]
    exact hv m

/-! ## All locks of a thread -/

/-- The loop returns if it has enough rounds, and leaves the thread without locks. -/
theorem releaseLoop_cases (rounds : ℕ) {e : Node Tid Ptr} (h : Lists s ls) (hv : Valued s)
    (he : s.links.next (lockList t).head = some e) :
    releaseLoop t rounds e s = none ∧ rounds ≤ (ls t).length ∨
      ∃ s', releaseLoop t rounds e s = some s' ∧ Lists s' (Function.update ls t []) ∧ Valued s' := by
  induction rounds generalizing s ls e with
  | zero => exact .inl ⟨rfl, Nat.zero_le _⟩
  | succ rounds ih =>
      have hsegment : s.links.Segment (lockList t).head ((ls t).map .elem) (lockList t).tail :=
        (h.family.list t).segment
      have hnext := hsegment.next_eq
      rw [he] at hnext
      unfold releaseLoop
      cases hls : ls t with
      | nil =>
          rw [hls] at hnext
          obtain rfl : e = (lockList t).tail := Option.some.inj hnext
          rw [if_pos rfl]
          refine .inr ⟨s, rfl, ?_, hv⟩
          rw [← hls, Function.update_eq_self]
          exact h
      | cons l rest =>
          rw [hls] at hnext hsegment
          obtain rfl : e = .elem l := Option.some.inj hnext
          have hl : s.holder l = some t := by
            rw [← h.mem, hls]
            exact List.mem_cons_self
          obtain ⟨s₁, hrelease, hholder, hvalue, h₁, hagain⟩ := h.release hl
          rw [hls, List.erase_cons_head] at h₁
          have hv₁ : Valued s₁ := hv.release hl hholder hvalue
          -- the element behind `l` comes first now
          obtain ⟨n, -, hn⟩ := hsegment.2.next
          have hfirst : s₁.links.next (lockList t).head = some n := by
            have hlist : s₁.links.next (lockList t).head =
                ((Function.update ls t rest t).map Node.elem ++ [(lockList t).tail]).head? :=
              (h₁.family.list t).segment.next_eq
            rw [Function.update_self] at hlist
            rw [hlist, ← hn]
            exact hsegment.2.next_eq.symm
          have hstep : ∀ r : Option State, releaseLoop t rounds n s₁ = r →
              (do
                let next ← s.links.next (.elem l)
                let s ← lockRelease s t l
                let s ← s.unlink l
                releaseLoop t rounds next s) = r := by
            intro r hr
            have hn' : s.links.next (.elem l) = some n := hn
            rw [hn', Option.bind_eq_bind, Option.bind_some, hrelease, Option.bind_eq_bind,
              Option.bind_some, hagain]
            exact hr
          have hne : Node.elem l ≠ (lockList t).tail := by
            intro hno
            cases hno
          rw [if_neg hne]
          rcases ih h₁ hv₁ hfirst with ⟨hnone, hle⟩ | ⟨s', hsome, h', hv'⟩
          · refine .inl ⟨hstep _ hnone, ?_⟩
            rw [Function.update_self] at hle
            exact Nat.succ_le_succ hle
          · rw [Function.update_idem] at h'
            exact .inr ⟨s', hstep _ hsome, h', hv'⟩

/-- With enough rounds `release_locks` returns. -/
theorem releaseLocks_returns {rounds : ℕ} (h : Lists s ls) (hv : Valued s)
    (hrounds : (ls t).length < rounds) : ∃ s', releaseLocks rounds s t = some s' := by
  obtain ⟨e, -, he⟩ := (h.family.list t).segment.next
  have he' : s.links.next (lockList t).head = some e := he
  rcases releaseLoop_cases rounds h hv he with ⟨-, hle⟩ | ⟨s', hs', -⟩
  · omega
  · refine ⟨s', ?_⟩
    unfold releaseLocks
    rw [he']
    exact hs'

/-! ## Steps -/

/-- What keeps the bookkeeping right: `lock_try_acquire` is only tried on a lock that is
free. -/
def Free (s : State) (op : Op) : Prop := ∀ t l, op = .tryAcquire t l → s.holder l = none

theorem Valued.free (hv : Valued s) (hl : s.value l ≠ 0) : s.holder l = none := by
  by_contra hheld
  rw [hv, if_neg hheld] at hl
  exact hl rfl

/-- An operation other than a failing `lock_try_acquire`. -/
theorem Lists.step (h : Lists s ls) (hv : Valued s) (hfree : Free s op) (hs : Step s op s') :
    Bookkept s' ∧ Valued s' := by
  -- a lock is taken by both ways to acquire it
  have htake : ∀ {t l}, s.holder l = none → (s.take t l).push t l = some s' →
      Bookkept s' ∧ Valued s' := by
    intro t l hl hpush
    obtain ⟨s₁, hpush', hholder, hvalue, h₁⟩ := h.push (t := t) hl
    obtain rfl := Option.some.inj (hpush.symm.trans hpush')
    exact ⟨⟨_, h₁⟩, hv.take hl hholder hvalue⟩
  cases op with
  | acquire t l =>
      have hs' : lockAcquire s t l = some s' := hs
      unfold lockAcquire at hs'
      split at hs'
      next => cases hs'
      next =>
        split at hs'
        next => cases hs'
        next hvalue => exact htake (hv.free hvalue) hs'
  | tryAcquire t l =>
      obtain ⟨b, hs⟩ := hs
      have hl := hfree t l rfl
      unfold lockTryAcquire at hs
      split at hs
      next => cases hs
      next =>
        split at hs
        next =>
          obtain ⟨s₁, hpush, heq⟩ := Option.map_eq_some_iff.mp hs
          obtain ⟨-, rfl⟩ := Prod.mk.inj heq
          exact htake hl hpush
        next hvalue =>
          rw [hv l, if_pos hl] at hvalue
          omega
  | release t l =>
      by_cases hl : s.holder l = some t
      · obtain ⟨s₁, hrelease, hholder, hvalue, h₁, -⟩ := h.release hl
        obtain rfl := Option.some.inj (hrelease.symm.trans hs)
        exact ⟨⟨_, h₁⟩, hv.release hl hholder hvalue⟩
      · have hs' : lockRelease s t l = some s' := hs
        unfold lockRelease at hs'
        rw [if_neg hl] at hs'
        cases hs'
  | exit t =>
      obtain ⟨rounds, hs⟩ := hs
      obtain ⟨e, -, he⟩ := (h.family.list t).segment.next
      have he' : s.links.next (lockList t).head = some e := he
      unfold releaseLocks at hs
      rw [he'] at hs
      rcases releaseLoop_cases rounds h hv he with ⟨hnone, -⟩ | ⟨s₁, hs₁, h₁, hv₁⟩
      · cases hnone.symm.trans hs
      · obtain rfl := Option.some.inj (hs₁.symm.trans hs)
        exact ⟨⟨_, h₁⟩, hv₁⟩

/-- A lock that is pushed to a list is in it. -/
theorem Lists.mem_of_push (h : Lists s' ls) (hpush : s.push t l = some s') : l ∈ ls t := by
  obtain ⟨links, hlinks, rfl⟩ := Option.map_eq_some_iff.mp hpush
  have hprev := listInsert_prev hlinks
  rcases List.mem_cons.mp ((h.family.list t).segment.mem_of_prev hprev) with hno | hmem
  · cases hno
  · obtain ⟨m, hm, heq⟩ := List.mem_map.mp hmem
    exact Node.elem.inj heq ▸ hm

/-- A failing `lock_try_acquire` links the lock for a thread that does not hold it. -/
theorem not_bookkept_of_failing (hv : Valued s) (hl : s.holder l ≠ none)
    (hs : Step s (.tryAcquire t l) s') : ¬ Bookkept s' := by
  rintro ⟨ls, h⟩
  obtain ⟨b, hs⟩ := hs
  unfold lockTryAcquire at hs
  split at hs
  next => cases hs
  next hne =>
    split at hs
    next hvalue => exact hl (hv.free (by omega))
    next =>
      obtain ⟨s₁, hpush, heq⟩ := Option.map_eq_some_iff.mp hs
      obtain ⟨-, rfl⟩ := Prod.mk.inj heq
      have hholder := (h.mem t l).mp (h.mem_of_push hpush)
      obtain ⟨links, -, rfl⟩ := Option.map_eq_some_iff.mp hpush
      exact hne hholder

theorem bookkept_of_run {s₀ : State} (h₀ : Start s₀)
    (h : Lts.Run (fun s op s' => Step s op s' ∧ Free s op) s₀ ops s) : Bookkept s ∧ Valued s := by
  refine h.invariant (P := fun s => Bookkept s ∧ Valued s) ?_ ⟨⟨fun _ => [], ?_⟩, ?_⟩
  · rintro s op s' ⟨hs, hfree⟩ ⟨⟨ls, hls⟩, hv⟩
    exact hls.step hv hfree hs
  · refine ⟨⟨h₀.empty, fun _ _ _ hno => absurd hno List.not_mem_nil⟩, fun t l => ?_⟩
    rw [h₀.free]
    constructor
    · exact fun hno => absurd hno List.not_mem_nil
    · intro hno
      cases hno
  · intro l
    rw [h₀.value, h₀.free]
    rfl

/-- As long as `lock_try_acquire` finds its locks free, the lists are those of the locks
held; and the next operation keeps them so exactly if it does too. -/
theorem lock_lists {s₀ : State} (h₀ : Start s₀)
    (h : Lts.Run (fun s op s' => Step s op s' ∧ Free s op) s₀ ops s) :
    Bookkept s ∧ ∀ op s', Step s op s' → (Bookkept s' ↔ Free s op) := by
  obtain ⟨⟨ls, hls⟩, hv⟩ := bookkept_of_run h₀ h
  refine ⟨⟨ls, hls⟩, fun op s' hs => ⟨?_, fun hfree => (hls.step hv hfree hs).1⟩⟩
  rintro hbook t l rfl
  by_contra hl
  exact not_bookkept_of_failing hv hl hs hbook

/-! ## A run -/

/-- The state at start-up. -/
def boot : State where
  holder := fun _ => none
  value := fun _ => 1
  links :=
    { prev := fun n =>
        match n with
        | .tail t => some (.head t)
        | _ => none
      next := fun n =>
        match n with
        | .head t => some (.tail t)
        | _ => none }

theorem start_boot : Start boot := by
  refine ⟨fun _ => rfl, fun _ => rfl, fun t => ⟨?_, ⟨rfl, rfl⟩, rfl, rfl⟩⟩
  refine List.nodup_cons.mpr ⟨fun hmem => ?_, List.nodup_singleton _⟩
  cases List.mem_singleton.mp hmem

/-- Perform operations that return; a loop gets ten rounds. -/
def performs (s : State) (op : Op) : Option State :=
  match op with
  | .acquire t l => lockAcquire s t l
  | .tryAcquire t l => (lockTryAcquire s t l).map (·.2)
  | .release t l => lockRelease s t l
  | .exit t => releaseLocks 10 s t

theorem step_of_performs (h : performs s op = some s') : Step s op s' := by
  cases op with
  | acquire t l => exact h
  | tryAcquire t l =>
      obtain ⟨⟨b, s₁⟩, hs, rfl⟩ := Option.map_eq_some_iff.mp h
      exact ⟨b, hs⟩
  | release t l => exact h
  | exit t => exact ⟨10, h⟩

/-- The second thread tries a lock that the first one holds: it is in the list of the
second one then. -/
theorem lock_lists_broken : ∃ s s', Lts.Run Step boot [.acquire 1 7] s ∧
    Step s (.tryAcquire 2 7) s' ∧ s'.holder 7 = some 1 ∧ ¬ Bookkept s' := by
  have hrun : ((performs boot (.acquire 1 7)).bind fun s => (performs s (.tryAcquire 2 7)).map
      fun s' => decide (s.holder 7 = some 1 ∧ s'.holder 7 = some 1)) = some true := by
    decide +kernel
  obtain ⟨s, hs, hrun⟩ := Option.bind_eq_some_iff.mp hrun
  obtain ⟨s', hs', hholder⟩ := Option.map_eq_some_iff.mp hrun
  obtain ⟨hheld, hheld'⟩ := of_decide_eq_true hholder
  have hstep := step_of_performs hs
  have hv := (bookkept_of_run start_boot (.single ⟨hstep, fun _ _ hno => by cases hno⟩)).2
  have hne : s.holder 7 ≠ none := by
    rw [hheld]
    exact Option.some_ne_none 1
  exact ⟨s, s', .single hstep, step_of_performs hs', hheld',
    not_bookkept_of_failing hv hne (step_of_performs hs')⟩

theorem lock_lists_run : ∃ s s', Lts.Run (fun s op s' => Step s op s' ∧ Free s op) boot
    [.acquire 1 7] s ∧ Step s (.tryAcquire 1 8) s' ∧ Bookkept s' := by
  have hrun : ((performs boot (.acquire 1 7)).bind fun s => (performs s (.tryAcquire 1 8)).map
      fun _ => decide (s.holder 8 = none)) = some true := by decide +kernel
  obtain ⟨s, hs, hrun⟩ := Option.bind_eq_some_iff.mp hrun
  obtain ⟨s', hs', hholder⟩ := Option.map_eq_some_iff.mp hrun
  have hsteps : Lts.Run (fun s op s' => Step s op s' ∧ Free s op) boot [.acquire 1 7] s :=
    .single ⟨step_of_performs hs, fun _ _ hno => by cases hno⟩
  have hstep := step_of_performs hs'
  refine ⟨s, s', hsteps, hstep, ((lock_lists start_boot hsteps).2 _ _ hstep).mpr ?_⟩
  intro t l heq
  cases heq
  exact of_decide_eq_true hholder

end Pintos.LockList
