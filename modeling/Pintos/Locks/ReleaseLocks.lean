import Pintos.Lib.IntrusiveList
import Pintos.Threads.Kernel
import Pintos.Vm.State

/-! # `release_locks`

`release_locks` of `thread.c`, with `lock_release` and `sema_up` of `synch.c` down to
the links of the lists: the `lock_list` that it walks, the `waiters` of the locks and
`ready_list`. `lock_release` unlinks the lock, and `release_locks` unlinks it once more,
by the links that the element still has. The elements `elem` and `lock_elem` of a lock
are one.
-/

namespace Pintos.ReleaseLocks

open Intrusive
open Threads (ThreadStatus assertThat)
open Vm (Tid Ptr deref)

/-- The lists of the kernel; `other` are those that `release_locks` does not know. -/
inductive ListName where
  | lockList (t : Tid)
  | waiters (l : Ptr)
  | readyList
  | other (list : Ptr)
deriving DecidableEq, Repr

/-- The list elements of locks, threads and whatever is in other lists. -/
inductive Elem where
  | lock (l : Ptr)
  | elem (t : Tid)
  | other (e : Ptr)
deriving DecidableEq, Repr

abbrev ListNode := Node ListName Elem

/-- `enum intr_level`. -/
inductive IntrLevel where
  | off
  | on
deriving DecidableEq, Repr

/-- The status of the threads, the holders of the locks and the values of their semaphores,
all links, the running thread and the interrupt level. -/
structure State where
  status : Tid → Option ThreadStatus
  holder : Ptr → Option Tid
  value : Ptr → UInt32
  links : Links ListNode
  current : Tid
  level : IntrLevel

/-- `thread_current`. -/
def threadCurrent (s : State) : Except String Tid :=
  match s.status s.current with
  | none => .error "is_thread (t)"
  | some status => do
      assertThat (status = .running) "t->status == THREAD_RUNNING"
      return s.current

/-- `intr_disable`. -/
def intrDisable (s : State) : IntrLevel × State := (s.level, { s with level := .off })

/-- `intr_set_level`. -/
def intrSetLevel (s : State) (level : IntrLevel) : State := { s with level := level }

/-- `thread_unblock`. -/
def threadUnblock (s : State) (t : Tid) : Except String State :=
  match s.status t with
  | none => .error "is_thread (t)"
  | some status => do
      let (oldLevel, s) := intrDisable s
      assertThat (status = .blocked) "t->status == THREAD_BLOCKED"
      let links ← deref (listPushBack s.links (listOf .readyList) (.elem (.elem t)))
      let s := { s with links := links, status := Function.update s.status t (some .ready) }
      return intrSetLevel s oldLevel

/-- `list_entry (e, struct thread, elem)`. -/
def threadEntry : ListNode → Except String Tid
  | .elem (.elem t) => .ok t
  | _ => .error "is_thread (t)"

/-- `sema_up` for the semaphore of a lock. -/
def semaUp (s : State) (l : Ptr) : Except String State := do
  let (oldLevel, s) := intrDisable s
  let s ←
    if listEmpty s.links (listOf (.waiters l)) then
      pure s
    else do
      let (e, links) ← deref (listPopFront s.links (listOf (.waiters l)))
      let t ← threadEntry e
      threadUnblock { s with links := links } t
  let s := { s with value := Function.update s.value l (s.value l + 1) }
  return intrSetLevel s oldLevel

/-- `lock_held_by_current_thread`. -/
def lockHeldByCurrentThread (s : State) (l : Ptr) : Except String Bool := do
  let t ← threadCurrent s
  return decide (s.holder l = some t)

/-- `list_remove` of the element of a lock. -/
def unlink (s : State) (l : Ptr) : Except String State := do
  let links ← deref (listRemove s.links (.elem (.lock l)))
  return { s with links := links }

/-- `lock_release`. -/
def lockRelease (s : State) (l : Ptr) : Except String State := do
  let held ← lockHeldByCurrentThread s l
  assertThat held "lock_held_by_current_thread (lock)"
  let s := { s with holder := Function.update s.holder l none }
  let s ← unlink s l
  semaUp s l

/-- The loop of `release_locks` for thread `t` from the node `e` on, with at most so many
rounds. -/
def releaseLoop (t : Tid) : ℕ → ListNode → State → Except String State
  | 0, _, _ => .error "more rounds"
  | rounds + 1, e, s =>
      if e = .tail (.lockList t) then .ok s
      else
        match e with
        | .elem (.lock l) => do
            let next ← deref (s.links.next e)
            let s ← lockRelease s l
            let s ← unlink s l
            releaseLoop t rounds next s
        | _ => .error "list_entry (e, struct lock, elem)"

/-- `release_locks`. -/
def releaseLocks (rounds : ℕ) (s : State) : Except String State := do
  let t ← threadCurrent s
  let e ← deref (s.links.next (.head (.lockList t)))
  releaseLoop t rounds e s

/-! ## What it is for -/

/-- The threads that are first in the `waiters` of some locks. -/
def firstWaiters (xs : ListName → List Elem) (ls : List Ptr) : List Elem :=
  ls.filterMap fun l => (xs (.waiters l)).head?

/-- The lists once the thread `c` has released the locks `ls` and still has the locks
`rest`. -/
def releasedLists (xs : ListName → List Elem) (c : Tid) (ls rest : List Ptr) :
    ListName → List Elem
  | .lockList t => if t = c then rest.map .lock else xs (.lockList t)
  | .waiters l => if l ∈ ls then (xs (.waiters l)).tail else xs (.waiters l)
  | .readyList => xs .readyList ++ firstWaiters xs ls
  | .other list => xs (.other list)

/-- The nodes of a list. -/
def nodesOf (xs : ListName → List Elem) (n : ListName) : List ListNode :=
  (listOf n).nodes ((xs n).map .elem)

/-- The nodes of the lists that change when `c` releases the locks `ls`. -/
def changedNodes (xs : ListName → List Elem) (c : Tid) (ls : List Ptr) : List ListNode :=
  nodesOf xs (.lockList c) ++ nodesOf xs .readyList ++ ls.flatMap fun l => nodesOf xs (.waiters l)

/-- The running thread holds the locks `ls`, which are those in its `lock_list`; interrupts
are off. The lists in `P` are well formed and have the elements `xs`; who waits for
one of the locks is a blocked thread. -/
structure Holding (s : State) (P : ListName → Prop) (xs : ListName → List Elem) (ls : List Ptr) :
    Prop where
  family : FamilyOn s.links P xs
  lockList : P (.lockList s.current)
  readyList : P .readyList
  waiters : ∀ l ∈ ls, P (.waiters l)
  locks : xs (.lockList s.current) = ls.map .lock
  held : ∀ l ∈ ls, s.holder l = some s.current
  running : s.status s.current = some .running
  blocked : ∀ l ∈ ls, ∀ e ∈ xs (.waiters l), ∃ t, e = .elem t ∧ s.status t = some .blocked
  level : s.level = .off

/-- From `s` to `s'` the running thread has released the locks `ls`, and nothing else has
changed; it still has the locks `rest`. -/
structure Released (s s' : State) (P : ListName → Prop) (xs : ListName → List Elem)
    (ls rest : List Ptr) : Prop where
  family : FamilyOn s'.links P (releasedLists xs s.current ls rest)
  links : s.links.SameOff s'.links (changedNodes xs s.current ls)
  holder : ∀ l, s'.holder l = if l ∈ ls then none else s.holder l
  value : ∀ l, s'.value l = if l ∈ ls then s.value l + 1 else s.value l
  status : ∀ t, s'.status t = if .elem t ∈ firstWaiters xs ls then some .ready else s.status t
  current : s'.current = s.current
  level : s'.level = s.level

variable {s s' s₁ : State} {P : ListName → Prop} {xs : ListName → List Elem} {ls rest : List Ptr}
  {l : Ptr} {t : Tid}

/-! ## `sema_up` -/

/-- The lists after `sema_up` for the lock `l`. -/
def uppedLists (xs : ListName → List Elem) (l : Ptr) : ListName → List Elem :=
  Function.update (Function.update xs (.waiters l) (xs (.waiters l)).tail) .readyList
    (xs .readyList ++ (xs (.waiters l)).head?.toList)

/-- What `sema_up` does. -/
structure Upped (s s' : State) (P : ListName → Prop) (xs : ListName → List Elem) (l : Ptr) :
    Prop where
  family : FamilyOn s'.links P (uppedLists xs l)
  links : s.links.SameOff s'.links (nodesOf xs (.waiters l) ++ nodesOf xs .readyList)
  holder : s'.holder = s.holder
  value : s'.value = Function.update s.value l (s.value l + 1)
  status : ∀ t, s'.status t =
    if (xs (.waiters l)).head? = some (.elem t) then some .ready else s.status t
  current : s'.current = s.current
  level : s'.level = s.level

theorem threadUnblock_ok {links : Links ListNode} (hblocked : s.status t = some .blocked)
    (hpush : listPushBack s.links (listOf .readyList) (.elem (.elem t)) = some links) :
    threadUnblock s t = .ok { s with
      links := links
      status := Function.update s.status t (some .ready) } := by
  unfold threadUnblock
  rw [hblocked]
  show (deref (listPushBack s.links _ _) >>= _) = _
  rw [hpush]
  rfl

/-- Nobody waits: only the value changes. -/
theorem semaUp_nil (hk : FamilyOn s.links P xs) (hw : P (.waiters l))
    (hnil : xs (.waiters l) = []) : ∃ s', semaUp s l = .ok s' ∧ Upped s s' P xs l := by
  have hlist := hk.list _ hw
  rw [hnil] at hlist
  refine ⟨{ s with value := Function.update s.value l (s.value l + 1) }, ?_, ?_⟩
  · unfold semaUp intrDisable
    dsimp only
    rw [if_pos hlist.listEmpty_nil]
    rfl
  · constructor
    case family =>
      unfold uppedLists
      rw [hnil, List.head?_nil, Option.toList_none, List.append_nil, List.tail_nil, ← hnil,
        Function.update_eq_self, Function.update_eq_self]
      exact hk
    case links => exact fun _ _ => ⟨rfl, rfl⟩
    case holder => rfl
    case value => rfl
    case status =>
      intro t
      rw [hnil, List.head?_nil, if_neg (by simp)]
    case current => rfl
    case level => rfl

/-- The first waiter becomes the last one that is ready. -/
theorem semaUp_cons {ws : List Elem} (hk : FamilyOn s.links P xs) (hw : P (.waiters l))
    (hr : P .readyList) (hcons : xs (.waiters l) = .elem t :: ws)
    (hblocked : s.status t = some .blocked) :
    ∃ s', semaUp s l = .ok s' ∧ Upped s s' P xs l := by
  have hmem : Elem.elem t ∈ xs (.waiters l) := by
    rw [hcons]
    exact List.mem_cons_self
  obtain ⟨k₁, hpop, hk₁, hoff₁⟩ := hk.popFront hw hcons
  -- the element is in no list now
  have hnotin : ∀ n, P n → Elem.elem t ∉ Function.update xs (.waiters l) ws n := by
    intro n hn hin
    by_cases heq : n = .waiters l
    · rw [heq, Function.update_self] at hin
      have hnodup := (hk.list _ hw).nodup_elements.of_map
      rw [hcons] at hnodup
      exact (List.nodup_cons.mp hnodup).1 hin
    · rw [Function.update_of_ne heq] at hin
      exact heq (hk.apart _ _ hn hw _ hin hmem)
  obtain ⟨k₂, hpush, hk₂⟩ := hk₁.pushBack hr hnotin
  have hoff₂ := hk₁.pushBack_sameOff hr (hnotin _ hr) hpush
  have hready : Function.update xs (.waiters l) ws .readyList = xs .readyList :=
    Function.update_of_ne ListName.noConfusion ..
  rw [hready] at hk₂ hoff₂
  refine ⟨{ s with
    links := k₂
    status := Function.update s.status t (some .ready)
    value := Function.update s.value l (s.value l + 1) }, ?_, ?_⟩
  · have hlist := hk.list _ hw
    rw [hcons, List.map_cons] at hlist
    have hunblock : threadUnblock { s with links := k₁, level := .off } t = .ok { s with
        links := k₂
        status := Function.update s.status t (some .ready)
        level := .off } := threadUnblock_ok hblocked hpush
    unfold semaUp intrDisable
    dsimp only
    rw [hlist.listEmpty_cons, if_neg Bool.false_ne_true, hpop]
    show (threadUnblock { s with links := k₁, level := .off } t >>= _) = _
    rw [hunblock]
    rfl
  · constructor
    case family =>
      unfold uppedLists
      rw [hcons, List.tail_cons]
      exact hk₂
    case links =>
      refine (hoff₁.mono ?_).trans (hoff₂.mono ?_)
      · exact fun n hn => List.mem_append_left _ hn
      · intro n hn
        rcases List.mem_cons.mp hn with rfl | hn
        · exact List.mem_append_left _ (elem_mem_nodes.mpr hmem)
        · exact List.mem_append_right _ hn
    case holder => rfl
    case value => rfl
    case status =>
      intro u
      show Function.update s.status t (some .ready) u = _
      rw [hcons, List.head?_cons]
      by_cases hu : u = t
      · subst hu
        rw [Function.update_self, if_pos rfl]
      · rw [Function.update_of_ne hu, if_neg]
        intro heq
        exact hu (Elem.elem.inj (Option.some.inj heq)).symm
    case current => rfl
    case level => rfl

theorem semaUp_ok (hk : FamilyOn s.links P xs) (hw : P (.waiters l)) (hr : P .readyList)
    (hblocked : ∀ e ∈ xs (.waiters l), ∃ t, e = .elem t ∧ s.status t = some .blocked) :
    ∃ s', semaUp s l = .ok s' ∧ Upped s s' P xs l := by
  cases hwaiters : xs (.waiters l) with
  | nil => exact semaUp_nil hk hw hwaiters
  | cons e ws =>
      obtain ⟨t, rfl, ht⟩ := hblocked e (by
        rw [hwaiters]
        exact List.mem_cons_self)
      exact semaUp_cons hk hw hr hwaiters ht

/-! ## One lock -/

theorem threadCurrent_ok (h : s.status s.current = some .running) :
    threadCurrent s = .ok s.current := by
  unfold threadCurrent
  rw [h]
  rfl

theorem nodesOf_update {es : List Elem} {m n : ListName} (hne : n ≠ m) :
    nodesOf (Function.update xs m es) n = nodesOf xs n := by
  unfold nodesOf
  rw [Function.update_of_ne hne]

theorem mem_nodesOf {m : ListName} {n : ListNode} :
    n ∈ nodesOf xs m ↔ n = .head m ∨ (∃ e ∈ xs m, n = .elem e) ∨ n = .tail m := by
  unfold nodesOf
  rw [Ends.mem_nodes, List.mem_map]
  refine or_congr Iff.rfl (or_congr ?_ Iff.rfl)
  constructor
  · rintro ⟨e, he, rfl⟩
    exact ⟨e, he, rfl⟩
  · rintro ⟨e, he, rfl⟩
    exact ⟨e, he, rfl⟩

theorem nodesOf_mono {ys : ListName → List Elem} {m : ListName} {n : ListNode}
    (h : ∀ e ∈ ys m, e ∈ xs m) (hn : n ∈ nodesOf ys m) : n ∈ nodesOf xs m := by
  rw [mem_nodesOf] at hn ⊢
  refine hn.imp_right (Or.imp_left ?_)
  rintro ⟨e, he, rfl⟩
  exact ⟨e, h e he, rfl⟩

theorem mem_changedNodes {c : Tid} {n : ListNode} : n ∈ changedNodes xs c ls ↔
    n ∈ nodesOf xs (.lockList c) ∨ n ∈ nodesOf xs .readyList ∨
      ∃ l ∈ ls, n ∈ nodesOf xs (.waiters l) := by
  unfold changedNodes
  rw [List.mem_append, List.mem_append, List.mem_flatMap, or_assoc]

theorem firstWaiters_cons :
    firstWaiters xs (l :: ls) = (xs (.waiters l)).head?.toList ++ firstWaiters xs ls := by
  unfold firstWaiters
  rw [List.filterMap_cons]
  cases (xs (.waiters l)).head? with
  | none => rfl
  | some e => rfl

/-- The lists after one lock has been released. -/
theorem uppedLists_eq {c : Tid} : uppedLists (Function.update xs (.lockList c) (rest.map .lock)) l =
    releasedLists xs c [l] rest := by
  have hupdate : ∀ n, n ≠ .lockList c →
      Function.update xs (.lockList c) (rest.map Elem.lock) n = xs n :=
    fun n hne => Function.update_of_ne hne ..
  have hw := hupdate (.waiters l) (by simp)
  have hr := hupdate .readyList (by simp)
  funext n
  unfold uppedLists
  rw [hw, hr]
  cases n with
  | lockList u =>
      rw [Function.update_of_ne (by simp), Function.update_of_ne (by simp)]
      show _ = if u = c then _ else _
      by_cases hu : u = c
      · subst hu
        rw [Function.update_self, if_pos rfl]
      · rw [Function.update_of_ne (by simpa using hu), if_neg hu]
  | waiters m =>
      rw [Function.update_of_ne (by simp)]
      show _ = if m ∈ [l] then _ else _
      by_cases hm : m = l
      · subst hm
        rw [Function.update_self, if_pos List.mem_cons_self]
      · rw [Function.update_of_ne (by simpa using hm), hupdate _ (by simp), if_neg (by simpa using hm)]
  | readyList =>
      rw [Function.update_self]
      show _ = xs .readyList ++ firstWaiters xs [l]
      rw [firstWaiters_cons]
      unfold firstWaiters
      rw [List.filterMap_nil, List.append_nil]
  | other list =>
      rw [Function.update_of_ne (by simp), Function.update_of_ne (by simp), hupdate _ (by simp)]
      rfl

theorem update_eq_ite {β : Type} (f g : Ptr → β) (m : Ptr) :
    Function.update f l (g l) m = if m ∈ [l] then g m else f m := by
  by_cases hm : m = l
  · subst hm
    rw [Function.update_self, if_pos List.mem_cons_self]
  · rw [Function.update_of_ne hm, if_neg fun hmem => hm (List.mem_singleton.mp hmem)]

/-- What `sema_up` does to a lock that has been unlinked, seen from the state before. -/
theorem Upped.released {k₁ : Links ListNode}
    (hup : Upped { s with holder := Function.update s.holder l none, links := k₁ } s₁ P
      (Function.update xs (.lockList s.current) (rest.map .lock)) l)
    (hoff : s.links.SameOff k₁ (nodesOf xs (.lockList s.current))) :
    Released s s₁ P xs [l] rest := by
  constructor
  case family =>
    have hfamily := hup.family
    rwa [uppedLists_eq] at hfamily
  case links =>
    have hoff' := hup.links
    rw [nodesOf_update (by simp), nodesOf_update (by simp)] at hoff'
    refine (hoff.mono fun n hn => ?_).trans (hoff'.mono fun n hn => ?_)
    · exact mem_changedNodes.mpr (.inl hn)
    · refine mem_changedNodes.mpr (.inr ?_)
      rcases List.mem_append.mp hn with hn | hn
      · exact .inr ⟨l, List.mem_cons_self, hn⟩
      · exact .inl hn
  case holder =>
    intro m
    rw [hup.holder]
    exact update_eq_ite s.holder (fun _ => none) m
  case value =>
    intro m
    rw [hup.value]
    exact update_eq_ite s.value (fun m => s.value m + 1) m
  case status =>
    intro t
    have hfirst : Elem.elem t ∈ firstWaiters xs [l] ↔ (xs (.waiters l)).head? = some (.elem t) := by
      rw [firstWaiters_cons]
      show _ ∈ _ ++ [] ↔ _
      rw [List.append_nil, Option.mem_toList]
    rw [hup.status, Function.update_of_ne (by simp)]
    by_cases ht : (xs (.waiters l)).head? = some (.elem t)
    · rw [if_pos ht, if_pos (hfirst.mpr ht)]
    · rw [if_neg ht, if_neg fun hmem => ht (hfirst.mp hmem)]
  case current => exact hup.current
  case level => exact hup.level

/-- `lock_release` for the first lock. After it has unlinked the lock, only nodes of
`waiters` and `ready_list` change. -/
theorem Holding.release (h : Holding s P xs (l :: rest)) :
    ∃ k₁ s₁, listRemove s.links (.elem (.lock l)) = some k₁ ∧ lockRelease s l = .ok s₁ ∧
      k₁.SameOff s₁.links (nodesOf xs (.waiters l) ++ nodesOf xs .readyList) ∧
      Released s s₁ P xs [l] rest := by
  have hw : P (.waiters l) := h.waiters l List.mem_cons_self
  have hlock : Elem.lock l ∈ xs (.lockList s.current) := by
    rw [h.locks]
    exact List.mem_cons_self
  obtain ⟨k₁, hremove, hk₁, hoff₁, -⟩ := h.family.remove h.lockList hlock
  rw [h.locks, List.map_cons, List.erase_cons_head] at hk₁
  let s₀ : State := { s with holder := Function.update s.holder l none, links := k₁ }
  have hblocked : ∀ e ∈ Function.update xs (.lockList s.current) (rest.map .lock) (.waiters l),
      ∃ t, e = .elem t ∧ s₀.status t = some .blocked := by
    rw [Function.update_of_ne (by simp)]
    exact h.blocked l List.mem_cons_self
  obtain ⟨s₁, hsema, hup⟩ := semaUp_ok (s := s₀) hk₁ hw h.readyList hblocked
  refine ⟨k₁, s₁, hremove, ?_, ?_, hup.released hoff₁⟩
  · unfold lockRelease lockHeldByCurrentThread
    rw [threadCurrent_ok h.running]
    have hheld : decide (s.holder l = some s.current) = true :=
      decide_eq_true (h.held l List.mem_cons_self)
    show (assertThat (decide (s.holder l = some s.current) = true) _ >>= _) = _
    rw [hheld]
    show ((deref (listRemove s.links (.elem (.lock l))) >>= _) >>= _) = _
    rw [hremove]
    exact hsema
  · have hoff₂ := hup.links
    rwa [nodesOf_update (by simp), nodesOf_update (by simp)] at hoff₂

/-- The first round of the loop: the lock is released, and by its stale links it is removed
once more, which changes nothing. -/
theorem Holding.round (h : Holding s P xs (l :: rest)) :
    ∃ s₁, lockRelease s l = .ok s₁ ∧ unlink s₁ l = .ok s₁ ∧ Released s s₁ P xs [l] rest := by
  obtain ⟨k₁, s₁, hremove, hrelease, hoff, hr⟩ := h.release
  refine ⟨s₁, hrelease, ?_, hr⟩
  have hlist := h.family.list _ h.lockList
  rw [h.locks, List.map_cons, List.map_cons] at hlist
  have hfirst : IsList s.links (listOf (.lockList s.current))
      ([] ++ .elem (.lock l) :: (rest.map .lock).map .elem) := hlist
  -- `sema_up` does not come near the nodes of `lock_list`
  have hagain : listRemove s₁.links (.elem (.lock l)) = some s₁.links := by
    refine hfirst.remove_again hremove hoff fun n hn hmem => ?_
    have hn' : n ∈ nodesOf xs (.lockList s.current) := by
      unfold nodesOf
      rw [h.locks, List.map_cons, List.map_cons]
      exact hn
    rcases List.mem_append.mp hmem with hmem | hmem
    · have hw : P (.waiters l) := h.waiters l List.mem_cons_self
      exact h.family.nodes_apart h.lockList hw (by simp) n hn' hmem
    · exact h.family.nodes_apart h.lockList h.readyList (by simp) n hn' hmem
  unfold unlink
  rw [hagain]
  rfl

/-! ## What is left to do -/

theorem mem_firstWaiters {e : Elem} (he : e ∈ firstWaiters xs ls) :
    ∃ l ∈ ls, e ∈ xs (.waiters l) := by
  obtain ⟨l, hl, hhead⟩ := List.mem_filterMap.mp he
  exact ⟨l, hl, List.mem_of_mem_head? hhead⟩

theorem Holding.nodup (h : Holding s P xs ls) : ls.Nodup := by
  have hnodup := (h.family.list _ h.lockList).nodup_elements.of_map
  rw [h.locks] at hnodup
  exact hnodup.of_map

theorem waiters_of_notMem {c : Tid} (hl : l ∉ ls) :
    releasedLists xs c ls rest (.waiters l) = xs (.waiters l) := if_neg hl

/-- A lock that is not released yet has its holder and its waiters. -/
theorem Released.holding (hr : Released s s₁ P xs [l] rest) (h : Holding s P xs (l :: rest)) :
    Holding s₁ P (releasedLists xs s.current [l] rest) rest := by
  have hother : ∀ m ∈ rest, m ∉ [l] := by
    intro m hm hmem
    obtain rfl := List.mem_singleton.mp hmem
    exact (List.nodup_cons.mp h.nodup).1 hm
  have hmem : l ∈ l :: rest := List.mem_cons_self
  constructor
  case family => exact hr.family
  case lockList =>
    rw [hr.current]
    exact h.lockList
  case readyList => exact h.readyList
  case waiters => exact fun m hm => h.waiters m (List.mem_cons_of_mem l hm)
  case locks =>
    rw [hr.current]
    exact if_pos rfl
  case held =>
    intro m hm
    rw [hr.holder, if_neg (hother m hm), hr.current]
    exact h.held m (List.mem_cons_of_mem l hm)
  case running =>
    rw [hr.current, hr.status, if_neg]
    · exact h.running
    · intro hfirst
      obtain ⟨m, hm, hwaits⟩ := mem_firstWaiters hfirst
      obtain rfl := List.mem_singleton.mp hm
      obtain ⟨t, heq, hblocked⟩ := h.blocked m hmem _ hwaits
      obtain rfl := Elem.elem.inj heq
      cases hblocked.symm.trans h.running
  case blocked =>
    intro m hm e he
    have hm' : m ∈ l :: rest := List.mem_cons_of_mem l hm
    rw [waiters_of_notMem (hother m hm)] at he
    obtain ⟨t, rfl, hblocked⟩ := h.blocked m hm' e he
    refine ⟨t, rfl, ?_⟩
    rw [hr.status, if_neg]
    · exact hblocked
    · -- nobody waits for two locks
      intro hfirst
      obtain ⟨m', hm'', hwaits⟩ := mem_firstWaiters hfirst
      obtain rfl := List.mem_singleton.mp hm''
      have heq := h.family.apart _ _ (h.waiters m hm') (h.waiters m' hmem) _ he hwaits
      exact hother m hm (ListName.waiters.inj heq ▸ List.mem_cons_self)
  case level =>
    rw [hr.level]
    exact h.level

/-! ## One lock after the other -/

theorem firstWaiters_released {c : Tid} (hl : l ∉ rest) :
    firstWaiters (releasedLists xs c [l] rest) rest = firstWaiters xs rest := by
  unfold firstWaiters
  refine List.filterMap_congr fun m hm => ?_
  rw [waiters_of_notMem]
  intro hmem
  obtain rfl := List.mem_singleton.mp hmem
  exact hl hm

theorem firstWaiters_first : firstWaiters xs (l :: rest) =
    firstWaiters xs [l] ++ firstWaiters xs rest := by
  rw [firstWaiters_cons, firstWaiters_cons]
  show _ = (_ ++ []) ++ _
  rw [List.append_nil]

theorem releasedLists_released {c : Tid} (hl : l ∉ rest) :
    releasedLists (releasedLists xs c [l] rest) c rest [] = releasedLists xs c (l :: rest) [] := by
  funext n
  cases n with
  | lockList u =>
      show (if u = c then _ else if u = c then _ else _) = if u = c then _ else _
      by_cases hu : u = c
      · rw [if_pos hu, if_pos hu]
      · rw [if_neg hu, if_neg hu, if_neg hu]
  | waiters m =>
      unfold releasedLists
      dsimp only
      by_cases hm : m = l
      · subst hm
        rw [if_neg hl, if_pos List.mem_cons_self, if_pos List.mem_cons_self]
      · have hm' : m ∉ [l] := fun hmem => hm (List.mem_singleton.mp hmem)
        rw [if_neg hm']
        by_cases hrest : m ∈ rest
        · rw [if_pos hrest, if_pos (List.mem_cons_of_mem l hrest)]
        · have hnot : m ∉ l :: rest := fun hmem => (List.mem_cons.mp hmem).elim hm hrest
          rw [if_neg hrest, if_neg hnot]
  | readyList =>
      show (xs .readyList ++ firstWaiters xs [l]) ++ firstWaiters _ rest =
        xs .readyList ++ firstWaiters xs (l :: rest)
      rw [firstWaiters_released hl, List.append_assoc, ← firstWaiters_first]
  | other list => rfl

/-- Later rounds come to no other nodes. -/
theorem Holding.changedNodes_released (h : Holding s P xs (l :: rest)) :
    ∀ n ∈ changedNodes (releasedLists xs s.current [l] rest) s.current rest,
      n ∈ changedNodes xs s.current (l :: rest) := by
  have hl : l ∉ rest := (List.nodup_cons.mp h.nodup).1
  intro n hn
  rw [mem_changedNodes] at hn ⊢
  rcases hn with hn | hn | ⟨m, hm, hn⟩
  · -- the locks that are left
    refine .inl (nodesOf_mono (fun e he => ?_) hn)
    unfold releasedLists at he
    dsimp only at he
    rw [if_pos rfl] at he
    rw [h.locks]
    exact List.mem_cons_of_mem _ he
  · rcases mem_nodesOf.mp hn with rfl | ⟨e, he, rfl⟩ | rfl
    · exact .inr (.inl (mem_nodesOf.mpr (.inl rfl)))
    · rcases List.mem_append.mp he with he | he
      · exact .inr (.inl (mem_nodesOf.mpr (.inr (.inl ⟨e, he, rfl⟩))))
      · -- the thread that has been unblocked
        obtain ⟨m, hm, hwaits⟩ := mem_firstWaiters he
        obtain rfl := List.mem_singleton.mp hm
        refine .inr (.inr ⟨m, List.mem_cons_self, ?_⟩)
        exact mem_nodesOf.mpr (.inr (.inl ⟨e, hwaits, rfl⟩))
    · exact .inr (.inl (mem_nodesOf.mpr (.inr (.inr rfl))))
  · refine .inr (.inr ⟨m, List.mem_cons_of_mem l hm, nodesOf_mono (fun e he => ?_) hn⟩)
    rwa [waiters_of_notMem] at he
    intro hmem
    obtain rfl := List.mem_singleton.mp hmem
    exact hl hm

/-- The first lock is released, and then the others. -/
theorem Released.trans (hr : Released s s₁ P xs [l] rest) (h : Holding s P xs (l :: rest))
    (hr' : Released s₁ s' P (releasedLists xs s.current [l] rest) rest []) :
    Released s s' P xs (l :: rest) [] := by
  have hl : l ∉ rest := (List.nodup_cons.mp h.nodup).1
  have hother : ∀ {m}, m ≠ l → m ∉ [l] := fun hm hmem => hm (List.mem_singleton.mp hmem)
  have hrest : ∀ {m}, m ≠ l → (m ∈ l :: rest ↔ m ∈ rest) :=
    fun hm => List.mem_cons.trans (or_iff_right hm)
  constructor
  case family =>
    have hfamily := hr'.family
    rwa [hr.current, releasedLists_released hl] at hfamily
  case links =>
    refine (hr.links.mono ?_).trans (hr'.links.mono ?_)
    · intro n hn
      rw [mem_changedNodes] at hn ⊢
      refine hn.imp_right (Or.imp_right ?_)
      rintro ⟨m, hm, hwaiters⟩
      obtain rfl := List.mem_singleton.mp hm
      exact ⟨m, List.mem_cons_self, hwaiters⟩
    · rw [hr.current]
      exact h.changedNodes_released
  case holder =>
    intro m
    rw [hr'.holder, hr.holder]
    by_cases hm : m = l
    · subst hm
      rw [if_neg hl, if_pos List.mem_cons_self, if_pos List.mem_cons_self]
    · rw [if_neg (hother hm), if_congr (hrest hm) rfl rfl]
  case value =>
    intro m
    rw [hr'.value, hr.value]
    by_cases hm : m = l
    · subst hm
      rw [if_neg hl, if_pos List.mem_cons_self, if_pos List.mem_cons_self]
    · rw [if_neg (hother hm), if_congr (hrest hm) rfl rfl]
  case status =>
    intro t
    have hfirst : firstWaiters xs (l :: rest) = firstWaiters xs [l] ++ firstWaiters xs rest :=
      firstWaiters_first
    rw [hr'.status, hr.status, firstWaiters_released hl, hfirst]
    by_cases ht : Elem.elem t ∈ firstWaiters xs rest
    · rw [if_pos ht, if_pos (List.mem_append_right _ ht)]
    · rw [if_neg ht, if_congr (List.mem_append.trans (or_iff_left ht)) rfl rfl]
  case current => exact hr'.current.trans hr.current
  case level => exact hr'.level.trans hr.level

/-! ## The loop -/

theorem releaseLoop_tail {rounds : ℕ} :
    releaseLoop t (rounds + 1) (.tail (.lockList t)) s = .ok s := by
  unfold releaseLoop
  exact if_pos rfl

theorem releaseLoop_lock {rounds : ℕ} {next : ListNode} {s₂ : State}
    (hnext : s.links.next (.elem (.lock l)) = some next) (hrelease : lockRelease s l = .ok s₁)
    (hunlink : unlink s₁ l = .ok s₂) :
    releaseLoop t (rounds + 1) (.elem (.lock l)) s = releaseLoop t rounds next s₂ := by
  conv_lhs => unfold releaseLoop
  rw [if_neg (by simp)]
  show (deref (s.links.next (.elem (.lock l))) >>= _) = _
  rw [hnext]
  show (lockRelease s l >>= _) = _
  rw [hrelease]
  show (unlink s₁ l >>= _) = _
  rw [hunlink]
  rfl

theorem Holding.released_nil (h : Holding s P xs []) : Released s s P xs [] [] := by
  constructor
  case family =>
    have heq : releasedLists xs s.current [] [] = xs := by
      funext n
      cases n with
      | lockList u =>
          show (if u = s.current then [] else _) = _
          by_cases hu : u = s.current
          · rw [if_pos hu, hu, h.locks]
            rfl
          · rw [if_neg hu]
      | waiters m => exact waiters_of_notMem List.not_mem_nil
      | readyList => exact List.append_nil _
      | other list => rfl
    rw [heq]
    exact h.family
  case links => exact fun _ _ => ⟨rfl, rfl⟩
  case holder => exact fun m => (if_neg List.not_mem_nil).symm
  case value => exact fun m => (if_neg List.not_mem_nil).symm
  case status => exact fun t => (if_neg List.not_mem_nil).symm
  case current => rfl
  case level => rfl

/-- The node behind the lock that is released is the first one then. -/
theorem Released.next_first {next : ListNode} (hr : Released s s₁ P xs [l] rest)
    (h : Holding s P xs (l :: rest)) (hnext : s.links.next (.elem (.lock l)) = some next) :
    s₁.links.next (.head (.lockList s₁.current)) = some next := by
  have h₁ := hr.holding h
  have hlist := (h.family.list _ h.lockList).segment
  have hlist₁ := (h₁.family.list _ h₁.lockList).segment
  rw [h.locks] at hlist
  rw [h₁.locks, hr.current] at hlist₁
  rw [hr.current]
  exact hlist₁.next_eq.trans (hlist.2.next_eq.symm.trans hnext)

/-- The loop releases the locks from the first one on. -/
theorem Holding.loop (h : Holding s P xs ls) {e : ListNode}
    (he : s.links.next (.head (.lockList s.current)) = some e) :
    ∃ s', (∀ rounds, ls.length < rounds → releaseLoop s.current rounds e s = .ok s') ∧
      Released s s' P xs ls [] := by
  induction ls generalizing s xs e with
  | nil =>
      have hlist := h.family.list _ h.lockList
      rw [h.locks] at hlist
      obtain rfl : e = .tail (.lockList s.current) :=
        Option.some.inj (he.symm.trans hlist.segment.next_eq)
      refine ⟨s, fun rounds hrounds => ?_, h.released_nil⟩
      obtain _ | rounds := rounds
      · cases hrounds
      exact releaseLoop_tail
  | cons l rest ih =>
      obtain ⟨s₁, hrelease, hunlink, hr⟩ := h.round
      have h₁ := hr.holding h
      have hlist := (h.family.list _ h.lockList).segment
      rw [h.locks] at hlist
      obtain rfl : e = .elem (.lock l) := Option.some.inj (he.symm.trans hlist.next_eq)
      obtain ⟨next, -, hnext⟩ := hlist.2.next
      obtain ⟨s', hloop, hr'⟩ := ih h₁ (hr.next_first h hnext)
      refine ⟨s', fun rounds hrounds => ?_, hr.trans h hr'⟩
      obtain _ | rounds := rounds
      · cases hrounds
      have hrun := hloop rounds (Nat.lt_of_succ_lt_succ hrounds)
      rw [hr.current] at hrun
      exact (releaseLoop_lock hnext hrelease hunlink).trans hrun

/-- `release_locks` terminates, with `lock_list` empty, and has released every lock of the
thread exactly once. -/
theorem release_locks_once (h : Holding s P xs ls) :
    ∃ s', (∀ rounds, ls.length < rounds → releaseLocks rounds s = .ok s') ∧
      Released s s' P xs ls [] ∧ listEmpty s'.links (listOf (.lockList s.current)) = true := by
  have hlist := (h.family.list _ h.lockList).segment
  obtain ⟨e, -, hnext⟩ := hlist.next
  have he : s.links.next (.head (.lockList s.current)) = some e := hnext
  obtain ⟨s', hloop, hr⟩ := h.loop he
  refine ⟨s', fun rounds hrounds => ?_, hr, ?_⟩
  · unfold releaseLocks
    rw [threadCurrent_ok h.running]
    show (deref (s.links.next (.head (.lockList s.current))) >>= _) = _
    rw [he]
    exact hloop rounds hrounds
  · have hempty := hr.family.list _ h.lockList
    unfold releasedLists at hempty
    dsimp only at hempty
    rw [if_pos rfl] at hempty
    exact hempty.listEmpty_nil

/-! ## Two locks and a waiter -/

/-- The first thread holds the locks 7 and 8, the second one waits for 7, and the third one is
ready. -/
def twoLocks : State where
  status := fun t => if t = 1 then some .running else if t = 2 then some .blocked else some .ready
  holder := fun l => if l = 7 ∨ l = 8 then some 1 else none
  value := fun l => if l = 7 ∨ l = 8 then 0 else 1
  links :=
    { prev := fun n =>
        match n with
        | .elem (.lock 7) => some (.head (.lockList 1))
        | .elem (.lock 8) => some (.elem (.lock 7))
        | .tail (.lockList 1) => some (.elem (.lock 8))
        | .elem (.elem 2) => some (.head (.waiters 7))
        | .tail (.waiters 7) => some (.elem (.elem 2))
        | .tail (.waiters 8) => some (.head (.waiters 8))
        | .elem (.elem 3) => some (.head .readyList)
        | .tail .readyList => some (.elem (.elem 3))
        | _ => none
      next := fun n =>
        match n with
        | .head (.lockList 1) => some (.elem (.lock 7))
        | .elem (.lock 7) => some (.elem (.lock 8))
        | .elem (.lock 8) => some (.tail (.lockList 1))
        | .head (.waiters 7) => some (.elem (.elem 2))
        | .elem (.elem 2) => some (.tail (.waiters 7))
        | .head (.waiters 8) => some (.tail (.waiters 8))
        | .head .readyList => some (.elem (.elem 3))
        | .elem (.elem 3) => some (.tail .readyList)
        | _ => none }
  current := 1
  level := .off

def twoLocksElems : ListName → List Elem
  | .lockList 1 => [.lock 7, .lock 8]
  | .waiters 7 => [.elem 2]
  | .readyList => [.elem 3]
  | _ => []

def twoLocksLists : List ListName := [.lockList 1, .waiters 7, .waiters 8, .readyList]

theorem holding_twoLocks : Holding twoLocks (· ∈ twoLocksLists) twoLocksElems [7, 8] := by
  constructor
  case family =>
    constructor
    · intro n hn
      simp only [twoLocksLists, List.mem_cons, List.not_mem_nil, or_false] at hn
      rcases hn with rfl | rfl | rfl | rfl
      · exact ⟨by decide, ⟨⟨rfl, rfl⟩, ⟨rfl, rfl⟩, rfl, rfl⟩, rfl, rfl⟩
      · exact ⟨by decide, ⟨⟨rfl, rfl⟩, rfl, rfl⟩, rfl, rfl⟩
      · exact ⟨by decide, ⟨rfl, rfl⟩, rfl, rfl⟩
      · exact ⟨by decide, ⟨⟨rfl, rfl⟩, rfl, rfl⟩, rfl, rfl⟩
    · have hapart : ∀ n ∈ twoLocksLists, ∀ m ∈ twoLocksLists, ∀ e ∈ twoLocksElems n,
          e ∈ twoLocksElems m → n = m := by decide
      exact fun n m hn hm => hapart n hn m hm
  case lockList => decide
  case readyList => decide
  case waiters => decide
  case locks => rfl
  case held => decide
  case running => rfl
  case blocked =>
    intro l hl e he
    rcases List.mem_pair.mp hl with rfl | rfl
    · obtain rfl := List.mem_singleton.mp he
      exact ⟨2, rfl, rfl⟩
    · cases he
  case level => rfl

theorem release_locks_once_run : ∃ s', releaseLocks 3 twoLocks = .ok s' ∧ s'.holder 7 = none ∧
    s'.value 7 = 1 ∧ s'.status 2 = some .ready ∧
    listEmpty s'.links (listOf (.lockList 1)) = true := by
  obtain ⟨s', hloop, hr, hempty⟩ := release_locks_once holding_twoLocks
  refine ⟨s', hloop 3 (by decide), ?_, ?_, ?_, hempty⟩
  · exact hr.holder 7
  · exact hr.value 7
  · exact hr.status 2

end Pintos.ReleaseLocks
