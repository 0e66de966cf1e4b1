import Pintos.Threads.Kernel
import Pintos.Wait.Original

/-! # `thread_create`

`thread_create` of Project 3 with `init_thread` and `thread_unblock`. The links of
lists are those of the elements and sentinels in memory. `init_thread` links the new
thread into `all_list`; if `malloc` fails after that, the page of the thread is freed.
-/

namespace Pintos.Create

open Intrusive
open Threads (ThreadStatus assertThat priMin priMax priDefault)
open Vm (Ptr deref deref_ok)
open Wait (Process tidError)

/-! ## Threads and their lists -/

/-- The lists that `thread_create` changes, and those of a thread. -/
inductive ListName where
  | allList
  | readyList
  | children (t : Ptr)
  | files (t : Ptr)
deriving DecidableEq, Repr

/-- The list elements of threads, processes and file descriptors. -/
inductive Elem where
  | allelem (t : Ptr)
  | elem (t : Ptr)
  | process (p : Ptr)
  | descriptor (d : Ptr)
deriving DecidableEq, Repr

abbrev ListNode := Node ListName Elem

/-- `struct thread`, without its lists and list elements, with what the stack frames
say it starts with. A thread is named by its page. -/
structure Thread where
  tid : ℤ
  status : ThreadStatus
  name : List UInt8
  priority : Int32
  fd : ℤ
  proc : Option Ptr
  start : Option (Ptr × Ptr)
deriving DecidableEq, Repr

/-- The threads and processes in memory, the links of all lists, the running thread and
`next_tid`. -/
structure Kernel where
  threads : Ptr → Option Thread
  processes : Ptr → Option Process
  links : Links ListNode
  current : Ptr
  nextTid : ℤ

/-- What `palloc_get_page` and `malloc` return, and the links that are read from the page
of the thread once it has been freed. -/
structure Env where
  page : Option Ptr
  malloc : Option Ptr
  garbage : Links ListNode

/-! ## Pages -/

/-- The list elements and sentinels in the page of thread `t`. -/
def pageNodes (t : Ptr) : List ListNode :=
  [.head (.children t), .tail (.children t), .head (.files t), .tail (.files t),
    .elem (.allelem t), .elem (.elem t)]

/-- The links in the page of thread `t` become those of `g`. -/
def overwrite (h : Links ListNode) (t : Ptr) (g : Links ListNode) : Links ListNode where
  prev := fun n => if n ∈ pageNodes t then g.prev n else h.prev n
  next := fun n => if n ∈ pageNodes t then g.next n else h.next n

/-- `memset (t, 0, sizeof *t)`. -/
def clearPage (h : Links ListNode) (t : Ptr) : Links ListNode :=
  overwrite h t ⟨fun _ => none, fun _ => none⟩

/-- `palloc_free_page` of a thread. -/
def pallocFreePage (env : Env) (k : Kernel) (t : Ptr) : Kernel :=
  { k with
    threads := Function.update k.threads t none
    links := overwrite k.links t env.garbage }

/-! ## `thread_create` -/

/-- Access to the page of a thread. -/
def threadAt (k : Kernel) (t : Ptr) : Except String Thread :=
  match k.threads t with
  | some th => .ok th
  | none => .error "is_thread (t)"

/-- `thread_current`. -/
def threadCurrent (k : Kernel) : Except String Thread := do
  let th ← threadAt k k.current
  assertThat (th.status = .running) "t->status == THREAD_RUNNING"
  return th

/-- `init_thread`; a name of null is `none`. -/
def initThread (k : Kernel) (t : Ptr) (name : Option (List UInt8)) (priority : Int32) :
    Except String Kernel := do
  assertThat (priMin ≤ priority ∧ priority ≤ priMax) "PRI_MIN <= priority && priority <= PRI_MAX"
  match name with
  | none => .error "name != NULL"
  | some name => do
      let th : Thread :=
        { tid := 0, status := .blocked, name := name.take 15, priority := priority, fd := 2,
          proc := none, start := none }
      let links := listInit (listInit (clearPage k.links t) (listOf (.children t)))
        (listOf (.files t))
      let links ← deref (listPushBack links (listOf .allList) (.elem (.allelem t)))
      return { k with links := links, threads := Function.update k.threads t (some th) }

/-- `allocate_tid`; the next tid must fit in an `int`. -/
def allocateTid (k : Kernel) : Except String (ℤ × Kernel) :=
  if k.nextTid = 2 ^ 31 - 1 then .error "next_tid++"
  else .ok (k.nextTid, { k with nextTid := k.nextTid + 1 })

/-- `thread_unblock`. -/
def threadUnblock (k : Kernel) (t : Ptr) : Except String Kernel := do
  let th ← threadAt k t
  assertThat (th.status = .blocked) "t->status == THREAD_BLOCKED"
  let links ← deref (listPushBack k.links (listOf .readyList) (.elem (.elem t)))
  return { k with
    links := links
    threads := Function.update k.threads t (some { th with status := .ready }) }

/-- The record of the new thread: `t->proc`, its empty list of children and its element in
the caller's list. -/
def addProcess (k : Kernel) (t p : Ptr) (tid : ℤ) : Except String Kernel := do
  let th ← threadAt k t
  let _ ← threadCurrent k
  let links := listInit k.links (listOf (.children t))
  let links ← deref (listPushBack links (listOf (.children k.current)) (.elem (.process p)))
  return { k with
    links := links
    threads := Function.update k.threads t (some { th with proc := some p })
    processes := Function.update k.processes p
      (some { pid := tid, status := .run, exit := -1, sema := 0 }) }

/-- `thread_create`. A function of null is `none`. -/
def threadCreate (env : Env) (k : Kernel) (name : Option (List UInt8)) (priority : Int32)
    (function : Option Ptr) (aux : Ptr) : Except String (ℤ × Kernel) :=
  match function with
  | none => .error "function != NULL"
  | some function =>
      match env.page with
      | none => .ok (tidError, k)
      | some t => do
          let k ← initThread k t name priority
          let (tid, k) ← allocateTid k
          let th ← threadAt k t
          let th := { th with tid := tid }
          let k := { k with threads := Function.update k.threads t (some th) }
          match env.malloc with
          | none => return (tidError, pallocFreePage env k t)
          | some p => do
              let k ← addProcess k t p tid
              let th ← threadAt k t
              let th := { th with start := some (function, aux) }
              let k := { k with threads := Function.update k.threads t (some th) }
              let k ← threadUnblock k t
              return (tid, k)

/-! ## What the lists hold -/

/-- The lists that exist. -/
def Live (k : Kernel) : ListName → Prop
  | .allList | .readyList => True
  | .children t | .files t => k.threads t ≠ none

/-- What a list may hold; what has been freed is not part of it. -/
def Holds (k : Kernel) : ListName → Elem → Prop
  | .allList, .allelem t => k.threads t ≠ none
  | .readyList, .elem t => k.threads t ≠ none
  | .children _, .process p => k.processes p ≠ none
  | .files _, .descriptor _ => True
  | _, _ => False

/-- The lists are well formed and hold `xs`, and nothing in them has been freed. -/
structure Formed (k : Kernel) (xs : ListName → List Elem) : Prop where
  family : FamilyOn k.links (Live k) xs
  holds : ∀ l, Live k l → ∀ e ∈ xs l, Holds k l e

/-- And the current thread is running. -/
structure Consistent (k : Kernel) (xs : ListName → List Elem) : Prop extends Formed k xs where
  running : ∃ th, k.threads k.current = some th ∧ th.status = .running
  tidPos : 0 < k.nextTid

/-- The allocators return memory that is not in use. -/
structure Env.Fresh (env : Env) (k : Kernel) : Prop where
  page : ∀ t ∈ env.page, k.threads t = none
  malloc : ∀ p ∈ env.malloc, k.processes p = none

/-- The lists after `c` has created the thread `t` with the record `p`. -/
def created (xs : ListName → List Elem) (c t p : Ptr) : ListName → List Elem
  | .allList => xs .allList ++ [.allelem t]
  | .readyList => xs .readyList ++ [.elem t]
  | .children u =>
      if u = t then [] else if u = c then xs (.children u) ++ [.process p] else xs (.children u)
  | .files u => if u = t then [] else xs (.files u)

theorem created_children (xs : ListName → List Elem) (c t p u : Ptr) :
    created xs c t p (.children u) =
      if u = t then [] else if u = c then xs (.children u) ++ [.process p] else xs (.children u) :=
  rfl

theorem created_files (xs : ListName → List Elem) (c t p u : Ptr) :
    created xs c t p (.files u) = if u = t then [] else xs (.files u) :=
  rfl

/-- What `thread_create` returns is the state before, or one with exactly one new thread. -/
def Atomic (k : Kernel) (xs : ListName → List Elem) (r : Except String (ℤ × Kernel)) : Prop :=
  ∀ tid k', r = .ok (tid, k') →
    (tid = tidError → Consistent k' xs) ∧
    (tid ≠ tidError → ∃ t p th x, k.threads t = none ∧ k'.threads t = some th ∧ th.tid = tid ∧
      th.status = .ready ∧ th.proc = some p ∧ k.processes p = none ∧ k'.processes p = some x ∧
      x.pid = tid ∧ Consistent k' (created xs k.current t p))

/-- `malloc` fails after `init_thread` has linked the thread. -/
def FailsHalfway (env : Env) (k : Kernel) (name : Option (List UInt8)) (priority : Int32)
    (function : Option Ptr) : Prop :=
  function ≠ none ∧ env.page ≠ none ∧ name ≠ none ∧ (priMin ≤ priority ∧ priority ≤ priMax) ∧
    k.nextTid ≠ 2 ^ 31 - 1 ∧ env.malloc = none

variable {env : Env} {k k' : Kernel} {xs : ListName → List Elem} {t p c : Ptr} {l : ListName}
  {name : Option (List UInt8)} {priority : Int32} {function : Option Ptr} {aux : Ptr}

/-! ## `init_thread` -/

/-- The lists once the thread `t` has been linked. -/
def linked (xs : ListName → List Elem) (t : Ptr) : ListName → List Elem :=
  Function.update (Function.update (Function.update xs (.children t) []) (.files t) []) .allList
    (xs .allList ++ [.allelem t])

theorem overwrite_sameOff (h g : Links ListNode) (t : Ptr) :
    h.SameOff (overwrite h t g) (pageNodes t) := by
  intro n hn
  constructor
  · exact if_neg hn
  · exact if_neg hn

/-- No list has a node in a page that is not in use. -/
theorem Formed.notMem_pageNodes (h : Formed k xs) (ht : k.threads t = none)
    (hl : Live k l) : ∀ n ∈ (listOf l).nodes ((xs l).map .elem), n ∉ pageNodes t := by
  intro n hn hpage
  unfold pageNodes at hpage
  simp only [List.mem_cons, List.not_mem_nil, or_false] at hpage
  rcases hpage with rfl | rfl | rfl | rfl | rfl | rfl
  · obtain rfl := head_mem_nodes hn
    exact hl ht
  · obtain rfl := tail_mem_nodes hn
    exact hl ht
  · obtain rfl := head_mem_nodes hn
    exact hl ht
  · obtain rfl := tail_mem_nodes hn
    exact hl ht
  · have hheld := h.holds l hl _ (elem_mem_nodes.mp hn)
    cases l with
    | allList => exact hheld ht
    | _ => exact hheld
  · have hheld := h.holds l hl _ (elem_mem_nodes.mp hn)
    cases l with
    | readyList => exact hheld ht
    | _ => exact hheld

/-- So its links do not matter. -/
theorem Formed.overwrite (h : Formed k xs) (ht : k.threads t = none)
    (g : Links ListNode) : FamilyOn (overwrite k.links t g) (Live k) xs :=
  h.family.frame_off (overwrite_sameOff k.links g t) fun _ hl => h.notMem_pageNodes ht hl

/-- The new thread is in `all_list` and its own lists are empty. -/
theorem initThread_ok (h : Formed k xs) (ht : k.threads t = none)
    (hp : priMin ≤ priority ∧ priority ≤ priMax) (name : List UInt8) :
    ∃ links th, initThread k t (some name) priority =
        .ok { k with links := links, threads := Function.update k.threads t (some th) } ∧
      th.status = .blocked ∧
      FamilyOn links (fun l => (Live k l ∨ l = .children t) ∨ l = .files t) (linked xs t) ∧
      links.prev (.tail .allList) = some (.elem (.allelem t)) := by
  have hpage := h.overwrite ht ⟨fun _ => none, fun _ => none⟩
  have hchildren := hpage.listInit (t := .children t) (fun hl => hl ht)
  have hfiles := hchildren.listInit (t := .files t) (by
    rintro (hl | hl)
    · exact hl ht
    · cases hl)
  have hnew : ∀ l, (Live k l ∨ l = .children t) ∨ l = .files t → Elem.allelem t ∉
      Function.update (Function.update xs (.children t) []) (.files t) [] l := by
    intro l hl hmem
    by_cases hfl : l = .files t
    · rw [hfl, Function.update_self] at hmem
      exact List.not_mem_nil hmem
    · rw [Function.update_of_ne hfl] at hmem
      by_cases hcl : l = .children t
      · rw [hcl, Function.update_self] at hmem
        exact List.not_mem_nil hmem
      · rw [Function.update_of_ne hcl] at hmem
        have hheld := h.holds l ((hl.resolve_right hfl).resolve_right hcl) _ hmem
        cases l with
        | allList => exact hheld ht
        | _ => exact hheld
  have hall : Live k .allList := trivial
  obtain ⟨links, hpush, hfamily⟩ := hfiles.pushBack (.inl (.inl hall)) hnew
  let th : Thread :=
    { tid := 0, status := .blocked, name := name.take 15, priority := priority, fd := 2,
      proc := none, start := none }
  refine ⟨links, th, ?_, rfl, hfamily, listInsert_prev hpush⟩
  unfold initThread
  rw [show assertThat (priMin ≤ priority ∧ priority ≤ priMax)
    "PRI_MIN <= priority && priority <= PRI_MAX" = .ok () from if_pos hp]
  show (deref (listPushBack _ _ _) >>= _) = _
  rw [clearPage, hpush]
  rfl

/-- The state once `t` has been linked and has its tid. -/
def withThread (k : Kernel) (links : Links ListNode) (t : Ptr) (th : Thread) : Kernel :=
  { k with
    links := links
    threads := Function.update k.threads t (some th)
    nextTid := k.nextTid + 1 }

theorem threadAt_ok {th : Thread} (hth : k.threads t = some th) : threadAt k t = .ok th := by
  unfold threadAt
  rw [hth]

/-- What is left to do once the thread has been linked. -/
theorem threadCreate_linked (h : Consistent k xs) (hpage : env.page = some t)
    (ht : k.threads t = none) (hp : priMin ≤ priority ∧ priority ≤ priMax)
    (htid : k.nextTid ≠ 2 ^ 31 - 1) (name : List UInt8) (function aux : Ptr) :
    ∃ links th, th.tid = k.nextTid ∧ th.status = .blocked ∧
      FamilyOn links (fun l => (Live k l ∨ l = .children t) ∨ l = .files t) (linked xs t) ∧
      links.prev (.tail .allList) = some (.elem (.allelem t)) ∧
      threadCreate env k (some name) priority (some function) aux =
        match env.malloc with
        | none => .ok (tidError, pallocFreePage env (withThread k links t th) t)
        | some p => do
            let k₁ ← addProcess (withThread k links t th) t p k.nextTid
            let th ← threadAt k₁ t
            let th := { th with start := some (function, aux) }
            let k₁ := { k₁ with threads := Function.update k₁.threads t (some th) }
            let k₁ ← threadUnblock k₁ t
            return (k.nextTid, k₁) := by
  obtain ⟨links, th, hinit, hblocked, hfamily, hprev⟩ := initThread_ok h.toFormed ht hp name
  refine ⟨links, { th with tid := k.nextTid }, rfl, hblocked, hfamily, hprev, ?_⟩
  have hstate : { k with
      links := links
      threads := Function.update (Function.update k.threads t (some th)) t
        (some { th with tid := k.nextTid })
      nextTid := k.nextTid + 1 } = withThread k links t { th with tid := k.nextTid } := by
    rw [Function.update_idem]
    rfl
  unfold threadCreate
  rw [hpage]
  dsimp only
  rw [hinit]
  show (allocateTid _ >>= _) = _
  unfold allocateTid
  rw [if_neg htid]
  show (threadAt _ t >>= _) = _
  rw [threadAt_ok (Function.update_self ..)]
  dsimp only [bind, Except.bind]
  rw [hstate]
  rfl

/-! ## Failure and success -/

/-- If the page of the linked thread is freed, `all_list` still refers to it. -/
theorem not_consistent_freed {links : Links ListNode} {th : Thread} (h : Consistent k xs)
    (ht : k.threads t = none) (hprev : links.prev (.tail .allList) = some (.elem (.allelem t))) :
    ¬ Consistent (pallocFreePage env (withThread k links t th) t) xs := by
  intro h'
  have hall : Live (pallocFreePage env (withThread k links t th) t) .allList := trivial
  have hprev' : (pallocFreePage env (withThread k links t th) t).links.prev (.tail .allList) =
      some (.elem (.allelem t)) := by
    have hnot : Node.tail .allList ∉ pageNodes t := by simp [pageNodes]
    exact (overwrite_sameOff links env.garbage t _ hnot).1.trans hprev
  have hmem := (h'.family.list .allList hall).segment.mem_of_prev hprev'
  rcases List.mem_cons.mp hmem with hhead | hmem
  · cases hhead
  · have hheld := h.holds .allList trivial _ (elem_mem_map.mp hmem)
    exact hheld ht

theorem threadUnblock_ok {links : Links ListNode} {th : Thread} (hth : k.threads t = some th)
    (hblocked : th.status = .blocked)
    (hpush : listPushBack k.links (listOf .readyList) (.elem (.elem t)) = some links) :
    threadUnblock k t = .ok { k with
      links := links
      threads := Function.update k.threads t (some { th with status := .ready }) } := by
  unfold threadUnblock
  rw [threadAt_ok hth]
  show (assertThat _ _ >>= _) = _
  rw [show assertThat (th.status = .blocked) "t->status == THREAD_BLOCKED" = .ok ()
    from if_pos hblocked]
  show (deref (listPushBack k.links _ _) >>= _) = _
  rw [hpush]
  rfl

theorem mem_linked {e : Elem} (hl : (Live k l ∨ l = .children t) ∨ l = .files t)
    (he : e ∈ linked xs t l) : Live k l ∧ e ∈ xs l ∨ e = .allelem t ∧ l = .allList := by
  unfold linked at he
  by_cases hall : l = .allList
  · subst hall
    rw [Function.update_self, List.mem_append, List.mem_singleton] at he
    exact he.imp (fun he => ⟨trivial, he⟩) fun he => ⟨he, rfl⟩
  · rw [Function.update_of_ne hall] at he
    by_cases hfl : l = .files t
    · rw [hfl, Function.update_self] at he
      exact absurd he List.not_mem_nil
    · rw [Function.update_of_ne hfl] at he
      by_cases hcl : l = .children t
      · rw [hcl, Function.update_self] at he
        exact absurd he List.not_mem_nil
      · rw [Function.update_of_ne hcl] at he
        exact .inl ⟨(hl.resolve_right hfl).resolve_right hcl, he⟩

theorem created_eq (hne : c ≠ t) :
    Function.update (Function.update (linked xs t) (.children c)
        (linked xs t (.children c) ++ [.process p]))
      .readyList (linked xs t .readyList ++ [.elem t]) = created xs c t p := by
  have hct : ListName.children c ≠ .children t := fun heq => hne (ListName.children.inj heq)
  funext l
  unfold created linked
  cases l with
  | allList => simp [Function.update]
  | readyList => simp [Function.update]
  | children u =>
      by_cases hut : u = t
      · subst hut
        simp [Function.update, hne.symm]
      · by_cases huc : u = c
        · subst huc
          simp [Function.update, hut]
        · simp [Function.update, hut, huc]
  | files u =>
      by_cases hut : u = t
      · simp [Function.update, hut]
      · simp [Function.update, hut]

theorem Consistent.current_ne (h : Consistent k xs) (ht : k.threads t = none) : k.current ≠ t := by
  obtain ⟨cur, hcur, -⟩ := h.running
  rintro rfl
  rw [hcur] at ht
  cases ht

/-- A record that is new is in no list. -/
theorem Consistent.record_unlinked (h : Consistent k xs) (hp : k.processes p = none)
    (hl : (Live k l ∨ l = .children t) ∨ l = .files t) : Elem.process p ∉ linked xs t l := by
  intro hmem
  rcases mem_linked hl hmem with ⟨hl, hmem⟩ | ⟨heq, -⟩
  · have hheld := h.holds l hl _ hmem
    cases l with
    | children u => exact hheld hp
    | _ => exact hheld
  · cases heq

/-- A thread that is new is not ready. -/
theorem Consistent.thread_unlinked (h : Consistent k xs) (ht : k.threads t = none)
    (hl : (Live k l ∨ l = .children t) ∨ l = .files t) : Elem.elem t ∉ linked xs t l := by
  intro hmem
  rcases mem_linked hl hmem with ⟨hl, hmem⟩ | ⟨heq, -⟩
  · have hheld := h.holds l hl _ hmem
    cases l with
    | readyList => exact hheld ht
    | _ => exact hheld
  · cases heq

/-- The current thread is not the one that has been linked. -/
theorem Consistent.threadCurrent_linked (h : Consistent k xs) (links : Links ListNode)
    (th : Thread) (ht : k.threads t = none) :
    ∃ cur, threadCurrent (withThread k links t th) = .ok cur := by
  obtain ⟨cur, hcur, hrunning⟩ := h.running
  have hat : threadAt (withThread k links t th) k.current = .ok cur :=
    threadAt_ok ((Function.update_of_ne (h.current_ne ht) ..).trans hcur)
  refine ⟨cur, ?_⟩
  unfold threadCurrent
  show (threadAt (withThread k links t th) k.current >>= _) = _
  rw [hat]
  show (assertThat _ _ >>= _) = _
  rw [show assertThat (cur.status = .running) "t->status == THREAD_RUNNING" = .ok ()
    from if_pos hrunning]
  rfl

/-- The state once the record at `p` is that of thread `t`. -/
def withProcess (k : Kernel) (links : Links ListNode) (t p : Ptr) (th : Thread) : Kernel :=
  { k with
    links := links
    threads := Function.update k.threads t (some { th with proc := some p })
    processes := Function.update k.processes p
      (some { pid := k.nextTid, status := .run, exit := -1, sema := 0 })
    nextTid := k.nextTid + 1 }

/-- `addProcess` links the record in the list of the current thread. -/
theorem addProcess_ok {links : Links ListNode} (th : Thread) (h : Consistent k xs)
    (ht : k.threads t = none) (hp : k.processes p = none)
    (hfamily : FamilyOn links (fun l => (Live k l ∨ l = .children t) ∨ l = .files t)
      (linked xs t)) :
    ∃ links', addProcess (withThread k links t th) t p k.nextTid =
        .ok (withProcess k links' t p th) ∧
      FamilyOn links' (fun l => (Live k l ∨ l = .children t) ∨ l = .files t)
        (Function.update (linked xs t) (.children k.current)
          (linked xs t (.children k.current) ++ [.process p])) := by
  have hlive : Live k (.children k.current) := by
    obtain ⟨cur, hcur, -⟩ := h.running
    show k.threads k.current ≠ none
    rw [hcur]
    exact Option.some_ne_none cur
  have hempty : listInit links (listOf (.children t)) = links := by
    have hlist := hfamily.list (.children t) (.inl (.inr rfl))
    have hnil : linked xs t (.children t) = [] := by simp [linked, Function.update]
    rw [hnil] at hlist
    exact listInit_of_empty hlist
  obtain ⟨links', hpush, hfamily'⟩ :=
    hfamily.pushBack (.inl (.inl hlive)) fun l hl => h.record_unlinked hp hl
  refine ⟨links', ?_, hfamily'⟩
  obtain ⟨cur, hcurrent⟩ := h.threadCurrent_linked links th ht
  have hthreads : Function.update (Function.update k.threads t (some th)) t
      (some { th with proc := some p }) =
        Function.update k.threads t (some { th with proc := some p }) :=
    Function.update_idem ..
  unfold addProcess
  rw [threadAt_ok (Function.update_self ..)]
  show (threadCurrent _ >>= _) = _
  rw [hcurrent]
  show (deref (listPushBack (listInit links _) _ _) >>= _) = _
  rw [hempty]
  show (deref (listPushBack links (listOf (.children k.current)) _) >>= _) = _
  rw [hpush]
  unfold withProcess
  rw [← hthreads]
  rfl

/-- `addProcess` and `thread_unblock` link the record and the thread. -/
theorem finish_ok {links : Links ListNode} {th : Thread} (start : Ptr × Ptr)
    (h : Consistent k xs) (ht : k.threads t = none)
    (hp : k.processes p = none) (hblocked : th.status = .blocked)
    (hfamily : FamilyOn links (fun l => (Live k l ∨ l = .children t) ∨ l = .files t)
      (linked xs t)) :
    ∃ k' x, (do
        let k₁ ← addProcess (withThread k links t th) t p k.nextTid
        let th ← threadAt k₁ t
        let th := { th with start := some start }
        let k₁ := { k₁ with threads := Function.update k₁.threads t (some th) }
        let k₁ ← threadUnblock k₁ t
        return (k.nextTid, k₁) : Except String (ℤ × Kernel)) = .ok (k.nextTid, k') ∧
      k'.threads = Function.update k.threads t
        (some { th with proc := some p, start := some start, status := .ready }) ∧
      k'.processes = Function.update k.processes p (some x) ∧ x.pid = k.nextTid ∧
      k'.current = k.current ∧ k'.nextTid = k.nextTid + 1 ∧
      FamilyOn k'.links (fun l => (Live k l ∨ l = .children t) ∨ l = .files t)
        (created xs k.current t p) := by
  have hne := h.current_ne ht
  obtain ⟨links₁, hadd, hfamily₁⟩ := addProcess_ok th h ht hp hfamily
  -- the thread is not ready yet
  have hready : ∀ l, (Live k l ∨ l = .children t) ∨ l = .files t → Elem.elem t ∉
      Function.update (linked xs t) (.children k.current)
        (linked xs t (.children k.current) ++ [.process p]) l := by
    intro l hl hmem
    apply h.thread_unlinked ht hl
    by_cases hcl : l = .children k.current
    · subst hcl
      rw [Function.update_self, List.mem_append, List.mem_singleton] at hmem
      exact hmem.resolve_right nofun
    · rwa [Function.update_of_ne hcl] at hmem
  have hall : Live k .readyList := trivial
  obtain ⟨links₂, hpush₂, hfamily₂⟩ := hfamily₁.pushBack (.inl (.inl hall)) hready
  let th₂ : Thread := { th with proc := some p, start := some start }
  let k₂ : Kernel := { withProcess k links₁ t p th with
    threads := Function.update (withProcess k links₁ t p th).threads t (some th₂) }
  have hunblock : threadUnblock k₂ t = .ok { k₂ with
      links := links₂
      threads := Function.update k₂.threads t (some { th₂ with status := .ready }) } :=
    threadUnblock_ok (Function.update_self ..) hblocked hpush₂
  refine ⟨{ k₂ with
      links := links₂
      threads := Function.update k₂.threads t (some { th₂ with status := .ready }) }, _,
    ?_, ?_, rfl, rfl, rfl, rfl, ?_⟩
  · rw [hadd]
    show (threadAt (withProcess k links₁ t p th) t >>= _) = _
    rw [threadAt_ok (k := withProcess k links₁ t p th) (Function.update_self ..)]
    show (threadUnblock k₂ t >>= _) = _
    rw [hunblock]
    rfl
  · show Function.update (Function.update (Function.update k.threads t _) t _) t _ = _
    rw [Function.update_idem, Function.update_idem]
  · have hready₂ : Function.update (linked xs t) (.children k.current)
          (linked xs t (.children k.current) ++ [.process p]) .readyList =
        linked xs t .readyList := by
      apply Function.update_of_ne
      intro heq
      cases heq
    rw [hready₂, created_eq hne] at hfamily₂
    exact hfamily₂

/-! ## The result -/

/-- What `init_thread` and `allocate_tid` have checked. -/
theorem initThread_inv (hinit : initThread k t name priority = .ok k') :
    name ≠ none ∧ (priMin ≤ priority ∧ priority ≤ priMax) ∧ k'.nextTid = k.nextTid := by
  obtain ⟨u, hassert, hrest⟩ := Lts.bind_eq_ok.mp hinit
  have hp : priMin ≤ priority ∧ priority ≤ priMax := by
    by_contra hp
    unfold assertThat at hassert
    rw [if_neg hp] at hassert
    cases hassert
  cases name with
  | none => cases hrest
  | some name =>
      obtain ⟨links, -, hret⟩ := Lts.bind_eq_ok.mp hrest
      cases hret
      exact ⟨Option.some_ne_none name, hp, rfl⟩

theorem threadCreate_inv {tid : ℤ} (hpage : env.page = some t)
    (hr : threadCreate env k name priority function aux = .ok (tid, k')) :
    function ≠ none ∧ name ≠ none ∧ (priMin ≤ priority ∧ priority ≤ priMax) ∧
      k.nextTid ≠ 2 ^ 31 - 1 := by
  unfold threadCreate at hr
  cases function with
  | none => cases hr
  | some function =>
      rw [hpage] at hr
      obtain ⟨k₁, hinit, hr⟩ := Lts.bind_eq_ok.mp hr
      obtain ⟨hname, hp, hnext⟩ := initThread_inv hinit
      obtain ⟨r, halloc, -⟩ := Lts.bind_eq_ok.mp hr
      refine ⟨Option.some_ne_none function, hname, hp, fun htid => ?_⟩
      unfold allocateTid at halloc
      rw [if_pos (hnext.trans htid)] at halloc
      cases halloc

theorem Holds.mono {e : Elem} (hheld : Holds k l e)
    (hthreads : ∀ u, k.threads u ≠ none → k'.threads u ≠ none)
    (hprocesses : ∀ q, k.processes q ≠ none → k'.processes q ≠ none) : Holds k' l e := by
  cases l with
  | allList =>
      cases e with
      | allelem u => exact hthreads u hheld
      | _ => exact hheld
  | readyList =>
      cases e with
      | elem u => exact hthreads u hheld
      | _ => exact hheld
  | children u =>
      cases e with
      | process q => exact hprocesses q hheld
      | _ => exact hheld
  | files u =>
      cases e with
      | descriptor d => trivial
      | _ => exact hheld

/-- The elements of the lists that are live afterwards. -/
theorem mem_created {e : Elem} (hl : Live k l ∨ l = .children t ∨ l = .files t)
    (he : e ∈ created xs c t p l) :
    Live k l ∧ e ∈ xs l ∨ (l = .allList ∧ e = .allelem t) ∨ (l = .readyList ∧ e = .elem t) ∨
      l = .children c ∧ e = .process p := by
  cases l with
  | allList =>
      rcases List.mem_append.mp he with hold | hnew
      · exact .inl ⟨trivial, hold⟩
      · exact .inr (.inl ⟨rfl, List.mem_singleton.mp hnew⟩)
  | readyList =>
      rcases List.mem_append.mp he with hold | hnew
      · exact .inl ⟨trivial, hold⟩
      · exact .inr (.inr (.inl ⟨rfl, List.mem_singleton.mp hnew⟩))
  | children u =>
      rw [created_children] at he
      by_cases hut : u = t
      · rw [if_pos hut] at he
        exact absurd he List.not_mem_nil
      · rw [if_neg hut] at he
        have hlu : Live k (.children u) := by
          refine hl.resolve_right ?_
          rintro (heq | heq)
          · exact hut (ListName.children.inj heq)
          · cases heq
        by_cases huc : u = c
        · rw [if_pos huc] at he
          rcases List.mem_append.mp he with hold | hnew
          · exact .inl ⟨hlu, hold⟩
          · exact .inr (.inr (.inr ⟨congrArg _ huc, List.mem_singleton.mp hnew⟩))
        · rw [if_neg huc] at he
          exact .inl ⟨hlu, he⟩
  | files u =>
      rw [created_files] at he
      by_cases hut : u = t
      · rw [if_pos hut] at he
        exact absurd he List.not_mem_nil
      · rw [if_neg hut] at he
        refine .inl ⟨hl.resolve_right ?_, he⟩
        rintro (heq | heq)
        · cases heq
        · exact hut (ListName.files.inj heq)

/-- A thread with its record has been created. -/
theorem consistent_created {th : Thread} {x : Process} (h : Consistent k xs)
    (ht : k.threads t = none) (hthreads : k'.threads = Function.update k.threads t (some th))
    (hprocesses : k'.processes = Function.update k.processes p (some x))
    (hcurrent : k'.current = k.current) (hnext : k'.nextTid = k.nextTid + 1)
    (hfamily : FamilyOn k'.links (fun l => (Live k l ∨ l = .children t) ∨ l = .files t)
      (created xs k.current t p)) : Consistent k' (created xs k.current t p) := by
  have hlive : ∀ l, Live k' l → Live k l ∨ l = .children t ∨ l = .files t := by
    intro l hl
    have hthread : ∀ u, k'.threads u ≠ none → k.threads u ≠ none ∨ u = t := by
      intro u hu
      by_cases heq : u = t
      · exact .inr heq
      · rw [hthreads, Function.update_of_ne heq] at hu
        exact .inl hu
    cases l with
    | allList => exact .inl trivial
    | readyList => exact .inl trivial
    | children u => exact (hthread u hl).imp_right fun heq => .inl (congrArg _ heq)
    | files u => exact (hthread u hl).imp_right fun heq => .inr (congrArg _ heq)
  have hgrows : ∀ u, k.threads u ≠ none → k'.threads u ≠ none := by
    intro u hu
    have hne : u ≠ t := by
      rintro rfl
      exact hu ht
    rwa [hthreads, Function.update_of_ne hne]
  have hrecord : k'.processes p ≠ none := by
    rw [hprocesses, Function.update_self]
    exact Option.some_ne_none x
  have hgrows' : ∀ q, k.processes q ≠ none → k'.processes q ≠ none := by
    intro q hq
    by_cases heq : q = p
    · rwa [heq]
    · rwa [hprocesses, Function.update_of_ne heq]
  have hnew : k'.threads t ≠ none := by
    rw [hthreads, Function.update_self]
    exact Option.some_ne_none th
  constructor
  case toFormed =>
    constructor
    case family =>
      refine hfamily.mono fun l hl => ?_
      rcases hlive l hl with hl | hl | hl
      · exact .inl (.inl hl)
      · exact .inl (.inr hl)
      · exact .inr hl
    case holds =>
      intro l hl e he
      rcases mem_created (hlive l hl) he with ⟨hl, he⟩ | ⟨rfl, rfl⟩ | ⟨rfl, rfl⟩ | ⟨rfl, rfl⟩
      · exact (h.holds l hl e he).mono hgrows hgrows'
      · exact hnew
      · exact hnew
      · exact hrecord
  case running =>
    obtain ⟨cur, hcur, hrunning⟩ := h.running
    refine ⟨cur, ?_, hrunning⟩
    rw [hcurrent, hthreads, Function.update_of_ne (h.current_ne ht), hcur]
  case tidPos =>
    have hpos := h.tidPos
    omega

theorem not_atomic (h : Consistent k xs) (henv : env.Fresh k)
    (hfails : FailsHalfway env k name priority function) (aux : Ptr) :
    ∃ t k', env.page = some t ∧
      threadCreate env k name priority function aux = .ok (tidError, k') ∧
      k'.threads t = none ∧ k'.links.prev (.tail .allList) = some (.elem (.allelem t)) ∧
      ¬ Consistent k' xs := by
  obtain ⟨hfunction, hpage, hname, hp, htid, hmalloc⟩ := hfails
  obtain ⟨function, rfl⟩ := Option.ne_none_iff_exists'.mp hfunction
  obtain ⟨t, hpage⟩ := Option.ne_none_iff_exists'.mp hpage
  obtain ⟨name, rfl⟩ := Option.ne_none_iff_exists'.mp hname
  have ht : k.threads t = none := henv.page t hpage
  obtain ⟨links, th, -, -, -, hprev, heq⟩ :=
    threadCreate_linked h hpage ht hp htid name function aux
  rw [hmalloc] at heq
  have hnot : Node.tail .allList ∉ pageNodes t := by simp [pageNodes]
  exact ⟨t, _, hpage, heq, Function.update_self ..,
    (overwrite_sameOff links env.garbage t _ hnot).1.trans hprev, not_consistent_freed h ht hprev⟩

theorem atomic (h : Consistent k xs) (henv : env.Fresh k)
    (hno : ¬ FailsHalfway env k name priority function) :
    Atomic k xs (threadCreate env k name priority function aux) := by
  intro tid k' hr
  cases hpage : env.page with
  | none =>
      unfold threadCreate at hr
      cases function with
      | none => cases hr
      | some function =>
          rw [hpage] at hr
          cases hr
          exact ⟨fun _ => h, fun hne => absurd rfl hne⟩
  | some t =>
      have ht : k.threads t = none := henv.page t hpage
      obtain ⟨hfunction, hname, hp, htid⟩ := threadCreate_inv hpage hr
      have hpage' : env.page ≠ none := by
        rw [hpage]
        exact Option.some_ne_none t
      have hmalloc : env.malloc ≠ none :=
        fun hmalloc => hno ⟨hfunction, hpage', hname, hp, htid, hmalloc⟩
      obtain ⟨function, rfl⟩ := Option.ne_none_iff_exists'.mp hfunction
      obtain ⟨name, rfl⟩ := Option.ne_none_iff_exists'.mp hname
      obtain ⟨p, hmalloc⟩ := Option.ne_none_iff_exists'.mp hmalloc
      have hp₀ : k.processes p = none := henv.malloc p hmalloc
      obtain ⟨links, th, hthtid, hblocked, hfamily, -, heq⟩ :=
        threadCreate_linked h hpage ht hp htid name function aux
      rw [hmalloc] at heq
      obtain ⟨k₁, x, hok, hthreads, hprocesses, hpid, hcurrent, hnext, hfamily'⟩ :=
        finish_ok (function, aux) h ht hp₀ hblocked hfamily
      obtain ⟨rfl, rfl⟩ := Prod.mk.inj (Except.ok.inj (hr.symm.trans (heq.trans hok)))
      let th' : Thread :=
        { th with proc := some p, start := some (function, aux), status := .ready }
      have hth' : k'.threads t = some th' := by
        rw [hthreads, Function.update_self]
      have hx : k'.processes p = some x := by
        rw [hprocesses, Function.update_self]
      constructor
      · intro herr
        have hpos := h.tidPos
        unfold tidError at herr
        omega
      · intro _
        exact ⟨t, p, th', x, ht, hth', hthtid, rfl, rfl, hp₀, hx, hpid,
          consistent_created h ht hthreads hprocesses hcurrent hnext hfamily'⟩

/-- `thread_create` changes nothing or creates exactly one thread, unless `malloc` fails once
the thread has been linked. -/
theorem thread_create_atomic (h : Consistent k xs) (henv : env.Fresh k) :
    Atomic k xs (threadCreate env k name priority function aux) ↔
      ¬ FailsHalfway env k name priority function := by
  constructor
  · intro hatomic hfails
    obtain ⟨t, k', -, heq, -, -, hno⟩ := not_atomic h henv hfails aux
    exact hno ((hatomic _ _ heq).1 rfl)
  · exact atomic h henv

/-! ## The first thread -/

/-- `thread_init`, by the code that runs in page `t`. -/
def threadInit (h : Links ListNode) (t : Ptr) : Except String Kernel := do
  let links := listInit (listInit h (listOf .readyList)) (listOf .allList)
  let k : Kernel :=
    { threads := fun _ => none, processes := fun _ => none, links := links, current := t,
      nextTid := 1 }
  let k ← initThread k t (some [109, 97, 105, 110]) priDefault
  let th ← threadAt k t
  let (tid, k) ← allocateTid k
  let th := { th with status := .running, tid := tid }
  return { k with threads := Function.update k.threads t (some th) }

/-- The first thread is alone in `all_list`. -/
theorem threadInit_consistent (h : Links ListNode) (t : Ptr) :
    ∃ k xs, threadInit h t = .ok k ∧ Consistent k xs ∧ k.nextTid = 2 ∧
      (∀ u, u ≠ t → k.threads u = none) ∧ ∀ p, k.processes p = none := by
  let links := listInit (listInit h (listOf .readyList)) (listOf .allList)
  let k₀ : Kernel :=
    { threads := fun _ => none, processes := fun _ => none, links := links, current := t,
      nextTid := 1 }
  have hnone : FamilyOn h (fun _ => False) (fun _ : ListName => ([] : List Elem)) :=
    ⟨fun _ hno => hno.elim, fun _ _ hno => hno.elim⟩
  have hready := hnone.listInit (t := .readyList) id
  have hall := hready.listInit (t := .allList) (by
    rintro (hno | hno)
    · exact hno
    · cases hno)
  rw [Function.update_eq_self_iff.mpr rfl, Function.update_eq_self_iff.mpr rfl] at hall
  have hformed : Formed k₀ fun _ => [] := by
    constructor
    · refine hall.mono fun l hl => ?_
      cases l with
      | allList => exact .inr rfl
      | readyList => exact .inl (.inr rfl)
      | children u => exact absurd rfl hl
      | files u => exact absurd rfl hl
    · intro l _ e he
      exact absurd he List.not_mem_nil
  have hpriority : priMin ≤ priDefault ∧ priDefault ≤ priMax := by decide
  obtain ⟨links', th, hinit, -, hfamily, -⟩ :=
    initThread_ok hformed (t := t) rfl hpriority [109, 97, 105, 110]
  let th' : Thread := { th with status := .running, tid := 1 }
  let k₁ : Kernel :=
    { k₀ with links := links', threads := Function.update k₀.threads t (some th'), nextTid := 2 }
  have heq : threadInit h t = .ok k₁ := by
    unfold threadInit
    show (initThread k₀ t _ _ >>= _) = _
    rw [hinit]
    show (threadAt _ t >>= _) = _
    rw [threadAt_ok (Function.update_self ..)]
    show Except.ok _ = _
    dsimp only
    rw [Function.update_idem]
    rfl
  have hlive : ∀ u, k₁.threads u ≠ none → u = t := by
    intro u hu
    by_contra hne
    exact hu (Function.update_of_ne hne ..)
  have hself : k₁.threads t = some th' := Function.update_self ..
  have htid : (0 : ℤ) < 2 := by decide
  refine ⟨k₁, linked (fun _ => []) t, heq, ⟨⟨?_, ?_⟩, ⟨th', hself, rfl⟩, htid⟩, rfl,
    fun u hu => Function.update_of_ne hu .., fun _ => rfl⟩
  · refine hfamily.mono fun l hl => ?_
    cases l with
    | allList => exact .inl (.inl trivial)
    | readyList => exact .inl (.inl trivial)
    | children u => exact .inl (.inr (by rw [hlive u hl]))
    | files u => exact .inr (by rw [hlive u hl])
  · intro l hl e he
    have hall : Live k₀ l ∨ l = .children t ∨ l = .files t := by
      cases l with
      | allList => exact .inl trivial
      | readyList => exact .inl trivial
      | children u => exact .inr (.inl (by rw [hlive u hl]))
      | files u => exact .inr (.inr (by rw [hlive u hl]))
    rcases mem_linked (or_assoc.mpr hall) he with ⟨-, hmem⟩ | ⟨rfl, rfl⟩
    · exact absurd hmem List.not_mem_nil
    · show k₁.threads t ≠ none
      rw [hself]
      exact Option.some_ne_none th'

/-- When `malloc` fails for the second thread, `all_list` ends with the page that has been
freed. -/
theorem dangling_thread : ∃ k xs env k', Consistent k xs ∧ env.Fresh k ∧ env.page = some 2 ∧
    threadCreate env k (some [97]) priDefault (some 7) 0 = .ok (tidError, k') ∧
    k'.threads 2 = none ∧ k'.links.prev (.tail .allList) = some (.elem (.allelem 2)) ∧
    ¬ Atomic k xs (threadCreate env k (some [97]) priDefault (some 7) 0) := by
  let h : Links ListNode := ⟨fun _ => none, fun _ => none⟩
  obtain ⟨k, xs, -, hk, htid, hfree, -⟩ := threadInit_consistent h 1
  have hfresh : Env.Fresh ⟨some 2, none, h⟩ k :=
    ⟨fun t ht => hfree t (by rw [← Option.some.inj ht]; decide), nofun⟩
  have hfails : FailsHalfway ⟨some 2, none, h⟩ k (some [97]) priDefault (some 7) :=
    ⟨nofun, nofun, nofun, by decide, by rw [htid]; decide, rfl⟩
  obtain ⟨t, k', hpage, heq, hfreed, hprev, hno⟩ := not_atomic hk hfresh hfails 0
  obtain rfl := Option.some.inj hpage
  exact ⟨k, xs, _, k', hk, hfresh, rfl, heq, hfreed, hprev,
    fun hatomic => hno ((hatomic _ _ heq).1 rfl)⟩

theorem thread_create_atomic_run : ∃ k xs env, Consistent k xs ∧ env.Fresh k ∧
    env.page = some 2 ∧ env.malloc = some 10 ∧
    Atomic k xs (threadCreate env k (some [97]) priDefault (some 7) 0) := by
  let h : Links ListNode := ⟨fun _ => none, fun _ => none⟩
  obtain ⟨k, xs, -, hk, -, hfree, hnone⟩ := threadInit_consistent h 1
  have hfresh : Env.Fresh ⟨some 2, some 10, h⟩ k :=
    ⟨fun t ht => hfree t (by rw [← Option.some.inj ht]; decide), fun p _ => hnone p⟩
  exact ⟨k, xs, _, hk, hfresh, rfl, rfl, (thread_create_atomic hk hfresh).mpr
    fun hfails => Option.some_ne_none 10 hfails.2.2.2.2.2⟩

end Pintos.Create
