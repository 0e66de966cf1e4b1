import Pintos.Wait.Original

/-! # Parents and children of Project 3

`process_execute`, `start_process`, `process_wait` and `process_exit` of the
`process.c` that is built, with the functions on `struct child_process` of
`syscall.c` and the `init_thread` and `thread_alive` of `thread.c`. The record of a child is
reached by its parent through `child_list` and by the child through `cp`. A null
pointer that is followed, and an assertion that fails, is a panic. The files, the
mappings and the page directory of a process are left out.
-/

namespace Pintos.ChildWait

open Intrusive
open Vm (Ptr)
open Wait (tidError tokens)

/-- `ERROR`. -/
def error : ℤ := -1

/-- `NOT_LOADED`, `LOAD_SUCCESS` and `LOAD_FAIL`. -/
inductive Load where
  | notLoaded
  | success
  | fail
deriving DecidableEq, Repr

/-- `struct child_process`, with the values of its semaphores; its links are nodes. -/
structure ChildProcess where
  pid : ℤ
  load : Load
  wait : Bool
  exit : Bool
  status : ℤ
  loadSema : ℕ
  exitSema : ℕ
deriving DecidableEq, Repr

/-- Where a thread is: between two calls, in `process_execute` after `thread_create`, in
`process_wait` before `sema_down` and after it, in `process_exit` before the children are
removed and after that. -/
inductive Phase where
  | absent
  | starting
  | user
  | freeing
  | waiting (p : Ptr)
  | reaping (p : Ptr)
  | exiting
  | leaving
  | gone
deriving DecidableEq, Repr

/-- The threads: `cp`, `parent`, whether there is an `executable`, and `proc->exit`. -/
structure State where
  phase : ℤ → Phase
  cp : ℤ → Option Ptr
  parent : ℤ → ℤ
  executable : ℤ → Bool
  procExit : ℤ → ℤ
  records : AList fun _ : Ptr => ChildProcess
  links : Links (Node ℤ Ptr)
  nextTid : ℤ
  panic : Bool

/-- `t->child_list`. -/
def childList (t : ℤ) : Ends (Node ℤ Ptr) := listOf t

def State.setPhase (s : State) (t : ℤ) (x : Phase) : State :=
  { s with phase := Function.update s.phase t x }

def State.setRecord (s : State) (p : Ptr) (x : ChildProcess) : State :=
  { s with records := s.records.insert p x }

/-! ## The records of children -/

/-- `add_child_process`, which nothing calls; `malloc` returns the address `p`, and
leaves some status in the record. -/
def addChildProcess (s : State) (t pid : ℤ) (p : Ptr) (status : ℤ) : Option State := do
  let s := s.setRecord p
    { pid := pid, load := .notLoaded, wait := false, exit := false, status := status,
      loadSema := 0, exitSema := 0 }
  let links ← listPushBack s.links (childList t) (.elem p)
  return { s with links := links }

/-- The field `pid` of `list_entry (e, struct child_process, elem)`. -/
def State.pidAt (s : State) : Node ℤ Ptr → Option ℤ
  | .elem p => (s.records.lookup p).map (·.pid)
  | _ => none

/-- `get_child_process`: the element it stops at, `none` for a null pointer. -/
def getChildProcess (s : State) (t pid : ℤ) : Option (Option (Node ℤ Ptr)) := do
  let e ← s.links.next (childList t).head
  (search s.links.next (childList t).tail (fun e => s.pidAt e = some pid)
    (s.records.entries.length + 1) e).map (·.2)

/-- `remove_child_process`. -/
def removeChildProcess (s : State) (p : Ptr) : Option State :=
  (listRemove s.links (.elem p)).map fun links =>
    { s with links := links, records := s.records.erase p }

/-- The loop of `remove_child_processes`. -/
def removeLoop (t : ℤ) : ℕ → Node ℤ Ptr → State → Option State
  | 0, _, _ => none
  | rounds + 1, e, s =>
      if e = (childList t).tail then some s
      else
        match e with
        | .elem p => do
            let next ← s.links.next e
            let s ← removeChildProcess s p
            removeLoop t rounds next s
        | _ => none

/-- `remove_child_processes`. -/
def removeChildProcesses (s : State) (t : ℤ) : Option State := do
  let e ← s.links.next (childList t).head
  removeLoop t (s.records.entries.length + 1) e s

/-! ## Threads -/

/-- The `child_list` that `init_thread` leaves: its `memset` makes the links null, and
there is no `list_init` for it. With `listed` it would be an empty list. -/
def initChildList (listed : Bool) (h : Links (Node ℤ Ptr)) (l : Ends (Node ℤ Ptr)) :
    Links (Node ℤ Ptr) :=
  if listed then listInit h l
  else (((h.setPrev l.head none).setNext l.head none).setPrev l.tail none).setNext l.tail none

/-- `thread_alive`. -/
def threadAlive (s : State) (pid : ℤ) : Prop := s.phase pid ≠ .absent ∧ s.phase pid ≠ .gone

instance (s : State) (pid : ℤ) : Decidable (threadAlive s pid) :=
  inferInstanceAs (Decidable (_ ∧ _))

/-- Which allocations of `process_execute` succeed. -/
structure Env where
  copyPage : Bool
  parsedPage : Bool
  threadPage : Bool
  process : Bool
deriving DecidableEq, Repr

/-- `thread_create`; a page that cannot be used for want of a `struct process` is freed.
The next tid must fit in an `int`. -/
def threadCreate (listed : Bool) (env : Env) (s : State) : Option (ℤ × State) :=
  if env.threadPage = false then some (tidError, s)
  else if s.nextTid = 2 ^ 31 - 1 then none
  else
    let c := s.nextTid
    let s := { s with nextTid := c + 1 }
    if env.process = false then some (tidError, s)
    else
      some (c, { s with
        phase := Function.update s.phase c .starting
        cp := Function.update s.cp c none
        parent := Function.update s.parent c 0
        executable := Function.update s.executable c false
        procExit := Function.update s.procExit c (-1)
        links := initChildList listed s.links (childList c) })

/-! ## The steps -/

inductive Act where
  /-- `process_execute`; for a command that begins with a blank, up to `thread_create`. -/
  | execute (t : ℤ) (cmd : List Char) (env : Env)
  /-- The end of `process_execute` for a command that begins with a blank. -/
  | free (t : ℤ)
  /-- `start_process`, with the result of `load`. -/
  | load (c : ℤ) (success : Bool)
  /-- `process_wait` up to its `sema_down`. -/
  | wait (t : ℤ) (tid : ℤ)
  /-- `sema_down` of `process_wait`. -/
  | down (t : ℤ)
  /-- The end of `process_wait`. -/
  | reap (t : ℤ)
  /-- `exit`. -/
  | exit (c : ℤ) (status : ℤ)
  /-- A process is killed, or its thread ends. -/
  | kill (c : ℤ)
  /-- `process_exit`: `remove_child_processes`. -/
  | leave (c : ℤ)
  /-- `process_exit`: the flag and the semaphore for the parent. -/
  | finish (c : ℤ)
deriving DecidableEq, Repr

/-- The kernel panics. -/
def State.panics (s : State) : State × Option ℤ := ({ s with panic := true }, none)

/-- What a step does, with what the call returns that ends in it; `none` if it cannot be
made. -/
def perform (listed : Bool) (s : State) : Act → Option (State × Option ℤ)
  | .execute t cmd env =>
      if s.phase t = .user then
        if env.copyPage = false ∨ env.parsedPage = false then some (s, some tidError)
        -- the name is null, and `init_thread` asserts that it is not
        else if tokens (cmd.take 4095) = [] then
          if env.threadPage then some s.panics else some (s, some tidError)
        else if cmd.head? = some ' ' then
          (threadCreate listed env (s.setPhase t .freeing)).map fun r => (r.2, none)
        else (threadCreate listed env s).map fun r => (r.2, some r.1)
      else none
  -- `parsed_fn` is behind the blanks, and `palloc_free_page` asserts that it is a page
  | .free t => if s.phase t = .freeing then some s.panics else none
  | .load c success =>
      if s.phase c = .starting then
        match (s.cp c).bind fun p => (s.records.lookup p).map fun x => (p, x) with
        | none => some s.panics
        | some (p, x) =>
            let s := s.setRecord p { x with
              load := if success then .success else .fail, loadSema := x.loadSema + 1 }
            if success then
              some ({ s with executable := Function.update s.executable c true }.setPhase c .user,
                none)
            else some (s.setPhase c .exiting, none)
      else none
  | .wait t tid =>
      if s.phase t = .user then
        match getChildProcess s t tid with
        | some none => some (s, some error)
        | some (some (.elem p)) =>
            match s.records.lookup p with
            | none => some s.panics
            | some x =>
                if x.wait then some (s, some error)
                else
                  let s := s.setRecord p { x with wait := true }
                  some (s.setPhase t (if x.exit then .reaping p else .waiting p), none)
        | _ => some s.panics
      else none
  | .down t =>
      match s.phase t with
      | .waiting p =>
          match s.records.lookup p with
          | none => some s.panics
          | some x =>
              if x.exitSema = 0 then none
              else some ((s.setRecord p { x with exitSema := x.exitSema - 1 }).setPhase t
                (.reaping p), none)
      | _ => none
  | .reap t =>
      match s.phase t with
      | .reaping p =>
          match s.records.lookup p with
          | none => some s.panics
          | some x => (removeChildProcess s p).map fun s => (s.setPhase t .user, some x.status)
      | _ => none
  | .exit c status =>
      if s.phase c = .user then
        some ({ s with procExit := Function.update s.procExit c status }.setPhase c .exiting, none)
      else none
  | .kill c => if s.phase c = .user then some (s.setPhase c .exiting, none) else none
  | .leave c =>
      if s.phase c = .exiting then
        match removeChildProcesses s c with
        | none => some s.panics
        | some s => some (s.setPhase c .leaving, none)
      else none
  | .finish c =>
      if s.phase c = .leaving then
        if threadAlive s (s.parent c) ∧ s.executable c then
          match s.cp c with
          | none => some (s.setPhase c .gone, none)
          | some p =>
              match s.records.lookup p with
              | none => some s.panics
              | some x =>
                  some ((s.setRecord p { x with
                    exit := true, exitSema := x.exitSema + 1 }).setPhase c .gone, none)
        else some (s.setPhase c .gone, none)
      else none

/-- A step and what it returns. -/
abbrev Event := Act × Option ℤ

/-- A step of the system, as long as the kernel has not panicked. -/
def Step (listed : Bool) (s : State) (a : Event) (s' : State) : Prop :=
  s.panic = false ∧ perform listed s a.1 = some (s', a.2)

/-- What `init_thread` has left in `child_list`. -/
def FreshList (listed : Bool) (h : Links (Node ℤ Ptr)) (t : ℤ) : Prop :=
  if listed then IsList h (childList t) [] else h.next (childList t).head = none

/-- At the start there are threads that have not been made by `process_execute`. -/
structure Start (listed : Bool) (s : State) : Prop where
  phase : ∀ t, s.phase t = .user ∨ s.phase t = .absent
  cp : ∀ t, s.cp t = none
  lists : ∀ t, s.phase t ≠ .absent → FreshList listed s.links t
  nextTid : 1 ≤ s.nextTid
  absent : ∀ t, s.nextTid ≤ t → s.phase t = .absent
  panic : s.panic = false

end Pintos.ChildWait
