import Mathlib.Data.List.AList
import Pintos.Lib.IntrusiveList
import Pintos.Lib.Run
import Pintos.Vm.State

/-! # Parents and children

`process_execute`, `start_process`, `process_wait` and `process_exit` of the
original `process.c`, with `exit` and `thread_create`. A parent and its child
share a `struct process`, whose semaphore the child ups when it has been loaded
and when it has left. Threads take turns between any two of the steps below; what
a step does is not visible to others in parts, or is atomic in the source. The
files of a process and its page directory are left out.
-/

namespace Pintos.Wait

open Intrusive
open Vm (Ptr)

/-- `TID_ERROR`. -/
def tidError : ℤ := -1

/-- `enum process_status`. -/
inductive ProcessStatus where
  | fail
  | run
  | dead
  | orphan
deriving DecidableEq, Repr

/-- `struct process`, with the value of its semaphore; its links are nodes, and its
`status_lock` is held only within a step. -/
structure Process where
  pid : ℤ
  status : ProcessStatus
  exit : ℤ
  sema : ℕ
deriving DecidableEq, Repr

/-- Where a thread is: between two calls, in `process_execute` before the look for the
child, before `sema_down` and after it, in `process_wait` before `sema_down` and after
it, and in `process_exit`. -/
inductive Phase where
  | absent
  | starting
  | user
  | created (c : ℤ)
  | loading (p : Ptr) (c : ℤ)
  | checking (p : Ptr) (c : ℤ)
  | waiting (p : Ptr) (c : ℤ)
  | reaping (p : Ptr) (c : ℤ)
  | exiting
  | orphaned
  | signalling
  | gone
deriving DecidableEq, Repr

/-- The threads, each with its list `children` and `proc`. -/
structure State where
  phase : ℤ → Phase
  proc : ℤ → Option Ptr
  procs : AList fun _ : Ptr => Process
  links : Links (Node ℤ Ptr)
  nextTid : ℤ
  panic : Bool

/-- `t->children`. -/
def children (t : ℤ) : Ends (Node ℤ Ptr) := listOf t

def State.setPhase (s : State) (t : ℤ) (x : Phase) : State :=
  { s with phase := Function.update s.phase t x }

def State.setProcess (s : State) (p : Ptr) (x : Process) : State :=
  { s with procs := s.procs.insert p x }

/-! ## `get_child` -/

/-- The field `pid` of `list_entry (e, struct process, elem)`. For the tail it is the
link before the head, which is null. -/
def State.pidAt (s : State) : Node ℤ Ptr → Option ℤ
  | .head _ => none
  | .tail t => if s.links.prev (.head t) = none then some 0 else none
  | .elem p => (s.procs.lookup p).map (·.pid)

/-- `get_child`: the node it stops at, `none` for a null pointer. -/
def getChild (s : State) (t : ℤ) (pid : ℤ) : Option (Option (Node ℤ Ptr)) :=
  (search s.links.prev (children t).head (fun e => s.pidAt e = some pid)
    (s.procs.entries.length + 2) (children t).tail).map (·.2)

/-! ## `process_execute` -/

/-- `ARGS_SIZE`, which is `PGSIZE / 2`, and `ARGV_SIZE`. -/
def argsSize : ℕ := 2048
def argvSize : ℕ := (4096 - argsSize - 4) / 4

/-- The tokens that `strtok_r` finds in a string. -/
def tokens (args : List Char) : List (List Char) := (args.splitOn ' ').filter (· ≠ [])

/-- The loop of `argument_tokenize`: the number of arguments, `none` for `BAD_ARGS`. -/
def tokenizeLoop : ℕ → List (List Char) → Option ℕ
  | argc, [] => some argc
  | argc, _ :: rest => if argc = argvSize then none else tokenizeLoop (argc + 1) rest

/-- `argument_tokenize`, of the copy that `strlcpy` makes of a command. -/
def argumentTokenize (args : List Char) : Option ℕ :=
  tokenizeLoop 0 (tokens (args.take (argsSize - 1)))

/-- Which allocations of `process_execute` succeed, with the address `malloc` returns
for the process; an address in use counts as a failure. -/
structure Env where
  argsPage : Bool
  threadPage : Bool
  process : Option Ptr
deriving DecidableEq, Repr

/-- `thread_create`: a new thread, or that it could not be made. The next tid must fit
in an `int`. -/
def threadCreate (env : Env) (s : State) (t : ℤ) : Option (Option ℤ × State) :=
  if env.threadPage = false then some (none, s)
  else if s.nextTid = 2 ^ 31 - 1 then none
  else
    let c := s.nextTid
    let s := { s with nextTid := s.nextTid + 1 }
    match env.process.filter (· ∉ s.procs) with
    | none => some (none, s)
    | some p => do
        let links ← listPushBack (listInit s.links (children c)) (children t) (.elem p)
        return (some c, { s with
          links := links
          procs := s.procs.insert p { pid := c, status := .run, exit := -1, sema := 0 }
          proc := Function.update s.proc c (some p)
          phase := Function.update s.phase c .starting })

/-- `process_execute` up to `thread_create`; a command without tokens leaves `argv[0]`
undefined. -/
def execute (env : Env) (s : State) (t : ℤ) (cmd : List Char) : Option (State × Option ℤ) :=
  if env.argsPage = false then some (s, some tidError)
  else
    match argumentTokenize cmd with
    | none => some (s, some tidError)
    | some 0 => none
    | some (_ + 1) => do
        match ← threadCreate env s t with
        | (none, s) => return (s, some tidError)
        | (some c, s) => return (s.setPhase t (.created c), none)

/-! ## The steps -/

inductive Act where
  /-- `process_execute` up to the creation of the thread. -/
  | execute (t : ℤ) (cmd : List Char) (env : Env)
  /-- `get_child` of `process_execute`. -/
  | find (t c : ℤ)
  /-- `sema_down` of `process_execute` or of `process_wait`. -/
  | down (t c : ℤ)
  /-- The end of `process_execute`. -/
  | check (t c : ℤ)
  /-- `process_wait` up to its `sema_down`. -/
  | wait (t : ℤ) (tid : ℤ)
  /-- The end of `process_wait`. -/
  | reap (t c : ℤ)
  /-- `start_process`, with the result of `load`. -/
  | load (c : ℤ) (success : Bool)
  /-- `exit`. -/
  | exit (c : ℤ) (status : ℤ)
  /-- A process is killed, or its thread ends. -/
  | kill (c : ℤ)
  /-- `process_exit`: the loop over the children. -/
  | orphans (c : ℤ)
  /-- `process_exit`: the status, under `status_lock`. -/
  | finish (c : ℤ)
  /-- `process_exit`: `sema_up`. -/
  | signal (c : ℤ)
deriving DecidableEq, Repr

/-- The kernel panics. -/
def State.panics (s : State) : State × Option ℤ := ({ s with panic := true }, none)

/-- Unlink a process and free it. -/
def State.free (s : State) (p : Ptr) : Option State :=
  (listRemove s.links (.elem p)).map fun links =>
    { s with links := links, procs := s.procs.erase p }

/-- What a step does, with what the call returns that ends in it; `none` if it cannot be
made. -/
def perform (s : State) : Act → Option (State × Option ℤ)
  | .execute t cmd env => if s.phase t = .user then execute env s t cmd else none
  | .find t c =>
      if s.phase t = .created c then
        match getChild s t c with
        | some (some (.elem p)) => some (s.setPhase t (.loading p c), none)
        | _ => some s.panics
      else none
  | .down t c =>
      match s.phase t with
      | .loading p d =>
          if d = c then
            match s.procs.lookup p with
            | none => some s.panics
            | some x =>
                if x.sema = 0 then none
                else some ((s.setProcess p { x with sema := x.sema - 1 }).setPhase t
                  (.checking p d), none)
          else none
      | .waiting p d =>
          if d = c then
            match s.procs.lookup p with
            | none => some s.panics
            | some x =>
                if x.sema = 0 then none
                else some ((s.setProcess p { x with sema := x.sema - 1 }).setPhase t
                  (.reaping p d), none)
          else none
      | _ => none
  | .check t c =>
      match s.phase t with
      | .checking p d =>
          if d = c then
            match s.procs.lookup p with
            | none => some s.panics
            | some x =>
                if x.status = .fail then
                  (s.free p).map fun s => (s.setPhase t .user, some tidError)
                else some (s.setPhase t .user, some c)
          else none
      | _ => none
  | .wait t tid =>
      if s.phase t = .user then
        match getChild s t tid with
        | some none => some (s, some (-1))
        | some (some (.elem p)) => some (s.setPhase t (.waiting p tid), none)
        -- the semaphore of the tail is the word `magic`, and `list_remove` of the tail
        -- fails its assertion
        | _ => some s.panics
      else none
  | .reap t c =>
      match s.phase t with
      | .reaping p d =>
          if d = c then
            match s.procs.lookup p with
            | none => some s.panics
            | some x => (s.free p).map fun s => (s.setPhase t .user, some x.exit)
          else none
      | _ => none
  | .load c success =>
      if s.phase c = .starting then do
        let p ← s.proc c
        match s.procs.lookup p with
        | none => return s.panics
        | some x =>
            if success then
              return ((s.setProcess p { x with sema := x.sema + 1 }).setPhase c .user, none)
            else
              return ((s.setProcess p { x with status := .fail }).setPhase c .exiting, none)
      else none
  | .exit c status =>
      if s.phase c = .user then do
        let p ← s.proc c
        match s.procs.lookup p with
        | none => return s.panics
        | some x => return ((s.setProcess p { x with exit := status }).setPhase c .exiting, none)
      else none
  | .kill c => if s.phase c = .user then some (s.setPhase c .exiting, none) else none
  | .orphans c =>
      if s.phase c = .exiting then
        if s.links.next (children c).head = some (children c).tail then
          some (s.setPhase c .orphaned, none)
        -- the loop begins with the tail, and frees a part of the thread
        else some s.panics
      else none
  | .finish c =>
      if s.phase c = .orphaned then
        match s.proc c with
        | none => some (s.setPhase c .gone, none)
        | some p =>
            match s.procs.lookup p with
            | none => some s.panics
            | some x =>
                match x.status with
                | .run => some ((s.setProcess p { x with status := .dead }).setPhase c
                    .signalling, none)
                -- the record is freed, and its lock released through a null pointer
                | .orphan => some { s with procs := s.procs.erase p }.panics
                | _ => some (s.setPhase c .signalling, none)
      else none
  | .signal c =>
      if s.phase c = .signalling then do
        let p ← s.proc c
        match s.procs.lookup p with
        | none => return s.panics
        | some x =>
            return ((s.setProcess p { x with sema := x.sema + 1 }).setPhase c .gone, none)
      else none

/-- A step and what it returns. -/
abbrev Event := Act × Option ℤ

/-- A step of the system, as long as the kernel has not panicked. -/
def Step (s : State) (a : Event) (s' : State) : Prop :=
  s.panic = false ∧ perform s a.1 = some (s', a.2)

/-- At the start there are threads without children. -/
structure Start (s : State) : Prop where
  phase : ∀ t, s.phase t = .user ∨ s.phase t = .absent
  proc : ∀ t, s.proc t = none
  procs : s.procs = ∅
  empty : ∀ t, IsList s.links (children t) []
  nextTid : 1 ≤ s.nextTid
  absent : ∀ t, s.nextTid ≤ t → s.phase t = .absent
  panic : s.panic = false

end Pintos.Wait
