import Pintos.Arguments.Layout
import Pintos.Lib.Tokens

/-! # `setup_stack` of Project 3

`process_execute` copies the command line, `start_process` cuts its first token, and
`setup_stack` gets the others with `strtok_r` while it pushes them. The addresses
of the strings are kept in an array `argv` on the heap, which grows by doubling;
an access outside of its allocation is an error. Kernel memory and the stack are
disjoint, so the copy of the command line is a buffer of its own, in which
pointers are offsets.
-/

namespace Pintos.Arguments

open Memory Tokens
open Vm (pgSize)

/-- What allocations return: whether `grow_stack`, `malloc` and each `realloc` to a new
number of elements succeed, and what is in new memory of the heap. -/
structure Env where
  growStack : Bool
  malloc : Bool
  realloc : ℕ → Bool
  heap : ℕ → ℕ

/-- The local variables of the loop in `setup_stack`, with `argv_size` and the stack. -/
structure Args where
  stack : Stack
  argc : ℕ
  argv : List ℕ
  argvSize : ℕ

/-- Read `argv[i]`. -/
def getArgv (argv : List ℕ) (i : ℕ) : Except String ℕ :=
  match argv[i]? with
  | some a => .ok a
  | none => .error "argv"

/-- Write `argv[i]`. -/
def setArgv (argv : List ℕ) (i a : ℕ) : Except String (List ℕ) :=
  if i < argv.length then .ok (argv.set i a) else .error "argv"

/-- `realloc` to `n` elements. -/
def realloc (env : Env) (argv : List ℕ) (n : ℕ) : Option (List ℕ) :=
  if env.realloc n then some (argv.take n ++ (List.range' argv.length (n - argv.length)).map env.heap)
  else none

/-- Resize `argv` when it is full; `none` if there is no memory. -/
def resize (env : Env) (argv : List ℕ) (argc size : ℕ) : Option (List ℕ × ℕ) :=
  if argc ≥ size then (realloc env argv (size * 2)).map fun argv => (argv, size * 2)
  else some (argv, size)

/-- The body of the loop for the token `t`: whether to go on, and the variables. -/
def pushToken (env : Env) (t : List UInt8) (a : Args) : Except String (Bool × Args) := do
  let stack := a.stack.lower (t.length + 1)
  let argv ← setArgv a.argv a.argc stack.esp
  let argc := a.argc + 1
  match resize env argv argc a.argvSize with
  | none => return (false, { a with stack := stack, argc := argc, argv := [] })
  | some (argv, argvSize) =>
      return (true, { stack := stack.put (t ++ [0]), argc := argc, argv := argv,
                      argvSize := argvSize })

/-- The loop of `setup_stack`: whether all tokens have been pushed. -/
def pushTokensLoop (env : Env) : ℕ → Strtok UInt8 → Args → Except String (Bool × Args)
  | _, ⟨none, _, _⟩, a => .ok (true, a)
  | 0, ⟨some _, _, _⟩, _ => .error "rounds"
  | rounds + 1, ⟨some token, buf, save⟩, a => do
      let (more, a) ← pushToken env (cstring 0 buf token) a
      if more then
        pushTokensLoop env rounds (strtokR 0 blank buf save) a
      else
        return (false, a)

/-- Push `argv[i]` for all `i` below `n`, the last first. -/
def pushArgv (argv : List ℕ) : ℕ → Stack → Except String Stack
  | 0, s => .ok s
  | i + 1, s => do
      let a ← getArgv argv i
      pushArgv argv i (s.push (word a))

/-- `setup_stack`, with the first token that `strtok_r` has found. -/
def setupStack (env : Env) (first : Strtok UInt8) (s : Stack) : Except String (Bool × Stack) := do
  if env.growStack = false then
    return (false, s)
  let s := { s with esp := physBase }
  if env.malloc = false then
    return (false, s)
  let argv := (List.range 2).map env.heap
  let (done, a) ← pushTokensLoop env (first.buf.length + 1) first
    { stack := s, argc := 0, argv := argv, argvSize := 2 }
  if done = false then
    return (false, a.stack)
  let argv ← setArgv a.argv a.argc 0
  let mut s := a.stack
  let i := s.esp % 4
  if i ≠ 0 then
    let null ← getArgv argv a.argc
    s := s.push ((word null).take i)
  s ← pushArgv argv (a.argc + 1) s
  let token := s.esp
  s := s.push (word token)
  s := s.push (word a.argc)
  let null ← getArgv argv a.argc
  s := s.push (word null)
  return (true, s)

/-- `start_process` of the command line `fileName`. -/
def startProcess (env : Env) (fileName : List UInt8) (s : Stack) : Except String (Bool × Stack) :=
  setupStack env (strtokR 0 blank fileName 0) s

/-- `process_execute`, with a stack to which nothing has been stored. The new thread has the
name that is cut from a copy of the command line, which must not be null. -/
def processExecute (env : Env) (fileName : List UInt8) (m : Mem) : Except String (Bool × Stack) :=
  let fnCopy := fileName.take (pgSize - 1)
  if (strtokR 0 blank fnCopy 0).token = none then .error "thread_create"
  else startProcess env fnCopy { esp := 0, mem := m, stored := ∅ }

end Pintos.Arguments
