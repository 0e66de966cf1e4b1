import Pintos.Arguments.Layout
import Pintos.Lib.Tokens
import Pintos.Wait.Original

/-! # Arguments in the original files

`argument_tokenize` cuts a command into at most `ARGV_SIZE` tokens, and
`push_args_to_stack` pushes them byte by byte, from the last to the first; each byte
and each word is checked against the page of the stack. On the way it overwrites the
pointers to the tokens with the addresses of the strings it has pushed.
-/

namespace Pintos.Arguments

open Memory Tokens
open Vm (pgSize)
open Wait (argsSize argvSize)

/-- `ARGS_DELI`. -/
def argsDeli : UInt8 := 32

/-- `BAD_ARGS`. -/
def badArgs : ℤ := -1

/-- `USER_STACK_VADDR`. -/
def userStackVaddr : ℕ := physBase - pgSize

/-- A `char *`: into the member `args`, or to the stack. -/
inductive Pointer where
  | args (i : ℕ)
  | stack (a : ℕ)
deriving DecidableEq, Repr

/-- `struct args_struct`, at its address. -/
structure ArgsStruct where
  addr : ℕ
  args : List UInt8
  argv : ℕ → Pointer
  argc : ℤ

/-- The address of a character. -/
def Pointer.addr (a : ArgsStruct) : Pointer → ℕ
  | .args i => a.addr + i
  | .stack x => x

/-- `argv[i][j]` for the pointer `argv[i]`. -/
def charAt (a : ArgsStruct) (m : Mem) (j : ℕ) : Pointer → UInt8
  | .args i => a.args[i + j]?.getD 0
  | .stack x => m (x + j)

/-- `strlen`; no string is longer than a page. -/
def strlen (a : ArgsStruct) (m : Mem) : Pointer → ℕ
  | .args i => (cstring 0 a.args i).length
  | .stack x => (cstring 0 (load m x pgSize) 0).length

/-! ## Tokens -/

/-- The loop of `argument_tokenize`, which ends when `argv` is full at the latest. -/
def argumentTokenizeLoop : ℕ → Strtok UInt8 → ArgsStruct → ℕ → ArgsStruct
  | _, ⟨none, buf, _⟩, a, argcValue => { a with args := buf, argc := argcValue }
  | 0, ⟨some _, buf, _⟩, a, _ => { a with args := buf, argc := badArgs }
  | rounds + 1, ⟨some token, buf, save⟩, a, argcValue =>
      if argcValue = argvSize then
        { a with args := buf, argc := badArgs }
      else
        argumentTokenizeLoop rounds (strtokR 0 argsDeli buf save)
          { a with argv := Function.update a.argv argcValue (.args token) } (argcValue + 1)

/-- `argument_tokenize`. -/
def argumentTokenize (a : ArgsStruct) : ArgsStruct :=
  argumentTokenizeLoop (argvSize + 1) (strtokR 0 argsDeli a.args 0) a 0

/-- The part of `process_execute` that copies and cuts the command `args`. -/
def tokenizeCommand (a : ArgsStruct) (args : List UInt8) : ArgsStruct :=
  argumentTokenize { a with args := args.take (argsSize - 1) }

/-! ## The stack -/

/-- `push_byte_to_stack`. -/
def pushByteToStack (val : UInt8) (s : Stack) : Bool × Stack :=
  let s := s.lower 1
  if s.esp < userStackVaddr then (false, s) else (true, s.put [val])

/-- `push_word_to_stack`. -/
def pushWordToStack (val : ℕ) (s : Stack) : Bool × Stack :=
  let s := s.lower 4
  if s.esp < userStackVaddr then (false, s) else (true, s.put (word val))

/-- What comes next, if the push before it succeeded. -/
def andThen (r : Bool × Stack) (f : Stack → Bool × Stack) : Bool × Stack :=
  if r.1 then f r.2 else r

/-- Push the bytes `f (n - 1)` to `f 0`, which may be read from the stack. -/
def pushBytes (f : Mem → ℕ → UInt8) : ℕ → Stack → Bool × Stack
  | 0, s => (true, s)
  | j + 1, s => andThen (pushByteToStack (f s.mem j) s) (pushBytes f j)

/-- The first loop of `push_args_to_stack`, for the arguments below `n`. -/
def pushStringsLoop : ℕ → ArgsStruct → Stack → Bool × ArgsStruct × Stack
  | 0, a, s => (true, a, s)
  | i + 1, a, s =>
      let len := strlen a s.mem (a.argv i)
      let (pushed, s) := pushBytes (fun m j => charAt a m j (a.argv i)) (len + 1) s
      if pushed then
        pushStringsLoop i { a with argv := Function.update a.argv i (.stack s.esp) } s
      else
        (false, a, s)

/-- The loop that pushes the pointers below `n`. -/
def pushPointersLoop (a : ArgsStruct) : ℕ → Stack → Bool × Stack
  | 0, s => (true, s)
  | i + 1, s => andThen (pushWordToStack ((a.argv i).addr a) s) (pushPointersLoop a i)

/-- The part of `push_args_to_stack` below the strings. -/
def pushWordsToStack (a : ArgsStruct) (s : Stack) : Bool × Stack :=
  andThen (pushBytes (fun _ _ => 0) (s.esp % 4) s) fun s =>
  andThen (pushWordToStack 0 s) fun s =>
  andThen (pushPointersLoop a a.argc.toNat s) fun s =>
  andThen (pushWordToStack s.esp s) fun s =>
  andThen (pushWordToStack (a.argc % 2 ^ 32).toNat s) fun s =>
  pushWordToStack 0 s

/-- `push_args_to_stack`. -/
def pushArgsToStack (a : ArgsStruct) (s : Stack) : Bool × Stack :=
  let (pushed, a, s) := pushStringsLoop a.argc.toNat a s
  if pushed then pushWordsToStack a s else (false, s)

end Pintos.Arguments
