import Pintos.Arguments.Layout
import Pintos.Lib.Tokens

/-! # Arguments in Project 2

`start_process` cuts the command line behind its first token before `load` copies
it, so `get_args` finds no other token. `setup_stack` goes through `argv` from
`argc` down to 1 instead of from `argc - 1` down to 0. Both show in what the
program gets: it is never the command line.
-/

namespace Pintos.Project2

open Memory Tokens Arguments
open Vm (pgSize)

/-- `MAX_LENGTH`. -/
def maxLength : ℕ := 75

/-- What is outside of the functions below: whether `load` finds the executable and loads
it, whether the page of the stack is allocated and installed, and whether `realloc` of the
stack pointer returns; the strings that elements of `argv` which have not been written
point to, unless reading them faults; and what is in `array`. -/
structure Env where
  opens : List UInt8 → Bool
  loads : Bool
  palloc : Bool
  install : Bool
  realloc : Bool
  argv : ℕ → Option (List UInt8)
  array : ℕ → ℕ

/-- An element of `argv`. -/
inductive Arg where
  | unwritten
  | null
  | token (i : ℕ)
deriving DecidableEq, Repr

/-- A result of `strtok_r` as an element of `argv`. -/
def argOf : Option ℕ → Arg
  | none => .null
  | some i => .token i

/-- The loop of `get_args`: `argv`, `argc` and the buffer. -/
def getArgsLoop : ℕ → Strtok UInt8 → (ℕ → Arg) → ℕ → (ℕ → Arg) × ℕ × List UInt8
  | _, ⟨none, buf, _⟩, argv, argc => (argv, argc, buf)
  | 0, ⟨some _, buf, _⟩, argv, argc => (argv, argc, buf)
  | rounds + 1, ⟨some token, buf, save⟩, argv, argc =>
      getArgsLoop rounds (strtokR 0 blank buf save) (Function.update argv argc (.token token))
        (argc + 1)

/-- `get_args`; the string has no more tokens than bytes. -/
def getArgs (cmdString : List UInt8) : (ℕ → Arg) × ℕ × List UInt8 :=
  let r := strtokR 0 blank cmdString 0
  getArgsLoop cmdString.length (strtokR 0 blank r.buf r.save)
    (Function.update (fun _ => .unwritten) 0 (argOf r.token)) 1

/-! ## `setup_stack` -/

/-- The stack, with the elements of `argv` and `array` that are used. -/
structure Pushing where
  stack : Stack
  array : ℕ → ℕ
  argvUsed : Finset ℕ
  arrayUsed : Finset ℕ

/-- Push on the stack; the first page of memory is never mapped. -/
def pushUser (s : Stack) (bs : List UInt8) : Option Stack :=
  if s.esp < pgSize + bs.length then none else some (s.push bs)

/-- The string that an element of `argv` points to. -/
def argString (env : Env) (buf : List UInt8) (i : ℕ) : Arg → Option (List UInt8)
  | .unwritten => env.argv i
  | .null => none
  | .token start => some (cstring 0 buf start)

/-- The loop that pushes the strings. -/
def pushParams (env : Env) (buf : List UInt8) (argv : ℕ → Arg) : ℕ → Pushing → Option Pushing
  | 0, w => some w
  | params + 1, w => do
      let t ← argString env buf (params + 1) (argv (params + 1))
      let stack ← pushUser w.stack (t ++ [0])
      pushParams env buf argv params
        { stack := stack
          array := Function.update w.array (params + 1) stack.esp
          argvUsed := insert (params + 1) w.argvUsed
          arrayUsed := insert (params + 1) w.arrayUsed }

/-- The value of an address as an `int`. -/
def toInt (a : ℕ) : ℤ := if a < 2 ^ 31 then a else a - 2 ^ 32

/-- The word alignment; the remainder of a negative number is not positive. -/
def wordAlign (s : Stack) : Stack :=
  if (toInt s.esp).tmod 4 ≠ 0 then { s with esp := (s.esp - (toInt s.esp).tmod 4).toNat } else s

/-- The loop that pushes the pointers. -/
def pushReferences : ℕ → Pushing → Option Pushing
  | 0, w => some w
  | params + 1, w => do
      let stack ← pushUser w.stack (word (w.array (params + 1)))
      pushReferences params
        { w with stack := stack, arrayUsed := insert (params + 1) w.arrayUsed }

/-- `setup_stack`, for a process whose memory is `m`; `get_args` has written the elements of
`argv` below `argc`. -/
def setupStack (env : Env) (buf : List UInt8) (argv : ℕ → Arg) (argc : ℕ) (m : Mem) :
    Option Pushing :=
  if env.palloc && env.install && env.realloc then do
    let w ← pushParams env buf argv argc
      { stack := emptyStack m, array := env.array, argvUsed := Finset.range argc, arrayUsed := ∅ }
    let stack ← pushUser (wordAlign w.stack) (word 0)
    let w ← pushReferences argc { w with stack := stack }
    let stack ← pushUser w.stack (word w.stack.esp)
    let stack ← pushUser stack (word argc)
    let stack ← pushUser stack (word 0)
    return { w with stack := stack }
  else
    none

/-- `load`, when it succeeds: the name of the executable that it has opened, and what
`setup_stack` has pushed. -/
def load (env : Env) (fileName : List UInt8) (m : Mem) : Option (List UInt8 × Pushing) :=
  let (argv, argc, buf) := getArgs (fileName.take (maxLength - 1))
  if env.opens fileName && env.loads then do
    let w ← setupStack env buf argv argc m
    return (fileName, w)
  else
    none

/-- `start_process`, up to where the process is started. -/
def startProcess (env : Env) (fileName : List UInt8) (m : Mem) : Option (List UInt8 × Pushing) :=
  load env (cstring 0 (strtokR 0 blank fileName 0).buf 0) m

/-- A program gets the arguments `ts`: they are decoded from its stack, no other element of
`argv` and `array` is used, and the executable is the first one. -/
structure PassesArguments (ts : List (List UInt8)) (name : List UInt8) (w : Pushing) : Prop where
  decodes : Decodes w.stack.mem w.stack.esp ts
  argvUsed : w.argvUsed ⊆ Finset.range ts.length
  arrayUsed : w.arrayUsed ⊆ Finset.range ts.length
  name : ts.head? = some name

/-! ## What the program gets -/

variable {env : Env} {buf fileName name t : List UInt8} {argv : ℕ → Arg} {argc n : ℕ}
  {w w' : Pushing} {m : Mem} {s s' : Stack} {ts : List (List UInt8)}

theorem getArgsLoop_none {save : ℕ} :
    getArgsLoop n ⟨none, buf, save⟩ argv argc = (argv, argc, buf) := by
  unfold getArgsLoop
  rfl

/-- There is no token in the copy of the command line but the first. -/
theorem getArgs_argc (h : 0 ∉ buf) (ht : tokens blank buf = [t]) :
    (getArgs buf).2.1 = 1 := by
  have hyields := strtokR_yields 0 blank buf 0
  rw [cstring_zero h, ht] at hyields
  have hnext : (strtokR 0 blank (strtokR 0 blank buf 0).buf (strtokR 0 blank buf 0).save).token =
      none := hyields.next
  unfold getArgs
  dsimp only
  generalize strtokR 0 blank (strtokR 0 blank buf 0).buf (strtokR 0 blank buf 0).save = r at hnext
  obtain ⟨token, buf', save⟩ := r
  obtain rfl : token = none := hnext
  rw [getArgsLoop_none]

theorem pushUser_spec {bs : List UInt8} (h : pushUser s bs = some s') :
    s' = s.push bs ∧ pgSize + bs.length ≤ s.esp := by
  unfold pushUser at h
  split at h
  next => cases h
  next hlt => exact ⟨(Option.some.inj h).symm, Nat.not_lt.mp hlt⟩

/-- The loops do not take an element back. -/
theorem pushParams_used (h : pushParams env buf argv n w = some w') : w.argvUsed ⊆ w'.argvUsed := by
  induction n generalizing w with
  | zero => exact (Option.some.inj h) ▸ subset_rfl
  | succ n ih =>
      unfold pushParams at h
      obtain ⟨t, -, h⟩ := Option.bind_eq_some_iff.mp h
      obtain ⟨stack, -, h⟩ := Option.bind_eq_some_iff.mp h
      exact (Finset.subset_insert ..).trans (ih h)

theorem pushReferences_used (h : pushReferences n w = some w') : w'.argvUsed = w.argvUsed := by
  induction n generalizing w with
  | zero => exact (Option.some.inj h) ▸ rfl
  | succ n ih =>
      unfold pushReferences at h
      obtain ⟨stack, -, h⟩ := Option.bind_eq_some_iff.mp h
      have hrest := ih h
      exact hrest

/-- The loop uses the element behind the last one. -/
theorem pushParams_last (h : pushParams env buf argv (n + 1) w = some w') :
    n + 1 ∈ w'.argvUsed := by
  unfold pushParams at h
  obtain ⟨t, -, h⟩ := Option.bind_eq_some_iff.mp h
  obtain ⟨stack, -, h⟩ := Option.bind_eq_some_iff.mp h
  exact pushParams_used h (Finset.mem_insert_self ..)

/-- The last two words that are pushed are `argc` and a return address. -/
theorem loadWord_argc {s₁ s₂ : Stack} (hn : n < 2 ^ 32) (h₁ : pushUser s (word n) = some s₁)
    (h₂ : pushUser s₁ (word 0) = some s₂) : loadWord s₂.mem (s₂.esp + 4) = n := by
  obtain ⟨rfl, hle₁⟩ := pushUser_spec h₁
  obtain ⟨rfl, hle₂⟩ := pushUser_spec h₂
  simp only [Stack.push_esp, word_length] at hle₂
  have hgrows : Grows (s.push (word n)) ((s.push (word n)).push (word 0)) :=
    .push (by rw [Stack.push_esp, word_length, word_length]; omega)
  have haddr : ((s.push (word n)).push (word 0)).esp + 4 = (s.push (word n)).esp := by
    rw [Stack.push_esp, Stack.push_esp, word_length, word_length]
    omega
  rw [haddr]
  exact (hgrows.loadWord le_rfl).trans (loadWord_store hn)

theorem setupStack_spec (hn : argc + 1 < 2 ^ 32)
    (h : setupStack env buf argv (argc + 1) m = some w) :
    argc + 1 ∈ w.argvUsed ∧ loadWord w.stack.mem (w.stack.esp + 4) = argc + 1 := by
  unfold setupStack at h
  split at h
  next =>
    obtain ⟨w₁, h₁, h⟩ := Option.bind_eq_some_iff.mp h
    obtain ⟨s₁, -, h⟩ := Option.bind_eq_some_iff.mp h
    obtain ⟨w₂, h₂, h⟩ := Option.bind_eq_some_iff.mp h
    obtain ⟨s₂, -, h⟩ := Option.bind_eq_some_iff.mp h
    obtain ⟨s₃, h₃, h⟩ := Option.bind_eq_some_iff.mp h
    obtain ⟨s₄, h₄, h⟩ := Option.bind_eq_some_iff.mp h
    cases h
    refine ⟨?_, loadWord_argc hn h₃ h₄⟩
    show argc + 1 ∈ w₂.argvUsed
    have hlast : argc + 1 ∈ w₁.argvUsed := pushParams_last h₁
    rwa [pushReferences_used h₂]
  next => cases h

/-- `load` gets the command line up to the end of its first token. -/
theorem first_tokens (hne : tokens blank fileName ≠ []) (h : 0 ∉ fileName) :
    ∃ t, tokens blank (cstring 0 (strtokR 0 blank fileName 0).buf 0) = [t] ∧
      (cstring 0 (strtokR 0 blank fileName 0).buf 0).length ≤ fileName.length := by
  obtain ⟨t, ts, hcons⟩ := List.exists_cons_of_ne_nil hne
  have hcons' : tokens blank (cstring 0 fileName 0) = t :: ts := by rwa [cstring_zero h]
  obtain ⟨start, buf', next, heq, hfound⟩ := strtokR_cons hcons'
  rw [heq]
  refine ⟨t, hfound.first, ?_⟩
  rw [← hfound.length]
  exact (List.takeWhile_prefix _).length_le

/-- Whatever the command line, the program does not get it. -/
theorem arguments_never_passed (h : 0 ∉ fileName) (hlen : fileName.length < maxLength)
    (hne : tokens blank fileName ≠ []) (hrun : startProcess env fileName m = some (name, w)) :
    ¬ PassesArguments (tokens blank fileName) name w := by
  intro hpass
  obtain ⟨t, ht, hle⟩ := first_tokens hne h
  unfold startProcess load at hrun
  have htake : (cstring 0 (strtokR 0 blank fileName 0).buf 0).take (maxLength - 1) =
      cstring 0 (strtokR 0 blank fileName 0).buf 0 := List.take_of_length_le (by omega)
  have hnul : 0 ∉ cstring 0 (strtokR 0 blank fileName 0).buf 0 := nul_notMem_cstring
  have hargc := getArgs_argc hnul ht
  rw [htake] at hrun
  dsimp only at hrun
  rw [hargc] at hrun
  split at hrun
  next =>
    obtain ⟨w₁, hw, hrun⟩ := Option.bind_eq_some_iff.mp hrun
    cases hrun
    obtain ⟨hused, hword⟩ := setupStack_spec (by decide) hw
    -- `argc` is 1, and the element of `argv` that is pushed is the one behind it
    have hone : 1 = (tokens blank fileName).length := hword.symm.trans hpass.decodes.argc
    have hlt := Finset.mem_range.mp (hpass.argvUsed hused)
    omega
  next => cases hrun

/-- An executable is found under every name, and there is no memory for `realloc`. -/
def scarce : Env where
  opens _ := true
  loads := true
  palloc := true
  install := true
  realloc := true
  argv _ := some []
  array _ := 0

/-- The command lines `ls -l` and `ls`. -/
def lsLong : List UInt8 := [108, 115, 32, 45, 108]
def ls : List UInt8 := [108, 115]

/-- The process `ls -l` is started, with `argc` 1. -/
theorem arguments_lost : ∃ name w, startProcess scarce lsLong (fun _ => 9) = some (name, w) ∧
    loadWord w.stack.mem (w.stack.esp + 4) = 1 ∧
      ¬ PassesArguments (tokens blank lsLong) name w := by
  have hrun : (startProcess scarce lsLong fun _ => 9).map
      (fun r => loadWord r.2.stack.mem (r.2.stack.esp + 4)) = some 1 := by decide
  obtain ⟨⟨name, w⟩, hstart, hargc⟩ := Option.map_eq_some_iff.mp hrun
  refine ⟨name, w, hstart, hargc, ?_⟩
  intro hpass
  have htwo : 1 = (tokens blank lsLong).length := hargc.symm.trans hpass.decodes.argc
  revert htwo
  decide

theorem arguments_never_passed_run : ∃ name w,
    startProcess scarce ls (fun _ => 9) = some (name, w) ∧
      ¬ PassesArguments (tokens blank ls) name w := by
  have hrun : (startProcess scarce ls fun _ => 9).isSome := by decide
  obtain ⟨⟨name, w⟩, hstart⟩ := Option.isSome_iff_exists.mp hrun
  exact ⟨name, w, hstart,
    arguments_never_passed (by decide) (by decide) (by decide) hstart⟩

end Pintos.Project2
