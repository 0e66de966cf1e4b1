import Pintos.Lib.Memory
import Pintos.Vm.State

/-! # Dispatch of system calls in Project 2

`syscall_handler` of `syscall.c` with `arg_get`: which function is called with which
arguments, and what is left in `eax`. The array `arg` is not initialised, so its
elements say whether they have been fetched from the user stack. The numbers of the
calls are not in the source; `number` gives the case for a number, if there is one.
-/

namespace Pintos.Project2.Dispatch

open Vm (Vaddr)

/-- The cases of `syscall_handler`. -/
inductive Syscall where
  | halt
  | exit
  | exec
  | wait
  | create
  | remove
  | open
  | filesize
  | read
  | write
  | seek
  | tell
deriving DecidableEq, Repr

/-- A call of one of the functions. -/
inductive Request (α : Type) where
  | halt
  | exit (status : α)
  | exec (fileName : α)
  | wait (pid : α)
  | create (file initialSize : α)
  | remove (file : α)
  | open (file : α)
  | filesize (fd : α)
  | read (fd buffer size : α)
  | write (fd buffer size : α)
  | seek (fd position : α)
  | tell (fd : α)
deriving DecidableEq, Repr

namespace Request

variable {α β : Type}

def map (g : α → β) : Request α → Request β
  | .halt => .halt
  | .exit status => .exit (g status)
  | .exec fileName => .exec (g fileName)
  | .wait pid => .wait (g pid)
  | .create file initialSize => .create (g file) (g initialSize)
  | .remove file => .remove (g file)
  | .open file => .open (g file)
  | .filesize fd => .filesize (g fd)
  | .read fd buffer size => .read (g fd) (g buffer) (g size)
  | .write fd buffer size => .write (g fd) (g buffer) (g size)
  | .seek fd position => .seek (g fd) (g position)
  | .tell fd => .tell (g fd)

/-- The arguments of a call. -/
def args : Request α → List α
  | .halt => []
  | .exit status => [status]
  | .exec fileName => [fileName]
  | .wait pid => [pid]
  | .create file initialSize => [file, initialSize]
  | .remove file => [file]
  | .open file => [file]
  | .filesize fd => [fd]
  | .read fd buffer size => [fd, buffer, size]
  | .write fd buffer size => [fd, buffer, size]
  | .seek fd position => [fd, position]
  | .tell fd => [fd]

/-- The function returns a value to the user. -/
def hasResult : Request α → Bool
  | .halt | .exit _ | .seek _ _ => false
  | .exec _ | .wait _ | .create _ _ | .remove _ | .open _ | .filesize _ | .read _ _ _
  | .write _ _ _ | .tell _ => true

end Request

/-! ## The user stack -/

/-- User memory; reading a byte that is `none` faults. -/
abbrev UserMemory := Vaddr → Option UInt8

/-- Read a word. -/
def word (m : UserMemory) (a : Vaddr) : Option UInt32 := do
  let bytes ← ((List.range 4).map fun i => m (a + .ofNat i)).mapM id
  return .ofNat (Memory.value bytes)

/-- The members `esp` and `eax` of `struct intr_frame`. -/
structure IntrFrame where
  esp : Vaddr
  eax : UInt32
deriving DecidableEq, Repr

/-- `MAX_ARGS`. -/
abbrev maxArgs : ℕ := 10

/-- An element of `arg`. -/
structure Word where
  value : UInt32
  fetched : Bool
deriving DecidableEq, Repr

/-- `int arg[MAX_ARGS]`. -/
abbrev Args := Fin maxArgs → Word

/-- `arg` before anything is fetched. -/
def uninitialised (contents : Fin maxArgs → UInt32) : Args := fun i => ⟨contents i, false⟩

/-- `*((int *) f->esp + i + 1)`. -/
def argument (m : UserMemory) (f : IntrFrame) (i : ℕ) : Option UInt32 :=
  word m (f.esp + 4 * (.ofNat i + 1))

/-- The loop of `arg_get` from `i` on, for `n` arguments. -/
def argGetLoop (m : UserMemory) (f : IntrFrame) : ℕ → ℕ → Args → Option Args
  | _, 0, arg => some arg
  | i, n + 1, arg => do
      let v ← argument m f i
      if h : i < maxArgs then
        argGetLoop m f (i + 1) n (Function.update arg ⟨i, h⟩ ⟨v, true⟩)
      else
        none

/-- `arg_get`. -/
def argGet (m : UserMemory) (f : IntrFrame) (arg : Args) (n : ℕ) : Option Args :=
  argGetLoop m f 0 n arg

/-! ## `syscall_handler` -/

/-- The function that was called, and the frame that is left. -/
structure Handled where
  called : Option (Request Word)
  frame : IntrFrame
deriving DecidableEq, Repr

/-- Call a function. -/
def call (f : IntrFrame) (q : Request Word) : Handled := { called := some q, frame := f }

/-- Call a function and store what it answers in `eax`, if it returns. -/
def callStore (answer : Request UInt32 → Option UInt32) (f : IntrFrame) (q : Request Word) :
    Handled :=
  match answer (q.map (·.value)) with
  | none => { called := some q, frame := f }
  | some v => { called := some q, frame := { f with eax := v } }

/-- `syscall_handler`; it does not get further if reading the stack faults. `answer` is what
the functions return. -/
def syscallHandler (number : UInt32 → Option Syscall) (answer : Request UInt32 → Option UInt32)
    (m : UserMemory) (f : IntrFrame) (arg : Args) : Option Handled := do
  let nr ← word m f.esp
  match number nr with
  | none => return { called := none, frame := f }
  | some .halt => return call f .halt
  | some .exit => do
      let arg ← argGet m f arg 1
      return call f (.exit (arg 0))
  | some .exec => do
      let arg ← argGet m f arg 1
      return callStore answer f (.exec (arg 0))
  | some .wait => do
      let arg ← argGet m f arg 1
      return callStore answer f (.wait (arg 0))
  | some .create => do
      let arg ← argGet m f arg 1
      return callStore answer f (.create (arg 0) (arg 1))
  | some .remove => do
      let arg ← argGet m f arg 1
      return callStore answer f (.remove (arg 0))
  | some .open => do
      let arg ← argGet m f arg 1
      return callStore answer f (.open (arg 0))
  | some .filesize => do
      let arg ← argGet m f arg 1
      return callStore answer f (.filesize (arg 0))
  | some .read => do
      let arg ← argGet m f arg 1
      return callStore answer f (.read (arg 0) (arg 1) (arg 2))
  | some .write => do
      let arg ← argGet m f arg 1
      return call f (.write (arg 0) (arg 1) (arg 2))
  | some .seek => do
      let arg ← argGet m f arg 1
      return call f (.seek (arg 0) (arg 1))
  | some .tell => do
      let arg ← argGet m f arg 1
      return callStore answer f (.tell (arg 0))

/-! ## What the user asks for -/

/-- The call of a case, with the words behind its number as arguments. -/
def requested (m : UserMemory) (f : IntrFrame) : Syscall → Option (Request UInt32)
  | .halt => some .halt
  | .exit => return .exit (← argument m f 0)
  | .exec => return .exec (← argument m f 0)
  | .wait => return .wait (← argument m f 0)
  | .create => return .create (← argument m f 0) (← argument m f 1)
  | .remove => return .remove (← argument m f 0)
  | .open => return .open (← argument m f 0)
  | .filesize => return .filesize (← argument m f 0)
  | .read => return .read (← argument m f 0) (← argument m f 1) (← argument m f 2)
  | .write => return .write (← argument m f 0) (← argument m f 1) (← argument m f 2)
  | .seek => return .seek (← argument m f 0) (← argument m f 1)
  | .tell => return .tell (← argument m f 0)

/-- The call that the user stack asks for; there is none for a number without a case. -/
def request (number : UInt32 → Option Syscall) (m : UserMemory) (f : IntrFrame) :
    Option (Option (Request UInt32)) := do
  let nr ← word m f.esp
  match number nr with
  | none => return none
  | some c => return some (← requested m f c)

section

variable (number : UInt32 → Option Syscall) (answer : Request UInt32 → Option UInt32)
  (m : UserMemory) (f : IntrFrame)

/-- `syscall_handler` with some contents of `arg`. -/
def handles (contents : Fin maxArgs → UInt32) : Option Handled :=
  syscallHandler number answer m f (uninitialised contents)

/-- What is called depends only on what the user asks for, and the answer gets to the
user. -/
structure RequestOnly : Prop where
  same : ∀ contents contents',
    handles number answer m f contents = handles number answer m f contents'
  calls : ∀ contents, (handles number answer m f contents).map
    (fun r => r.called.map (·.map (·.value))) = request number m f
  fetched : ∀ contents r q, handles number answer m f contents = some r → r.called = some q →
    ∀ w ∈ q.args, w.fetched = true
  eax : ∀ contents r q v, handles number answer m f contents = some r → r.called = some q →
    q.hasResult = true → answer (q.map (·.value)) = some v → r.frame.eax = v

end

/-- How many arguments a function has. -/
def Syscall.argCount : Syscall → ℕ
  | .halt => 0
  | .exit | .exec | .wait | .remove | .open | .filesize | .tell => 1
  | .create | .seek => 2
  | .read | .write => 3

/-- A function with several arguments is called, while only the first has been fetched. -/
def FetchesTooFew (number : UInt32 → Option Syscall) (m : UserMemory) (f : IntrFrame) : Prop :=
  ∃ nr c w, word m f.esp = some nr ∧ number nr = some c ∧ 1 < c.argCount ∧ argument m f 0 = some w

variable {α : Type} {number : UInt32 → Option Syscall} {answer : Request UInt32 → Option UInt32}
  {m : UserMemory} {f : IntrFrame} {arg : Args} {a : Fin maxArgs → α} {c : Syscall} {nr w : UInt32}
  {q : Request Word} {r : Handled} {contents : Fin maxArgs → UInt32}

/-! ## One case -/

/-- The call that a case makes of the elements of `arg`. -/
def Syscall.request (a : Fin maxArgs → α) : Syscall → Request α
  | .halt => .halt
  | .exit => .exit (a 0)
  | .exec => .exec (a 0)
  | .wait => .wait (a 0)
  | .create => .create (a 0) (a 1)
  | .remove => .remove (a 0)
  | .open => .open (a 0)
  | .filesize => .filesize (a 0)
  | .read => .read (a 0) (a 1) (a 2)
  | .write => .write (a 0) (a 1) (a 2)
  | .seek => .seek (a 0) (a 1)
  | .tell => .tell (a 0)

/-- A case stores what the function returns. -/
def Syscall.stores : Syscall → Bool
  | .halt | .exit | .write | .seek => false
  | .exec | .wait | .create | .remove | .open | .filesize | .read | .tell => true

/-- What a case does with its call. -/
def Syscall.handle (answer : Request UInt32 → Option UInt32) (f : IntrFrame) (c : Syscall)
    (q : Request Word) : Handled :=
  if c.stores then callStore answer f q else call f q

theorem argGet_one : argGet m f arg 1 =
    (argument m f 0).map fun w => Function.update arg 0 ⟨w, true⟩ := by
  unfold argGet argGetLoop
  cases argument m f 0 with
  | none => rfl
  | some w => rfl

/-- Every case but the one of `halt` fetches one argument. -/
theorem syscallHandler_eq (hnr : word m f.esp = some nr) (hc : number nr = some c)
    (hne : c ≠ .halt) : syscallHandler number answer m f arg = (argument m f 0).map fun w =>
      c.handle answer f (c.request (Function.update arg 0 ⟨w, true⟩)) := by
  unfold syscallHandler
  rw [hnr]
  dsimp only [bind, Option.bind]
  rw [hc, argGet_one]
  cases argument m f 0 with
  | none =>
      cases c with
      | halt => exact absurd rfl hne
      | _ => rfl
  | some w =>
      cases c with
      | halt => exact absurd rfl hne
      | _ => rfl

theorem called_handle : (c.handle answer f q).called = some q := by
  unfold Syscall.handle callStore
  split
  · split
    · rfl
    · rfl
  · rfl

/-- What was returned is in `eax` if the case stores it. -/
theorem eax_handle {v : UInt32} (hv : answer (q.map (·.value)) = some v) :
    (c.handle answer f q).frame.eax = if c.stores then v else f.eax := by
  unfold Syscall.handle callStore
  split
  · rw [hv]
  · rfl

/-! ## The arguments of a function -/

theorem map_request {β : Type} (g : α → β) : (c.request a).map g = c.request fun i => g (a i) := by
  cases c with
  | _ => rfl

theorem mem_args_request {x : α} (h : x ∈ (c.request a).args) : ∃ i, x = a i := by
  cases c with
  | halt => cases h
  | create | seek =>
      rcases List.mem_pair.mp h with rfl | rfl
      · exact ⟨0, rfl⟩
      · exact ⟨1, rfl⟩
  | read | write =>
      rcases List.mem_cons.mp h with rfl | h
      · exact ⟨0, rfl⟩
      · rcases List.mem_pair.mp h with rfl | rfl
        · exact ⟨1, rfl⟩
        · exact ⟨2, rfl⟩
  | _ => exact ⟨0, List.mem_singleton.mp h⟩

/-- The second argument, of a function that has one. -/
theorem second_mem_args (h : 1 < c.argCount) : a 1 ∈ (c.request a).args := by
  cases c with
  | create | read | write | seek => exact List.mem_cons_of_mem _ List.mem_cons_self
  | _ => exact absurd h (by decide)

/-- A function with at most one argument does not see the rest of `arg`. -/
theorem request_update (h : c.argCount ≤ 1) (w : α) :
    c.request (Function.update a 0 w) = c.request fun _ => w := by
  cases c with
  | create | read | write | seek => exact absurd h (by decide)
  | _ => rfl

theorem requested_eq (h : c.argCount ≤ 1) (hne : c ≠ .halt) :
    requested m f c = (argument m f 0).map fun w => c.request fun _ => w := by
  unfold requested
  cases argument m f 0 with
  | none =>
      cases c with
      | halt => exact absurd rfl hne
      | create | read | write | seek => exact absurd h (by decide)
      | _ => rfl
  | some w =>
      cases c with
      | halt => exact absurd rfl hne
      | create | read | write | seek => exact absurd h (by decide)
      | _ => rfl

/-- Its result is stored if it has one. -/
theorem stores_of_hasResult (h : c.argCount ≤ 1) (hresult : (c.request a).hasResult = true) :
    c.stores = true := by
  cases c with
  | halt | exit | seek => cases hresult
  | write => exact absurd h (by decide)
  | _ => rfl

/-! ## All cases -/

theorem handles_halt (hnr : word m f.esp = some nr) (hc : number nr = some .halt)
    (contents : Fin maxArgs → UInt32) :
    handles number answer m f contents = some (call f .halt) := by
  unfold handles syscallHandler
  rw [hnr]
  dsimp only [bind, Option.bind]
  rw [hc]
  rfl

theorem handles_eq (hnr : word m f.esp = some nr) (hc : number nr = some c)
    (h : c.argCount ≤ 1) (hne : c ≠ .halt) (contents : Fin maxArgs → UInt32) :
    handles number answer m f contents =
      ((argument m f 0).map fun w => c.request fun _ => ⟨w, true⟩).map (c.handle answer f) := by
  unfold handles
  rw [syscallHandler_eq hnr hc hne, Option.map_map]
  simp only [request_update h]
  rfl

theorem request_eq (hnr : word m f.esp = some nr) (hc : number nr = some c) :
    request number m f = (requested m f c).map some := by
  unfold request
  rw [hnr]
  dsimp only [bind, Option.bind]
  rw [hc]
  dsimp only
  cases requested m f c with
  | none => rfl
  | some q => rfl

/-- A case meets the user's request if its call does not depend on the contents of `arg`. -/
theorem requestOnly_of_handled {o : Option (Request Word)}
    (hall : ∀ contents, handles number answer m f contents = o.map (c.handle answer f))
    (hcalls : request number m f = o.map fun q => some (q.map (·.value)))
    (hfetched : ∀ q, o = some q → ∀ w ∈ q.args, w.fetched = true)
    (hstores : ∀ q, o = some q → q.hasResult = true → c.stores = true) :
    RequestOnly number answer m f := by
  -- what is called is what `o` has
  have hcalled : ∀ contents r q, handles number answer m f contents = some r →
      r.called = some q → o = some q ∧ r = c.handle answer f q := by
    intro contents r q hr hq
    rw [hall] at hr
    obtain ⟨q', ho, rfl⟩ := Option.map_eq_some_iff.mp hr
    rw [called_handle] at hq
    obtain rfl := Option.some.inj hq
    exact ⟨ho, rfl⟩
  constructor
  case same =>
    intro contents contents'
    rw [hall, hall]
  case calls =>
    intro contents
    rw [hall, hcalls, Option.map_map]
    congr 1
    funext q
    show (c.handle answer f q).called.map _ = _
    rw [called_handle]
    rfl
  case fetched =>
    intro contents r q hr hq
    exact hfetched q (hcalled contents r q hr hq).1
  case eax =>
    intro contents r q v hr hq hresult hv
    obtain ⟨ho, rfl⟩ := hcalled contents r q hr hq
    rw [eax_handle hv, if_pos (hstores q ho hresult)]

/-- A function with at most one argument gets what the user asks for. -/
theorem requestOnly_of_few (hnr : word m f.esp = some nr) (hc : number nr = some c)
    (h : c.argCount ≤ 1) : RequestOnly number answer m f := by
  by_cases hne : c = .halt
  · subst hne
    refine requestOnly_of_handled (c := .halt) (o := some .halt) (handles_halt hnr hc)
      (request_eq hnr hc) ?_ ?_
    · intro q hq w hw
      cases hq
      cases hw
    · intro q hq hresult
      cases hq
      cases hresult
  · refine requestOnly_of_handled (handles_eq hnr hc h hne) ?_ ?_ ?_
    · rw [request_eq hnr hc, requested_eq h hne, Option.map_map, Option.map_map]
      congr 1
      funext w
      show some (c.request fun _ => w) = some ((c.request fun _ => (⟨w, true⟩ : Word)).map _)
      rw [map_request]
    · intro q hq x hx
      obtain ⟨w, -, rfl⟩ := Option.map_eq_some_iff.mp hq
      obtain ⟨i, rfl⟩ := mem_args_request hx
      rfl
    · intro q hq hresult
      obtain ⟨w, -, rfl⟩ := Option.map_eq_some_iff.mp hq
      exact stores_of_hasResult h hresult

/-- Nothing is called, and nothing is asked for. -/
theorem requestOnly_of_uncalled {o : Option Unit}
    (hall : ∀ contents, handles number answer m f contents =
      o.map fun _ => { called := none, frame := f })
    (hcalls : request number m f = o.map fun _ => none) : RequestOnly number answer m f := by
  have hcalled : ∀ contents r q, handles number answer m f contents = some r →
      r.called ≠ some q := by
    intro contents r q hr
    rw [hall] at hr
    obtain ⟨-, -, rfl⟩ := Option.map_eq_some_iff.mp hr
    intro hno
    cases hno
  constructor
  case same =>
    intro contents contents'
    rw [hall, hall]
  case calls =>
    intro contents
    rw [hall, hcalls, Option.map_map]
    rfl
  case fetched =>
    intro contents r q hr hq
    exact absurd hq (hcalled contents r q hr)
  case eax =>
    intro contents r q v hr hq
    exact absurd hq (hcalled contents r q hr)

/-- The second argument of a function comes from the stack of the kernel. -/
theorem not_requestOnly (h : FetchesTooFew number m f) : ¬ RequestOnly number answer m f := by
  obtain ⟨nr, c, w, hnr, hc, hcount, harg⟩ := h
  intro honly
  have hne : c ≠ .halt := by
    rintro rfl
    exact absurd hcount (by decide)
  let arg := uninitialised fun _ => 0
  have hr : handles number answer m f (fun _ => 0) =
      some (c.handle answer f (c.request (Function.update arg 0 ⟨w, true⟩))) := by
    unfold handles
    rw [syscallHandler_eq hnr hc hne, harg]
    rfl
  have hfetched := honly.fetched _ _ _ hr called_handle _ (second_mem_args hcount)
  cases hfetched

theorem requested_of_none (harg : argument m f 0 = none) (h : 1 < c.argCount) :
    requested m f c = none := by
  unfold requested
  rw [harg]
  cases c with
  | create | read | write | seek => rfl
  | _ => exact absurd h (by decide)

/-- What `syscall_handler` calls depends only on the user's request, and the answer gets to
the user, unless a function with several arguments is called. -/
theorem dispatch_request_only : RequestOnly number answer m f ↔ ¬ FetchesTooFew number m f := by
  constructor
  · exact fun honly h => not_requestOnly h honly
  · intro h
    cases hnr : word m f.esp with
    | none =>
        refine requestOnly_of_uncalled (o := none) (fun contents => ?_) ?_
        · unfold handles syscallHandler
          rw [hnr]
          rfl
        · unfold request
          rw [hnr]
          rfl
    | some nr =>
        cases hc : number nr with
        | none =>
            refine requestOnly_of_uncalled (o := some ()) (fun contents => ?_) ?_
            · unfold handles syscallHandler
              rw [hnr]
              dsimp only [bind, Option.bind]
              rw [hc]
              rfl
            · unfold request
              rw [hnr]
              dsimp only [bind, Option.bind]
              rw [hc]
              rfl
        | some c =>
            rcases Nat.lt_or_ge 1 c.argCount with hcount | hcount
            · cases harg : argument m f 0 with
              | none =>
                  refine requestOnly_of_uncalled (o := none) (fun contents => ?_) ?_
                  · have hne : c ≠ .halt := by
                      rintro rfl
                      exact absurd hcount (by decide)
                    unfold handles
                    rw [syscallHandler_eq hnr hc hne, harg]
                    rfl
                  · rw [request_eq hnr hc, requested_of_none harg hcount]
                    rfl
              | some w => exact absurd ⟨nr, c, w, hnr, hc, hcount, harg⟩ h
            · exact requestOnly_of_few hnr hc hcount

/-! ## A write -/

/-- The numbers that user programs use. -/
def syscallNr (nr : UInt32) : Option Syscall :=
  [.halt, .exit, .exec, .wait, .create, .remove, .open, .filesize, .read, .write, .seek,
    .tell][nr.toNat]?

def writeFrame : IntrFrame := { esp := 0xbfffffe0, eax := 9 }

/-- `write (1, 0x8048100, 5)`. -/
def writeStack : UserMemory := fun a =>
  ([9, 1, 0x8048100, 5].flatMap Memory.word)[(a - writeFrame.esp).toNat]?

/-- Of a `write` that the user asks for, only the descriptor arrives, and what it returns
does not get to the user. -/
theorem write_misread :
    request syscallNr writeStack writeFrame = some (some (.write 1 0x8048100 5)) ∧
      (∀ v, handles syscallNr (fun _ => some 5) writeStack writeFrame (fun _ => v) =
        some { called := some (.write ⟨1, true⟩ ⟨v, false⟩ ⟨v, false⟩), frame := writeFrame }) ∧
      ¬ RequestOnly syscallNr (fun _ => some 5) writeStack writeFrame := by
  refine ⟨by decide, fun v => ?_, not_requestOnly ⟨9, .write, 1, ?_⟩⟩
  · have hnr : word writeStack writeFrame.esp = some 9 := by decide
    have harg : argument writeStack writeFrame 0 = some 1 := by decide
    unfold handles
    rw [syscallHandler_eq hnr (c := .write) rfl (by decide), harg]
    rfl
  · decide

end Pintos.Project2.Dispatch
