import Pintos.Arguments.Layout
import Pintos.Create.ThreadCreate
import Pintos.Lib.Run
import Pintos.Lib.Tokens

/-! # The pages of a command

`process_execute` of Project 3 copies the command into two pages, `fn_copy` for the new
process and `parsed_fn` for its name. Both are freed through the pointer that `strtok_r`
has returned: `parsed_fn` by `process_execute`, `fn_copy` by `start_process`, or by
`process_execute` if there is no new thread. The two run at the same time.
-/

namespace Pintos.Create

open Arguments (blank)
open Threads (priMin priMax priDefault)
open Tokens
open Vm (Ptr pgSize)
open Wait (tidError)

/-! ## `process_execute` and `start_process` -/

/-- What `process_execute` and `start_process` ask of the page allocator. -/
inductive PageCall where
  | get (page : Ptr)
  | free (page : Option Ptr)
deriving DecidableEq, Repr

/-- Where `process_execute` is: before the first page, after it, after the second one,
after `thread_create`, before it frees `fn_copy` and behind its end. -/
inductive Parent where
  | start
  | copied (fnCopy : Ptr)
  | parsed (fnCopy parsedFn : Ptr)
  | created (fnCopy : Ptr) (parsedFn : Option Ptr) (tid : ℤ)
  | failed (fnCopy : Ptr)
  | returned (tid : ℤ)
  | panicked
deriving DecidableEq, Repr

/-- Where `start_process` is. -/
inductive Child where
  | absent
  | starting (fileName : Ptr)
  | loaded (fileName : Option Ptr)
  | user
  | exited
  | panicked
deriving DecidableEq, Repr

structure State where
  parent : Parent
  child : Child
  kernel : Kernel
  calls : List PageCall

/-- The two pages for the command, what the allocators answer in `thread_create`, the
address of `start_process`, whether `load` succeeds and whether `cp` of the new thread has
been set. -/
structure CommandEnv where
  fnCopy : Option Ptr
  parsedFn : Option Ptr
  thread : Env
  startProcess : Ptr
  load : Bool
  cp : Bool

/-- What `strtok_r` finds in a copy of the command. -/
def firstToken (command : List UInt8) : Strtok UInt8 :=
  strtokR 0 blank (command.take (pgSize - 1)) 0

/-- The pointer that `strtok_r` returns for a copy in `page`. -/
def tokenPtr (command : List UInt8) (page : Ptr) : Option Ptr :=
  (firstToken command).token.map (page + ·)

/-- The name of the new thread. -/
def tokenName (command : List UInt8) : Option (List UInt8) :=
  (firstToken command).token.map (cstring 0 (firstToken command).buf)

/-- The steps of `process_execute`. -/
def processExecute (env : CommandEnv) (command : List UInt8) (s : State) : Option State :=
  match s.parent with
  | .start =>
      match env.fnCopy with
      | none => some { s with parent := .returned tidError }
      | some fnCopy => some { s with
          parent := .copied fnCopy
          calls := s.calls ++ [.get fnCopy] }
  | .copied fnCopy =>
      match env.parsedFn with
      | none => some { s with parent := .returned tidError }
      | some parsedFn => some { s with
          parent := .parsed fnCopy parsedFn
          calls := s.calls ++ [.get parsedFn] }
  | .parsed fnCopy parsedFn =>
      match threadCreate env.thread s.kernel (tokenName command) priDefault
          (some env.startProcess) fnCopy with
      | .error _ => some { s with parent := .panicked }
      | .ok (tid, k) => some { s with
          parent := .created fnCopy (tokenPtr command parsedFn) tid
          child := if tid = tidError then .absent else .starting fnCopy
          kernel := k }
  | .created fnCopy parsedFn tid => some { s with
      parent := if tid = tidError then .failed fnCopy else .returned tid
      calls := s.calls ++ [.free parsedFn] }
  | .failed fnCopy => some { s with
      parent := .returned tidError
      calls := s.calls ++ [.free (some fnCopy)] }
  | .returned _ | .panicked => none

/-- The steps of `start_process`. It stores to `cp` of the new thread. -/
def startProcess (env : CommandEnv) (command : List UInt8) (s : State) : Option State :=
  match s.child with
  | .starting fileName => some { s with child := .loaded (tokenPtr command fileName) }
  | .loaded fileName =>
      if env.cp = false then
        some { s with child := .panicked }
      else
        some { s with
          child := if env.load then .user else .exited
          calls := s.calls ++ [.free fileName] }
  | .absent | .user | .exited | .panicked => none

/-- Which of the two takes a step. -/
inductive Turn where
  | parent
  | child
deriving DecidableEq, Repr

/-- Nobody runs on after a panic. -/
def Step (env : CommandEnv) (command : List UInt8) (s : State) (a : Turn) (s' : State) : Prop :=
  s.parent ≠ .panicked ∧ s.child ≠ .panicked ∧
    match a with
    | .parent => processExecute env command s = some s'
    | .child => startProcess env command s = some s'

/-- `process_execute` is called. -/
def start (k : Kernel) : State := ⟨.start, .absent, k, []⟩

/-! ## Pages are freed -/

/-- The pages that have been obtained, and what has been passed to `palloc_free_page`. -/
def State.gets (s : State) : List Ptr :=
  s.calls.filterMap fun
    | .get page => some page
    | .free _ => none

def State.frees (s : State) : List (Option Ptr) :=
  s.calls.filterMap fun
    | .get _ => none
    | .free page => some page

/-- `process_execute` has returned, and the new process, if there is one, has entered user
mode or exited. -/
def State.Completed (s : State) : Prop :=
  ∃ tid, s.parent = .returned tid ∧ (tid ≠ tidError → s.child = .user ∨ s.child = .exited)

/-- What is freed has been obtained, nothing is freed twice, and at the end everything has
been freed. -/
structure PagesFreed (s : State) : Prop where
  obtained : ∀ p ∈ s.frees, ∃ page ∈ s.gets, p = some page
  once : s.frees.Nodup
  all : s.Completed → ∀ page ∈ s.gets, some page ∈ s.frees

/-- The two pages are pages, and not the same. -/
structure CommandEnv.Fresh (env : CommandEnv) (k : Kernel) : Prop where
  thread : env.thread.Fresh k
  fnCopy : ∀ page ∈ env.fnCopy, page % pgSize = 0
  parsedFn : ∀ page ∈ env.parsedFn, page % pgSize = 0
  apart : ∀ page ∈ env.fnCopy, page ∉ env.parsedFn

/-- The command begins with a token. -/
def BeginsWithToken (command : List UInt8) : Prop :=
  ∃ c s, cstring 0 (command.take (pgSize - 1)) 0 = c :: s ∧ c ≠ blank

/-- The command consists of blanks. -/
def Blank (command : List UInt8) : Prop :=
  ∀ c ∈ cstring 0 (command.take (pgSize - 1)) 0, c = blank

/-- `thread_create` stops the kernel: its name is null, or there is no tid left. -/
def Panics (env : CommandEnv) (k : Kernel) (command : List UInt8) : Prop :=
  env.thread.page ≠ none ∧ (Blank command ∨ k.nextTid = 2 ^ 31 - 1)

/-- The first page cannot be obtained; or the second one can and the command begins with a
token, unless `thread_create` does not return. -/
def CommandFits (env : CommandEnv) (k : Kernel) (command : List UInt8) : Prop :=
  env.fnCopy = none ∨
    env.parsedFn ≠ none ∧ (BeginsWithToken command ∨ Panics env k command)

variable {env : CommandEnv} {k k' : Kernel} {xs : ListName → List Elem} {command : List UInt8}
  {s s' : State} {a : Turn} {f p : Ptr} {as : List Turn}

/-! ## The first token -/

theorem firstToken_token : (firstToken command).token =
    let s := cstring 0 (command.take (pgSize - 1)) 0
    let rest := s.dropWhile (· = blank)
    if rest = [] then none else some (s.length - rest.length) := by
  unfold firstToken strtokR
  dsimp only
  rw [Nat.zero_add]
  split
  next => rfl
  next => split <;> rfl

theorem token_eq_none : (firstToken command).token = none ↔ Blank command := by
  rw [firstToken_token]
  unfold Blank
  dsimp only
  rw [ite_eq_left_iff, List.dropWhile_eq_nil_iff]
  simp only [decide_eq_true_eq, reduceCtorEq, imp_false, not_not]

/-- The token lies within the page, at its start if the command begins with it. -/
theorem token_eq_some {i : ℕ} (h : (firstToken command).token = some i) :
    i < pgSize ∧ (i = 0 ↔ BeginsWithToken command) := by
  rw [firstToken_token] at h
  dsimp only at h
  unfold BeginsWithToken
  have hlength : (cstring 0 (command.take (pgSize - 1)) 0).length ≤ pgSize - 1 := by
    unfold cstring
    refine (List.takeWhile_prefix _).length_le.trans ?_
    rw [List.drop_zero, List.length_take]
    exact Nat.min_le_left ..
  generalize cstring 0 (command.take (pgSize - 1)) 0 = s at h hlength
  split at h
  next => cases h
  next hrest =>
    obtain rfl := Option.some.inj h
    have hpos : 0 < (s.dropWhile (· = blank)).length := List.length_pos_iff.mpr hrest
    have hle := (List.dropWhile_suffix (l := s) (· = blank)).length_le
    refine ⟨by unfold pgSize at *; omega, ?_⟩
    cases s with
    | nil => exact absurd rfl hrest
    | cons c s =>
        constructor
        · intro hzero
          refine ⟨c, s, rfl, ?_⟩
          rintro rfl
          have hdrop : (blank :: s).dropWhile (· = blank) = s.dropWhile (· = blank) :=
            List.dropWhile_cons_of_pos (decide_eq_true rfl)
          have hle' := (List.dropWhile_suffix (l := s) (· = blank)).length_le
          rw [hdrop, List.length_cons] at hzero
          omega
        · rintro ⟨c', s', heq, hc⟩
          obtain ⟨rfl, rfl⟩ := List.cons.inj heq
          rw [List.dropWhile_cons_of_neg (by simpa using hc)]
          exact Nat.sub_self _

/-! ## When `thread_create` returns -/

theorem threadCreate_returns {env : Env} {name : Option (List UInt8)} (h : Consistent k xs)
    (henv : env.Fresh k) (function aux : Ptr) :
    (∃ r, threadCreate env k name priDefault (some function) aux = .ok r) ↔
      env.page = none ∨ name ≠ none ∧ k.nextTid ≠ 2 ^ 31 - 1 := by
  constructor
  · rintro ⟨⟨tid, k'⟩, hr⟩
    cases hpage : env.page with
    | none => exact .inl rfl
    | some t =>
        obtain ⟨-, hname, -, htid⟩ := threadCreate_inv hpage hr
        exact .inr ⟨hname, htid⟩
  · rintro (hpage | ⟨hname, htid⟩)
    · refine ⟨(tidError, k), ?_⟩
      unfold threadCreate
      rw [hpage]
    · cases hpage : env.page with
      | none =>
          refine ⟨(tidError, k), ?_⟩
          unfold threadCreate
          rw [hpage]
      | some t =>
          have ht : k.threads t = none := henv.page t hpage
          have hpriority : priMin ≤ priDefault ∧ priDefault ≤ priMax := by decide
          obtain ⟨name, rfl⟩ := Option.ne_none_iff_exists'.mp hname
          obtain ⟨links, th, -, hblocked, hfamily, -, heq⟩ :=
            threadCreate_linked h hpage ht hpriority htid name function aux
          rw [heq]
          cases hmalloc : env.malloc with
          | none => exact ⟨_, rfl⟩
          | some p =>
              obtain ⟨k', x, hok, -⟩ := finish_ok (function, aux) h ht
                (henv.malloc p hmalloc) hblocked hfamily
              exact ⟨_, hok⟩

/-! ## Every page is freed -/

section Calls

variable {calls : List PageCall} {parent : Parent} {child : Child} {q : Option Ptr}

@[simp] theorem gets_get :
    (State.mk parent child k (calls ++ [.get p])).gets =
      (State.mk parent child k calls).gets ++ [p] :=
  List.filterMap_append ..

@[simp] theorem gets_free :
    (State.mk parent child k (calls ++ [.free q])).gets = (State.mk parent child k calls).gets :=
  (List.filterMap_append ..).trans (List.append_nil _)

@[simp] theorem frees_get :
    (State.mk parent child k (calls ++ [.get p])).frees = (State.mk parent child k calls).frees :=
  (List.filterMap_append ..).trans (List.append_nil _)

@[simp] theorem frees_free :
    (State.mk parent child k (calls ++ [.free q])).frees =
      (State.mk parent child k calls).frees ++ [q] :=
  List.filterMap_append ..

end Calls

/-- `start_process` frees `fn_copy`, after `rest`. -/
def ChildFrees (command : List UInt8) (f : Ptr) (rest frees : List (Option Ptr)) : Child → Prop
  | .absent => False
  | .starting fileName =>
      fileName = f ∧ tokenPtr command f = some f ∧ frees.Perm rest
  | .loaded fileName => fileName = some f ∧ frees.Perm rest
  | .user | .exited => frees.Perm (some f :: rest)
  | .panicked => frees.Perm rest

/-- `process_execute` frees a page meanwhile. -/
theorem ChildFrees.free {child : Child} {frees : List (Option Ptr)} {q : Option Ptr}
    (h : ChildFrees command f [] frees child) : ChildFrees command f [q] (frees ++ [q]) child := by
  cases child with
  | absent => exact h
  | starting fileName => exact ⟨h.1, h.2.1, h.2.2.append_right [q]⟩
  | loaded fileName => exact ⟨h.1, h.2.append_right [q]⟩
  | user => exact List.Perm.append_right [q] h
  | exited => exact List.Perm.append_right [q] h
  | panicked => exact List.Perm.append_right [q] h

/-- What has been freed when; both pages have been obtained and the command begins with a
token. -/
def Inv (command : List UInt8) (k : Kernel) (f p : Ptr) (s : State) : Prop :=
  match s.parent with
  | .start => s.kernel = k ∧ s.child = .absent ∧ s.gets = [] ∧ s.frees = []
  | .copied f' => f' = f ∧ s.kernel = k ∧ s.child = .absent ∧ s.gets = [f] ∧ s.frees = []
  | .parsed f' p' =>
      f' = f ∧ p' = p ∧ s.kernel = k ∧ s.child = .absent ∧ s.gets = [f, p] ∧ s.frees = []
  | .created f' q tid => f' = f ∧ q = some p ∧ s.gets = [f, p] ∧
      (tid = tidError ∧ s.child = .absent ∧ s.frees = [] ∨
        tid ≠ tidError ∧ ChildFrees command f [] s.frees s.child)
  | .failed f' => f' = f ∧ s.child = .absent ∧ s.gets = [f, p] ∧ s.frees = [some p]
  | .returned tid => s.gets = [f, p] ∧
      (tid = tidError ∧ s.child = .absent ∧ s.frees = [some p, some f] ∨
        tid ≠ tidError ∧ ChildFrees command f [some p] s.frees s.child)
  | .panicked => s.child = .absent ∧ s.gets = [f, p] ∧ s.frees = []

/-- A step of `process_execute`. -/
theorem Inv.parent (h : Inv command k f p s) (hf : env.fnCopy = some f)
    (hp : env.parsedFn = some p)
    (hok : ∀ r, threadCreate env.thread k (tokenName command) priDefault
      (some env.startProcess) f = .ok r → (firstToken command).token = some 0)
    (hs : processExecute env command s = some s') : Inv command k f p s' := by
  obtain ⟨parent, child, kernel, calls⟩ := s
  unfold processExecute at hs
  cases parent with
  | start =>
      obtain ⟨rfl, rfl, hgets, hfrees⟩ := h
      dsimp only at hs
      rw [hf] at hs
      cases hs
      refine ⟨rfl, rfl, rfl, ?_, ?_⟩
      · rw [gets_get]
        exact congrArg (· ++ [f]) hgets
      · rw [frees_get]
        exact hfrees
  | copied f' =>
      obtain ⟨rfl, rfl, rfl, hgets, hfrees⟩ := h
      dsimp only at hs
      rw [hp] at hs
      cases hs
      refine ⟨rfl, rfl, rfl, rfl, ?_, ?_⟩
      · rw [gets_get]
        exact congrArg (· ++ [p]) hgets
      · rw [frees_get]
        exact hfrees
  | parsed f' p' =>
      obtain ⟨rfl, rfl, rfl, rfl, hgets, hfrees⟩ := h
      dsimp only at hs
      split at hs
      next =>
        cases hs
        exact ⟨rfl, hgets, hfrees⟩
      next tid k' hr =>
        have htoken := hok _ hr
        have hptr : ∀ page, tokenPtr command page = some page := by
          intro page
          unfold tokenPtr
          rw [htoken]
          rfl
        cases hs
        refine ⟨rfl, hptr p', hgets, ?_⟩
        by_cases htid : tid = tidError
        · exact .inl ⟨htid, if_pos htid, hfrees⟩
        · refine .inr ⟨htid, ?_⟩
          show ChildFrees command f' [] _ (if tid = tidError then _ else _)
          rw [if_neg htid]
          exact ⟨rfl, hptr f', List.Perm.of_eq hfrees⟩
  | created f' q tid =>
      obtain ⟨rfl, rfl, hgets, hcases⟩ := h
      cases hs
      rcases hcases with ⟨rfl, rfl, hfrees⟩ | ⟨htid, hchild⟩
      · refine ⟨rfl, rfl, ?_, ?_⟩
        · rw [gets_free]
          exact hgets
        · rw [frees_free]
          exact congrArg (· ++ [some p]) hfrees
      · rw [if_neg htid]
        refine ⟨?_, .inr ⟨htid, ?_⟩⟩
        · rw [gets_free]
          exact hgets
        · rw [frees_free]
          exact hchild.free
  | failed f' =>
      obtain ⟨rfl, rfl, hgets, hfrees⟩ := h
      cases hs
      refine ⟨?_, .inl ⟨rfl, rfl, ?_⟩⟩
      · rw [gets_free]
        exact hgets
      · rw [frees_free]
        exact congrArg (· ++ [some f']) hfrees
  | returned tid => cases hs
  | panicked => cases hs

theorem ChildFrees.step {rest : List (Option Ptr)}
    (h : ChildFrees command f rest s.frees s.child) (hs : startProcess env command s = some s') :
    ChildFrees command f rest s'.frees s'.child ∧ s'.parent = s.parent ∧ s'.gets = s.gets := by
  obtain ⟨parent, child, kernel, calls⟩ := s
  unfold startProcess at hs
  cases child with
  | starting fileName =>
      obtain ⟨rfl, hptr, hfrees⟩ := h
      cases hs
      exact ⟨⟨hptr, hfrees⟩, rfl, rfl⟩
  | loaded fileName =>
      obtain ⟨rfl, hfrees⟩ := h
      dsimp only at hs
      split at hs
      next =>
        cases hs
        exact ⟨hfrees, rfl, rfl⟩
      next =>
        cases hs
        have hperm : (State.mk parent .user kernel (calls ++ [.free (some f)])).frees.Perm
            (some f :: rest) := by
          rw [frees_free]
          exact (hfrees.append_right [some f]).trans (List.perm_append_singleton ..)
        refine ⟨?_, rfl, gets_free⟩
        dsimp only
        split
        next => exact hperm
        next => exact hperm
  | absent => cases hs
  | user => cases hs
  | exited => cases hs
  | panicked => cases hs

/-- A step of `start_process`. -/
theorem Inv.child (h : Inv command k f p s) (hs : startProcess env command s = some s') :
    Inv command k f p s' := by
  have hpresent : s.child ≠ .absent := by
    intro habsent
    unfold startProcess at hs
    rw [habsent] at hs
    cases hs
  unfold Inv at h ⊢
  cases hparent : s.parent with
  | created f' q tid =>
      rw [hparent] at h
      obtain ⟨rfl, rfl, hgets, ⟨-, habsent, -⟩ | ⟨htid, hchild⟩⟩ := h
      · exact absurd habsent hpresent
      · obtain ⟨hchild', hsame, hgets'⟩ := hchild.step hs
        rw [hsame, hparent]
        exact ⟨rfl, rfl, hgets'.trans hgets, .inr ⟨htid, hchild'⟩⟩
  | returned tid =>
      rw [hparent] at h
      obtain ⟨hgets, ⟨-, habsent, -⟩ | ⟨htid, hchild⟩⟩ := h
      · exact absurd habsent hpresent
      · obtain ⟨hchild', hsame, hgets'⟩ := hchild.step hs
        rw [hsame, hparent]
        exact ⟨hgets'.trans hgets, .inr ⟨htid, hchild'⟩⟩
  | start =>
      rw [hparent] at h
      exact absurd h.2.1 hpresent
  | copied f' =>
      rw [hparent] at h
      exact absurd h.2.2.1 hpresent
  | parsed f' p' =>
      rw [hparent] at h
      exact absurd h.2.2.2.1 hpresent
  | failed f' =>
      rw [hparent] at h
      exact absurd h.2.1 hpresent
  | panicked =>
      rw [hparent] at h
      exact absurd h.1 hpresent

theorem ChildFrees.perm {rest frees : List (Option Ptr)} {child : Child}
    (h : ChildFrees command f rest frees child) :
    (frees.Perm rest ∨ frees.Perm (some f :: rest)) ∧
      (child = .user ∨ child = .exited → frees.Perm (some f :: rest)) := by
  cases child with
  | absent => exact h.elim
  | starting fileName => exact ⟨.inl h.2.2, by rintro (hno | hno) <;> cases hno⟩
  | loaded fileName => exact ⟨.inl h.2, by rintro (hno | hno) <;> cases hno⟩
  | user => exact ⟨.inr h, fun _ => h⟩
  | exited => exact ⟨.inr h, fun _ => h⟩
  | panicked => exact ⟨.inl h, by rintro (hno | hno) <;> cases hno⟩

/-- Both pages have been obtained and the pages of `l` freed. -/
theorem pagesFreed_of_perm {l : List (Option Ptr)} (hgets : s.gets = [f, p])
    (hperm : s.frees.Perm l) (hnodup : l.Nodup) (hsub : ∀ q ∈ l, q = some f ∨ q = some p)
    (hall : s.Completed → some f ∈ l ∧ some p ∈ l) : PagesFreed s := by
  constructor
  · intro q hq
    rw [hgets]
    rcases hsub q (hperm.mem_iff.mp hq) with rfl | rfl
    · exact ⟨f, List.mem_cons_self, rfl⟩
    · exact ⟨p, List.mem_cons_of_mem _ (List.mem_singleton_self p), rfl⟩
  · exact hperm.nodup_iff.mpr hnodup
  · intro hdone page hpage
    rw [hgets] at hpage
    rw [hperm.mem_iff]
    rcases List.mem_pair.mp hpage with rfl | rfl
    · exact (hall hdone).1
    · exact (hall hdone).2

/-- Nothing has been freed yet. -/
theorem pagesFreed_of_nil (hfrees : s.frees = []) (hdone : ¬ s.Completed) : PagesFreed s := by
  constructor
  · rw [hfrees]
    exact fun _ hq => absurd hq List.not_mem_nil
  · rw [hfrees]
    exact List.nodup_nil
  · exact fun hc => absurd hc hdone

theorem not_completed {x : Parent} (hparent : s.parent = x) (hx : ∀ tid, x ≠ .returned tid) :
    ¬ s.Completed := by
  rintro ⟨tid, hret, -⟩
  exact hx tid (hparent.symm.trans hret)

/-- So the pages are freed in the end, and nothing else is. -/
theorem Inv.pagesFreed (h : Inv command k f p s) (hne : f ≠ p) : PagesFreed s := by
  have hnodup : [some f, some p].Nodup := by
    rw [List.nodup_cons, List.mem_singleton]
    exact ⟨fun heq => hne (Option.some.inj heq), List.nodup_singleton _⟩
  have hsub : ∀ q ∈ [some f, some p], q = some f ∨ q = some p := fun q hq => List.mem_pair.mp hq
  unfold Inv at h
  cases hparent : s.parent with
  | start =>
      rw [hparent] at h
      exact pagesFreed_of_nil h.2.2.2 (not_completed hparent nofun)
  | copied f' =>
      rw [hparent] at h
      exact pagesFreed_of_nil h.2.2.2.2 (not_completed hparent nofun)
  | parsed f' p' =>
      rw [hparent] at h
      exact pagesFreed_of_nil h.2.2.2.2.2 (not_completed hparent nofun)
  | panicked =>
      rw [hparent] at h
      exact pagesFreed_of_nil h.2.2 (not_completed hparent nofun)
  | created f' q tid =>
      rw [hparent] at h
      obtain ⟨rfl, rfl, hgets, hcases⟩ := h
      have hdone : ¬ s.Completed := not_completed hparent nofun
      rcases hcases with ⟨-, -, hfrees⟩ | ⟨-, hchild⟩
      · exact pagesFreed_of_nil hfrees hdone
      · rcases hchild.perm.1 with hperm | hperm
        · exact pagesFreed_of_nil (List.perm_nil.mp hperm) hdone
        · refine pagesFreed_of_perm hgets hperm (List.nodup_singleton _) ?_
            (fun hc => absurd hc hdone)
          exact fun q hq => .inl (List.mem_singleton.mp hq)
  | failed f' =>
      rw [hparent] at h
      obtain ⟨rfl, -, hgets, hfrees⟩ := h
      refine pagesFreed_of_perm hgets (List.Perm.of_eq hfrees) (List.nodup_singleton _) ?_ ?_
      · exact fun q hq => .inr (List.mem_singleton.mp hq)
      · exact fun hdone => absurd hdone (not_completed hparent nofun)
  | returned tid =>
      rw [hparent] at h
      obtain ⟨hgets, ⟨-, -, hfrees⟩ | ⟨htid, hchild⟩⟩ := h
      · have hperm : s.frees.Perm [some f, some p] := by
          rw [hfrees]
          exact List.Perm.swap ..
        exact pagesFreed_of_perm hgets hperm hnodup hsub
          fun _ => ⟨List.mem_cons_self, List.mem_cons_of_mem _ (List.mem_singleton_self _)⟩
      · obtain ⟨hsome, hboth⟩ := hchild.perm
        rcases hsome with hperm | hperm
        · refine pagesFreed_of_perm hgets hperm (List.nodup_singleton _) ?_ ?_
          · exact fun q hq => .inr (List.mem_singleton.mp hq)
          · rintro ⟨tid', hret, hend⟩
            obtain rfl := Parent.returned.inj (hparent.symm.trans hret)
            have hlen := (hperm.symm.trans (hboth (hend htid))).length_eq
            cases hlen
        · exact pagesFreed_of_perm hgets hperm hnodup hsub
            fun _ => ⟨List.mem_cons_self, List.mem_cons_of_mem _ (List.mem_singleton_self _)⟩

/-! ## The result -/

theorem tokenName_eq_none : tokenName command = none ↔ Blank command := by
  unfold tokenName
  rw [Option.map_eq_none_iff, token_eq_none]

/-- If `thread_create` returns, the command begins with a token. -/
theorem token_eq_zero {r : ℤ × Kernel} (h : Consistent k xs) (henv : env.thread.Fresh k)
    (hfits : BeginsWithToken command ∨ Panics env k command)
    (hr : threadCreate env.thread k (tokenName command) priDefault (some env.startProcess) f =
      .ok r) : (firstToken command).token = some 0 := by
  rcases hfits with hbegins | ⟨hpage, hpanics⟩
  · cases htoken : (firstToken command).token with
    | none =>
        obtain ⟨c, s, hs, hc⟩ := hbegins
        have hblank := token_eq_none.mp htoken c (by rw [hs]; exact List.mem_cons_self)
        exact absurd hblank hc
    | some i => rw [(token_eq_some htoken).2.mpr hbegins]
  · rcases (threadCreate_returns h henv _ _).mp ⟨r, hr⟩ with hno | ⟨hname, htid⟩
    · exact absurd hno hpage
    · rcases hpanics with hblank | hlast
      · exact absurd (tokenName_eq_none.mpr hblank) hname
      · exact absurd hlast htid

/-- Without the first page there is nothing to free. -/
theorem pagesFreed_of_none (hnone : env.fnCopy = none)
    (hrun : Lts.Run (Step env command) (start k) as s) : PagesFreed s := by
  have hinv : s.child = .absent ∧ (s.parent = .start ∨ s.parent = .returned tidError) ∧
      s.calls = [] := by
    refine hrun.invariant (P := fun x => x.child = .absent ∧
      (x.parent = .start ∨ x.parent = .returned tidError) ∧ x.calls = []) ?_ ⟨rfl, .inl rfl, rfl⟩
    rintro x a y ⟨-, -, hstep⟩ ⟨hchild, hparent, hcalls⟩
    cases a with
    | parent =>
        dsimp only at hstep
        unfold processExecute at hstep
        rcases hparent with hparent | hparent
        · rw [hparent, hnone] at hstep
          cases hstep
          exact ⟨hchild, .inr rfl, hcalls⟩
        · rw [hparent] at hstep
          cases hstep
    | child =>
        dsimp only at hstep
        unfold startProcess at hstep
        rw [hchild] at hstep
        cases hstep
  have hgets : s.gets = [] := by
    unfold State.gets
    rw [hinv.2.2]
    rfl
  have hfrees : s.frees = [] := by
    unfold State.frees
    rw [hinv.2.2]
    rfl
  constructor
  · rw [hfrees]
    exact fun _ hq => absurd hq List.not_mem_nil
  · rw [hfrees]
    exact List.nodup_nil
  · rw [hgets]
    exact fun _ _ hpage => absurd hpage List.not_mem_nil

theorem pagesFreed_of_fits (h : Consistent k xs) (henv : env.Fresh k)
    (hfits : CommandFits env k command) (hrun : Lts.Run (Step env command) (start k) as s) :
    PagesFreed s := by
  rcases hfits with hnone | ⟨hsome, hfits⟩
  · exact pagesFreed_of_none hnone hrun
  · cases hf : env.fnCopy with
    | none => exact pagesFreed_of_none hf hrun
    | some f =>
        obtain ⟨p, hp⟩ := Option.ne_none_iff_exists'.mp hsome
        have hne : f ≠ p := by
          rintro rfl
          exact henv.apart f hf hp
        have hinv : Inv command k f p s := by
          refine hrun.invariant (P := Inv command k f p) ?_ ⟨rfl, rfl, rfl, rfl⟩
          rintro x a y ⟨-, -, hstep⟩ hx
          cases a with
          | parent =>
              exact hx.parent hf hp (fun r hr => token_eq_zero h henv.thread hfits hr) hstep
          | child => exact hx.child hstep
        exact hinv.pagesFreed hne

/-- The first step obtains a page. -/
theorem step_first (command : List UInt8) (k : Kernel) (hf : env.fnCopy = some f) :
    Step env command (start k) .parent ⟨.copied f, .absent, k, [.get f]⟩ := by
  refine ⟨nofun, nofun, ?_⟩
  dsimp only
  unfold processExecute start
  dsimp only
  rw [hf]
  rfl

/-- Without the second page the first one is lost. -/
theorem first_page_lost (command : List UInt8) (k : Kernel) (hf : env.fnCopy = some f)
    (hp : env.parsedFn = none) : ∃ s, Lts.Run (Step env command) (start k) [.parent, .parent] s ∧
      s.parent = .returned tidError ∧ s.gets = [f] ∧ s.frees = [] := by
  have hsecond : Step env command ⟨.copied f, .absent, k, [.get f]⟩ .parent
      ⟨.returned tidError, .absent, k, [.get f]⟩ := by
    refine ⟨nofun, nofun, ?_⟩
    dsimp only
    unfold processExecute
    dsimp only
    rw [hp]
  exact ⟨_, .cons (step_first command k hf) (.single hsecond), rfl, rfl, rfl⟩

/-- If `thread_create` returns, what `strtok_r` has found is freed. -/
theorem token_freed {r : ℤ × Kernel} (hf : env.fnCopy = some f) (hp : env.parsedFn = some p)
    (hr : threadCreate env.thread k (tokenName command) priDefault (some env.startProcess) f =
      .ok r) : ∃ s, Lts.Run (Step env command) (start k) [.parent, .parent, .parent, .parent] s ∧
      s.gets = [f, p] ∧ s.frees = [tokenPtr command p] := by
  obtain ⟨tid, k'⟩ := r
  have hsecond : Step env command ⟨.copied f, .absent, k, [.get f]⟩ .parent
      ⟨.parsed f p, .absent, k, [.get f, .get p]⟩ := by
    refine ⟨nofun, nofun, ?_⟩
    dsimp only
    unfold processExecute
    dsimp only
    rw [hp]
    rfl
  have hthird : Step env command ⟨.parsed f p, .absent, k, [.get f, .get p]⟩ .parent
      ⟨.created f (tokenPtr command p) tid, if tid = tidError then .absent else .starting f, k',
        [.get f, .get p]⟩ := by
    refine ⟨nofun, nofun, ?_⟩
    dsimp only
    unfold processExecute
    dsimp only
    rw [hr]
  have hfourth : Step env command
      ⟨.created f (tokenPtr command p) tid, if tid = tidError then .absent else .starting f, k',
        [.get f, .get p]⟩ .parent
      ⟨if tid = tidError then .failed f else .returned tid,
        if tid = tidError then .absent else .starting f, k',
        [.get f, .get p, .free (tokenPtr command p)]⟩ := by
    refine ⟨nofun, ?_, rfl⟩
    dsimp only
    split <;> exact nofun
  exact ⟨_, .cons (step_first command k hf) (.cons hsecond (.cons hthird (.single hfourth))),
    rfl, rfl⟩

/-- An address within a page is no page. -/
theorem ne_page {i f p : ℕ} (hf : f % pgSize = 0) (hp : p % pgSize = 0) (hlt : i < pgSize)
    (hi : i ≠ 0) : p + i ≠ f ∧ p + i ≠ p := by
  unfold pgSize at hf hp hlt
  constructor
  · omega
  · omega

/-- The pages of the command are freed exactly if the second one can be obtained, unless the
first one cannot, and the command begins with a token, unless `thread_create` panics. -/
theorem command_pages_freed (h : Consistent k xs) (henv : env.Fresh k) :
    (∀ as s, Lts.Run (Step env command) (start k) as s → PagesFreed s) ↔
      CommandFits env k command := by
  constructor
  · intro hall
    by_contra hno
    unfold CommandFits at hno
    rw [not_or, not_and, not_or] at hno
    obtain ⟨hsome, hno⟩ := hno
    obtain ⟨f, hf⟩ := Option.ne_none_iff_exists'.mp hsome
    cases hp : env.parsedFn with
    | none =>
        obtain ⟨s, hrun, hret, hgets, hfrees⟩ := first_page_lost command k hf hp
        have hlost := (hall _ s hrun).all ⟨tidError, hret, fun hne => absurd rfl hne⟩ f (by
          rw [hgets]
          exact List.mem_singleton_self f)
        rw [hfrees] at hlost
        exact List.not_mem_nil hlost
    | some p =>
        obtain ⟨hbegins, hpanics⟩ := hno (by rw [hp]; exact Option.some_ne_none p)
        have hreturns : env.thread.page = none ∨
            tokenName command ≠ none ∧ k.nextTid ≠ 2 ^ 31 - 1 := by
          by_contra hstop
          rw [not_or, not_and_or, not_not, not_not, tokenName_eq_none] at hstop
          exact hpanics hstop
        obtain ⟨r, hr⟩ := (threadCreate_returns h henv.thread _ f).mpr hreturns
        obtain ⟨s, hrun, hgets, hfrees⟩ := token_freed hf hp hr
        obtain ⟨page, hpage, heq⟩ := (hall _ s hrun).obtained (tokenPtr command p) (by
          rw [hfrees]
          exact List.mem_singleton_self _)
        rw [hgets] at hpage
        have hfpage := henv.fnCopy f hf
        have hppage := henv.parsedFn p hp
        unfold tokenPtr at heq
        obtain ⟨i, htoken, rfl⟩ := Option.map_eq_some_iff.mp heq
        obtain ⟨hlt, hzero⟩ := token_eq_some htoken
        have hi : i ≠ 0 := fun hi => hbegins (hzero.mp hi)
        obtain ⟨hne, hne'⟩ := ne_page hfpage hppage hlt hi
        rcases List.mem_pair.mp hpage with hmem | hmem
        · exact hne hmem
        · exact hne' hmem
  · intro hfits as s hrun
    exact pagesFreed_of_fits h henv hfits hrun

/-- Enough memory for everything. -/
def ample : CommandEnv where
  fnCopy := some 40960
  parsedFn := some 45056
  thread := ⟨some 49152, some 200, ⟨fun _ => none, fun _ => none⟩⟩
  startProcess := 7
  load := true
  cp := true

theorem ample_fresh : ∃ k xs, Consistent k xs ∧ ample.Fresh k ∧ k.nextTid = 2 := by
  obtain ⟨k, xs, -, hk, htid, hfree, hnone⟩ :=
    threadInit_consistent ⟨fun _ => none, fun _ => none⟩ 4096
  refine ⟨k, xs, hk, ⟨⟨?_, fun p _ => hnone p⟩, ?_, ?_, ?_⟩, htid⟩
  · intro t ht
    obtain rfl := Option.some.inj ht
    exact hfree _ (by decide)
  · intro page hpage
    obtain rfl := Option.some.inj hpage
    rfl
  · intro page hpage
    obtain rfl := Option.some.inj hpage
    rfl
  · intro page hpage hboth
    obtain rfl := Option.some.inj hpage
    exact absurd hboth (by decide)

/-- For a command with a blank before its token, `palloc_free_page` is called with the
address behind the blank. -/
theorem blank_not_freed : ∃ k xs s, Consistent k xs ∧ ample.Fresh k ∧
    Lts.Run (Step ample [blank, 97]) (start k) [.parent, .parent, .parent, .parent] s ∧
    s.gets = [40960, 45056] ∧ s.frees = [some 45057] ∧ ¬ PagesFreed s := by
  obtain ⟨k, xs, hk, hfresh, htid⟩ := ample_fresh
  have hname : tokenName [blank, 97] ≠ none := by decide
  have hlast : k.nextTid ≠ 2 ^ 31 - 1 := by
    rw [htid]
    decide
  obtain ⟨r, hr⟩ := (threadCreate_returns hk hfresh.thread ample.startProcess 40960).mpr
    (.inr ⟨hname, hlast⟩)
  have hf : ample.fnCopy = some 40960 := rfl
  obtain ⟨s, hrun, hgets, hfrees⟩ := token_freed hf rfl hr
  have htoken : tokenPtr [blank, 97] 45056 = some 45057 := by decide
  rw [htoken] at hfrees
  refine ⟨k, xs, s, hk, hfresh, hrun, hgets, hfrees, fun hfreed => ?_⟩
  obtain ⟨page, hpage, heq⟩ := hfreed.obtained (some 45057) (by
    rw [hfrees]
    exact List.mem_singleton_self _)
  rw [hgets] at hpage
  obtain rfl := Option.some.inj heq
  exact absurd hpage (by decide)

theorem command_pages_freed_run : ∃ k xs, Consistent k xs ∧ ample.Fresh k ∧
    CommandFits ample k [97, blank, 98] ∧
    ∀ as s, Lts.Run (Step ample [97, blank, 98]) (start k) as s → PagesFreed s := by
  obtain ⟨k, xs, hk, hfresh, -⟩ := ample_fresh
  have hfits : CommandFits ample k [97, blank, 98] :=
    .inr ⟨nofun, .inl ⟨97, [blank, 98], by decide, by decide⟩⟩
  exact ⟨k, xs, hk, hfresh, hfits, (command_pages_freed hk hfresh).mpr hfits⟩

end Pintos.Create
