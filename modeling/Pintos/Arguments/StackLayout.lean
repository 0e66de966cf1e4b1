import Pintos.Arguments.SetupStack

/-! # The layout of the stack of Project 3

`setup_stack` gets the tokens of the command line one after the other and pushes
what a program decodes to them; the array `argv` is always large enough. It
fails if one of the allocations does.
-/

namespace Pintos.Arguments

open Memory Tokens
open Vm (pgSize)

variable {env : Env} {t : List UInt8} {ts : List (List UInt8)} {a a' : Args} {s : Stack}
  {argv : List ℕ} {rounds n i : ℕ}

/-! ## The loop over tokens -/

/-- The loop of `setup_stack` over tokens that are known. -/
def pushTokens (env : Env) : List (List UInt8) → Args → Except String (Bool × Args)
  | [], a => .ok (true, a)
  | t :: ts, a => do
      let (more, a) ← pushToken env t a
      if more then pushTokens env ts a else return (false, a)

/-- With enough rounds the loop is over the tokens that `strtok_r` finds. -/
theorem pushTokensLoop_eq {r : Strtok UInt8} (h : r.Yields 0 blank ts) (hr : ts.length ≤ rounds) :
    pushTokensLoop env rounds r a = pushTokens env ts a := by
  induction ts generalizing rounds r a with
  | nil =>
      obtain ⟨token, buf, save⟩ := r
      obtain rfl : token = none := h
      unfold pushTokensLoop
      rfl
  | cons t ts ih =>
      obtain ⟨rounds, rfl⟩ := Nat.exists_eq_succ_of_ne_zero (Nat.ne_of_gt (Nat.lt_of_lt_of_le
        (Nat.succ_pos ts.length) hr))
      have hnext := h.next
      obtain ⟨token, buf, save⟩ := r
      obtain ⟨start, rfl, rfl, -⟩ := h
      unfold pushTokensLoop pushTokens
      refine congrArg _ (funext fun ⟨more, a⟩ => ?_)
      have hloop : pushTokensLoop env rounds (strtokR 0 blank buf save) a = pushTokens env ts a :=
        ih hnext (Nat.le_of_succ_le_succ hr)
      dsimp only
      rw [hloop]

/-- There is room for one more element in `argv`, the size of which is a power of two. -/
structure Args.Room (a : Args) (j : ℕ) : Prop where
  argc : a.argc < a.argvSize
  argv : a.argv.length = a.argvSize
  size : a.argvSize = 2 ^ (j + 1)

/-- Each `realloc` that is needed for `n` more arguments succeeds, with `argc` of them in
an array of `2 ^ (j + 1)` elements. -/
def Env.Grows (env : Env) (argc j n : ℕ) : Prop :=
  ∀ k ≥ j, 2 ^ (k + 1) ≤ argc + n → env.realloc (2 ^ (k + 2)) = true

/-- What the body of the loop does if it goes on. -/
structure Pushed (t : List UInt8) (a a' : Args) : Prop where
  stack : a'.stack = a.stack.push (t ++ [0])
  argc : a'.argc = a.argc + 1
  argv : a'.argv.take a'.argc = a.argv.take a.argc ++ [(a.stack.push (t ++ [0])).esp]

theorem take_set_append {l : List ℕ} {x : ℕ} (hn : n < l.length) :
    (l.set n x).take (n + 1) = l.take n ++ [x] := by
  rw [List.take_succ_eq_append_getElem (by rwa [List.length_set]), List.getElem_set_self,
    List.take_set_of_le le_rfl]

/-- The stack pointer is lowered before the string is copied. -/
theorem lower_put : (s.lower (t.length + 1)).put (t ++ [0]) = s.push (t ++ [0]) := by
  unfold Stack.push
  rw [List.length_append]
  rfl

theorem setArgv_ok (h : i < argv.length) : setArgv argv i n = .ok (argv.set i n) := if_pos h

theorem resize_room (h : n < i) : resize env argv n i = some (argv, i) := if_neg (by omega)

theorem resize_full : resize env argv n n = (realloc env argv (n * 2)).map fun l => (l, n * 2) :=
  if_pos le_rfl

theorem realloc_spec (hn : argv.length ≤ n) (h : env.realloc n = true) :
    ∃ l, realloc env argv n = some (argv ++ l) ∧ (argv ++ l).length = n := by
  unfold realloc
  rw [if_pos h, List.take_of_length_le hn]
  refine ⟨_, rfl, ?_⟩
  rw [List.length_append, List.length_map, List.length_range']
  omega

/-- The body of the loop when there is an element for the token. -/
theorem pushToken_eq (h : a.argc < a.argv.length) :
    pushToken env t a =
      match resize env (a.argv.set a.argc (a.stack.push (t ++ [0])).esp) (a.argc + 1) a.argvSize with
      | none => .ok (false, { a with
          stack := a.stack.lower (t.length + 1), argc := a.argc + 1, argv := [] })
      | some (argv, size) => .ok (true, ⟨a.stack.push (t ++ [0]), a.argc + 1, argv, size⟩) := by
  have hesp : (a.stack.lower (t.length + 1)).esp = (a.stack.push (t ++ [0])).esp := by
    rw [← lower_put]
    rfl
  unfold pushToken
  dsimp only
  rw [setArgv_ok h, hesp]
  dsimp only [bind, Except.bind]
  rw [lower_put]
  rfl

/-- The element is written, and the array is resized if that was the last one. -/
theorem pushToken_spec {j : ℕ} (h : a.Room j) (env : Env) (t : List UInt8) :
    (a.argc + 1 < 2 ^ (j + 1) ∧ ∃ a', pushToken env t a = .ok (true, a') ∧ a'.Room j ∧ Pushed t a a') ∨
    (a.argc + 1 = 2 ^ (j + 1) ∧ env.realloc (2 ^ (j + 2)) = true ∧
      ∃ a', pushToken env t a = .ok (true, a') ∧ a'.Room (j + 1) ∧ Pushed t a a') ∨
    (a.argc + 1 = 2 ^ (j + 1) ∧ env.realloc (2 ^ (j + 2)) = false ∧
      ∃ a', pushToken env t a = .ok (false, a') ∧ a'.stack = a.stack.lower (t.length + 1)) := by
  have hlt : a.argc < a.argv.length := h.argv ▸ h.argc
  have htake := take_set_append (x := (a.stack.push (t ++ [0])).esp) hlt
  have hlen : (a.argv.set a.argc (a.stack.push (t ++ [0])).esp).length = a.argvSize :=
    List.length_set.trans h.argv
  have hargc := h.argc
  rw [pushToken_eq hlt]
  generalize a.argv.set a.argc (a.stack.push (t ++ [0])).esp = argv at htake hlen
  by_cases hroom : a.argc + 1 < a.argvSize
  · left
    rw [resize_room hroom]
    exact ⟨h.size ▸ hroom, _, rfl, ⟨hroom, hlen, h.size⟩, rfl, rfl, htake⟩
  · right
    have hfull : a.argc + 1 = a.argvSize := by omega
    have hsize : a.argc + 1 = 2 ^ (j + 1) := hfull.trans h.size
    have hdouble : (a.argc + 1) * 2 = 2 ^ (j + 2) := by
      rw [hsize]
      exact (pow_succ 2 (j + 1)).symm
    rw [← hfull] at hlen
    rw [← hfull, resize_full, hdouble]
    cases hre : env.realloc (2 ^ (j + 2)) with
    | true =>
        obtain ⟨l, hl, hlen'⟩ := realloc_spec (show argv.length ≤ 2 ^ (j + 2) by omega) hre
        left
        rw [hl]
        refine ⟨hsize, rfl, _, rfl, ⟨?_, hlen', rfl⟩, rfl, rfl, ?_⟩
        · show a.argc + 1 < 2 ^ (j + 2)
          omega
        · show (argv ++ l).take (a.argc + 1) = _
          rw [List.take_append_of_le_length (Nat.le_of_eq hlen.symm), htake]
    | false =>
        right
        have hnone : realloc env argv (2 ^ (j + 2)) = none := if_neg (by rw [hre]; decide)
        rw [hnone]
        exact ⟨hsize, rfl, _, rfl, rfl⟩

/-- What the loop does if it goes on for all tokens. -/
structure PushedAll (ts : List (List UInt8)) (a a' : Args) : Prop where
  room : a'.argc < a'.argv.length
  stack : a'.stack = (a.stack.pushStrings ts).1
  argc : a'.argc = a.argc + ts.length
  argv : a'.argv.take a'.argc = a.argv.take a.argc ++ (a.stack.pushStrings ts).2

theorem Pushed.cons {b : Args} (h : Pushed t a b) (hrest : PushedAll ts b a') :
    PushedAll (t :: ts) a a' := by
  have hstack := hrest.stack
  have hargv := hrest.argv
  rw [h.stack] at hstack hargv
  refine ⟨hrest.room, hstack, ?_, ?_⟩
  · rw [hrest.argc, h.argc, List.length_cons]
    omega
  · rw [hargv, h.argv, List.append_assoc]
    rfl

/-- The loop pushes all tokens if there is memory, and else stops before one of them. -/
def PushesIf (env : Env) (ts : List (List UInt8)) (a : Args) (memory : Prop) : Prop :=
  (memory ∧ ∃ a', pushTokens env ts a = .ok (true, a') ∧ PushedAll ts a a') ∨
  (¬ memory ∧ ∃ a' pre t post, pushTokens env ts a = .ok (false, a') ∧
    ts = pre ++ t :: post ∧ a'.stack = (a.stack.pushStrings pre).1.lower (t.length + 1))

theorem pushTokens_cons {b : Args} (hb : pushToken env t a = .ok (true, b)) :
    pushTokens env (t :: ts) a = pushTokens env ts b := by
  conv_lhs => unfold pushTokens
  rw [hb]
  rfl

theorem pushTokens_stop {b : Args} (hb : pushToken env t a = .ok (false, b)) :
    pushTokens env (t :: ts) a = .ok (false, b) := by
  unfold pushTokens
  rw [hb]
  rfl

theorem PushesIf.cons {b : Args} {memory : Prop} (h : PushesIf env ts b memory)
    (hb : pushToken env t a = .ok (true, b)) (hpushed : Pushed t a b) :
    PushesIf env (t :: ts) a memory := by
  unfold PushesIf
  rw [pushTokens_cons hb]
  obtain ⟨hm, a', ha', hall⟩ | ⟨hm, a', pre, u, post, ha', rfl, hstack⟩ := h
  · exact .inl ⟨hm, a', ha', hpushed.cons hall⟩
  · refine .inr ⟨hm, a', t :: pre, u, post, ha', rfl, ?_⟩
    rw [hpushed.stack] at hstack
    exact hstack

theorem pushTokens_spec {j : ℕ} (h : a.Room j) (env : Env) (ts : List (List UInt8)) :
    PushesIf env ts a (env.Grows a.argc j ts.length) := by
  induction ts generalizing a j with
  | nil =>
      refine .inl ⟨fun k hk hle => ?_, a, rfl, h.argv ▸ h.argc, rfl, rfl, (List.append_nil _).symm⟩
      -- the array is not full
      have hpow : 2 ^ (j + 1) ≤ 2 ^ (k + 1) := Nat.pow_le_pow_right (by decide) (by omega)
      have hargc := h.argc
      rw [h.size] at hargc
      exact absurd hle (by rw [List.length_nil]; omega)
  | cons t ts ih =>
      have hcount : ∀ b : Args, Pushed t a b → b.argc + ts.length = a.argc + (t :: ts).length :=
        fun b hb => by
          rw [hb.argc, List.length_cons]
          omega
      obtain ⟨hlt, b, hb, hroom, hpushed⟩ | ⟨heq, hre, b, hb, hroom, hpushed⟩ |
        ⟨heq, hre, b, hb, hstack⟩ := pushToken_spec h env t
      · have hrest := ih hroom
        unfold Env.Grows at hrest ⊢
        rw [hcount b hpushed] at hrest
        exact hrest.cons hb hpushed
      · have hrest := ih hroom
        have hgrows : env.Grows b.argc (j + 1) ts.length ↔ env.Grows a.argc j (t :: ts).length := by
          unfold Env.Grows
          rw [hcount b hpushed]
          refine ⟨fun hg k hk => ?_, fun hg k hk => hg k (by omega)⟩
          obtain rfl | hlt := Nat.eq_or_lt_of_le hk
          · exact fun _ => hre
          · exact hg k hlt
        rw [hgrows] at hrest
        exact hrest.cons hb hpushed
      · refine .inr ⟨fun hg => ?_, b, [], t, ts, pushTokens_stop hb, rfl, hstack⟩
        have hsucc := hg j le_rfl (by rw [List.length_cons]; omega)
        rw [hre] at hsucc
        cases hsucc

/-! ## What is below the strings -/

theorem pushArgv_spec (hn : n ≤ argv.length) :
    pushArgv argv n s = .ok (s.pushWords (argv.take n).reverse) := by
  induction n generalizing s with
  | zero => rfl
  | succ n ih =>
      unfold pushArgv getArgv
      rw [List.getElem?_eq_getElem hn, List.take_succ_eq_append_getElem hn, List.reverse_append]
      exact ih (Nat.le_of_succ_le hn)

/-- A part of the null pointer is padding. -/
theorem take_word_zero (hn : n ≤ 4) : (word 0).take n = List.replicate n 0 := by
  have hcases : n = 0 ∨ n = 1 ∨ n = 2 ∨ n = 3 ∨ n = 4 := by omega
  rcases hcases with rfl | rfl | rfl | rfl | rfl
  all_goals rfl

theorem getArgv_set (h : i < argv.length) : getArgv (argv.set i n) i = .ok n := by
  unfold getArgv
  rw [List.getElem?_set_self h]

/-- The end of `setup_stack` when all tokens have been pushed. -/
theorem setupStack_pushed {first : Strtok UInt8} {m : Mem} {stored : Finset ℕ}
    (hgrow : env.growStack = true) (hmalloc : env.malloc = true)
    (hloop : pushTokensLoop env (first.buf.length + 1) first
      ⟨⟨physBase, m, stored⟩, 0, (List.range 2).map env.heap, 2⟩ = .ok (true, a))
    (hroom : a.argc < a.argv.length) :
    setupStack env first ⟨n, m, stored⟩ = .ok (true, pushFrame a.stack (a.argv.take a.argc)) := by
  unfold setupStack
  rw [if_neg (by rw [hgrow]; decide)]
  dsimp only
  rw [if_neg (by rw [hmalloc]; decide), hloop]
  dsimp only [bind, Except.bind]
  have hnull : getArgv (a.argv.set a.argc 0) a.argc = .ok 0 := getArgv_set hroom
  have hptrs : ∀ s : Stack, pushArgv (a.argv.set a.argc 0) (a.argc + 1) s =
      .ok (s.pushWords (0 :: (a.argv.take a.argc).reverse)) := fun s => by
    have hlen : a.argc + 1 ≤ (a.argv.set a.argc 0).length := by
      rw [List.length_set]
      exact hroom
    rw [pushArgv_spec hlen, take_set_append hroom, List.reverse_append]
    rfl
  have hargc : (a.argv.take a.argc).length = a.argc := List.length_take_of_le (Nat.le_of_lt hroom)
  rw [if_neg (by decide), setArgv_ok hroom]
  dsimp only
  rw [hnull]
  dsimp only
  rw [hptrs, hptrs, take_word_zero (Nat.le_of_lt (Nat.mod_lt _ (by decide)))]
  dsimp only
  unfold pushFrame pushPointers
  rw [hargc]
  split
  next => rfl
  next hzero =>
    have hzero' : a.stack.esp % 4 = 0 := not_not.mp hzero
    rw [hzero', List.replicate_zero, Stack.push_nil]
    rfl

/-! ## `setup_stack` -/

/-- The allocations that `setup_stack` needs for `n` arguments succeed. -/
structure Env.Allocates (env : Env) (n : ℕ) : Prop where
  growStack : env.growStack = true
  malloc : env.malloc = true
  realloc : ∀ k, 2 ^ (k + 1) ≤ n → env.realloc (2 ^ (k + 2)) = true

/-- The stack with all arguments. -/
def argumentStack (m : Mem) (ts : List (List UInt8)) : Stack :=
  pushFrame ((emptyStack m).pushStrings ts).1 ((emptyStack m).pushStrings ts).2

theorem Env.allocates_iff (hgrow : env.growStack = true) (hmalloc : env.malloc = true) :
    env.Allocates n ↔ env.Grows 0 0 n := by
  constructor
  · intro h k _ hk
    exact h.realloc k (by omega)
  · intro h
    exact ⟨hgrow, hmalloc, fun k hk => h k (Nat.zero_le k) (by omega)⟩

/-- What `setup_stack` does to an empty stack. -/
theorem setupStack_spec {first : Strtok UInt8} {m : Mem} (h : first.Yields 0 blank ts)
    (hlen : ts.length ≤ first.buf.length + 1) :
    (env.Allocates ts.length ∧ setupStack env first ⟨n, m, ∅⟩ = .ok (true, argumentStack m ts)) ∨
    (¬ env.Allocates ts.length ∧ ∃ s pre, setupStack env first ⟨n, m, ∅⟩ = .ok (false, s) ∧
      pre <+: ts ∧ s.stored = ((emptyStack m).pushStrings pre).1.stored) := by
  cases hgrow : env.growStack with
  | false =>
      refine .inr ⟨fun ha => ?_, ⟨n, m, ∅⟩, [], if_pos hgrow, List.nil_prefix, rfl⟩
      have hsucc := ha.growStack
      rw [hgrow] at hsucc
      cases hsucc
  | true =>
      cases hmalloc : env.malloc with
      | false =>
          refine .inr ⟨?_, emptyStack m, [], ?_, List.nil_prefix, rfl⟩
          · intro ha
            have hsucc := ha.malloc
            rw [hmalloc] at hsucc
            cases hsucc
          · unfold setupStack
            rw [if_neg (by rw [hgrow]; decide)]
            dsimp only
            rw [if_pos hmalloc]
            rfl
      | true =>
          rw [Env.allocates_iff hgrow hmalloc]
          have hroom : Args.Room ⟨emptyStack m, 0, (List.range 2).map env.heap, 2⟩ 0 :=
            ⟨Nat.two_pos, rfl, rfl⟩
          obtain ⟨hg, a, ha, hall⟩ | ⟨hg, a, pre, t, post, ha, rfl, hstack⟩ :=
            pushTokens_spec hroom env ts
          · rw [← pushTokensLoop_eq h hlen] at ha
            refine .inl ⟨hg, (setupStack_pushed hgrow hmalloc ha hall.room).trans ?_⟩
            have hargv := hall.argv
            rw [List.take_zero, List.nil_append] at hargv
            rw [hall.stack, hargv]
            rfl
          · rw [← pushTokensLoop_eq h hlen] at ha
            refine .inr ⟨hg, a.stack, pre, ?_, List.prefix_append .., ?_⟩
            · unfold setupStack
              rw [if_neg (by rw [hgrow]; decide)]
              dsimp only
              rw [if_neg (by rw [hmalloc]; decide)]
              show (do let (done, a) ← pushTokensLoop env _ first ⟨emptyStack m, 0, _, 2⟩; _) = _
              rw [ha]
              rfl
            · rw [hstack]
              rfl

/-- The stack with all arguments can be decoded. -/
theorem argumentStack_decodes (m : Mem) (hts : ∀ t ∈ ts, 0 ∉ t) (hsize : stackSize ts ≤ physBase) :
    Decodes (argumentStack m ts).mem (argumentStack m ts).esp ts ∧
      loadWord (argumentStack m ts).mem (argumentStack m ts).esp = 0 ∧
      Apart (argumentStack m ts).mem (argumentStack m ts).esp ts.length := by
  unfold stackSize padding at hsize
  have hlt := physBase_lt
  refine pushFrame_decodes ?_ (emptyStack_strings hts (by omega)) ?_
  · rw [emptyStack_esp]
    omega
  · rw [emptyStack_esp]
    omega

/-- The same for a string that `start_process` has begun to cut into tokens. -/
theorem setupStack_command {cmd : List UInt8} (h : 0 ∉ cmd) (env : Env) (m : Mem) :
    (env.Allocates (tokens blank cmd).length ∧
      setupStack env (strtokR 0 blank cmd 0) ⟨0, m, ∅⟩ =
        .ok (true, argumentStack m (tokens blank cmd))) ∨
    (¬ env.Allocates (tokens blank cmd).length ∧
      ∃ s pre, setupStack env (strtokR 0 blank cmd 0) ⟨0, m, ∅⟩ = .ok (false, s) ∧
        pre <+: tokens blank cmd ∧ s.stored = ((emptyStack m).pushStrings pre).1.stored) := by
  have hyields : (strtokR 0 blank cmd 0).Yields 0 blank (tokens blank cmd) := by
    have hall := strtokR_yields 0 blank cmd 0
    rwa [cstring_zero h] at hall
  refine setupStack_spec hyields ?_
  rw [strtokR_length]
  exact tokens_length_le _

/-- The command line of a process, which `process_execute` cuts. -/
def commandTokens (fileName : List UInt8) : List (List UInt8) :=
  tokens blank (fileName.take (pgSize - 1))

theorem nonzero_of_commandTokens {fileName : List UInt8} (h : 0 ∉ fileName) :
    ∀ t ∈ commandTokens fileName, 0 ∉ t :=
  fun _ ht h0 => h (List.mem_of_mem_take (mem_of_mem_tokens _ ht h0))

theorem processExecute_spec {fileName : List UInt8} (h : 0 ∉ fileName)
    (hne : commandTokens fileName ≠ []) (env : Env) (m : Mem) :
    (env.Allocates (commandTokens fileName).length ∧
      processExecute env fileName m = .ok (true, argumentStack m (commandTokens fileName))) ∨
    (¬ env.Allocates (commandTokens fileName).length ∧
      ∃ s pre, processExecute env fileName m = .ok (false, s) ∧ pre <+: commandTokens fileName ∧
        s.stored = ((emptyStack m).pushStrings pre).1.stored) := by
  have hzero : 0 ∉ fileName.take (pgSize - 1) := fun hmem => h (List.mem_of_mem_take hmem)
  have hyields : (strtokR 0 blank (fileName.take (pgSize - 1)) 0).Yields 0 blank
      (commandTokens fileName) := by
    have hall := strtokR_yields 0 blank (fileName.take (pgSize - 1)) 0
    rwa [cstring_zero hzero] at hall
  have hname : (strtokR 0 blank (fileName.take (pgSize - 1)) 0).token ≠ none := by
    obtain ⟨t, ts, hcons⟩ := List.exists_cons_of_ne_nil hne
    rw [hcons] at hyields
    obtain ⟨start, hstart, -⟩ := hyields
    rw [hstart]
    exact Option.some_ne_none start
  have hrun : processExecute env fileName m =
      setupStack env (strtokR 0 blank (fileName.take (pgSize - 1)) 0) ⟨0, m, ∅⟩ := if_neg hname
  rw [hrun]
  exact setupStack_command hzero env m

/-- For the tokens of every command line that fit on the page, `setup_stack` makes no
access outside of `argv`, succeeds if its allocations do, and leaves a stack that
decodes to the tokens, with the strings above the pointers. -/
theorem stack_layout {fileName : List UInt8} (h : 0 ∉ fileName)
    (hne : commandTokens fileName ≠ []) (hfit : stackSize (commandTokens fileName) ≤ pgSize)
    (env : Env) (m : Mem) :
    ∃ r s, processExecute env fileName m = .ok (r, s) ∧
      (r = true ↔ env.Allocates (commandTokens fileName).length) ∧
      (r = true → Decodes s.mem s.esp (commandTokens fileName) ∧ loadWord s.mem s.esp = 0 ∧
        Apart s.mem s.esp (commandTokens fileName).length) := by
  have hpage : pgSize ≤ physBase := by decide
  obtain ⟨ha, hrun⟩ | ⟨ha, s, pre, hrun, -, -⟩ := processExecute_spec h hne env m
  · obtain ⟨hdec, hreturn, hapart⟩ :=
      argumentStack_decodes m (nonzero_of_commandTokens h) (hfit.trans hpage)
    exact ⟨true, _, hrun, ⟨fun _ => ha, fun _ => rfl⟩, fun _ => ⟨hdec, hreturn, hapart⟩⟩
  · refine ⟨false, s, hrun, ⟨?_, fun hr => absurd hr ha⟩, ?_⟩
    · intro hr
      cases hr
    · intro hr
      cases hr

/-- Memory is not short. -/
def plenty : Env where
  growStack := true
  malloc := true
  realloc _ := true
  heap _ := 7

/-- The command line `echo  x`. -/
def echo : List UInt8 := [101, 99, 104, 111, 32, 32, 120]

theorem stack_layout_run : ∃ r s, processExecute plenty echo (fun _ => 9) = .ok (r, s) ∧
    r = true ∧ Decodes s.mem s.esp [[101, 99, 104, 111], [120]] ∧ loadWord s.mem s.esp = 0 ∧
      Apart s.mem s.esp 2 := by
  have htokens : commandTokens echo = [[101, 99, 104, 111], [120]] := by decide
  obtain ⟨r, s, hrun, hr, hdec⟩ := stack_layout (show 0 ∉ echo by decide)
    (by rw [htokens]; decide) (by rw [htokens]; decide) plenty (fun _ => 9)
  have hr' : r = true := hr.mpr ⟨rfl, rfl, fun _ _ => rfl⟩
  rw [htokens] at hdec
  exact ⟨r, s, hrun, hr', hdec hr'⟩

end Pintos.Arguments
