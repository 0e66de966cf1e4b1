import Pintos.Arguments.Tokenize

/-! # The layout of the stack of the original files

Each byte and each word is pushed if it fits on the page. A sequence of such pushes
therefore succeeds if all of it fits, and never stores outside of the page. What
`push_args_to_stack` pushes when it succeeds can be decoded.
-/

namespace Pintos.Arguments

open Memory Tokens
open Vm (pgSize)
open Wait (argvSize)

variable {s s' s'' s₁ s₂ : Stack} {r : Bool × Stack} {f : Stack → Bool × Stack} {k k₁ k₂ n : ℕ}
  {bs : List UInt8} {ts : List (List UInt8)} {a : ArgsStruct} {m : Mem}

/-- Nothing has been stored outside of the page. -/
structure Ready (s : Stack) : Prop where
  esp_le : s.esp ≤ physBase
  inPage : InPage s

theorem ready_emptyStack : Ready (emptyStack m) :=
  ⟨le_rfl, fun _ hx => absurd hx (Finset.notMem_empty _)⟩

theorem Ready.fills (h : Ready s) (hf : Fills s s') (hle : userStackVaddr ≤ s'.esp) : Ready s' where
  esp_le := hf.esp_le.trans h.esp_le
  inPage := by
    intro x hx
    rw [hf.stored, Finset.mem_union, Finset.mem_Ico] at hx
    rcases hx with hx | ⟨hx, hx'⟩
    · exact h.inPage x hx
    · exact ⟨hle.trans hx, hx'.trans_le h.esp_le⟩

/-- The result of pushing `k` bytes: the stack `s'` if they fit, and else a failure without
a store outside of the page. -/
structure Pushes (s : Stack) (k : ℕ) (r : Bool × Stack) (s' : Stack) : Prop where
  fits : userStackVaddr + k ≤ s.esp → r = (true, s') ∧ Ready s' ∧ s'.esp = s.esp - k
  fails : s.esp < userStackVaddr + k → r.1 = false ∧ InPage r.2

/-- Pushes one after the other. -/
theorem Pushes.andThen (h : Pushes s k₁ r s₁)
    (hf : userStackVaddr + k₁ ≤ s.esp → Ready s₁ → Pushes s₁ k₂ (f s₁) s₂) :
    Pushes s (k₁ + k₂) (andThen r f) s₂ := by
  by_cases h₁ : userStackVaddr + k₁ ≤ s.esp
  · obtain ⟨rfl, hready, hesp⟩ := h.fits h₁
    have hnext : Pushes s₁ k₂ (Arguments.andThen (true, s₁) f) s₂ := hf h₁ hready
    refine ⟨fun hk => ?_, fun hk => hnext.fails (by omega)⟩
    obtain ⟨hr, hready', hesp'⟩ := hnext.fits (by omega)
    exact ⟨hr, hready', by omega⟩
  · obtain ⟨hfail, hpage⟩ := h.fails (Nat.not_le.mp h₁)
    have hr : Arguments.andThen r f = r := if_neg (by rw [hfail]; decide)
    rw [hr]
    exact ⟨fun hk => absurd hk (by omega), fun _ => ⟨hfail, hpage⟩⟩

theorem Pushes.congr (h : Pushes s k r s') (hs : userStackVaddr + k ≤ s.esp → s' = s'') :
    Pushes s k r s'' where
  fits := fun hk => hs hk ▸ h.fits hk
  fails := h.fails

theorem pushes_nothing (h : Ready s) (hle : userStackVaddr ≤ s.esp) : Pushes s 0 (true, s) s where
  fits := fun _ => ⟨rfl, h, (Nat.sub_zero _).symm⟩
  fails := fun hlt => absurd hle (Nat.not_le.mpr hlt)

/-- The check of the stack pointer after it has been lowered. -/
theorem checked_pushes (bs : List UInt8) (h : Ready s) :
    Pushes s bs.length
      (if (s.lower bs.length).esp < userStackVaddr then (false, s.lower bs.length)
       else (true, s.push bs)) (s.push bs) := by
  have hesp : (s.lower bs.length).esp = s.esp - bs.length := rfl
  have hpos : 0 < userStackVaddr := by decide
  constructor
  · intro hk
    rw [if_neg (by omega)]
    have hfills : Fills s (s.push bs) := .push (by omega)
    exact ⟨rfl, h.fills hfills (by rw [Stack.push_esp]; omega), rfl⟩
  · intro hk
    rw [if_pos (by omega)]
    exact ⟨rfl, h.inPage⟩

theorem pushByteToStack_pushes {v : UInt8} (h : Ready s) :
    Pushes s 1 (pushByteToStack v s) (s.push [v]) := checked_pushes [v] h

theorem pushWordToStack_pushes {v : ℕ} (h : Ready s) :
    Pushes s 4 (pushWordToStack v s) (s.push (word v)) := checked_pushes (word v) h

/-- Bytes that are pushed from the last to the first are a string on the stack. -/
theorem pushBytes_pushes {g : Mem → ℕ → UInt8} (h : Ready s) (hle : userStackVaddr ≤ s.esp)
    (hn : n ≤ bs.length) (hg : ∀ m j (hj : j < bs.length), g m j = bs[j]) :
    Pushes s n (pushBytes g n s) (s.push (bs.take n)) := by
  induction n generalizing s with
  | zero =>
      rw [List.take_zero, Stack.push_nil]
      exact pushes_nothing h hle
  | succ n ih =>
      have hlt : n < bs.length := hn
      have hstep : Pushes s (1 + n) (pushBytes g (n + 1) s) ((s.push [bs[n]]).push (bs.take n)) := by
        unfold pushBytes
        rw [hg s.mem n hlt]
        refine (pushByteToStack_pushes h).andThen ?_
        intro h₁ hready
        exact ih hready (by rw [Stack.push_esp, List.length_singleton]; omega) (Nat.le_of_lt hlt)
      have hcomm : 1 + n = n + 1 := Nat.add_comm 1 n
      rw [hcomm] at hstep
      apply hstep.congr
      intro hfits
      have hlen : (bs.take n).length = n := List.length_take_of_le (Nat.le_of_lt hlt)
      rw [Stack.push_push (by rw [hlen, List.length_singleton]; omega),
        List.take_succ_eq_append_getElem hlt]

theorem pushPointersLoop_pushes (h : Ready s) (hle : userStackVaddr ≤ s.esp) :
    Pushes s (4 * n) (pushPointersLoop a n s)
      (s.pushWords ((List.range n).map fun i => (a.argv i).addr a).reverse) := by
  induction n generalizing s with
  | zero => exact pushes_nothing h hle
  | succ n ih =>
      rw [List.range_succ, List.map_append, List.reverse_append, Nat.mul_succ, Nat.add_comm]
      refine (pushWordToStack_pushes h).andThen ?_
      intro h₁ hready
      exact ih hready (by rw [Stack.push_esp, word_length]; omega)

/-- What is pushed below the strings. -/
theorem pushWordsToStack_pushes (h : Ready s) (hle : userStackVaddr ≤ s.esp) (hargc : a.argc = n)
    (hn : n < 2 ^ 32) :
    Pushes s (s.esp % 4 + 4 * (n + 1) + 12) (pushWordsToStack a s)
      (pushFrame s ((List.range n).map fun i => (a.argv i).addr a)) := by
  have htoNat : a.argc.toNat = n := by omega
  have hword : (a.argc % 2 ^ 32).toNat = n := by omega
  have hlen : ((List.range n).map fun i => (a.argv i).addr a).length = n := by
    rw [List.length_map, List.length_range]
  have hk : s.esp % 4 + 4 * (n + 1) + 12 = s.esp % 4 + (4 + (4 * n + (4 + (4 + 4)))) := by omega
  unfold pushWordsToStack pushFrame
  rw [htoNat, hword, hlen, hk]
  have hpad : Pushes s (s.esp % 4) (pushBytes (fun _ _ => 0) (s.esp % 4) s)
      (s.push (List.replicate (s.esp % 4) 0)) := by
    have hlen' : s.esp % 4 ≤ (List.replicate (s.esp % 4) (0 : UInt8)).length :=
      Nat.le_of_eq List.length_replicate.symm
    have hbytes := pushBytes_pushes (g := fun _ _ => 0) h hle hlen' fun _ j hj =>
      (List.getElem_replicate hj).symm
    rwa [List.take_of_length_le (Nat.le_of_eq List.length_replicate)] at hbytes
  refine hpad.andThen fun h₁ hr₁ => (pushWordToStack_pushes hr₁).andThen fun h₂ hr₂ => ?_
  refine (pushPointersLoop_pushes hr₂ ?_).andThen ?_
  · rw [Stack.push_esp, word_length]
    omega
  · intro h₃ hr₃
    exact (pushWordToStack_pushes hr₃).andThen fun _ hr₄ =>
      (pushWordToStack_pushes hr₄).andThen fun _ hr₅ => pushWordToStack_pushes hr₅

/-- What `charAt` reads of a string in `args`. -/
theorem charAt_args {start j : ℕ} (hj : j < (cstring 0 a.args start ++ [0]).length) :
    charAt a m j (.args start) = (cstring 0 a.args start ++ [0])[j] := by
  obtain ⟨post, hpost, hend⟩ := cstring_drop 0 a.args start
  show a.args[start + j]?.getD 0 = _
  rw [← List.getElem?_drop, hpost]
  generalize cstring 0 a.args start = t at hj
  rw [List.length_append, List.length_singleton] at hj
  by_cases hlt : j < t.length
  · rw [List.getElem?_append_left hlt, List.getElem?_eq_getElem hlt, List.getElem_append_left hlt]
    rfl
  · obtain rfl : j = t.length := by omega
    rw [List.getElem?_append_right le_rfl, Nat.sub_self, ← List.head?_eq_getElem?,
      List.getElem_append_right le_rfl]
    cases hc : post.head? with
    | none => simp
    | some c =>
        obtain rfl : c = 0 := hend c hc
        simp

/-- The pointers to strings that have been pushed are replaced by their addresses. -/
structure Replaced (a a' : ArgsStruct) (as : List ℕ) : Prop where
  argc : a'.argc = a.argc
  argv : ∀ i (hi : i < as.length), a'.argv i = .stack as[i]
  others : ∀ i ≥ as.length, a'.argv i = a.argv i

theorem Replaced.append {a' : ArgsStruct} {as : List ℕ} {x : ℕ}
    (h : Replaced { a with argv := Function.update a.argv as.length (.stack x) } a' as) :
    Replaced a a' (as ++ [x]) := by
  have hlen : (as ++ [x]).length = as.length + 1 := by
    rw [List.length_append, List.length_singleton]
  refine ⟨h.argc, ?_, ?_⟩
  · intro i hi
    rw [hlen] at hi
    by_cases hlt : i < as.length
    · rw [List.getElem_append_left hlt]
      exact h.argv i hlt
    · obtain rfl : i = as.length := by omega
      rw [List.getElem_concat_length rfl]
      exact (h.others _ le_rfl).trans (Function.update_self ..)
  · intro i hi
    exact (h.others i (by omega)).trans (Function.update_of_ne (by omega) ..)

/-- The inner loop of the first one pushes a string. -/
theorem pushString_pushes {p : Pointer} {start : ℕ} {t : List UInt8} (h : Ready s)
    (hle : userStackVaddr ≤ s.esp) (hptr : p = .args start) (ht : cstring 0 a.args start = t) :
    Pushes s (t ++ [0]).length (pushBytes (fun m j => charAt a m j p) (strlen a m p + 1) s)
      (s.push (t ++ [0])) := by
  subst hptr ht
  have hlen : strlen a m (.args start) + 1 = (cstring 0 a.args start ++ [0]).length := by
    rw [List.length_append]
    rfl
  have hbytes := pushBytes_pushes (g := fun m j => charAt a m j (.args start)) h hle le_rfl
    fun _ _ hj => charAt_args hj
  rw [List.take_length] at hbytes
  rw [hlen]
  exact hbytes

theorem pushStringsLoop_succ {i : ℕ} : pushStringsLoop (i + 1) a s =
    (let r := pushBytes (fun m j => charAt a m j (a.argv i)) (strlen a s.mem (a.argv i) + 1) s
     if r.1 then
       pushStringsLoop i { a with argv := Function.update a.argv i (.stack r.2.esp) } r.2
     else (false, a, r.2)) := rfl

/-- The first loop pushes the strings from the last to the first, and leaves their
addresses in `argv`. -/
theorem pushStringsLoop_pushes (h : Ready s) (hle : userStackVaddr ≤ s.esp)
    (hargv : ∀ i (hi : i < ts.length), ∃ start, a.argv i = .args start ∧
      cstring 0 a.args start = ts[i]) :
    ∃ r a' s', pushStringsLoop ts.length a s = (r, a', s') ∧
      Pushes s (stringsSize ts) (r, s') (s.pushStrings ts.reverse).1 ∧
      (r = true → Replaced a a' (s.pushStrings ts.reverse).2.reverse) := by
  induction ts using List.reverseRecOn generalizing s a with
  | nil =>
      exact ⟨true, a, s, rfl, pushes_nothing h hle, fun _ =>
        ⟨rfl, fun i hi => absurd hi (Nat.not_lt_zero i), fun _ _ => rfl⟩⟩
  | append_singleton ts t ih =>
      have hlen : (ts ++ [t]).length = ts.length + 1 := by
        rw [List.length_append, List.length_singleton]
      have hsize : stringsSize (ts ++ [t]) = (t ++ [0]).length + stringsSize ts := by
        unfold stringsSize
        rw [List.map_append, List.sum_append, List.length_append, Nat.add_comm]
        rfl
      obtain ⟨start, hptr, hstring⟩ := hargv ts.length (by omega)
      rw [List.getElem_concat_length rfl] at hstring
      have hpush := pushString_pushes (m := s.mem) h hle hptr hstring
      rw [hlen, pushStringsLoop_succ, hsize, List.reverse_append, List.reverse_singleton,
        List.singleton_append, Stack.pushStrings_cons]
      by_cases hfits : userStackVaddr + (t ++ [0]).length ≤ s.esp
      · obtain ⟨hr, hready, hesp⟩ := hpush.fits hfits
        rw [hr] at hpush ⊢
        obtain ⟨r, a', s', heq, hp, hrep⟩ := ih
          (a := { a with argv := Function.update a.argv ts.length (.stack (s.push (t ++ [0])).esp) })
          hready (by omega) fun i hi => by
            obtain ⟨start, hptr, hstring⟩ := hargv i (by omega)
            rw [List.getElem_append_left hi] at hstring
            exact ⟨start, (Function.update_of_ne (Nat.ne_of_lt hi) ..).trans hptr, hstring⟩
        refine ⟨r, a', s', heq, hpush.andThen (f := fun _ => (r, s')) fun _ _ => hp, fun hr => ?_⟩
        have hcount : ((s.push (t ++ [0])).pushStrings ts.reverse).2.reverse.length = ts.length := by
          rw [List.length_reverse, Stack.pushStrings_length, List.length_reverse]
        have hreplaced := hrep hr
        rw [← hcount] at hreplaced
        rw [List.reverse_cons]
        exact hreplaced.append
      · obtain ⟨hfail, hpage⟩ := hpush.fails (Nat.not_le.mp hfits)
        refine ⟨false, a, _, if_neg (by rw [hfail]; decide), ⟨fun hk => absurd hk (by omega),
          fun _ => ⟨rfl, hpage⟩⟩, fun hr => ?_⟩
        cases hr

/-! ## `push_args_to_stack` -/

theorem stringsSize_reverse : stringsSize ts.reverse = stringsSize ts := by
  unfold stringsSize
  rw [List.map_reverse, List.sum_reverse]

/-- The stack that `push_args_to_stack` leaves when it succeeds. -/
def pushedStack (m : Mem) (ts : List (List UInt8)) : Stack :=
  pushFrame ((emptyStack m).pushStrings ts.reverse).1 ((emptyStack m).pushStrings ts.reverse).2.reverse

theorem pushArgsToStack_pushes (h : Tokenized a ts) :
    Pushes (emptyStack m) (stackSize ts) (pushArgsToStack a (emptyStack m)) (pushedStack m ts) := by
  obtain ⟨r, a', s', heq, hp, hrep⟩ := pushStringsLoop_pushes (s := emptyStack m) ready_emptyStack
    (Nat.sub_le ..) h.argv
  have hargc : a.argc.toNat = ts.length := by
    rw [h.argc]
    exact Int.toNat_natCast ts.length
  have hesp : ((emptyStack m).pushStrings ts.reverse).1.esp = physBase - stringsSize ts := by
    rw [emptyStack_esp, stringsSize_reverse]
  have hrun : pushArgsToStack a (emptyStack m) = andThen (r, s') (pushWordsToStack a') := by
    unfold pushArgsToStack
    rw [hargc, heq]
    cases r with
    | true => rfl
    | false => rfl
  have hsize : stackSize ts =
      stringsSize ts + ((physBase - stringsSize ts) % 4 + 4 * (ts.length + 1) + 12) := by
    unfold stackSize padding
    omega
  rw [hrun, hsize]
  apply hp.andThen
  intro hfits hready
  obtain ⟨hr, -, -⟩ := hp.fits hfits
  obtain ⟨rfl, rfl⟩ := Prod.mk.inj hr
  have hreplaced := hrep rfl
  have hcount : ((emptyStack m).pushStrings ts.reverse).2.reverse.length = ts.length := by
    rw [List.length_reverse, Stack.pushStrings_length, List.length_reverse]
  -- the pointers that are pushed are the addresses of the strings
  have haddrs : ((List.range ts.length).map fun i => (a'.argv i).addr a') =
      ((emptyStack m).pushStrings ts.reverse).2.reverse := by
    refine List.ext_getElem (by rw [List.length_map, List.length_range, hcount]) ?_
    intro i hi hi'
    rw [List.getElem_map, List.getElem_range, hreplaced.argv i hi']
    rfl
  have hle : userStackVaddr ≤ ((emptyStack m).pushStrings ts.reverse).1.esp := by
    have hfits' : userStackVaddr + stringsSize ts ≤ physBase := hfits
    rw [hesp]
    omega
  have hn : ts.length < 2 ^ 32 := lt_of_le_of_lt h.argc_le (by decide)
  have hwords := pushWordsToStack_pushes hready hle (hreplaced.argc.trans h.argc) hn
  rw [haddrs, hesp] at hwords
  exact hwords

theorem Tokenized.nonzero (h : Tokenized a ts) : ∀ t ∈ ts, 0 ∉ t := by
  intro t ht
  obtain ⟨i, hi, rfl⟩ := List.getElem_of_mem ht
  obtain ⟨start, -, hstring⟩ := h.argv i hi
  rw [← hstring]
  exact nul_notMem_cstring

theorem pushedStack_decodes (m : Mem) (hts : ∀ t ∈ ts, 0 ∉ t) (hsize : stackSize ts ≤ physBase) :
    Decodes (pushedStack m ts).mem (pushedStack m ts).esp ts ∧
      loadWord (pushedStack m ts).mem (pushedStack m ts).esp = 0 := by
  unfold stackSize padding at hsize
  have hlt := physBase_lt
  have hnul : ∀ t ∈ ts.reverse, 0 ∉ t := fun t ht => hts t (List.mem_reverse.mp ht)
  have hstrings := emptyStack_strings (m := m) hnul (by rw [stringsSize_reverse]; omega)
  rw [← List.forall₂_reverse_iff, List.reverse_reverse] at hstrings
  obtain ⟨hdec, hreturn, -⟩ := pushFrame_decodes (by rw [emptyStack_esp]; omega) hstrings (by
    rw [emptyStack_esp, stringsSize_reverse]
    omega)
  exact ⟨hdec, hreturn⟩

/-- `argument_tokenize` reports too many tokens or stores them all, for every command; and
for every `args_struct` with its tokens, `push_args_to_stack` stays on the page, succeeds if
and only if they fit, and then leaves a stack that decodes to them. -/
theorem original_arguments :
    (∀ a args, 0 ∉ args →
      ((tokenizeCommand a args).argc = badArgs ↔ argvSize < (argsTokens args).length) ∧
      ((argsTokens args).length ≤ argvSize →
        Tokenized (tokenizeCommand a args) (argsTokens args))) ∧
    ∀ a ts m, Tokenized a ts → ∃ r s, pushArgsToStack a (emptyStack m) = (r, s) ∧ InPage s ∧
      (r = true ↔ stackSize ts ≤ pgSize) ∧
      (r = true → Decodes s.mem s.esp ts ∧ loadWord s.mem s.esp = 0) := by
  refine ⟨fun a args h => tokenizeCommand_spec h, fun a ts m h => ?_⟩
  have hpush := pushArgsToStack_pushes (m := m) h
  have hpage : pgSize ≤ physBase := by decide
  have hsum : userStackVaddr + pgSize = physBase := by decide
  have htop : (emptyStack m).esp = physBase := rfl
  by_cases hfits : stackSize ts ≤ pgSize
  · obtain ⟨hr, hready, -⟩ := hpush.fits (by omega)
    exact ⟨true, _, hr, hready.inPage, ⟨fun _ => hfits, fun _ => rfl⟩,
      fun _ => pushedStack_decodes m h.nonzero (hfits.trans hpage)⟩
  · obtain ⟨hfail, hin⟩ := hpush.fails (by omega)
    refine ⟨false, _, Prod.ext hfail rfl, hin, ⟨fun hr => ?_, fun hle => absurd hle hfits⟩,
      fun hr => ?_⟩
    · cases hr
    · cases hr

/-- A page for the arguments. -/
def argsPage : ArgsStruct where
  addr := 0xc0105000
  args := []
  argv _ := .stack 0
  argc := 0

/-- The command `ls  -l`. -/
def ls : List UInt8 := [108, 115, 32, 32, 45, 108]

theorem original_arguments_run : Tokenized (tokenizeCommand argsPage ls) [[108, 115], [45, 108]] ∧
    ∃ r s, pushArgsToStack (tokenizeCommand argsPage ls) (emptyStack fun _ => 9) = (r, s) ∧
      r = true ∧ Decodes s.mem s.esp [[108, 115], [45, 108]] := by
  have htokens : argsTokens ls = [[108, 115], [45, 108]] := by decide
  have htok := (original_arguments.1 argsPage ls (by decide)).2 (by rw [htokens]; decide)
  rw [htokens] at htok
  obtain ⟨r, s, hrun, -, hr, hdec⟩ := original_arguments.2 _ _ (fun _ => 9) htok
  have hr' : r = true := hr.mpr (by decide)
  exact ⟨htok, r, s, hrun, hr', (hdec hr').1⟩

end Pintos.Arguments
