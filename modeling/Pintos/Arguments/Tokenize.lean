import Pintos.Arguments.Original

/-! # The tokens of a command

`argument_tokenize` stores pointers to exactly the tokens of a command, in order,
unless there are more of them than `argv` has elements.
-/

namespace Pintos.Arguments

open Memory Tokens
open Wait (argsSize argvSize)

/-- The pointers of an `args_struct` are to the tokens `ts`. -/
structure Tokenized (a : ArgsStruct) (ts : List (List UInt8)) : Prop where
  argc : a.argc = ts.length
  argc_le : ts.length ≤ argvSize
  argv : ∀ i (hi : i < ts.length), ∃ start, a.argv i = .args start ∧
    cstring 0 a.args start = ts[i]

variable {a : ArgsStruct} {ts : List (List UInt8)} {rounds n : ℕ} {r : Strtok UInt8}

/-- What the loop leaves when it goes on with `n` tokens stored. -/
structure Continues (r : Strtok UInt8) (a : ArgsStruct) (n : ℕ) (ts : List (List UInt8))
    (a' : ArgsStruct) : Prop where
  argc : a'.argc = if n + ts.length ≤ argvSize then (n + ts.length : ℤ) else badArgs
  /-- The pointers that are stored already stay, with their strings. -/
  argv : ∀ i < n, a'.argv i = a.argv i
  args : ∀ i ≤ r.save, a'.args[i]? = r.buf[i]?
  tokens : n + ts.length ≤ argvSize → ∀ i (hi : i < ts.length), ∃ start,
    a'.argv (n + i) = .args start ∧ cstring 0 a'.args start = ts[i]

theorem argumentTokenizeLoop_spec (h : r.Yields 0 argsDeli ts) (hn : n ≤ argvSize)
    (hr : argvSize + 1 ≤ n + rounds) :
    Continues r a n ts (argumentTokenizeLoop rounds r a n) := by
  induction ts generalizing rounds n r a with
  | nil =>
      obtain ⟨token, buf, save⟩ := r
      obtain rfl : token = none := h
      unfold argumentTokenizeLoop
      refine ⟨?_, fun _ _ => rfl, fun _ _ => rfl, fun _ i hi => absurd hi (Nat.not_lt_zero i)⟩
      rw [List.length_nil, if_pos (show n + 0 ≤ argvSize from hn)]
      exact (add_zero (n : ℤ)).symm
  | cons t ts ih =>
      obtain ⟨rounds, rfl⟩ := Nat.exists_eq_succ_of_ne_zero (show rounds ≠ 0 by omega)
      have hnext := h.next
      obtain ⟨hkeeps, hsave⟩ := strtokR_keeps 0 argsDeli r.buf r.save
      obtain ⟨token, buf, save⟩ := r
      obtain ⟨start, rfl, hstring, hstop, -⟩ := h
      unfold argumentTokenizeLoop
      split
      next hfull =>
        -- there is no element left for the token
        have hmany : ¬ n + (t :: ts).length ≤ argvSize := by
          rw [List.length_cons]
          omega
        exact ⟨(if_neg hmany).symm, fun _ _ => rfl, fun _ _ => rfl, fun hle => absurd hle hmany⟩
      next hfull =>
        set a₁ : ArgsStruct := { a with argv := Function.update a.argv n (.args start) } with ha₁
        have hrest : Continues (strtokR 0 argsDeli buf save) a₁ (n + 1) ts
            (argumentTokenizeLoop rounds (strtokR 0 argsDeli buf save) a₁ (n + 1)) :=
          ih hnext (by omega) (by omega)
        generalize argumentTokenizeLoop rounds (strtokR 0 argsDeli buf save) a₁ (n + 1) = a' at hrest
        have hlen : n + 1 + ts.length = n + (t :: ts).length := by
          rw [List.length_cons]
          omega
        have hargs : ∀ i ≤ save, a'.args[i]? = buf[i]? := fun i hi =>
          (hrest.args i (hi.trans hsave)).trans (hkeeps i hi)
        refine ⟨?_, ?_, hargs, ?_⟩
        · rw [hrest.argc, hlen]
          push_cast [List.length_cons]
          congr 1
          omega
        · intro i hi
          exact (hrest.argv i (Nat.lt_succ_of_lt hi)).trans (Function.update_of_ne (by omega) ..)
        · intro hle i hi
          cases i with
          | zero =>
              refine ⟨start, (hrest.argv n (Nat.lt_succ_self n)).trans (Function.update_self ..), ?_⟩
              -- later calls do not write to the token
              have hsame : cstring 0 a'.args start = cstring 0 buf start := by
                refine cstring_congr fun j hj => hargs j ?_
                rw [hstring] at hj
                exact hj.trans hstop
              exact hsame.trans hstring
          | succ i =>
              have hi' : i < ts.length := Nat.lt_of_succ_lt_succ hi
              rw [List.getElem_cons_succ, show n + (i + 1) = n + 1 + i by omega]
              exact hrest.tokens (by omega) i hi'

/-- The tokens of a command, which is cut to `ARGS_SIZE - 1` bytes. -/
def argsTokens (args : List UInt8) : List (List UInt8) :=
  tokens argsDeli (args.take (argsSize - 1))

/-- `argument_tokenize` finds too many tokens, or stores all of them. -/
theorem tokenizeCommand_spec {args : List UInt8} (h : 0 ∉ args) :
    ((tokenizeCommand a args).argc = badArgs ↔ argvSize < (argsTokens args).length) ∧
      ((argsTokens args).length ≤ argvSize → Tokenized (tokenizeCommand a args) (argsTokens args)) := by
  have hzero : 0 ∉ args.take (argsSize - 1) := fun hmem => h (List.mem_of_mem_take hmem)
  have hyields : (strtokR 0 argsDeli (args.take (argsSize - 1)) 0).Yields 0 argsDeli
      (argsTokens args) := by
    have hall := strtokR_yields 0 argsDeli (args.take (argsSize - 1)) 0
    rwa [cstring_zero hzero] at hall
  have hspec : Continues _ _ 0 (argsTokens args) (tokenizeCommand a args) :=
    argumentTokenizeLoop_spec hyields (Nat.zero_le _) (by omega)
  have hargc := hspec.argc
  rw [Nat.zero_add] at hargc
  constructor
  · rw [hargc]
    split
    next hle =>
      refine ⟨fun heq => ?_, fun hlt => absurd hle (Nat.not_le.mpr hlt)⟩
      unfold badArgs at heq
      omega
    next hlt => exact ⟨fun _ => Nat.not_le.mp hlt, fun _ => rfl⟩
  · intro hle
    rw [if_pos hle] at hargc
    refine ⟨hargc.trans (zero_add _), hle, ?_⟩
    intro i hi
    have hi' := hspec.tokens (by omega) i hi
    rwa [Nat.zero_add] at hi'

end Pintos.Arguments
