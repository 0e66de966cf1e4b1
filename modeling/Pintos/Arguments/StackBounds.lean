import Pintos.Arguments.StackLayout

/-! # The bounds of the stack of Project 3

`setup_stack` maps one page and does not check what it pushes against it. The strings of
a command line fit on the page, whatever it is; the pointers to them may not.
-/

namespace Pintos.Arguments

open Memory Tokens
open Vm (pgSize)

variable {ts pre : List (List UInt8)} {s : Stack} {fileName : List UInt8}

/-- The strings of a command line take at most a page. -/
theorem commandTokens_size : stringsSize (commandTokens fileName) ≤ pgSize := by
  have hsize := tokens_size (d := blank) (fileName.take (pgSize - 1))
  have hlen : (fileName.take (pgSize - 1)).length ≤ pgSize - 1 := List.length_take_le ..
  have hle : stringsSize (commandTokens fileName) ≤ (fileName.take (pgSize - 1)).length + 1 := hsize
  have hpage : pgSize = 4096 := rfl
  omega

theorem length_le_stringsSize : ts.length ≤ stringsSize ts := by
  induction ts with
  | nil => exact le_rfl
  | cons t ts ih =>
      rw [stringsSize_cons, List.length_append, List.length_cons, List.length_singleton]
      omega

theorem stringsSize_mono (h : pre <+: ts) : stringsSize pre ≤ stringsSize ts := by
  obtain ⟨post, rfl⟩ := h
  unfold stringsSize
  rw [List.map_append, List.sum_append]
  exact Nat.le_add_right ..

/-- What fills the stack from its top is on the page as long as the stack pointer is. -/
theorem inPage_iff {m : Mem} (h : Fills (emptyStack m) s) (hlt : s.esp < physBase) :
    InPage s ↔ physBase - pgSize ≤ s.esp := by
  unfold InPage
  rw [h.stored]
  simp only [emptyStack, Finset.empty_union, Finset.mem_Ico]
  constructor
  · intro hall
    exact (hall s.esp ⟨le_rfl, hlt⟩).1
  · rintro hle x ⟨hx, hx'⟩
    exact ⟨hle.trans hx, hx'⟩

theorem argumentStack_esp {m : Mem} : (argumentStack m ts).esp = physBase - stackSize ts := by
  unfold argumentStack
  rw [pushFrame_esp, emptyStack_esp, Stack.pushStrings_length, Nat.sub_sub, ← Nat.add_assoc,
    ← Nat.add_assoc]
  rfl

theorem argumentStack_fills {m : Mem} (hsize : stackSize ts ≤ physBase) :
    Fills (emptyStack m) (argumentStack m ts) := by
  unfold stackSize padding at hsize
  have hstrings : Fills (emptyStack m) ((emptyStack m).pushStrings ts).1 :=
    Stack.pushStrings_fills (show stringsSize ts ≤ physBase by omega)
  refine hstrings.trans (pushFrame_fills ?_)
  rw [emptyStack_esp, Stack.pushStrings_length]
  omega

/-- Strings alone do not leave the page. -/
theorem strings_inPage {m : Mem} (hsize : stringsSize ts ≤ pgSize)
    (hs : s.stored = ((emptyStack m).pushStrings ts).1.stored) : InPage s := by
  have hpage : pgSize ≤ physBase := by decide
  have hfills : Fills (emptyStack m) ((emptyStack m).pushStrings ts).1 :=
    Stack.pushStrings_fills (hsize.trans hpage)
  unfold InPage
  rw [hs, hfills.stored, emptyStack_esp]
  intro x hx
  simp only [emptyStack, Finset.empty_union, Finset.mem_Ico] at hx
  exact ⟨(Nat.sub_le_sub_left hsize physBase).trans hx.1, hx.2⟩

/-- All arguments of a command line are far above address 0. -/
theorem stackSize_le : stackSize (commandTokens fileName) ≤ physBase := by
  have hsize : stringsSize (commandTokens fileName) ≤ pgSize := commandTokens_size
  have hlen : (commandTokens fileName).length ≤ stringsSize (commandTokens fileName) :=
    length_le_stringsSize
  have hpage : pgSize = 4096 := rfl
  have hbase : physBase = 3221225472 := rfl
  unfold stackSize padding
  omega

theorem argumentStack_inPage {m : Mem} :
    InPage (argumentStack m (commandTokens fileName)) ↔
      stackSize (commandTokens fileName) ≤ pgSize := by
  have hle : stackSize (commandTokens fileName) ≤ physBase := stackSize_le
  have hpos : 12 ≤ stackSize (commandTokens fileName) := Nat.le_add_left ..
  have hpage : pgSize ≤ physBase := by decide
  rw [inPage_iff (argumentStack_fills hle) (by rw [argumentStack_esp]; omega), argumentStack_esp]
  omega

/-- All bytes that `setup_stack` stores are on the page if and only if an allocation fails or
the arguments fit. -/
theorem stores_in_page (h : 0 ∉ fileName) (hne : commandTokens fileName ≠ []) (env : Env) (m : Mem) :
    ∃ r s, processExecute env fileName m = .ok (r, s) ∧
      (InPage s ↔ ¬ env.Allocates (commandTokens fileName).length ∨
        stackSize (commandTokens fileName) ≤ pgSize) := by
  obtain ⟨ha, hrun⟩ | ⟨ha, s, pre, hrun, hpre, hs⟩ := processExecute_spec h hne env m
  · exact ⟨true, _, hrun, argumentStack_inPage.trans (or_iff_right (not_not.mpr ha)).symm⟩
  · have hsize : stringsSize pre ≤ pgSize := (stringsSize_mono hpre).trans commandTokens_size
    exact ⟨false, s, hrun, fun _ => .inl ha, fun _ => strings_inPage hsize hs⟩

theorem stores_in_page_run : ∃ r s, processExecute plenty echo (fun _ => 9) = .ok (r, s) ∧
    InPage s := by
  have htokens : commandTokens echo = [[101, 99, 104, 111], [120]] := by decide
  obtain ⟨r, s, hrun, hpage⟩ := stores_in_page (show 0 ∉ echo by decide)
    (by rw [htokens]; decide) plenty (fun _ => 9)
  refine ⟨r, s, hrun, hpage.mpr (.inr ?_)⟩
  rw [htokens]
  decide

/-! ## Where it is not on the page -/

/-- A command line of `n` tokens of one letter. -/
def letters (n : ℕ) : List UInt8 := (List.replicate n [97, blank]).flatten

theorem letters_tokens (n : ℕ) : tokens blank (letters n) = List.replicate n [97] := by
  induction n with
  | zero => rfl
  | succ n ih =>
      have hcons : letters (n + 1) = [97] ++ blank :: letters n := rfl
      rw [hcons, tokens_token_append (by decide) (List.cons_ne_nil _ _), ih]
      rfl

theorem letters_length (n : ℕ) : (letters n).length = 2 * n := by
  induction n with
  | zero => rfl
  | succ n ih =>
      have hcons : letters (n + 1) = 97 :: blank :: letters n := rfl
      rw [hcons, List.length_cons, List.length_cons, ih]
      omega

theorem letters_nonzero (n : ℕ) : 0 ∉ letters n := by
  intro hmem
  obtain ⟨l, hl, h0⟩ := List.mem_flatten.mp hmem
  rw [List.eq_of_mem_replicate hl] at h0
  revert h0
  decide

/-- With 681 tokens of one letter, `setup_stack` succeeds and has stored below the page. -/
theorem stores_below_page : ∃ s, processExecute plenty (letters 681) (fun _ => 9) = .ok (true, s) ∧
    ¬ InPage s := by
  have htokens : commandTokens (letters 681) = List.replicate 681 [97] := by
    unfold commandTokens
    rw [List.take_of_length_le (by rw [letters_length]; decide), letters_tokens]
  have hne : commandTokens (letters 681) ≠ [] := by
    rw [htokens]
    exact List.cons_ne_nil _ _
  obtain ⟨-, hrun⟩ | ⟨ha, -⟩ := processExecute_spec (letters_nonzero 681) hne plenty (fun _ => 9)
  · refine ⟨_, hrun, ?_⟩
    intro hpage
    have hsize := argumentStack_inPage.mp hpage
    rw [htokens] at hsize
    revert hsize
    unfold stackSize stringsSize
    rw [List.map_replicate, List.sum_replicate, List.length_replicate]
    decide
  · exact absurd ⟨rfl, rfl, fun _ _ => rfl⟩ ha

end Pintos.Arguments
