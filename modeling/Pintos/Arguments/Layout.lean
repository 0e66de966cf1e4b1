import Pintos.Lib.Memory
import Pintos.Vm.State

/-! # The arguments on the stack

How a program finds its arguments on its stack: `argc` and `argv` above the return
address, and `argv` an array of pointers to strings that ends with a null pointer.
Below the strings come padding to a word, the pointers from the last to the first,
`argv`, `argc` and a return address; what is pushed in this order can be decoded.
-/

namespace Pintos.Arguments

open Memory
open Vm (pgSize)

/-- The blank, which separates tokens. -/
def blank : UInt8 := 32

/-- `PHYS_BASE`. -/
def physBase : ℕ := Vm.physBase.toNat

theorem physBase_lt : physBase < 2 ^ 32 := by decide

/-- The stack before anything is pushed. -/
def emptyStack (m : Mem) : Stack := { esp := physBase, mem := m, stored := ∅ }

/-- The page of the stack. -/
def InPage (s : Stack) : Prop := ∀ x ∈ s.stored, physBase - pgSize ≤ x ∧ x < physBase

/-- The pointer `argv[i]` on the stack. -/
def argAt (m : Mem) (esp i : ℕ) : ℕ := loadWord m (loadWord m (esp + 8) + 4 * i)

/-- The stack passes arguments to a program. -/
structure Decodes (m : Mem) (esp : ℕ) (ts : List (List UInt8)) : Prop where
  aligned : esp % 4 = 0
  argc : loadWord m (esp + 4) = ts.length
  argv : ∀ i (hi : i < ts.length), StringAt m (argAt m esp i) ts[i]
  null : argAt m esp ts.length = 0

/-- The strings are above the pointers. -/
def Apart (m : Mem) (esp n : ℕ) : Prop :=
  ∀ i < n, loadWord m (esp + 8) + 4 * (n + 1) ≤ argAt m esp i

/-- The padding below strings of a given size. -/
def padding (size : ℕ) : ℕ := (physBase - size) % 4

/-- The bytes that the arguments take: the strings, padding, the pointers and three
words. -/
def stackSize (ts : List (List UInt8)) : ℕ :=
  stringsSize ts + padding (stringsSize ts) + 4 * (ts.length + 1) + 12

/-- The padding, and the pointers from the null pointer down to the first one. -/
def pushPointers (s : Stack) (as : List ℕ) : Stack :=
  (s.push (List.replicate (s.esp % 4) 0)).pushWords (0 :: as.reverse)

/-- What is pushed below the strings at the addresses `as`. -/
def pushFrame (s : Stack) (as : List ℕ) : Stack :=
  (pushPointers s as).pushWords [(pushPointers s as).esp, as.length, 0]

variable {s : Stack} {as : List ℕ} {ts : List (List UInt8)} {i n : ℕ}

theorem pushPointers_esp :
    (pushPointers s as).esp = s.esp - s.esp % 4 - 4 * (as.length + 1) := by
  unfold pushPointers
  rw [Stack.pushWords_esp, Stack.push_esp, List.length_replicate, List.length_cons,
    List.length_reverse]

theorem pushFrame_esp :
    (pushFrame s as).esp = s.esp - (s.esp % 4 + 4 * (as.length + 1) + 12) := by
  unfold pushFrame
  rw [Stack.pushWords_esp, pushPointers_esp, Nat.sub_sub, Nat.sub_sub]
  rfl

theorem pushFrame_fills (hsize : s.esp % 4 + 4 * (as.length + 1) + 12 ≤ s.esp) :
    Fills s (pushFrame s as) := by
  have hpad : Fills s (s.push (List.replicate (s.esp % 4) 0)) :=
    .push (by rw [List.length_replicate]; omega)
  have hptrs : Fills s (pushPointers s as) := by
    refine hpad.trans (Stack.pushWords_fills ?_)
    rw [Stack.push_esp, List.length_replicate, List.length_cons, List.length_reverse]
    omega
  refine hptrs.trans (Stack.pushWords_fills ?_)
  rw [pushPointers_esp]
  show 4 * 3 ≤ _
  omega

theorem pushPointers_spec (hesp : s.esp < 2 ^ 32) (has : ∀ a ∈ as, a < 2 ^ 32)
    (hsize : s.esp % 4 + 4 * (as.length + 1) ≤ s.esp) :
    Grows s (pushPointers s as) ∧
      (∀ i (hi : i < as.length),
        loadWord (pushPointers s as).mem ((pushPointers s as).esp + 4 * i) = as[i]) ∧
      loadWord (pushPointers s as).mem ((pushPointers s as).esp + 4 * as.length) = 0 := by
  have hpad : Grows s (s.push (List.replicate (s.esp % 4) 0)) :=
    .push (by rw [List.length_replicate]; omega)
  have hpadEsp : (s.push (List.replicate (s.esp % 4) 0)).esp = s.esp - s.esp % 4 := by
    rw [Stack.push_esp, List.length_replicate]
  have hlen : (0 :: as.reverse).length = as.length + 1 := by
    rw [List.length_cons, List.length_reverse]
  have hwords : ∀ w ∈ 0 :: as.reverse, w < 2 ^ 32 := by
    intro w hw
    rcases List.mem_cons.mp hw with rfl | hw
    · exact Nat.two_pow_pos 32
    · exact has w (List.mem_reverse.mp hw)
  have hfits : 4 * (0 :: as.reverse).length ≤ (s.push (List.replicate (s.esp % 4) 0)).esp := by
    rw [hlen, hpadEsp]
    omega
  obtain ⟨hgrows, hall⟩ := Stack.pushWords_spec hwords hfits
  rw [hpadEsp] at hall
  refine ⟨hpad.trans hgrows, ?_, ?_⟩
  · intro i hi
    -- the pointers are pushed from the last to the first
    have hword := hall (as.length - 1 - i + 1) (by rw [hlen]; omega)
    rw [List.getElem_cons_succ, List.getElem_reverse] at hword
    have hindex : as.length - 1 - (as.length - 1 - i) = i := by omega
    have haddr : (pushPointers s as).esp + 4 * i =
        s.esp - s.esp % 4 - 4 * (as.length - 1 - i + 1 + 1) := by
      rw [pushPointers_esp]
      omega
    rw [haddr]
    apply hword.trans
    congr 1
  · have hword := hall 0 (by rw [hlen]; omega)
    have haddr : (pushPointers s as).esp + 4 * as.length = s.esp - s.esp % 4 - 4 * (0 + 1) := by
      rw [pushPointers_esp]
      omega
    rw [haddr]
    exact hword

/-- The three words below the pointers. -/
theorem pushFrame_spec (hesp : (pushPointers s as).esp < 2 ^ 32) (has : as.length < 2 ^ 32)
    (hsize : 12 ≤ (pushPointers s as).esp) :
    Grows (pushPointers s as) (pushFrame s as) ∧
      (pushFrame s as).esp + 12 = (pushPointers s as).esp ∧
      loadWord (pushFrame s as).mem ((pushFrame s as).esp + 8) = (pushPointers s as).esp ∧
      loadWord (pushFrame s as).mem ((pushFrame s as).esp + 4) = as.length ∧
      loadWord (pushFrame s as).mem (pushFrame s as).esp = 0 := by
  have hbounds : ∀ w ∈ [(pushPointers s as).esp, as.length, 0], w < 2 ^ 32 := by
    intro w hw
    simp only [List.mem_cons, List.not_mem_nil, or_false] at hw
    rcases hw with rfl | rfl | rfl
    · exact hesp
    · exact has
    · exact Nat.two_pow_pos 32
  obtain ⟨hgrows, hwords⟩ := Stack.pushWords_spec hbounds hsize
  have hend : (pushFrame s as).esp = (pushPointers s as).esp - 12 := Stack.pushWords_esp
  have hargv := hwords 0 (show 0 < 3 by decide)
  have hargc := hwords 1 (show 1 < 3 by decide)
  have hreturn := hwords 2 (show 2 < 3 by decide)
  refine ⟨hgrows, ?_, ?_, ?_, ?_⟩
  · rw [hend]
    exact Nat.sub_add_cancel hsize
  · rw [show (pushFrame s as).esp + 8 = (pushPointers s as).esp - 4 * (0 + 1) by omega]
    exact hargv
  · rw [show (pushFrame s as).esp + 4 = (pushPointers s as).esp - 4 * (1 + 1) by omega]
    exact hargc
  · rw [hend]
    exact hreturn

/-- What has been pushed below the strings can be decoded. -/
theorem pushFrame_decodes (hesp : s.esp < 2 ^ 32)
    (has : List.Forall₂ (fun a t => StringAt s.mem a t ∧ s.esp ≤ a ∧ a < 2 ^ 32) as ts)
    (hsize : s.esp % 4 + 4 * (ts.length + 1) + 12 ≤ s.esp) :
    Decodes (pushFrame s as).mem (pushFrame s as).esp ts ∧
      loadWord (pushFrame s as).mem (pushFrame s as).esp = 0 ∧
      Apart (pushFrame s as).mem (pushFrame s as).esp ts.length := by
  have hlen : as.length = ts.length := has.length_eq
  have hlt : ∀ a ∈ as, a < 2 ^ 32 := by
    intro a ha
    obtain ⟨i, hi, rfl⟩ := List.getElem_of_mem ha
    exact (has.get hi (hlen ▸ hi)).2.2
  rw [← hlen] at hsize
  have hptrEsp : (pushPointers s as).esp = s.esp - s.esp % 4 - 4 * (as.length + 1) :=
    pushPointers_esp
  obtain ⟨hptr, hptrs, hnull⟩ := pushPointers_spec hesp hlt (by omega)
  have hptrLt : (pushPointers s as).esp < 2 ^ 32 := by omega
  obtain ⟨hgrows, hend, hargv, hargc, hreturn⟩ := pushFrame_spec hptrLt (by omega) (by omega)
  have hkeep : ∀ i, argAt (pushFrame s as).mem (pushFrame s as).esp i =
      loadWord (pushPointers s as).mem ((pushPointers s as).esp + 4 * i) := fun i => by
    unfold argAt
    rw [hargv]
    exact hgrows.loadWord (Nat.le_add_right ..)
  have harg : ∀ i (hi : i < as.length),
      argAt (pushFrame s as).mem (pushFrame s as).esp i = as[i] := fun i hi => by
    rw [hkeep, hptrs i hi]
  refine ⟨⟨by omega, hargc.trans hlen, ?_, ?_⟩, hreturn, ?_⟩
  · intro i hi
    have hi' : i < as.length := hlen.symm ▸ hi
    obtain ⟨hstring, hle, -⟩ := has.get hi' hi
    rw [harg i hi']
    exact (hptr.trans hgrows).stringAt hstring hle
  · rw [hkeep, ← hlen]
    exact hnull
  · intro i hi
    have hi' : i < as.length := hlen.symm ▸ hi
    obtain ⟨-, hle, -⟩ := has.get hi' hi
    have hle' : s.esp ≤ as[i] := hle
    rw [hargv, harg i hi', hptrEsp]
    omega

/-! ## The strings -/

theorem emptyStack_strings {m : Mem} (hts : ∀ t ∈ ts, 0 ∉ t) (hsize : stringsSize ts ≤ physBase) :
    List.Forall₂ (fun a t => StringAt ((emptyStack m).pushStrings ts).1.mem a t ∧
      ((emptyStack m).pushStrings ts).1.esp ≤ a ∧ a < 2 ^ 32)
      ((emptyStack m).pushStrings ts).2 ts := by
  obtain ⟨-, hall⟩ := Stack.pushStrings_spec (s := emptyStack m) hts hsize
  exact hall.imp fun a t h => ⟨h.1, h.2.1, h.2.2.trans physBase_lt⟩

theorem emptyStack_esp {m : Mem} :
    ((emptyStack m).pushStrings ts).1.esp = physBase - stringsSize ts := Stack.pushStrings_esp

end Pintos.Arguments
