import Mathlib.Algebra.Order.Ring.Int
import Mathlib.Data.List.Forall2
import Mathlib.Order.Interval.Finset.Nat
import Mathlib.Tactic.Common

/-! # Memory and a stack that grows downwards

Memory holds bytes at natural addresses. Words are stored with the lowest byte
first, and strings end with a zero byte. What is pushed on a stack is stored right
below what is there already, which therefore stays as it is: `Grows` is the rule
for that.
-/

namespace Memory

/-- The contents of memory. -/
abbrev Mem := ℕ → UInt8

/-- Store bytes one behind the other. -/
def store (m : Mem) (a : ℕ) (bs : List UInt8) : Mem := fun x =>
  if a ≤ x then bs[x - a]?.getD (m x) else m x

/-- Load `n` bytes. -/
def load (m : Mem) (a n : ℕ) : List UInt8 := (List.range n).map fun i => m (a + i)

section

variable {m m' : Mem} {a b n x : ℕ} {bs cs : List UInt8}

theorem store_below (h : x < a) : store m a bs x = m x := if_neg (Nat.not_le.mpr h)

theorem store_above (h : a + bs.length ≤ x) : store m a bs x = m x := by
  unfold store
  rw [if_pos (by omega), List.getElem?_eq_none (by omega)]
  rfl

theorem store_add : store m a bs (a + n) = bs[n]?.getD (m (a + n)) := by
  unfold store
  rw [if_pos (Nat.le_add_right a n), Nat.add_sub_cancel_left]

@[simp] theorem store_nil : store m a [] = m := by
  funext x
  unfold store
  split
  · rfl
  · rfl

/-- Bytes that are stored before others. -/
theorem store_store : store (store m (a + bs.length) cs) a bs = store m a (bs ++ cs) := by
  funext x
  by_cases hx : a ≤ x
  · obtain ⟨n, rfl⟩ := Nat.exists_eq_add_of_le hx
    rw [store_add, store_add]
    by_cases hn : n < bs.length
    · rw [List.getElem?_append_left hn, List.getElem?_eq_getElem hn]
      rfl
    · obtain ⟨k, rfl⟩ := Nat.exists_eq_add_of_le (Nat.not_lt.mp hn)
      rw [List.getElem?_append_right (Nat.le_add_right ..), List.getElem?_eq_none (by omega),
        ← Nat.add_assoc, store_add, Nat.add_sub_cancel_left]
      rfl
  · have hlt : x < a := Nat.not_le.mp hx
    rw [store_below hlt, store_below hlt, store_below (by omega)]

@[simp] theorem load_length : (load m a n).length = n := by
  unfold load
  rw [List.length_map, List.length_range]

theorem load_congr (h : ∀ i < n, m' (a + i) = m (a + i)) : load m' a n = load m a n :=
  List.map_congr_left fun i hi => h i (List.mem_range.mp hi)

/-- What has been stored is loaded. -/
theorem load_store : load (store m a bs) a bs.length = bs := by
  unfold load
  refine List.ext_getElem (by rw [List.length_map, List.length_range]) ?_
  intro i hi hi'
  rw [List.getElem_map, List.getElem_range, store_add, List.getElem?_eq_getElem hi']
  rfl

end

/-! ## Words -/

/-- The lowest `n` bytes of a number, the lowest first. -/
def bytes : ℕ → ℕ → List UInt8
  | 0, _ => []
  | n + 1, v => UInt8.ofNat v :: bytes n (v / 256)

/-- The number with given bytes. -/
def value : List UInt8 → ℕ
  | [] => 0
  | b :: bs => b.toNat + 256 * value bs

/-- The bytes of a word. -/
def word (v : ℕ) : List UInt8 := bytes 4 v

def loadWord (m : Mem) (a : ℕ) : ℕ := value (load m a 4)

section

variable {m m' : Mem} {a n v : ℕ}

@[simp] theorem bytes_length : (bytes n v).length = n := by
  induction n generalizing v with
  | zero => rfl
  | succ n ih => exact congrArg (· + 1) ih

@[simp] theorem word_length : (word v).length = 4 := bytes_length

theorem value_bytes : value (bytes n v) = v % 256 ^ n := by
  induction n generalizing v with
  | zero => exact (Nat.mod_one v).symm
  | succ n ih =>
      show (UInt8.ofNat v).toNat + 256 * value (bytes n (v / 256)) = _
      have hmod : v % (256 * 256 ^ n) = v % 256 + 256 * (v / 256 % 256 ^ n) := Nat.mod_mul
      rw [ih, UInt8.toNat_ofNat', pow_succ' 256 n, hmod]

/-- The value of a word that has been stored. -/
theorem loadWord_store (hv : v < 2 ^ 32) : loadWord (store m a (word v)) a = v := by
  have hload : load (store m a (word v)) a (word v).length = word v := load_store
  rw [word_length] at hload
  unfold loadWord
  rw [hload]
  exact value_bytes.trans (Nat.mod_eq_of_lt hv)

theorem loadWord_congr (h : ∀ i < 4, m' (a + i) = m (a + i)) : loadWord m' a = loadWord m a := by
  unfold loadWord
  rw [load_congr h]

end

/-! ## Strings -/

/-- A string that ends with a zero byte. -/
structure StringAt (m : Mem) (a : ℕ) (s : List UInt8) : Prop where
  bytes : load m a (s.length + 1) = s ++ [0]
  nonzero : 0 ∉ s

theorem StringAt.congr {m m' : Mem} {a : ℕ} {s : List UInt8} (h : StringAt m a s)
    (heq : ∀ i < s.length + 1, m' (a + i) = m (a + i)) : StringAt m' a s :=
  ⟨(load_congr heq).trans h.bytes, h.nonzero⟩

/-- A string that has been stored. -/
theorem stringAt_store {m : Mem} {a : ℕ} {s : List UInt8} (hs : 0 ∉ s) :
    StringAt (store m a (s ++ [0])) a s := by
  refine ⟨?_, hs⟩
  have hload : load (store m a (s ++ [0])) a (s ++ [0]).length = s ++ [0] := load_store
  rwa [List.length_append] at hload

/-! ## The stack -/

/-- A stack, and the addresses to which something has been stored through its pointer. -/
@[ext] structure Stack where
  esp : ℕ
  mem : Mem
  stored : Finset ℕ

/-- Lower the stack pointer. -/
def Stack.lower (s : Stack) (n : ℕ) : Stack := { s with esp := s.esp - n }

/-- Store bytes at the stack pointer. -/
def Stack.put (s : Stack) (bs : List UInt8) : Stack :=
  { s with
    mem := store s.mem s.esp bs
    stored := s.stored ∪ Finset.Ico s.esp (s.esp + bs.length) }

def Stack.push (s : Stack) (bs : List UInt8) : Stack := (s.lower bs.length).put bs

/-- Push strings one after the other; their addresses. -/
def Stack.pushStrings (s : Stack) : List (List UInt8) → Stack × List ℕ
  | [] => (s, [])
  | t :: ts =>
      let s' := s.push (t ++ [0])
      ((s'.pushStrings ts).1, s'.esp :: (s'.pushStrings ts).2)

/-- Push words one after the other. -/
def Stack.pushWords (s : Stack) : List ℕ → Stack
  | [] => s
  | w :: ws => (s.push (word w)).pushWords ws

/-- The bytes that strings take. -/
def stringsSize (ts : List (List UInt8)) : ℕ := (ts.map fun t => t.length + 1).sum

theorem stringsSize_cons {t : List UInt8} {ts : List (List UInt8)} :
    stringsSize (t :: ts) = (t ++ [0]).length + stringsSize ts := by
  rw [List.length_append]
  exact List.sum_cons

/-- What is above the old stack pointer is left as it is. -/
structure Grows (s s' : Stack) : Prop where
  esp_le : s'.esp ≤ s.esp
  mem : ∀ x, s.esp ≤ x → s'.mem x = s.mem x

namespace Stack

variable {s s' s'' : Stack} {a n w : ℕ} {bs cs t : List UInt8} {ts : List (List UInt8)}
  {ws : List ℕ}

@[simp] theorem push_esp : (s.push bs).esp = s.esp - bs.length := rfl

@[simp] theorem push_mem : (s.push bs).mem = store s.mem (s.esp - bs.length) bs := rfl

@[simp] theorem push_stored : (s.push bs).stored =
    s.stored ∪ Finset.Ico (s.esp - bs.length) (s.esp - bs.length + bs.length) := rfl

/-- Bytes that are pushed on top of others. -/
theorem push_push (h : bs.length + cs.length ≤ s.esp) :
    (s.push cs).push bs = s.push (bs ++ cs) := by
  have hlen : (bs ++ cs).length = bs.length + cs.length := List.length_append
  have hesp : s.esp - cs.length - bs.length = s.esp - (bs.length + cs.length) := by omega
  have hadd : s.esp - cs.length = s.esp - (bs.length + cs.length) + bs.length := by omega
  refine Stack.ext ?_ ?_ ?_
  · rw [push_esp, push_esp, push_esp, hesp, hlen]
  · rw [push_mem, push_mem, push_mem, push_esp, hesp, hadd, store_store, hlen]
  · rw [push_stored, push_stored, push_stored, push_esp, hesp]
    ext x
    simp only [Finset.mem_union, Finset.mem_Ico, hlen, or_assoc]
    exact or_congr Iff.rfl (by omega)

end Stack

namespace Grows

variable {s s' s'' : Stack} {a : ℕ} {bs t : List UInt8}

theorem refl (s : Stack) : Grows s s := ⟨le_rfl, fun _ _ => rfl⟩

theorem trans (h : Grows s s') (h' : Grows s' s'') : Grows s s'' where
  esp_le := h'.esp_le.trans h.esp_le
  mem := fun x hx => (h'.mem x (h.esp_le.trans hx)).trans (h.mem x hx)

theorem push (h : bs.length ≤ s.esp) : Grows s (s.push bs) where
  esp_le := Nat.sub_le ..
  mem := fun x hx => store_above (show s.esp - bs.length + bs.length ≤ x by omega)

theorem stringAt (h : Grows s s') (ht : StringAt s.mem a t) (ha : s.esp ≤ a) :
    StringAt s'.mem a t := ht.congr fun i _ => h.mem _ (ha.trans (Nat.le_add_right a i))

theorem loadWord (h : Grows s s') (ha : s.esp ≤ a) : loadWord s'.mem a = loadWord s.mem a :=
  loadWord_congr fun i _ => h.mem _ (ha.trans (Nat.le_add_right a i))

end Grows

/-- Something has been stored to all bytes from the new stack pointer to the old one. -/
structure Fills (s s' : Stack) : Prop where
  esp_le : s'.esp ≤ s.esp
  stored : s'.stored = s.stored ∪ Finset.Ico s'.esp s.esp

namespace Fills

variable {s s' s'' : Stack} {bs : List UInt8}

theorem refl (s : Stack) : Fills s s := ⟨le_rfl, by rw [Finset.Ico_self, Finset.union_empty]⟩

theorem trans (h : Fills s s') (h' : Fills s' s'') : Fills s s'' where
  esp_le := h'.esp_le.trans h.esp_le
  stored := by
    rw [h'.stored, h.stored, Finset.union_assoc, Finset.union_comm (Finset.Ico s'.esp s.esp),
      Finset.Ico_union_Ico_eq_Ico h'.esp_le h.esp_le]

theorem push (h : bs.length ≤ s.esp) : Fills s (s.push bs) where
  esp_le := Nat.sub_le ..
  stored := by rw [Stack.push_stored, Stack.push_esp, Nat.sub_add_cancel h]

end Fills

/-! ## Pushing one after the other -/

namespace Stack

variable {s : Stack} {t : List UInt8} {ts : List (List UInt8)} {w i : ℕ} {ws : List ℕ}

@[simp] theorem push_nil : s.push [] = s := by
  refine Stack.ext rfl ?_ ?_
  · exact store_nil
  · rw [push_stored]
    simp

theorem pushStrings_cons : s.pushStrings (t :: ts) =
    (((s.push (t ++ [0])).pushStrings ts).1,
      (s.push (t ++ [0])).esp :: ((s.push (t ++ [0])).pushStrings ts).2) := rfl

@[simp] theorem pushStrings_esp : (s.pushStrings ts).1.esp = s.esp - stringsSize ts := by
  induction ts generalizing s with
  | nil => rfl
  | cons t ts ih => rw [pushStrings_cons, ih, push_esp, stringsSize_cons, Nat.sub_sub]

theorem pushStrings_length : (s.pushStrings ts).2.length = ts.length := by
  induction ts generalizing s with
  | nil => rfl
  | cons t ts ih => exact congrArg (· + 1) ih

@[simp] theorem pushWords_esp : (s.pushWords ws).esp = s.esp - 4 * ws.length := by
  induction ws generalizing s with
  | nil => rfl
  | cons w ws ih =>
      show ((s.push (word w)).pushWords ws).esp = _
      rw [ih, push_esp, word_length, List.length_cons]
      omega

/-- Where strings have been pushed. -/
theorem pushStrings_spec (hts : ∀ t ∈ ts, 0 ∉ t) (hsize : stringsSize ts ≤ s.esp) :
    Grows s (s.pushStrings ts).1 ∧
      List.Forall₂ (fun a t => StringAt (s.pushStrings ts).1.mem a t ∧
        (s.pushStrings ts).1.esp ≤ a ∧ a < s.esp) (s.pushStrings ts).2 ts := by
  induction ts generalizing s with
  | nil => exact ⟨.refl s, .nil⟩
  | cons t ts ih =>
      rw [stringsSize_cons] at hsize
      have hpush : Grows s (s.push (t ++ [0])) := .push (by omega)
      have hesp : (s.push (t ++ [0])).esp = s.esp - (t ++ [0]).length := push_esp
      have hpos : 0 < (t ++ [0]).length := by
        rw [List.length_append]
        exact Nat.succ_pos _
      obtain ⟨hgrows, hall⟩ := ih (fun t ht => hts t (List.mem_cons_of_mem _ ht))
        (s := s.push (t ++ [0])) (by omega)
      rw [pushStrings_cons]
      have hstring : StringAt (s.push (t ++ [0])).mem (s.push (t ++ [0])).esp t :=
        stringAt_store (hts t List.mem_cons_self)
      refine ⟨hpush.trans hgrows, .cons ⟨hgrows.stringAt hstring le_rfl, hgrows.esp_le, ?_⟩ ?_⟩
      · rw [hesp]
        omega
      · refine hall.imp fun a u ⟨hu, hle, hlt⟩ => ⟨hu, hle, ?_⟩
        exact lt_of_lt_of_le hlt hpush.esp_le

/-- The last word that has been pushed is the lowest. -/
theorem pushWords_spec (hws : ∀ w ∈ ws, w < 2 ^ 32) (hsize : 4 * ws.length ≤ s.esp) :
    Grows s (s.pushWords ws) ∧ ∀ i (hi : i < ws.length),
      Memory.loadWord (s.pushWords ws).mem (s.esp - 4 * (i + 1)) = ws[i] := by
  induction ws generalizing s with
  | nil => exact ⟨.refl s, fun i hi => absurd hi (Nat.not_lt_zero i)⟩
  | cons w ws ih =>
      rw [List.length_cons] at hsize
      have hpush : Grows s (s.push (word w)) := .push (by rw [word_length]; omega)
      have hesp : (s.push (word w)).esp = s.esp - 4 := rfl
      obtain ⟨hgrows, hall⟩ := ih (fun w hw => hws w (List.mem_cons_of_mem _ hw))
        (s := s.push (word w)) (by omega)
      have hword : Memory.loadWord (s.push (word w)).mem (s.push (word w)).esp = w :=
        loadWord_store (hws w List.mem_cons_self)
      refine ⟨hpush.trans hgrows, ?_⟩
      intro i hi
      cases i with
      | zero => exact (hgrows.loadWord le_rfl).trans hword
      | succ i =>
          have hi' := hall i (Nat.lt_of_succ_lt_succ hi)
          rw [hesp, Nat.sub_sub] at hi'
          rw [show 4 * (i + 1 + 1) = 4 + 4 * (i + 1) by omega]
          exact hi'

theorem pushStrings_fills (hsize : stringsSize ts ≤ s.esp) : Fills s (s.pushStrings ts).1 := by
  induction ts generalizing s with
  | nil => exact .refl s
  | cons t ts ih =>
      rw [stringsSize_cons] at hsize
      have hpush : Fills s (s.push (t ++ [0])) := .push (by omega)
      exact hpush.trans (ih (by rw [push_esp]; omega))

theorem pushWords_fills (hsize : 4 * ws.length ≤ s.esp) : Fills s (s.pushWords ws) := by
  induction ws generalizing s with
  | nil => exact .refl s
  | cons w ws ih =>
      rw [List.length_cons] at hsize
      have hpush : Fills s (s.push (word w)) := .push (by rw [word_length]; omega)
      exact hpush.trans (ih (by rw [push_esp, word_length]; omega))

end Stack

end Memory
