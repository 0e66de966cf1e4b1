import Mathlib.Algebra.Group.Nat.Even
import Pintos.Lib.IntrusiveList
import Pintos.Project2.Syscall

/-! # The two lookups of a descriptor

`file_check` and `process_file_get` on the links of a `file_list`, with the elements that
`file_check` calls `list_next` for. It calls it twice in a round, and so compares only every
other descriptor. The two lookups agree if a descriptor that is compared has the
number, and the first one compared has the file of the first one of all; and if none
of them has it, the list has even length, and there is no file to be found.
-/

namespace Pintos.Project2

open Intrusive
open Vm (FilePtr)

/-- The `file_list` of a process in memory, with its elements in order and what they are
members of. -/
structure FileList (N : Type) (p : Process) where
  links : Links N
  ends : Ends N
  elems : List N
  entry : N → ProcessFile
  isList : IsList links ends elems
  files : elems.map entry = p.fileList

/-- The elements that `list_next` was called for, and what is returned unless the last of
these calls failed. -/
structure Lookup (N : Type) where
  calls : List N
  result : Option (Option FilePtr)
deriving DecidableEq, Repr

section

variable {N : Type} [DecidableEq N] {p : Process}

/-- The loop of `file_check`, as far as it gets in some rounds. `list_next` asserts that
its argument has a successor. -/
def FileList.fileCheckFrom (l : FileList N p) (fd : ℤ) : ℕ → N → Option (Lookup N)
  | 0, _ => none
  | rounds + 1, e =>
      match l.links.next e with
      | none => some ⟨[e], none⟩
      | some pf =>
          if pf = l.ends.tail then some ⟨[e], some none⟩
          else if fd = (l.entry pf).fd then some ⟨[e], some (l.entry pf).file⟩
          else
            match l.links.next pf with
            | none => some ⟨[e, pf], none⟩
            | some e' => (l.fileCheckFrom fd rounds e').map fun r => ⟨e :: pf :: r.calls, r.result⟩

/-- `file_check`. -/
def FileList.fileCheck (l : FileList N p) (fd : ℤ) (rounds : ℕ) : Option (Lookup N) :=
  l.fileCheckFrom fd rounds l.ends.head

/-- `process_file_get`. -/
def FileList.processFileGet (l : FileList N p) (fd : ℤ) (rounds : ℕ) : Option (Option FilePtr) := do
  let e ← l.links.next l.ends.head
  let r ← search l.links.next l.ends.tail (fun e => decide (fd = (l.entry e).fd)) rounds e
  return r.2.bind fun e => (l.entry e).file

end

/-! ## What agreement takes -/

/-- The elements at even positions. -/
def everyOther {α : Type} : List α → List α
  | [] => []
  | [x] => [x]
  | x :: _ :: rest => x :: everyOther rest

/-- A descriptor is the first with a number. -/
def IsFirst (fd : ℤ) (files : List ProcessFile) (pf : ProcessFile) : Prop :=
  ∃ before after, files = before ++ pf :: after ∧ pf.fd = fd ∧ ∀ q ∈ before, q.fd ≠ fd

/-- A descriptor that `file_check` compares has the number, and the first such has the file
of the first of all. -/
def Compared (fd : ℤ) (files : List ProcessFile) : Prop :=
  ∃ pf, IsFirst fd (everyOther files) pf ∧ ∀ q, IsFirst fd files q → q.file = pf.file

/-- No descriptor that `file_check` compares has the number, the loop ends at the tail,
and there is no file with the number. -/
def Absent (fd : ℤ) (files : List ProcessFile) : Prop :=
  (∀ pf ∈ everyOther files, pf.fd ≠ fd) ∧ Even files.length ∧
    ∀ q, IsFirst fd files q → q.file = none

/-- `f` is what is to be found: the file of the first descriptor with the number, or `NULL`. -/
def IsFile (fd : ℤ) (files : List ProcessFile) (f : Option FilePtr) : Prop :=
  (∃ pf, IsFirst fd files pf ∧ f = pf.file) ∨ (∀ pf ∈ files, pf.fd ≠ fd) ∧ f = none

/-- The lookups return the same, which is what is to be found, and `file_check` does not
call `list_next` for the tail. -/
structure FileList.LookupsAgree {N : Type} [DecidableEq N] {p : Process} (l : FileList N p)
    (fd : ℤ) (f : Option FilePtr) (rounds : ℕ) : Prop where
  isFile : IsFile fd p.fileList f
  processFileGet : l.processFileGet fd rounds = some f
  fileCheck : ∃ calls, l.fileCheck fd rounds = some ⟨calls, some f⟩ ∧ l.ends.tail ∉ calls

/-! ## The descriptors that are compared -/

section

variable {fd : ℤ} {files : List ProcessFile} {p : Process} {pf q : ProcessFile}
  {f : Option FilePtr}

theorem everyOther_sublist {α : Type} (xs : List α) : (everyOther xs).Sublist xs := by
  induction xs using everyOther.induct with
  | case1 => exact List.Sublist.refl []
  | case2 x => exact List.Sublist.refl [x]
  | case3 x y rest ih => exact (ih.cons y).cons_cons x

theorem isFirst_iff : IsFirst fd files pf ↔ files.find? (fun q => fd = q.fd) = some pf := by
  rw [List.find?_eq_some_iff_append]
  constructor
  · rintro ⟨before, after, hfiles, hfd, hbefore⟩
    refine ⟨decide_eq_true hfd.symm, before, after, hfiles, fun q hq => ?_⟩
    simpa using (hbefore q hq).symm
  · rintro ⟨hfd, before, after, hfiles, hbefore⟩
    refine ⟨before, after, hfiles, (of_decide_eq_true hfd).symm, fun q hq heq => ?_⟩
    simpa [heq] using hbefore q hq

theorem IsFirst.mem (h : IsFirst fd files pf) : pf ∈ files :=
  List.mem_of_find?_eq_some (isFirst_iff.mp h)

theorem IsFirst.unique (h : IsFirst fd files pf) (h' : IsFirst fd files q) : pf = q :=
  Option.some.inj ((isFirst_iff.mp h).symm.trans (isFirst_iff.mp h'))

theorem IsFirst.fd_eq (h : IsFirst fd files pf) : pf.fd = fd := by
  obtain ⟨_, _, _, hfd, _⟩ := h
  exact hfd

theorem isFirst_head (files : List ProcessFile) (h : pf.fd = fd) : IsFirst fd (pf :: files) pf :=
  ⟨[], files, rfl, h, fun _ hq => absurd hq List.not_mem_nil⟩

theorem IsFirst.cons (h : IsFirst fd files pf) (hq : q.fd ≠ fd) : IsFirst fd (q :: files) pf := by
  obtain ⟨before, after, hfiles, hfd, hbefore⟩ := h
  refine ⟨q :: before, after, congrArg (q :: ·) hfiles, hfd, ?_⟩
  exact List.forall_mem_cons.mpr ⟨hq, hbefore⟩

/-- What is to be found is what `process_file_get` returns. -/
theorem isFile_iff : IsFile fd p.fileList f ↔ f = processFileGet p fd := by
  unfold IsFile processFileGet
  cases hfind : p.fileList.find? (fun q => fd = q.fd) with
  | none =>
      have hnone : ∀ q ∈ p.fileList, q.fd ≠ fd := by
        intro q hq heq
        simpa [heq] using List.find?_eq_none.mp hfind q hq
      constructor
      · rintro (⟨pf, hpf, -⟩ | ⟨-, hf⟩)
        · exact absurd hpf.fd_eq (hnone pf hpf.mem)
        · exact hf
      · intro hf
        exact .inr ⟨hnone, hf⟩
  | some pf =>
      have hpf : IsFirst fd p.fileList pf := isFirst_iff.mpr hfind
      constructor
      · rintro (⟨q, hq, hf⟩ | ⟨hnone, -⟩)
        · rw [hf, hq.unique hpf]
          rfl
        · exact absurd hpf.fd_eq (hnone pf hpf.mem)
      · intro hf
        exact .inl ⟨pf, hpf, hf⟩

/-- What `process_file_get` returns is the file of the first descriptor. -/
theorem IsFirst.processFileGet_eq (h : IsFirst fd p.fileList pf) :
    processFileGet p fd = pf.file :=
  (isFile_iff.mp (.inl ⟨pf, h, rfl⟩)).symm

theorem fileCheckLoop_found (rest : List ProcessFile) (hfd : fd = pf.fd) :
    fileCheckLoop fd (pf :: rest) = pure pf.file := by
  unfold fileCheckLoop
  exact if_pos hfd

theorem fileCheckLoop_last (hfd : fd ≠ pf.fd) : fileCheckLoop fd [pf] = .stop := by
  unfold fileCheckLoop
  exact if_neg hfd

theorem fileCheckLoop_round (q : ProcessFile) (rest : List ProcessFile) (hfd : fd ≠ pf.fd) :
    fileCheckLoop fd (pf :: q :: rest) = fileCheckLoop fd rest := by
  conv_lhs => unfold fileCheckLoop
  exact if_neg hfd

/-- `file_check` returns the first file among every other descriptor. If there is none, it
depends on the length whether the loop ends. -/
theorem fileCheckLoop_cases (fd : ℤ) (files : List ProcessFile) :
    (∃ pf, IsFirst fd (everyOther files) pf ∧ (fileCheckLoop fd files).result = some pf.file) ∨
    (∀ pf ∈ everyOther files, pf.fd ≠ fd) ∧
      (fileCheckLoop fd files).result = if Even files.length then some none else none := by
  fun_induction fileCheckLoop fd files with
  | case1 => exact .inr ⟨fun _ hq => absurd hq List.not_mem_nil, rfl⟩
  | case2 pf rest hfd =>
      refine .inl ⟨pf, ?_, rfl⟩
      cases rest with
      | nil => exact isFirst_head [] hfd.symm
      | cons q rest => exact isFirst_head (everyOther rest) hfd.symm
  | case3 pf hfd =>
      refine .inr ⟨?_, rfl⟩
      intro q hq
      rw [List.mem_singleton.mp hq]
      exact Ne.symm hfd
  | case4 pf hfd q rest ih =>
      rcases ih with ⟨pf', hfirst, hresult⟩ | ⟨hnone, hresult⟩
      · exact .inl ⟨pf', hfirst.cons (Ne.symm hfd), hresult⟩
      · refine .inr ⟨List.forall_mem_cons.mpr ⟨Ne.symm hfd, hnone⟩, ?_⟩
        -- two descriptors more leave the parity of the length as it is
        have hparity : Even (pf :: q :: rest).length ↔ Even rest.length := by
          rw [List.length_cons, List.length_cons, Nat.even_add_one, Nat.even_add_one, not_not]
        rw [hresult]
        simp only [hparity]

/-- The condition for `file_check` to return what `process_file_get` does. -/
theorem fileCheck_result_iff :
    (fileCheck p fd).result = some (processFileGet p fd) ↔
      Compared fd p.fileList ∨ Absent fd p.fileList := by
  unfold fileCheck
  rcases fileCheckLoop_cases fd p.fileList with ⟨pf, hfirst, hresult⟩ | ⟨hnone, hresult⟩
  · rw [hresult, Option.some.injEq]
    constructor
    · intro hfile
      refine .inl ⟨pf, hfirst, fun q hq => ?_⟩
      rw [hfile, hq.processFileGet_eq]
    · rintro (⟨pf', hfirst', hfile⟩ | ⟨hnone, -⟩)
      · -- a descriptor that is compared is one of the list, so there is a first
        obtain rfl := hfirst.unique hfirst'
        rcases isFile_iff.mpr (rfl : processFileGet p fd = _) with ⟨q, hq, hf⟩ | ⟨hnone, -⟩
        · rw [hf, hfile q hq]
        · exact absurd hfirst.fd_eq (hnone pf ((everyOther_sublist _).subset hfirst.mem))
      · exact absurd hfirst.fd_eq (hnone pf hfirst.mem)
  · rw [hresult]
    constructor
    · intro hsome
      by_cases hparity : Even p.fileList.length
      · rw [if_pos hparity, Option.some.injEq] at hsome
        refine .inr ⟨hnone, hparity, fun q hq => ?_⟩
        rw [← hq.processFileGet_eq, hsome]
      · rw [if_neg hparity] at hsome
        cases hsome
    · rintro (⟨pf, hfirst, -⟩ | ⟨-, hparity, hfile⟩)
      · exact absurd hfirst.fd_eq (hnone pf hfirst.mem)
      · rw [if_pos hparity, Option.some.injEq]
        rcases isFile_iff.mpr (rfl : processFileGet p fd = _) with ⟨q, hq, hf⟩ | ⟨-, hf⟩
        · rw [hf, hfile q hq]
        · exact hf.symm

end

/-! ## The loops on the links -/

section

variable {N : Type} [DecidableEq N] {p : Process} {l : FileList N p} {fd : ℤ} {rounds : ℕ}

variable {e pf e' : N}

/-- The element in hand is the last one. -/
theorem FileList.fileCheckFrom_end (hnext : l.links.next e = some l.ends.tail) :
    l.fileCheckFrom fd (rounds + 1) e = some ⟨[e], some none⟩ := by
  unfold fileCheckFrom
  rw [hnext]
  exact if_pos rfl

/-- The element in hand is the tail, which has no successor. -/
theorem FileList.fileCheckFrom_tail :
    l.fileCheckFrom fd (rounds + 1) l.ends.tail = some ⟨[l.ends.tail], none⟩ := by
  unfold fileCheckFrom
  rw [l.isList.tailNext]

/-- The next descriptor has the number. -/
theorem FileList.fileCheckFrom_found (hnext : l.links.next e = some pf) (hpf : pf ≠ l.ends.tail)
    (hfd : fd = (l.entry pf).fd) :
    l.fileCheckFrom fd (rounds + 1) e = some ⟨[e], some (l.entry pf).file⟩ := by
  unfold fileCheckFrom
  rw [hnext]
  exact (if_neg hpf).trans (if_pos hfd)

/-- The next descriptor has another number. -/
theorem FileList.fileCheckFrom_round (hnext : l.links.next e = some pf) (hpf : pf ≠ l.ends.tail)
    (hfd : fd ≠ (l.entry pf).fd) (hnext' : l.links.next pf = some e') :
    l.fileCheckFrom fd (rounds + 1) e =
      (l.fileCheckFrom fd rounds e').map fun r => ⟨e :: pf :: r.calls, r.result⟩ := by
  conv_lhs => unfold fileCheckFrom
  rw [hnext]
  refine (if_neg hpf).trans ((if_neg hfd).trans ?_)
  rw [hnext']

/-- The loop on the links does what the loop on the descriptors does, and calls `list_next`
for the tail if that one stops. -/
def FileList.Follows (l : FileList N p) (fd : ℤ) (rounds : ℕ) (e : N) (xs : List N) : Prop :=
  ∃ calls, l.fileCheckFrom fd rounds e =
      some ⟨calls, (fileCheckLoop fd (xs.map l.entry)).result⟩ ∧
    (l.ends.tail ∈ calls ↔ (fileCheckLoop fd (xs.map l.entry)).result = none)

theorem FileList.follows_nil (hs : l.links.Segment e [] l.ends.tail) (he : l.ends.tail ≠ e) :
    l.Follows fd (rounds + 1) e [] := by
  refine ⟨[e], fileCheckFrom_end hs.1, ?_⟩
  exact iff_of_false (mt List.mem_singleton.mp he) (Option.some_ne_none none)

theorem FileList.follows_found {xs : List N} (hs : l.links.Segment e (pf :: xs) l.ends.tail)
    (he : l.ends.tail ≠ e) (hpf : l.ends.tail ≠ pf) (hfd : fd = (l.entry pf).fd) :
    l.Follows fd (rounds + 1) e (pf :: xs) := by
  unfold Follows
  rw [List.map_cons, fileCheckLoop_found _ hfd]
  refine ⟨[e], fileCheckFrom_found hs.1.1 hpf.symm hfd, ?_⟩
  exact iff_of_false (mt List.mem_singleton.mp he) (Option.some_ne_none _)

/-- After the last descriptor the second step of the round reaches the tail. -/
theorem FileList.follows_last (hs : l.links.Segment e [pf] l.ends.tail) (hpf : l.ends.tail ≠ pf)
    (hfd : fd ≠ (l.entry pf).fd) : l.Follows fd (rounds + 2) e [pf] := by
  unfold Follows
  rw [List.map_singleton, fileCheckLoop_last hfd]
  refine ⟨[e, pf, l.ends.tail], ?_, ?_⟩
  · rw [fileCheckFrom_round hs.1.1 hpf.symm hfd hs.2.1, fileCheckFrom_tail]
    rfl
  · exact iff_of_true (by simp) rfl

theorem FileList.follows_round {xs : List N} (hs : l.links.Segment e (pf :: e' :: xs) l.ends.tail)
    (he : l.ends.tail ≠ e) (hpf : l.ends.tail ≠ pf) (hfd : fd ≠ (l.entry pf).fd)
    (hrest : l.Follows fd rounds e' xs) : l.Follows fd (rounds + 1) e (pf :: e' :: xs) := by
  obtain ⟨calls, hcalls, htail⟩ := hrest
  unfold Follows
  rw [List.map_cons, List.map_cons, fileCheckLoop_round _ _ hfd]
  refine ⟨e :: pf :: calls, ?_, ?_⟩
  · rw [fileCheckFrom_round hs.1.1 hpf.symm hfd hs.2.1.1, hcalls]
    rfl
  · rw [List.mem_cons, List.mem_cons, or_iff_right he, or_iff_right hpf]
    exact htail

/-- The induction takes the two elements of a round. -/
theorem FileList.follows {xs : List N} (fd : ℤ) (hs : l.links.Segment e xs l.ends.tail)
    (htail : l.ends.tail ∉ e :: xs) (hrounds : xs.length < rounds) : l.Follows fd rounds e xs := by
  induction xs using everyOther.induct generalizing e rounds with
  | case1 =>
      obtain _ | rounds := rounds
      · cases hrounds
      exact follows_nil hs (mt List.mem_singleton.mpr htail)
  | case2 pf =>
      obtain _ | _ | rounds := rounds
      · cases hrounds
      · cases Nat.lt_irrefl 1 hrounds
      have he := List.ne_of_not_mem_cons htail
      have hpf := List.ne_of_not_mem_cons (List.not_mem_of_not_mem_cons htail)
      by_cases hfd : fd = (l.entry pf).fd
      · exact follows_found hs he hpf hfd
      · exact follows_last hs hpf hfd
  | case3 pf e' rest ih =>
      obtain _ | rounds := rounds
      · cases hrounds
      have hrest := List.not_mem_of_not_mem_cons htail
      by_cases hfd : fd = (l.entry pf).fd
      · exact follows_found hs (List.ne_of_not_mem_cons htail) (List.ne_of_not_mem_cons hrest) hfd
      · refine follows_round hs (List.ne_of_not_mem_cons htail) (List.ne_of_not_mem_cons hrest)
          hfd ?_
        refine ih hs.2.2 (List.not_mem_of_not_mem_cons hrest) ?_
        rw [List.length_cons, List.length_cons] at hrounds
        omega

/-- `file_check` returns, or calls `list_next` for the tail. -/
theorem FileList.fileCheck_refines (l : FileList N p) (fd : ℤ)
    (hrounds : l.elems.length < rounds) :
    ∃ calls, l.fileCheck fd rounds = some ⟨calls, (Project2.fileCheck p fd).result⟩ ∧
      (l.ends.tail ∈ calls ↔ (Project2.fileCheck p fd).result = none) := by
  have htail : l.ends.tail ∉ l.ends.head :: l.elems := by
    rw [List.mem_cons, not_or]
    exact ⟨l.isList.head_ne_tail.symm, l.isList.tail_notMem⟩
  have hfollows := follows fd l.isList.segment htail hrounds
  unfold Follows at hfollows
  rw [l.files] at hfollows
  exact hfollows

theorem FileList.processFileGet_refines (l : FileList N p) (fd : ℤ)
    (hrounds : l.elems.length < rounds) :
    l.processFileGet fd rounds = some (Project2.processFileGet p fd) := by
  obtain ⟨e, he, hsearch⟩ := l.isList.search_forward (fun e => fd = (l.entry e).fd) hrounds
  unfold FileList.processFileGet Project2.processFileGet
  rw [he, Option.bind_eq_bind, Option.bind_some, hsearch, ← l.files, List.find?_map,
    Option.bind_map]
  rfl

/-- The lookups agree on a list, whatever rounds they are given to get to its end. -/
def FileList.Agree (l : FileList N p) (fd : ℤ) : Prop :=
  ∃ f, ∀ rounds, l.elems.length < rounds → l.LookupsAgree fd f rounds

/-- The two lookups of a number agree, and `file_check` stays within the list, if and only
if the number is compared or absent. -/
theorem descriptor_lookups_agree (l : FileList N p) (fd : ℤ) :
    l.Agree fd ↔ Compared fd p.fileList ∨ Absent fd p.fileList := by
  rw [← fileCheck_result_iff]
  constructor
  · rintro ⟨f, hagree⟩
    have h := hagree _ (Nat.lt_succ_self l.elems.length)
    obtain ⟨calls, hcalls, -⟩ := h.fileCheck
    obtain ⟨calls', hcalls', -⟩ := l.fileCheck_refines fd (Nat.lt_succ_self l.elems.length)
    rw [← isFile_iff.mp h.isFile]
    rw [hcalls', Option.some.injEq, Lookup.mk.injEq] at hcalls
    exact hcalls.2
  · intro hresult
    refine ⟨processFileGet p fd, fun rounds hrounds => ?_⟩
    obtain ⟨calls, hcalls, htail⟩ := l.fileCheck_refines fd hrounds
    rw [hresult] at hcalls htail
    constructor
    · exact isFile_iff.mpr rfl
    · exact l.processFileGet_refines fd hrounds
    · exact ⟨calls, hcalls, fun hmem => Option.some_ne_none _ (htail.mp hmem)⟩

end

/-! ## Lists at consecutive addresses -/

/-- The links of a list with the head at 0, some elements, and the tail. -/
def consecutive (n : ℕ) : Links ℕ where
  prev a := if a = 0 then none else some (a - 1)
  next a := if a ≤ n then some (a + 1) else none

theorem consecutive_segment {n a k : ℕ} (h : a + k = n) :
    (consecutive n).Segment a (List.range' (a + 1) k) (n + 1) := by
  induction k generalizing a with
  | zero =>
      obtain rfl : a = n := h
      exact ⟨if_pos (Nat.le_refl a), rfl⟩
  | succ k ih =>
      refine ⟨⟨if_pos (by omega), rfl⟩, ?_⟩
      exact ih (by omega)

/-- The `file_list` of a process with its descriptors at consecutive addresses. -/
def consecutiveList (p : Process) : FileList ℕ p where
  links := consecutive p.fileList.length
  ends := ⟨0, p.fileList.length + 1⟩
  elems := List.range' 1 p.fileList.length
  entry a := p.fileList.getD (a - 1) ⟨none, 0⟩
  isList :=
    { nodup := by
        show (0 :: (List.range' 1 p.fileList.length ++ [p.fileList.length + 1])).Nodup
        rw [Nat.add_comm, ← List.range'_1_concat]
        exact List.nodup_range' (n := p.fileList.length + 2)
      segment := consecutive_segment (Nat.zero_add _)
      headPrev := rfl
      tailNext := if_neg (Nat.not_succ_le_self _) }
  files := by
    apply List.ext_getElem
    · simp
    · intro i hi hi'
      rw [List.getElem_map, List.getElem_range', List.getD_eq_getElem?_getD]
      simp [hi']

/-- Processes that have opened one file and two files. -/
def oneOpen : Process := ⟨[⟨some 7, 2⟩], 3⟩
def twoOpen : Process := ⟨[⟨some 7, 2⟩, ⟨some 8, 3⟩], 4⟩

/-- `file_check` misses the second of two descriptors, and gets past the tail of a list with
one descriptor of another number. -/
theorem second_descriptor_missed :
    ((consecutiveList twoOpen).fileCheck 3 3 = some ⟨[0, 1, 2], some none⟩ ∧
      (consecutiveList twoOpen).processFileGet 3 3 = some (some 8) ∧
      ¬ (consecutiveList twoOpen).Agree 3) ∧
    ((consecutiveList oneOpen).fileCheck 3 2 =
        some ⟨[0, 1, (consecutiveList oneOpen).ends.tail], none⟩ ∧
      (consecutiveList oneOpen).processFileGet 3 2 = some none ∧
      ¬ (consecutiveList oneOpen).Agree 3) := by
  have htwo : (consecutiveList twoOpen).fileCheck 3 3 = some ⟨[0, 1, 2], some none⟩ := by decide
  have hget : (consecutiveList twoOpen).processFileGet 3 3 = some (some 8) := by decide
  have hone : (consecutiveList oneOpen).fileCheck 3 2 = some ⟨[0, 1, 2], none⟩ := by decide
  refine ⟨⟨htwo, hget, ?_⟩, ⟨hone, by decide, ?_⟩⟩
  · rintro ⟨f, hagree⟩
    have h := hagree 3 (by decide)
    obtain ⟨calls, hcalls, -⟩ := h.fileCheck
    rw [h.processFileGet, Option.some.injEq] at hget
    rw [htwo, hget] at hcalls
    cases hcalls
  · rintro ⟨f, hagree⟩
    obtain ⟨calls, hcalls, -⟩ := (hagree 2 (by decide)).fileCheck
    rw [hone] at hcalls
    cases hcalls

end Pintos.Project2
