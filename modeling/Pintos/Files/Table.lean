import Pintos.Files.Descriptors

/-! # Descriptors as a finite map

The calls of a process make a map from the numbers of its open descriptors to
files. `get_file` agrees with it everywhere but at 0, where it takes the sentinel
it reads first for a descriptor. `process_get_file` has a list of its own to
search, in which nothing is ever entered, and which the source does not make a list.
-/

namespace Pintos.Files

open Intrusive Vm

variable {s s' : State} {ds : List FileDescriptor} {t : Tid} {fd : ℤ} {k : Kernel}
  {as : List Call} {a : Call} {d : FileDescriptor} {f : FilePtr}

/-! ## The map -/

/-- How a call changes the map. -/
def Call.update : Call → (ℤ → Option FilePtr) → ℤ → Option FilePtr
  | .openFile fd (some f), m => Function.update m fd (some f)
  | .openFile _ none, m => m
  | .close fd, m => Function.update m fd none
  | .mmap _ _ _, m => m
  | .munmap _, m => m

/-- The file that the `open` obtained which has returned a descriptor, if that has not
been closed since. -/
def descriptorMap (as : List Call) : ℤ → Option FilePtr :=
  as.foldl (fun m a => a.update m) fun _ => none

theorem descriptorMap_snoc : descriptorMap (as ++ [a]) = a.update (descriptorMap as) :=
  List.foldl_append ..

/-- The open descriptors have different numbers, and the map is the set of them. -/
structure Numbered (as : List Call) : Prop where
  numbers : ∀ d ∈ openDescriptors as, ∃ i < as.countP Call.opens, d.fd = fdOf i
  nodup : ((openDescriptors as).map (·.fd)).Nodup
  map : ∀ fd f, descriptorMap as fd = some f ↔ ⟨fd, f⟩ ∈ openDescriptors as

theorem mem_eraseP_fd (hnodup : (ds.map (·.fd)).Nodup) :
    d ∈ ds.eraseP (·.fd = fd) ↔ d ∈ ds ∧ d.fd ≠ fd := by
  induction ds with
  | nil => simp
  | cons x ds ih =>
      rw [List.map_cons, List.nodup_cons] at hnodup
      by_cases hx : x.fd = fd
      · rw [List.eraseP_cons_of_pos (p := fun y : FileDescriptor => decide (y.fd = fd))
          (decide_eq_true hx), List.mem_cons]
        constructor
        · intro hd
          refine ⟨.inr hd, fun hfd => hnodup.1 ?_⟩
          rw [hx, ← hfd]
          exact List.mem_map_of_mem hd
        · rintro ⟨rfl | hd, hne⟩
          · exact absurd hx hne
          · exact hd
      · have hdec : ¬ decide (x.fd = fd) = true := fun hdec => hx (of_decide_eq_true hdec)
        rw [List.eraseP_cons_of_neg (p := fun y : FileDescriptor => decide (y.fd = fd)) hdec,
          List.mem_cons, List.mem_cons, ih hnodup.2]
        constructor
        · rintro (rfl | ⟨hd, hne⟩)
          · exact ⟨.inl rfl, hx⟩
          · exact ⟨.inr hd, hne⟩
        · rintro ⟨rfl | hd, hne⟩
          · exact .inl rfl
          · exact .inr ⟨hd, hne⟩

/-- The number of the next descriptor is not in use. -/
theorem Numbered.fresh (h : Numbered as) (hlt : as.countP Call.opens < 2 ^ 31) :
    ∀ d ∈ openDescriptors as, d.fd ≠ fdOf (as.countP Call.opens) := by
  intro d hd heq
  obtain ⟨i, hi, hfd⟩ := h.numbers d hd
  exact fdOf_ne hi hlt (hfd.symm.trans heq)

theorem Numbered.openFile (h : Numbered as) (hlt : as.countP Call.opens < 2 ^ 31)
    (hfd : fd = fdOf (as.countP Call.opens)) : Numbered (as ++ [.openFile fd (some f)]) := by
  -- the counter has not wrapped, so the number is no other descriptor's
  have hfresh := h.fresh hlt
  rw [← hfd] at hfresh
  have hsnoc : openDescriptors (as ++ [.openFile fd (some f)]) = openDescriptors as ++ [⟨fd, f⟩] :=
    openDescriptors_snoc
  have hcount : (as ++ [Call.openFile fd (some f)]).countP Call.opens = as.countP Call.opens + 1 :=
    countP_snoc as (.openFile fd (some f))
  refine ⟨?_, ?_, ?_⟩
  · rw [hsnoc, hcount]
    intro d hd
    rcases List.mem_append.mp hd with hd | hd
    · obtain ⟨i, hi, hdfd⟩ := h.numbers d hd
      exact ⟨i, by omega, hdfd⟩
    · obtain rfl := List.mem_singleton.mp hd
      exact ⟨_, Nat.lt_succ_self _, hfd⟩
  · rw [hsnoc, List.map_append]
    refine List.nodup_append.mpr ⟨h.nodup, List.nodup_singleton _, ?_⟩
    intro x hx y hy heq
    obtain ⟨d, hd, rfl⟩ := List.mem_map.mp hx
    obtain rfl := List.mem_singleton.mp hy
    exact hfresh d hd heq
  · intro fd' f'
    rw [descriptorMap_snoc, hsnoc, List.mem_append, List.mem_singleton, FileDescriptor.mk.injEq]
    show Function.update (descriptorMap as) fd (some f) fd' = some f' ↔ _
    by_cases hne : fd' = fd
    · subst hne
      rw [Function.update_self]
      constructor
      · intro heq
        exact .inr ⟨rfl, (Option.some.inj heq).symm⟩
      · rintro (hmem | ⟨-, rfl⟩)
        · exact absurd rfl (hfresh _ hmem)
        · rfl
    · rw [Function.update_of_ne hne, h.map]
      constructor
      · exact .inl
      · rintro (hmem | ⟨heq, -⟩)
        · exact hmem
        · exact absurd heq hne

theorem Numbered.close (h : Numbered as) : Numbered (as ++ [.close fd]) := by
  have hsnoc : openDescriptors (as ++ [.close fd]) = (openDescriptors as).eraseP (·.fd = fd) :=
    openDescriptors_snoc
  have hcount : (as ++ [Call.close fd]).countP Call.opens = as.countP Call.opens :=
    countP_snoc as (.close fd)
  refine ⟨?_, ?_, ?_⟩
  · rw [hsnoc, hcount]
    exact fun d hd => h.numbers d (List.mem_of_mem_eraseP hd)
  · rw [hsnoc]
    exact h.nodup.sublist (List.eraseP_sublist.map _)
  · intro fd' f'
    rw [descriptorMap_snoc, hsnoc, mem_eraseP_fd h.nodup]
    show Function.update (descriptorMap as) fd none fd' = some f' ↔ _
    by_cases hne : fd' = fd
    · subst hne
      rw [Function.update_self]
      constructor
      · intro heq
        cases heq
      · rintro ⟨-, hno⟩
        exact absurd rfl hno
    · rw [Function.update_of_ne hne, h.map]
      exact ⟨fun hmem => ⟨hmem, hne⟩, fun hmem => hmem.1⟩

/-- A call that is neither. -/
theorem Numbered.other (h : Numbered as) (hds : a.descriptors (openDescriptors as) =
    openDescriptors as) (hmap : a.update (descriptorMap as) = descriptorMap as)
    (hopens : a.opens = false) : Numbered (as ++ [a]) := by
  have hcount := countP_snoc as a
  rw [hopens] at hcount
  refine ⟨?_, ?_, ?_⟩
  · rw [openDescriptors_snoc, hds, hcount]
    exact h.numbers
  · rw [openDescriptors_snoc, hds]
    exact h.nodup
  · rw [openDescriptors_snoc, hds, descriptorMap_snoc, hmap]
    exact h.map

theorem Numbered.step (h : Numbered as) (htracks : Tracks t k as s) (hs : Performs t s a s')
    (hlt : as.countP Call.opens < 2 ^ 31) : Numbered (as ++ [a]) := by
  cases a with
  | openFile fd f =>
      obtain ⟨env, desc, file, hopen, hs⟩ := hs
      cases f with
      | none => exact h.other rfl rfl rfl
      | some f =>
          obtain ⟨ps, hrep⟩ := htracks.represents
          obtain ⟨hfd, -, -⟩ := hrep.sysOpen hopen hs
          exact h.openFile hlt (hfd.trans (htracks.fd hlt))
  | close fd => exact h.close
  | mmap fd addr id => exact h.other rfl rfl rfl
  | munmap mapping => exact h.other rfl rfl rfl

theorem numbered_of_run (hk : Started t k) (h : Lts.Run (Performs t) (State.start k) as s)
    (hlt : as.countP Call.opens < 2 ^ 31) : Numbered as := by
  have hgen : Tracks t k as s ∧ (as.countP Call.opens < 2 ^ 31 → Numbered as) := by
    refine h.invariant_trace (P := fun as s => Tracks t k as s ∧
      (as.countP Call.opens < 2 ^ 31 → Numbered as)) ?_ ?_
    · rintro as s a s' hs ⟨htracks, hnum⟩
      refine ⟨htracks.step hs, ?_⟩
      intro hlt
      rw [countP_snoc] at hlt
      exact (hnum (by omega)).step htracks hs (by omega)
    · refine ⟨tracks_of_run hk (.nil _), fun _ => ⟨?_, List.nodup_nil, ?_⟩⟩
      · exact fun d hd => absurd hd List.not_mem_nil
      · intro fd f
        constructor
        · intro hno
          cases hno
        · exact fun hno => absurd hno List.not_mem_nil
  exact hgen.2 hlt

/-- A search among the descriptors is a lookup in the map. -/
theorem Numbered.find (h : Numbered as) :
    ((openDescriptors as).reverse.find? (·.fd = fd)).map (·.file) = descriptorMap as fd := by
  cases hfind : (openDescriptors as).reverse.find? (·.fd = fd) with
  | none =>
      refine Eq.symm (Option.eq_none_iff_forall_ne_some.mpr ?_)
      intro f hf
      have hno := List.find?_eq_none.mp hfind ⟨fd, f⟩ (List.mem_reverse.mpr ((h.map fd f).mp hf))
      exact hno (decide_eq_true rfl)
  | some d =>
      have hmem := List.mem_reverse.mp (List.mem_of_find?_eq_some hfind)
      have hfd : d.fd = fd := by simpa using List.find?_some hfind
      subst hfd
      exact ((h.map d.fd d.file).mpr hmem).symm

theorem getFile_of_run (hk : Started t k) (h : Lts.Run (Performs t) (State.start k) as s)
    (hlt : as.countP Call.opens < 2 ^ 31) (hfd : fd ≠ 0) :
    getFile s fd = some ((descriptorMap as fd).map .file) := by
  obtain ⟨ps, hrep⟩ := (tracks_of_run hk h).represents
  rw [hrep.getFile_of_ne hfd, ← (numbered_of_run hk h hlt).find, Option.map_map]
  rfl

/-! ## The lookups -/

/-- After fewer than `2 ^ 31` files have been opened, `get_file` finds what the map
says exactly for the numbers other than 0, and always by way of the tail; `open`
returns a number that is not in use, and `close` removes the one it is given. -/
theorem descriptor_table (hk : Started t k) (h : Lts.Run (Performs t) (State.start k) as s)
    (hlt : as.countP Call.opens < 2 ^ 31) :
    (∀ fd, getFile s fd = some ((descriptorMap as fd).map .file) ↔ fd ≠ 0) ∧
    (∀ fd, ∃ r, getFileLoop s fd = some r ∧ .tail ∈ r.1) ∧
    (∀ fd f s', Performs t s (.openFile fd (some f)) s' → descriptorMap as fd = none) ∧
    ∀ fd, ∃ s', sysClose s fd = .ok s' ∧ ∀ fd' ≠ 0,
      getFile s' fd' = if fd' = fd then some none else getFile s fd' := by
  have htracks := tracks_of_run hk h
  have hnum := numbered_of_run hk h hlt
  obtain ⟨ps, hrep⟩ := htracks.represents
  refine ⟨fun fd => ⟨?_, getFile_of_run hk h hlt⟩, fun fd => hrep.reads_tail, ?_, ?_⟩
  · rintro hget rfl
    obtain ⟨e, he⟩ := hrep.getFile_zero
    have hword : (descriptorMap as 0).map Word.file = some (.node e) :=
      Option.some.inj (hget.symm.trans he)
    obtain ⟨f, -, hf⟩ := Option.map_eq_some_iff.mp hword
    cases hf
  · rintro fd f s' ⟨env, desc, file, hopen, hs⟩
    obtain ⟨hfd, -, -⟩ := hrep.sysOpen hopen hs
    apply Option.eq_none_iff_forall_ne_some.mpr
    intro g hg
    exact hnum.fresh hlt _ ((hnum.map fd g).mp hg) (hfd.trans (htracks.fd hlt))
  · intro fd
    obtain ⟨s', -, -, hclose, -⟩ := hrep.sysClose fd
    refine ⟨s', hclose, ?_⟩
    intro fd' hfd'
    have hrun : Lts.Run (Performs t) (State.start k) (as ++ [.close fd]) s' := h.snoc hclose
    have hlt' : (as ++ [Call.close fd]).countP Call.opens < 2 ^ 31 := by
      rw [countP_snoc]
      exact hlt
    rw [getFile_of_run hk hrun hlt' hfd', getFile_of_run hk h hlt hfd', descriptorMap_snoc]
    show some ((Function.update (descriptorMap as) fd none fd').map Word.file) = _
    split
    next heq =>
      subst heq
      rw [Function.update_self]
      rfl
    next hne => rw [Function.update_of_ne hne]

/-- A machine with or without the lists of a thread. -/
def withLists (listed : Bool) : Machine := { twoFrames with listed := listed }

/-- A process is loaded and opens a file. -/
def openOne (listed : Bool) : Except String (Kernel × ℤ × State) := do
  let k ← runActs (withLists listed).boot (swapRun.take 1)
  let (fd, s) ← sysOpen (generous 200) (some 300) (State.start k) 1 (some 1)
  return (k, fd, s)

theorem openOne_run (listed : Bool) : ∃ k s, openOne listed = .ok (k, 2, s) ∧
    Step (withLists listed).boot (swapRun.get ⟨0, by decide⟩) k ∧ k.listed = listed ∧
    Started 1 k ∧ Lts.Run (Performs 1) (State.start k) [.openFile 2 (some 200)] s ∧
    getFile s 0 = some (some (.node (.elem 300))) := by
  have hrun : (openOne listed).toOption.map (fun r => decide (r.1.listed = listed ∧
      (r.1.fd 1 = 2 ∧ r.1.fileList 1 = [] ∧ r.1.mmapList 1 = []) ∧ r.2.1 = 2 ∧
      (filesysOpen (generous 200) r.1 (some 1)).1 = some 200 ∧
      getFile r.2.2 0 = some (some (.node (.elem 300))))) = some true := by
    cases listed <;> decide +kernel
  obtain ⟨r, hr, hstate⟩ := Option.map_eq_some_iff.mp hrun
  obtain ⟨hlisted, ⟨hfd, hfiles, hmaps⟩, h2, hopen, hget⟩ := of_decide_eq_true hstate
  have hone := Lts.eq_ok_of_toOption hr
  obtain ⟨k, hk, hr⟩ := Lts.bind_eq_ok.mp hone
  obtain ⟨⟨fd, s⟩, hs, hr⟩ := Lts.bind_eq_ok.mp hr
  obtain rfl := Except.ok.inj hr
  obtain rfl : fd = 2 := h2
  obtain _ | ⟨hload, hnil⟩ := run_of_runActs hk
  cases hnil
  exact ⟨k, s, hone, hload, hlisted, ⟨hfd, hfiles, hmaps⟩,
    .single ⟨generous 200, some 300, some 1, hopen, hs⟩, hget⟩

/-- The number 0 has never been returned, and finds a link of the list. -/
theorem descriptor_table_broken : ∃ k s, Started 1 k ∧
    Lts.Run (Performs 1) (State.start k) [.openFile 2 (some 200)] s ∧
    descriptorMap [.openFile 2 (some 200)] 0 = none ∧
    getFile s 0 = some (some (.node (.elem 300))) := by
  obtain ⟨k, s, -, -, -, hk, hsteps, hget⟩ := openOne_run false
  exact ⟨k, s, hk, hsteps, rfl, hget⟩

theorem descriptor_table_run : ∃ k s, Started 1 k ∧
    Lts.Run (Performs 1) (State.start k) [.openFile 2 (some 200)] s ∧
    (∀ fd, getFile s fd = some ((descriptorMap [.openFile 2 (some 200)] fd).map .file) ↔
      fd ≠ 0) ∧ getFile s 2 = some (some (.file 200)) := by
  obtain ⟨k, s, -, -, -, hk, hsteps, -⟩ := openOne_run false
  have htable := (descriptor_table hk hsteps (by decide)).1
  exact ⟨k, s, hk, hsteps, htable, (htable 2).mpr (by decide)⟩

/-! ## The two lookups -/

theorem getFile_eq_none (hk : Started t k) (h : Lts.Run (Performs t) (State.start k) as s)
    (hfd : fd ≠ 0) : getFile s fd = some none ↔ ∀ d ∈ openDescriptors as, d.fd ≠ fd := by
  obtain ⟨ps, hrep⟩ := (tracks_of_run hk h).represents
  rw [hrep.getFile_of_ne hfd]
  constructor
  · intro hget d hd heq
    have hfind := Option.map_eq_none_iff.mp (Option.some.inj hget)
    exact List.find?_eq_none.mp hfind d (List.mem_reverse.mpr hd) (decide_eq_true heq)
  · intro hno
    have hfind : (openDescriptors as).reverse.find? (·.fd = fd) = none := by
      refine List.find?_eq_none.mpr fun d hd hdec => ?_
      exact hno d (List.mem_reverse.mp hd) (of_decide_eq_true hdec)
    rw [hfind]
    rfl

/-- `process_get_file` returns what `get_file` returns exactly if `file_list` is a list and
no open descriptor has the number, since it never finds a file. So `mmap` accepts no
descriptor; without the list it faults for all of them. -/
theorem lookups_agree (hk : Started t k) (h : Lts.Run (Performs t) (State.start k) as s)
    (hfd : 2 ≤ fd) :
    ((∃ f, processGetFile s.kernel t fd = .ok f ∧ getFile s fd = some (f.map .file)) ↔
      k.listed = true ∧ ∀ d ∈ openDescriptors as, d.fd ≠ fd) ∧
      ∀ addr env, sysMmap env s t fd addr =
        if k.listed then .ok (error, s) else .error kernelBug := by
  have htracks := tracks_of_run hk h
  rw [← htracks.listed]
  refine ⟨?_, fun addr env => sysMmap_of_nil htracks.fileList⟩
  rw [processGetFile_of_nil htracks.fileList, ← getFile_eq_none hk h (by omega)]
  constructor
  · rintro ⟨f, hfound, hget⟩
    obtain ⟨hlisted, hnone⟩ := Lts.guard_eq_ok.mp hfound
    obtain rfl := Except.ok.inj hnone
    exact ⟨hlisted, hget⟩
  · rintro ⟨hlisted, hget⟩
    exact ⟨none, if_pos hlisted, hget⟩

theorem openOne_lookups (listed : Bool) : ∃ k s, k.listed = listed ∧ Started 1 k ∧
    Lts.Run (Performs 1) (State.start k) [.openFile 2 (some 200)] s ∧
    getFile s 2 = some (some (.file 200)) ∧
    processGetFile s.kernel 1 2 = if listed then .ok none else .error kernelBug := by
  obtain ⟨k, s, -, -, hlisted, hk, hsteps, -⟩ := openOne_run listed
  have htracks := tracks_of_run hk hsteps
  refine ⟨k, s, hlisted, hk, hsteps, getFile_of_run hk hsteps (by decide) (by decide), ?_⟩
  rw [processGetFile_of_nil htracks.fileList, htracks.listed, hlisted]

/-- An open file is found by `get_file` and not by `process_get_file`, which faults without
its list and finds nothing in it. -/
theorem lookups_disagree :
    (∃ k s, k.listed = false ∧ Started 1 k ∧
      Lts.Run (Performs 1) (State.start k) [.openFile 2 (some 200)] s ∧
      getFile s 2 = some (some (.file 200)) ∧ processGetFile s.kernel 1 2 = .error kernelBug) ∧
    ∃ k s, k.listed = true ∧ Started 1 k ∧
      Lts.Run (Performs 1) (State.start k) [.openFile 2 (some 200)] s ∧
      getFile s 2 = some (some (.file 200)) ∧ processGetFile s.kernel 1 2 = .ok none :=
  ⟨openOne_lookups false, openOne_lookups true⟩

theorem lookups_agree_run : ∃ k s, Started 1 k ∧
    Lts.Run (Performs 1) (State.start k) [.openFile 2 (some 200)] s ∧
    ∃ f, processGetFile s.kernel 1 3 = .ok f ∧ getFile s 3 = some (f.map .file) := by
  obtain ⟨k, s, -, -, hlisted, hk, hsteps, -⟩ := openOne_run true
  exact ⟨k, s, hk, hsteps,
    (lookups_agree hk hsteps (by decide)).1.mpr ⟨hlisted, by decide⟩⟩

end Pintos.Files
