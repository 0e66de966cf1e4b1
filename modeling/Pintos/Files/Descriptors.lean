import Pintos.Files.Syscall
import Pintos.Vm.FrameTable

/-! # The descriptor table

The list `files` represents a list of descriptors: `open` appends one, `close`
removes the first one with its number, and `get_file` searches them from the
last to the first, but reads the tail sentinel before them.
-/

namespace Pintos.Files

open Intrusive Vm

variable {s s' : State} {ps qs : List Ptr} {ds : List FileDescriptor} {t : Tid} {fd : ℤ} {env : Env}
  {desc : Option Ptr} {file : Option Inode} {k : Kernel} {p : Ptr} {d : FileDescriptor}
  {as : List Call} {a : Call} {n : ℕ}

/-! ## What the list represents -/

/-- The list `files` links the descriptors `ds`, which are at `ps`. -/
structure Represents (s : State) (ps : List Ptr) (ds : List FileDescriptor) : Prop where
  list : IsList s.links files (ps.map .elem)
  contents : ps.map s.descriptors.lookup = ds.map some
  allocated : ∀ p ∈ s.descriptors, p ∈ ps
  opened : ∀ d ∈ ds, d.file ∈ s.kernel.files
  distinct : (ds.map (·.file)).Nodup

theorem elem_mem {p : Ptr} : Node.elem p ∈ ps.map Node.elem ↔ p ∈ ps := by
  rw [List.mem_map]
  constructor
  · rintro ⟨q, hq, heq⟩
    exact Node.elem.inj heq ▸ hq
  · exact fun hp => ⟨p, hp, rfl⟩

theorem represents_start (k : Kernel) : Represents (State.start k) [] [] where
  list := isList_listInit (l := files) (by decide)
  contents := rfl
  allocated := fun p hp => absurd hp (AList.notMem_empty p)
  opened := fun d hd => absurd hd List.not_mem_nil
  distinct := List.nodup_nil

theorem Represents.nodup (h : Represents s ps ds) : ps.Nodup := h.list.nodup_elements.of_map _

theorem mem_of_contents (h : ps.map s.descriptors.lookup = ds.map some) (hp : p ∈ ps) :
    ∃ d ∈ ds, s.descriptors.lookup p = some d := by
  have hmem : s.descriptors.lookup p ∈ ds.map some := h ▸ List.mem_map_of_mem hp
  obtain ⟨d, hd, heq⟩ := List.mem_map.mp hmem
  exact ⟨d, hd, heq.symm⟩

theorem Represents.mem (h : Represents s ps ds) (hp : p ∈ ps) : p ∈ s.descriptors := by
  obtain ⟨d, -, hd⟩ := mem_of_contents h.contents hp
  exact AList.lookup_isSome.mp (Option.isSome_iff_exists.mpr ⟨d, hd⟩)

/-- The loops have enough rounds. -/
theorem Represents.length_le (h : Represents s ps ds) :
    (ps.map Node.elem).length ≤ s.descriptors.entries.length := by
  have hsub : ps ⊆ s.descriptors.keys := fun p hp => h.mem hp
  have hle := (List.subperm_of_subset h.nodup hsub).length_le
  rw [List.length_map]
  rwa [AList.keys, List.keys, List.length_map] at hle

/-! ## Searching -/

/-- What the fields of a descriptor are read as. -/
def fields (d : FileDescriptor) : ℤ × Option Word := (d.fd, some (.file d.file))

theorem descriptorAt_elem (hp : s.descriptors.lookup p = some d) :
    s.descriptorAt (.elem p) = some (fields d) := by
  show (s.descriptors.lookup p).map _ = _
  rw [hp]
  rfl

theorem hasFd_elem (hp : s.descriptors.lookup p = some d) :
    s.hasFd fd (.elem p) = decide (d.fd = fd) := by
  unfold State.hasFd
  rw [descriptorAt_elem hp]
  rfl

/-- A search among the nodes is one among the descriptors. -/
theorem find_elem (fd : ℤ) (h : ps.map s.descriptors.lookup = ds.map some) :
    ((ps.map Node.elem).find? (s.hasFd fd)).bind s.descriptorAt =
      (ds.find? (·.fd = fd)).map fields := by
  induction ps generalizing ds with
  | nil =>
      obtain rfl : ds = [] := List.map_eq_nil_iff.mp h.symm
      rfl
  | cons p ps ih =>
      obtain _ | ⟨d, ds⟩ := ds
      · cases h
      obtain ⟨hp, hps⟩ := List.cons.inj h
      rw [List.map_cons]
      by_cases hfd : d.fd = fd
      · have hfound : s.hasFd fd (.elem p) = true := by
          rw [hasFd_elem hp]
          exact decide_eq_true hfd
        rw [List.find?_cons_of_pos hfound,
          List.find?_cons_of_pos (p := fun x : FileDescriptor => decide (x.fd = fd))
            (decide_eq_true hfd)]
        exact descriptorAt_elem hp
      · have hnot : ¬ s.hasFd fd (.elem p) = true := by
          rw [hasFd_elem hp]
          exact fun hdec => hfd (of_decide_eq_true hdec)
        have hnot' : ¬ decide (d.fd = fd) = true := fun hdec => hfd (of_decide_eq_true hdec)
        rw [List.find?_cons_of_neg hnot,
          List.find?_cons_of_neg (p := fun x : FileDescriptor => decide (x.fd = fd)) hnot']
        exact ih hps

theorem Represents.descriptorAt_tail (h : Represents s ps ds) :
    s.descriptorAt .tail = some (0, (s.links.next .head).map .node) :=
  if_pos h.list.headPrev

/-- The tail passes for a descriptor with the number 0. -/
theorem Represents.hasFd_tail (h : Represents s ps ds) : s.hasFd fd .tail = decide (0 = fd) := by
  unfold State.hasFd
  rw [h.descriptorAt_tail]
  rfl

theorem Represents.loop (h : Represents s ps ds) :
    getFileLoop s fd = some (scanned (s.hasFd fd) (.tail :: (ps.map Node.elem).reverse),
      (.tail :: (ps.map Node.elem).reverse).find? (s.hasFd fd)) := by
  have hlength := h.length_le
  exact h.list.search_backward (by omega)

/-- `get_file` finds the last descriptor with a number other than 0. -/
theorem Represents.getFile_of_ne (h : Represents s ps ds) (hfd : fd ≠ 0) :
    getFile s fd = some ((ds.reverse.find? (·.fd = fd)).map (.file ·.file)) := by
  have hnot : ¬ s.hasFd fd .tail = true := by
    rw [h.hasFd_tail]
    exact fun hdec => hfd (of_decide_eq_true hdec).symm
  have hcontents : ps.reverse.map s.descriptors.lookup = ds.reverse.map some := by
    rw [List.map_reverse, List.map_reverse, h.contents]
  have hfind := find_elem fd hcontents
  unfold getFile
  rw [h.loop, List.find?_cons_of_neg hnot, ← List.map_reverse, Option.map_some]
  refine congrArg some ?_
  calc ((ps.reverse.map Node.elem).find? (s.hasFd fd)).bind
        (fun e => (s.descriptorAt e).bind (·.2))
      = (((ps.reverse.map Node.elem).find? (s.hasFd fd)).bind s.descriptorAt).bind (·.2) :=
        (Option.bind_assoc ..).symm
    _ = ((ds.reverse.find? (·.fd = fd)).map fields).bind (·.2) := by rw [hfind]
    _ = _ := by
      cases ds.reverse.find? (·.fd = fd) with
      | none => rfl
      | some d => rfl

/-- For the number 0 it returns what stands behind the link of the head. -/
theorem Represents.getFile_zero (h : Represents s ps ds) :
    ∃ e, getFile s 0 = some (some (.node e)) := by
  have hfound : s.hasFd 0 .tail = true := by
    rw [h.hasFd_tail]
    rfl
  obtain ⟨e, -, hnext⟩ := h.list.segment.next
  have hnext' : s.links.next .head = some e := hnext
  refine ⟨e, ?_⟩
  unfold getFile
  rw [h.loop, List.find?_cons_of_pos hfound]
  show some ((s.descriptorAt .tail).bind (·.2)) = _
  rw [h.descriptorAt_tail, hnext']
  rfl

/-- Every call reads the tail. -/
theorem Represents.reads_tail (h : Represents s ps ds) :
    ∃ r, getFileLoop s fd = some r ∧ .tail ∈ r.1 := by
  refine ⟨_, h.loop, ?_⟩
  unfold scanned
  split
  next => exact List.mem_cons_self
  next => exact List.mem_cons_self

/-! ## `open` -/

/-- What `filesys_open` does. -/
theorem filesysOpen_cases (env : Env) (k : Kernel) (file : Option Inode) :
    filesysOpen env k file = (none, k) ∨ ∃ f o, f ∉ k.files ∧
    filesysOpen env k file = (some f, { k with files := k.files.insert f o }) := by
  unfold filesysOpen
  split
  next => exact .inl rfl
  next i =>
    unfold fileOpen
    split
    next => exact .inl rfl
    next f hf =>
      split
      next hnew => exact .inr ⟨f, ⟨i, false⟩, hnew.2, rfl⟩
      next => exact .inl rfl

theorem sysOpen_of_none (hopen : (filesysOpen env s.kernel file).1 = none)
    (hs : sysOpen env desc s t file = .ok (fd, s')) : fd = error ∧ s' = s := by
  rcases filesysOpen_cases env s.kernel file with hnone | ⟨f, o, -, hsome⟩
  · unfold sysOpen at hs
    rw [hnone] at hs
    obtain ⟨rfl, rfl⟩ := Prod.mk.inj (Except.ok.inj hs)
    exact ⟨rfl, rfl⟩
  · rw [hsome] at hopen
    cases hopen

/-- `open` appends a descriptor. -/
theorem Represents.sysOpen {f : FilePtr} (h : Represents s ps ds)
    (hopen : (filesysOpen env s.kernel file).1 = some f)
    (hs : sysOpen env desc s t file = .ok (fd, s')) :
    fd = s.kernel.fd t ∧ (∃ o, f ∉ s.kernel.files ∧ s'.kernel = { s.kernel with
      files := s.kernel.files.insert f o
      fd := Function.update s.kernel.fd t (nextInt fd) }) ∧
      ∃ p, Represents s' (ps ++ [p]) (ds ++ [⟨fd, f⟩]) := by
  rcases filesysOpen_cases env s.kernel file with hnone | ⟨g, o, hnew, hsome⟩
  · rw [hnone] at hopen
    cases hopen
  · rw [hsome] at hopen
    obtain rfl := Option.some.inj hopen
    unfold Files.sysOpen at hs
    rw [hsome] at hs
    obtain ⟨p, hp, hs⟩ := Lts.bind_eq_ok.mp hs
    obtain ⟨links, hlinks, hs⟩ := Lts.bind_eq_ok.mp hs
    obtain ⟨rfl, rfl⟩ := Prod.mk.inj (Except.ok.inj hs)
    -- `malloc` returns a pointer that is not in use, so its node is not in the list
    have hfree : p ∉ s.descriptors := by
      have hfilter := (Option.filter_eq_some_iff.mp (deref_ok hp)).2
      simpa using hfilter
    have hnotin : p ∉ ps := fun hmem => hfree (h.mem hmem)
    have hnode : Node.elem p ∉ files.nodes (ps.map .elem) := by
      rw [Ends.mem_nodes, elem_mem]
      rintro (hno | hno | hno)
      · cases hno
      · exact hnotin hno
      · cases hno
    obtain ⟨links', hpush, hlist, -⟩ := h.list.pushBack hnode
    obtain rfl : links = links' := Option.some.inj ((deref_ok hlinks).symm.trans hpush)
    refine ⟨rfl, ⟨o, hnew, rfl⟩, p, ?_, ?_, ?_, ?_, ?_⟩
    · rw [List.map_append]
      exact hlist
    · -- the new record does not touch the others
      rw [List.map_append, List.map_append, ← h.contents]
      refine congrArg₂ (· ++ ·) (List.map_congr_left ?_) ?_
      · intro q hq
        have hne : q ≠ p := by
          rintro rfl
          exact hnotin hq
        exact AList.lookup_insert_ne hne
      · exact congrArg (fun x => [x]) (AList.lookup_insert _)
    · intro q hq
      rcases (AList.mem_insert _).mp hq with rfl | hq
      · exact List.mem_append_right ps List.mem_cons_self
      · exact List.mem_append_left [p] (h.allocated q hq)
    · intro d hd
      refine (AList.mem_insert _).mpr ?_
      rcases List.mem_append.mp hd with hd | hd
      · exact .inr (h.opened d hd)
      · obtain rfl := List.mem_singleton.mp hd
        exact .inl rfl
    · rw [List.map_append]
      refine List.nodup_append.mpr ⟨h.distinct, List.nodup_singleton _, ?_⟩
      intro g hg g' hg' heq
      -- `file_open` returns a file that was not open
      obtain ⟨d, hd, rfl⟩ := List.mem_map.mp hg
      obtain rfl := List.mem_singleton.mp hg'
      exact hnew (heq ▸ h.opened d hd)

/-! ## `close` -/

/-- Where a search from the front stops. -/
structure Found (s : State) (fd : ℤ) (ps : List Ptr) (ds : List FileDescriptor) (ps₁ : List Ptr)
    (p : Ptr) (ps₂ : List Ptr) (ds₁ : List FileDescriptor) (d : FileDescriptor)
    (ds₂ : List FileDescriptor) : Prop where
  find : (ps.map Node.elem).find? (s.hasFd fd) = some (.elem p)
  ptrs : ps = ps₁ ++ p :: ps₂
  descriptors : ds = ds₁ ++ d :: ds₂
  before : ps₁.map s.descriptors.lookup = ds₁.map some
  lookup : s.descriptors.lookup p = some d
  after : ps₂.map s.descriptors.lookup = ds₂.map some
  eraseP : ds.eraseP (·.fd = fd) = ds₁ ++ ds₂

theorem find_cases (fd : ℤ) (h : ps.map s.descriptors.lookup = ds.map some) :
    ((ps.map Node.elem).find? (s.hasFd fd) = none ∧ ds.eraseP (·.fd = fd) = ds) ∨
      ∃ ps₁ p ps₂ ds₁ d ds₂, Found s fd ps ds ps₁ p ps₂ ds₁ d ds₂ := by
  induction ps generalizing ds with
  | nil =>
      obtain rfl : ds = [] := List.map_eq_nil_iff.mp h.symm
      exact .inl ⟨rfl, rfl⟩
  | cons p ps ih =>
      obtain _ | ⟨d, ds⟩ := ds
      · cases h
      obtain ⟨hp, hps⟩ := List.cons.inj h
      have hnode : s.hasFd fd (.elem p) = decide (d.fd = fd) := hasFd_elem hp
      by_cases hfd : d.fd = fd
      · -- the front has the number
        have hfound : s.hasFd fd (.elem p) = true := by
          rw [hnode]
          exact decide_eq_true hfd
        refine .inr ⟨[], p, ps, [], d, ds, ⟨?_, rfl, rfl, rfl, hp, hps, ?_⟩⟩
        · rw [List.map_cons, List.find?_cons_of_pos hfound]
        · exact List.eraseP_cons_of_pos (decide_eq_true hfd)
      · -- the walk and `eraseP` both go past the front
        have hdec : ¬ decide (d.fd = fd) = true := fun hdec => hfd (of_decide_eq_true hdec)
        have hnot : ¬ s.hasFd fd (.elem p) = true := by
          rw [hnode]
          exact hdec
        have herase : (d :: ds).eraseP (·.fd = fd) = d :: ds.eraseP (·.fd = fd) :=
          List.eraseP_cons_of_neg hdec
        rw [List.map_cons, List.find?_cons_of_neg hnot, herase]
        rcases ih hps with ⟨hnone, hsame⟩ | ⟨ps₁, q, ps₂, ds₁, d', ds₂, hfound⟩
        · exact .inl ⟨hnone, congrArg (d :: ·) hsame⟩
        · refine .inr ⟨p :: ps₁, q, ps₂, d :: ds₁, d', ds₂, ?_⟩
          refine ⟨?_, ?_, ?_, ?_, hfound.lookup, hfound.after, ?_⟩
          · rw [List.map_cons, List.find?_cons_of_neg hnot]
            exact hfound.find
          · rw [hfound.ptrs]
            rfl
          · rw [hfound.descriptors]
            rfl
          · exact congrArg₂ List.cons hp hfound.before
          · rw [herase, hfound.eraseP]
            rfl

variable {ps₁ ps₂ : List Ptr} {ds₁ ds₂ : List FileDescriptor}

theorem Found.files_nodup (hfound : Found s fd ps ds ps₁ p ps₂ ds₁ d ds₂)
    (h : Represents s ps ds) : (d.file :: (ds₁ ++ ds₂).map (·.file)).Nodup := by
  have hdistinct := h.distinct
  rw [hfound.descriptors] at hdistinct
  exact (List.perm_middle.map _).nodup_iff.mp hdistinct

/-- The descriptor that is found is taken out of the list, and its file is closed. -/
theorem Represents.remove (h : Represents s ps ds)
    (hfound : Found s fd ps ds ps₁ p ps₂ ds₁ d ds₂) :
    ∃ links, listRemove s.links (.elem p) = some links ∧
      Represents ⟨{ s.kernel with files := s.kernel.files.erase d.file }, links,
        s.descriptors.erase p⟩ (ps₁ ++ ps₂) (ds.eraseP (·.fd = fd)) := by
  obtain rfl := hfound.ptrs
  obtain rfl := hfound.descriptors
  have hlist := h.list
  rw [List.map_append, List.map_cons] at hlist
  obtain ⟨links, hremove, hlist', -, -⟩ := hlist.remove
  obtain ⟨hnotin, -⟩ := List.nodup_cons.mp (List.nodup_middle.mp h.nodup)
  obtain ⟨hfile, hfiles⟩ := List.nodup_cons.mp (hfound.files_nodup h)
  -- the other descriptors stay where they are
  have hkeep : ∀ q ∈ ps₁ ++ ps₂, (s.descriptors.erase p).lookup q = s.descriptors.lookup q := by
    intro q hq
    apply AList.lookup_erase_ne
    rintro rfl
    exact hnotin hq
  refine ⟨links, hremove, ?_, ?_, ?_, ?_, ?_⟩
  · rw [List.map_append]
    exact hlist'
  · rw [hfound.eraseP, List.map_append, List.map_append, ← hfound.before, ← hfound.after]
    refine congrArg₂ (· ++ ·) (List.map_congr_left fun q hq => ?_)
      (List.map_congr_left fun q hq => ?_)
    · exact hkeep q (List.mem_append_left ps₂ hq)
    · exact hkeep q (List.mem_append_right ps₁ hq)
  · intro q hq
    obtain ⟨hne, hq⟩ := AList.mem_erase.mp hq
    have hmem := h.allocated q hq
    rw [List.mem_append, List.mem_cons] at hmem
    rw [List.mem_append]
    rcases hmem with hmem | rfl | hmem
    · exact .inl hmem
    · exact absurd rfl hne
    · exact .inr hmem
  · -- two descriptors have different files, so the others are still open
    rw [hfound.eraseP]
    intro d' hd'
    refine AList.mem_erase.mpr ⟨?_, h.opened d' ?_⟩
    · intro heq
      exact hfile (List.mem_map.mpr ⟨d', hd', heq⟩)
    · rw [List.mem_append, List.mem_cons]
      rcases List.mem_append.mp hd' with hd' | hd'
      · exact .inl hd'
      · exact .inr (.inr hd')
  · rw [hfound.eraseP]
    exact hfiles

/-- `close` returns. It removes the first descriptor with its number and closes the file
of that descriptor. -/
theorem Represents.sysClose (h : Represents s ps ds) (fd : ℤ) :
    ∃ s' qs files, sysClose s fd = .ok s' ∧ Represents s' qs (ds.eraseP (·.fd = fd)) ∧
      s'.kernel = { s.kernel with files := files } ∧
      ∀ f, f ∈ files ↔ f ∈ s.kernel.files ∧
        (f ∈ ds.map (·.file) → f ∈ (ds.eraseP (·.fd = fd)).map (·.file)) := by
  have hlength := h.length_le
  have hrounds : (ps.map Node.elem).length < s.descriptors.entries.length + 1 := by omega
  obtain ⟨begin, hbegin, hsearch⟩ := h.list.search_forward (s.hasFd fd) hrounds
  have hbegin' : s.links.next .head = some begin := hbegin
  have hsearch' : search s.links.next .tail (s.hasFd fd) (s.descriptors.entries.length + 1) begin =
      some (scanned (s.hasFd fd) (ps.map .elem), (ps.map Node.elem).find? (s.hasFd fd)) := hsearch
  rcases find_cases fd h.contents with ⟨hnone, herase⟩ | ⟨ps₁, p, ps₂, ds₁, d, ds₂, hfound⟩
  · -- the walk ends at the tail
    refine ⟨s, ps, s.kernel.files, ?_, ?_, rfl, ?_⟩
    · refine Lts.bind_eq_ok.mpr ⟨begin, by rw [hbegin']; rfl, ?_⟩
      refine Lts.bind_eq_ok.mpr ⟨_, by rw [hsearch']; rfl, ?_⟩
      rw [hnone]
      rfl
    · rw [herase]
      exact h
    · intro f
      rw [herase]
      exact ⟨fun hf => ⟨hf, id⟩, fun hf => hf.1⟩
  · -- the element found is unlinked after its file is closed
    obtain ⟨links, hremove, hrep⟩ := h.remove hfound
    have hmem : d ∈ ds := by
      rw [hfound.descriptors]
      exact List.mem_append_right ds₁ List.mem_cons_self
    obtain ⟨o, ho⟩ := Option.isSome_iff_exists.mp (AList.lookup_isSome.mpr (h.opened d hmem))
    have hclose : fileClose s.kernel d.file =
        .ok { s.kernel with files := s.kernel.files.erase d.file } := by
      unfold fileClose
      rw [ho]
      rfl
    refine ⟨_, _, _, ?_, hrep, rfl, ?_⟩
    · refine Lts.bind_eq_ok.mpr ⟨begin, by rw [hbegin']; rfl, ?_⟩
      refine Lts.bind_eq_ok.mpr ⟨_, by rw [hsearch']; rfl, ?_⟩
      rw [hfound.find]
      refine Lts.bind_eq_ok.mpr ⟨d, by rw [hfound.lookup]; rfl, ?_⟩
      refine Lts.bind_eq_ok.mpr ⟨_, hclose, ?_⟩
      exact Lts.bind_eq_ok.mpr ⟨links, by rw [hremove]; rfl, rfl⟩
    · intro f
      -- the file that is closed is the only one that leaves the list
      obtain ⟨hfile, -⟩ := List.nodup_cons.mp (hfound.files_nodup h)
      rw [hfound.eraseP, AList.mem_erase, and_comm]
      refine and_congr_right fun _ => ⟨?_, ?_⟩
      · intro hne hf
        rw [hfound.descriptors, (List.perm_middle.map _).mem_iff, List.map_cons,
          List.mem_cons] at hf
        exact hf.resolve_left hne
      · intro hkept heq
        subst heq
        exact hfile (hkept (List.mem_map_of_mem hmem))

/-! ## Runs -/

/-- What `init_thread` has done for a thread. -/
structure Started (t : Tid) (k : Kernel) : Prop where
  fd : k.fd t = 2
  fileList : k.fileList t = []
  mmapList : k.mmapList t = []

/-- The descriptors that are open after a call. -/
def Call.descriptors : Call → List FileDescriptor → List FileDescriptor
  | .openFile fd (some f), ds => ds ++ [⟨fd, f⟩]
  | .openFile _ none, ds => ds
  | .close fd, ds => ds.eraseP (·.fd = fd)
  | .mmap _ _ _, ds => ds
  | .munmap _, ds => ds

/-- The descriptors that are open after some calls, in the order of their opening. -/
def openDescriptors (as : List Call) : List FileDescriptor :=
  as.foldl (fun ds a => a.descriptors ds) []

theorem openDescriptors_snoc : openDescriptors (as ++ [a]) = a.descriptors (openDescriptors as) :=
  List.foldl_append ..

/-- The call is an `open` that obtains a file. -/
def Call.opens : Call → Bool
  | .openFile _ (some _) => true
  | _ => false

/-- The number of the descriptor that is opened after `n` other ones. -/
def fdOf (n : ℕ) : ℤ := if n < 2 ^ 31 - 2 then n + 2 else n + 2 - 2 ^ 32

theorem nextInt_fdOf (hn : n < 2 ^ 31) : nextInt (fdOf n) = fdOf (n + 1) := by
  unfold nextInt fdOf
  split_ifs
  all_goals omega

theorem fdOf_ne {i : ℕ} (hi : i < n) (hn : n < 2 ^ 31) : fdOf i ≠ fdOf n := by
  unfold fdOf
  split_ifs
  all_goals omega

/-- What holds after some calls of a process that starts in `k`: of the kernel they have
changed the open files and the number of the next descriptor. -/
structure Tracks (t : Tid) (k : Kernel) (as : List Call) (s : State) : Prop where
  started : Started t k
  represents : ∃ ps, Represents s ps (openDescriptors as)
  rest : s.kernel = { k with files := s.kernel.files, fd := s.kernel.fd }
  fd : as.countP Call.opens < 2 ^ 31 → s.kernel.fd t = fdOf (as.countP Call.opens)

theorem Tracks.listed (h : Tracks t k as s) : s.kernel.listed = k.listed := by
  rw [h.rest]

theorem Tracks.fileList (h : Tracks t k as s) : s.kernel.fileList t = [] := by
  rw [h.rest]
  exact h.started.fileList

theorem Tracks.mmapList (h : Tracks t k as s) : s.kernel.mmapList t = [] := by
  rw [h.rest]
  exact h.started.mmapList

/-- Without descriptors in `file_list`, `process_get_file` finds none. -/
theorem processGetFile_of_nil (h : k.fileList t = []) :
    processGetFile k t fd = if k.listed then .ok none else .error kernelBug := by
  unfold processGetFile
  rw [h]
  rfl

/-- Without descriptors in `file_list`, `mmap` fails at once. -/
theorem sysMmap_of_nil {addr : Vaddr} (h : s.kernel.fileList t = []) :
    sysMmap env s t fd addr =
      if s.kernel.listed then .ok (error, s) else .error kernelBug := by
  unfold sysMmap mmap
  rw [processGetFile_of_nil h]
  cases s.kernel.listed <;> rfl

theorem sysMunmap_of_nil {mapping : ℤ} (h : s.kernel.mmapList t = []) :
    sysMunmap s t mapping = if s.kernel.listed then .ok s else .error isNextable := by
  unfold sysMunmap munmap processRemoveMmap
  rw [h]
  cases s.kernel.listed <;> rfl

theorem countP_snoc (as : List Call) (a : Call) :
    (as ++ [a]).countP Call.opens = as.countP Call.opens + a.opens.toNat := by
  rw [List.countP_append, List.countP_singleton]
  cases a.opens with
  | true => rfl
  | false => rfl

/-- A call that opens no file and closes none. -/
theorem Tracks.other (h : Tracks t k as s)
    (hds : a.descriptors (openDescriptors as) = openDescriptors as) (hopens : a.opens = false) :
    Tracks t k (as ++ [a]) s := by
  have hcount := countP_snoc as a
  rw [hopens] at hcount
  refine ⟨h.started, ?_, h.rest, ?_⟩
  · rw [openDescriptors_snoc, hds]
    exact h.represents
  · rw [hcount]
    exact h.fd

theorem Tracks.step (h : Tracks t k as s) (hs : Performs t s a s') :
    Tracks t k (as ++ [a]) s' := by
  obtain ⟨ps, hrep⟩ := h.represents
  have hcount := countP_snoc as a
  cases a with
  | openFile fd f =>
      obtain ⟨env, desc, file, hopen, hs⟩ := hs
      cases f with
      | none =>
          obtain ⟨-, rfl⟩ := sysOpen_of_none hopen hs
          exact h.other rfl rfl
      | some f =>
          obtain ⟨hfd, ⟨o, -, hk⟩, p, hrep'⟩ := hrep.sysOpen hopen hs
          refine ⟨h.started, ?_, ?_, ?_⟩
          · rw [openDescriptors_snoc]
            exact ⟨_, hrep'⟩
          · rw [hk, h.rest]
          · intro hlt
            -- the number of the next descriptor is one larger, as long as it does not overflow
            rw [hcount] at hlt ⊢
            have hlt' : as.countP Call.opens + 1 < 2 ^ 31 := hlt
            show _ = fdOf (as.countP Call.opens + 1)
            rw [← nextInt_fdOf (by omega), hk, ← h.fd (by omega), ← hfd]
            exact Function.update_self ..
  | close fd =>
      obtain ⟨s₁, qs, files, hclose, hrep', hk, -⟩ := hrep.sysClose fd
      obtain rfl : s₁ = s' := Except.ok.inj (hclose.symm.trans hs)
      refine ⟨h.started, ?_, ?_, ?_⟩
      · rw [openDescriptors_snoc]
        exact ⟨qs, hrep'⟩
      · rw [hk, h.rest]
      · rw [hcount, hk]
        exact h.fd
  | mmap fd addr id =>
      obtain ⟨env, hs⟩ := hs
      -- `process_get_file` finds nothing, so `mmap` fails before it does anything
      rw [sysMmap_of_nil h.fileList] at hs
      obtain ⟨-, rfl⟩ := Prod.mk.inj (Except.ok.inj (Lts.guard_eq_ok.mp hs).2)
      exact h.other rfl rfl
  | munmap mapping =>
      obtain rfl : s = s' := Except.ok.inj
        (Lts.guard_eq_ok.mp ((sysMunmap_of_nil h.mmapList).symm.trans hs)).2
      exact h.other rfl rfl

theorem tracks_of_run (hk : Started t k) (h : Lts.Run (Performs t) (State.start k) as s) :
    Tracks t k as s := by
  refine h.invariant_trace (P := fun as s => Tracks t k as s) (fun _ _ _ _ hs hi => hi.step hs) ?_
  exact ⟨hk, ⟨[], represents_start k⟩, rfl, fun _ => hk.fd⟩

end Pintos.Files
