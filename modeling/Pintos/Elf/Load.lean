import Pintos.Elf.Format
import Pintos.Elf.Stack
import Pintos.Vm.LazyLoading
import Pintos.Vm.MappedFiles

/-! # Loading an ELF executable

`load` from the opening of the executable on, with the headers read from the file. It
does what the `load` of the virtual memory does with the segments that the file
describes, if the file is an executable, and nothing else starts a process.
-/

namespace Pintos.Elf

open Vm

/-- `file_read` of a record at position `pos`; `none` if it reads fewer bytes. -/
def fileRead {α : Type} (A : Layout α) (k : Kernel) (f : FilePtr) (pos : ℕ) :
    Except String (Option α) := do
  let o ← deref (k.files.lookup f)
  return A.readAt (k.bytesOf o.inode) pos

/-- The `switch` of `load` on the type of a program header; false where it goes to
`done`. `n` counts the entries allocated so far. -/
def loadHeader (env : Env) (t : Tid) (file : FilePtr) (length n : ℕ) (k : Kernel)
    (phdr : Elf32Phdr) : Except String (Bool × ℕ × Kernel) :=
  if phdr.type = ptDynamic ∨ phdr.type = ptInterp ∨ phdr.type = ptShlib then
    .ok (false, n, k)
  else if phdr.type = ptLoad then
    if validateSegment phdr.toPhdr length then
      loadSegment env n k t file (segmentOf phdr.toPhdr)
    else
      .ok (false, n, k)
  else
    .ok (true, n, k)

/-- The loop of `load` over the program headers that are left, from `file_ofs` on, which
is an `off_t`. -/
def loadHeaders (env : Env) (t : Tid) (file : FilePtr) :
    ℕ → Int32 → ℕ → Kernel → Except String (Bool × ℕ × Kernel)
  | 0, _, n, k => .ok (true, n, k)
  | i + 1, fileOfs, n, k => do
      let length ← fileLength k file
      if fileOfs < 0 ∨ fileOfs.toInt > length then
        return (false, n, k)
      else
        match ← fileRead Elf32Phdr.layout k file fileOfs.toInt.toNat with
        | none => return (false, n, k)
        | some phdr =>
            match ← loadHeader env t file length n k phdr with
            | (false, n, k) => return (false, n, k)
            | (true, n, k) => loadHeaders env t file i (fileOfs + 32) n k

/-- `load` from the reading of the executable header on: the entry point and the stack
pointer if it succeeds. -/
def loadOpened (env : StartEnv) (k : Kernel) (t : Tid) (file : FilePtr) (cmd : Command) :
    Except String (Option (UInt32 × Vaddr) × Kernel) := do
  match ← fileRead Elf32Ehdr.layout k file 0 with
  | none => return (none, k)
  | some ehdr =>
      if ¬ ehdr.Accepted then
        return (none, k)
      else
        match ← loadHeaders env.toEnv t file ehdr.phnum.toNat ehdr.phoff.toInt32 0 k with
        | (false, _, k) => return (none, k)
        | (true, n, k) =>
            let (esp, k) ← setupStack env n k t cmd
            return (esp.map fun esp => (ehdr.entry, esp), k)

/-- `load` of the executable `exe`, the file that the command line names, in the new
thread `t`. Without a page directory it releases `file_lock`, which it does not hold. -/
def load (env : StartEnv) (k : Kernel) (t : Tid) (exe : Inode) (cmd : Command) :
    Except String (Option (UInt32 × Vaddr) × Kernel) :=
  if env.pagedirCreate = false then
    .error "lock_held_by_current_thread (lock)"
  else
    match fileOpen env.toEnv (initThread k t) exe with
    | (none, k) => .ok (none, k)
    | (some file, k) => do
        let k ← fileDenyWrite k file
        let k := { k with executable := Function.update k.executable t (some file) }
        loadOpened env k t file cmd

variable {env : Env} {k k' : Kernel} {t : Tid} {file : FilePtr} {o : OpenFile} {ehdr : Elf32Ehdr}
  {phdr : Elf32Phdr} {phdrs : List Elf32Phdr} {bytes : List UInt8} {i n m ofs : ℕ}
  {fileOfs : Int32} {b : Bool}

/-! ## What stays -/

/-- The open files and the contents of the files are the same. -/
structure SameFiles (k k' : Kernel) : Prop extends SameHandles k k' where
  inodes : k'.inodes = k.inodes

theorem SameFiles.refl (k : Kernel) : SameFiles k k := ⟨.refl k, rfl⟩

theorem SameFiles.trans {k₁ : Kernel} (h : SameFiles k k₁) (h₁ : SameFiles k₁ k') :
    SameFiles k k' :=
  ⟨h.toSameHandles.trans h₁.toSameHandles, h₁.inodes.trans h.inodes⟩

theorem addFilePageTbl_sameFiles {upage : Vaddr} {pos readBytes zeroBytes : UInt32} {w : Bool}
    (hadd : addFilePageTbl env n k t file pos upage readBytes zeroBytes w = (b, k')) :
    SameFiles k k' := by
  unfold addFilePageTbl at hadd
  split at hadd
  · cases hadd
    exact .refl k
  · dsimp only at hadd
    unfold hashInsert at hadd
    split at hadd
    · cases hadd
      exact ⟨⟨rfl, rfl, rfl⟩, rfl⟩
    · cases hadd
      exact ⟨⟨rfl, rfl, rfl⟩, rfl⟩

theorem loadSegmentLoop_sameFiles {upage : Vaddr} {pos readBytes zeroBytes : UInt32} {w : Bool}
    {rounds : ℕ}
    (hloop : loadSegmentLoop env t file w n rounds pos upage readBytes zeroBytes k = (b, m, k')) :
    SameFiles k k' := by
  induction rounds generalizing n pos upage readBytes zeroBytes k with
  | zero =>
      cases hloop
      exact .refl _
  | succ rounds ih =>
      unfold loadSegmentLoop at hloop
      split at hloop
      · dsimp only at hloop
        split at hloop
        next hadd =>
          cases hloop
          exact addFilePageTbl_sameFiles hadd
        next hadd => exact (addFilePageTbl_sameFiles hadd).trans (ih hloop)
      · cases hloop
        exact .refl _

/-- For a segment that is valid `load_segment` does not fail an assertion. -/
theorem loadSegment_ok {length : ℕ} (hvalid : validateSegment phdr.toPhdr length = true) :
    ∃ b m k', loadSegment env n k t file (segmentOf phdr.toPhdr) = .ok (b, m, k') ∧
      SameFiles k k' := by
  obtain ⟨hsum, hupage, hofs⟩ := segmentOf_asserts hvalid
  unfold loadSegment
  rw [if_neg (not_not.mpr hsum), if_neg (not_not.mpr hupage), if_neg (not_not.mpr hofs)]
  rcases hloop : loadSegmentLoop env t file (segmentOf phdr.toPhdr).writable n
    (((segmentOf phdr.toPhdr).readBytes.toNat + (segmentOf phdr.toPhdr).zeroBytes.toNat) / pgSize)
    (segmentOf phdr.toPhdr).ofs (segmentOf phdr.toPhdr).upage (segmentOf phdr.toPhdr).readBytes
    (segmentOf phdr.toPhdr).zeroBytes k with ⟨b, m, k'⟩
  exact ⟨b, m, k', rfl, loadSegmentLoop_sameFiles hloop⟩

/-! ## The loop over the program headers -/

theorem fileLength_eq (hfile : k.files.lookup file = some o) :
    fileLength k file = .ok (k.bytesOf o.inode).length := by
  unfold fileLength
  rw [hfile]
  rfl

theorem fileRead_eq {α : Type} {A : Layout α} {pos : ℕ} (hfile : k.files.lookup file = some o) :
    fileRead A k file pos = .ok (A.readAt (k.bytesOf o.inode) pos) := by
  unfold fileRead
  rw [hfile]
  rfl

/-- The switch only fails for a program header that an executable does not have, or
because `load_segment` fails, and never with an error. -/
theorem loadHeader_ok (env : Env) (t : Tid) (file : FilePtr) (length n : ℕ) (k : Kernel)
    (phdr : Elf32Phdr) :
    ∃ b m k', loadHeader env t file length n k phdr = .ok (b, m, k') ∧ SameFiles k k' := by
  unfold loadHeader
  split
  · exact ⟨_, _, _, rfl, .refl k⟩
  · split
    · split
      next hvalid => exact loadSegment_ok hvalid
      next => exact ⟨_, _, _, rfl, .refl k⟩
    · exact ⟨_, _, _, rfl, .refl k⟩

/-- A round of the loop, if there is a program header at `file_ofs`. -/
theorem loadHeaders_of_read (hfile : k.files.lookup file = some o) (hofs : fileOfs.toInt = ofs)
    (hread : Elf32Phdr.layout.readAt (k.bytesOf o.inode) ofs = some phdr)
    (hround : loadHeader env t file (k.bytesOf o.inode).length n k phdr = .ok (b, m, k')) :
    loadHeaders env t file (i + 1) fileOfs n k =
      if b then loadHeaders env t file i (fileOfs + 32) m k' else .ok (false, m, k') := by
  have hle := Layout.readAt_le hread
  have hin : ¬ (fileOfs < 0 ∨ fileOfs.toInt > (k.bytesOf o.inode).length) := by
    rw [Int32.lt_iff_toInt_lt, hofs]
    show ¬ ((ofs : ℤ) < 0 ∨ _)
    omega
  have hpos : fileOfs.toInt.toNat = ofs := by
    rw [hofs]
    exact Int.toNat_natCast ofs
  conv_lhs => unfold loadHeaders
  simp only [fileLength_eq hfile, fileRead_eq hfile, hpos, hread, hround, if_neg hin, bind,
    Except.bind]
  cases b with
  | false => rfl
  | true => rfl

/-- The loop goes to `done` if there is no program header at `file_ofs`. -/
theorem loadHeaders_of_none (hfile : k.files.lookup file = some o)
    (hread : ∀ pos : ℕ, fileOfs.toInt = pos →
      Elf32Phdr.layout.readAt (k.bytesOf o.inode) pos = none) :
    loadHeaders env t file (i + 1) fileOfs n k = .ok (false, n, k) := by
  unfold loadHeaders
  simp only [fileLength_eq hfile, bind, Except.bind]
  split
  next => rfl
  next hin =>
    rw [not_or, Int32.lt_iff_toInt_lt] at hin
    have hpos : fileOfs.toInt = ↑fileOfs.toInt.toNat :=
      (Int.toNat_of_nonneg (not_lt.mp hin.1)).symm
    simp only [fileRead_eq hfile, hread _ hpos]
    rfl

theorem SameFiles.lookup (h : SameFiles k k') (hfile : k.files.lookup file = some o) :
    k'.files.lookup file = some o := by
  rw [h.files]
  exact hfile

theorem SameFiles.bytesOf (h : SameFiles k k') (j : Inode) : k'.bytesOf j = k.bytesOf j := by
  unfold Kernel.bytesOf
  rw [h.inodes]

/-- The loop never ends with an error, and opens, closes and writes no file. -/
theorem loadHeaders_ok (hfile : k.files.lookup file = some o) :
    ∃ b m k', loadHeaders env t file i fileOfs n k = .ok (b, m, k') ∧ SameFiles k k' := by
  induction i generalizing fileOfs n k with
  | zero => exact ⟨_, _, _, rfl, .refl k⟩
  | succ i ih =>
      by_cases hread : ∃ ofs : ℕ, fileOfs.toInt = ofs ∧
          Elf32Phdr.layout.readAt (k.bytesOf o.inode) ofs ≠ none
      · obtain ⟨ofs, hofs, hsome⟩ := hread
        obtain ⟨phdr, hread⟩ := Option.ne_none_iff_exists'.mp hsome
        obtain ⟨b, m, k₁, hround, hsame⟩ :=
          loadHeader_ok env t file (k.bytesOf o.inode).length n k phdr
        rw [loadHeaders_of_read hfile hofs hread hround]
        cases b with
        | false => exact ⟨_, _, _, rfl, hsame⟩
        | true =>
            obtain ⟨b, m', k₂, hrest, hsame'⟩ := ih (hsame.lookup hfile)
            exact ⟨b, m', k₂, hrest, hsame.trans hsame'⟩
      · rw [loadHeaders_of_none hfile fun pos hpos => ?_]
        · exact ⟨_, _, _, rfl, .refl k⟩
        · by_contra hsome
          exact hread ⟨pos, hpos, hsome⟩

/-- What the switch does with a program header is what the loop over the segments does
with its segment. -/
theorem loadHeader_iff {length : ℕ} {rest : List Phdr} {k₁ : Kernel} {n₁ : ℕ}
    (hround : loadHeader env t file length n k phdr = .ok (b, n₁, k₁)) :
    (∃ ss, segmentsOf length (phdr.toPhdr :: rest) = some ss ∧
        loadSegments env t file n ss k = .ok (true, m, k')) ↔
      b = true ∧ ∃ ss, segmentsOf length rest = some ss ∧
        loadSegments env t file n₁ ss k₁ = .ok (true, m, k') := by
  rw [segmentsOf_cons]
  unfold loadHeader at hround
  by_cases hdyn : phdr.type = ptDynamic ∨ phdr.type = ptInterp ∨ phdr.type = ptShlib
  · rw [if_pos hdyn] at hround ⊢
    cases hround
    simp
  · rw [if_neg hdyn] at hround ⊢
    by_cases hload : phdr.type = ptLoad
    · rw [if_pos hload] at hround ⊢
      by_cases hvalid : validateSegment phdr.toPhdr length = true
      · rw [if_pos hvalid] at hround ⊢
        have hcons : ∀ ss, loadSegments env t file n (segmentOf phdr.toPhdr :: ss) k =
            if b then loadSegments env t file n₁ ss k₁ else .ok (false, n₁, k₁) := by
          intro ss
          conv_lhs => unfold loadSegments
          rw [hround]
          cases b with
          | false => rfl
          | true => rfl
        constructor
        · rintro ⟨ss, hss, h⟩
          obtain ⟨ss', hss', rfl⟩ := Option.map_eq_some_iff.mp hss
          rw [hcons] at h
          cases b with
          | false => cases h
          | true => exact ⟨rfl, ss', hss', h⟩
        · rintro ⟨rfl, ss, hss, h⟩
          exact ⟨_, Option.map_eq_some_iff.mpr ⟨ss, hss, rfl⟩, (hcons ss).trans h⟩
      · rw [if_neg hvalid] at hround ⊢
        cases hround
        simp
    · rw [if_neg hload] at hround ⊢
      cases hround
      simp

/-- A file offset as an `off_t`; from 2^31 on it is negative. -/
structure Offset (fileOfs : Int32) (ofs : ℕ) : Prop where
  toInt : ofs < 2 ^ 31 → fileOfs.toInt = ofs
  negative : 2 ^ 31 ≤ ofs → fileOfs.toInt < 0

theorem offset_toInt32 (x : UInt32) : Offset x.toInt32 x.toNat := by
  have hlt := x.toNat_lt
  have hcond : x.toInt32.toInt =
      if 2 * x.toNat < 2 ^ 32 then (x.toNat : ℤ) else (x.toNat : ℤ) - (2 ^ 32 : ℕ) :=
    BitVec.toInt_eq_toNat_cond x.toBitVec
  refine ⟨fun h => ?_, fun h => ?_⟩
  · rw [hcond, if_pos (by omega)]
  · rw [hcond, if_neg (by omega)]
    omega

/-- A program header that is read lies in the file, so that the next file offset does not
overflow. -/
theorem Offset.next {p : Elf32Phdr} (h : Offset fileOfs ofs) (hlength : bytes.length < 2 ^ 31)
    (hread : Elf32Phdr.layout.readAt bytes ofs = some p) :
    fileOfs.toInt = ofs ∧ Offset (fileOfs + 32) (ofs + Elf32Phdr.layout.size) := by
  have hle := Layout.readAt_le hread
  have h32 : (32 : Int32).toInt = 32 := by decide
  rw [Elf32Phdr.layout_size] at hle ⊢
  have hofs := h.toInt (by omega)
  refine ⟨hofs, fun _ => ?_, fun h => by omega⟩
  rw [Int32.toInt_add, h32, hofs, Int.bmod_eq_of_le (by omega) (by omega)]
  rfl

/-- The loop over the program headers comes to its end exactly if they are in the file,
describe segments that can be loaded, and these segments are loaded. -/
theorem loadHeaders_iff (hfile : k.files.lookup file = some o) (hofs : Offset fileOfs ofs) :
    loadHeaders env t file i fileOfs n k = .ok (true, m, k') ↔
      ∃ phdrs ss, Elf32Phdr.layout.readTable (k.bytesOf o.inode) i ofs = some phdrs ∧
        segmentsOf (k.bytesOf o.inode).length (phdrs.map Elf32Phdr.toPhdr) = some ss ∧
        loadSegments env t file n ss k = .ok (true, m, k') := by
  induction i generalizing fileOfs ofs n k with
  | zero =>
      constructor
      · intro h
        exact ⟨[], [], rfl, rfl, h⟩
      · rintro ⟨phdrs, ss, hphdrs, hss, h⟩
        cases hphdrs
        cases hss
        exact h
  | succ i ih =>
      simp only [Layout.readTable_succ]
      cases hread : Elf32Phdr.layout.readAt (k.bytesOf o.inode) ofs with
      | none =>
          rw [loadHeaders_of_none hfile fun pos hpos => ?_]
          · simp
          · have hlt : ofs < 2 ^ 31 := by
              by_contra hge
              have hneg := hofs.negative (Nat.not_lt.mp hge)
              omega
            rw [← Int.ofNat_inj.mp ((hofs.toInt hlt).symm.trans hpos)]
            exact hread
      | some phdr =>
          obtain ⟨b, n₁, k₁, hround, hsame⟩ :=
            loadHeader_ok env t file (k.bytesOf o.inode).length n k phdr
          obtain ⟨hofs', hnext⟩ := hofs.next (k.length_bytesOf_lt o.inode) hread
          have hrest : loadHeaders env t file (i + 1) fileOfs n k = .ok (true, m, k') ↔
              b = true ∧ loadHeaders env t file i (fileOfs + 32) n₁ k₁ = .ok (true, m, k') := by
            rw [loadHeaders_of_read hfile hofs' hread hround]
            cases b with
            | false => simp
            | true => simp
          rw [hrest, ih (hsame.lookup hfile) hnext, hsame.bytesOf]
          constructor
          · rintro ⟨hb, phdrs, ss, hphdrs, hss, h⟩
            obtain ⟨ss', hss', h'⟩ := (loadHeader_iff hround).mpr ⟨hb, ss, hss, h⟩
            exact ⟨phdr :: phdrs, ss', ⟨phdr, phdrs, rfl, hphdrs, rfl⟩, hss', h'⟩
          · rintro ⟨_, ss, ⟨p, phdrs, hp, hphdrs, rfl⟩, hss, h⟩
            obtain rfl := Option.some.inj hp
            obtain ⟨hb, ss', hss', h'⟩ := (loadHeader_iff hround).mp ⟨ss, hss, h⟩
            exact ⟨hb, phdrs, ss', hphdrs, hss', h'⟩

/-! ## The whole function -/

theorem startProcess_lookup {exe : Inode} :
    (startProcess k t file exe).files.lookup file = some { inode := exe, denyWrite := true } :=
  AList.lookup_insert _

/-- With the executable header read and accepted, the loop over the program headers comes
to its end exactly if the file is an executable and its segments are loaded. -/
theorem loadHeaders_iff_executable (hfile : k.files.lookup file = some o)
    (hread : Elf32Ehdr.layout.readAt (k.bytesOf o.inode) 0 = some ehdr) (hacc : ehdr.Accepted) :
    loadHeaders env t file ehdr.phnum.toNat ehdr.phoff.toInt32 n k = .ok (true, m, k') ↔
      ∃ phdrs, IsExecutable (k.bytesOf o.inode) ehdr phdrs ∧
        loadSegments env t file n (segments phdrs) k = .ok (true, m, k') := by
  have hlength := k.length_bytesOf_lt o.inode
  rw [loadHeaders_iff hfile (offset_toInt32 ehdr.phoff)]
  constructor
  · rintro ⟨phdrs, ss, htable, hss, hload⟩
    obtain ⟨hnum, hbytes⟩ := (Layout.readTable_eq_some (by decide)).mp htable
    obtain ⟨hstatic, hloadable, rfl⟩ := (segmentsOf_eq_some hlength).mp hss
    exact ⟨phdrs, ⟨(Layout.readAt_eq_some (by decide)).mp hread, hacc, hnum, hbytes, hstatic,
      hloadable⟩, hload⟩
  · rintro ⟨phdrs, hexe, hload⟩
    exact ⟨phdrs, _, hexe.reads.2,
      (segmentsOf_eq_some hlength).mpr ⟨hexe.static, hexe.loadable, rfl⟩, hload⟩

section Start

variable {env : StartEnv} {cmd : Command} {entry : UInt32} {esp : Vaddr} {exe : Inode}
  {k₁ : Kernel}

/-- Nothing is done with a file whose header is not accepted. -/
theorem loadOpened_rejected (hfile : k.files.lookup file = some o)
    (hrej : ∀ ehdr, Elf32Ehdr.layout.readAt (k.bytesOf o.inode) 0 = some ehdr → ¬ ehdr.Accepted) :
    loadOpened env k t file cmd = .ok (none, k) := by
  unfold loadOpened
  rw [fileRead_eq hfile]
  cases hread : Elf32Ehdr.layout.readAt (k.bytesOf o.inode) 0 with
  | none => rfl
  | some ehdr => exact if_pos (hrej ehdr hread)

theorem loadOpened_failed (hfile : k.files.lookup file = some o)
    (hread : Elf32Ehdr.layout.readAt (k.bytesOf o.inode) 0 = some ehdr) (hacc : ehdr.Accepted)
    (hloop : loadHeaders env.toEnv t file ehdr.phnum.toNat ehdr.phoff.toInt32 0 k =
      .ok (false, n, k₁)) :
    loadOpened env k t file cmd = .ok (none, k₁) := by
  unfold loadOpened
  simp only [fileRead_eq hfile, hread, if_neg (not_not.mpr hacc), hloop, bind, Except.bind]
  rfl

/-- With the segments loaded, the rest is the stack. -/
theorem loadOpened_loaded (hfile : k.files.lookup file = some o)
    (hread : Elf32Ehdr.layout.readAt (k.bytesOf o.inode) 0 = some ehdr) (hacc : ehdr.Accepted)
    (hloop : loadHeaders env.toEnv t file ehdr.phnum.toNat ehdr.phoff.toInt32 0 k =
      .ok (true, n, k₁)) :
    loadOpened env k t file cmd = (setupStack env n k₁ t cmd).map
      fun r => (r.1.map fun esp => (ehdr.entry, esp), r.2) := by
  unfold loadOpened
  simp only [fileRead_eq hfile, hread, if_neg (not_not.mpr hacc), hloop, bind, Except.bind]
  rcases setupStack env n k₁ t cmd with msg | r
  · rfl
  · rfl

/-- The process is started if the file is an executable, its segments are loaded and the
stack is set up. -/
theorem loadOpened_iff (hfile : k.files.lookup file = some o) :
    loadOpened env k t file cmd = .ok (some (entry, esp), k') ↔
      ∃ ehdr phdrs n k₁, IsExecutable (k.bytesOf o.inode) ehdr phdrs ∧ entry = ehdr.entry ∧
        loadSegments env.toEnv t file 0 (segments phdrs) k = .ok (true, n, k₁) ∧
        setupStack env n k₁ t cmd = .ok (some esp, k') := by
  by_cases hacc : ∃ ehdr, Elf32Ehdr.layout.readAt (k.bytesOf o.inode) 0 = some ehdr ∧
      ehdr.Accepted
  · obtain ⟨ehdr, hread, hacc⟩ := hacc
    obtain ⟨b, n, k₁, hloop, -⟩ : ∃ b n k₁, loadHeaders env.toEnv t file ehdr.phnum.toNat
        ehdr.phoff.toInt32 0 k = .ok (b, n, k₁) ∧ SameFiles k k₁ := loadHeaders_ok hfile
    have hiff : ∀ n' k₂, (∃ phdrs, IsExecutable (k.bytesOf o.inode) ehdr phdrs ∧
        loadSegments env.toEnv t file 0 (segments phdrs) k = .ok (true, n', k₂)) ↔
        b = true ∧ n = n' ∧ k₁ = k₂ := by
      intro n' k₂
      rw [← loadHeaders_iff_executable hfile hread hacc, hloop, Except.ok.injEq, Prod.mk.injEq,
        Prod.mk.injEq]
    constructor
    · intro h
      cases b with
      | false =>
          rw [loadOpened_failed hfile hread hacc hloop] at h
          cases h
      | true =>
          rw [loadOpened_loaded hfile hread hacc hloop] at h
          obtain ⟨⟨_ | esp, k₂⟩, hstack, hr⟩ := Lts.map_eq_ok.mp h
          · -- the stack could not be set up
            cases hr
          · cases hr
            obtain ⟨phdrs, hexe, hload⟩ := (hiff n k₁).mpr ⟨rfl, rfl, rfl⟩
            exact ⟨ehdr, phdrs, n, k₁, hexe, rfl, hload, hstack⟩
    · rintro ⟨ehdr', phdrs, n', k₂, hexe, rfl, hload, hstack⟩
      obtain rfl := Option.some.inj (hexe.reads.1.symm.trans hread)
      obtain ⟨rfl, rfl, rfl⟩ := (hiff n' k₂).mp ⟨phdrs, hexe, hload⟩
      rw [loadOpened_loaded hfile hread hacc hloop, hstack]
      rfl
  · rw [loadOpened_rejected hfile fun ehdr hread h => hacc ⟨ehdr, hread, h⟩]
    refine ⟨nofun, ?_⟩
    rintro ⟨ehdr, phdrs, n, k₁, hexe, -⟩
    exact absurd ⟨ehdr, hexe.reads.1, hexe.accepted⟩ hacc

/-- The ways a load can go up to the opening of the file. -/
theorem load_cases (env : StartEnv) (k : Kernel) (t : Tid) (exe : Inode) (cmd : Command) :
    (env.pagedirCreate = false ∧
      load env k t exe cmd = .error "lock_held_by_current_thread (lock)") ∨
    env.pagedirCreate = true ∧
      ((∃ k₁, fileOpen env.toEnv (initThread k t) exe = (none, k₁) ∧
        load env k t exe cmd = .ok (none, k₁)) ∨
      ∃ file k₁, fileOpen env.toEnv (initThread k t) exe = (some file, k₁) ∧
        load env k t exe cmd = loadOpened env (startProcess k t file exe) t file cmd) := by
  unfold load
  cases env.pagedirCreate with
  | false => exact .inl ⟨rfl, rfl⟩
  | true =>
      refine .inr ⟨rfl, ?_⟩
      rw [if_neg (by decide)]
      rcases hopen : fileOpen env.toEnv (initThread k t) exe with ⟨_ | file, k₁⟩
      · exact .inl ⟨k₁, rfl, rfl⟩
      · obtain ⟨k₂, hdeny, hstart⟩ := fileDenyWrite_opened hopen
        refine .inr ⟨file, k₁, rfl, ?_⟩
        rw [← hstart]
        dsimp only
        rw [hdeny]
        rfl

/-- A process is started from a file exactly if the file is an executable, the load of its
segments succeeds and its arguments are pushed. -/
theorem load_refines : load env k t exe cmd = .ok (some (entry, esp), k') ↔
    ∃ ehdr phdrs k₁, IsExecutable (k.bytesOf exe) ehdr phdrs ∧ entry = ehdr.entry ∧
      Vm.load env.toEnv k t exe (segments phdrs) = .ok k₁ ∧ env.AllocatesArgv cmd ∧
      esp = UInt32.ofNat cmd.stack.esp ∧ storeStack env t cmd.stack k₁ = .ok k' := by
  have hbytes : ∀ file, (startProcess k t file exe).bytesOf exe = k.bytesOf exe := fun _ => rfl
  rcases load_cases env k t exe cmd with ⟨hcreate, heq⟩ | ⟨hcreate, ⟨k₀, hopen, heq⟩ |
    ⟨file, k₀, hopen, heq⟩⟩
  · -- there is no page directory, without which `Vm.load` does not succeed either
    rw [heq]
    refine ⟨nofun, ?_⟩
    rintro ⟨ehdr, phdrs, k₁, -, -, hload, -⟩
    rw [(Vm.load_iff.mp hload).1] at hcreate
    cases hcreate
  · -- the file cannot be opened
    rw [heq]
    refine ⟨nofun, ?_⟩
    rintro ⟨ehdr, phdrs, k₁, -, -, hload, -⟩
    obtain ⟨-, file, k₂, n, k₃, hopen', -⟩ := Vm.load_iff.mp hload
    rw [hopen] at hopen'
    cases hopen'
  · rw [heq, loadOpened_iff startProcess_lookup, hbytes]
    constructor
    · rintro ⟨ehdr, phdrs, n, k₁, hexe, rfl, hload, hstack⟩
      obtain ⟨hargv, hesp, k₂, hgrow, hstore⟩ := setupStack_iff.mp hstack
      exact ⟨ehdr, phdrs, k₂, hexe, rfl,
        Vm.load_iff.mpr ⟨hcreate, file, k₀, n, k₁, hopen, hload, hgrow⟩, hargv, hesp, hstore⟩
    · rintro ⟨ehdr, phdrs, k₂, hexe, rfl, hload, hargv, hesp, hstore⟩
      obtain ⟨-, file', k₁, n, k₃, hopen', hsegments, hgrow⟩ := Vm.load_iff.mp hload
      rw [hopen] at hopen'
      cases hopen'
      exact ⟨ehdr, phdrs, n, k₃, hexe, rfl, hsegments,
        setupStack_iff.mpr ⟨hargv, hesp, k₂, hgrow, hstore⟩⟩

end Start

end Pintos.Elf
