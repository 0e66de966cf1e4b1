import Pintos.Lib.Layout
import Pintos.Vm.Executable

/-! # ELF executables

`struct Elf32_Ehdr` and `struct Elf32_Phdr`, how they are stored in a file, and which
files are executables: those that start with a header `load` accepts and have its
program headers where it says.
-/

namespace Pintos.Elf

open Vm

/-! ## The headers -/

/-- `struct Elf32_Ehdr`. -/
structure Elf32Ehdr where
  ident : List.Vector UInt8 16
  type : UInt16
  machine : UInt16
  version : UInt32
  entry : UInt32
  phoff : UInt32
  shoff : UInt32
  flags : UInt32
  ehsize : UInt16
  phentsize : UInt16
  phnum : UInt16
  shentsize : UInt16
  shnum : UInt16
  shstrndx : UInt16
deriving DecidableEq

/-- `struct Elf32_Phdr`. -/
structure Elf32Phdr where
  type : UInt32
  offset : UInt32
  vaddr : UInt32
  paddr : UInt32
  filesz : UInt32
  memsz : UInt32
  flags : UInt32
  align : UInt32
deriving DecidableEq

def Elf32Ehdr.fields : (List.Vector UInt8 16 × UInt16 × UInt16 × UInt32 × UInt32 × UInt32 ×
    UInt32 × UInt32 × UInt16 × UInt16 × UInt16 × UInt16 × UInt16 × UInt16) ≃ Elf32Ehdr where
  toFun := fun (ident, type, machine, version, entry, phoff, shoff, flags, ehsize, phentsize,
      phnum, shentsize, shnum, shstrndx) =>
    { ident, type, machine, version, entry, phoff, shoff, flags, ehsize, phentsize, phnum,
      shentsize, shnum, shstrndx }
  invFun e := (e.ident, e.type, e.machine, e.version, e.entry, e.phoff, e.shoff, e.flags,
    e.ehsize, e.phentsize, e.phnum, e.shentsize, e.shnum, e.shstrndx)
  left_inv _ := rfl
  right_inv _ := rfl

def Elf32Phdr.fields : (UInt32 × UInt32 × UInt32 × UInt32 × UInt32 × UInt32 × UInt32 × UInt32) ≃
    Elf32Phdr where
  toFun := fun (type, offset, vaddr, paddr, filesz, memsz, flags, align) =>
    { type, offset, vaddr, paddr, filesz, memsz, flags, align }
  invFun p := (p.type, p.offset, p.vaddr, p.paddr, p.filesz, p.memsz, p.flags, p.align)
  left_inv _ := rfl
  right_inv _ := rfl

open Layout in
/-- The bytes of a `struct Elf32_Ehdr`. -/
def Elf32Ehdr.layout : Layout Elf32Ehdr :=
  ((raw 16).pair <| u16.pair <| u16.pair <| u32.pair <| u32.pair <| u32.pair <| u32.pair <|
    u32.pair <| u16.pair <| u16.pair <| u16.pair <| u16.pair <| u16.pair u16).map fields

open Layout in
/-- The bytes of a `struct Elf32_Phdr`. -/
def Elf32Phdr.layout : Layout Elf32Phdr :=
  (u32.pair <| u32.pair <| u32.pair <| u32.pair <| u32.pair <| u32.pair <| u32.pair u32).map fields

theorem Elf32Ehdr.layout_size : Elf32Ehdr.layout.size = 52 := rfl

theorem Elf32Phdr.layout_size : Elf32Phdr.layout.size = 32 := rfl

/-- What `load` uses of a program header. -/
def Elf32Phdr.toPhdr (p : Elf32Phdr) : Phdr where
  type := p.type
  offset := p.offset
  vaddr := p.vaddr
  filesz := p.filesz
  memsz := p.memsz
  flags := p.flags

/-! ## Executables -/

/-- `"\177ELF\1\1\1"`. -/
def elfIdent : List UInt8 := [0x7f, 0x45, 0x4c, 0x46, 1, 1, 1]

/-- The checks `load` makes of the executable header. -/
structure Elf32Ehdr.Accepted (ehdr : Elf32Ehdr) : Prop where
  ident : ehdr.ident.toList.take 7 = elfIdent
  type : ehdr.type = 2
  machine : ehdr.machine = 3
  version : ehdr.version = 1
  phentsize : ehdr.phentsize = 32
  phnum : ehdr.phnum ≤ 1024

instance (ehdr : Elf32Ehdr) : Decidable ehdr.Accepted :=
  decidable_of_iff (ehdr.ident.toList.take 7 = elfIdent ∧ ehdr.type = 2 ∧ ehdr.machine = 3 ∧
      ehdr.version = 1 ∧ ehdr.phentsize = 32 ∧ ehdr.phnum ≤ 1024)
    ⟨fun h => ⟨h.1, h.2.1, h.2.2.1, h.2.2.2.1, h.2.2.2.2.1, h.2.2.2.2.2⟩,
      fun h => ⟨h.ident, h.type, h.machine, h.version, h.phentsize, h.phnum⟩⟩

/-- A segment that can be loaded from a file of `length` bytes: it starts in the file, at
the same offset in its page as in memory, and lies between the first page of user memory
and `PHYS_BASE`. -/
structure Elf32Phdr.Loadable (p : Elf32Phdr) (length : ℕ) : Prop where
  aligned : p.offset.toNat % 4096 = p.vaddr.toNat % 4096
  offset : p.offset.toNat ≤ length
  filesz : p.filesz.toNat ≤ p.memsz.toNat
  nonempty : 0 < p.memsz.toNat
  first : 4096 ≤ p.vaddr.toNat
  last : p.vaddr.toNat + p.memsz.toNat < physBase.toNat

/-- The bytes of a file are those of a static executable with these headers: the
executable header is at the start, the program headers follow each other at `e_phoff`,
and the segments they describe can be loaded. -/
structure IsExecutable (bytes : List UInt8) (ehdr : Elf32Ehdr) (phdrs : List Elf32Phdr) :
    Prop where
  header : Elf32Ehdr.layout.encode ehdr <+: bytes
  accepted : ehdr.Accepted
  phnum : phdrs.length = ehdr.phnum.toNat
  table : Elf32Phdr.layout.encodeAll phdrs <+: bytes.drop ehdr.phoff.toNat
  static : ∀ p ∈ phdrs, p.type ≠ ptDynamic ∧ p.type ≠ ptInterp ∧ p.type ≠ ptShlib
  loadable : ∀ p ∈ phdrs, p.type = ptLoad → p.Loadable bytes.length

/-- What `load_segment` is called with for these program headers. -/
def segments (phdrs : List Elf32Phdr) : List Segment :=
  (phdrs.filter fun p => p.type = ptLoad).map fun p => segmentOf p.toPhdr

variable {p : Elf32Phdr} {phdrs phdrs' : List Elf32Phdr} {ehdr ehdr' : Elf32Ehdr}
  {bytes : List UInt8} {length : ℕ} {ss : List Segment}

theorem segmentsOf_cons {rest : List Phdr} : segmentsOf length (p.toPhdr :: rest) =
    if p.type = ptDynamic ∨ p.type = ptInterp ∨ p.type = ptShlib then none
    else if p.type = ptLoad then
      if validateSegment p.toPhdr length then
        (segmentsOf length rest).map (segmentOf p.toPhdr :: ·)
      else none
    else segmentsOf length rest := rfl

/-- `validate_segment` checks this, and no overflow gets past it. -/
theorem validateSegment_iff (hlength : length < 2 ^ 31) :
    validateSegment p.toPhdr length = true ↔ p.Loadable length := by
  have hvaddr := p.vaddr.toNat_lt
  have hmemsz := p.memsz.toNat_lt
  have hbase : physBase.toNat = 0xc0000000 := rfl
  have hpage : (4096 : UInt32).toNat = 4096 := rfl
  have hlen : (UInt32.ofNat length).toNat = length :=
    UInt32.toNat_ofNat_of_lt' (show length < 2 ^ 32 by omega)
  have hzero : p.memsz = 0 ↔ p.memsz.toNat = 0 := by
    rw [← UInt32.toNat_inj]
    rfl
  have hmod : p.offset % 4096 = p.vaddr % 4096 ↔
      p.offset.toNat % 4096 = p.vaddr.toNat % 4096 := by
    rw [← UInt32.toNat_inj, UInt32.toNat_mod, UInt32.toNat_mod]
    rfl
  unfold validateSegment
  simp only [Elf32Phdr.toPhdr, ne_eq, hmod, gt_iff_lt, UInt32.lt_iff_toNat_lt, hlen, hzero,
    UInt32.toNat_add, hpage, Bool.if_false_left, Bool.and_eq_true, Bool.not_eq_true',
    decide_eq_false_iff_not, and_true]
  constructor
  · rintro ⟨haligned, hoffset, hsize, hnonempty, huser, hend, hwrap, hfirst⟩
    exact ⟨by omega, by omega, by omega, by omega, by omega, by omega⟩
  · rintro ⟨haligned, hoffset, hsize, hnonempty, hfirst, hlast⟩
    omega

/-- The loop over the program headers gets to its end for static executables only. -/
theorem segmentsOf_eq_some (hlength : length < 2 ^ 31) :
    segmentsOf length (phdrs.map Elf32Phdr.toPhdr) = some ss ↔
      (∀ p ∈ phdrs, p.type ≠ ptDynamic ∧ p.type ≠ ptInterp ∧ p.type ≠ ptShlib) ∧
      (∀ p ∈ phdrs, p.type = ptLoad → p.Loadable length) ∧ segments phdrs = ss := by
  induction phdrs generalizing ss with
  | nil =>
      show some [] = some ss ↔ _
      rw [Option.some_inj]
      exact ⟨fun h => ⟨by simp, by simp, h⟩, fun h => h.2.2⟩
  | cons p phdrs ih =>
      rw [List.map_cons, segmentsOf_cons, List.forall_mem_cons, List.forall_mem_cons]
      by_cases hdyn : p.type = ptDynamic ∨ p.type = ptInterp ∨ p.type = ptShlib
      · rw [if_pos hdyn]
        refine ⟨nofun, fun h => ?_⟩
        exact absurd hdyn (by simpa only [not_or] using h.1.1)
      · rw [if_neg hdyn]
        have hstatic : p.type ≠ ptDynamic ∧ p.type ≠ ptInterp ∧ p.type ≠ ptShlib := by
          simpa only [not_or] using hdyn
        by_cases hload : p.type = ptLoad
        · have hsegments : segments (p :: phdrs) = segmentOf p.toPhdr :: segments phdrs := by
            unfold segments
            rw [List.filter_cons_of_pos (by simpa using hload), List.map_cons]
          rw [if_pos hload, hsegments]
          by_cases hvalid : validateSegment p.toPhdr length = true
          · rw [if_pos hvalid, Option.map_eq_some_iff]
            have hloadable := (validateSegment_iff hlength).mp hvalid
            constructor
            · rintro ⟨ss, hss, rfl⟩
              obtain ⟨hall, hloads, rfl⟩ := ih.mp hss
              exact ⟨⟨hstatic, hall⟩, ⟨fun _ => hloadable, hloads⟩, rfl⟩
            · rintro ⟨⟨-, hall⟩, ⟨-, hloads⟩, rfl⟩
              exact ⟨_, ih.mpr ⟨hall, hloads, rfl⟩, rfl⟩
          · rw [if_neg hvalid]
            exact ⟨nofun, fun h =>
              absurd ((validateSegment_iff hlength).mpr (h.2.1.1 hload)) hvalid⟩
        · have hsegments : segments (p :: phdrs) = segments phdrs := by
            unfold segments
            rw [List.filter_cons_of_neg (by simpa using hload)]
          rw [if_neg hload, hsegments, ih]
          constructor
          · rintro ⟨hall, hloads, rfl⟩
            exact ⟨⟨hstatic, hall⟩, ⟨fun h => absurd h hload, hloads⟩, rfl⟩
          · rintro ⟨⟨-, hall⟩, ⟨-, hloads⟩, rfl⟩
            exact ⟨hall, hloads, rfl⟩

/-- The headers as they are read. -/
theorem IsExecutable.reads (h : IsExecutable bytes ehdr phdrs) :
    Elf32Ehdr.layout.readAt bytes 0 = some ehdr ∧
      Elf32Phdr.layout.readTable bytes ehdr.phnum.toNat ehdr.phoff.toNat = some phdrs :=
  ⟨(Layout.readAt_eq_some (by decide)).mpr h.header,
    (Layout.readTable_eq_some (by decide)).mpr ⟨h.phnum, h.table⟩⟩

/-- A file is an executable in one way only. -/
theorem IsExecutable.unique (h : IsExecutable bytes ehdr phdrs)
    (h' : IsExecutable bytes ehdr' phdrs') : ehdr = ehdr' ∧ phdrs = phdrs' := by
  have hehdr : ehdr = ehdr' := Option.some.inj (h.reads.1.symm.trans h'.reads.1)
  subst hehdr
  exact ⟨rfl, Option.some.inj (h.reads.2.symm.trans h'.reads.2)⟩

/-! ## Files that are put together -/

/-- A file with these headers: `gap` is between the executable header and the program
headers, `rest` behind them. -/
def assemble (ehdr : Elf32Ehdr) (gap : List UInt8) (phdrs : List Elf32Phdr) (rest : List UInt8) :
    List UInt8 :=
  Elf32Ehdr.layout.encode ehdr ++ (gap ++ (Elf32Phdr.layout.encodeAll phdrs ++ rest))

/-- It is an executable with these headers if they are those of a static executable and say
where the program headers are. -/
theorem isExecutable_assemble {gap rest : List UInt8} (hacc : ehdr.Accepted)
    (hnum : ehdr.phnum.toNat = phdrs.length) (hofs : ehdr.phoff.toNat = 52 + gap.length)
    (hstatic : ∀ p ∈ phdrs, p.type ≠ ptDynamic ∧ p.type ≠ ptInterp ∧ p.type ≠ ptShlib)
    (hload : ∀ p ∈ phdrs, p.type = ptLoad → p.Loadable (assemble ehdr gap phdrs rest).length) :
    IsExecutable (assemble ehdr gap phdrs rest) ehdr phdrs where
  header := List.prefix_append ..
  accepted := hacc
  phnum := hnum.symm
  table := by
    have hlen : (Elf32Ehdr.layout.encode ehdr ++ gap).length = ehdr.phoff.toNat := by
      rw [List.length_append, Elf32Ehdr.layout.encode_length, Elf32Ehdr.layout_size, hofs]
    unfold assemble
    rw [← List.append_assoc, ← hlen, List.drop_left]
    exact List.prefix_append ..
  static := hstatic
  loadable := hload

end Pintos.Elf
