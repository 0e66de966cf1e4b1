import Pintos.Vm.Executable
import Pintos.Vm.Lifecycle

/-! # The pages of a segment

What has to be in each page of a segment, and what a round of `load_segment` takes
from the bytes that are left. The loop is the same in Project 2, which reads the
pages at once, and in Project 3, which reads them when they are used.
-/

namespace Pintos.Vm

/-- The `i`-th page of the bytes that are read from `ofs` on; zeros follow them. -/
def segmentPage (bytes : List UInt8) (ofs readBytes i : ℕ) : Page := fun b =>
  if pgSize * i + b.val < readBytes then bytes.getD (ofs + (pgSize * i + b.val)) 0 else 0

/-- The `i`-th page of a segment of a file with these bytes. -/
def Segment.page (s : Segment) (bytes : List UInt8) (i : ℕ) : Page :=
  segmentPage bytes s.ofs.toNat s.readBytes.toNat i

/-- `page_read_bytes`. -/
@[reducible] def pageReadBytes (readBytes : UInt32) : UInt32 :=
  if readBytes < 4096 then readBytes else 4096

/-- The page at an address has these contents, and may be written or not. -/
def Maps (k : Kernel) (t : Tid) (va : Vaddr) (page : Page) (writable : Bool) : Prop :=
  ∃ pte, k.pteOf t va = some pte ∧ k.mem pte.frame = page ∧ pte.writable = writable

variable {bytes : List UInt8} {ofs n i j : ℕ} {readBytes zeroBytes : UInt32} {va : Vaddr}
  {phdr : Phdr}

/-! ## A round of the loop -/

theorem pageReadBytes_toNat : (pageReadBytes readBytes).toNat = min readBytes.toNat pgSize := by
  have h4096 : (4096 : UInt32).toNat = pgSize := rfl
  unfold pageReadBytes
  split
  · rename_i hlt
    rw [UInt32.lt_iff_toNat_lt, h4096] at hlt
    omega
  · rename_i hge
    rw [UInt32.lt_iff_toNat_lt, h4096] at hge
    rw [h4096]
    omega

/-- A round in a segment of more than `n` pages: there are bytes left, it takes one page
of them, and nothing underflows. -/
structure Round (readBytes zeroBytes : UInt32) (n : ℕ) : Prop where
  more : readBytes > 0 ∨ zeroBytes > 0
  zero : (4096 - pageReadBytes readBytes).toNat = pgSize - min readBytes.toNat pgSize
  restRead : (readBytes - pageReadBytes readBytes).toNat = readBytes.toNat - pgSize
  rest : (readBytes - pageReadBytes readBytes).toNat +
    (zeroBytes - (4096 - pageReadBytes readBytes)).toNat = pgSize * n

theorem round (h : readBytes.toNat + zeroBytes.toNat = pgSize * (n + 1)) :
    Round readBytes zeroBytes n := by
  rw [Nat.mul_succ] at h
  have h4096 : (4096 : UInt32).toNat = pgSize := rfl
  have hread : (pageReadBytes readBytes).toNat = min readBytes.toNat pgSize := pageReadBytes_toNat
  have hle : pageReadBytes readBytes ≤ readBytes := by
    rw [UInt32.le_iff_toNat_le, hread]
    exact min_le_left ..
  have hle4096 : pageReadBytes readBytes ≤ 4096 := by
    rw [UInt32.le_iff_toNat_le, hread]
    exact min_le_right ..
  have hzero : (4096 - pageReadBytes readBytes).toNat = pgSize - min readBytes.toNat pgSize := by
    rw [UInt32.toNat_sub_of_le _ _ hle4096, hread, h4096]
  -- a page that is not full of bytes of the file is the last one with such bytes
  have hle' : 4096 - pageReadBytes readBytes ≤ zeroBytes := by
    rw [UInt32.le_iff_toNat_le, hzero]
    omega
  have hrest : (readBytes - pageReadBytes readBytes).toNat = readBytes.toNat - pgSize := by
    rw [UInt32.toNat_sub_of_le _ _ hle, hread]
    omega
  refine ⟨?_, hzero, hrest, ?_⟩
  · rw [gt_iff_lt, gt_iff_lt, UInt32.lt_iff_toNat_lt, UInt32.lt_iff_toNat_lt]
    have hpos : 0 < pgSize := by decide
    show 0 < readBytes.toNat ∨ 0 < zeroBytes.toNat
    omega
  · rw [hrest, UInt32.toNat_sub_of_le _ _ hle', hzero]
    omega

theorem not_more (h : readBytes.toNat + zeroBytes.toNat = 0) :
    ¬ (readBytes > 0 ∨ zeroBytes > 0) := by
  rw [gt_iff_lt, gt_iff_lt, UInt32.lt_iff_toNat_lt, UInt32.lt_iff_toNat_lt]
  show ¬ (0 < readBytes.toNat ∨ 0 < zeroBytes.toNat)
  omega

/-! ## The contents -/

theorem segmentPage_zero {read : ℕ} :
    segmentPage bytes ofs read 0 = fun b => if b.val < min read pgSize then
      bytes.getD (ofs + b.val) 0 else 0 := by
  funext b
  have hb := b.isLt
  unfold segmentPage
  rw [Nat.mul_zero, Nat.zero_add]
  by_cases hlt : b.val < read
  · rw [if_pos hlt, if_pos (by omega)]
  · rw [if_neg hlt, if_neg (by omega)]

theorem segmentPage_succ {read : ℕ} :
    segmentPage bytes (ofs + min read pgSize) (read - pgSize) i =
      segmentPage bytes ofs read (i + 1) := by
  funext b
  have hb := b.isLt
  unfold segmentPage
  rw [Nat.mul_succ]
  by_cases hlt : pgSize * i + pgSize + b.val < read
  · rw [if_pos hlt, if_pos (by omega)]
    congr 1
    omega
  · rw [if_neg hlt, if_neg (by omega)]

/-- A read that does not reach the end of the file. -/
theorem fileReadAt_covered {k : Kernel} {file : FilePtr} {o : OpenFile} {buffer : Page} {size : ℕ}
    (hfile : k.files.lookup file = some o) (hbytes : k.bytesOf o.inode = bytes)
    (hcover : size = 0 ∨ ofs + size ≤ bytes.length) :
    fileReadAt k file buffer size ofs =
      .ok (size, fun b => if b.val < size then bytes.getD (ofs + b.val) 0 else buffer b) := by
  subst hbytes
  have hcount : min size ((k.bytesOf o.inode).length - ofs) = size := by omega
  unfold fileReadAt
  rw [hfile]
  show Except.ok (min size ((k.bytesOf o.inode).length - ofs), fun b : Fin pgSize =>
    if b.val < min size ((k.bytesOf o.inode).length - ofs) then _ else _) = _
  rw [hcount]

/-- What the read and `memset` leave in the page. -/
theorem memsetZero_read {buffer : Page} {count rest read : ℕ} (hcount : count = min read pgSize)
    (hrest : rest = pgSize - count) :
    memsetZero (fun b => if b.val < count then bytes.getD (ofs + b.val) 0 else buffer b) count rest =
      segmentPage bytes ofs read 0 := by
  rw [segmentPage_zero, ← hcount]
  funext b
  have hb := b.isLt
  unfold memsetZero
  dsimp only
  by_cases hlt : b.val < count
  · rw [if_neg (by omega), if_pos hlt, if_pos hlt]
  · rw [if_pos (by omega), if_neg hlt]

/-- The pages behind the first one are others. -/
theorem pageAt_succ_ne (h : va.toNat + 4096 * (n + 1) ≤ 2 ^ 32) (hi : i < n) :
    pageAt va (i + 1) ≠ va := by
  intro heq
  have hnat := congrArg UInt32.toNat heq
  rw [pageAt_toNat (by omega)] at hnat
  omega

theorem next_end (h : va.toNat + pgSize * (n + 1) ≤ 2 ^ 32) :
    (va + 4096).toNat + pgSize * n ≤ 2 ^ 32 := by
  have h' : va.toNat + 4096 * (n + 1) ≤ 2 ^ 32 := h
  rw [UInt32.toNat_add]
  show (va.toNat + 4096) % 2 ^ 32 + 4096 * n ≤ 2 ^ 32
  omega

/-! ## The segment of a program header -/

theorem validateSegment_offset {length : ℕ} (h : validateSegment phdr length = true) :
    phdr.offset.toNat % 4096 = phdr.vaddr.toNat % 4096 := by
  unfold validateSegment at h
  split at h
  · cases h
  · rename_i hofs
    have hmod := congrArg UInt32.toNat (not_not.mp hofs)
    rwa [UInt32.toNat_mod, UInt32.toNat_mod] at hmod

theorem segmentOf_ofs : (segmentOf phdr).ofs.toNat = phdr.offset.toNat - phdr.offset.toNat % 4096 :=
  pgRoundDown_toNat

theorem segmentOf_upage : (segmentOf phdr).upage.toNat = phdr.vaddr.toNat - phdr.vaddr.toNat % 4096 :=
  pgRoundDown_toNat

/-- The bytes of the file that are read begin with the page of the first one. -/
theorem segmentOf_readBytes {length : ℕ} (h : validateSegment phdr length = true) :
    (segmentOf phdr).readBytes.toNat =
      if 0 < phdr.filesz.toNat then phdr.vaddr.toNat % 4096 + phdr.filesz.toNat else 0 := by
  obtain ⟨hsize, -, hend⟩ := validateSegment_true h
  have hbase : physBase.toNat = 0xc0000000 := rfl
  have hoffset : (phdr.vaddr % 4096).toNat = phdr.vaddr.toNat % 4096 := UInt32.toNat_mod ..
  have hpos : phdr.filesz > 0 ↔ 0 < phdr.filesz.toNat := UInt32.lt_iff_toNat_lt
  unfold segmentOf
  dsimp only
  by_cases hfile : phdr.filesz > 0
  · rw [if_pos hfile, if_pos (hpos.mp hfile), toNat_add_of_lt (by omega), hoffset]
  · rw [if_neg hfile, if_neg fun hno => hfile (hpos.mpr hno)]
    rfl

/-- What is read lies in the file. -/
theorem segmentOf_covered (h : validateSegment phdr bytes.length = true)
    (hcover : phdr.offset.toNat + phdr.filesz.toNat ≤ bytes.length) :
    (segmentOf phdr).readBytes.toNat = 0 ∨
      (segmentOf phdr).ofs.toNat + (segmentOf phdr).readBytes.toNat ≤ bytes.length := by
  have hofs := validateSegment_offset h
  rw [segmentOf_readBytes h, segmentOf_ofs]
  split
  · omega
  · exact .inl rfl

/-- The assertions of `load_segment` hold. -/
theorem segmentOf_asserts {length : ℕ} (h : validateSegment phdr length = true) :
    ((segmentOf phdr).readBytes + (segmentOf phdr).zeroBytes) % 4096 = 0 ∧
      pgOfs (segmentOf phdr).upage = 0 ∧ (segmentOf phdr).ofs % 4096 = 0 := by
  obtain ⟨hsize, hbottom, hend⟩ := validateSegment_true h
  have hbase : physBase.toNat = 0xc0000000 := rfl
  have hbytes := segmentOf_bytes h
  have h4096 : (4096 : UInt32).toNat = 4096 := rfl
  refine ⟨?_, ?_, ?_⟩
  · refine UInt32.toNat_inj.mp ?_
    rw [UInt32.toNat_mod, toNat_add_of_lt (by omega), hbytes, h4096]
    exact Nat.mul_mod_left ..
  · apply Fin.ext
    show (segmentOf phdr).upage.toNat % 4096 = 0
    rw [segmentOf_upage]
    omega
  · refine UInt32.toNat_inj.mp ?_
    rw [UInt32.toNat_mod, segmentOf_ofs, h4096]
    show _ = 0
    omega

theorem segmentOf_sum {length : ℕ} (h : validateSegment phdr length = true) :
    (segmentOf phdr).readBytes.toNat + (segmentOf phdr).zeroBytes.toNat =
      pgSize * (segmentOf phdr).pages := by
  unfold Segment.pages
  rw [segmentOf_bytes h]
  show _ = 4096 * (_ / 4096)
  omega

theorem segmentOf_end {length : ℕ} (h : validateSegment phdr length = true) :
    (segmentOf phdr).upage.toNat + pgSize * (segmentOf phdr).pages ≤ 2 ^ 32 := by
  obtain ⟨-, -, hend⟩ := segmentOf_pages h
  exact hend.trans (by decide)

theorem segmentOf_aligned {length : ℕ} (h : validateSegment phdr length = true)
    (hi : i < (segmentOf phdr).pages) : pgOfs (pageAt (segmentOf phdr).upage i) = 0 := by
  obtain ⟨haligned, -, hend⟩ := segmentOf_pages h
  have hbase : physBase.toNat = 0xc0000000 := rfl
  apply Fin.ext
  show (pageAt (segmentOf phdr).upage i).toNat % 4096 = 0
  rw [pageAt_toNat (by omega)]
  omega

/-- Different pages of a segment have different addresses. -/
theorem segmentOf_apart {length : ℕ} (h : validateSegment phdr length = true)
    (hi : i < (segmentOf phdr).pages) (hj : j < (segmentOf phdr).pages)
    (heq : pageAt (segmentOf phdr).upage i = pageAt (segmentOf phdr).upage j) : i = j := by
  obtain ⟨-, -, hend⟩ := segmentOf_pages h
  have hbase : physBase.toNat = 0xc0000000 := rfl
  have hnat := congrArg UInt32.toNat heq
  rw [pageAt_toNat (by omega), pageAt_toNat (by omega)] at hnat
  omega

/-- Byte `k` of a segment is byte `k` of its part of the file, or zero behind it. -/
theorem segmentOf_byte {k : ℕ} (h : validateSegment phdr bytes.length = true)
    (hk : k < phdr.memsz.toNat) :
    ∃ i < (segmentOf phdr).pages,
      pgRoundDown (phdr.vaddr + UInt32.ofNat k) = pageAt (segmentOf phdr).upage i ∧
      (segmentOf phdr).page bytes i (pgOfs (phdr.vaddr + UInt32.ofNat k)) =
        if k < phdr.filesz.toNat then bytes.getD (phdr.offset.toNat + k) 0 else 0 := by
  obtain ⟨hsize, hbottom, hend⟩ := validateSegment_true h
  have hbase : physBase.toNat = 0xc0000000 := rfl
  have hofs := validateSegment_offset h
  have hpages : (segmentOf phdr).pages =
      (phdr.vaddr.toNat % 4096 + phdr.memsz.toNat + 4095) / 4096 * 4096 / 4096 := by
    unfold Segment.pages
    rw [segmentOf_bytes h]
  have hva : (phdr.vaddr + UInt32.ofNat k).toNat = phdr.vaddr.toNat + k := by
    have hnat : (UInt32.ofNat k).toNat = k := by
      refine UInt32.toNat_ofNat_of_lt' ?_
      show k < 2 ^ 32
      omega
    rw [toNat_add_of_lt (by omega), hnat]
  have hlt : (phdr.vaddr.toNat % 4096 + k) / 4096 < (segmentOf phdr).pages := by
    rw [hpages]
    omega
  refine ⟨(phdr.vaddr.toNat % 4096 + k) / 4096, hlt, ?_, ?_⟩
  · refine UInt32.toNat_inj.mp ?_
    rw [pgRoundDown_toNat, hva, pageAt_toNat, segmentOf_upage]
    · omega
    · rw [segmentOf_upage]
      omega
  · -- the offset in the page and the pages before it make up the offset in the segment
    have hindex : 4096 * ((phdr.vaddr.toNat % 4096 + k) / 4096) +
        (phdr.vaddr + UInt32.ofNat k).toNat % 4096 = phdr.vaddr.toNat % 4096 + k := by
      rw [hva]
      omega
    unfold Segment.page segmentPage
    show (if 4096 * _ + (phdr.vaddr + UInt32.ofNat k).toNat % 4096 < _ then
      bytes.getD (_ + (4096 * _ + (phdr.vaddr + UInt32.ofNat k).toNat % 4096)) 0 else 0) = _
    rw [hindex, segmentOf_readBytes h, segmentOf_ofs]
    by_cases hfile : k < phdr.filesz.toNat
    · rw [if_pos (show 0 < phdr.filesz.toNat by omega), if_pos (by omega), if_pos hfile]
      congr 1
      omega
    · rw [if_neg hfile, if_neg]
      split
      · omega
      · omega

end Pintos.Vm
