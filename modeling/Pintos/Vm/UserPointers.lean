import Pintos.Vm.Buffers

/-! # The pointer checks of `read` and `write`

`read` and `write` call `not_valid` on the first byte of the buffer and on the byte
after its last one, and look at no page in between.
-/

namespace Pintos.Vm

variable {k : Kernel} {t : Tid} {pointer buffer va : Vaddr} {size : UInt32} {i : ℕ}

/-! ## `not_valid`, `read` and `write` -/

def stdinFileno : ℤ := 0

def stdoutFileno : ℤ := 1

/-- `not_valid`. `pagedir_get_page` looks at the page of the address. -/
def notValid (k : Kernel) (t : Tid) (pointer : Vaddr) : Bool :=
  ¬ isUserVaddr pointer ∨ pointer = 0 ∨ pagedirGetPage k t (pgRoundDown pointer) = none

/-- Where `read` calls `exit (-1)`. -/
def readExits (k : Kernel) (t : Tid) (fd : ℤ) (buffer : Vaddr) (size : UInt32) : Bool :=
  notValid k t buffer || notValid k t (buffer + size) || fd = stdoutFileno

/-- Where `write` calls `exit (-1)`. -/
def writeExits (k : Kernel) (t : Tid) (fd : ℤ) (buffer : Vaddr) (size : UInt32) : Bool :=
  notValid k t buffer || notValid k t (buffer + size) || fd = stdinFileno

/-! ## What the checks are for -/

/-- The page of the address is in the page directory. -/
def Mapped (k : Kernel) (t : Tid) (va : Vaddr) : Prop := k.pteOf t (pgRoundDown va) ≠ none

/-- The buffer does not wrap around and all its bytes are mapped user addresses. -/
def WholeMapped (k : Kernel) (t : Tid) (buffer : Vaddr) (size : UInt32) : Prop :=
  buffer.toNat + size.toNat ≤ 2 ^ 32 ∧
    ∀ i < size.toNat, isUserVaddr (byteAt buffer i) ∧ Mapped k t (byteAt buffer i)

/-- `read` and `write` exit for the buffer if and only if a part of it is not mapped. -/
def ValidatedExactly (k : Kernel) (t : Tid) (buffer : Vaddr) (size : UInt32) : Prop :=
  (∀ fd, fd ≠ stdoutFileno →
    (readExits k t fd buffer size = false ↔ WholeMapped k t buffer size)) ∧
  ∀ fd, fd ≠ stdinFileno →
    (writeExits k t fd buffer size = false ↔ WholeMapped k t buffer size)

/-- A page that starts inside the buffer is not mapped. -/
def Hole (k : Kernel) (t : Tid) (buffer : Vaddr) (size : UInt32) : Prop :=
  ∃ page : Vaddr, page.toNat % pgSize = 0 ∧ buffer < page ∧
    page.toNat < buffer.toNat + size.toNat ∧ k.pteOf t page = none

/-- The checks accept the two addresses, but the buffer wraps around or has a hole. -/
def Missed (k : Kernel) (t : Tid) (buffer : Vaddr) (size : UInt32) : Prop :=
  notValid k t buffer = false ∧ notValid k t (buffer + size) = false ∧
    (2 ^ 32 ≤ buffer.toNat + size.toNat ∨ Hole k t buffer size)

/-- The buffer lies in mapped pages of the user, and starts at address 0, ends at
`PHYS_BASE` or ends where a page starts that is not mapped. -/
def Refused (k : Kernel) (t : Tid) (buffer : Vaddr) (size : UInt32) : Prop :=
  Mapped k t buffer ∧ buffer.toNat + size.toNat ≤ physBase.toNat ∧ ¬ Hole k t buffer size ∧
    (buffer = 0 ∨ buffer.toNat + size.toNat = physBase.toNat ∨
      (buffer + size) % 4096 = 0 ∧ ¬ Mapped k t (buffer + size))

/-! ## Addresses of a buffer -/

theorem notValid_eq_false :
    notValid k t pointer = false ↔ isUserVaddr pointer ∧ pointer ≠ 0 ∧ Mapped k t pointer := by
  unfold notValid Mapped pagedirGetPage
  simp only [decide_eq_false_iff_not, Option.map_eq_none_iff, not_or, not_not, ne_eq]

theorem byteAt_toNat (h : buffer.toNat + i < 2 ^ 32) :
    (byteAt buffer i).toNat = buffer.toNat + i := by
  unfold byteAt
  rw [UInt32.toNat_add, UInt32.toNat_ofNat', Nat.mod_eq_of_lt (by omega : i < 2 ^ 32),
    Nat.mod_eq_of_lt h]

theorem byteAt_size : byteAt buffer size.toNat = buffer + size := by
  unfold byteAt
  rw [UInt32.ofNat_toNat]

theorem pgRoundDown_mod : (pgRoundDown va).toNat % pgSize = 0 := by
  rw [pgRoundDown_toNat]
  unfold pgSize
  omega

theorem isUserVaddr_iff : isUserVaddr va ↔ va.toNat < physBase.toNat := UInt32.lt_iff_toNat_lt

/-- A page inside the buffer is the first one or starts inside it. -/
theorem mapped_of_not_hole (h : Mapped k t buffer) (hhole : ¬ Hole k t buffer size)
    (hle : buffer ≤ va) (hlt : (pgRoundDown va).toNat < buffer.toNat + size.toNat) :
    Mapped k t va := by
  intro hnone
  have hle' : buffer.toNat ≤ va.toNat := UInt32.le_iff_toNat_le.mp hle
  by_cases hinside : buffer < pgRoundDown va
  · exact hhole ⟨pgRoundDown va, pgRoundDown_mod, hinside, hlt, hnone⟩
  · -- both addresses are in one page
    have hsame : pgRoundDown va = pgRoundDown buffer := by
      apply UInt32.toNat.inj
      have hge : ¬ buffer.toNat < (pgRoundDown va).toNat :=
        fun hlt => hinside (UInt32.lt_iff_toNat_lt.mpr hlt)
      rw [pgRoundDown_toNat] at hge ⊢
      rw [pgRoundDown_toNat]
      omega
    exact h (hsame ▸ hnone)

/-- The whole buffer is mapped if its first page is, no page inside it is missing, and it
ends below `PHYS_BASE`. -/
theorem wholeMapped_iff (h : 0 < size) : WholeMapped k t buffer size ↔
    Mapped k t buffer ∧ buffer.toNat + size.toNat ≤ physBase.toNat ∧
      ¬ Hole k t buffer size := by
  have hpos : 0 < size.toNat := UInt32.lt_iff_toNat_lt.mp h
  have hbase : physBase.toNat < 2 ^ 32 := physBase.toNat_lt
  constructor
  · rintro ⟨hwrap, hbytes⟩
    have hat : ∀ i < size.toNat, (byteAt buffer i).toNat = buffer.toNat + i :=
      fun i hi => byteAt_toNat (by omega)
    refine ⟨?_, ?_, ?_⟩
    · have hfirst := (hbytes 0 hpos).2
      have hzero : byteAt buffer 0 = buffer := UInt32.add_zero buffer
      rwa [hzero] at hfirst
    · have hlast := isUserVaddr_iff.mp (hbytes (size.toNat - 1) (by omega)).1
      rw [hat _ (by omega)] at hlast
      omega
    · rintro ⟨page, haligned, hlt, hend, hnone⟩
      have hlt' : buffer.toNat < page.toNat := UInt32.lt_iff_toNat_lt.mp hlt
      -- the page starts at a byte of the buffer
      have hbyte : byteAt buffer (page.toNat - buffer.toNat) = page := by
        apply UInt32.toNat.inj
        rw [hat _ (by omega)]
        omega
      have hround : pgRoundDown page = page := by
        apply UInt32.toNat.inj
        rw [pgRoundDown_toNat]
        unfold pgSize at haligned
        omega
      have hmapped := (hbytes (page.toNat - buffer.toNat) (by omega)).2
      rw [hbyte, Mapped, hround] at hmapped
      exact hmapped hnone
  · rintro ⟨hmapped, hend, hhole⟩
    refine ⟨by omega, fun i hi => ?_⟩
    have hat : (byteAt buffer i).toNat = buffer.toNat + i := byteAt_toNat (by omega)
    constructor
    · rw [isUserVaddr_iff, hat]
      omega
    · apply mapped_of_not_hole hmapped hhole
      · rw [UInt32.le_iff_toNat_le, hat]
        omega
      · rw [pgRoundDown_toNat, hat]
        omega

/-! ## The result -/

/-- The two checks pass for a buffer that is mapped and not refused. -/
theorem checks_of_mapped (h : 0 < size) (hmapped : Mapped k t buffer)
    (hend : buffer.toNat + size.toNat ≤ physBase.toNat) (hhole : ¬ Hole k t buffer size)
    (hrefused : ¬ Refused k t buffer size) :
    notValid k t buffer = false ∧ notValid k t (buffer + size) = false := by
  have hpos : 0 < size.toNat := UInt32.lt_iff_toNat_lt.mp h
  have hbase : physBase.toNat < 2 ^ 32 := physBase.toNat_lt
  have hzero : buffer ≠ 0 := fun hzero => hrefused ⟨hmapped, hend, hhole, .inl hzero⟩
  have hphys : buffer.toNat + size.toNat ≠ physBase.toNat :=
    fun hphys => hrefused ⟨hmapped, hend, hhole, .inr (.inl hphys)⟩
  have hat : (buffer + size).toNat = buffer.toNat + size.toNat := by
    rw [← byteAt_size, byteAt_toNat (by omega)]
  rw [notValid_eq_false, notValid_eq_false]
  refine ⟨⟨?_, hzero, hmapped⟩, ?_, ?_, ?_⟩
  · rw [isUserVaddr_iff]
    omega
  · rw [isUserVaddr_iff, hat]
    omega
  · intro hsum
    rw [hsum] at hat
    exact absurd hat (by rw [UInt32.toNat_zero]; omega)
  · by_cases hmod : (buffer + size) % 4096 = 0
    · by_contra hnone
      exact hrefused ⟨hmapped, hend, hhole, .inr (.inr ⟨hmod, hnone⟩)⟩
    · -- the byte after the last one is in the page of the last one
      have hmod' : (buffer + size).toNat % 4096 ≠ 0 :=
        fun hzero => hmod (UInt32.toNat.inj hzero)
      apply mapped_of_not_hole hmapped hhole
      · rw [UInt32.le_iff_toNat_le, hat]
        omega
      · rw [pgRoundDown_toNat]
        omega

/-- The two checks say that the whole buffer is mapped exactly if the buffer is neither
missed nor refused. -/
theorem pointer_checks (h : 0 < size) :
    ((notValid k t buffer = false ∧ notValid k t (buffer + size) = false) ↔
      WholeMapped k t buffer size) ↔ ¬ Missed k t buffer size ∧ ¬ Refused k t buffer size := by
  have hpos : 0 < size.toNat := UInt32.lt_iff_toNat_lt.mp h
  have hbase : physBase.toNat < 2 ^ 32 := physBase.toNat_lt
  rw [wholeMapped_iff h]
  constructor
  · intro hiff
    constructor
    · rintro ⟨hfirst, hlast, hbad⟩
      obtain ⟨-, hend, hhole⟩ := hiff.mp ⟨hfirst, hlast⟩
      rcases hbad with hwrap | hhole'
      · omega
      · exact hhole hhole'
    · rintro ⟨hmapped, hend, hhole, hbad⟩
      obtain ⟨hfirst, hlast⟩ := hiff.mpr ⟨hmapped, hend, hhole⟩
      rcases hbad with hzero | hphys | ⟨-, hnone⟩
      · exact (notValid_eq_false.mp hfirst).2.1 hzero
      · have hlt := isUserVaddr_iff.mp (notValid_eq_false.mp hlast).1
        rw [← byteAt_size, byteAt_toNat (by omega)] at hlt
        omega
      · exact hnone (notValid_eq_false.mp hlast).2.2
  · rintro ⟨hmissed, hrefused⟩
    constructor
    · rintro ⟨hfirst, hlast⟩
      have hwrap : ¬ 2 ^ 32 ≤ buffer.toNat + size.toNat :=
        fun hwrap => hmissed ⟨hfirst, hlast, .inl hwrap⟩
      have hlt := isUserVaddr_iff.mp (notValid_eq_false.mp hlast).1
      rw [← byteAt_size, byteAt_toNat (by omega)] at hlt
      exact ⟨(notValid_eq_false.mp hfirst).2.2, by omega,
        fun hhole => hmissed ⟨hfirst, hlast, .inr hhole⟩⟩
    · rintro ⟨hmapped, hend, hhole⟩
      exact checks_of_mapped h hmapped hend hhole hrefused

/-- `read` and `write` validate their buffer exactly unless it is missed or refused. -/
theorem user_buffers_validated (k : Kernel) (t : Tid) (buffer : Vaddr) (size : UInt32)
    (h : 0 < size) :
    ValidatedExactly k t buffer size ↔ ¬ Missed k t buffer size ∧ ¬ Refused k t buffer size := by
  rw [← pointer_checks h]
  have hread : ∀ fd, fd ≠ stdoutFileno → (readExits k t fd buffer size = false ↔
      notValid k t buffer = false ∧ notValid k t (buffer + size) = false) := by
    intro fd hfd
    unfold readExits
    simp only [Bool.or_eq_false_iff, decide_eq_false_iff_not, hfd, not_false_eq_true, and_true]
  have hwrite : ∀ fd, fd ≠ stdinFileno → (writeExits k t fd buffer size = false ↔
      notValid k t buffer = false ∧ notValid k t (buffer + size) = false) := by
    intro fd hfd
    unfold writeExits
    simp only [Bool.or_eq_false_iff, decide_eq_false_iff_not, hfd, not_false_eq_true, and_true]
  constructor
  · rintro ⟨hexact, -⟩
    rw [← hread stdinFileno (by decide)]
    exact hexact stdinFileno (by decide)
  · intro hexact
    constructor
    · intro fd hfd
      rw [hread fd hfd]
      exact hexact
    · intro fd hfd
      rw [hwrite fd hfd]
      exact hexact

/-- The pages of the executable and of the stack are present after the first fault of
`swapRun`, and no others. -/
theorem two_pages_run : ∃ k, Reachable twoFrames k ∧ k.status 1 = .alive ∧
    ∀ page, k.pteOf 1 page ≠ none ↔ page = 0x08049000 ∨ page = 0xbffff000 := by
  have hrun : (runActs twoFrames.boot (swapRun.take 2)).toOption.map
      (fun k => (k.status 1, (k.pagedir 1).keys)) =
        some (.alive, [0x08049000, 0xbffff000]) := by decide +kernel
  obtain ⟨k, hk, hstate⟩ := Option.map_eq_some_iff.mp hrun
  obtain ⟨halive, hkeys⟩ := Prod.mk.inj hstate
  refine ⟨k, ⟨_, run_of_runActs (Lts.eq_ok_of_toOption hk)⟩, halive, fun page => ?_⟩
  show (k.pagedir 1).lookup page ≠ none ↔ _
  rw [ne_eq, AList.lookup_eq_none, not_not, AList.mem_keys, hkeys, List.mem_pair]

/-- A buffer that is a whole mapped page is refused, since the page after it is not mapped;
one that reaches from the executable to the stack is accepted. -/
theorem buffers_misjudged : ∃ k, Reachable twoFrames k ∧ k.status 1 = .alive ∧
    (readExits k 1 stdinFileno 0x08049000 4096 = true ∧ WholeMapped k 1 0x08049000 4096) ∧
    (readExits k 1 stdinFileno 0x08049000 0xb7fb6000 = false ∧
      ¬ WholeMapped k 1 0x08049000 0xb7fb6000) ∧
    ¬ ValidatedExactly k 1 0x08049000 4096 ∧ ¬ ValidatedExactly k 1 0x08049000 0xb7fb6000 := by
  obtain ⟨k, hreach, halive, hpages⟩ := two_pages_run
  have hfirst : notValid k 1 0x08049000 = false :=
    notValid_eq_false.mpr ⟨by decide, by decide, (hpages _).mpr (.inl (by decide))⟩
  have hstack : notValid k 1 0xbffff000 = false :=
    notValid_eq_false.mpr ⟨by decide, by decide, (hpages _).mpr (.inr (by decide))⟩
  have hnext : notValid k 1 0x0804a000 = true := by
    apply eq_true_of_ne_false
    intro hvalid
    have hmapped := (hpages _).mp (notValid_eq_false.mp hvalid).2.2
    revert hmapped
    decide
  have hwhole : WholeMapped k 1 0x08049000 4096 := by
    rw [wholeMapped_iff (by decide)]
    refine ⟨(notValid_eq_false.mp hfirst).2.2, by decide, ?_⟩
    rintro ⟨page, haligned, hlt, hend, -⟩
    have hlt' : 0x08049000 < page.toNat := UInt32.lt_iff_toNat_lt.mp hlt
    have hend' : page.toNat < 0x08049000 + 4096 := hend
    unfold pgSize at haligned
    omega
  have hpart : ¬ WholeMapped k 1 0x08049000 0xb7fb6000 := by
    rw [wholeMapped_iff (by decide)]
    rintro ⟨-, -, hhole⟩
    apply hhole
    refine ⟨0x0804a000, by decide, by decide, by decide, ?_⟩
    by_contra hmapped
    have hpage := (hpages _).mp hmapped
    revert hpage
    decide
  have hrefused : readExits k 1 stdinFileno 0x08049000 4096 = true := by
    show (notValid k 1 0x08049000 || notValid k 1 0x0804a000 || false) = true
    rw [hnext, Bool.or_true, Bool.true_or]
  have hmissed : readExits k 1 stdinFileno 0x08049000 0xb7fb6000 = false := by
    show (notValid k 1 0x08049000 || notValid k 1 0xbffff000 || false) = false
    rw [hfirst, hstack, Bool.or_false, Bool.or_false]
  refine ⟨k, hreach, halive, ⟨hrefused, hwhole⟩, ⟨hmissed, hpart⟩, ?_, ?_⟩
  · rintro ⟨hexact, -⟩
    have hpasses := (hexact stdinFileno (by decide)).mpr hwhole
    exact absurd hpasses (by rw [hrefused]; decide)
  · rintro ⟨hexact, -⟩
    exact hpart ((hexact stdinFileno (by decide)).mp hmissed)

/-- A buffer that ends inside a mapped page is neither missed nor refused. -/
theorem user_buffers_validated_run : ∃ k, Reachable twoFrames k ∧ k.status 1 = .alive ∧
    (¬ Missed k 1 0x08049000 3 ∧ ¬ Refused k 1 0x08049000 3) ∧
    ValidatedExactly k 1 0x08049000 3 := by
  obtain ⟨k, hreach, halive, hpages⟩ := two_pages_run
  have hok : ¬ Missed k 1 0x08049000 3 ∧ ¬ Refused k 1 0x08049000 3 := by
    constructor
    · rintro ⟨-, -, hwrap | ⟨page, haligned, hlt, hend, -⟩⟩
      · revert hwrap
        decide
      · have hlt' : 0x08049000 < page.toNat := UInt32.lt_iff_toNat_lt.mp hlt
        have hend' : page.toNat < 0x08049000 + 3 := hend
        unfold pgSize at haligned
        omega
    · rintro ⟨-, -, -, hzero | hphys | ⟨haligned, -⟩⟩
      · revert hzero
        decide
      · revert hphys
        decide
      · revert haligned
        decide
  exact ⟨k, hreach, halive, hok,
    (user_buffers_validated k 1 0x08049000 3 (by decide)).mpr hok⟩

end Pintos.Vm
