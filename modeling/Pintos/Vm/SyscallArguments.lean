import Pintos.Vm.PageIn
import Pintos.Vm.UserPointers

/-! # The arguments of system calls

`syscall_handler` checks one byte of the word with the number of the call. The words
after it are read unchecked, or after a check of one byte of each (`exit`, `mmap` and
`munmap`), while a word can reach into the next page.
-/

namespace Pintos.Vm

variable {k k' : Kernel} {t : Tid} {p : Ptr} {e : Spte} {a c esp : Vaddr} {cs : List Vaddr}
  {env : ℕ → Env} {i j n : ℕ} {m : Machine}

/-! ## `syscall_handler` -/

/-- The cases of `syscall_handler`; `invalid` is its default. -/
inductive Syscall where
  | halt
  | exit
  | exec
  | wait
  | create
  | remove
  | openFile
  | filesize
  | read
  | write
  | seek
  | tell
  | close
  | mmap
  | munmap
  | invalid
deriving DecidableEq, Repr

/-- What `syscall_handler` does with the user stack: it finds, in the state `k`, that the
page of an address is mapped, it reads the word at an address, or it ends the process. -/
inductive Access where
  | check (k : Kernel) (va : Vaddr)
  | read (va : Vaddr)
  | exit

/-- The addresses of `ARG0`, `ARG1` and `ARG2`. -/
def argAt (esp : Vaddr) (i : ℕ) : Vaddr := byteAt esp (4 * (i + 1))

/-- The loop of `get_arg` from argument `i` on, for `n` arguments. -/
def getArgLoop (env : ℕ → Env) (t : Tid) (esp : Vaddr) : ℕ → ℕ → Kernel → List Access
  | _, 0, _ => []
  | i, n + 1, k =>
      match checkValidPtr (env i) k t (argAt esp i) esp with
      | .error _ => [.exit]
      | .ok k =>
          if k.status t = .alive then
            .check k (argAt esp i) :: .read (argAt esp i) :: getArgLoop env t esp (i + 1) n k
          else
            [.exit]

/-- `get_arg`. -/
def getArg (env : ℕ → Env) (k : Kernel) (t : Tid) (esp : Vaddr) (n : ℕ) : List Access :=
  getArgLoop env t esp 0 n k

/-- The arguments of a system call that are read without a check of their own. -/
def readArgs (esp : Vaddr) (n : ℕ) : List Access :=
  (List.range n).map fun i => .read (argAt esp i)

/-- `syscall_handler`, up to where the system call itself begins. -/
def syscallHandler (env : ℕ → Env) (k : Kernel) (t : Tid) (esp : Vaddr) (c : Syscall) :
    List Access :=
  if notValid k t esp then
    [.exit]
  else
    .check k esp :: .read esp ::
      match c with
      | .halt => []
      | .exit =>
          if notValid k t (argAt esp 0) then [.exit]
          else [.check k (argAt esp 0), .read (argAt esp 0), .exit]
      | .exec => readArgs esp 1
      | .wait => readArgs esp 1
      | .create => readArgs esp 2
      | .remove => readArgs esp 1
      | .openFile => readArgs esp 1
      | .filesize => readArgs esp 1
      | .read => readArgs esp 3
      | .write => readArgs esp 3
      | .seek => readArgs esp 2
      | .tell => readArgs esp 1
      | .close => readArgs esp 1
      | .mmap => getArg env k t esp 2
      | .munmap => getArg env k t esp 1
      | .invalid => [.exit]

/-! ## Words that were checked -/

/-- All bytes of the word are user addresses on pages of checked addresses. -/
def WordChecked (cs : List Vaddr) (a : Vaddr) : Prop :=
  ∀ i < 4, isUserVaddr (byteAt a i) ∧ ∃ c ∈ cs, pgRoundDown (byteAt a i) = pgRoundDown c

/-- Every check holds, every word that is read has been checked, and nothing is read after
the process ended; `cs` is what was checked before. -/
def Guarded (t : Tid) : List Vaddr → List Access → Prop
  | _, [] => True
  | cs, .check k va :: rest => (isUserVaddr va ∧ Mapped k t va) ∧ Guarded t (va :: cs) rest
  | cs, .read va :: rest => WordChecked cs va ∧ Guarded t cs rest
  | _, .exit :: rest => rest = []

/-- The page of `a` has room for `n` words from `a` on. -/
def RoomFor (a : Vaddr) (n : ℕ) : Prop := a.toNat % pgSize + 4 * n ≤ pgSize

/-- No word that is read goes beyond the page on which one of its bytes was checked, unless
the check ends the process. -/
def ArgumentsFit (k : Kernel) (t : Tid) (esp : Vaddr) (c : Syscall) : Prop :=
  notValid k t esp = true ∨ RoomFor esp 1 ∧
    match c with
    | .halt | .invalid => True
    | .exit => notValid k t (argAt esp 0) = true ∨ RoomFor (argAt esp 0) 1
    | .exec | .wait | .remove | .openFile | .filesize | .tell | .close => RoomFor esp 2
    | .create | .seek => RoomFor esp 3
    | .read | .write => RoomFor esp 4
    | .mmap => ∀ i < 2, argAt esp i < userVaddrBottom ∨ RoomFor (argAt esp i) 1
    | .munmap => ∀ i < 1, argAt esp i < userVaddrBottom ∨ RoomFor (argAt esp i) 1

/-! ## Pages and offsets -/

theorem user_add (h : isUserVaddr a) (hi : i ≤ pgSize) : a.toNat + i < 2 ^ 32 := by
  have hlt : a.toNat < 3221225472 := isUserVaddr_iff.mp h
  unfold pgSize at hi
  omega

/-- A user address and one a little above it are on one page if there is room. -/
theorem samePage_iff (h : isUserVaddr a) (hi : i ≤ pgSize) :
    pgRoundDown (byteAt a i) = pgRoundDown a ↔ a.toNat % pgSize + i < pgSize := by
  have hat : (byteAt a i).toNat = a.toNat + i := byteAt_toNat (user_add h hi)
  rw [← UInt32.toNat_inj, pgRoundDown_toNat, pgRoundDown_toNat, hat]
  unfold pgSize
  omega

/-- The pages of the user end where a page ends. -/
theorem isUserVaddr_of_samePage (h : isUserVaddr a) (hpage : pgRoundDown c = pgRoundDown a) :
    isUserVaddr c := by
  have hlt : a.toNat < 3221225472 := isUserVaddr_iff.mp h
  have heq := congrArg UInt32.toNat hpage
  rw [pgRoundDown_toNat, pgRoundDown_toNat] at heq
  rw [isUserVaddr_iff]
  show c.toNat < 3221225472
  omega

theorem bottom_of_samePage (h : userVaddrBottom ≤ a) (hpage : pgRoundDown c = pgRoundDown a) :
    userVaddrBottom ≤ c := by
  have hle : 134512640 ≤ a.toNat := UInt32.le_iff_toNat_le.mp h
  have heq := congrArg UInt32.toNat hpage
  rw [pgRoundDown_toNat, pgRoundDown_toNat] at heq
  rw [UInt32.le_iff_toNat_le]
  show 134512640 ≤ c.toNat
  omega

/-- A word with a checked byte, on pages that lie no higher, has been checked if it does
not go beyond the page. -/
theorem wordChecked_iff (ha : a ∈ cs) (hu : isUserVaddr a) (hle : ∀ c ∈ cs, c ≤ a) :
    WordChecked cs a ↔ RoomFor a 1 := by
  constructor
  · intro hword
    obtain ⟨-, c, hc, hpage⟩ := hword 3 (by decide)
    have hca := UInt32.le_iff_toNat_le.mp (hle c hc)
    have hat : (byteAt a 3).toNat = a.toNat + 3 := byteAt_toNat (user_add hu (by decide))
    have heq := congrArg UInt32.toNat hpage
    rw [pgRoundDown_toNat, pgRoundDown_toNat, hat] at heq
    unfold RoomFor pgSize
    omega
  · intro hroom i hi
    have hpage : pgRoundDown (byteAt a i) = pgRoundDown a := by
      rw [samePage_iff hu (by unfold pgSize; omega)]
      unfold RoomFor at hroom
      omega
    exact ⟨isUserVaddr_of_samePage hu hpage, a, ha, hpage⟩

theorem byteAt_add (a : Vaddr) (i j : ℕ) : byteAt (byteAt a i) j = byteAt a (i + j) := by
  unfold byteAt
  rw [UInt32.add_assoc, ← UInt32.ofNat_add]

/-- A word above the only checked one. -/
theorem wordChecked_argAt (hu : isUserVaddr esp) (hi : i < 3) :
    WordChecked [esp] (argAt esp i) ↔ RoomFor esp (i + 2) := by
  have hbytes : ∀ j < 4, (pgRoundDown (byteAt (argAt esp i) j) = pgRoundDown esp ↔
      esp.toNat % pgSize + (4 * (i + 1) + j) < pgSize) := by
    intro j hj
    unfold argAt
    rw [byteAt_add]
    exact samePage_iff hu (by unfold pgSize; omega)
  constructor
  · intro hword
    obtain ⟨-, c, hc, hpage⟩ := hword 3 (by decide)
    obtain rfl := List.mem_singleton.mp hc
    have hlast := (hbytes 3 (by decide)).mp hpage
    unfold RoomFor
    omega
  · intro hroom j hj
    have hpage : pgRoundDown (byteAt (argAt esp i) j) = pgRoundDown esp := by
      apply (hbytes j hj).mpr
      unfold RoomFor at hroom
      omega
    exact ⟨isUserVaddr_of_samePage hu hpage, esp, List.mem_singleton_self esp, hpage⟩

theorem guarded_reads {l : List ℕ} : Guarded t cs (l.map fun i => .read (argAt esp i)) ↔
    ∀ i ∈ l, WordChecked cs (argAt esp i) := by
  induction l with
  | nil => exact ⟨fun _ i hi => absurd hi List.not_mem_nil, fun _ => trivial⟩
  | cons i l ih =>
      rw [List.forall_mem_cons, ← ih]
      exact Iff.rfl

/-- The words that are read without a check have been checked with the first one if they
are on its page. -/
theorem guarded_readArgs (hu : isUserVaddr esp) (hn : n < 3) :
    Guarded t [esp] (readArgs esp (n + 1)) ↔ RoomFor esp (n + 2) := by
  unfold readArgs
  rw [guarded_reads]
  constructor
  · intro hall
    exact (wordChecked_argAt hu hn).mp (hall n (List.mem_range.mpr (Nat.lt_succ_self n)))
  · intro hroom i hi
    have hin : i < n + 1 := List.mem_range.mp hi
    rw [wordChecked_argAt hu (by omega)]
    unfold RoomFor at hroom ⊢
    omega

/-! ## `get_arg` -/

/-- A word that goes beyond its page lies on the page of the stack pointer, as the words
before it do. -/
theorem samePage_of_not_room (hu : isUserVaddr esp) (hj : j < 2) (hij : i ≤ j)
    (hno : ¬ RoomFor (argAt esp j) 1) : pgRoundDown (argAt esp i) = pgRoundDown esp := by
  have hat : (argAt esp j).toNat = esp.toNat + 4 * (j + 1) :=
    byteAt_toNat (user_add hu (by unfold pgSize; omega))
  have hpage : pgRoundDown (byteAt esp (4 * (i + 1))) = pgRoundDown esp := by
    rw [samePage_iff hu (by unfold pgSize; omega)]
    unfold RoomFor at hno
    rw [hat] at hno
    unfold pgSize at hno ⊢
    omega
  exact hpage

/-- `check_valid_ptr` ends the process for a low address. -/
theorem checkValidPtr_low {env : Env} (hlow : a < userVaddrBottom)
    (hcheck : checkValidPtr env k t a esp = .ok k') : k'.status t ≠ .alive := by
  unfold checkValidPtr at hcheck
  rw [if_pos (.inr hlow)] at hcheck
  cases hcheck
  rw [setStatus_status, if_pos rfl]
  decide

/-- It only pins a page that is loaded. -/
theorem checkValidPtr_loaded {env : Env} (h : Sound k) (hu : isUserVaddr a)
    (hge : userVaddrBottom ≤ a) (he : Entry k t p e)
    (haddr : e.unusedVirtualAddress = pgRoundDown a) (hl : e.isLoaded = true) :
    checkValidPtr env k t a esp = .ok (k.setSpte p (some { e with pinned := true })) := by
  have hget : getSpte k t a = some p := h.tables.hashFind_eq_some.mpr ⟨e, he, haddr⟩
  have hload : loadPage env k t p = .ok (false, k.setSpte p (some { e with pinned := true })) := by
    unfold loadPage
    rw [he.at_ptr]
    exact if_pos hl
  have hok : ¬ (¬ isUserVaddr a ∨ a < userVaddrBottom) := by
    rintro (hno | hlow)
    · exact hno hu
    · exact absurd hge (UInt32.not_le.mpr hlow)
  have hat : deref ((k.setSpte p (some { e with pinned := true })).sptes p) =
      .ok { e with pinned := true } := deref_some (Function.update_self ..)
  unfold checkValidPtr
  rw [if_neg hok, hget]
  dsimp only
  rw [hload]
  show (deref ((k.setSpte p (some { e with pinned := true })).sptes p) >>= fun _ => _) = _
  rw [hat]
  exact congrArg Except.ok (if_pos hl)

/-- If all words fit, or the check of one that does not ends the process, then all words
that `get_arg` reads have been checked. -/
theorem guarded_getArgLoop (hu : isUserVaddr esp) (hle : ∀ c ∈ cs, c.toNat ≤ esp.toNat + 4 * i)
    (h : Settled k) (ht : k.status t = .alive) (hin : i + n ≤ 2)
    (hfit : ∀ j, i ≤ j → j < i + n →
      argAt esp j < userVaddrBottom ∨ RoomFor (argAt esp j) 1) :
    Guarded t cs (getArgLoop env t esp i n k) := by
  induction n generalizing i k cs with
  | zero => trivial
  | succ n ih =>
      have hat : (argAt esp i).toNat = esp.toNat + 4 * (i + 1) :=
        byteAt_toNat (user_add hu (by unfold pgSize; omega))
      unfold getArgLoop
      cases hcheck : checkValidPtr (env i) k t (argAt esp i) esp with
      | error e => exact rfl
      | ok k' =>
          dsimp only
          by_cases halive : k'.status t = .alive
          · rw [if_pos halive]
            obtain ⟨huser, p, e, hpin, -⟩ := checkValidPtr_pins h ht hcheck halive
            have h' : Settled k' :=
              h.step (a := .checkValidPtr t (argAt esp i) esp (env i)) ⟨ht, hcheck⟩
            obtain ⟨-, pte, -, -, -, hpte, -⟩ := h'.sound.tables.loaded_pte hpin.entry hpin.loaded
            have hmapped : Mapped k' t (argAt esp i) := by
              unfold Mapped
              rw [← hpin.address, hpte]
              exact Option.some_ne_none pte
            have hle' : ∀ c ∈ argAt esp i :: cs, c.toNat ≤ esp.toNat + 4 * (i + 1) := by
              intro c hc
              rcases List.mem_cons.mp hc with rfl | hc
              · exact hat.le
              · have hbefore := hle c hc
                omega
            refine ⟨⟨huser, hmapped⟩, ?_, ?_⟩
            · apply (wordChecked_iff List.mem_cons_self huser ?_).mpr
              · rcases hfit i (Nat.le_refl i) (by omega) with hlow | hroom
                · exact absurd halive (checkValidPtr_low hlow hcheck)
                · exact hroom
              · intro c hc
                rw [UInt32.le_iff_toNat_le, hat]
                exact hle' c hc
            · exact ih hle' h' halive (by omega) fun j hj hjn => hfit j (by omega) (by omega)
          · rw [if_neg halive]
            exact rfl

/-- If a word does not fit and its check does not end the process, `get_arg` reads beyond
what was checked. -/
theorem not_guarded_getArgLoop (hu : isUserVaddr esp)
    (hle : ∀ c ∈ cs, c.toNat ≤ esp.toNat + 4 * i) (h : Settled k) (ht : k.status t = .alive)
    (he : Entry k t p e) (haddr : e.unusedVirtualAddress = pgRoundDown esp)
    (hl : e.isLoaded = true) (hij : i ≤ j) (hjn : j < i + n) (hin : i + n ≤ 2)
    (hge : userVaddrBottom ≤ argAt esp j) (hno : ¬ RoomFor (argAt esp j) 1) :
    ¬ Guarded t cs (getArgLoop env t esp i n k) := by
  induction n generalizing i k e cs with
  | zero => omega
  | succ n ih =>
      have hat : (argAt esp i).toNat = esp.toNat + 4 * (i + 1) :=
        byteAt_toNat (user_add hu (by unfold pgSize; omega))
      have hpage : pgRoundDown (argAt esp i) = pgRoundDown esp :=
        samePage_of_not_room hu (by omega) hij hno
      have hpage' : pgRoundDown (argAt esp j) = pgRoundDown esp :=
        samePage_of_not_room hu (by omega) (Nat.le_refl j) hno
      have huser : isUserVaddr (argAt esp i) := isUserVaddr_of_samePage hu hpage
      have hbottom : userVaddrBottom ≤ argAt esp i :=
        bottom_of_samePage hge (hpage.trans hpage'.symm)
      have hcheck : checkValidPtr (env i) k t (argAt esp i) esp =
          .ok (k.setSpte p (some { e with pinned := true })) :=
        checkValidPtr_loaded h.sound huser hbottom he (haddr.trans hpage.symm) hl
      have hle' : ∀ c ∈ argAt esp i :: cs, c.toNat ≤ esp.toNat + 4 * (i + 1) := by
        intro c hc
        rcases List.mem_cons.mp hc with rfl | hc
        · exact hat.le
        · have hbefore := hle c hc
          omega
      have h' : Settled (k.setSpte p (some { e with pinned := true })) :=
        h.step (a := .checkValidPtr t (argAt esp i) esp (env i)) ⟨ht, hcheck⟩
      unfold getArgLoop
      rw [hcheck]
      dsimp only
      rw [if_pos (show (k.setSpte p (some { e with pinned := true })).status t = .alive from ht)]
      rintro ⟨-, hword, hrest⟩
      rcases Nat.eq_or_lt_of_le hij with rfl | hlt
      · -- this is the word
        refine hno ((wordChecked_iff List.mem_cons_self huser fun c hc => ?_).mp hword)
        rw [UInt32.le_iff_toNat_le, hat]
        exact hle' c hc
      · exact ih hle' h' ht ⟨he.mem, Function.update_self ..⟩ haddr hl (by omega) (by omega)
          (by omega) hrest

/-- The words `get_arg` copies. -/
theorem guarded_getArg (h : Settled k) (ht : k.status t = .alive) (hu : isUserVaddr esp)
    (hmapped : Mapped k t esp) (hn : n ≤ 2) : Guarded t [esp] (getArg env k t esp n) ↔
      ∀ i < n, argAt esp i < userVaddrBottom ∨ RoomFor (argAt esp i) 1 := by
  have hle : ∀ c ∈ [esp], c.toNat ≤ esp.toNat + 4 * 0 :=
    fun c hc => (congrArg UInt32.toNat (List.mem_singleton.mp hc)).le
  constructor
  · intro hguard i hi
    by_contra hno
    rw [not_or, UInt32.not_lt] at hno
    obtain ⟨pte, hpte⟩ := Option.ne_none_iff_exists'.mp hmapped
    obtain ⟨p, e, he, haddr, hl⟩ := h.sound.tables.mapped t _ pte hpte
    exact not_guarded_getArgLoop hu hle h ht he haddr hl (Nat.zero_le i) (by omega) (by omega)
      hno.1 hno.2 hguard
  · intro hfit
    exact guarded_getArgLoop hu hle h ht (by omega) fun j _ hj => hfit j (by omega)

/-! ## The result -/

/-- Every word of the user stack that `syscall_handler` reads was checked exactly if the
words fit. -/
theorem syscall_arguments_checked (h : Reachable m k) (ht : k.status t = .alive)
    (env : ℕ → Env) (esp : Vaddr) (c : Syscall) :
    Guarded t [] (syscallHandler env k t esp c) ↔ ArgumentsFit k t esp c := by
  have hset := settled_of_reachable h
  unfold syscallHandler ArgumentsFit
  by_cases hbad : notValid k t esp = true
  · rw [if_pos hbad]
    exact ⟨fun _ => .inl hbad, fun _ => rfl⟩
  · obtain ⟨hu, -, hmapped⟩ := notValid_eq_false.mp (eq_false_of_ne_true hbad)
    have hfirst : WordChecked [esp] esp ↔ RoomFor esp 1 :=
      wordChecked_iff List.mem_cons_self hu
        fun c hc => UInt32.le_of_eq (List.mem_singleton.mp hc)
    rw [if_neg hbad, or_iff_right hbad, ← hfirst]
    show (_ ∧ _ ∧ Guarded t [esp] _) ↔ _
    rw [and_iff_right ⟨hu, hmapped⟩]
    refine and_congr_right fun _ => ?_
    cases c with
    | halt => exact Iff.rfl
    | exit =>
        dsimp only
        by_cases hbad' : notValid k t (argAt esp 0) = true
        · rw [if_pos hbad']
          exact ⟨fun _ => .inl hbad', fun _ => rfl⟩
        · obtain ⟨hu', -, hmapped'⟩ := notValid_eq_false.mp (eq_false_of_ne_true hbad')
          have hat : (argAt esp 0).toNat = esp.toNat + 4 :=
            byteAt_toNat (user_add hu (by decide))
          have hle : ∀ c ∈ [argAt esp 0, esp], c ≤ argAt esp 0 := by
            intro c hc
            rw [UInt32.le_iff_toNat_le]
            rcases List.mem_pair.mp hc with rfl | rfl
            · exact Nat.le_refl _
            · omega
          have hword : WordChecked [argAt esp 0, esp] (argAt esp 0) ↔ RoomFor (argAt esp 0) 1 :=
            wordChecked_iff List.mem_cons_self hu' hle
          rw [if_neg hbad', or_iff_right hbad', ← hword]
          exact ⟨fun hguard => hguard.2.1, fun hw => ⟨⟨hu', hmapped'⟩, hw, rfl⟩⟩
    | exec => exact guarded_readArgs hu (by decide)
    | wait => exact guarded_readArgs hu (by decide)
    | create => exact guarded_readArgs hu (by decide)
    | remove => exact guarded_readArgs hu (by decide)
    | openFile => exact guarded_readArgs hu (by decide)
    | filesize => exact guarded_readArgs hu (by decide)
    | read => exact guarded_readArgs hu (by decide)
    | write => exact guarded_readArgs hu (by decide)
    | seek => exact guarded_readArgs hu (by decide)
    | tell => exact guarded_readArgs hu (by decide)
    | close => exact guarded_readArgs hu (by decide)
    | mmap => exact guarded_getArg hset ht hu hmapped (by decide)
    | munmap => exact guarded_getArg hset ht hu hmapped (by decide)
    | invalid => exact ⟨fun _ => trivial, fun _ => rfl⟩

/-- With the stack pointer at the last word of the stack, the arguments of `write` are read
from kernel addresses; at the last byte, so is the number of the call. -/
theorem arguments_in_kernel : ∃ k, Reachable twoFrames k ∧ k.status 1 = .alive ∧
    (∀ env, ¬ Guarded 1 [] (syscallHandler env k 1 0xbffffffc .write)) ∧
    ∀ env c, ¬ Guarded 1 [] (syscallHandler env k 1 0xbfffffff c) := by
  obtain ⟨k, hreach, halive, hpages⟩ := two_pages_run
  have hvalid : ∀ va, isUserVaddr va → va ≠ 0 → pgRoundDown va = 0xbffff000 →
      ¬ notValid k 1 va = true := by
    intro va hu hzero hpage
    rw [Bool.not_eq_true]
    exact notValid_eq_false.mpr ⟨hu, hzero, (hpages _).mpr (.inr hpage)⟩
  refine ⟨k, hreach, halive, fun env hguard => ?_, fun env c hguard => ?_⟩
  · unfold syscallHandler at hguard
    rw [if_neg (hvalid _ (by decide) (by decide) (by decide))] at hguard
    obtain ⟨-, -, harg, -⟩ := hguard
    exact absurd (harg 0 (by decide)).1 (by decide)
  · unfold syscallHandler at hguard
    rw [if_neg (hvalid _ (by decide) (by decide) (by decide))] at hguard
    obtain ⟨-, hnumber, -⟩ := hguard
    exact absurd (hnumber 3 (by decide)).1 (by decide)

/-- The words of `write` above a stack pointer with room for four words. -/
theorem syscall_arguments_checked_run : ∃ k, Reachable twoFrames k ∧ k.status 1 = .alive ∧
    ArgumentsFit k 1 0xbfffffe0 .write ∧
    Guarded 1 [] (syscallHandler (fun _ => generous 300) k 1 0xbfffffe0 .write) := by
  obtain ⟨k, hreach, halive, -⟩ := two_pages_run
  have hfit : ArgumentsFit k 1 0xbfffffe0 .write :=
    .inr ⟨by unfold RoomFor; decide, by show RoomFor _ _; unfold RoomFor; decide⟩
  exact ⟨k, hreach, halive, hfit, (syscall_arguments_checked hreach halive _ _ _).mpr hfit⟩

end Pintos.Vm
