import Pintos.Arguments.StackBounds
import Pintos.Vm.Image

/-! # The stack of a new process

`setup_stack` gets a page for the stack and pushes the arguments on it, through the page
directory of the new thread. A store to a page that is not present faults in the kernel,
which goes on if the fault loads the page, and panics otherwise.
-/

namespace Pintos.Elf

open Memory Tokens Vm

/-- A command line that `process_execute` starts a thread for: it has a token. -/
structure Command where
  fileName : List UInt8
  nonzero : 0 ∉ fileName
  tokens_ne : Arguments.commandTokens fileName ≠ []

namespace Command

/-- The copy that `start_process` gets, on a page of its own. -/
def copy (cmd : Command) : List UInt8 := cmd.fileName.take (pgSize - 1)

/-- The name of the file and its arguments. -/
def tokens (cmd : Command) : List (List UInt8) := Arguments.commandTokens cmd.fileName

/-- The bytes that `setup_stack` stores for the command line, and its stack pointer. -/
def stack (cmd : Command) : Stack := Arguments.argumentStack (fun _ => 0) cmd.tokens

/-- The arguments fit on the page that `setup_stack` gets. -/
def Fits (cmd : Command) : Prop := Arguments.stackSize cmd.tokens ≤ pgSize

instance (cmd : Command) : Decidable cmd.Fits := Nat.decLe _ _

end Command

/-- What the rest of the kernel answers during a start: the answers to the operations of
the virtual memory, those to the allocations for `argv`, and for a fault at an address of
the stack those to the operations of `page_fault` and the `esp` of its frame, which the
processor does not set for a fault in the kernel. `cp` says whether the new thread has a
record of its parent in `cp`; the source never gives it one. -/
structure StartEnv extends Env where
  argv : Arguments.Env
  fault : ℕ → Env
  faultEsp : ℕ → Vaddr
  cp : Bool

/-- The allocations for `argv` succeed. -/
def StartEnv.AllocatesArgv (env : StartEnv) (cmd : Command) : Prop :=
  { env.argv with growStack := true }.Allocates cmd.tokens.length

/-- A store of the kernel to the address `x` of thread `t`. -/
def kernelStore (env : StartEnv) (t : Tid) (k : Kernel) (x : ℕ) (byte : UInt8) :
    Except String Kernel :=
  if (k.pteOf t (pgRoundDown (UInt32.ofNat x))).isSome then
    userStore k t (UInt32.ofNat x) byte
  else do
    let k ← pageFault (env.fault x) k t (UInt32.ofNat x) (env.faultEsp x)
    if k.status t = .alive then userStore k t (UInt32.ofNat x) byte else .error kernelBug

/-- The addresses to which something has been pushed, from the top of the stack down. -/
def storedAddresses (s : Stack) : List ℕ :=
  ((List.range' s.esp (Arguments.physBase - s.esp)).filter (· ∈ s.stored)).reverse

/-- The stores of `setup_stack`. It stores to no address twice and loads from none, so
that what it stores does not depend on the memory. -/
def storeStack (env : StartEnv) (t : Tid) (s : Stack) (k : Kernel) : Except String Kernel :=
  (storedAddresses s).foldlM (fun k x => kernelStore env t k x (s.mem x)) k

/-- `setup_stack` behind `grow_stack`: the stack pointer, if there is memory for `argv`. -/
def pushArguments (env : StartEnv) (k : Kernel) (t : Tid) (cmd : Command) :
    Except String (Option Vaddr × Kernel) := do
  let (done, s) ← Arguments.setupStack { env.argv with growStack := true }
    (strtokR 0 Arguments.blank cmd.copy 0) { esp := 0, mem := fun _ => 0, stored := ∅ }
  let k ← storeStack env t s k
  return (if done then some (UInt32.ofNat s.esp) else none, k)

/-- `setup_stack`: the stack pointer if it succeeds. -/
def setupStack (env : StartEnv) (n : ℕ) (k : Kernel) (t : Tid) (cmd : Command) :
    Except String (Option Vaddr × Kernel) := do
  match ← stackGrowth env.toEnv n k t (physBase - 4096) with
  | (false, k) => return (none, k)
  | (true, k) => pushArguments env k t cmd

variable {env : StartEnv} {k k' k₁ : Kernel} {t u : Tid} {cmd : Command} {s : Stack} {x n : ℕ}
  {byte : UInt8} {va esp : Vaddr} {page : Page} {w : Bool} {a : Vm.Act}

/-! ## What stays -/

/-- The open files, and the descriptors and mappings that use them, are the same. -/
structure SameHandles (k k' : Kernel) : Prop where
  files : k'.files = k.files
  fileList : k'.fileList = k.fileList
  mmapList : k'.mmapList = k.mmapList

theorem SameHandles.refl (k : Kernel) : SameHandles k k := ⟨rfl, rfl, rfl⟩

theorem SameHandles.trans (h : SameHandles k k₁) (h₁ : SameHandles k₁ k') : SameHandles k k' :=
  ⟨h₁.files.trans h.files, h₁.fileList.trans h.fileList, h₁.mmapList.trans h.mmapList⟩

/-- The threads are the same as well. -/
structure SameThreads (k k' : Kernel) : Prop extends SameHandles k k' where
  status : k'.status = k.status
  executable : k'.executable = k.executable

theorem SameThreads.refl (k : Kernel) : SameThreads k k := ⟨.refl k, rfl, rfl⟩

theorem SameThreads.trans (h : SameThreads k k₁) (h₁ : SameThreads k₁ k') : SameThreads k k' :=
  ⟨h.toSameHandles.trans h₁.toSameHandles, h₁.status.trans h.status,
    h₁.executable.trans h.executable⟩

/-! ## Stores as steps of the thread -/

/-- The labels of stores to the stack: `t` stores, or faults. -/
def IsPush (t : Tid) : Vm.Act → Prop
  | .userStore u _ _ => u = t
  | .pageFault u _ _ _ => u = t
  | _ => False

/-- Thread `t` has stored to its stack, and lives. -/
structure Pushes (t : Tid) (k k' : Kernel) : Prop where
  run : ∃ as, Lts.Run Vm.Step k as k' ∧ ∀ a ∈ as, IsPush t a
  alive : k'.status t = .alive

namespace Pushes

theorem refl (ht : k.status t = .alive) : Pushes t k k :=
  ⟨⟨[], .nil k, fun _ ha => absurd ha List.not_mem_nil⟩, ht⟩

theorem trans (h : Pushes t k k₁) (h₁ : Pushes t k₁ k') : Pushes t k k' := by
  obtain ⟨as, hrun, has⟩ := h.run
  obtain ⟨bs, hrun', hbs⟩ := h₁.run
  refine ⟨⟨as ++ bs, hrun.append hrun', fun a ha => ?_⟩, h₁.alive⟩
  rcases List.mem_append.mp ha with ha | ha
  · exact has a ha
  · exact hbs a ha

theorem single (hs : Vm.Step k a k') (ha : IsPush t a) (ht : k'.status t = .alive) :
    Pushes t k k' := by
  refine ⟨⟨[a], .single hs, fun b hb => ?_⟩, ht⟩
  rw [List.mem_singleton.mp hb]
  exact ha

theorem healthy (h : Pushes t k k') (hk : Healthy k) : Healthy k' := by
  obtain ⟨as, hrun, -⟩ := h.run
  exact hrun.invariant (fun _ _ _ hs hx => hx.step hs) hk

theorem fixed (h : Pushes t k k') (hk : Healthy k) :
    k'.listed = k.listed ∧ k'.userPool = k.userPool := by
  obtain ⟨as, hrun, -⟩ := h.run
  exact (hrun.invariant
    (P := fun x => Healthy x ∧ x.listed = k.listed ∧ x.userPool = k.userPool)
    (fun _ _ _ hs hx => ⟨hx.1.step hs, (listed_step hx.1.settled hs).trans hx.2.1,
      (userPool_step hx.1.settled hs).trans hx.2.2⟩) ⟨hk, rfl, rfl⟩).2

/-- No process leaves while arguments are pushed. -/
theorem image (h : Pushes t k k') (hk : Healthy k) (hi : Image k u va page w) :
    Image k' u va page w := by
  obtain ⟨as, hrun, has⟩ := h.run
  refine (hrun.invariant_of_mem (P := fun x => Healthy x ∧ Image x u va page w)
    (fun x a y ha hs hx => ⟨hx.1.step hs, hx.2.step hx.1.settled hs ?_⟩) ⟨hk, hi⟩).2
  rintro rfl
  exact has _ ha

end Pushes

theorem userStore_sameThreads (hst : userStore k t va byte = .ok k') : SameThreads k k' := by
  obtain ⟨pte, -, -, rfl⟩ := userStore_ok hst
  exact ⟨⟨rfl, rfl, rfl⟩, rfl, rfl⟩

theorem userStore_pushes (ht : k.status t = .alive) (hst : userStore k t va byte = .ok k') :
    Pushes t k k' := by
  have hs : Vm.Step k (.userStore t va byte) k' := ⟨ht, hst⟩
  refine .single hs rfl ?_
  rw [(userStore_sameThreads hst).status]
  exact ht

theorem kernelStore_pushes (ht : k.status t = .alive) (hst : kernelStore env t k x byte = .ok k') :
    Pushes t k k' := by
  unfold kernelStore at hst
  split at hst
  · exact userStore_pushes ht hst
  · obtain ⟨k₁, hfault, hst⟩ := Lts.bind_eq_ok.mp hst
    obtain ⟨ht₁, hst⟩ := Lts.guard_eq_ok.mp hst
    have hs : Vm.Step k (.pageFault t (UInt32.ofNat x) (env.faultEsp x) (env.fault x)) k₁ :=
      ⟨ht, hfault⟩
    exact (Pushes.single hs rfl ht₁).trans (userStore_pushes ht₁ hst)

/-- The stores of `setup_stack` are accesses of the new process. -/
theorem storeStack_pushes (ht : k.status t = .alive) (hst : storeStack env t s k = .ok k') :
    Pushes t k k' := by
  unfold storeStack at hst
  generalize storedAddresses s = xs at hst
  induction xs generalizing k with
  | nil =>
      cases hst
      exact .refl ht
  | cons x xs ih =>
      rw [List.foldlM_cons] at hst
      obtain ⟨k₁, hx, hst⟩ := Lts.bind_eq_ok.mp hst
      have hpush := kernelStore_pushes ht hx
      exact hpush.trans (ih hpush.alive hst)

/-! ## Stores to the page of the stack -/

/-- The first page of the stack is present and may be written to. -/
def StackPresent (k : Kernel) (t : Tid) : Prop :=
  ∃ pte, k.pteOf t (physBase - 4096) = some pte ∧ pte.writable = true

theorem pgRoundDown_stack (hlow : Arguments.physBase - pgSize ≤ x) (hhigh : x < Arguments.physBase) :
    pgRoundDown (UInt32.ofNat x) = physBase - 4096 := by
  have hbase : Arguments.physBase = 3221225472 := rfl
  have hpage : pgSize = 4096 := rfl
  have hx : (UInt32.ofNat x).toNat = x := UInt32.toNat_ofNat_of_lt (show x < 2 ^ 32 by omega)
  apply UInt32.toNat_inj.mp
  rw [pgRoundDown_toNat, hx, show (physBase - 4096).toNat = 3221221376 by decide]
  omega

/-- A store to this page does not fault. -/
theorem kernelStore_present (env : StartEnv) (byte : UInt8)
    (hlow : Arguments.physBase - pgSize ≤ x) (hhigh : x < Arguments.physBase)
    (hk : StackPresent k t) :
    ∃ k', kernelStore env t k x byte = .ok k' ∧ SameThreads k k' ∧ StackPresent k' t := by
  obtain ⟨pte, hpte, hw⟩ := hk
  have hround := pgRoundDown_stack hlow hhigh
  obtain ⟨k', hst⟩ : ∃ k', userStore k t (UInt32.ofNat x) byte = .ok k' := by
    unfold userStore
    rw [hround, hpte]
    exact ⟨_, if_pos hw⟩
  refine ⟨k', ?_, userStore_sameThreads hst, ?_⟩
  · unfold kernelStore
    rw [hround, hpte]
    exact hst
  · obtain ⟨pte', -, hw', rfl⟩ := userStore_ok hst
    refine ⟨{ pte' with accessed := true, dirty := true }, ?_, hw'⟩
    rw [← hround]
    exact pteOf_setPte.trans (if_pos ⟨rfl, rfl⟩)

theorem mem_storedAddresses (hx : x ∈ storedAddresses s) : x ∈ s.stored := by
  unfold storedAddresses at hx
  exact of_decide_eq_true (List.mem_filter.mp (List.mem_reverse.mp hx)).2

/-- What is pushed on this page is stored. -/
theorem storeStack_present (env : StartEnv) (hs : Arguments.InPage s) (hk : StackPresent k t) :
    ∃ k', storeStack env t s k = .ok k' ∧ SameThreads k k' := by
  have hall : ∀ x ∈ storedAddresses s, Arguments.physBase - pgSize ≤ x ∧ x < Arguments.physBase :=
    fun x hx => hs x (mem_storedAddresses hx)
  unfold storeStack
  generalize storedAddresses s = xs at hall
  induction xs generalizing k with
  | nil => exact ⟨k, rfl, .refl k⟩
  | cons x xs ih =>
      obtain ⟨hlow, hhigh⟩ := hall x List.mem_cons_self
      obtain ⟨k₁, hx, hsame, hk₁⟩ := kernelStore_present env (s.mem x) hlow hhigh hk
      obtain ⟨k', hxs, hsame'⟩ := ih hk₁ fun y hy => hall y (List.mem_cons_of_mem x hy)
      refine ⟨k', ?_, hsame.trans hsame'⟩
      rw [List.foldlM_cons]
      exact Lts.bind_eq_ok.mpr ⟨k₁, hx, hxs⟩

/-- The page that `grow_stack` gets is present. -/
theorem stackGrowth_present {env : Env} (h : Sound k) (hx : NoneExiting k)
    (hgrow : stackGrowth env n k t (physBase - 4096) = .ok (true, k')) : StackPresent k' t := by
  have haligned : pgRoundDown (physBase - 4096) = physBase - 4096 := by decide
  rcases stackGrowth_cases h hx hgrow with ⟨hno, -⟩ | ⟨p, k₁, frame, -, hcases⟩
  · cases hno
  · rcases hcases with ⟨hno, -⟩ | ⟨hno, -⟩ | ⟨-, -, rfl⟩
    · cases hno
    · cases hno
    · have hpte : (mapPage k₁ t p (stackEntry (physBase - 4096)) frame env.garbage false).pteOf t
          (physBase - 4096) = some _ := pteOf_mapPage.trans (if_pos ⟨rfl, rfl⟩)
      rw [haligned]
      exact ⟨_, hpte, rfl⟩

/-! ## `setup_stack` -/

theorem Command.copy_nonzero (cmd : Command) : 0 ∉ cmd.copy :=
  fun hmem => cmd.nonzero (List.mem_of_mem_take hmem)

/-- With memory for `argv` the arguments are pushed; without it some of them may be, all
on the page of the stack. -/
theorem pushArguments_cases (env : StartEnv) (k : Kernel) (t : Tid) (cmd : Command) :
    (env.AllocatesArgv cmd ∧ pushArguments env k t cmd =
        (storeStack env t cmd.stack k).map fun k => (some (UInt32.ofNat cmd.stack.esp), k)) ∨
    (¬ env.AllocatesArgv cmd ∧ ∃ s, Arguments.InPage s ∧
      pushArguments env k t cmd = (storeStack env t s k).map fun k => (none, k)) := by
  rcases Arguments.setupStack_command cmd.copy_nonzero { env.argv with growStack := true }
    (fun _ => 0) with ⟨ha, hrun⟩ | ⟨ha, s, pre, hrun, hpre, hstored⟩
  · refine .inl ⟨ha, ?_⟩
    unfold pushArguments
    rw [hrun]
    rfl
  · have hsize : stringsSize pre ≤ pgSize :=
      (Arguments.stringsSize_mono hpre).trans Arguments.commandTokens_size
    refine .inr ⟨ha, s, Arguments.strings_inPage hsize hstored, ?_⟩
    unfold pushArguments
    rw [hrun]
    rfl

/-- `setup_stack` succeeds exactly if the page and `argv` are allocated and the kernel can
store what is pushed. -/
theorem setupStack_iff : setupStack env n k t cmd = .ok (some esp, k') ↔
    env.AllocatesArgv cmd ∧ esp = UInt32.ofNat cmd.stack.esp ∧
      ∃ k₁, stackGrowth env.toEnv n k t (physBase - 4096) = .ok (true, k₁) ∧
        storeStack env t cmd.stack k₁ = .ok k' := by
  unfold setupStack
  rw [Lts.bind_eq_ok]
  constructor
  · rintro ⟨⟨b, k₁⟩, hgrow, h⟩
    cases b with
    | false => cases h
    | true =>
        have hpush : pushArguments env k₁ t cmd = .ok (some esp, k') := h
        rcases pushArguments_cases env k₁ t cmd with ⟨ha, heq⟩ | ⟨-, s, -, heq⟩
        · obtain ⟨k₂, hst, hr⟩ := Lts.map_eq_ok.mp (heq.symm.trans hpush)
          cases hr
          exact ⟨ha, rfl, k₁, hgrow, hst⟩
        · -- without memory for `argv` there is no stack pointer
          obtain ⟨k₂, -, hr⟩ := Lts.map_eq_ok.mp (heq.symm.trans hpush)
          cases hr
  · rintro ⟨ha, rfl, k₁, hgrow, hst⟩
    refine ⟨(true, k₁), hgrow, ?_⟩
    show pushArguments env k₁ t cmd = _
    rcases pushArguments_cases env k₁ t cmd with ⟨-, heq⟩ | ⟨hno, -⟩
    · rw [heq]
      exact Lts.map_eq_ok.mpr ⟨k', hst, rfl⟩
    · exact absurd ha hno

/-- Where it fails there is no page, or there are strings on it. -/
theorem setupStack_none (h : setupStack env n k t cmd = .ok (none, k')) :
    stackGrowth env.toEnv n k t (physBase - 4096) = .ok (false, k') ∨
      ∃ k₁ s, stackGrowth env.toEnv n k t (physBase - 4096) = .ok (true, k₁) ∧
        Arguments.InPage s ∧ storeStack env t s k₁ = .ok k' := by
  obtain ⟨⟨b, k₁⟩, hgrow, h⟩ := Lts.bind_eq_ok.mp h
  cases b with
  | false =>
      cases h
      exact .inl hgrow
  | true =>
      have hpush : pushArguments env k₁ t cmd = .ok (none, k') := h
      rcases pushArguments_cases env k₁ t cmd with ⟨-, heq⟩ | ⟨-, s, hs, heq⟩
      · -- with memory for `argv` there is a stack pointer
        obtain ⟨k₂, -, hr⟩ := Lts.map_eq_ok.mp (heq.symm.trans hpush)
        cases hr
      · obtain ⟨k₂, hst, hr⟩ := Lts.map_eq_ok.mp (heq.symm.trans hpush)
        cases hr
        exact .inr ⟨k₁, s, hgrow, hs, hst⟩

end Pintos.Elf
