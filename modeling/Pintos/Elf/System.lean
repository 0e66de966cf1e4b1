import Pintos.Elf.Image
import Pintos.Vm.FrameTable

/-! # Runs of any executables

The virtual memory with processes that are started from files: a label starts a process
from whatever a file holds, or is one of the virtual memory's own. No file is started that
has a page where `setup_stack` puts the first page of the stack: `stack_growth` then
leaves a frame behind, which the frame table lists for a page that has another one.
-/

namespace Pintos.Elf

open Vm

inductive Act where
  /-- `start_process` of the command line `cmd`, which names the file `exe`, in the new
  thread `t`. -/
  | start (t : Tid) (exe : Inode) (cmd : Command) (env : StartEnv)
  | run (a : Vm.Act)

/-- The labels of the virtual memory that start a process from given segments. -/
def isLoad : Vm.Act → Bool
  | .load _ _ _ _ => true
  | _ => false

/-- When a label can occur; processes are started from files only. -/
def Enabled (k : Kernel) : Act → Prop
  | .start t _ _ _ => k.status t = .absent
  | .run a => Vm.Enabled k a ∧ isLoad a = false

/-- What a label does. -/
def perform (k : Kernel) : Act → Except String Kernel
  | .start t exe cmd env => start env k t exe cmd
  | .run a => Vm.perform k a

/-- The file that is started leaves the first page of the stack alone. -/
def Act.Spares (k : Kernel) : Act → Prop
  | .start _ exe _ _ => SparesStack (k.bytesOf exe)
  | .run _ => True

/-- One step of the system, in which no file is started that does not spare the stack. -/
structure Step (k : Kernel) (a : Act) (k' : Kernel) : Prop where
  enabled : Enabled k a
  spares : a.Spares k
  performs : perform k a = .ok k'

/-- The states reachable on a machine. -/
def Reachable (m : Machine) (k : Kernel) : Prop := Lts.Reaches Step m.boot k

variable {m : Machine} {k k' k₁ k₂ : Kernel} {a : Act} {as : List Act} {t u : Tid} {exe : Inode}
  {env : StartEnv} {cmd : Command} {va : Vaddr} {page : Page} {w : Bool}

/-! ## What every step keeps -/

theorem Step.healthy (hs : Step k a k') (h : Healthy k) : Healthy k' := by
  obtain ⟨hen, hspare, hperf⟩ := hs
  cases a with
  | start t exe cmd env => exact healthy_start h hen hspare hperf
  | run a =>
      have hstep : Vm.Step k a k' := ⟨hen.1, hperf⟩
      exact h.step hstep

theorem Step.fixed (hs : Step k a k') (h : Healthy k) :
    k'.listed = k.listed ∧ k'.userPool = k.userPool := by
  obtain ⟨hen, hspare, hperf⟩ := hs
  cases a with
  | start t exe cmd env =>
      rcases (start_cases.mp hperf).2.2 with ⟨entry, esp, hload⟩ | ⟨k₁, hload, hexit⟩
      · obtain ⟨ehdr, phdrs, file, k₁, k₂, hl⟩ := load_some h hen hload
        obtain ⟨hlisted, hpool⟩ := hl.pushes.fixed (h.step hl.step)
        exact ⟨hlisted.trans (listed_step h.settled hl.step),
          hpool.trans (userPool_step h.settled hl.step)⟩
      · obtain ⟨-, hleft⟩ := start_none h hen hspare hload hexit
        exact ⟨hleft.listed, hleft.userPool⟩
  | run a =>
      have hstep : Vm.Step k a k' := ⟨hen.1, hperf⟩
      exact fixed_step h.settled hstep

theorem healthy_of_reachable (h : Reachable m k) :
    Healthy k ∧ k.listed = m.listed ∧ k.userPool = m.pool := by
  refine h.invariant (P := fun x => Healthy x ∧ x.listed = m.listed ∧ x.userPool = m.pool)
    (fun x a y hs hx => ?_) ⟨.boot m, rfl, rfl⟩
  obtain ⟨hlisted, hpool⟩ := hs.fixed hx.1
  exact ⟨hs.healthy hx.1, hlisted.trans hx.2.1, hpool.trans hx.2.2⟩

theorem frameTable_of_settled (h : Settled k) (hpool : k.userPool = m.pool) : FrameTable m k := by
  have htbl := h.sound.tables
  refine ⟨htbl.frameNodup, hpool ▸ htbl.pool, ?_, ?_, htbl.mapped⟩
  · intro fte hfte
    obtain ⟨e, pte, he, hl, hpte, hframe⟩ := htbl.resident fte hfte
    exact ⟨h.live he, e, pte, he, hl, hpte, hframe⟩
  · intro t p e he hl
    obtain ⟨f, hf⟩ := htbl.listed t p e he hl
    exact ⟨_, hf, rfl, rfl, fun fte' hfte' heq => htbl.fte_eq_of_spte hfte' hf heq⟩

/-- Whatever files are started, successfully or not, the frame table stays consistent, no
two pages share a swap slot, the page directories permit what the entries say, and pages
that may not be written are clean and not in the swap block. -/
theorem tables_consistent (h : Reachable m k) :
    FrameTable m k ∧ (slots k).Exclusive ∧ Permits k ∧ ReadOnlyClean k := by
  obtain ⟨hhealthy, -, hpool⟩ := healthy_of_reachable h
  exact ⟨frameTable_of_settled hhealthy.settled hpool, hhealthy.slots, hhealthy.permits,
    hhealthy.readOnly⟩

/-! ## Faults -/

/-- An access of a process to memory does not fault. -/
def Act.Accesses (k : Kernel) : Act → Prop
  | .start _ _ _ _ => True
  | .run a => a.Accesses k

/-- A start whose load fails leaves nothing behind: no process, no page, no open file, and
the same files may be written to as before. -/
theorem failed_start_leaves_nothing (h : Reachable m k) (hs : Step k (.start t exe cmd env) k')
    (hfail : k'.status t ≠ .alive) :
    NothingLeft k k' ∧ (∀ i, WritesDenied k' i ↔ WritesDenied k i) ∧
      ∀ fte ∈ k'.frameTblList, fte.thread ≠ t := by
  obtain ⟨hhealthy, -⟩ := healthy_of_reachable h
  have h' := hs.healthy hhealthy
  obtain ⟨hen, hspare, hperf⟩ := hs
  rcases (start_cases.mp hperf).2.2 with ⟨entry, esp, hload⟩ | ⟨k₁, hload, hexit⟩
  · -- a load that succeeds starts the process
    exact absurd (load_alive hhealthy hen hload) hfail
  · obtain ⟨-, hleft⟩ := start_none hhealthy hen hspare hload hexit
    refine ⟨hleft, fun i => ?_, fun fte hfte ht => ?_⟩
    · rw [writesDenied_iff, writesDenied_iff]
      simp only [hleft.lookup]
    · -- a frame in the table belongs to an entry of a thread that is not absent
      obtain ⟨e, -, he, -⟩ := h'.settled.sound.tables.resident fte hfte
      have habs : k'.status fte.thread = .absent := by
        rw [hleft.status, ht]
        exact hen
      exact h'.settled.sound.tables.living _ _ he.mem habs

/-! ## The image of a process -/

/-- A step keeps the image of every process but the one that leaves. -/
theorem Step.image (hs : Step k a k') (h : Healthy k) (hno : a ≠ .run (.processExit t))
    (hi : Image k t va page w) : Image k' t va page w := by
  obtain ⟨hen, hspare, hperf⟩ := hs
  cases a with
  | start u exe cmd env =>
      have hne : t ≠ u := by
        rintro rfl
        exact hi.present h.settled.sound hen
      rcases (start_cases.mp hperf).2.2 with ⟨entry, esp, hload⟩ | ⟨k₁, hload, hexit⟩
      · obtain ⟨ehdr, phdrs, file, k₁, k₂, hl⟩ := load_some h hen hload
        exact hl.pushes.image (h.step hl.step) (hi.step h.settled hl.step nofun)
      · rcases load_none h hen hspare hload with rfl | ⟨file, k₀, -, h₀, hp⟩
        · -- only the fields of the new thread have changed
          have hl : ((initThread k u).setStatus u .killed).listed = true :=
            listed_of_processExit hexit
          rw [processExit_unopened h.settled.sound hl hen] at hexit
          cases hexit
          exact hi.same rfl rfl rfl
        · -- the new thread makes entries, is killed and leaves
          obtain ⟨hkill, h₂⟩ := hp.kill h₀
          have hleave : Vm.Step (k₁.setStatus u .killed) (.processExit u) k' :=
            ⟨setStatus_killed, hexit⟩
          have hi₀ : Image (startProcess k u file exe) t va page w := hi.same rfl rfl rfl
          have hi₁ := hp.image h₀ hi₀
          refine (hi₁.step (hp.healthy h₀).2.settled hkill nofun).step h₂.settled hleave ?_
          intro heq
          exact hne (Vm.Act.processExit.inj heq).symm
  | run a =>
      have hstep : Vm.Step k a k' := ⟨hen.1, hperf⟩
      exact hi.step h.settled hstep fun heq => hno (congrArg _ heq)

theorem run_image (hrun : Lts.Run Step k as k') (h : Healthy k)
    (hno : .run (.processExit t) ∉ as) (hi : Image k t va page w) :
    Healthy k' ∧ Image k' t va page w :=
  hrun.invariant_of_mem (P := fun x => Healthy x ∧ Image x t va page w)
    (fun _ _ _ ha hs hx => ⟨hs.healthy hx.1, hs.image hx.1 (ne_of_mem_of_not_mem ha hno) hx.2⟩)
    ⟨h, hi⟩

/-- From its start to its end a process finds at every byte of a segment of its executable
that is present what it last stored there, or else the byte of the file (zero behind the
part of the segment that is in the file), and may write to it if the program header says
so: whatever is evicted, and whatever other processes do. What `setup_stack` pushes counts
as stored by the process. -/
theorem executable_image (h : Reachable m k) (hs : Step k (.start t exe cmd env) k₁)
    (halive : k₁.status t = .alive) (hrun : Lts.Run Step k₁ as k₂)
    (hno : .run (.processExit t) ∉ as) :
    ∃ ehdr phdrs, IsExecutable (k.bytesOf exe) ehdr phdrs ∧ ∀ p ∈ phdrs, p.type = ptLoad →
      p.offset.toNat + p.filesz.toNat ≤ (k.bytesOf exe).length → ∀ j < p.memsz.toNat, ∀ pte,
        k₂.pteOf t (pgRoundDown (p.vaddr + UInt32.ofNat j)) = some pte →
        pte.writable = decide (p.flags &&& pfW ≠ 0) ∧
        k₂.mem pte.frame (pgOfs (p.vaddr + UInt32.ofNat j)) =
          (lastStored k₂.hist t (pgRoundDown (p.vaddr + UInt32.ofNat j))
            (pgOfs (p.vaddr + UInt32.ofNat j))).getD (segmentByte (k.bytesOf exe) p j) := by
  obtain ⟨hhealthy, -⟩ := healthy_of_reachable h
  have h₁ := hs.healthy hhealthy
  obtain ⟨hen, hspare, hperf⟩ := hs
  rcases (start_cases.mp hperf).2.2 with ⟨entry, esp, hload⟩ | ⟨k₀, hload, hexit⟩
  · obtain ⟨ehdr, phdrs, _, _, _, hl⟩ := load_some hhealthy hen hload
    have hexe := hl.executable
    refine ⟨ehdr, phdrs, hexe, ?_⟩
    intro p hp hty hcover j hj pte hpte
    obtain ⟨page, himage, hbyte⟩ := load_image hhealthy hen hload hexe hp hty hcover hj
    obtain ⟨h₂, himage₂⟩ := run_image hrun h₁ hno himage
    obtain ⟨hw, hmem⟩ := himage₂.memory h₂ hpte
    refine ⟨hw, ?_⟩
    rw [hmem, hbyte]
  · -- a load that fails leaves no process
    obtain ⟨-, hleft⟩ := start_none hhealthy hen hspare hload hexit
    rw [hleft.status, show k.status t = .absent from hen] at halive
    cases halive

/-! ## A run -/

def tinyEhdr : Elf32Ehdr where
  ident := ⟨[0x7f, 0x45, 0x4c, 0x46, 1, 1, 1, 0, 0, 0, 0, 0, 0, 0, 0, 0], rfl⟩
  type := 2
  machine := 3
  version := 1
  entry := 0x08048054
  phoff := 52
  shoff := 0
  flags := 0
  ehsize := 52
  phentsize := 32
  phnum := 1
  shentsize := 0
  shnum := 0
  shstrndx := 0

/-- A segment of five bytes of which the file has three. -/
def tinyPhdr : Elf32Phdr where
  type := ptLoad
  offset := 84
  vaddr := 0x08048054
  paddr := 0
  filesz := 3
  memsz := 5
  flags := 6
  align := 4096

def tinyBytes : List UInt8 := assemble tinyEhdr [] [tinyPhdr] [7, 8, 9]

theorem length_tinyBytes : tinyBytes.length = 87 := by decide +kernel

theorem isExecutable_tiny : IsExecutable tinyBytes tinyEhdr [tinyPhdr] := by
  refine isExecutable_assemble (by decide) rfl rfl (by decide) ?_
  intro p hp _
  obtain rfl := List.mem_singleton.mp hp
  have hlength : (assemble tinyEhdr [] [tinyPhdr] [7, 8, 9]).length = 87 := length_tinyBytes
  rw [hlength]
  exact ⟨by decide, by decide, by decide, by decide, by decide, by decide⟩

theorem sparesStack_tiny : SparesStack tinyBytes := by
  intro ehdr phdrs hexe
  obtain ⟨-, rfl⟩ := isExecutable_tiny.unique hexe
  decide +kernel

/-- A machine with this executable, a file that is none, and one page for users. -/
def tinyMachine (pool : List Frame) (hpool : pool.Nodup) : Machine where
  listed := true
  pool := pool
  pool_nodup := hpool
  mem := fun _ => zeroPage
  swapBlock := none
  inodes := fun i =>
    if i = 1 then some ⟨tinyBytes, by rw [length_tinyBytes]; decide⟩
    else if i = 2 then some ⟨[7, 8, 9], length_threeBytes⟩
    else none

/-- A command line of one letter, which takes 24 bytes of the stack. -/
def tinyCommand : Command where
  fileName := [97]
  nonzero := by decide
  tokens_ne := by decide

/-- Memory is not short. -/
def startEnv : StartEnv where
  toEnv := generous 100
  argv := Arguments.plenty
  fault := fun _ => generous 150
  faultEsp := fun _ => 0
  cp := true

theorem start_tiny {pool : List Frame} {hpool : pool.Nodup}
    (hstart : (start env (tinyMachine pool hpool).boot t 1 cmd).toOption = some k') :
    Step (tinyMachine pool hpool).boot (.start t 1 cmd env) k' :=
  ⟨rfl, sparesStack_tiny, Lts.eq_ok_of_toOption hstart⟩

theorem tables_consistent_run : ∃ k, Reachable (tinyMachine [0, 1] nodup_twoPages) k ∧
    k.status 1 = .alive ∧ (slots k).Exclusive ∧ ReadOnlyClean k := by
  have hrun : (start startEnv (tinyMachine [0, 1] nodup_twoPages).boot 1 1 tinyCommand).toOption.map
      (fun k => decide (k.status 1 = .alive)) = some true := by decide +kernel
  obtain ⟨k, hk, halive⟩ := Option.map_eq_some_iff.mp hrun
  have hs := start_tiny hk
  have hreach : Reachable (tinyMachine [0, 1] nodup_twoPages) k := (Lts.Reaches.refl _).tail hs
  obtain ⟨-, hslots, -, hclean⟩ := tables_consistent hreach
  exact ⟨k, hreach, of_decide_eq_true halive, hslots, hclean⟩

/-- The executable cannot be started without memory for `argv`. -/
theorem failed_start_leaves_nothing_run : ∃ k',
    Step (tinyMachine [0, 1] nodup_twoPages).boot
      (.start 1 1 tinyCommand { startEnv with argv := { Arguments.plenty with malloc := false } }) k' ∧
      NothingLeft (tinyMachine [0, 1] nodup_twoPages).boot k' := by
  have hrun : (start { startEnv with argv := { Arguments.plenty with malloc := false } }
      (tinyMachine [0, 1] nodup_twoPages).boot 1 1 tinyCommand).toOption.map
      (fun k => decide (k.status 1 ≠ .alive)) = some true := by decide +kernel
  obtain ⟨k', hk', hfail⟩ := Option.map_eq_some_iff.mp hrun
  have hs := start_tiny hk'
  exact ⟨k', hs, (failed_start_leaves_nothing (.refl _) hs (of_decide_eq_true hfail)).1⟩

/-- The second byte of the segment is the second of the three bytes. -/
theorem executable_image_run : ∃ k₁ k₂ pte,
    Step (tinyMachine [0, 1] nodup_twoPages).boot (.start 1 1 tinyCommand startEnv) k₁ ∧
      Step k₁ (.run (.pageFault 1 0x08048055 0xbffffff0 (generous 200))) k₂ ∧
      k₂.pteOf 1 0x08048000 = some pte ∧ pte.writable = true ∧ k₂.mem pte.frame 85 = 8 := by
  have hrun : (start startEnv (tinyMachine [0, 1] nodup_twoPages).boot 1 1 tinyCommand).toOption.map
      (fun k => decide (k.status 1 = .alive ∧
        (pageFault (generous 200) k 1 0x08048055 0xbffffff0).toOption.map (fun k =>
          decide ((k.pteOf 1 0x08048000).isSome = true ∧ lastStored k.hist 1 0x08048000 85 = none)) =
        some true)) = some true := by decide +kernel
  obtain ⟨k₁, hk₁, hstate⟩ := Option.map_eq_some_iff.mp hrun
  obtain ⟨halive, hfault⟩ := of_decide_eq_true hstate
  obtain ⟨k₂, hk₂, hstate₂⟩ := Option.map_eq_some_iff.mp hfault
  obtain ⟨hsome, hstored⟩ := of_decide_eq_true hstate₂
  obtain ⟨pte, hpte⟩ := Option.isSome_iff_exists.mp hsome
  have hs := start_tiny hk₁
  have hs₂ : Step k₁ (.run (.pageFault 1 0x08048055 0xbffffff0 (generous 200))) k₂ :=
    ⟨⟨halive, rfl⟩, trivial, Lts.eq_ok_of_toOption hk₂⟩
  obtain ⟨ehdr, phdrs, hexe, hbytes⟩ := executable_image (.refl _) hs halive (.single hs₂)
    (by simp)
  obtain ⟨rfl, rfl⟩ := isExecutable_tiny.unique hexe
  obtain ⟨hw, hbyte⟩ := hbytes tinyPhdr List.mem_cons_self rfl (by decide +kernel) 1 (by decide) pte
    hpte
  have haddr : pgRoundDown (tinyPhdr.vaddr + UInt32.ofNat 1) = 0x08048000 := by decide
  have hofs : pgOfs (tinyPhdr.vaddr + UInt32.ofNat 1) = 85 := by decide
  have hfile : segmentByte tinyBytes tinyPhdr 1 = 8 := by decide +kernel
  rw [haddr, hofs, hstored] at hbyte
  exact ⟨k₁, k₂, pte, hs, hs₂, hpte, hw.trans (by decide), hbyte.trans hfile⟩

end Pintos.Elf
