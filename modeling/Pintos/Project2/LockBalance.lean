import Pintos.Lib.LockSystem
import Pintos.Project2.Syscall

/-! # The balance of `LOCK`

A system call of Project 2 acquires `LOCK` at most once, releases it only while it
holds it, and does not hold it when it returns, except for an `open` of the empty
name, an `open` that finds no file and a `write` to the console. As long as
nobody makes one of these, whoever holds `LOCK` is in the middle of a call that
gives it back.
-/

namespace Pintos.Project2

open Sync
open Vm (Vaddr FilePtr Tid)

/-- What holds of a call that keeps the balance of `LOCK`. -/
structure Balanced {α : Type} (c : Code α) : Prop where
  once : c.ops.count (.acquire .lock) ≤ 1
  releases : ∀ pre post, c.ops = pre ++ .release .lock :: post → Passes ∅ pre →
    .lock ∈ heldAfter ∅ pre
  returns : Passes ∅ c.ops → .lock ∉ heldAfter ∅ c.ops

/-- The name of a file passes the check, and has a length. -/
def UserString.Valid (file : UserString) (n : UInt32) : Prop :=
  validaddr file.addr 0 = true ∧ file.length = some n ∧ validaddr file.addr n = true

/-- A call that loses the balance: `open` returns with `LOCK` for an empty name, and
releases it twice if there is no file, unless `malloc` fails in between; `write` to the
console returns with it, unless the buffer faults. -/
def Call.Slips : Call → Prop
  | .open file opened malloc =>
      ∃ n, file.Valid n ∧ (n = 0 ∨ opened = none ∧ malloc = true)
  | .write fd buffer size faults _ => validaddr buffer size = true ∧ fd = 1 ∧ faults = false
  | _ => False

/-! ## A discipline for `LOCK` -/

/-- A thread gets past every operation that does not stop it. -/
def discipline : Discipline Lock Unit where
  demands held op := op ≠ .stop → op.Proceeds held
  assumes held op := op.Proceeds held

variable {α : Type} {held : Finset Lock} {E : Finset Lock → Prop} {Q : α → Finset Lock → Prop}
  {p : Process} {c : Call} {file : UserString} {fd : ℤ} {faults malloc : Bool}

/-- The end of a call that kept the discipline: it does not hold `LOCK`. -/
abbrev Free (_ : α) (held : Finset Lock) : Prop := held = ∅

theorem bind_spec {β : Type} {x : Code β} {f : β → Code α}
    (h : discipline.wpCode x (fun b => discipline.wpCode (f b) Q E) E held) :
    discipline.wpCode (x >>= f) Q E held := Discipline.wpCode_bind.mpr h

theorem stop_spec : discipline.wpCode (.stop : Code α) Q E held :=
  ⟨fun h => absurd rfl h, fun h => h.elim⟩

theorem acquire_spec {Q : Unit → Finset Lock → Prop} (h : held = ∅) (hQ : Q () {.lock}) :
    discipline.wpCode lockAcquire Q E held := by
  subst h
  exact ⟨fun _ => Finset.notMem_empty _, fun _ => hQ⟩

theorem release_spec {Q : Unit → Finset Lock → Prop} (h : held = {.lock}) (hQ : Q () ∅) :
    discipline.wpCode lockRelease Q E held := by
  subst h
  exact ⟨fun _ => Finset.mem_singleton_self _, fun _ => hQ⟩

/-- The rest of a call that releases `LOCK` and returns. -/
theorem release_return_spec {a : α} (h : held = {.lock}) :
    discipline.wpCode (do lockRelease; return a) Free E held :=
  bind_spec (release_spec h rfl)

theorem access_spec {Q : Unit → Finset Lock → Prop} (h : faults = false → Q () held) :
    discipline.wpCode (access faults) Q E held := by
  cases faults with
  | false => exact h rfl
  | true => exact stop_spec

theorem strlen_spec {Q : UInt32 → Finset Lock → Prop} (h : ∀ n, file.length = some n → Q n held) :
    discipline.wpCode (strlen file) Q E held := by
  unfold strlen
  split
  next => exact stop_spec
  next n hn => exact h n hn

/-- A file name that passes the check is valid. -/
theorem checkAddress_spec {Q : Unit → Finset Lock → Prop} (hE : E held)
    (hQ : ∀ n, file.Valid n → Q () held) :
    discipline.wpCode (checkAddress file) Q E held := by
  unfold checkAddress
  split
  next => exact hE
  next haddr =>
    refine bind_spec (strlen_spec ?_)
    intro n hn
    split
    next => exact hE
    next hend =>
      exact hQ n ⟨Bool.eq_true_of_not_eq_false haddr, hn, Bool.eq_true_of_not_eq_false hend⟩

theorem fileCheckLoop_spec {Q : Option FilePtr → Finset Lock → Prop} {files : List ProcessFile}
    (hQ : ∀ f, Q f held) : discipline.wpCode (fileCheckLoop fd files) Q E held := by
  fun_induction fileCheckLoop fd files with
  | case1 => exact hQ none
  | case2 pf rest hfd => exact hQ pf.file
  | case3 pf hfd => exact stop_spec
  | case4 pf hfd _ rest ih => exact ih

theorem processFileAdd_spec {Q : ℤ × Process → Finset Lock → Prop} {f : Option FilePtr}
    (hQ : ∀ added, malloc = true → Q added held) :
    discipline.wpCode (processFileAdd p f malloc) Q E held := by
  refine bind_spec (access_spec ?_)
  intro hmalloc
  exact hQ _ (by simpa using hmalloc)

/-! ## The system calls -/

theorem create_spec {initialSize : UInt32} {created : Bool} (hE : E ∅) :
    discipline.wpCode (create file initialSize created) Free E ∅ := by
  unfold create
  refine bind_spec (checkAddress_spec hE ?_)
  intro n hn
  refine bind_spec (acquire_spec rfl ?_)
  dsimp only
  split
  next =>
    refine bind_spec (strlen_spec ?_)
    intro n hn
    split
    next => exact release_return_spec rfl
    next =>
      refine bind_spec (strlen_spec ?_)
      intro n hn
      split
      next => exact release_return_spec rfl
      next => exact release_return_spec rfl
  next => exact release_return_spec rfl

theorem remove_spec {removed : Bool} (hE : E ∅) :
    discipline.wpCode (remove file removed) Free E ∅ := by
  refine bind_spec (checkAddress_spec hE ?_)
  intro n hn
  exact bind_spec (acquire_spec rfl (release_return_spec rfl))

theorem openFile_spec {opened : Option FilePtr} (hE : E ∅)
    (h : ¬ (Call.open file opened malloc).Slips) :
    discipline.wpCode (openFile p file opened malloc) Free E ∅ := by
  unfold openFile
  refine bind_spec (checkAddress_spec hE ?_)
  intro n hn
  refine bind_spec (acquire_spec rfl ?_)
  refine bind_spec (strlen_spec ?_)
  intro m hm
  have heq : m = n := Option.some.inj (hm.symm.trans hn.2.1)
  subst heq
  split
  next hzero => exact absurd ⟨m, hn, .inl hzero⟩ h
  next =>
    dsimp only
    split
    next hnone =>
      -- the lock is released here already, so `malloc` has to fail
      refine bind_spec (release_spec rfl (bind_spec (processFileAdd_spec ?_)))
      intro added hmalloc
      exact absurd ⟨m, hn, .inr ⟨hnone, hmalloc⟩⟩ h
    next => exact bind_spec (processFileAdd_spec fun added _ => release_return_spec rfl)

theorem filesize_spec {length : ℤ} :
    discipline.wpCode (filesize p fd length) Free E ∅ := by
  unfold filesize
  refine bind_spec (acquire_spec rfl ?_)
  split
  next => exact release_return_spec rfl
  next => exact release_return_spec rfl

theorem read_spec {buffer : Vaddr} {size : UInt32} (hE : E ∅) :
    discipline.wpCode (read fd buffer size faults) Free E ∅ := by
  unfold read
  dsimp only
  split
  next => exact hE
  next =>
    refine bind_spec (acquire_spec rfl ?_)
    split
    next => exact bind_spec (access_spec fun _ => release_return_spec rfl)
    next => exact release_return_spec rfl

theorem write_spec {buffer : Vaddr} {size : UInt32} {written : ℤ} (hE : E ∅)
    (h : ¬ (Call.write fd buffer size faults written).Slips) :
    discipline.wpCode (write p fd buffer size faults written) Free E ∅ := by
  unfold write
  dsimp only
  split
  next => exact hE
  next haddr =>
    refine bind_spec (acquire_spec rfl ?_)
    split
    next hfd =>
      refine bind_spec (access_spec ?_)
      intro hfaults
      exact absurd ⟨Bool.eq_true_of_not_eq_false haddr, hfd, hfaults⟩ h
    next =>
      refine bind_spec (fileCheckLoop_spec ?_)
      intro f
      split
      next => exact release_return_spec rfl
      next => exact bind_spec (access_spec fun _ => release_return_spec rfl)

theorem seek_spec {position : UInt32} : discipline.wpCode (seek p fd position) Free E ∅ := by
  unfold seek
  refine bind_spec (acquire_spec rfl (bind_spec (fileCheckLoop_spec ?_)))
  intro f
  dsimp only
  split
  next => exact bind_spec (access_spec fun _ => release_spec rfl rfl)
  next => exact release_spec rfl rfl

theorem tell_spec {pos : ℤ} : discipline.wpCode (tell p fd pos) Free E ∅ := by
  unfold tell
  refine bind_spec (acquire_spec rfl (bind_spec (fileCheckLoop_spec ?_)))
  intro f
  split
  next => exact release_return_spec rfl
  next => exact release_return_spec rfl

/-- What `syscall_handler` does with the result of a call does not matter. -/
theorem handler_spec {β : Type} {x : Code β} {g : β → α} (h : discipline.wpCode x Free E held) :
    discipline.wpCode (do return g (← x)) Free E held := bind_spec h

theorem handler_ops {β : Type} {x : Code β} {g : β → α} :
    (do return g (← x) : Code α).ops = x.ops := by
  show (x.andThen _).ops = _
  unfold Code.andThen
  cases x.result with
  | none => rfl
  | some b => exact List.append_nil _

theorem syscallHandler_spec (h : ¬ c.Slips) :
    discipline.wp (syscallHandler p c).ops (· = ∅) ∅ := by
  have hspec : discipline.wpCode (syscallHandler p c) Free (· = ∅) ∅ := by
    cases c with
    | create file initialSize created => exact handler_spec (create_spec rfl)
    | remove file removed => exact handler_spec (remove_spec rfl)
    | «open» file opened malloc => exact handler_spec (openFile_spec rfl h)
    | filesize fd length => exact handler_spec filesize_spec
    | read fd buffer size faults => exact handler_spec (read_spec rfl)
    | write fd buffer size faults written => exact handler_spec (write_spec rfl h)
    | seek fd position => exact handler_spec seek_spec
    | tell fd pos => exact handler_spec tell_spec
  unfold Discipline.wpCode at hspec
  cases hres : (syscallHandler p c).result with
  | none => rwa [hres] at hspec
  | some a => rwa [hres] at hspec

/-! ## One acquisition -/

/-- The code does not acquire `LOCK`. -/
def Quiet (x : Code α) : Prop := .acquire .lock ∉ x.ops

/-- The code acquires `LOCK` at most once. -/
def Once (x : Code α) : Prop := x.ops.count (.acquire .lock) ≤ 1

section

variable {β : Type} {x : Code β} {f : β → Code α} {a : α}

theorem Quiet.once {x : Code α} (h : Quiet x) : Once x := by
  unfold Once
  rw [List.count_eq_zero_of_not_mem h]
  exact Nat.zero_le 1

theorem Quiet.bind (hx : Quiet x) (hf : ∀ b, Quiet (f b)) : Quiet (x >>= f) := by
  show .acquire .lock ∉ (x.andThen f).ops
  unfold Code.andThen
  cases x.result with
  | none => exact hx
  | some b =>
      intro hmem
      rcases List.mem_append.mp hmem with hmem | hmem
      · exact hx hmem
      · exact hf b hmem

theorem Quiet.bind_once (hx : Quiet x) (hf : ∀ b, Once (f b)) : Once (x >>= f) := by
  show (x.andThen f).ops.count _ ≤ 1
  unfold Code.andThen
  cases x.result with
  | none => exact hx.once
  | some b =>
      show (x.ops ++ (f b).ops).count _ ≤ 1
      rw [List.count_append, List.count_eq_zero_of_not_mem hx, Nat.zero_add]
      exact hf b

theorem acquire_once {f : Unit → Code α} (hf : Quiet (f ())) : Once (lockAcquire >>= f) := by
  show (.acquire .lock :: (f ()).ops).count _ ≤ 1
  rw [List.count_cons_self, List.count_eq_zero_of_not_mem hf]

theorem quiet_pure : Quiet (pure a : Code α) := List.not_mem_nil

theorem quiet_stop : Quiet (.stop : Code α) := by
  intro hmem
  cases List.mem_singleton.mp hmem

theorem quiet_release : Quiet lockRelease := by
  intro hmem
  cases List.mem_singleton.mp hmem

theorem quiet_release_return : Quiet (do lockRelease; return a : Code α) :=
  quiet_release.bind fun _ => quiet_pure

theorem quiet_access : Quiet (access faults) := by
  cases faults with
  | false => exact quiet_pure
  | true => exact quiet_stop

theorem quiet_strlen : Quiet (strlen file) := by
  unfold strlen
  split
  next => exact quiet_stop
  next => exact quiet_pure

theorem quiet_checkAddress : Quiet (checkAddress file) := by
  unfold checkAddress
  split
  next => exact List.not_mem_nil
  next =>
    apply quiet_strlen.bind
    intro n
    split
    next => exact List.not_mem_nil
    next => exact quiet_pure

theorem quiet_fileCheckLoop {files : List ProcessFile} : Quiet (fileCheckLoop fd files) := by
  fun_induction fileCheckLoop fd files with
  | case1 => exact quiet_pure
  | case2 => exact quiet_pure
  | case3 => exact quiet_stop
  | case4 _ _ _ _ ih => exact ih

theorem create_once {initialSize : UInt32} {created : Bool} :
    Once (create file initialSize created) := by
  unfold create
  refine quiet_checkAddress.bind_once fun _ => acquire_once ?_
  dsimp only
  split
  next =>
    apply quiet_strlen.bind
    intro n
    split
    next => exact quiet_release_return
    next =>
      apply quiet_strlen.bind
      intro n
      split
      next => exact quiet_release_return
      next => exact quiet_release_return
  next => exact quiet_release_return

theorem openFile_once {opened : Option FilePtr} : Once (openFile p file opened malloc) := by
  unfold openFile
  refine quiet_checkAddress.bind_once fun _ => acquire_once (quiet_strlen.bind fun n => ?_)
  have hadd : Quiet (do let added ← processFileAdd p opened malloc; lockRelease; return added) :=
    (quiet_access.bind fun _ => quiet_pure).bind fun _ => quiet_release_return
  split
  next => exact quiet_pure
  next =>
    dsimp only
    split
    next => exact quiet_release.bind fun _ => hadd
    next => exact hadd

theorem filesize_once {length : ℤ} : Once (filesize p fd length) := by
  unfold filesize
  apply acquire_once
  split
  next => exact quiet_release_return
  next => exact quiet_release_return

theorem read_once {buffer : Vaddr} {size : UInt32} : Once (read fd buffer size faults) := by
  unfold read
  dsimp only
  split
  next => exact Nat.zero_le 1
  next =>
    apply acquire_once
    split
    next => exact quiet_access.bind fun _ => quiet_release_return
    next => exact quiet_release_return

theorem write_once {buffer : Vaddr} {size : UInt32} {written : ℤ} :
    Once (write p fd buffer size faults written) := by
  unfold write
  dsimp only
  split
  next => exact Nat.zero_le 1
  next =>
    apply acquire_once
    split
    next => exact quiet_access.bind fun _ => quiet_pure
    next =>
      apply quiet_fileCheckLoop.bind
      intro f
      split
      next => exact quiet_release_return
      next => exact quiet_access.bind fun _ => quiet_release_return

theorem seek_once {position : UInt32} : Once (seek p fd position) := by
  unfold seek
  refine acquire_once (quiet_fileCheckLoop.bind ?_)
  intro f
  dsimp only
  split
  next => exact quiet_access.bind fun _ => quiet_release
  next => exact quiet_release

theorem tell_once {pos : ℤ} : Once (tell p fd pos) := by
  unfold tell
  refine acquire_once (quiet_fileCheckLoop.bind ?_)
  intro f
  split
  next => exact quiet_release_return
  next => exact quiet_release_return

theorem handler_once {g : β → α} (h : Once x) : Once (do return g (← x)) := by
  unfold Once
  rw [handler_ops]
  exact h

/-- No call acquires `LOCK` twice. -/
theorem syscallHandler_once : Once (syscallHandler p c) := by
  cases c with
  | create file initialSize created => exact handler_once create_once
  | remove file removed =>
      exact handler_once (quiet_checkAddress.bind_once fun _ => acquire_once quiet_release_return)
  | «open» file opened malloc => exact handler_once openFile_once
  | filesize fd length => exact handler_once filesize_once
  | read fd buffer size faults => exact handler_once read_once
  | write fd buffer size faults written => exact handler_once write_once
  | seek fd position => exact handler_once seek_once
  | tell fd pos => exact handler_once tell_once

end

/-! ## The calls that lose the balance -/

theorem checkAddress_valid {n : UInt32} (h : file.Valid n) : checkAddress file = pure () := by
  unfold checkAddress strlen
  rw [h.1, h.2.1]
  show (if validaddr file.addr n = false then threadExit else pure ()) = _
  rw [h.2.2]
  rfl

theorem strlen_valid {n : UInt32} (h : file.Valid n) : strlen file = pure n := by
  unfold strlen
  rw [h.2.1]

theorem openFile_empty_ops {opened : Option FilePtr} (h : file.Valid 0) :
    (openFile p file opened malloc).ops = [.acquire .lock] := by
  unfold openFile
  rw [checkAddress_valid h, strlen_valid h]
  rfl

theorem openFile_missing_ops {n : UInt32} (h : file.Valid n) (hn : n ≠ 0) :
    (openFile p file none true).ops = [.acquire .lock, .release .lock, .release .lock] := by
  unfold openFile
  rw [checkAddress_valid h, strlen_valid h]
  show (.acquire .lock :: Code.ops (if n = 0 then _ else _) : List Op) = _
  rw [if_neg hn]
  rfl

theorem write_console_ops {buffer : Vaddr} {size : UInt32} {written : ℤ}
    (h : validaddr buffer size = true) :
    (write p 1 buffer size false written).ops = [.acquire .lock] := by
  unfold write
  rw [h]
  rfl

/-- A call that is left with `LOCK`. -/
theorem unbalanced_of_kept {x : Code α} (h : x.ops = [.acquire .lock]) : ¬ Balanced x := by
  intro hb
  have hreturns := hb.returns
  rw [h] at hreturns
  exact hreturns ⟨Finset.notMem_empty _, trivial⟩ (Finset.mem_insert_self ..)

/-- A call that releases `LOCK` twice. -/
theorem unbalanced_of_twice {x : Code α}
    (h : x.ops = [.acquire .lock, .release .lock, .release .lock]) : ¬ Balanced x := by
  intro hb
  have hpass : Passes ∅ ([.acquire .lock, .release .lock] : List Op) :=
    ⟨Finset.notMem_empty _, Finset.mem_insert_self .., trivial⟩
  have hheld := hb.releases [.acquire .lock, .release .lock] [] h hpass
  revert hheld
  decide

theorem Call.Slips.unbalanced (h : c.Slips) : ¬ Balanced (syscallHandler p c) := by
  cases c with
  | «open» file opened malloc =>
      obtain ⟨n, hn, hcase⟩ := h
      by_cases hzero : n = 0
      · subst hzero
        exact unbalanced_of_kept (handler_ops.trans (openFile_empty_ops hn))
      · obtain ⟨rfl, rfl⟩ := hcase.resolve_left hzero
        exact unbalanced_of_twice (handler_ops.trans (openFile_missing_ops hn hzero))
  | write fd buffer size faults written =>
      obtain ⟨haddr, rfl, rfl⟩ := h
      exact unbalanced_of_kept (handler_ops.trans (write_console_ops haddr))
  | _ => exact h.elim

/-- A call keeps the balance unless it is one of those. -/
theorem balanced_iff : Balanced (syscallHandler p c) ↔ ¬ c.Slips := by
  constructor
  · intro hb hs
    exact hs.unbalanced hb
  · intro hs
    have hspec := syscallHandler_spec (p := p) hs
    refine ⟨syscallHandler_once, ?_, ?_⟩
    · intro pre post hops hpass
      rw [hops] at hspec
      have hdemands := Discipline.demands_of_passes (fun _ _ hp => hp) hspec hpass
      exact hdemands (by rintro ⟨⟩)
    · intro hpass
      have hend : heldAfter ∅ (syscallHandler p c).ops = ∅ :=
        Discipline.post_of_passes (fun _ _ hp => hp) hspec hpass
      rw [hend]
      exact Finset.notMem_empty _

/-! ## Runs -/

/-- A system call of a process. -/
abbrev Activity := Process × Call

def Activity.ops (a : Activity) : List Op := (syscallHandler a.1 a.2).ops

abbrev State := Sync.State Tid Lock Unit

abbrev Label := Sync.Label Tid Activity

/-- The step relation of the threads. -/
def Step (s : State) (a : Label) (s' : State) : Prop := Sync.Step Activity.ops s a s'

/-- Calls that do not slip keep the discipline. -/
theorem obeys_of_run {as : List Label} {s : State} (h : Lts.Run Step init as s)
    (hslips : ∀ t a, .call t a ∈ as → ¬ a.2.Slips) : s.Obeys discipline := by
  refine h.invariant_of_mem (fun s a s' ha hstep hobeys => ?_) obeys_init
  refine hobeys.step hstep (fun t x hcall => ?_) fun t op ops _ _ hen => proceeds_of_enabled hen
  subst hcall
  exact syscallHandler_spec (hslips t x ha)

/-- A thread with `LOCK` is in the middle of a call, and unless it has been stopped it
can go on. -/
theorem Obeys.holder {s : State} {t : Tid} (h : s.Obeys discipline)
    (hheld : s.holder .lock = some t) :
    ∃ op ops, s.rest t = op :: ops ∧ (op.Enabled s.holder t ∨ op = .stop) := by
  have hmem : Lock.lock ∈ s.heldBy t := mem_heldBy.mpr hheld
  cases hrest : s.rest t with
  | nil =>
      rw [h.idle hrest] at hmem
      cases hmem
  | cons op ops =>
      refine ⟨op, ops, rfl, ?_⟩
      have hdemands := h.demands hrest
      cases op with
      | acquire l =>
          cases l
          exact absurd hmem (hdemands (by rintro ⟨⟩))
      | release l =>
          cases l
          exact .inl hheld
      | reach _ => exact .inl trivial
      | stop => exact .inr rfl

/-- A call keeps the balance of `LOCK` unless it opens the empty name or a file that
does not exist, or writes to the console. In a run without such calls, `LOCK` is held
only by a thread in the middle of a call. -/
theorem lock_balanced (p : Process) (c : Call) : (Balanced (syscallHandler p c) ↔ ¬ c.Slips) ∧
    ∀ as s, Lts.Run Step init as s → (∀ t a, .call t a ∈ as → ¬ a.2.Slips) →
      ∀ t, s.holder .lock = some t →
        ∃ op ops, s.rest t = op :: ops ∧ (op.Enabled s.holder t ∨ op = .stop) :=
  ⟨balanced_iff, fun _ _ h hslips _ hheld => Obeys.holder (obeys_of_run h hslips) hheld⟩

/-- A process without open files. -/
def noFiles : Process := { fileList := [], fd := 2 }

/-- `write (1, buffer, 4)`. -/
def consoleWrite : Call := .write 1 0x8050000 4 false 0

/-- Thread 1 calls `write` and returns; then thread 2 calls `filesize`. -/
def keptRun : List Label :=
  [.call 1 (noFiles, consoleWrite), .run 1, .call 2 (noFiles, .filesize 2 0)]

/-- A `write` to the console and an `open` of the empty name return with `LOCK`, and an
`open` of a file that does not exist releases it twice. Thread 1 has returned with `LOCK`,
for which thread 2 waits. -/
theorem lock_unbalanced :
    ¬ Balanced (syscallHandler noFiles consoleWrite) ∧
      ¬ Balanced (syscallHandler noFiles (.open ⟨0x8050000, some 0⟩ none true)) ∧
      ¬ Balanced (syscallHandler noFiles (.open ⟨0x8050000, some 3⟩ none true)) ∧
      ∃ s, Lts.Run Step init keptRun s ∧ s.rest 1 = [] ∧ s.WaitsFor 2 1 := by
  refine ⟨?_, ?_, ?_, ?_⟩
  · exact Call.Slips.unbalanced ⟨by decide, rfl, rfl⟩
  · exact Call.Slips.unbalanced ⟨0, ⟨by decide, rfl, by decide⟩, .inl rfl⟩
  · exact Call.Slips.unbalanced ⟨3, ⟨by decide, rfl, by decide⟩, .inr ⟨rfl, rfl⟩⟩
  · have hrun : (keptRun.foldlM (Sync.next Activity.ops) init).toOption.map (fun s => decide
        (s.rest 1 = [] ∧ s.holder .lock = some 1 ∧ (s.rest 2).head? = some (.acquire .lock))) =
        some true := by decide
    rcases hk : keptRun.foldlM (Sync.next Activity.ops) init with err | s
    · rw [hk] at hrun
      cases hrun
    · rw [hk] at hrun
      obtain ⟨hrest, hheld, hhead⟩ := of_decide_eq_true (Option.some.inj hrun)
      obtain ⟨ops, hwants⟩ := List.head?_eq_some_iff.mp hhead
      exact ⟨s, Lts.run_of_foldlM _ hk, hrest, .lock, ⟨ops, hwants⟩, hheld⟩

/-- Thread 1 is in a `create` when thread 2 calls `filesize`. -/
def createRun : List Label :=
  [.call 1 (noFiles, .create ⟨0x8050000, some 3⟩ 100 true), .run 1,
   .call 2 (noFiles, .filesize 2 0)]

theorem lock_balanced_run : Balanced (syscallHandler noFiles (.tell 2 0)) ∧
    ∃ s, Lts.Run Step init createRun s ∧ s.holder .lock = some 1 ∧
      ∃ op ops, s.rest 1 = op :: ops ∧ (op.Enabled s.holder 1 ∨ op = .stop) := by
  obtain ⟨hbalanced, hruns⟩ := lock_balanced noFiles (.tell 2 0)
  refine ⟨hbalanced.mpr id, ?_⟩
  have hrun : (createRun.foldlM (Sync.next Activity.ops) init).toOption.map (fun s => decide
      (s.holder .lock = some 1)) = some true := by decide
  rcases hk : createRun.foldlM (Sync.next Activity.ops) init with err | s
  · rw [hk] at hrun
    cases hrun
  · rw [hk] at hrun
    have hheld : s.holder .lock = some 1 := of_decide_eq_true (Option.some.inj hrun)
    have hreach : Lts.Run Step init createRun s := Lts.run_of_foldlM _ hk
    refine ⟨s, hreach, hheld, hruns _ _ hreach (fun t a ha => ?_) 1 hheld⟩
    simp only [createRun, List.mem_cons, Label.call.injEq, reduceCtorEq, List.not_mem_nil,
      or_false, false_or] at ha
    obtain ⟨-, rfl⟩ | ⟨-, rfl⟩ := ha
    · exact id
    · exact id

end Pintos.Project2
