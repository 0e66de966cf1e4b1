import Pintos.Vm.Swap

/-! # frame.c

The frame table and the second-chance eviction. Locks are not part of this
model: every operation is one step. All callers of `frame_alloc` pass
`PAL_USER`; what is left of its flags is whether `PAL_ZERO` is set.
-/

namespace Pintos.Vm

/-- `add_frame_to_tbl`; a failed `malloc` is not noticed by the source. -/
def addFrameToTbl (env : Env) (k : Kernel) (t : Tid) (frame : Frame) (p : Ptr) :
    Except String Kernel :=
  if env.mallocFte then
    .ok { k with frameTblList := k.frameTblList ++ [{ frame := frame, thread := t, spte := p }] }
  else
    .error kernelBug

/-- `free_frame`; the argument may be a null pointer. -/
def freeFrame (k : Kernel) (frame : Option Frame) : Kernel :=
  match k.frameTblList.find? (fun fte => some fte.frame = frame) with
  | none => k
  | some fte =>
      pallocFreePage { k with frameTblList := k.frameTblList.erase fte } fte.frame

/-- How `evict_frame` saves the page it evicts: a dirty page of a mapping goes
back to its file, any other dirty page and every swap page to a swap slot, and
a clean page nowhere. The entry comes back as it is afterwards. -/
def savePage (k : Kernel) (fte : FrameTblEnt) (e : Spte) : Except String (Spte × Kernel) :=
  if pagedirIsDirty k fte.thread e.unusedVirtualAddress = true ∨ e.type = .swap then
    if e.type = .mmap then do
      let k ← fileWriteAt k e.file (pageByte (k.mem fte.frame)) e.readBytes.toNat e.offset.toNat
      return (e, k)
    else do
      let (index, k) ← swapOut k fte.frame
      return ({ e with type := .swap, swapIndex := index }, k)
  else
    return (e, k)

/-- The part of `evict_frame` that takes the frame away from its page. -/
def evictPage (k : Kernel) (fte : FrameTblEnt) (e : Spte) : Except String Kernel := do
  let (e, k) ← savePage k fte e
  let k := k.setSpte fte.spte (some { e with isLoaded := false })
  let k := { k with frameTblList := k.frameTblList.erase fte }
  let k := pagedirClearPage k fte.thread e.unusedVirtualAddress
  return pallocFreePage k fte.frame

/-- The loop of `evict_frame`, at the front of its second argument; behind the
end of the table it goes on at the beginning. The first argument bounds the
rounds that are followed. -/
def evictLoop : ℕ → List FrameTblEnt → Kernel → Except String Kernel
  | 0, _, _ => .error "evict_frame has not found a page yet"
  | _ + 1, [], _ => .error kernelBug
  | n + 1, fte :: rest, k => do
      let e ← deref (k.sptes fte.spte)
      let next := if rest = [] then k.frameTblList else rest
      if e.pinned then
        evictLoop n next k
      else if pagedirIsAccessed k fte.thread e.unusedVirtualAddress then
        evictLoop n next (pagedirSetAccessed k fte.thread e.unusedVirtualAddress false)
      else
        evictPage k fte e

/-- `evict_frame`. -/
def evictFrame (env : Env) (zero : Bool) (k : Kernel) : Except String (Option Frame × Kernel) := do
  let k ← evictLoop env.rounds k.frameTblList k
  return pallocGetPage env zero k

/-- The loop of `frame_alloc` around `evict_frame`. -/
def evictUntilFree (env : Env) (zero : Bool) : ℕ → Kernel → Except String (Frame × Kernel)
  | 0, _ => .error "frame_alloc has not got a frame yet"
  | n + 1, k => do
      match ← evictFrame env zero k with
      | (some frame, k) => return (frame, k)
      | (none, k) => evictUntilFree env zero n k

/-- `frame_alloc` without the entry in the table. -/
def frameGet (env : Env) (zero : Bool) (k : Kernel) : Except String (Frame × Kernel) :=
  match pallocGetPage env zero k with
  | (some frame, k) => .ok (frame, k)
  | (none, k) => evictUntilFree env zero env.rounds k

/-- `frame_alloc`, called by thread `t`. -/
def frameAlloc (env : Env) (zero : Bool) (k : Kernel) (t : Tid) (p : Ptr) :
    Except String (Frame × Kernel) := do
  let (frame, k) ← frameGet env zero k
  let k ← addFrameToTbl env k t frame p
  return (frame, k)

end Pintos.Vm
