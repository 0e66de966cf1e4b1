import Pintos.Vm.Leaving
import Pintos.Vm.PageIn
import Pintos.Vm.ReadOnly

/-! # The kernel does not fault

In a reachable state no operation follows a pointer to something that is freed or closed,
swaps in a free slot or stores to a page it may not write: it returns, or it has run out
of swap space. The one unchecked allocation is that of a frame table entry.
-/

namespace Pintos.Vm

variable {k k' k₁ : Kernel} {t : Tid} {p : Ptr} {e : Spte} {fte : FrameTblEnt} {frame : Frame}
  {env : Env} {n : ℕ} {zero : Bool} {msg : String} {m : Machine}

/-- An access of the process to memory does not fault; a label that starts a process is
not looked at here. -/
def Act.Accesses (k : Kernel) : Act → Prop
  | .load _ _ _ _ => False
  | .userLoad t va => ∃ pte, k.pteOf t (pgRoundDown va) = some pte
  | .userStore t va _ => ∃ pte, k.pteOf t (pgRoundDown va) = some pte ∧ pte.writable = true
  | _ => True

end Pintos.Vm
