import Vextro.Model.Descriptors
import Vextro.Model.MemoryCalls

/-! `SYS_FORK` as a whole: pages, descriptors, signal state and thread.

An address space has the name of the heap block of its `addr_space_t`. -/

namespace Vextro.Fork

open Descriptors (World Proc ForkAnswers)
open Paging (Machine vmmFork vmmDestroy)

structure Kernel where
  memory : Machine
  world : World

/-- `vmm_fork` answers out of the memory there is. -/
def Kernel.answers (s : Kernel) (parent : Proc) (r : ForkAnswers) : ForkAnswers :=
  { r with pages := (vmmFork s.memory s.world.nextObj parent.space).2 }

/-- `SYS_FORK`; whatever it is that fails after `vmm_fork`, the child's space is destroyed. -/
def sysFork (s : Kernel) (k : ℕ) (r : ForkAnswers) : Kernel × Option ℕ :=
  match s.world.procs k with
  | none => (s, none)
  | some parent =>
    if !r.space then (s, none)
    else
      let child := s.world.nextObj
      let memory := (vmmFork s.memory child parent.space).1
      match Descriptors.sysFork s.world k (s.answers parent r) with
      | (world, none) => ({ memory := vmmDestroy memory child, world }, none)
      | (world, some c) => ({ memory, world }, some c)

end Vextro.Fork
