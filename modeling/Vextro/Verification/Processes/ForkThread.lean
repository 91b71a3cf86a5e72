import Vextro.Model.ForkThread
import Mathlib.Tactic.Common

/-! When the child of a fork starts as its parent. -/

namespace Vextro.ForkThread

open Signals

/-- IRETQ with the child's flags and SYSRETQ with the parent's leave the same, if interrupts were on
and the resume flag was off. -/
theorem iretFlags_eq_iff (w : Word) :
    iretFlags ((w ||| 0x202) &&& ~~~0x8) = sysretFlags w ↔ w &&& 0x10200 = 0x200 := by
  have hbit : ∀ (i : Fin 64) (b : Bool),
      (((b || (0x202 : Word).getLsbD i) && !(0x8 : Word).getLsbD i) &&
        (0x3D7FD5 : Word).getLsbD i || (0x2 : Word).getLsbD i) =
      (b && (0x3C7FD7 : Word).getLsbD i || (0x2 : Word).getLsbD i) ↔
      (b && (0x10200 : Word).getLsbD i) = (0x200 : Word).getLsbD i := by
    decide
  have hext : ∀ x y : Word, x = y ↔ ∀ i : Fin 64, x.getLsbD i = y.getLsbD i := fun x y =>
    ⟨fun h i => by rw [h], fun h => BitVec.eq_of_getLsbD_eq fun i hi => h ⟨i, hi⟩⟩
  rw [hext, hext]
  refine forall_congr' fun i => ?_
  rw [BitVec.getLsbD_and, ← hbit i (w.getLsbD i), iretFlags, sysretFlags]
  simp only [BitVec.getLsbD_or, BitVec.getLsbD_and, BitVec.getLsbD_not, i.isLt, decide_true,
    Bool.true_and]

/-- A child starts with the registers its parent has after the call, the result apart, exactly when
the parent runs with interrupts on and no resume flag, has no thread pointer, and has the extended
state that was saved when it was last switched away from. -/
theorem child_starts_as_parent_iff (template : FxArea) (u : UserState) (parent : Thread)
    (pid : Word) :
    ∃ t, schedForkThread template (u.enters parent) true = some t ∧
      (t.resumed = { u.after pid with regs := { (u.after pid).regs with rax := 0 } } ↔
        u.regs.rflags &&& 0x10200 = 0x200 ∧ u.fsbase = 0 ∧ parent.fx = u.fx) := by
  refine ⟨_, rfl, ?_⟩
  rw [← iretFlags_eq_iff, eq_comm (a := u.fsbase)]
  simp only [Thread.resumed, UserState.after, UserState.enters, SyscallFrame.ofRegs,
    SyscallFrame.resumed, schedNew, UserState.mk.injEq, Regs.mk.injEq, true_and, and_true]

/-- A program with a thread pointer calls for a fork. -/
def threaded : UserState :=
  ⟨⟨1, 2, 3, 4, 5, 6, 7, 8, 9, 10, 11, 12, 13, 14, 57, 0x4000, 0x700000, 0x246, 0, 0, 0⟩, 0x600000,
    fun _ => 0⟩

theorem child_loses_thread_pointer :
    ∃ t, schedForkThread (fun _ => 0) (threaded.enters (schedNew fun _ => 0)) true = some t ∧
      (threaded.after 7).fsbase = 0x600000 ∧ t.resumed.fsbase = 0 :=
  ⟨_, rfl, rfl, rfl⟩

end Vextro.ForkThread
