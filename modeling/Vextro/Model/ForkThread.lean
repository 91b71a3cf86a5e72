import Vextro.Model.Signals

/-! The thread of a forked child and the first switch to it, after `scheduler.c`.

Of a thread only that is kept which becomes the state of the processor. -/

namespace Vextro.ForkThread

open Signals

/-- What FXSAVE64 stores. -/
abbrev FxArea := Fin 512 → UInt8

/-- A thread in ring 3: its registers, the base of FS and the extended state. -/
structure UserState where
  regs : Regs
  fsbase : Word
  fx : FxArea

/-- `thread_t` -/
structure Thread where
  /-- The trap frame that `rsp` points to. -/
  frame : Regs
  fsbase : Word
  /-- The call the thread is inside, and whether it came by SYSCALL. -/
  sframe : Option SyscallFrame
  sfast : Bool
  /-- What the last switch away from the thread has saved. -/
  fx : FxArea

/-- The control block as `sched_new` fills it, from the template of the extended state. -/
def schedNew (template : FxArea) : Thread :=
  ⟨⟨0, 0, 0, 0, 0, 0, 0, 0, 0, 0, 0, 0, 0, 0, 0, 0, 0, 0, 0, 0, 0⟩, 0, none, false, template⟩

/-- `sched_fork_thread`; `room` tells whether there is memory and a slot for the thread. -/
def schedForkThread (template : FxArea) (parent : Thread) (room : Bool) : Option Thread :=
  match parent.sframe with
  | none => none
  | some p =>
    if !parent.sfast || !room then none
    else some { schedNew template with
      frame := ⟨p.r15, p.r14, p.r13, p.r12, p.r11, p.r10, p.r9, p.r8, p.rbp, p.rdi, p.rsi, p.rdx,
        p.rcx, p.rbx, 0,
        p.rcx, p.userRsp, (p.r11 ||| 0x202) &&& ~~~0x8, 0, 0, 0⟩
      fx := parent.fx }

/-- What IRETQ in ring 0 takes of the flags in the frame. -/
def iretFlags (w : Word) : Word := w &&& 0x3D7FD5 ||| 0x2

/-- `sched_on_tick` restores the extended state of the thread it switches to, and `sched_timer_stub`
the base of FS and the registers. -/
def Thread.resumed (t : Thread) : UserState :=
  ⟨{ t.frame with rflags := iretFlags t.frame.rflags }, t.fsbase, t.fx⟩

namespace UserState

/-- The thread has entered the kernel by SYSCALL. -/
def enters (u : UserState) (t : Thread) : Thread :=
  { t with sframe := some (.ofRegs u.regs), sfast := true }

/-- The thread is back from the call, which answered `ret`. -/
def after (u : UserState) (ret : Word) : UserState :=
  ⟨{ SyscallFrame.ofRegs u.regs with rax := ret }.resumed, u.fsbase, u.fx⟩

end UserState

end Vextro.ForkThread
