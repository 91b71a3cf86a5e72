import Mathlib.Logic.Function.Basic
import Mathlib.Algebra.Group.Nat.Defs

/-! A process's signals, the frame a handler runs on and the way back, after `vls_core.c`. -/

namespace Vextro.Signals

abbrev Word := BitVec 64

def vlsNsig : ℕ := 65

def sigIll : ℕ := 4
def sigBus : ℕ := 7
def sigFpe : ℕ := 8
def sigKill : ℕ := 9
def sigSegv : ℕ := 11
def sigChld : ℕ := 17
def sigCont : ℕ := 18
def sigStop : ℕ := 19
def sigWinch : ℕ := 28

def sigDfl : Word := 0
def sigIgn : Word := 1

def saSiginfo : Word := 0x00000004
def saRestorer : Word := 0x04000000
def saNodefer : Word := 0x40000000
def saResethand : Word := 0x80000000

/-- `VLS_SIGBIT` -/
def sigBit (sig : ℕ) : Word := 1#64 <<< (sig - 1)

/-- `VLS_SIG_UNBLOCKABLE` -/
def unblockable : Word := sigBit sigKill ||| sigBit sigStop

structure SigAction where
  handler : Word
  flags : Word
  restorer : Word
  mask : Word
  deriving DecidableEq

/-- A child that has ended and has not been waited for. -/
structure Child where
  pid : ℕ
  status : Int
  deriving DecidableEq

def vlsMaxChildren : ℕ := 16

/-- The signal state of a process. The two signals that cannot be blocked keep their default
disposition as well. -/
structure Sig where
  /-- Where the block is, which is also the channel its waiters are parked on. -/
  addr : ℕ
  act : ℕ → SigAction
  blocked : Word
  pending : Word
  faultAddr : Word
  faultCode : BitVec 32
  child : ℕ → Option Child
  killedBy : ℕ
  unblockable_clear : blocked &&& unblockable = 0
  uncaught : ∀ sig, sigBit sig &&& unblockable ≠ 0 → (act sig).handler = sigDfl

theorem and_not_unblockable (w : Word) : w &&& ~~~unblockable &&& unblockable = 0 := by
  rw [BitVec.and_assoc, BitVec.not_and_self]
  exact BitVec.and_zero

/-- Every store to `blocked` drops the two signals that cannot be blocked. -/
def Sig.setBlocked (g : Sig) (w : Word) : Sig :=
  { g with blocked := w &&& ~~~unblockable, unblockable_clear := and_not_unblockable w }

def Sig.pend (g : Sig) (sig : ℕ) : Sig := { g with pending := g.pending ||| sigBit sig }

/-- A block as `vls_sig_of` makes it. -/
def Sig.fresh (addr : ℕ) : Sig :=
  ⟨addr, fun _ => ⟨sigDfl, 0, 0, 0⟩, 0, 0, 0, 0, fun _ => none, 0, by simp, fun _ _ => rfl⟩

/-- Give a signal a disposition. -/
def Sig.setAct (g : Sig) (sig : ℕ) (a : SigAction)
    (ha : sigBit sig &&& unblockable ≠ 0 → a.handler = sigDfl) : Sig :=
  { g with
    act := Function.update g.act sig a
    uncaught := fun i hi => by
      by_cases h : i = sig
      · rw [h, Function.update_self]
        exact ha (h ▸ hi)
      · rw [Function.update_of_ne h]
        exact g.uncaught i hi }

def vlsDefaultIsIgnore (sig : ℕ) : Bool := sig = sigChld || sig = sigCont || sig = sigWinch

/-- `vls_sig_clone`, into the block of a child. -/
def vlsSigClone (d s : Sig) : Sig :=
  { d with
    act := s.act
    blocked := s.blocked
    unblockable_clear := s.unblockable_clear
    uncaught := s.uncaught }

def vlsSigResetForExec (g : Sig) : Sig :=
  { g with
    act := fun i => ⟨if (g.act i).handler = sigIgn then sigIgn else sigDfl, 0, 0, 0⟩
    pending := 0
    faultAddr := 0
    faultCode := 0
    killedBy := 0
    uncaught := fun i hi => by rw [g.uncaught i hi]; rfl }

/-! ## Registers -/

/-- `vls_regs_t`: the sixteen general registers, where the thread is, and what a fault adds. -/
structure Regs where
  (r15 r14 r13 r12 r11 r10 r9 r8 rbp rdi rsi rdx rcx rbx rax rip rsp rflags faultAddr trapno
    err : Word)
  deriving DecidableEq

/-- `syscall_frame_t` -/
structure SyscallFrame where
  (r15 r14 r13 r12 r11 r10 r9 r8 rbp rdi rsi rdx rcx rbx rax userRsp : Word)
  deriving DecidableEq

/-! ## User memory -/

def userMin : ℕ := 0x1000
def userSpaceEnd : ℕ := 0x800000000000

def userRangeOk (addr : Word) (len : ℕ) : Bool :=
  len = 0 || (userMin ≤ addr.toNat && addr.toNat + len ≤ userSpaceEnd)

/-- What the calling process has mapped, and the words it holds. -/
structure UserMem where
  word : Word → Word
  /-- The answer of `user_range_mapped` on a range of user addresses. -/
  mapped : Word → ℕ → Bool → Bool

def UserMem.rangeMapped (m : UserMem) (addr : Word) (len : ℕ) (write : Bool) : Bool :=
  userRangeOk addr len && m.mapped addr len write

/-- Copy `n` words out to `addr`. -/
def UserMem.write (m : UserMem) (addr : Word) (n : ℕ) (f : ℕ → Word) : UserMem :=
  { m with
    word := fun x =>
      let d := (x - addr).toNat
      if d % 8 = 0 ∧ d / 8 < n then f (d / 8) else m.word x }

/-! ## The frame -/

def frameMagic : Word := 0x564C5346524D4531

/-- The size of `vls_sigframe_t`, in words. -/
def frameWords : ℕ := 142
def frameSize : ℕ := 8 * frameWords

/-- Where `info`, `uc` and the registers in it begin, in words. -/
def infoAt : ℕ := 4
def ucAt : ℕ := 20
def gregsAt : ℕ := 25

/-- The registers in the order of `VLS_REG_R8` to `VLS_REG_CR2`. -/
def gregs (r : Regs) (blocked : Word) : ℕ → Word
  | 0 => r.r8 | 1 => r.r9 | 2 => r.r10 | 3 => r.r11
  | 4 => r.r12 | 5 => r.r13 | 6 => r.r14 | 7 => r.r15
  | 8 => r.rdi | 9 => r.rsi | 10 => r.rbp | 11 => r.rbx
  | 12 => r.rdx | 13 => r.rax | 14 => r.rcx | 15 => r.rsp
  | 16 => r.rip | 17 => r.rflags | 18 => 0 | 19 => r.err
  | 20 => r.trapno | 21 => blocked | 22 => r.faultAddr
  | _ => 0

def isFault (sig : ℕ) : Bool := sig = sigSegv || sig = sigBus || sig = sigIll || sig = sigFpe

/-- The words of the frame `vls_build_frame` lays out. -/
def sigframe (g : Sig) (sig : ℕ) (r : Regs) (i : ℕ) : Word :=
  if i = 0 then frameMagic
  else if i = 1 then g.blocked
  else if i = 2 then BitVec.ofNat 64 sig
  else if i = infoAt then BitVec.ofNat 64 sig
  else if i = infoAt + 1 then if isFault sig then g.faultCode.setWidth 64 else 0
  else if i = infoAt + 2 then if isFault sig then g.faultAddr else 0
  else if i = ucAt + 2 then r.rsp
  else if i = ucAt + 3 then 2
  else if gregsAt ≤ i ∧ i < gregsAt + 23 then gregs r g.blocked (i - gregsAt)
  else if i = gregsAt + 32 then g.blocked
  else 0

def alignDown16 (w : Word) : Word := w &&& ~~~15#64

/-- Where the frame goes: below the red zone, sixteen-aligned. -/
def frameVa (r : Regs) : Word :=
  alignDown16 (alignDown16 (r.rsp - 128) - BitVec.ofNat 64 frameSize)

/-- What the mask is while the handler runs. -/
def handlerMask (g : Sig) (sig : ℕ) : Word :=
  let m := g.blocked ||| (g.act sig).mask
  if (g.act sig).flags &&& saNodefer = 0 then m ||| sigBit sig else m

/-- The registers the handler starts with. -/
def handlerRegs (act : SigAction) (sig : ℕ) (r : Regs) : Regs :=
  let info := act.flags &&& saSiginfo ≠ 0
  { r with
    rsp := frameVa r - 8
    rip := act.handler
    rdi := BitVec.ofNat 64 sig
    rsi := if info then frameVa r + BitVec.ofNat 64 (8 * infoAt) else 0
    rdx := if info then frameVa r + BitVec.ofNat 64 (8 * ucAt) else 0
    rax := 0
    rflags := r.rflags &&& ~~~0x500#64 ||| 0x2 }

/-- `vls_build_frame`; `tramp` is the answer of `sigreturn_va`. -/
def vlsBuildFrame (tramp : Word) (g : Sig) (m : UserMem) (sig : ℕ) (r : Regs) :
    Option (Sig × UserMem × Regs) :=
  let act := g.act sig
  let sp := frameVa r - 8
  if sp.toNat < 4096 || !userRangeOk sp (frameSize + 8) then none
  else if !m.rangeMapped sp (frameSize + 8) true then none
  else if !m.rangeMapped (frameVa r) frameSize true then none
  else
    let m := m.write (frameVa r) frameWords (sigframe g sig r)
    let retTo :=
      if act.flags &&& saRestorer ≠ 0 ∧ act.restorer ≠ 0 then act.restorer else tramp
    if retTo = 0 then none
    else if !m.rangeMapped sp 8 true then none
    else
      let m := m.write sp 1 fun _ => retTo
      let g := g.setBlocked (handlerMask g sig)
      let g :=
        if act.flags &&& saResethand = 0 then g
        else g.setAct sig { act with handler := sigDfl } fun _ => rfl
      some (g, m, handlerRegs act sig r)

/-! ## Delivery -/

def vlsLowestPending (set : Word) : Option ℕ :=
  (List.range' 1 (vlsNsig - 1)).find? fun i => set &&& sigBit i ≠ 0

theorem vlsLowestPending_mem {set : Word} {sig : ℕ} (h : vlsLowestPending set = some sig) :
    set &&& sigBit sig ≠ 0 := by
  simpa using List.find?_some h

inductive Delivery where
  | none
  | handler (m : UserMem) (r : Regs)
  | fatal

/-- What may be delivered now. -/
def Sig.ready (g : Sig) : Word := g.pending &&& ~~~g.blocked ||| g.pending &&& unblockable

theorem Sig.ready_subset {g : Sig} {b : Word} (h : g.ready &&& b ≠ 0) : g.pending &&& b ≠ 0 := by
  intro h0
  apply h
  unfold Sig.ready
  have h1 : (g.pending &&& ~~~g.blocked ||| g.pending &&& unblockable) &&& b =
      (g.pending &&& b) &&& (~~~g.blocked ||| unblockable) := by
    rw [← BitVec.and_or_distrib_left, BitVec.and_assoc, BitVec.and_comm _ b, ← BitVec.and_assoc]
  rw [h1, h0]
  exact BitVec.zero_and

theorem and_not_lt {w b : Word} (h : w &&& b ≠ 0) : (w &&& ~~~b).toNat < w.toNat := by
  have hle : (w &&& ~~~b).toNat ≤ w.toNat := by
    rw [BitVec.toNat_and]
    exact Nat.and_le_left
  refine Nat.lt_of_le_of_ne hle fun heq => h ?_
  have hw : w &&& ~~~b = w := BitVec.eq_of_toNat_eq heq
  rw [← hw, BitVec.and_assoc, BitVec.not_and_self]
  exact BitVec.and_zero

/-- `vls_signal_dispatch` on a process that has signal state. -/
def vlsSignalDispatch (tramp : Word) (g : Sig) (m : UserMem) (r : Regs) : Sig × Delivery :=
  match _hsig : vlsLowestPending g.ready with
  | none => (g, .none)
  | some sig =>
    let h := (g.act sig).handler
    let taken := { g with pending := g.pending &&& ~~~sigBit sig, killedBy := sig }
    if sigBit sig &&& unblockable ≠ 0 then (taken, .fatal)
    else if h = sigIgn ∨ h = sigDfl ∧ vlsDefaultIsIgnore sig = true then
      vlsSignalDispatch tramp { taken with killedBy := 0 } m r
    else if h = sigDfl then (taken, .fatal)
    else if !userRangeOk h 1 then (taken, .fatal)
    else
      match vlsBuildFrame tramp taken m sig r with
      | some (g, m, r) => ({ g with killedBy := 0 }, .handler m r)
      | none => (taken, .fatal)
termination_by g.pending.toNat
decreasing_by exact and_not_lt (Sig.ready_subset (vlsLowestPending_mem (by assumption)))

/-- `vls_signal_fault`, on a process that has signal state. -/
def vlsSignalFault (g : Sig) (sig : ℕ) (addr : Word) (code : BitVec 32) : Option Sig :=
  if sig = 0 ∨ vlsNsig ≤ sig then none
  else if (g.act sig).handler = sigDfl ∨ (g.act sig).handler = sigIgn then none
  else if g.blocked &&& sigBit sig ≠ 0 then none
  else some { g.pend sig with faultAddr := addr, faultCode := code }

/-! ## The way back -/

/-- `vls_sigreturn`, on a frame that was entered by SYSCALL: the mask and the registers come out
of the user's frame at `uptr`. -/
def vlsSigreturn (g : Sig) (m : UserMem) (f : SyscallFrame) (uptr : Word) :
    Option (Sig × SyscallFrame) :=
  let cell (i : ℕ) := m.word (uptr + BitVec.ofNat 64 (8 * i))
  let greg (i : ℕ) := cell (gregsAt + i)
  if !m.rangeMapped uptr frameSize false then none
  else if cell 0 ≠ frameMagic then none
  else if !userRangeOk (greg 16) 1 || !userRangeOk (greg 15) 8 then none
  else some (g.setBlocked (cell 1),
    { f with
      r8 := greg 0
      r9 := greg 1
      r10 := greg 2
      r12 := greg 4
      r13 := greg 5
      r14 := greg 6
      r15 := greg 7
      rdi := greg 8
      rsi := greg 9
      rbp := greg 10
      rbx := greg 11
      rdx := greg 12
      rcx := greg 16
      userRsp := greg 15
      r11 := greg 17 &&& 0xCD5 ||| 0x202
      rax := greg 13 })

/-- What SYSRETQ leaves of the flags in R11. -/
def sysretFlags (r11 : Word) : Word := r11 &&& 0x3C7FD7 ||| 0x2

/-- The user's registers once SYSRETQ has taken the frame back. -/
def SyscallFrame.resumed (f : SyscallFrame) : Regs :=
  ⟨f.r15, f.r14, f.r13, f.r12, f.r11, f.r10, f.r9, f.r8, f.rbp, f.rdi, f.rsi, f.rdx, f.rcx, f.rbx,
    f.rax, f.rcx, f.userRsp, sysretFlags f.r11, 0, 0, 0⟩

/-! ## The two delivery sites -/

/-- The registers `syscall_deliver_signals` interrupts: the call is about to answer `ret`. -/
def SyscallFrame.regs (f : SyscallFrame) (ret : Word) : Regs :=
  ⟨f.r15, f.r14, f.r13, f.r12, f.r11, f.r10, f.r9, f.r8, f.rbp, f.rdi, f.rsi, f.rdx, f.rcx, f.rbx,
    ret, f.rcx, f.userRsp, f.r11, 0, 0, 0⟩

/-- The frame `syscall_deliver_signals` leaves for a handler. -/
def SyscallFrame.ofRegs (r : Regs) : SyscallFrame :=
  ⟨r.r15, r.r14, r.r13, r.r12, r.rflags, r.r10, r.r9, r.r8, r.rbp, r.rdi, r.rsi, r.rdx, r.rip,
    r.rbx, r.rax, r.rsp⟩

/-- `syscall_deliver_signals`, for a frame that was entered by SYSCALL. -/
def syscallDeliverSignals (tramp : Word) (g : Sig) (m : UserMem) (f : SyscallFrame) (ret : Word) :
    Sig × Delivery :=
  if g.pending = 0 then (g, .none) else vlsSignalDispatch tramp g m (f.regs ret)

/-- The signal for a processor exception, as `exception_handle` maps it. -/
def faultSignal (vector : ℕ) : Option ℕ :=
  if vector = 0 ∨ vector = 16 ∨ vector = 19 then some sigFpe
  else if vector = 1 ∨ vector = 3 then some 5
  else if vector = 6 then some sigIll
  else if vector = 17 then some sigBus
  else if vector = 4 ∨ vector = 5 ∨ vector = 13 ∨ vector = 14 then some sigSegv
  else none

/-- The `si_code` of an exception. -/
def faultCodeOf (vector : ℕ) (err : Word) : BitVec 32 :=
  if vector = 14 then if err &&& 1 = 0 then 1 else 2 else 0x80

/-- The part of `exception_handle` that offers a fault to the program. -/
def deliverFault (tramp : Word) (g : Sig) (m : UserMem) (r : Regs) : Sig × Delivery :=
  match faultSignal r.trapno.toNat with
  | none => (g, .none)
  | some sig =>
    match vlsSignalFault g sig r.faultAddr (faultCodeOf r.trapno.toNat r.err) with
    | none => (g, .none)
    | some g => vlsSignalDispatch tramp g m r

end Vextro.Signals
