import Vextro.Model.Signals
import Mathlib.Tactic.Common

/-! When a thread comes back from a signal handler as it was.

The frame holds every register, and the way back takes all of them out again but two: SYSRETQ
finds the address to return to in RCX and the flags in R11. -/

namespace Vextro.Signals

variable {m m' : UserMem} {va tramp : Word} {i sig : ℕ} {g g' : Sig} {r r' : Regs}

/-! ## What is written is read back -/

theorem UserMem.write_word {n : ℕ} {f : ℕ → Word} (hi : i < n) (hn : 8 * n < 2 ^ 64) :
    (m.write va n f).word (va + BitVec.ofNat 64 (8 * i)) = f i := by
  have hd : (va + BitVec.ofNat 64 (8 * i) - va).toNat = 8 * i := by
    rw [BitVec.add_comm, BitVec.add_sub_cancel, BitVec.toNat_ofNat, Nat.mod_eq_of_lt (by omega)]
  unfold UserMem.write
  dsimp only
  rw [hd, if_pos (by omega), Nat.mul_div_cancel_left i (by omega)]

/-- The return address is the word below the frame. -/
theorem UserMem.write_below {f : ℕ → Word} (hi : 8 * i + 8 < 2 ^ 64) :
    (m.write (va - 8) 1 f).word (va + BitVec.ofNat 64 (8 * i)) = m.word
      (va + BitVec.ofNat 64 (8 * i)) := by
  have hd : (va + BitVec.ofNat 64 (8 * i) - (va - 8)).toNat = 8 * i + 8 := by
    have heq : va + BitVec.ofNat 64 (8 * i) - (va - 8) = BitVec.ofNat 64 (8 * i + 8) := by
      have h8 : (8 : Word).toNat = 8 := rfl
      apply BitVec.eq_of_toNat_eq
      simp only [BitVec.toNat_sub, BitVec.toNat_add, BitVec.toNat_ofNat]
      omega
    rw [heq, BitVec.toNat_ofNat, Nat.mod_eq_of_lt hi]
  unfold UserMem.write
  dsimp only
  rw [if_neg (by omega)]

/-- The words of the frame at `va` are the same in both memories. -/
def FrameKept (va : Word) (m m' : UserMem) : Prop :=
  ∀ i < frameWords, m'.word (va + BitVec.ofNat 64 (8 * i)) = m.word (va + BitVec.ofNat 64 (8 * i))

/-- What `vls_build_frame` leaves: the frame above the handler's stack pointer, and the block where
it was, with its records. -/
theorem vlsBuildFrame_spec (h : vlsBuildFrame tramp g m sig r = some (g', m', r')) :
    (g'.addr = g.addr ∧ g'.child = g.child) ∧ r'.rsp + 8 = frameVa r ∧
    userRangeOk (frameVa r) frameSize ∧
      ∀ i < frameWords, m'.word (frameVa r + BitVec.ofNat 64 (8 * i)) = sigframe g sig r i := by
  unfold vlsBuildFrame at h
  dsimp only at h
  split at h
  · exact absurd h (by simp)
  split at h
  · exact absurd h (by simp)
  split at h
  · exact absurd h (by simp)
  rename_i hmapped
  generalize (if (g.act sig).flags &&& saRestorer ≠ 0 ∧ (g.act sig).restorer ≠ 0
    then (g.act sig).restorer else tramp) = retTo at h
  split at h
  · exact absurd h (by simp)
  split at h
  · exact absurd h (by simp)
  obtain ⟨rfl, rfl, rfl⟩ := h
  have hok : m.rangeMapped (frameVa r) frameSize true := by
    simpa using hmapped
  refine ⟨by split <;> exact ⟨rfl, rfl⟩, BitVec.sub_add_cancel _ _, ?_, fun i hi => ?_⟩
  · exact (Bool.and_eq_true_iff.mp hok).1
  · have hi' : i < 142 := hi
    rw [UserMem.write_below (by omega), UserMem.write_word hi (by decide)]

/-- A handler is entered on a frame of the registers and the mask the dispatch was given. -/
theorem vlsSignalDispatch_handler (h : vlsSignalDispatch tramp g m r = (g', .handler m' r')) :
    ∃ g₀ sig g₁, g₀.blocked = g.blocked ∧ vlsBuildFrame tramp g₀ m sig r = some (g₁, m', r') := by
  fun_induction vlsSignalDispatch tramp g m r with
  | case1 => simp at h
  | case2 => simp at h
  | case3 g sig hsig hd taken hun hign ih => exact ih h
  | case4 => simp at h
  | case5 => simp at h
  | case6 g sig hsig hd taken hun hign hdfl hok g₁ m₁ r₁ hbuild =>
    obtain ⟨-, rfl, rfl⟩ := h
    exact ⟨taken, sig, g₁, rfl, hbuild⟩
  | case7 => simp at h

theorem vlsSignalFault_blocked {addr : Word} {code : BitVec 32}
    (h : vlsSignalFault g sig addr code = some g') :
    g'.blocked = g.blocked := by
  unfold vlsSignalFault at h
  split at h
  · cases h
  split at h
  · cases h
  split at h
  · cases h
  · cases h
    rfl

/-! ## The registers that come back -/

/-- The flags a program in ring 3 can set: carry, parity, adjust, zero, sign, trap, direction,
overflow, nested task, alignment check and identification. -/
def userFlags : Word := 0x244DD5

/-- All sixteen general registers, the instruction pointer, the flags and the mask are back. -/
structure Restored (r : Regs) (g : Sig) (r' : Regs) (g' : Sig) : Prop where
  r15 : r'.r15 = r.r15
  r14 : r'.r14 = r.r14
  r13 : r'.r13 = r.r13
  r12 : r'.r12 = r.r12
  r11 : r'.r11 = r.r11
  r10 : r'.r10 = r.r10
  r9 : r'.r9 = r.r9
  r8 : r'.r8 = r.r8
  rbp : r'.rbp = r.rbp
  rdi : r'.rdi = r.rdi
  rsi : r'.rsi = r.rsi
  rdx : r'.rdx = r.rdx
  rcx : r'.rcx = r.rcx
  rbx : r'.rbx = r.rbx
  rax : r'.rax = r.rax
  rsp : r'.rsp = r.rsp
  rip : r'.rip = r.rip
  flags : r'.rflags &&& userFlags = r.rflags &&& userFlags
  blocked : g'.blocked = g.blocked

/-- What the way back needs of the registers it is to restore. -/
structure Restorable (r : Regs) : Prop where
  rip_user : userRangeOk r.rip 1 = true
  rsp_user : userRangeOk r.rsp 8 = true
  /-- RCX and R11 hold what SYSRETQ puts there. -/
  rcx : r.rcx = r.rip
  r11 : r.r11 = r.rflags &&& 0xCD5 ||| 0x202
  /-- The trap, nested-task, alignment-check and identification flags are clear. -/
  flags : r.rflags &&& 0x244100 = 0

/-- Of the flags a program can set, the way back keeps those of the arithmetic and direction. -/
theorem sysretFlags_user (w : Word) :
    sysretFlags (w &&& 0xCD5 ||| 0x202) &&& userFlags = w &&& 0xCD5 := by
  unfold sysretFlags userFlags
  simp only [BitVec.ofNat_eq_ofNat]
  have h1 : 0xCD5#64 &&& (0x3C7FD7#64 &&& 0x244DD5#64) = 0xCD5#64 := by decide
  have h2 : 0x202#64 &&& (0x3C7FD7#64 &&& 0x244DD5#64) = 0#64 := by decide
  have h3 : 0x2#64 &&& 0x244DD5#64 = 0#64 := by decide
  rw [BitVec.and_or_distrib_right, h3, BitVec.or_zero, BitVec.and_assoc,
    BitVec.and_or_distrib_right, h2, BitVec.or_zero, BitVec.and_assoc, h1]

theorem userFlags_kept {w : Word} : w &&& 0xCD5 = w &&& userFlags ↔ w &&& 0x244100 = 0 := by
  simp only [BitVec.ofNat_eq_ofNat]
  have hsplit : userFlags = 0xCD5#64 ||| 0x244100#64 := by decide
  have hapart : 0xCD5#64 &&& 0x244100#64 = 0#64 := by decide
  rw [hsplit, BitVec.and_or_distrib_left]
  constructor
  · intro h
    have h' : (w &&& 0xCD5#64) &&& 0x244100#64 =
        (w &&& 0xCD5#64 ||| w &&& 0x244100#64) &&& 0x244100#64 := congrArg (· &&& _) h
    rw [BitVec.and_or_distrib_right, BitVec.and_assoc, BitVec.and_assoc, hapart,
      BitVec.and_zero, BitVec.zero_or] at h'
    exact h'.symm
  · intro h
    rw [h, BitVec.or_zero]

/-- The mask in the frame never had the unblockable signals in it. -/
theorem setBlocked_blocked (g g' : Sig) : (g'.setBlocked g.blocked).blocked = g.blocked := by
  have h := g.unblockable_clear
  have hsplit : g.blocked = g.blocked &&& ~~~unblockable ||| g.blocked &&& unblockable := by
    rw [← BitVec.and_or_distrib_left, BitVec.not_or_self, BitVec.and_allOnes]
  rw [h] at hsplit
  exact (hsplit.trans BitVec.or_zero).symm

theorem sigframe_greg (g : Sig) (sig : ℕ) (r : Regs) (hi : i < 23) :
    sigframe g sig r (gregsAt + i) = gregs r g.blocked i := by
  have hne : ∀ k < gregsAt, gregsAt + i ≠ k := by omega
  unfold sigframe
  rw [if_neg (hne 0 (by decide)), if_neg (hne 1 (by decide)), if_neg (hne 2 (by decide)),
    if_neg (hne infoAt (by decide)), if_neg (hne (infoAt + 1) (by decide)),
    if_neg (hne (infoAt + 2) (by decide)), if_neg (hne (ucAt + 2) (by decide)),
    if_neg (hne (ucAt + 3) (by decide)), if_pos (by omega), Nat.add_sub_cancel_left]

theorem vlsSigreturn_restores {g₀ g₂ : Sig} {f : SyscallFrame}
    (hword : ∀ i < frameWords, m.word (va + BitVec.ofNat 64 (8 * i)) = sigframe g₀ sig r i)
    (hmapped : m.rangeMapped va frameSize false) :
    (∃ g₃ f₃, vlsSigreturn g₂ m f va = some (g₃, f₃) ∧ Restored r g₀ f₃.resumed g₃) ↔
    Restorable r := by
  have hgreg : ∀ i < 23, m.word (va + BitVec.ofNat 64 (8 * (gregsAt + i))) =
      gregs r g₀.blocked i := by
    intro i hi
    rw [hword _ (by simp only [gregsAt, frameWords]; omega), sigframe_greg g₀ sig r hi]
  have hmagic : m.word (va + BitVec.ofNat 64 (8 * 0)) = frameMagic := hword 0 (by decide)
  have hmask : m.word (va + BitVec.ofNat 64 (8 * 1)) = g₀.blocked := hword 1 (by decide)
  simp only [vlsSigreturn, hgreg 0 (by decide), hgreg 1 (by decide), hgreg 2 (by decide),
    hgreg 4 (by decide), hgreg 5 (by decide), hgreg 6 (by decide), hgreg 7 (by decide),
    hgreg 8 (by decide), hgreg 9 (by decide), hgreg 10 (by decide), hgreg 11 (by decide),
    hgreg 12 (by decide), hgreg 13 (by decide), hgreg 15 (by decide), hgreg 16 (by decide),
    hgreg 17 (by decide), hmagic, hmask, hmapped, gregs, Bool.not_true, Bool.false_eq_true,
    ne_eq, not_true, if_false]
  constructor
  · rintro ⟨g₃, f₃, hret, hres⟩
    split at hret
    · exact absurd hret (by simp)
    rename_i hok
    obtain ⟨rfl, rfl⟩ := hret
    simp only [Bool.or_eq_true, Bool.not_eq_true', not_or, Bool.not_eq_false] at hok
    refine ⟨hok.1, hok.2, hres.rcx.symm, hres.r11.symm, userFlags_kept.mp ?_⟩
    rw [← sysretFlags_user]
    exact hres.flags
  · intro hr
    rw [if_neg (by simp [hr.rip_user, hr.rsp_user])]
    refine ⟨_, _, rfl, ?_⟩
    constructor <;> try rfl
    · exact hr.r11.symm
    · exact hr.rcx.symm
    · exact (sysretFlags_user r.rflags).trans (userFlags_kept.mpr hr.flags)
    · exact setBlocked_blocked g₀ g₂

/-! ## Transparency -/

/-- A handler entered with `r'` on `m'` returns through the restorer, which passes the address
above its return address to `sigreturn`; the frame there is still mapped and unmodified, and the
thread comes back with `r` and the mask of `g`. -/
def ComesBack (r : Regs) (g : Sig) (m' : UserMem) (r' : Regs) : Prop :=
  ∀ (g₂ : Sig) (m₂ : UserMem) (f₂ : SyscallFrame), FrameKept (r'.rsp + 8) m' m₂ →
    m₂.rangeMapped (r'.rsp + 8) frameSize false = true →
      ∃ g₃ f₃, vlsSigreturn g₂ m₂ f₂ (r'.rsp + 8) = some (g₃, f₃) ∧ Restored r g f₃.resumed g₃

theorem comesBack_congr {g₀ : Sig} (h : g.blocked = g₀.blocked) :
    ComesBack r g m' r' ↔ ComesBack r g₀ m' r' := by
  have hswap : ∀ r'' g₃, Restored r g r'' g₃ ↔ Restored r g₀ r'' g₃ := by
    intro r'' g₃
    exact ⟨fun hr => { hr with blocked := hr.blocked.trans h },
      fun hr => { hr with blocked := hr.blocked.trans h.symm }⟩
  unfold ComesBack
  simp only [hswap]

/-- A memory like the one the handler started on, with everything mapped. -/
def UserMem.allMapped (m : UserMem) : UserMem := { m with mapped := fun _ _ _ => true }

theorem comesBack_iff (h : vlsSignalDispatch tramp g m r = (g', .handler m' r')) :
    ComesBack r g m' r' ↔ Restorable r := by
  obtain ⟨g₀, sig, g₁, hblocked, hbuild⟩ := vlsSignalDispatch_handler h
  obtain ⟨-, hrsp, hok, hword⟩ := vlsBuildFrame_spec hbuild
  rw [comesBack_congr hblocked.symm]
  unfold ComesBack
  rw [hrsp]
  constructor
  · intro hall
    have hmapped : m'.allMapped.rangeMapped (frameVa r) frameSize false := by
      simp [UserMem.rangeMapped, UserMem.allMapped, hok]
    exact (vlsSigreturn_restores (m := m'.allMapped) hword hmapped).mp
      (hall g m'.allMapped (SyscallFrame.ofRegs r) (fun _ _ => rfl) hmapped)
  · intro hr g₂ m₂ f₂ hkept hmapped
    exact (vlsSigreturn_restores (fun i hi => (hkept i hi).trans (hword i hi)) hmapped).mpr hr

/-- A signal that is caught, with room for its frame, is handed to its handler. -/
theorem vlsSignalDispatch_caught (hsig : vlsLowestPending g.ready = some sig)
    (hun : sigBit sig &&& unblockable = 0) (hign : (g.act sig).handler ≠ sigIgn)
    (hdfl : (g.act sig).handler ≠ sigDfl) (hok : userRangeOk (g.act sig).handler 1)
    (hroom : (vlsBuildFrame tramp { g with pending := g.pending &&& ~~~sigBit sig, killedBy := sig }
      m sig r).isSome = true) :
    ∃ g' m' r', vlsSignalDispatch tramp g m r = (g', .handler m' r') := by
  obtain ⟨⟨g₁, m₁, r₁⟩, hbuild⟩ := Option.isSome_iff_exists.mp hroom
  refine ⟨{ g₁ with killedBy := 0 }, m₁, r₁, ?_⟩
  rw [vlsSignalDispatch]
  split
  · rename_i hnone
    simp [hsig] at hnone
  rename_i sig' hsig'
  obtain rfl : sig = sig' := Option.some.inj (hsig.symm.trans hsig')
  simp only [hun, ne_eq, not_true, hign, hdfl, hok, hbuild, false_and, or_self, if_false,
    Bool.not_true, Bool.false_eq_true]

/-- At both delivery sites: the thread comes back as it was exactly when its RCX and R11 hold what
SYSRETQ leaves there, the flags that are not restored are clear, and it was in user space. -/
theorem signal_transparent (tramp : Word) (g g' : Sig) (m m' : UserMem) (r' : Regs) :
    (∀ (f : SyscallFrame) (ret : Word),
      syscallDeliverSignals tramp g m f ret = (g', .handler m' r') →
        (ComesBack (f.regs ret) g m' r' ↔ Restorable (f.regs ret))) ∧
      ∀ r : Regs, deliverFault tramp g m r = (g', .handler m' r') →
      (ComesBack r g m' r' ↔ Restorable r) := by
  constructor
  · intro f ret h
    unfold syscallDeliverSignals at h
    split at h
    · exact absurd h (by simp)
    · exact comesBack_iff h
  intro r h
  unfold deliverFault at h
  split at h
  · exact absurd h (by simp)
  split at h
  · exact absurd h (by simp)
  rename_i sig hsig g₁ hfault
  rw [comesBack_congr (vlsSignalFault_blocked hfault).symm]
  exact comesBack_iff h

/-- A process that catches the segmentation fault, which may be pending. -/
def catcher (pending : Word) : Sig :=
  { (Sig.fresh 1).setAct sigSegv ⟨0x5000, 0, 0, 0⟩ (by decide) with pending := pending }

def blankMem : UserMem := ⟨fun _ => 0, fun _ _ _ => true⟩

/-- A call that returns to 0x4000 with the zero and parity flags set. -/
def returning : SyscallFrame :=
  ⟨1, 2, 3, 4, 0x246, 6, 7, 8, 9, 10, 11, 12, 0x4000, 14, 15, 0x700000⟩

theorem signal_transparent_returning :
    ∃ g' m' r', syscallDeliverSignals 0x20000000 (catcher (sigBit sigSegv)) blankMem returning 0 =
      (g', .handler m' r') ∧ ComesBack (returning.regs 0) (catcher (sigBit sigSegv)) m' r' := by
  have hpending : (catcher (sigBit sigSegv)).pending ≠ 0 := by decide
  have hready : vlsLowestPending (catcher (sigBit sigSegv)).ready = some sigSegv := by
    decide +kernel
  have hcaught : ∃ g' m' r', vlsSignalDispatch 0x20000000 (catcher (sigBit sigSegv)) blankMem
      (returning.regs 0) = (g', .handler m' r') :=
    vlsSignalDispatch_caught hready (by decide +kernel) (by decide +kernel) (by decide +kernel)
      (by decide +kernel) (by decide +kernel)
  obtain ⟨g', m', r', h⟩ := hcaught
  have hdeliver : syscallDeliverSignals 0x20000000 (catcher (sigBit sigSegv)) blankMem returning 0 =
      (g', .handler m' r') := by
    unfold syscallDeliverSignals
    rw [if_neg hpending, h]
  exact ⟨g', m', r', hdeliver, ((signal_transparent _ _ _ _ _ _).1 _ _ hdeliver).mpr
    ⟨by decide, by decide, by decide, by decide, by decide⟩⟩

/-- A load from an address that is not mapped, in code that keeps a counter in RCX. -/
def counting : Regs :=
  ⟨1, 2, 3, 4, 5, 6, 7, 8, 9, 10, 11, 12, 100, 14, 15, 0x4000, 0x700000, 0x246, 0x9000, 14, 4⟩

/-- The signal state once the fault has been recorded. -/
def faulted : Sig := { (catcher 0).pend sigSegv with faultAddr := 0x9000, faultCode := 1 }

/-- The fault is handled and the frame left alone; RCX comes back as the address of the load. -/
theorem fault_loses_rcx :
    ∃ g' m' r', deliverFault 0x20000000 (catcher 0) blankMem counting = (g', .handler m' r') ∧
      ¬ ComesBack counting (catcher 0) m' r' := by
  have hready : vlsLowestPending faulted.ready = some sigSegv := by decide +kernel
  have hcaught : ∃ g' m' r',
      vlsSignalDispatch 0x20000000 faulted blankMem counting = (g', .handler m' r') :=
    vlsSignalDispatch_caught hready (by decide +kernel) (by decide +kernel) (by decide +kernel)
    (by decide +kernel) (by decide +kernel)
  obtain ⟨g', m', r', h⟩ := hcaught
  refine ⟨g', m', r', h, fun hback => ?_⟩
  have hmask : (catcher 0).blocked = faulted.blocked := rfl
  have hrestorable := (comesBack_iff h).mp ((comesBack_congr hmask).mp hback)
  exact absurd hrestorable.rcx (by decide)

end Vextro.Signals
