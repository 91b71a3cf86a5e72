import Vextro.Verification.Processes.Accounts

/-! What a program cannot do with its signal state, whatever it puts in memory. -/

namespace Vextro.Processes

open Signals

inductive SigCall where
  | rtSigaction (sig : ℕ) (act : SigAction)
  | rtSigprocmask (how : ℕ) (set : Word)
  /-- Either of these with nothing to install, or with an argument that cannot be read. -/
  | query
  | rtSigreturn (m : UserMem) (f : SyscallFrame) (uptr : Word)

def SigCall.step (s : System) : SigCall → System
  | rtSigaction sig act => lRtSigaction s sig act
  | rtSigprocmask how set => lRtSigprocmask s how set
  | query => (s.vmmCurrent.bind (vlsSigOf s)).getD s
  | rtSigreturn m f uptr => (lRtSigreturn s m f uptr).1

variable {s s' : System} {a sig : ℕ}

theorem System.blocks_unblockable (s : System) (a : ℕ) (h : sig = sigKill ∨ sig = sigStop) :
    s.blocks a sig = false := by
  have hbit : sigBit sig = unblockable &&& sigBit sig := by
    rcases h with rfl | rfl <;> decide
  unfold System.blocks
  cases s.sigOf a with
  | none => rfl
  | some g =>
    have hclear : g.blocked &&& sigBit sig = 0 := by
      rw [hbit, ← BitVec.and_assoc, g.unblockable_clear]
      exact BitVec.zero_and
    simp [hclear]

theorem System.handler_unblockable (s : System) (a : ℕ) (h : sig = sigKill ∨ sig = sigStop) :
    s.handler a sig = sigDfl := by
  unfold System.handler
  cases s.sigOf a with
  | none => rfl
  | some g => exact g.uncaught sig (by rcases h with rfl | rfl <;> decide)

/-! ## The way back -/

theorem sysretFlags_fixed (w : Word) :
    sysretFlags (w &&& 0xCD5 ||| 0x202) &&& ~~~userFlags = 0x202 := by
  have hbit : ∀ (i : Fin 64) (b : Bool),
      (((b && (0xCD5 : Word).getLsbD i || (0x202 : Word).getLsbD i) &&
        (0x3C7FD7 : Word).getLsbD i || (0x2 : Word).getLsbD i) && !userFlags.getLsbD i) =
          (0x202 : Word).getLsbD i := by
    decide
  refine BitVec.eq_of_getLsbD_eq fun i hi => ?_
  rw [← hbit ⟨i, hi⟩ (w.getLsbD i), sysretFlags]
  simp only [BitVec.getLsbD_or, BitVec.getLsbD_and, BitVec.getLsbD_not, hi, decide_true,
    Bool.true_and]

theorem vlsSigreturn_spec {g g' : Sig} {m : UserMem} {f f' : SyscallFrame} {uptr : Word}
    (h : vlsSigreturn g m f uptr = some (g', f')) :
    userRangeOk f'.resumed.rip 1 ∧ userRangeOk f'.resumed.rsp 8 ∧
      f'.resumed.rflags &&& ~~~userFlags = 0x202 := by
  unfold vlsSigreturn at h
  dsimp only at h
  split at h
  · cases h
  split at h
  · cases h
  split at h
  · cases h
  rename_i hok
  cases h
  simp only [Bool.or_eq_true, Bool.not_eq_true', not_or, Bool.not_eq_false] at hok
  exact ⟨hok.1, hok.2, sysretFlags_fixed _⟩

/-! ## The calls -/

/-- After any calls the two signals are not blocked and have their default disposition, and a return
that restores a frame goes on at a user address, with a user stack and no flags but the program's
own. -/
theorem signal_state_unforged (s : System) (calls : List SigCall) :
    (∀ a sig, sig = sigKill ∨ sig = sigStop → (calls.foldl SigCall.step s).blocks a sig = false ∧
      (calls.foldl SigCall.step s).handler a sig = sigDfl) ∧
    ∀ m f uptr f', (lRtSigreturn (calls.foldl SigCall.step s) m f uptr).2 = some f' →
      userRangeOk f'.resumed.rip 1 = true ∧ userRangeOk f'.resumed.rsp 8 = true ∧
        f'.resumed.rflags &&& ~~~userFlags = 0x202 := by
  refine ⟨fun a sig h => ⟨System.blocks_unblockable _ a h, System.handler_unblockable _ a h⟩,
    fun m f uptr f' hret => ?_⟩
  unfold lRtSigreturn at hret
  split at hret
  · cases hret
  obtain ⟨⟨g', f''⟩, hbind, rfl⟩ := Option.map_eq_some_iff.mp hret
  obtain ⟨g, -, hg⟩ := Option.bind_eq_some_iff.mp hbind
  exact vlsSigreturn_spec hg

/-- A program that has a signal block, with a frame at 0x700000 that asks for every flag there
is. -/
def forger : System :=
  ⟨⟨fun _ => some ⟨some 1, 1, 4, .running, 0, 0, false, 0, 0, 0⟩, some 0, 2, 0, 0, 0, true⟩,
    fun _ => some { Space.created 1 with sig := some (.fresh 1) }, 2, 2, 9, fun _ => none,
    [], [], [], [], []⟩

def forgedMem : UserMem :=
  ⟨fun x => if x = 0x700000 then frameMagic else 0x3F7FD7, fun _ _ _ => true⟩

/-- The return is made with the flags a program may set, and a handler for SIGKILL is not kept. -/
theorem signal_state_unforged_forged :
    ((lRtSigreturn forger forgedMem returning 0x700000).2.map fun f =>
        (f.resumed.rip, f.resumed.rflags)) = some (0x3F7FD7, 0xED7) ∧
      ([SigCall.rtSigaction sigKill ⟨0x5000, 0, 0, 0⟩,
        .rtSigreturn forgedMem returning 0x700000].foldl SigCall.step forger).handler 1 sigKill =
          sigDfl :=
  ⟨rfl, ((signal_state_unforged _ _).1 1 sigKill (.inl rfl)).2⟩

end Vextro.Processes
