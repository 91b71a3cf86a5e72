import Vextro.Model.Processes
import Vextro.Verification.Signals.Transparency
import Vextro.Verification.Threads.RoundRobin
import Vextro.Verification.Shared.Holders

/-! What the calls that send signals and report exits are made of, and address spaces with the
threads that run in them.

Each call makes a few small changes, one after the other, none of which moves a thread to
another space. The ledger of a system has the space every thread slot points to, the `refs` of
every space and the calls of `vmm_destroy`. Most calls leave it alone; the others take a step of
it. -/

namespace Vextro.Processes

open Threads Signals Option

/-- Changes, with the number of signal blocks each may take from the heap. -/
abbrev Change := ℕ → System → System → Prop

/-- One change: nobody is told anything, unless it is one of `R`. -/
inductive Act (R : Change) : Change
  | sched {s : System} {x : Sched} (h : ∀ i, x.ident i = s.sched.ident i) :
    Act R 0 s { s with sched := x }
  /-- The block stays where it is, with its records. -/
  | sig {s : System} {a : ℕ} {f : Sig → Sig}
    (hf : ∀ g, s.sigOf a = some g → (f g).addr = g.addr ∧ (f g).child = g.child) :
    Act R 0 s (s.modifySig a f)
  | block {s s' : System} {a : ℕ} (h : vlsSigOf s a = some s') : Act R 1 s s'
  | other {k : ℕ} {s s' : System} (h : R k s s') : Act R k s s'

/-- Changes that take at most so many blocks. -/
inductive Acts (R : Change) : Change
  | same (n : ℕ) (s : System) : Acts R n s s
  | after {k l n : ℕ} {s u s' : System} (h : Acts R k s u) (hact : Act R l u s') (hn : k + l ≤ n) :
    Acts R n s s'

/-- What `vls_child_exited` does. -/
inductive Tell : Change
  | record {s : System} {a : ℕ} {g : Sig} (hg : s.sigOf a = some g) (c : Child) :
    Tell 0 s { s.modifySig a (recordChild c) with
      exits := s.exits ++ (s.sigOf a).toList.map fun g => (g.addr, c) }
  | lose (s : System) (c : Child) (h : s.room = 0) : Tell 1 s { s with lost := s.lost ++ [c] }

/-- The end of a process is reported, and its block is dropped. -/
inductive Report : Change
  | report (s : System) (a : ℕ) (exitCode : Int) (killed : Bool) :
    Report 2 s (vlsReportExit s a exitCode killed)
  | drop (s : System) (a : ℕ) : Report 0 s (s.modifySpace a fun sp => { sp with sig := none })

/-- What `vls_wait4` does. -/
inductive Collect : Change
  | take (s : System) (a i : ℕ) :
    Collect 0 s (s.modifySig a fun g => { g with child := Function.update g.child i none })
  | log (s : System) (xs : List (ℕ × Child)) : Collect 0 s { s with collected := xs }
  | waits (s : System) (w : ℕ → Option Wait) : Collect 0 s { s with waits := w }

variable {R : Change} {s s' u : System} {k l a : ℕ} {g : Sig}

theorem Acts.one (h : Act R k s s') : Acts R k s s' := .after (.same 0 s) h (Nat.zero_add k).le

theorem Acts.mono (hkl : k ≤ l) (h : Acts R k s s') : Acts R l s s' := by
  cases h with
  | same => exact .same l s
  | after h hact hn => exact .after h hact (hn.trans hkl)

theorem Acts.trans (h : Acts R k s u) (h' : Acts R l u s') : Acts R (k + l) s s' := by
  induction h' with
  | same => exact h.mono (Nat.le_add_right ..)
  | after _ hact hn ih => exact .after (ih h) hact (by omega)

/-! ## Spaces -/

theorem modifySpace_map {β : Type} {p : Space → β} {f : Space → Space} (hf : ∀ sp, p (f sp) = p sp)
    (s : System) (a b : ℕ) : ((s.modifySpace a f).spaces b).map p = (s.spaces b).map p := by
  simp only [System.modifySpace]
  split
  · cases s.spaces b <;> simp [hf]
  · rfl

theorem modifySpace_sigOf {f : Space → Space} (hf : ∀ sp, (f sp).sig = sp.sig) (s : System)
    (a b : ℕ) :
    (s.modifySpace a f).sigOf b = s.sigOf b := by
  have hjoin : ∀ o : Option Space, o.bind Space.sig = (o.map Space.sig).join := by
    rintro (_ | _) <;> rfl
  rw [System.sigOf, hjoin, modifySpace_map hf, ← hjoin, System.sigOf]

/-! ## Signal blocks -/

/-- The signal block is there already, or one is allocated for the space. -/
theorem vlsSigOf_cases (h : vlsSigOf s a = some s') : (s' = s ∧ (s.sigOf a).isSome) ∨
      ∃ sp, s.spaces a = some sp ∧ sp.sig = none ∧ 0 < s.room ∧
        s' = { s.modifySpace a (fun sp => { sp with sig := some (.fresh s.nextBlock) }) with
          nextBlock := s.nextBlock + 1
          room := s.room - 1 } := by
  unfold vlsSigOf at h
  split at h
  · cases h
  rename_i sp hsp
  split at h
  · rename_i hsig
    cases h
    exact .inl ⟨rfl, by simpa [System.sigOf, hsp] using hsig⟩
  rename_i hsig
  split at h
  · cases h
  rename_i hroom
  cases h
  exact .inr ⟨sp, hsp, by simpa using hsig, Nat.pos_of_ne_zero hroom, rfl⟩

theorem vlsSigOf_sigOf (h : vlsSigOf s a = some s') (b : ℕ) :
    s'.sigOf b = if b = a then some ((s.sigOf a).getD (.fresh s.nextBlock)) else s.sigOf b := by
  rcases vlsSigOf_cases h with ⟨rfl, hsome⟩ | ⟨sp, hsp, hnone, -, rfl⟩
  · split
    · rename_i hb
      subst hb
      obtain ⟨g, hg⟩ := isSome_iff_exists.mp hsome
      rw [hg]
      rfl
    · rfl
  unfold System.sigOf System.modifySpace
  dsimp only
  split
  · rename_i hb
    subst hb
    simp [hsp, hnone]
  · rfl

theorem vlsFindProcess_some {pid : ℕ} (h : vlsFindProcess s pid = some a) :
    ∃ sp, s.spaces a = some sp := by
  rw [vlsFindProcess] at h
  split at h
  · cases h
  obtain ⟨i, -, hi⟩ := List.exists_of_findSome?_eq_some h
  obtain ⟨t, -, ht⟩ := bind_eq_some_iff.mp hi
  split at ht
  · cases ht
  obtain ⟨a', -, ha'⟩ := bind_eq_some_iff.mp ht
  split at ha'
  · rename_i hany
    cases ha'
    obtain ⟨sp, hsp, -⟩ := (any_eq_true _ _).mp hany
    exact ⟨sp, hsp⟩
  · cases ha'

/-! ## The calls -/

theorem wakeSig_acts (s : System) (a : ℕ) : Acts R 0 s (s.wakeSig a) := by
  rw [System.wakeSig]
  split
  · exact .same 0 s
  · exact .one (.sched (schedWakeChan_keeps _ _ _).2)

theorem zombify_acts (s : System) (a : ℕ) (code : Int) : Acts R 0 s (s.zombify a code) := by
  refine .one (.sched (mapThreads_keeps (fun i t => ?_) s.sched).2)
  split <;> rfl

theorem exit_acts (s : System) (code : Int) : Acts R 0 s (s.exit code) :=
  .one (.sched (schedExit_keeps code s.sched).2)

theorem postWith_acts {terminate : System → ℕ → ℕ → System}
    (ht : ∀ s a n, Acts R k s (terminate s a n)) (s : System) (a : ℕ) (sig : Int) :
    Acts R (1 + k) s (postWith terminate s a sig).1 := by
  rw [postWith]
  split_ifs
  · exact .same _ s
  · exact .same _ s
  · exact .same _ s
  split
  · exact .same _ s
  rename_i u hu
  have hsig : Acts R 1 s u := .one (.block hu)
  have hpend : Acts R 1 s (u.modifySig a fun g => g.pend sig.toNat) :=
    hsig.trans (.one (.sig fun _ _ => by exact ⟨rfl, rfl⟩))
  dsimp only
  split_ifs
  · exact hpend.trans (ht _ a sig.toNat)
  · exact hsig.mono (by omega)
  · exact hsig.mono (by omega)
  · exact (hpend.trans (ht _ a sig.toNat)).trans (wakeSig_acts _ a)
  · exact (hpend.trans (wakeSig_acts _ a)).mono (by omega)

/-- The record is lost for want of a block, or made and `SIGCHLD` posted. -/
theorem vlsChildExited_acts (s : System) (pid ppid : ℕ) (exitCode : Int) (killed : Bool) :
    Acts Tell 2 s (vlsChildExited s pid ppid exitCode killed) := by
  rw [vlsChildExited]
  split
  · exact .same _ s
  split
  · exact .same _ s
  rename_i parent hfind
  split
  · rename_i hnone
    -- a process that was found has a block, or is given one
    obtain ⟨sp, hsp⟩ := vlsFindProcess_some hfind
    simp only [vlsSigOf, hsp] at hnone
    split_ifs at hnone with _ hroom
    exact (Acts.one (.other (.lose s _ hroom))).mono (by omega)
  · rename_i u hu
    obtain ⟨g, hg⟩ : ∃ g, u.sigOf parent = some g := by
      rw [vlsSigOf_sigOf hu, if_pos rfl]
      exact ⟨_, rfl⟩
    have hrecord : Acts Tell 1 s _ := (Acts.one (.block hu)).trans
      (.one (.other (Tell.record hg ⟨pid, vlsEncodeStatus exitCode killed⟩)))
    exact (hrecord.trans (postWith_acts (fun s _ _ => .same 0 s) _ _ _)).trans
      (wakeSig_acts _ parent)

theorem vlsReportExit_acts (s : System) (a : ℕ) (exitCode : Int) (killed : Bool) :
    Acts Report 2 s (vlsReportExit s a exitCode killed) :=
  .one (.other (.report s a exitCode killed))

theorem vlsTerminate_acts (s : System) (a sig : ℕ) : Acts Report 3 s (vlsTerminate s a sig) := by
  refine .trans (.trans ?_ (vlsReportExit_acts _ a sig true)) (zombify_acts _ a _)
  cases hs : vlsSigOf s a with
  | none => exact .same _ s
  | some u => exact (Acts.one (.block hs)).trans (.one (.sig fun _ _ => by exact ⟨rfl, rfl⟩))

theorem vlsSignalPost_acts (s : System) (a : ℕ) (sig : Int) :
    Acts Report 4 s (vlsSignalPost s a sig).1 :=
  postWith_acts vlsTerminate_acts s a sig

/-- A `kill` posts to one process at most, which may end by it. -/
theorem lKill_acts (s : System) (pid sig : Int) : Acts Report 4 s (lKill s pid sig).1 := by
  rw [lKill]
  split
  · exact .same _ s
  split
  · exact .same _ s
  split
  · exact .same _ s
  split
  · split
    · exact .same _ s
    · exact vlsSignalPost_acts _ _ _
  · exact vlsSignalPost_acts _ _ _

theorem lTkill_acts (s : System) (tid : ℕ) (sig : Int) : Acts Report 4 s (lTkill s tid sig).1 := by
  rw [lTkill]
  split
  · exact .same _ s
  split
  · exact .same _ s
  · exact vlsSignalPost_acts _ _ _

theorem lRtSigaction_acts (s : System) (sig : ℕ) (act : SigAction) :
    Acts R 1 s (lRtSigaction s sig act) := by
  rw [lRtSigaction]
  split
  · exact .same _ s
  split
  · exact .same _ s
  rename_i u hu
  obtain ⟨a, -, hu⟩ := bind_eq_some_iff.mp hu
  have hsig : Acts R 1 s u := .one (.block hu)
  split
  · exact hsig
  split
  · exact hsig
  · exact hsig.trans (.one (.sig fun _ _ => by exact ⟨rfl, rfl⟩))

theorem lRtSigprocmask_acts (s : System) (how : ℕ) (set : Word) :
    Acts R 1 s (lRtSigprocmask s how set) := by
  rw [lRtSigprocmask]
  split
  · exact .same _ s
  rename_i u hu
  obtain ⟨a, -, hu⟩ := bind_eq_some_iff.mp hu
  refine (Acts.one (.block hu)).trans (.one (.sig fun g _ => ?_))
  split_ifs <;> exact ⟨rfl, rfl⟩

theorem cloneSig_acts {parent : Space} {c : ℕ} (h : cloneSig s parent c = some s') :
    Acts R 1 s s' := by
  rw [cloneSig] at h
  split at h
  · cases h
    exact .same _ s
  · obtain ⟨u, hu, rfl⟩ := map_eq_some_iff.mp h
    exact (Acts.one (.block hu)).trans (.one (.sig fun _ _ => by exact ⟨rfl, rfl⟩))

theorem sysExit_acts (s : System) (code : Int) : Acts Report 2 s (sysExit s code) := by
  rw [sysExit]
  cases s.vmmCurrent with
  | none => exact (exit_acts s code).mono (by omega)
  | some a => exact (vlsReportExit_acts s a code false).trans (exit_acts _ code)

theorem sysThreadExit_acts (s : System) (code : Int) : Acts Report 2 s (sysThreadExit s code) := by
  rw [sysThreadExit]
  split
  · exact (exit_acts s code).mono (by omega)
  split
  · exact (vlsReportExit_acts _ _ _ _).trans (exit_acts _ code)
  · exact (exit_acts s code).mono (by omega)

theorem sysExitGroup_acts (s : System) (code : Int) : Acts Report 2 s (sysExitGroup s code) := by
  rw [sysExitGroup]
  split
  · exact (exit_acts s code).mono (by omega)
  · exact ((zombify_acts s _ code).trans (vlsReportExit_acts _ _ _ _)).trans (exit_acts _ code)

theorem vlsSignalDispatch_keeps (tramp : Word) (g : Sig) (m : UserMem) (r : Regs) :
    (vlsSignalDispatch tramp g m r).1.addr = g.addr ∧
    (vlsSignalDispatch tramp g m r).1.child = g.child := by
  fun_induction vlsSignalDispatch tramp g m r with
  | case1 => exact ⟨rfl, rfl⟩
  | case2 => exact ⟨rfl, rfl⟩
  | case3 g sig hsig hd taken hun hign ih => exact ih
  | case4 => exact ⟨rfl, rfl⟩
  | case5 => exact ⟨rfl, rfl⟩
  | case6 g sig hsig hd taken hun hign hdfl hok g₁ m₁ r₁ hbuild =>
    exact (vlsBuildFrame_spec hbuild).1
  | case7 => exact ⟨rfl, rfl⟩

theorem syscallDeliverSignals_keeps (tramp : Word) (g : Sig) (m : UserMem) (f : SyscallFrame)
    (ret : Word) : (syscallDeliverSignals tramp g m f ret).1.addr = g.addr ∧
      (syscallDeliverSignals tramp g m f ret).1.child = g.child := by
  rw [syscallDeliverSignals]
  split
  · exact ⟨rfl, rfl⟩
  · exact vlsSignalDispatch_keeps _ _ _ _

theorem vlsSignalFault_keeps {g' : Sig} {sig : ℕ} {addr : Word} {code : BitVec 32}
    (h : vlsSignalFault g sig addr code = some g') : g'.addr = g.addr ∧ g'.child = g.child := by
  rw [vlsSignalFault] at h
  split at h
  · cases h
  split at h
  · cases h
  split at h
  · cases h
  · cases h
    exact ⟨rfl, rfl⟩

theorem deliverFault_keeps (tramp : Word) (g : Sig) (m : UserMem) (r : Regs) :
    (deliverFault tramp g m r).1.addr = g.addr ∧ (deliverFault tramp g m r).1.child = g.child := by
  rw [deliverFault]
  split
  · exact ⟨rfl, rfl⟩
  split
  · exact ⟨rfl, rfl⟩
  rename_i g' hfault
  obtain ⟨haddr, hchild⟩ := vlsSignalFault_keeps hfault
  obtain ⟨haddr', hchild'⟩ := vlsSignalDispatch_keeps tramp g' m r
  exact ⟨haddr'.trans haddr, hchild'.trans hchild⟩

theorem deliverSignals_acts (s : System) (tramp : Word) (m : UserMem) (f : SyscallFrame)
    (ret : Word) : Acts Report 2 s (deliverSignals s tramp m f ret) := by
  rw [deliverSignals]
  split
  · exact .same _ s
  rename_i a _
  split
  · exact .same _ s
  rename_i g hg
  have hsig : Acts Report 0 s
      (s.modifySig a fun _ => (syscallDeliverSignals tramp g m f ret).1) := by
    refine .one (.sig fun g' hg' => ?_)
    obtain rfl : g = g' := some.inj (hg.symm.trans hg')
    exact syscallDeliverSignals_keeps tramp g m f ret
  dsimp only
  split
  · exact ((hsig.trans (vlsReportExit_acts _ a _ true)).trans (zombify_acts _ a _)).trans
      (exit_acts _ _)
  · exact hsig.mono (by omega)

theorem userFault_acts (s : System) (tramp : Word) (m : UserMem) (r : Regs) (tried : Bool) :
    Acts R 0 s (userFault s tramp m r tried) := by
  have hended : ∀ s : System, Acts R 0 s (if tried then s else s.exit (-1)) := by
    intro s
    split
    · exact .same 0 s
    · exact exit_acts s _
  rw [userFault]
  dsimp only
  split
  · exact .same 0 s
  rename_i a _
  split
  · exact hended s
  rename_i g hg
  have hsig : Acts R 0 s (s.modifySig a fun _ => (deliverFault tramp g m r).1) := by
    refine .one (.sig fun g' hg' => ?_)
    obtain rfl : g = g' := some.inj (hg.symm.trans hg')
    exact deliverFault_keeps tramp g m r
  split
  · exact hsig
  · exact hsig.trans (hended _)

theorem appReaped_acts (s : System) (t : Thread) (a : ℕ) : Acts Report 2 s (appReaped s t a) := by
  rw [appReaped]
  split
  · exact (vlsReportExit_acts s a _ _).trans (.one (.other (.drop _ a)))
  · exact .same _ s

theorem wait4Round_acts (s : System) (a me : ℕ) (want : Int) (status : Option Bool)
    (nohang : Bool) : Acts Collect 0 s (wait4Round s a me want status nohang).1 := by
  rw [wait4Round]
  split
  · exact .same 0 s
  split
  · rename_i i c _
    have htake : Acts Collect 0 s _ := .one (.other (.take s a i))
    dsimp only
    split
    · exact htake
    · exact htake.trans (.one (.other (.log _ _)))
  split
  · exact .same 0 s
  split
  · exact .same 0 s
  · exact (Acts.one (.sched (schedBlockOn_keeps _ _ _).2)).trans (.one (.other (Collect.waits _ _)))

theorem vlsWait4_acts (s : System) (pid : Int) (status : Option Bool) (nohang rusage : Bool) :
    Acts Collect 1 s (vlsWait4 s pid status nohang rusage).1 := by
  rw [vlsWait4]
  split
  · exact .same 1 s
  split
  · exact .same 1 s
  split
  · exact .same 1 s
  split
  · exact .same 1 s
  split
  · exact .same 1 s
  · rename_i hu
    exact (Acts.one (.block hu)).trans (wait4Round_acts _ _ _ _ _ _)

theorem wait4Resume_acts (s : System) (writable : Bool) :
    Acts Collect 0 s (wait4Resume s writable).1 := by
  have hback : Acts Collect 0 s { s with
      sched := schedBlockOnReturn s.sched
      waits := fun i => if s.sched.cur = some i then none else s.waits i } :=
    (Acts.one (.sched (schedBlockOnReturn_keeps s.sched).2)).trans
      (.one (.other (Collect.waits _ _)))
  rw [wait4Resume]
  split
  · exact .same 0 s
  dsimp only
  split
  · exact hback
  · exact hback.trans (wait4Round_acts _ _ _ _ _ _)

/-! ## The ledger -/

open Function (comp_update update update_eq_self update_idem)
open Holders

variable {x : Sched} {i : ℕ} {sp : Space}

def System.ledger (s : System) : Ledger where
  owner i := (s.sched.threads i).bind Thread.as
  refs a := (s.spaces a).map Space.refs
  next := s.nextSpace
  released := s.destroyed

/-! ## Calls that leave the ledger alone -/

theorem ledger_sched (h : ∀ i, x.ident i = s.sched.ident i) :
    { s with sched := x }.ledger = s.ledger := by
  have hown : ∀ y : Sched, ∀ i, (y.threads i).bind Thread.as = (y.ident i).bind fun t => t.1 := by
    intro y i
    unfold Sched.ident
    cases y.threads i <;> rfl
  unfold System.ledger
  congr 1
  funext i
  rw [hown, hown, h]

theorem modifySpace_ledger {f : Space → Space} (hf : ∀ sp, (f sp).refs = sp.refs) :
    (s.modifySpace a f).ledger = s.ledger := by
  unfold System.ledger
  congr 1
  exact funext (modifySpace_map hf s a)

theorem modifySig_ledger (s : System) (a : ℕ) (f : Sig → Sig) :
    (s.modifySig a f).ledger = s.ledger :=
  modifySpace_ledger fun _ => rfl

theorem vlsSigOf_ledger (h : vlsSigOf s a = some s') : s'.ledger = s.ledger := by
  rcases vlsSigOf_cases h with ⟨rfl, -⟩ | ⟨sp, -, -, -, rfl⟩
  · rfl
  · exact modifySpace_ledger (s := s) fun _ => rfl

/-- What each action keeps of the ledger, a sequence of them keeps. -/
theorem Acts.ledger_of {n : ℕ} (hR : ∀ {k : ℕ} {s s' : System}, R k s s' → s'.ledger = s.ledger)
    (h : Acts R n s s') : s'.ledger = s.ledger := by
  induction h with
  | same => rfl
  | after _ hact _ ih =>
    refine Eq.trans ?_ ih
    cases hact with
    | sched h => exact ledger_sched h
    | sig => exact modifySig_ledger _ _ _
    | block h => exact vlsSigOf_ledger h
    | other h => exact hR h

theorem Tell.ledger (h : Tell k s s') : s'.ledger = s.ledger := by
  cases h with
  | record hg c => exact modifySig_ledger s _ (recordChild c)
  | lose => rfl

theorem Report.ledger (h : Report k s s') : s'.ledger = s.ledger := by
  cases h with
  | drop => exact modifySpace_ledger fun _ => rfl
  | report =>
    rw [vlsReportExit]
    split
    · rfl
    split
    · rfl
    · exact ((vlsChildExited_acts _ _ _ _ _).ledger_of Tell.ledger).trans
        (modifySpace_ledger fun _ => rfl)

theorem Collect.ledger (h : Collect k s s') : s'.ledger = s.ledger := by
  cases h with
  | take => exact modifySig_ledger _ _ _
  | log | waits => rfl

theorem Acts.ledger {n : ℕ} (h : Acts Report n s s') : s'.ledger = s.ledger :=
  h.ledger_of Report.ledger

/-! ## Calls that take a step of it -/

/-- A registration finds a free slot for the thread, or changes no slot. -/
theorem schedSpawn_cases (s : Sched) (as : Option ℕ) (prio : ℕ) (memory : Bool) :
    (∃ s', schedSpawn s as prio memory = (s', none) ∧ s'.threads = s.threads ∧ s'.cur = s.cur) ∨
      ∃ s' t i, schedSpawn s as prio memory = (s', some t) ∧ i < schedMaxThreads ∧
        s.threads i = none ∧ t.as = as ∧ s'.threads = update s.threads i (some t) ∧
        s'.cur = s.cur := by
  unfold schedSpawn
  split
  · exact .inl ⟨s, rfl, rfl, rfl⟩
  dsimp only
  split
  · exact .inl ⟨_, rfl, rfl, rfl⟩
  rename_i i hfind
  have hfree : s.threads i = none := by
    simpa using List.find?_some hfind
  have hlt := List.mem_range.mp (List.mem_of_find?_eq_some hfind)
  exact .inr ⟨_, _, i, rfl, hlt, hfree, rfl, rfl, rfl⟩

theorem register_ledger {t : Option Thread} (h : x.threads = update u.sched.threads i t) :
    { u with sched := x }.ledger =
      { u.ledger with owner := update u.ledger.owner i (t.bind Thread.as) } := by
  unfold System.ledger
  rw [h]
  congr 1
  exact comp_update (Option.bind · Thread.as) u.sched.threads i t

theorem clearSlot_ledger (u : System) (i : ℕ) :
    (u.clearSlot i).ledger = { u.ledger with owner := update u.ledger.owner i none } :=
  register_ledger (u := u) (t := none) rfl

theorem unregistered_ledger (h : x.threads = u.sched.threads) :
    { u with sched := x }.ledger = u.ledger := by
  unfold System.ledger
  rw [h]

theorem addSpace_ledger (h : sp.refs = 1) : (s.addSpace sp).ledger =
      { s.ledger with
        refs := update s.ledger.refs s.nextSpace (some 1)
        next := s.nextSpace + 1 } := by
  unfold System.ledger System.addSpace
  congr 1
  exact h ▸ comp_update (Option.map Space.refs) s.spaces s.nextSpace (some sp)

theorem vmmDestroy_ledger (s : System) (a : ℕ) :
    (s.vmmDestroy a).ledger =
      { s.ledger with
        refs := update s.ledger.refs a none
        released := s.destroyed ++ [a] } := by
  unfold System.ledger System.vmmDestroy
  congr 1
  exact comp_update (Option.map Space.refs) s.spaces a none

theorem setRefs_ledger {r : ℕ} (hsp : s.spaces a = some sp) {f : Space → Space}
    (hf : (f sp).refs = r) :
    (s.modifySpace a f).ledger =
      { s.ledger with refs := update s.ledger.refs a (some r) } := by
  unfold System.ledger System.modifySpace
  congr 1
  funext b
  by_cases hb : b = a
  · subst hb
    simp [hsp, hf]
  · simp [hb]

abbrev Counted (s : System) : Prop := s.ledger.Balanced schedMaxThreads

/-- Steps of the ledger that lead from one system to the other. -/
def Steps (s s' : System) : Prop :=
  Relation.ReflTransGen (Ledger.Step schedMaxThreads) s.ledger s'.ledger

theorem Steps.of_eq (h : s'.ledger = s.ledger) : Steps s s' := by
  unfold Steps
  rw [h]

theorem Steps.one {l : Ledger} (h : Ledger.Step schedMaxThreads s.ledger l) (hl : s'.ledger = l) :
    Steps s s' := by
  unfold Steps
  rw [hl]
  exact .single h

theorem Counted.space_of (h : Counted s) (hi : i < schedMaxThreads)
    (hown : s.ledger.owner i = some a) :
    ∃ sp, s.spaces a = some sp := by
  have hrefs := h.refs a
  rw [if_neg (Ledger.held_pos hi hown).ne'] at hrefs
  obtain ⟨sp, hsp, -⟩ := map_eq_some_iff.mp hrefs
  exact ⟨sp, hsp⟩

/-- A space made and destroyed again is two steps of the ledger. -/
theorem abandon_steps (h : Counted s) (hsp : sp.refs = 1) (hu : u.ledger = (s.addSpace sp).ledger)
    (hs' : s'.ledger = (u.vmmDestroy s.nextSpace).ledger) : Steps s s' := by
  have hnext : s.ledger.refs s.nextSpace = none := by
    rw [h.refs, h.fresh s.nextSpace le_rfl, if_pos rfl]
  have hlog : u.destroyed = s.destroyed := congrArg Ledger.released hu
  refine .one (.abandon s.ledger) (hs'.trans ?_)
  rw [vmmDestroy_ledger, hu, addSpace_ledger hsp, hlog]
  rw [update_idem, ← hnext, update_eq_self]
  rfl

/-- A space made and handed to a new thread is two steps of the ledger. -/
theorem create_steps {t : Thread} (hsp : sp.refs = 1) (hu : u.ledger = (s.addSpace sp).ledger)
    (hi : i < schedMaxThreads) (hfree : u.sched.threads i = none)
    (ht : t.as = some s.nextSpace) (hx : x.threads = update u.sched.threads i (some t))
    (hs' : s'.ledger = { u with sched := x }.ledger) :
    Steps s s' := by
  have howner : u.ledger.owner = s.ledger.owner := by
    rw [hu]
    rfl
  have hfree' : s.ledger.owner i = none := by
    rw [← howner]
    simp [System.ledger, hfree]
  refine .one (.create s.ledger i hi hfree') (hs'.trans ?_)
  rw [register_ledger hx, bind_some, ht, hu, addSpace_ledger hsp]
  rfl

theorem appSpawn_steps (h : Counted s) (sid : ℕ) (create map memory : Bool) :
    Steps s (appSpawn s sid create map memory) := by
  unfold appSpawn
  split
  · exact .of_eq rfl
  dsimp only
  split
  · exact abandon_steps h rfl rfl rfl
  rcases schedSpawn_cases (s.addSpace (.created sid)).sched (some s.nextSpace) prioNormal memory
    with ⟨x, hx, hthreads, -⟩ | ⟨x, t, i, hx, hi, hfree, ht, hthreads, -⟩
  · rw [hx]
    exact abandon_steps h rfl (unregistered_ledger hthreads) rfl
  · rw [hx]
    exact create_steps rfl rfl hi hfree ht hthreads (modifySpace_ledger fun _ => rfl)

theorem sysClone_steps (s : System) (prio : ℕ) (accepted memory : Bool) :
    Steps s (sysClone s prio accepted memory) := by
  unfold sysClone
  split
  · exact .of_eq rfl
  rename_i a _
  split
  · exact .of_eq rfl
  rename_i hok
  rcases schedSpawn_cases s.sched (some a) prio memory
    with ⟨x, hx, hthreads, -⟩ | ⟨x, t, i, hx, hi, hfree, ht, hthreads, -⟩
  · rw [hx]
    exact .of_eq (unregistered_ledger hthreads)
  rw [hx]
  have hlive : (s.spaces a).any Space.live := by
    simp only [Bool.or_eq_true, Bool.not_eq_true', not_or, Bool.not_eq_false] at hok
    exact hok.2
  obtain ⟨sp, hsp, -⟩ := (any_eq_true _ _).mp hlive
  have hrefs : s.ledger.refs a = some sp.refs := by
    simp [System.ledger, hsp]
  refine .one (.share s.ledger i a sp.refs hi (by simp [System.ledger, hfree]) hrefs) ?_
  rw [setRefs_ledger (s := { s with sched := x }) hsp rfl, register_ledger hthreads,
    bind_some, ht]

theorem sysFork_steps (h : Counted s) (r : ForkAnswers) : Steps s (sysFork s r) := by
  unfold sysFork
  split
  · exact .of_eq rfl
  split
  · exact .of_eq rfl
  dsimp only
  split
  · exact abandon_steps h rfl rfl rfl
  split
  · exact abandon_steps h rfl rfl rfl
  rename_i u hu
  have hledger := (cloneSig_acts hu).ledger
  rcases schedSpawn_cases u.sched (some s.nextSpace)
    (((u.sched.cur.bind u.sched.threads).map Thread.prio).getD 0) r.thread
    with ⟨x, hx, hthreads, -⟩ | ⟨x, t, i, hx, hi, hfree, ht, hthreads, -⟩
  · rw [hx]
    exact abandon_steps h rfl ((unregistered_ledger hthreads).trans hledger) rfl
  · rw [hx]
    exact create_steps rfl hledger hi hfree ht hthreads (modifySpace_ledger fun _ => rfl)

theorem vmmCurrent_slot (h : s.vmmCurrent = some a) :
    ∃ i t, s.sched.cur = some i ∧ s.sched.threads i = some t ∧ t.as = some a := by
  obtain ⟨t, ht, hta⟩ := bind_eq_some_iff.mp h
  obtain ⟨i, hi, hit⟩ := bind_eq_some_iff.mp ht
  exact ⟨i, t, hi, hit, hta⟩

theorem adopt_ledger {n : ℕ} {t : Thread} (hcur : u.sched.cur = some i)
    (hit : u.sched.threads i = some t) :
    { u with sched := u.sched.modifyCur fun t => { t with as := some n } }.ledger =
      { u.ledger with owner := update u.ledger.owner i (some n) } := by
  have hx : (u.sched.modifyCur fun t => { t with as := some n }).threads =
      update u.sched.threads i (some { t with as := some n }) := by
    simp [Sched.modifyCur, hcur, Sched.modifyThread, hit, Sched.setThread]
  exact register_ledger hx

theorem sysExecve_steps (h : Counted s) (sid : ℕ) (accepted create map : Bool) :
    Steps s (sysExecve s sid accepted create map) := by
  unfold sysExecve
  split
  · exact .of_eq rfl
  rename_i a hcur
  split
  · exact .of_eq rfl
  rename_i old hold
  split
  · exact .of_eq rfl
  split
  · exact .of_eq rfl
  rename_i hone
  split
  · exact .of_eq rfl
  split
  · exact abandon_steps h rfl rfl rfl
  obtain ⟨i, t, hi, hit, hta⟩ := vmmCurrent_slot hcur
  have hown : s.ledger.owner i = some a := by
    simp [System.ledger, hit, hta]
  have hrefs : s.ledger.refs a = some old.refs := by
    simp [System.ledger, hold]
  refine .one (.move s.ledger i a old.refs (h.lt_of_owner hown) hown hrefs
    (not_lt.mp hone)) ?_
  generalize hu : s.addSpace { Space.created sid with
    pid := old.pid
    ppid := old.ppid
    sig := old.sig.map vlsSigResetForExec } = u
  have hcur' : u.sched.cur = some i := by rw [← hu]; exact hi
  have hit' : u.sched.threads i = some t := by rw [← hu]; exact hit
  have hlog : u.destroyed = s.destroyed := by rw [← hu]; rfl
  rw [vmmDestroy_ledger, adopt_ledger hcur' hit', ← hu, addSpace_ledger rfl]
  rfl

theorem reapSlot_steps (h : Counted s) (i : ℕ) : Steps s (reapSlot s i) := by
  unfold reapSlot
  split
  · exact .of_eq rfl
  rename_i t ht
  split
  · exact .of_eq rfl
  dsimp only
  split
  · rename_i has
    have hown : s.ledger.owner i = none := by
      simp [System.ledger, ht, has]
    refine .of_eq ?_
    rw [clearSlot_ledger, ← hown, update_eq_self]
  rename_i a has
  have hown : s.ledger.owner i = some a := by
    simp [System.ledger, ht, has]
  have hi := h.lt_of_owner hown
  have hreaped := (appReaped_acts s t a).ledger
  generalize appReaped s t a = u at hreaped ⊢
  obtain ⟨sp, hsp⟩ : ∃ sp, u.spaces a = some sp := by
    rw [← hreaped] at hown
    exact Counted.space_of (by rw [Counted, hreaped]; exact h) hi hown
  have hrefs : s.ledger.refs a = some sp.refs := by
    rw [← hreaped]
    simp [System.ledger, hsp]
  have hsp' : (u.clearSlot i).spaces a = some sp := hsp
  split
  · rename_i hmany
    have hmany' : 1 < sp.refs := by simpa [hsp'] using hmany
    refine .one (.leave s.ledger i a sp.refs hi hown hrefs hmany') ?_
    rw [setRefs_ledger hsp' rfl, clearSlot_ledger, hreaped]
  rename_i hone
  have hone' : sp.refs ≤ 1 := by simpa [hsp'] using hone
  refine .one (.drop s.ledger i a sp.refs hi hown hrefs hone') ?_
  have hlog : (u.clearSlot i).destroyed = s.destroyed := congrArg Ledger.released hreaped
  rw [vmmDestroy_ledger, hlog, clearSlot_ledger, hreaped]
  rfl

theorem schedReap_steps (h : Counted s) : Steps s (schedReap s) := by
  unfold schedReap
  generalize List.range schedMaxThreads = slots
  induction slots generalizing s with
  | nil => exact .of_eq rfl
  | cons i slots ih =>
    have hslot := reapSlot_steps h i
    exact hslot.trans (ih (h.steps hslot))

/-! ## Histories -/

/-- An operation of the system is a sequence of ledger steps. -/
theorem step_steps (h : Counted s) (op : Op) : Steps s (step s op) := by
  cases op with
  | sched e => exact .of_eq (ledger_sched (Event.step_ident s.sched e))
  | appSpawn sid create map memory => exact appSpawn_steps h sid create map memory
  | clone prio accepted memory => exact sysClone_steps s prio accepted memory
  | fork r => exact sysFork_steps h r
  | execve sid accepted create map => exact sysExecve_steps h sid accepted create map
  | exit code => exact .of_eq (sysExit_acts s code).ledger
  | threadExit code => exact .of_eq (sysThreadExit_acts s code).ledger
  | exitGroup code => exact .of_eq (sysExitGroup_acts s code).ledger
  | kill pid sig => exact .of_eq (lKill_acts s pid sig).ledger
  | tkill tid sig => exact .of_eq (lTkill_acts s tid sig).ledger
  | tgkill tgid tid sig => exact .of_eq (lTkill_acts s tid sig).ledger
  | sigaction sig act => exact .of_eq (lRtSigaction_acts s sig act).ledger
  | sigprocmask how set => exact .of_eq (lRtSigprocmask_acts s how set).ledger
  | deliver tramp m f ret => exact .of_eq (deliverSignals_acts s tramp m f ret).ledger
  | fault tramp m r tried => exact .of_eq (userFault_acts s tramp m r tried).ledger
  | wait4 pid status nohang rusage => 
    exact .of_eq ((vlsWait4_acts s pid status nohang rusage).ledger_of Collect.ledger)
  | wait4Resume writable => exact .of_eq ((wait4Resume_acts s writable).ledger_of Collect.ledger)
  | reap => exact schedReap_steps h
  | heap room => exact .of_eq rfl

/-- How many registered threads point to the space. -/
def System.threadsOf (s : System) (a : ℕ) : ℕ :=
  ∑ i ∈ Finset.range schedMaxThreads,
    if (s.sched.threads i).bind Thread.as = some a then 1 else 0

/-- The machine before the first program: kernel threads only, in the slots of the table. -/
structure System.Booted (s : System) : Prop where
  threads : ∀ i t, s.sched.threads i = some t → i < schedMaxThreads ∧ t.as = none
  spaces : ∀ a, s.spaces a = none
  nextSpace : s.nextSpace = 0
  destroyed : s.destroyed = []

theorem Booted.owner (h : s.Booted) (i : ℕ) : s.ledger.owner i = none := by
  unfold System.ledger
  dsimp only
  cases ht : s.sched.threads i with
  | none => rfl
  | some t => exact (h.threads i t ht).2

/-- The references are right before the first process starts. -/
theorem Booted.counted (h : s.Booted) : Counted s := by
  have hheld : ∀ a, s.ledger.held schedMaxThreads a = 0 := by
    intro a
    refine Finset.sum_eq_zero fun i _ => ?_
    rw [Booted.owner h i]
    rfl
  refine ⟨fun i _ => Booted.owner h i, fun a => ?_, fun a _ => hheld a, fun a => ?_⟩
  · rw [hheld a]
    simp [System.ledger, h.spaces a]
  · simp [System.ledger, h.destroyed, h.nextSpace]

/-- In every state of every history: the count of a space is the number of registered threads that
point to it, and a space has been destroyed exactly once if no thread points to it any more,
and not at all as long as one does. -/
theorem space_lifetime (s : System) (ops : List Op) (n : ℕ) (hboot : s.Booted) :
    let s' := (ops.take n).foldl step s
    (∀ a sp, s'.spaces a = some sp → sp.refs = s'.threadsOf a) ∧
      ∀ a < s'.nextSpace, s'.destroyed.count a = if s'.threadsOf a = 0 then 1 else 0 := by
  have hcounted : Counted ((ops.take n).foldl step s) :=
    Run.invariant_take (fun s op h _ => h.steps (step_steps h op))
      (Booted.counted hboot) (Run.Meets.trivial s ops) n
  generalize (ops.take n).foldl step s = s' at hcounted ⊢
  refine ⟨fun a sp hsp => ?_, fun a ha => ?_⟩
  · have hrefs : s'.ledger.refs a = some sp.refs := by
      simp [System.ledger, hsp]
    exact (hcounted.held_eq hrefs).1.symm
  have hlog := hcounted.log a
  rwa [if_congr (and_iff_right (show a < s'.ledger.next from ha)) rfl rfl] at hlog

/-- The compositor alone, before the first program. -/
def compositor : System where
  sched :=
    { threads := fun i =>
        if i = 0 then some ⟨none, 1, prioUi, .running, 0, 0, false, 0, 0, 0⟩ else none
      cur := some 0
      nextPid := 2
      preemptCount := 0
      ticks := 0
      switches := 0
      running := true }
  spaces _ := none
  nextSpace := 0
  nextBlock := 1
  room := 1000
  waits _ := none
  destroyed := []
  ends := []
  exits := []
  lost := []
  collected := []

theorem compositor_booted : compositor.Booted where
  threads i t h := by
    simp only [compositor] at h
    split at h
    · rename_i hi
      cases h
      exact ⟨by subst hi; decide, rfl⟩
    · cases h
  spaces _ := rfl
  nextSpace := rfl
  destroyed := rfl

/-- A program is started, makes a second thread and ends both, one after the other; the compositor
reaps them, and with the second one the space. -/
def twoThreads : List Op :=
  [.appSpawn 1 true true true, .sched (.sleepMs 2), .sched .yield, .clone 4 true true,
    .threadExit 0, .sched .tick, .sched .tick, .reap, .sched (.sleepMs 2), .sched .yield,
    .threadExit 0, .sched .tick, .sched .tick, .reap]

theorem space_lifetime_two_threads :
    ((twoThreads.take 8).foldl step compositor).destroyed.count 0 = 0 ∧
      ((twoThreads.take 14).foldl step compositor).destroyed.count 0 = 1 := by
  have hone := (space_lifetime compositor twoThreads 8 compositor_booted).2 0 (by decide +kernel)
  have hnone := (space_lifetime compositor twoThreads 14 compositor_booted).2 0 (by decide +kernel)
  have hthread : ((twoThreads.take 8).foldl step compositor).threadsOf 0 = 1 := by decide +kernel
  have hgone : ((twoThreads.take 14).foldl step compositor).threadsOf 0 = 0 := by decide +kernel
  rw [hthread] at hone
  rw [hgone] at hnone
  exact ⟨hone, hnone⟩

end Vextro.Processes
