import Vextro.Verification.Processes.Lifetimes

/-! Signals and accounts: which processes a `kill`, `tkill` or `tgkill` reaches.

A signal reaches its target, and, if it ends the target, the parent that is told of it. -/

namespace Vextro.Processes

open Threads Signals Option

variable {s s' : System} {b a me : ℕ} {f : Sig → Sig}

def System.sid (s : System) (a : ℕ) : Option ℕ := (s.spaces a).map Space.sid

def System.pendingOf (s : System) (a : ℕ) : Word := ((s.sigOf a).map Sig.pending).getD 0

def System.reportedOf (s : System) (a : ℕ) : Option Bool := (s.spaces a).map Space.exitReported

/-- No thread of the process is ended. -/
def ThreadsSpared (s s' : Sched) (b : ℕ) : Prop :=
  ∀ i t, s.threads i = some t → t.as = some b → t.state ≠ .zombie →
    ∃ t', s'.threads i = some t' ∧ t'.as = some b ∧ t'.state ≠ .zombie

/-- The process is sent no signal and is not ended. -/
structure Spared (b : ℕ) (s s' : System) : Prop where
  pending : s'.pendingOf b = s.pendingOf b
  reported : s'.reportedOf b = s.reportedOf b
  threads : ThreadsSpared s.sched s'.sched b

theorem ThreadsSpared.refl (s : Sched) (b : ℕ) :
    ThreadsSpared s s b := fun _ t ht hb hz => ⟨t, ht, hb, hz⟩

theorem ThreadsSpared.trans {s s' s'' : Sched} (h : ThreadsSpared s s' b)
    (h' : ThreadsSpared s' s'' b) :
    ThreadsSpared s s'' b := by
  intro i t ht hb hz
  obtain ⟨t', ht', hb', hz'⟩ := h i t ht hb hz
  exact h' i t' ht' hb' hz'

theorem Spared.refl (b : ℕ) (s : System) : Spared b s s := ⟨rfl, rfl, .refl _ _⟩

theorem Spared.trans {s'' : System} (h : Spared b s s') (h' : Spared b s' s'') : Spared b s s'' :=
  ⟨h'.pending.trans h.pending, h'.reported.trans h.reported, h.threads.trans h'.threads⟩

/-! ## Waking and ending threads -/

theorem wakeThread_spared {t : Thread} (h : t.state ≠ .zombie) :
    (wakeThread t).state ≠ .zombie := by
  unfold wakeThread
  split
  · simp
  · exact h

theorem wakeChanFrom_spared (chan : ℕ) (all : Bool) (i n : ℕ) (s : Sched) (b : ℕ) :
    ThreadsSpared s (wakeChanFrom chan all i n s) b := by
  induction n generalizing i s with
  | zero => exact .refl s b
  | succ n ih =>
    unfold wakeChanFrom
    split
    · exact ih (i + 1) s
    rename_i t ht
    split
    · exact ih (i + 1) s
    have hset : ThreadsSpared s (s.setThread i (wakeThread { t with waitChan := 0 })) b := by
      intro j u hu hb hz
      by_cases hj : j = i
      · subst hj
        obtain rfl : t = u := some.inj (ht.symm.trans hu)
        refine ⟨_, Function.update_self .., ?_, wakeThread_spared hz⟩
        rw [← hb]
        unfold wakeThread
        split <;> rfl
      · exact ⟨u, by rw [← hu]; exact Function.update_of_ne hj _ _, hb, hz⟩
    split
    · exact hset.trans (ih (i + 1) _)
    · exact hset

theorem wakeSig_spared (b : ℕ) (s : System) (a : ℕ) : Spared b s (s.wakeSig a) := by
  unfold System.wakeSig
  split
  · exact .refl b s
  · exact ⟨rfl, rfl, wakeChanFrom_spared _ _ _ _ _ b⟩

theorem zombify_spared (hab : a ≠ b) (s : System) (code : Int) : Spared b s (s.zombify a code) := by
  refine ⟨rfl, rfl, fun i t ht hb hz => ⟨t, ?_, hb, hz⟩⟩
  have hne : ¬ (i < schedMaxThreads ∧ s.sched.cur ≠ some i ∧ t.as = some a ∧ t.state ≠ .free) := by
    rintro ⟨-, -, ha, -⟩
    exact hab (some.inj (ha.symm.trans hb))
  simp only [System.zombify, ht, map_some, if_neg hne]

/-! ## Changes of the signal state -/

theorem modifySig_sigOf (s : System) (a b : ℕ) (f : Sig → Sig) :
    (s.modifySig a f).sigOf b = if b = a then (s.sigOf b).map f else s.sigOf b := by
  unfold System.sigOf System.modifySig System.modifySpace
  dsimp only
  split
  · cases s.spaces b <;> rfl
  · rfl

theorem modifySig_spaces {β : Type} (s : System) (a b : ℕ) (f : Sig → Sig) {g : Space → β}
    (hg : ∀ sp x, g { sp with sig := x } = g sp) :
    ((s.modifySig a f).spaces b).map g = (s.spaces b).map g :=
  modifySpace_map (fun sp => hg sp _) s a b

/-- The two systems differ in the signal state of processes only, and not in their handlers. -/
structure Quiet (s s' : System) : Prop where
  sched : s'.sched = s.sched
  pids : ∀ a, (s'.spaces a).map Space.pid = (s.spaces a).map Space.pid
  ppids : ∀ a, (s'.spaces a).map Space.ppid = (s.spaces a).map Space.ppid
  handlers : ∀ a n, s'.handler a n = s.handler a n

theorem Quiet.refl (s : System) : Quiet s s := ⟨rfl, fun _ => rfl, fun _ => rfl, fun _ _ => rfl⟩

theorem Quiet.trans {s'' : System} (h : Quiet s s') (h' : Quiet s' s'') : Quiet s s'' :=
  ⟨h'.sched.trans h.sched, fun a => (h'.pids a).trans (h.pids a),
    fun a => (h'.ppids a).trans (h.ppids a), fun a n => (h'.handlers a n).trans (h.handlers a n)⟩

theorem Quiet.find (h : Quiet s s') (pid : ℕ) : vlsFindProcess s' pid = vlsFindProcess s pid := by
  have hany : ∀ a, (s'.spaces a).any (·.pid = pid) = (s.spaces a).any (·.pid = pid) := by
    intro a
    have := congrArg (Option.any (· = pid)) (h.pids a)
    simpa [Option.any_map] using this
  unfold vlsFindProcess System.firstThread
  simp only [h.sched, hany]

theorem modifySig_handler {n : ℕ} (hf : ∀ g, ((f g).act n).handler = (g.act n).handler) (s : System)
    (a b : ℕ) : (s.modifySig a f).handler b n = s.handler b n := by
  unfold System.handler
  rw [modifySig_sigOf]
  split
  · cases s.sigOf b <;> simp [hf]
  · rfl

theorem modifySig_quiet (hf : ∀ g, (f g).act = g.act) (s : System) (a : ℕ) :
    Quiet s (s.modifySig a f) :=
  ⟨rfl, fun b => modifySig_spaces s a b f fun _ _ => rfl,
    fun b => modifySig_spaces s a b f fun _ _ => rfl,
    fun b _ => modifySig_handler (fun g => by rw [hf]) s a b⟩

theorem modifySig_spared (hf : a = b → ∀ g, (f g).pending = g.pending) (s : System) :
    Spared b s (s.modifySig a f) := by
  refine ⟨?_, modifySig_spaces s a b f fun _ _ => rfl, .refl _ _⟩
  unfold System.pendingOf
  rw [modifySig_sigOf]
  split
  · rename_i hb
    cases s.sigOf b <;> simp [hf hb.symm]
  · rfl

theorem vlsSigOf_spaces {β : Type} (h : vlsSigOf s a = some s') (b : ℕ) {g : Space → β}
    (hg : ∀ sp x, g { sp with sig := x } = g sp) : (s'.spaces b).map g = (s.spaces b).map g := by
  rcases vlsSigOf_cases h with ⟨rfl, -⟩ | ⟨sp, -, -, -, rfl⟩
  · rfl
  · exact modifySpace_map (fun sp => hg sp _) s a b

theorem vlsSigOf_quiet (h : vlsSigOf s a = some s') : Quiet s s' := by
  refine ⟨?_, fun b => vlsSigOf_spaces h b fun _ _ => rfl,
    fun b => vlsSigOf_spaces h b fun _ _ => rfl, fun b n => ?_⟩
  · rcases vlsSigOf_cases h with ⟨rfl, -⟩ | ⟨sp, -, -, -, rfl⟩ <;> rfl
  unfold System.handler
  rw [vlsSigOf_sigOf h]
  split
  · rename_i hb
    subst hb
    cases s.sigOf b <;> rfl
  · rfl

theorem vlsSigOf_spared (h : vlsSigOf s a = some s') (b : ℕ) : Spared b s s' := by
  refine ⟨?_, vlsSigOf_spaces h b fun _ _ => rfl, ?_⟩
  · unfold System.pendingOf
    rw [vlsSigOf_sigOf h]
    split
    · rename_i hb
      subst hb
      cases s.sigOf b <;> rfl
    · rfl
  · rw [(vlsSigOf_quiet h).sched]
    exact .refl _ _

/-! ## Telling the parent -/

/-- The process has a handler for the end of a child. -/
def System.catchesChild (s : System) (a : ℕ) : Bool :=
  s.handler a sigChld ≠ sigIgn ∧ s.handler a sigChld ≠ sigDfl

theorem recordChild_keeps (c : Child) (g : Sig) :
    (recordChild c g).act = g.act ∧ (recordChild c g).pending = g.pending := by
  unfold recordChild
  split <;> exact ⟨rfl, rfl⟩

/-- A parent that does not catch the signal is sent none. -/
theorem postChild_spared {p : ℕ} (h : p = b → s.catchesChild b = false) :
    Spared b s (postWith (fun s _ _ => s) s p sigChld).1 := by
  unfold postWith
  split
  · exact .refl b s
  split
  · exact .refl b s
  split
  · exact .refl b s
  split
  · exact .refl b s
  rename_i s' hs'
  have hspared := vlsSigOf_spared hs' b
  have hhandler := (vlsSigOf_quiet hs').handlers p sigChld
  have hpend : s'.handler p sigChld ≠ sigIgn → s'.handler p sigChld ≠ sigDfl →
      Spared b s' (s'.modifySig p fun g => g.pend sigChld) := by
    intro hign hdfl
    refine modifySig_spared (fun hpb => ?_) s'
    have hcatch := h hpb
    subst hpb
    rw [hhandler] at hign hdfl
    simp [System.catchesChild, hign, hdfl] at hcatch
  have hun : ¬ (sigBit sigChld &&& unblockable ≠ 0) := by decide
  rw [if_neg (by simpa using hun)]
  split
  · exact hspared
  rename_i hign
  split
  · exact hspared
  rename_i hdfl
  have hdfl' : s'.handler p sigChld ≠ sigDfl := fun h0 => hdfl ⟨h0, by decide⟩
  rw [if_neg (fun h0 => hdfl' h0.1)]
  exact hspared.trans ((hpend hign hdfl').trans (wakeSig_spared b _ p))

/-- The parent the process would be reported to is not `b`, or does not catch the signal. -/
def ParentSpares (s : System) (ppid b : ℕ) : Prop :=
  vlsFindProcess s ppid = some b → s.catchesChild b = false

theorem Quiet.parentSpares (h : Quiet s s') {ppid : ℕ} (hp : ParentSpares s ppid b) :
    ParentSpares s' ppid b := by
  intro hfind
  rw [h.find] at hfind
  have hcatch := hp hfind
  unfold System.catchesChild
  rwa [h.handlers]

theorem vlsChildExited_spared {ppid : ℕ} (hp : ParentSpares s ppid b) (pid : ℕ) (exitCode : Int)
    (killed : Bool) :
    Spared b s (vlsChildExited s pid ppid exitCode killed) := by
  unfold vlsChildExited
  split
  · exact .refl b s
  split
  · exact .refl b s
  rename_i parent hfind
  split
  · exact ⟨rfl, rfl, .refl _ _⟩
  rename_i s' hs'
  have hrecord : Quiet s' (s'.modifySig parent
      (recordChild ⟨pid, vlsEncodeStatus exitCode killed⟩)) :=
    modifySig_quiet (fun g => (recordChild_keeps _ g).1) s' parent
  have hspared : Spared b s' (s'.modifySig parent
      (recordChild ⟨pid, vlsEncodeStatus exitCode killed⟩)) :=
    modifySig_spared (fun _ g => (recordChild_keeps _ g).2) s'
  have hquiet := (vlsSigOf_quiet hs').trans hrecord
  refine (vlsSigOf_spared hs' b).trans (.trans ?_ (wakeSig_spared b _ parent))
  refine Spared.trans ?_ (postChild_spared fun hpb => ?_)
  · exact ⟨hspared.pending, hspared.reported, hspared.threads⟩
  have hcatch : s.catchesChild b = false := hp (by rw [hfind, hpb])
  unfold System.catchesChild at hcatch ⊢
  rwa [← hquiet.handlers] at hcatch

/-- The end of process `a` is nothing `b` is sent a signal for. -/
def EndSpares (s : System) (a b : ℕ) : Prop := ∀ ppid, (s.spaces a).map Space.ppid = some ppid →
  ParentSpares s ppid b

theorem Quiet.endSpares (h : Quiet s s') (he : EndSpares s a b) : EndSpares s' a b :=
  fun ppid hppid => h.parentSpares (he ppid (by rw [← h.ppids, hppid]))

theorem markReported_quiet (s : System) (a : ℕ) :
    Quiet s (s.modifySpace a fun sp => { sp with exitReported := true }) :=
  ⟨rfl, modifySpace_map (fun _ => by rfl) s a, modifySpace_map (fun _ => by rfl) s a, fun b n => by
    rw [System.handler, modifySpace_sigOf fun _ => by rfl, System.handler]⟩

theorem vlsReportExit_spared (hab : a ≠ b) (he : EndSpares s a b) (exitCode : Int) (killed : Bool) :
    Spared b s (vlsReportExit s a exitCode killed) := by
  rw [vlsReportExit]
  split
  · exact .refl b s
  rename_i sp hsp
  split
  · exact .refl b s
  have hb : ¬ b = a := fun h => hab h.symm
  have hmark : Spared b s (s.modifySpace a fun sp => { sp with exitReported := true }) := by
    refine ⟨?_, ?_, .refl _ _⟩
    · simp [System.pendingOf, System.sigOf, System.modifySpace, hb]
    · simp [System.reportedOf, System.modifySpace, hb]
  have hparent := (markReported_quiet s a).parentSpares (he sp.ppid (by simp [hsp]))
  have htold := hmark.trans (vlsChildExited_spared hparent sp.pid exitCode killed)
  exact ⟨htold.pending, htold.reported, htold.threads⟩

theorem vlsTerminate_spared (hab : a ≠ b) (he : EndSpares s a b) (sig : ℕ) :
    Spared b s (vlsTerminate s a sig) := by
  have hkilled : ∃ u, vlsTerminate s a sig = (vlsReportExit u a sig true).zombify a (128 + sig) ∧
      Quiet s u ∧ Spared b s u := by
    refine ⟨_, rfl, ?_⟩
    cases hs : vlsSigOf s a with
    | none => exact ⟨.refl s, .refl b s⟩
    | some u =>
      exact ⟨(vlsSigOf_quiet hs).trans (modifySig_quiet (fun _ => by rfl) u a),
        (vlsSigOf_spared hs b).trans (modifySig_spared (fun h => absurd h hab) u)⟩
  obtain ⟨u, heq, hquiet, hspared⟩ := hkilled
  rw [heq]
  exact hspared.trans ((vlsReportExit_spared hab (hquiet.endSpares he) _ _).trans
    (zombify_spared hab _ _))

/-- A signal for one process spares every other that does not catch the end of it. -/
theorem vlsSignalPost_spared (hab : a ≠ b) (he : EndSpares s a b) (sig : Int) :
    Spared b s (vlsSignalPost s a sig).1 := by
  rw [vlsSignalPost, postWith]
  split
  · exact .refl b s
  split
  · exact .refl b s
  split
  · exact .refl b s
  split
  · exact .refl b s
  rename_i u hu
  have hspared := vlsSigOf_spared hu b
  have hpend : Spared b s (u.modifySig a fun g => g.pend sig.toNat) :=
    hspared.trans (modifySig_spared (fun h => absurd h hab) u)
  have hquiet : Quiet s (u.modifySig a fun g => g.pend sig.toNat) :=
    (vlsSigOf_quiet hu).trans (modifySig_quiet (fun _ => by rfl) u a)
  have hend := hpend.trans (vlsTerminate_spared hab (hquiet.endSpares he) sig.toNat)
  dsimp only
  split
  · exact hend
  split
  · exact hspared
  split
  · exact hspared
  split
  · exact hend.trans (wakeSig_spared b _ a)
  · exact hpend.trans (wakeSig_spared b _ a)

/-! ## The three calls -/

/-- The parent that would be told of the end of `a` belongs to the account of `me`, or does not
catch the signal. -/
def parentPermits (s : System) (me a : ℕ) : Bool :=
  ((s.spaces a).bind fun sp => vlsFindProcess s sp.ppid).all fun p =>
    s.sid p = s.sid me || !s.catchesChild p

/-- The process a call names, if there is one. -/
def Op.target (s : System) : Op → Option ℕ
  | .kill pid _ => vlsFindProcess s (pid.toNat % 2 ^ 32)
  | .tkill tid _ => (vlsFindThread s (tid % 2 ^ 32)).bind Thread.as
  | .tgkill _ tid _ => (vlsFindThread s (tid % 2 ^ 32)).bind Thread.as
  | _ => none

/-- `kill` checks the account of its target itself. -/
def Op.checked : Op → Bool
  | .kill _ _ => true
  | _ => false

def permitted (s : System) (op : Op) : Bool := s.vmmCurrent.all fun me => (op.target s).all fun a =>
    (op.checked || s.sid a = s.sid me) && parentPermits s me a

/-- The call sends no signal to a process of another account and ends none. -/
def Isolated (s : System) (op : Op) : Prop :=
  match op with
  | .kill _ _ | .tkill _ _ | .tgkill _ _ _ =>
    ∀ me, s.vmmCurrent = some me → ∀ b, s.sid b ≠ s.sid me → Spared b s (step s op)
  | _ => True

theorem endSpares_of_permits (h : parentPermits s me a) (hb : s.sid b ≠ s.sid me) :
    EndSpares s a b := by
  intro ppid hppid hfind
  obtain ⟨sp, hsp, rfl⟩ := map_eq_some_iff.mp hppid
  simp only [parentPermits, hsp, bind_some, hfind, all_some, Bool.or_eq_true,
    decide_eq_true_eq, Bool.not_eq_true'] at h
  rcases h with h | h
  · exact absurd h hb
  · exact h

/-- A signal for a process of the same account, whose parent permits it. -/
theorem post_isolated (ha : s.sid a = s.sid me) (hparent : parentPermits s me a)
    (hb : s.sid b ≠ s.sid me) (sig : Int) : Spared b s (vlsSignalPost s a sig).1 := by
  have hab : a ≠ b := by
    rintro rfl
    exact hb ha
  exact vlsSignalPost_spared hab (endSpares_of_permits hparent hb) sig

theorem lTkill_isolated
    (tid : ℕ) (sig : Int) (h : ∀ a, (vlsFindThread s (tid % 2 ^ 32)).bind Thread.as = some a →
      s.sid a = s.sid me ∧ parentPermits s me a = true) (hb : s.sid b ≠ s.sid me) :
    Spared b s (lTkill s tid sig).1 := by
  rw [lTkill]
  split
  · exact .refl b s
  rename_i a ha
  split
  · exact .refl b s
  · exact post_isolated (h a ha).1 (h a ha).2 hb sig

theorem permitted.target
    {op : Op} (h : permitted s op) (hme : s.vmmCurrent = some me) (ha : op.target s = some a) :
    (op.checked = true ∨ s.sid a = s.sid me) ∧ parentPermits s me a := by
  simpa [permitted, hme, ha] using h

theorem step_isolated (s : System) (op : Op) (h : permitted s op) : Isolated s op := by
  cases op with
  | kill pid sig =>
    intro me hme b hb
    simp only [step, lKill]
    split
    · exact .refl b s
    split
    · exact .refl b s
    split
    · exact .refl b s
    rename_i a ha
    rw [hme]
    dsimp only
    split
    · exact .refl b s
    · rename_i hsid
      exact post_isolated (not_not.mp hsid) (permitted.target h hme ha).2 hb sig
  | tkill tid sig =>
    intro me hme b hb
    exact lTkill_isolated tid sig
      (fun a ha => by simpa [Op.checked] using permitted.target h hme ha) hb
  | tgkill tgid tid sig =>
    intro me hme b hb
    exact lTkill_isolated tid sig
      (fun a ha => by simpa [Op.checked] using permitted.target h hme ha) hb
  | _ => trivial

/-- In every history whose calls are all permitted, no `kill`, `tkill` or `tgkill` reaches a
process of another account. -/
theorem signals_stay_in_account
    (s : System) (ops : List Op) (h : Run.Meets step (fun s op => permitted s op = true) s ops) :
    Run.Meets step Isolated s ops :=
  h.mono step_isolated

/-- Two programs of different accounts, the first of them running. -/
def twoAccounts : List Op :=
  [.appSpawn 1 true true true, .appSpawn 2 true true true, .sched (.sleepMs 9), .sched .yield]

theorem signals_stay_in_account_refused :
    Run.Meets step Isolated (twoAccounts.foldl step compositor) [.kill 3 9, .tkill 2 10] :=
  signals_stay_in_account (twoAccounts.foldl step compositor) [.kill 3 9, .tkill 2 10]
    (by decide +kernel)

/-- `kill` refuses the other account's process; `tkill` ends it. -/
theorem tkill_crosses_accounts :
    let s := twoAccounts.foldl step compositor
    s.vmmCurrent = some 0 ∧ s.sid 0 = some 1 ∧ s.sid 1 = some 2 ∧ (lKill s 3 9).2 = -eperm ∧
      (s.sched.threads 2).map (fun t => (t.as, t.state)) = some (some 1, .ready) ∧
      ((step s (.tkill 3 9)).sched.threads 2).map Thread.state = some .zombie := by
  decide +kernel

end Vextro.Processes
