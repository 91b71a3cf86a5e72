import Vextro.Model.Sessions

/-! What the calls of a process can do: to whom they leave it, what they open and which paths they
reach. -/

namespace Vextro.Sessions

open Accounts Profile List

/-- A descriptor of a file or a directory. -/
def Desc.onVolume (d : Desc) : Prop := d.kind = .file ∨ d.kind = .dir

/-- The process has the path open. -/
def Proc.Opened (p : Proc) (path : List UInt8) : Prop :=
  ∃ d, some d ∈ p.files ∧ d.onVolume ∧ d.path = path

/-- The guard lets the path through, to be read or to be written. -/
def Allowed (s : State) (path : List UInt8) : Prop := ∃ write, profMay s.users path write = none

/-- A process that comes from `p` by a call made in `s`, which may open what is in `A`; a new image
gives it a new token. -/
structure Descends (image : Bool) (A : List UInt8 → Prop) (s : State) (p q : Proc) : Prop where
  launch : q.launch = p.launch
  token : (q.sid = p.sid ∧ q.sidAdmin = p.sidAdmin) ∨
    image = true ∧ q.sid = s.sid ∧ q.sidAdmin = s.sidAdmin
  opened : ∀ path, q.Opened path → p.Opened path ∨ A path

/-- What one call of `p` makes of a state. -/
structure Acts (image : Bool) (A : List UInt8 → Prop) (s : State) (p : Proc) (s' : State) :
    Prop where
  users : s'.users = s.users
  procs : ∀ x ∈ s'.procs, x ∈ s.procs ∨ Descends image A s p x.2
  log : ∀ a ∈ s'.log, a ∈ s.log ∨ a.launch = p.launch ∧ (p.Opened a.path ∨ A a.path)

variable {image : Bool} {A : List UInt8 → Prop} {s s' : State} {p q : Proc} {pid : ℕ}

theorem Acts.refl (image : Bool) (A : List UInt8 → Prop) (s : State) (p : Proc) :
    Acts image A s p s :=
  ⟨rfl, fun _ h => .inl h, fun _ h => .inl h⟩

theorem Descends.refl (image : Bool) (A : List UInt8 → Prop) (s : State) (p : Proc) :
    Descends image A s p p :=
  ⟨rfl, .inl ⟨rfl, rfl⟩, fun _ h => .inl h⟩

theorem Acts.setProc (h : Acts image A s p s') (hq : Descends image A s p q) :
    Acts image A s p (s'.setProc pid q) := by
  refine ⟨h.users, fun x hx => ?_, h.log⟩
  obtain ⟨y, hy, rfl⟩ := mem_map.mp hx
  by_cases hpid : y.1 = pid
  · rw [if_pos hpid]
    exact .inr hq
  · rw [if_neg hpid]
    exact h.procs y hy

theorem Acts.reached (h : Acts image A s p s') {path : List UInt8} (hlaunch : q.launch = p.launch)
    (hpath : p.Opened path ∨ A path) : Acts image A s p (s'.reached q path) := by
  refine ⟨h.users, h.procs, fun a ha => ?_⟩
  rcases mem_cons.mp ha with rfl | ha
  · exact .inr ⟨hlaunch, hpath⟩
  · exact h.log a ha

theorem Descends.set (h : Descends image A s p q) {fd : ℕ} {d : Option Desc}
    (hd : ∀ e, d = some e → e.onVolume → p.Opened e.path ∨ A e.path) :
    Descends image A s p { q with files := q.files.set fd d } := by
  refine ⟨h.launch, h.token, ?_⟩
  rintro path ⟨e, he, hvol, rfl⟩
  rcases mem_or_eq_of_mem_set he with he | rfl
  · exact h.opened e.path ⟨e, he, hvol, rfl⟩
  · exact hd e rfl hvol

theorem Descends.elevated (h : Descends image A s p q) (b : Bool) :
    Descends image A s p { q with elevated := b } := ⟨h.launch, h.token, h.opened⟩

theorem opened_of_getElem? {fd : ℕ} {d : Desc} (h : p.files[fd]? = some (some d))
    (hvol : d.onVolume) :
    p.Opened d.path := ⟨d, mem_of_getElem? h, hvol, rfl⟩

theorem uacGuard_descends (never granted : Bool) (p : Proc) :
    Descends image A s p (uacGuard never granted p).1 := by
  unfold uacGuard
  repeat' split
  all_goals first | exact .refl image A s p | exact (Descends.refl image A s p).elevated true

/-! ## Opening -/

/-- A device name never opens a file of the volume. -/
theorem vfsOpen_path {abs : List UInt8} {f : OpenFlags}
    {found : Found} {answer : Bool} {d : Desc} (h : vfsOpen abs f found answer = some d) :
    d.path = abs ∧ (devClaims abs = true → ¬d.onVolume) := by
  unfold vfsOpen at h
  split at h
  · split at h
    · cases h
      exact ⟨rfl, fun _ hvol => by simp [Desc.onVolume] at hvol⟩
    · cases h
  next hdev =>
    split at h
    · cases h
    · repeat' split at h
      all_goals first | cases h; exact ⟨rfl, fun hd => absurd hd hdev⟩ | cases h

/-- The path is one the guard lets through, or a device that no volume holds. -/
theorem sysOpen_acts (hA : ∀ path, Allowed s path → A path)
    (pid : ℕ) (path : List UInt8) (f : OpenFlags) (found : Found) (granted answer : Bool) :
    Acts image A s p (sysOpen s pid p path f found granted answer) := by
  unfold sysOpen
  simp only
  split
  · exact .refl image A s p
  next hguard =>
  split
  · exact .refl image A s p
  have hallowed : devClaims (fsNative path) = false → A (fsNative path) := by
    intro hdev
    refine hA _ ⟨f.writable, ?_⟩
    simpa [hdev] using hguard
  obtain ⟨q, ok⟩ : ∃ q, q = (if (!devClaims (fsNative path) && f.writable) = true then
      uacGuard s.uacNever granted p else (p, true)) := ⟨_, rfl⟩
  rw [← ok]
  have hq : Descends image A s p q.1 := by
    rw [ok]
    split
    · exact uacGuard_descends _ _ _
    · exact .refl image A s p
  have hset : Acts image A s p (s.setProc pid q.1) := (Acts.refl image A s p).setProc hq
  split
  · exact hset
  split
  · exact hset
  next fd _ =>
  split
  · exact hset
  next d hd =>
  obtain ⟨hpath, hdev⟩ := vfsOpen_path hd
  have hnew : Acts image A s p ((s.setProc pid q.1).setProc pid
      { q.1 with files := q.1.files.set fd (some d) }) := by
    refine hset.setProc (hq.set fun e he hvol => ?_)
    cases he
    rw [hpath]
    refine .inr (hallowed ?_)
    by_contra h
    exact hdev (by simpa using h) hvol
  split
  · exact hnew
  · next h => exact hnew.reached hq.launch (.inr (hallowed (by simpa using h)))

/-! ## Descriptors -/

theorem closeDesc_acts (h : Acts image A s p s') {d : Desc} (hd : some d ∈ p.files)
    (answer : Bool) :
    Acts image A s p (closeDesc s' p d answer) := by
  unfold closeDesc
  split
  · next hc =>
      simp only [Bool.and_eq_true, decide_eq_true_eq] at hc
      exact h.reached rfl (.inl ⟨d, hd, .inl hc.1.1, rfl⟩)
  · exact h

/-- By induction on the descriptors closed. -/
theorem closes_acts (h : Acts image A s p s') (close : Desc → Bool) (answer : ℕ → Bool)
    (fds : List ℕ) :
    Acts image A s p (fds.foldl (fun s fd =>
      match p.files[fd]? with
      | some (some d) => if close d then closeDesc s p d (answer fd) else s
      | _ => s) s') := by
  induction fds generalizing s' with
  | nil => exact h
  | cons fd fds ih =>
    refine ih ?_
    simp only
    split
    · next d hd =>
        split
        · exact closeDesc_acts h (mem_of_getElem? hd) _
        · exact h
    · exact h

theorem sysClose_acts (pid fd : ℕ) (answer : Bool) :
    Acts image A s p (sysClose s pid p fd answer) := by
  unfold sysClose
  split
  · next d hd =>
      refine (closeDesc_acts (.refl image A s p) (mem_of_getElem? hd) answer).setProc
        ((Descends.refl image A s p).set ?_)
      intro e he
      cases he
  · exact .refl image A s p

theorem sysRead_acts (fd : ℕ) (answer : Bool) : Acts image A s p (sysRead s p fd answer) := by
  unfold sysRead
  split
  · next d hd =>
      split
      · next hc =>
          simp only [Bool.and_eq_true, Bool.or_eq_true, decide_eq_true_eq] at hc
          exact (Acts.refl image A s p).reached rfl (.inl (opened_of_getElem? hd hc.1.1))
      · exact .refl image A s p
  · exact .refl image A s p

theorem touched_acts {fd : ℕ} {d : Desc} (hd : p.files[fd]? = some (some d))
    (hfile : d.kind = .file) (dirty : Bool) : Acts image A s p ((s.setProc pid { p with
      files := p.files.set fd (some { d with dirty := dirty }) }).reached p d.path) := by
  have hopen : p.Opened d.path := opened_of_getElem? hd (.inl hfile)
  refine ((Acts.refl image A s p).setProc ((Descends.refl image A s p).set ?_)).reached rfl
    (.inl hopen)
  intro e he _
  cases he
  exact .inl hopen

theorem sysWrite_acts (pid fd : ℕ) (answer : Bool) :
    Acts image A s p (sysWrite s pid p fd answer) := by
  unfold sysWrite
  split
  · next d hd =>
      split
      · next hc =>
          simp only [Bool.and_eq_true, decide_eq_true_eq] at hc
          exact touched_acts hd hc.1.1 true
      · exact .refl image A s p
  · exact .refl image A s p

theorem sysFsync_acts (pid fd : ℕ) (answer : Bool) :
    Acts image A s p (sysFsync s pid p fd answer) := by
  unfold sysFsync
  split
  · next d hd =>
      split
      · next hc =>
          simp only [Bool.and_eq_true, decide_eq_true_eq] at hc
          exact touched_acts hd hc.1.1 false
      · exact .refl image A s p
  · exact .refl image A s p

/-! ## Calls that name a file -/

section

variable (hA : ∀ path, Allowed s path → A path)
include hA

/-- What the calls that change the tree have in common. -/
theorem sysChange_acts (pid : ℕ) (abs : List UInt8) (refused granted : Bool)
    (layer : State → Bool) :
    Acts image A s p (sysChange s pid p abs refused granted layer) := by
  unfold sysChange
  simp only
  split
  · exact .refl image A s p
  next hguard =>
  have hallowed : A abs := by
    simp only [Bool.or_eq_true, not_or, Option.not_isSome_iff_eq_none] at hguard
    exact hA abs ⟨true, hguard.1⟩
  have hq : Descends image A s p (uacGuard s.uacNever granted p).1 := uacGuard_descends _ _ _
  have hset : Acts image A s p (s.setProc pid (uacGuard s.uacNever granted p).1) :=
    (Acts.refl image A s p).setProc hq
  split
  · exact hset.reached hq.launch (.inr hallowed)
  · exact hset

theorem sysFsWrite_acts (pid : ℕ) (path : List UInt8)
    (granted answer : Bool) : Acts image A s p (sysFsWrite s pid p path granted answer) := by
  unfold sysFsWrite
  exact sysChange_acts hA pid _ _ granted _

theorem sysUnlink_acts (pid : ℕ) (path : List UInt8) (found granted answer : Bool) :
    Acts image A s p (sysUnlink s pid p path found granted answer) := by
  unfold sysUnlink
  exact sysChange_acts hA pid _ _ granted _

theorem sysMkdir_acts (pid : ℕ) (path : List UInt8) (found granted answer : Bool) :
    Acts image A s p (sysMkdir s pid p path found granted answer) := by
  unfold sysMkdir
  exact sysChange_acts hA pid _ _ granted _

end

/-! ## Images -/

theorem sysFork_acts (child : ℕ) (answer : Bool) : Acts image A s p (sysFork s p child answer) := by
  unfold sysFork
  split
  · exact .refl image A s p
  refine ⟨rfl, fun x hx => ?_, fun a ha => .inl ha⟩
  rcases mem_cons.mp hx with rfl | hx
  · exact .inr ((Descends.refl image A s p).elevated false)
  · exact .inl hx

/-- Nothing is opened by an `execve`. -/
theorem keptOnExec_opened (hq : q.files = keptOnExec p.files) {path : List UInt8}
    (h : q.Opened path) :
    p.Opened path := by
  obtain ⟨d, hd, hvol, rfl⟩ := h
  rw [hq] at hd
  obtain ⟨o, ho, hkept⟩ := mem_map.mp hd
  cases o with
  | none => cases hkept
  | some e =>
    simp only [Option.bind_some] at hkept
    split at hkept
    · cases hkept
    · cases hkept
      exact ⟨d, ho, hvol, rfl⟩

theorem sysExecve_acts (hA : ∀ path, Allowed s path → A path) (pid : ℕ) (path : List UInt8)
    (read load : Bool) (answer : ℕ → Bool) :
    Acts load A s p (sysExecve s pid p path read load answer) := by
  unfold sysExecve
  simp only
  split
  · exact .refl load A s p
  next hguard =>
  have hread : Acts load A s p (s.reached p (fsNative path)) := by
    simp only [Bool.or_eq_true, not_or, Option.not_isSome_iff_eq_none] at hguard
    exact (Acts.refl load A s p).reached rfl (.inr (hA _ ⟨false, hguard.1⟩))
  cases load with
  | false => exact hread
  | true =>
    refine (closes_acts hread (fun d => d.kind ≠ .console && d.cloexec) answer _).setProc ?_
    exact ⟨rfl, .inr ⟨rfl, rfl, rfl⟩, fun path h => .inl (keptOnExec_opened rfl h)⟩

theorem sysExit_acts (pid : ℕ) (answer : ℕ → Bool) : Acts image A s p (sysExit s pid p answer) := by
  have h := closes_acts (.refl image A s p) (fun _ => true) answer (List.range p.files.length)
  exact ⟨h.users, fun x hx => h.procs x (mem_of_mem_filter hx), h.log⟩

/-! ## Steps -/

/-- The process that takes the step. -/
def Step.pid? : Step → Option ℕ
  | .login _ | .logout | .launch _ | .userAdd .. | .userDel .. => none
  | .fork pid .. | .execve pid .. | .exit pid _ | .open pid .. | .close pid .. | .read pid ..
  | .write pid .. | .fsync pid .. | .fsWrite pid .. | .unlink pid .. | .mkdir pid .. => some pid

/-- The step puts a new image in the place of the old one. -/
def Step.loads : Step → Bool
  | .execve _ _ _ load _ => load
  | _ => false

/-- The step names a path. -/
def Step.names : Step → Bool
  | .execve .. | .open .. | .fsWrite .. | .unlink .. | .mkdir .. => true
  | _ => false

theorem by_acts {f : Proc → State} (hf : ∀ p, Acts image A s p (f p)) :
    s.by pid f = s ∨ ∃ p, s.proc? pid = some p ∧ Acts image A s p (s.by pid f) := by
  unfold State.by
  cases hp : s.proc? pid with
  | none => exact .inl rfl
  | some p => exact .inr ⟨p, rfl, hf p⟩

/-- Step lemma: a call reaches what its process had opened or the guard lets through. -/
theorem step_acts (pwHash : Salt → List Char → Digest) (s : State) {x : Step}
    (hx : x.pid? = some pid) :
    s.step pwHash x = s ∨ ∃ p, s.proc? pid = some p ∧
      Acts x.loads (fun path => x.names = true ∧ Allowed s path) s p (s.step pwHash x) := by
  cases x <;> cases hx
  case fork => exact by_acts fun p => sysFork_acts _ _
  case execve => exact by_acts fun p => sysExecve_acts (fun _ h => ⟨rfl, h⟩) _ _ _ _ _
  case exit => exact by_acts fun p => sysExit_acts _ _
  case «open» => exact by_acts fun p => sysOpen_acts (fun _ h => ⟨rfl, h⟩) _ _ _ _ _ _
  case close => exact by_acts fun p => sysClose_acts _ _ _
  case read => exact by_acts fun p => sysRead_acts _ _
  case write => exact by_acts fun p => sysWrite_acts _ _ _
  case fsync => exact by_acts fun p => sysFsync_acts _ _ _
  case fsWrite => exact by_acts fun p => sysFsWrite_acts (fun _ h => ⟨rfl, h⟩) _ _ _ _
  case unlink => exact by_acts fun p => sysUnlink_acts (fun _ h => ⟨rfl, h⟩) _ _ _ _ _
  case mkdir => exact by_acts fun p => sysMkdir_acts (fun _ h => ⟨rfl, h⟩) _ _ _ _ _

theorem mem_of_proc? (h : s.proc? pid = some p) : (pid, p) ∈ s.procs := by
  obtain ⟨front, back, hsplit, -⟩ := lookup_eq_some_iff.mp h
  rw [hsplit]
  simp

end Vextro.Sessions
