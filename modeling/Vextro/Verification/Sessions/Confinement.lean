import Vextro.Verification.Sessions.Calls
import Vextro.Verification.Accounts.Survival
import Vextro.Verification.Shared.Run

/-! Which account a process belongs to, and which profiles it can reach, over whole runs. -/

namespace Vextro.Sessions

open Accounts Profile List

/-- Every process has the token it was launched with, and one sid is one account. -/
def Stable (s : State) : Prop :=
  (∀ x ∈ s.procs, x.2.sid = x.2.launch.sid ∧ x.2.sidAdmin = x.2.launch.admin) ∧
    ∀ x ∈ s.procs, ∀ y ∈ s.procs, x.2.sid = y.2.sid → x.2.launch.account = y.2.launch.account

/-- The name of the account that has a sid. -/
def accountAt (users : List Account) : ℕ → Option (List Char)
  | 0 => none
  | k + 1 => (users[k]?).map Account.name

/-- The process has the token of its launch, and its sid is still that account's. -/
structure Recorded (users : List Account) (p : Proc) : Prop where
  sid : p.sid = p.launch.sid
  admin : p.sidAdmin = p.launch.admin
  bound : p.sid ≤ users.length
  account : accountAt users p.sid = p.launch.account

structure Identified (s : State) : Prop where
  current : s.users.current < s.users.users.length
  recorded : ∀ x ∈ s.procs, Recorded s.users.users x.2

theorem Identified.stable {s : State} (h : Identified s) : Stable s := by
  refine ⟨fun x hx => ⟨(h.recorded x hx).sid, (h.recorded x hx).admin⟩, fun x hx y hy hsid => ?_⟩
  rw [← (h.recorded x hx).account, ← (h.recorded y hy).account, hsid]

/-- What a run may do: a process takes a new image while its own account is signed in, and no
account is removed while a process has its sid or a higher one. -/
def Step.keepsIdentity (s : State) : Step → Bool
  | .execve pid _ _ load _ =>
    !load || (s.proc? pid).all fun p => p.sid = s.sid && p.sidAdmin = s.sidAdmin
  | .userDel name _ =>
    (userFind s.users name).all fun idx => s.procs.all fun x => x.2.sid ≤ idx
  | _ => true

variable {s : State}

/-! ## The table -/

theorem Recorded.append {users : List Account} {p : Proc} (h : Recorded users p) (u : Account) :
    Recorded (users ++ [u]) p := by
  have hbound := h.bound
  refine ⟨h.sid, h.admin, by simp; omega, ?_⟩
  rw [← h.account]
  cases hsid : p.sid with
  | zero => rfl
  | succ k => rw [accountAt, accountAt, getElem?_append_left (by omega)]

theorem Recorded.eraseIdx {users : List Account} {p : Proc} (h : Recorded users p) {idx : ℕ}
    (hidx : idx < users.length) (hsid : p.sid ≤ idx) : Recorded (users.eraseIdx idx) p := by
  refine ⟨h.sid, h.admin, by rw [length_eraseIdx_of_lt hidx]; omega, ?_⟩
  rw [← h.account]
  cases hk : p.sid with
  | zero => rfl
  | succ k => rw [accountAt, accountAt, getElem?_eraseIdx_of_lt (by omega)]

theorem account_identified {o : Outcome}
    (hreturned : ∀ files users ret err, o = .returned files users ret err →
      users.current < users.users.length ∧ ∀ x ∈ s.procs, Recorded users.users x.2) :
    Identified (account s o) := by
  cases o with
  | crashed files => exact ⟨by simp [Sessions.account]; omega, fun x hx => by cases hx⟩
  | returned files users ret err =>
    obtain ⟨hcurrent, hrecorded⟩ := hreturned files users ret err rfl
    exact ⟨hcurrent, hrecorded⟩

theorem Identified.userAdd (h : Identified s) (pwHash : Salt → List Char → Digest)
    (name pw : List Char) (admin : Bool) (salt : Salt) (plan : Plan) :
    Identified
      (Sessions.account s (Accounts.userAdd pwHash s.users s.table name pw admin salt plan)) := by
  refine account_identified fun files users ret err ho => ?_
  have hsame : users = s.users ∨ ∃ u, users = { s.users with users := s.users.users ++ [u] } := by
    unfold Accounts.userAdd at ho
    simp only at ho
    repeat' split at ho
    all_goals cases ho
    all_goals first | exact .inl rfl | exact .inr ⟨_, rfl⟩
  rcases hsame with rfl | ⟨u, rfl⟩
  · exact ⟨h.current, h.recorded⟩
  · have hcurrent := h.current
    exact ⟨by simp; omega, fun x hx => (h.recorded x hx).append u⟩

theorem Identified.userDel (h : Identified s) (name : List Char) (plan : Plan)
    (hkeep : ∀ idx, userFind s.users name = some idx → ∀ x ∈ s.procs, x.2.sid ≤ idx) :
    Identified (Sessions.account s (Accounts.userDel s.users s.table name plan)) := by
  refine account_identified fun files users ret err ho => ?_
  unfold Accounts.userDel at ho
  split at ho
  · cases ho
    exact ⟨h.current, h.recorded⟩
  next idx hfind =>
  split at ho
  · cases ho
    exact ⟨h.current, h.recorded⟩
  next hother =>
  split at ho
  · cases ho
    exact ⟨h.current, h.recorded⟩
  have hidx : idx < s.users.users.length := (findIdx?_eq_some_iff_getElem.mp hfind).1
  obtain rfl := saved_state ho
  have hcurrent := h.current
  have hlen := length_eraseIdx_of_lt hidx
  refine ⟨?_, fun x hx => (h.recorded x hx).eraseIdx hidx (hkeep idx hfind x hx)⟩
  simp only [hlen]
  split <;> omega

/-! ## Steps -/

theorem Identified.launch (h : Identified s) (pid : ℕ) : Identified (launch s pid) := by
  unfold Sessions.launch
  split
  · exact h
  refine ⟨h.current, fun x hx => ?_⟩
  rcases mem_cons.mp hx with rfl | hx
  · have hcurrent := h.current
    refine ⟨rfl, rfl, by simp only [State.sid]; omega, ?_⟩
    simp only [State.sid, State.session]
    split
    · next hneg =>
        rw [show (s.users.current + 1).toNat = 0 by omega]
        rfl
    next hpos =>
      rw [show (s.users.current + 1).toNat = s.users.current.toNat + 1 by omega]
      rfl
  · exact h.recorded x hx

theorem Identified.login (h : Identified s) (idx : ℕ) : Identified (login s idx) := by
  unfold Sessions.login
  split
  · next hc =>
      simp only [Bool.and_eq_true, decide_eq_true_eq] at hc
      exact ⟨by simpa using hc.2, h.recorded⟩
  · exact h

theorem Identified.acts {image : Bool} {A : List UInt8 → Prop} {p : Proc} {s' : State} {pid : ℕ}
    (h : Identified s) (hp : s.proc? pid = some p)
    (himage : image → p.sid = s.sid ∧ p.sidAdmin = s.sidAdmin) (hacts : Acts image A s p s') :
    Identified s' := by
  refine ⟨hacts.users ▸ h.current, fun x hx => ?_⟩
  rw [hacts.users]
  rcases hacts.procs x hx with hx | hdesc
  · exact h.recorded x hx
  have hrecorded := h.recorded _ (mem_of_proc? hp)
  have htoken : x.2.sid = p.sid ∧ x.2.sidAdmin = p.sidAdmin := by
    rcases hdesc.token with htoken | ⟨himg, hsid, hadmin⟩
    · exact htoken
    · exact ⟨hsid.trans (himage himg).1.symm, hadmin.trans (himage himg).2.symm⟩
  refine ⟨?_, ?_, ?_, ?_⟩
  · rw [htoken.1, hdesc.launch, hrecorded.sid]
  · rw [htoken.2, hdesc.launch, hrecorded.admin]
  · rw [htoken.1]
    exact hrecorded.bound
  · rw [htoken.1, hdesc.launch, hrecorded.account]

theorem session_identified (pwHash : Salt → List Char → Digest) {x : Step} (h : Identified s)
    (hpid : x.pid? = none) (hx : x.keepsIdentity s) : Identified (s.step pwHash x) := by
  cases x <;> cases hpid
  case login idx => exact h.login idx
  case logout => exact ⟨by simp [State.step, logout]; omega, h.recorded⟩
  case launch pid => exact h.launch pid
  case userAdd name pw admin salt plan => exact h.userAdd pwHash name pw admin salt plan
  case userDel name plan =>
      refine h.userDel name plan fun idx hfind x hx' => ?_
      simp only [Step.keepsIdentity, hfind, Option.all_some, all_eq_true, decide_eq_true_eq] at hx
      exact hx x hx'

theorem step_identified (pwHash : Salt → List Char → Digest) (s : State) (x : Step)
    (h : Identified s) (hx : x.keepsIdentity s) : Identified (s.step pwHash x) := by
  cases hpid : x.pid? with
  | none => exact session_identified pwHash h hpid hx
  | some pid =>
    rcases step_acts pwHash s hpid with hsame | ⟨p, hp, hacts⟩
    · rwa [hsame]
    refine h.acts hp (fun hloads => ?_) hacts
    -- only `execve` loads an image
    cases x <;> cases hloads
    cases hpid
    simpa [Step.keepsIdentity, hp] using hx

/-- The machine after it has started: nobody is signed in and no program runs. -/
def booted (users : List Account) (table : Accounts.Files) (uacNever swapReady : Bool) : State :=
  ⟨⟨users, -1⟩, table, uacNever, swapReady, [], []⟩

/-- In every run in which processes take new images only in their own account's sessions, and
accounts are not removed under the processes of the same or later ones. -/
theorem identity_stable (pwHash : Salt → List Char → Digest) (users : List Account)
    (table : Accounts.Files) (uacNever swapReady : Bool) (steps : List Step)
    (hsteps : Run.Meets (State.step pwHash) (fun s x => x.keepsIdentity s = true)
      (booted users table uacNever swapReady) steps) (n : ℕ) :
    Stable ((steps.take n).foldl (State.step pwHash) (booted users table uacNever swapReady)) := by
  have hboot : Identified (booted users table uacNever swapReady) :=
    ⟨by simp [booted]; omega, fun x hx => by cases hx⟩
  exact (Run.invariant_take (step_identified pwHash) hboot hsteps n).stable

/-! ## Two accounts -/

def plainHash (_ : Salt) (_ : List Char) : Digest := .zero

def plainAccount (name : List Char) (admin : Bool) : Account :=
  ⟨name, .zero, plainHash .zero [], admin⟩

/-- An administrator and somebody else. -/
def twoAccounts : State :=
  booted [plainAccount ['a', 'n', 'n'] true, plainAccount ['b', 'o', 'b'] false]
    ⟨none, none⟩ false false

def shellPath : List UInt8 := slash :: bytesOf ['s', 'h']

/-- A program that forks and takes a new image while the one who started it is signed in. -/
theorem identity_stable_shell :
    Stable ([.login 1, .launch 7, .fork 7 8 true, .execve 8 shellPath true true fun _ => true,
      .logout].foldl (State.step plainHash) twoAccounts) :=
  identity_stable plainHash _ ⟨none, none⟩ false false
    [.login 1, .launch 7, .fork 7 8 true, .execve 8 shellPath true true fun _ => true, .logout]
    (by decide +kernel) 5

/-- A program of the second account takes a new image in the administrator's session, and is the
administrator's from then on. -/
theorem execve_changes_account :
    let s := [.login 1, .launch 7, .logout, .login 0,
      .execve 7 shellPath true true fun _ => true].foldl (State.step plainHash) twoAccounts
    (s.proc? 7).map (fun p => (p.launch.account, p.launch.sid, p.launch.admin, p.sid, p.sidAdmin)) =
        some (some ['b', 'o', 'b'], 2, false, 1, true) ∧
      ¬Stable s := by
  refine ⟨by decide +kernel, fun h => ?_⟩
  have hsame : ∀ x ∈ ([.login 1, .launch 7, .logout, .login 0,
      .execve 7 shellPath true true fun _ => true].foldl (State.step plainHash) twoAccounts).procs,
      x.2.sid = x.2.launch.sid := fun x hx => (h.1 x hx).1
  exact absurd hsame (by decide +kernel)

/-! ## Profiles -/

/-- The process was launched in the session of an account that is not an administrator's. -/
def Launch.restricted (l : Launch) : Bool := l.account.isSome && !l.admin

/-- The path is inside the profile of an account other than the one of the launch. -/
def Foreign (users : List Account) (l : Launch) (path : List UInt8) : Prop :=
  ∃ canon owner, profCanon path = some canon ∧ profOwnerOf users canon = some owner ∧
  owner + 1 ≠ l.sid

/-- No restricted process has reached a path inside another account's profile. -/
def Confined (s : State) : Prop :=
  ∀ a ∈ s.log, a.launch.restricted = true → ¬Foreign s.users.users a.launch a.path

/-- The guard, for the account that is signed in. -/
theorem not_foreign_of_allowed {s : State} {l : Launch} {path : List UInt8} (h : Allowed s path)
    (hown : s.users.current + 1 = l.sid) (hsid : l.sid ≠ 0)
    (hadmin : userIsAdmin s.users s.users.current = false) : ¬Foreign s.users.users l path := by
  rintro ⟨canon, owner, hcanon, howner, hne⟩
  obtain ⟨write, hmay⟩ := h
  rw [profMay, if_neg (by omega), if_neg (by simp [hadmin]), hcanon] at hmay
  simp only [howner] at hmay
  rw [if_neg (by omega)] at hmay
  split at hmay <;> cases hmay

/-- What a launch says about the table, which the steps considered here leave alone. -/
structure Launch.Of (users : List Account) (l : Launch) : Prop where
  signedIn : l.account.isSome = true → l.sid ≠ 0
  admin : ∀ k : ℕ, l.sid = k + 1 → l.admin = userIsAdmin ⟨users, k⟩ k

/-- The processes know their accounts, and what the restricted ones have open is not another's. -/
structure Shut (s : State) : Prop where
  launches : ∀ x ∈ s.procs, Launch.Of s.users.users x.2.launch
  opened : ∀ x ∈ s.procs, x.2.launch.restricted = true → ∀ path, x.2.Opened path →
    ¬Foreign s.users.users x.2.launch path
  confined : Confined s

/-- What a run may do: a restricted process names a path only while its own account is signed in.
The accounts stay as they are. -/
def Step.keepsOut (s : State) (x : Step) : Bool :=
  match x with
  | .userAdd .. | .userDel .. => false
  | x => !x.names || (x.pid?.bind s.proc?).all fun p =>
    !p.launch.restricted || s.users.current + 1 = p.launch.sid

theorem userIsAdmin_current (users : List Account) (current k : ℤ) :
    userIsAdmin ⟨users, current⟩ k = userIsAdmin ⟨users, k⟩ k := rfl

theorem session_of (s : State) : Launch.Of s.users.users s.session := by
  constructor
  · intro h
    simp only [State.session, State.sid] at h ⊢
    split at h
    · cases h
    · omega
  · intro k hk
    simp only [State.session, State.sid, State.sidAdmin] at hk ⊢
    rw [show s.users.current = (k : ℤ) by omega]
    exact userIsAdmin_current _ _ _

/-- A step that leaves the table, the processes and the log. -/
theorem Shut.signed (h : Shut s) (current : ℤ) :
    Shut { s with users := { s.users with current := current } } :=
    ⟨h.launches, h.opened, h.confined⟩

theorem Shut.launch (h : Shut s) (pid : ℕ) : Shut (launch s pid) := by
  unfold Sessions.launch
  split
  · exact h
  refine ⟨fun x hx => ?_, fun x hx => ?_, h.confined⟩
  · rcases mem_cons.mp hx with rfl | hx
    · exact session_of s
    · exact h.launches x hx
  rcases mem_cons.mp hx with rfl | hx
  · -- a program starts with the console and nothing else
    rintro - path ⟨d, hd, hvol, -⟩
    rcases mem_append.mp hd with hd | hd
    · obtain rfl := Option.some.inj (eq_of_mem_replicate hd)
      simp [Desc.onVolume] at hvol
    · cases eq_of_mem_replicate hd
  · exact h.opened x hx

theorem Shut.acts {image : Bool} {A : List UInt8 → Prop} {p : Proc}
    {s' : State} {pid : ℕ} (h : Shut s) (hp : s.proc? pid = some p)
    (hA : p.launch.restricted → ∀ path, A path → ¬Foreign s.users.users p.launch path)
    (hacts : Acts image A s p s') : Shut s' := by
  have hmem := mem_of_proc? hp
  have hopen : p.launch.restricted = true → ∀ path, p.Opened path ∨ A path →
      ¬Foreign s.users.users p.launch path := by
    rintro hres path (hpath | hpath)
    · exact h.opened _ hmem hres path hpath
    · exact hA hres path hpath
  refine ⟨fun x hx => ?_, fun x hx hres path hpath => ?_, fun a ha hres => ?_⟩
  · rw [hacts.users]
    rcases hacts.procs x hx with hx | hdesc
    · exact h.launches x hx
    · rw [hdesc.launch]
      exact h.launches _ hmem
  · rw [hacts.users]
    rcases hacts.procs x hx with hx | hdesc
    · exact h.opened x hx hres path hpath
    · rw [hdesc.launch] at hres ⊢
      exact hopen hres path (hdesc.opened path hpath)
  · rw [hacts.users]
    rcases hacts.log a ha with ha | ⟨hlaunch, hpath⟩
    · exact h.confined a ha hres
    · rw [hlaunch] at hres ⊢
      exact hopen hres a.path hpath

/-- The account of a restricted process, signed in, is not an administrator's. -/
theorem Shut.allowed (h : Shut s) {p : Proc} {pid : ℕ} (hp : s.proc? pid = some p)
    (hres : p.launch.restricted) (hown : s.users.current + 1 = p.launch.sid)
    {path : List UInt8} (hpath : Allowed s path) : ¬Foreign s.users.users p.launch path := by
  have hof := h.launches _ (mem_of_proc? hp)
  simp only [Launch.restricted, Bool.and_eq_true, Bool.not_eq_true'] at hres
  have hsid := hof.signedIn hres.1
  refine not_foreign_of_allowed hpath hown hsid ?_
  obtain ⟨k, hk⟩ := Nat.exists_eq_succ_of_ne_zero hsid
  rw [show s.users.current = (k : ℤ) by rw [hk] at hown; push_cast at hown; omega]
  exact (hof.admin k hk).symm.trans hres.2

theorem step_shut (pwHash : Salt → List Char → Digest) (s : State) (x : Step) (h : Shut s)
    (hx : x.keepsOut s) : Shut (s.step pwHash x) := by
  cases hpid : x.pid? with
  | none =>
    cases x <;> cases hpid <;> try cases hx
    · unfold State.step login
      simp only
      split
      · exact h.signed _
      · exact h
    · exact h.signed _
    · exact h.launch _
  | some pid =>
    rcases step_acts pwHash s hpid with hsame | ⟨p, hp, hacts⟩
    · rwa [hsame]
    refine h.acts hp (fun hres path hpath => h.allowed hp hres ?_ hpath.2) hacts
    have hkeep : (!x.names || (x.pid?.bind s.proc?).all fun p =>
        !p.launch.restricted || s.users.current + 1 = p.launch.sid) = true := by
      cases x <;> first | exact hx | cases hx
    simpa [hpath.1, hpid, hp, hres] using hkeep

/-- In every run in which the processes of accounts that are not administrators name paths only
while their own account is signed in, no such process reaches another account's profile. -/
theorem profiles_confined (pwHash : Salt → List Char → Digest) (users : List Account)
    (table : Accounts.Files) (uacNever swapReady : Bool) (steps : List Step)
    (hsteps : Run.Meets (State.step pwHash) (fun s x => x.keepsOut s = true)
      (booted users table uacNever swapReady) steps) (n : ℕ) :
    Confined
      ((steps.take n).foldl (State.step pwHash) (booted users table uacNever swapReady)) := by
  have hboot : Shut (booted users table uacNever swapReady) :=
    ⟨fun _ hx => (not_mem_nil hx).elim, fun _ hx => (not_mem_nil hx).elim,
      fun _ ha => (not_mem_nil ha).elim⟩
  exact (Run.invariant_take (step_shut pwHash) hboot hsteps n).confined

/-! ## A program that stays behind -/

/-- Two people besides the administrator. -/
def threeAccounts : State :=
  booted [plainAccount ['a', 'n', 'n'] true, plainAccount ['b', 'o', 'b'] false,
    plainAccount ['e', 'v', 'e'] false] ⟨none, none⟩ false false

def homeOf (name : List Char) : List UInt8 := profileLegacy ++ slash :: bytesOf name

def toRead : OpenFlags := ⟨true, false, false, false, false, false, false⟩

/-- A program reads its owner's home, and goes on reading it after they have left. -/
theorem profiles_confined_own :
    Confined
      ([.login 1, .launch 7, .open 7 (homeOf ['b', 'o', 'b']) toRead .dir false true, .logout,
      .login 2, .read 7 3 true].foldl (State.step plainHash) threeAccounts) :=
  profiles_confined plainHash _ ⟨none, none⟩ false false
    [.login 1, .launch 7, .open 7 (homeOf ['b', 'o', 'b']) toRead .dir false true, .logout,
      .login 2, .read 7 3 true] (by decide +kernel) 6

/-- After its owner has logged out, a program opens the home of somebody else. -/
theorem logout_opens_profile :
    let s :=
      [.login 1, .launch 7, .logout, .open 7 (homeOf ['e', 'v', 'e']) toRead .dir false true].foldl
      (State.step plainHash) threeAccounts
    s.log = [⟨homeOf ['e', 'v', 'e'], ⟨some ['b', 'o', 'b'], 2, false⟩⟩] ∧ ¬Confined s := by
  have hlog :
      ([.login 1, .launch 7, .logout, .open 7 (homeOf ['e', 'v', 'e']) toRead .dir false true].foldl
      (State.step plainHash) threeAccounts).log =
      [⟨homeOf ['e', 'v', 'e'], ⟨some ['b', 'o', 'b'], 2, false⟩⟩] := by decide +kernel
  refine ⟨hlog, fun h => ?_⟩
  refine h ⟨homeOf ['e', 'v', 'e'], ⟨some ['b', 'o', 'b'], 2, false⟩⟩
    (by exact mem_singleton_self _) rfl ?_
  exact ⟨homeOf ['e', 'v', 'e'], 2, by decide +kernel, by decide +kernel, by decide⟩

end Vextro.Sessions
