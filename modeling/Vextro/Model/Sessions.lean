import Vextro.Model.FileLayer

/-! Who is signed in, the processes that were started meanwhile, and the calls by which a process
reaches a file: `main.c`, `desktop.h` and `vfs.h`.

What the volume, the heap, the loader and the person at the keyboard answer is an argument of the
call. -/

namespace Vextro.Sessions

open Accounts Profile
open Ntfs (upcaseByte)
open FileLayer (swapOwnsPath)

/-! ## Processes -/

inductive Kind where
  | console | file | dir | dev
  deriving DecidableEq

/-- `vfs_desc_t`, for what has a path. -/
structure Desc where
  kind : Kind
  path : List UInt8
  readable : Bool
  writable : Bool
  cloexec : Bool
  dirty : Bool
  deriving DecidableEq

def fdMax : ℕ := 64

/-- The session in which the first image of a process was launched. -/
structure Launch where
  /-- The name of the account, if anybody was signed in. -/
  account : Option (List Char)
  sid : ℕ
  admin : Bool
  deriving DecidableEq

/-- The part of `addr_space_t` that says who a process is and what it has open. -/
structure Proc where
  sid : ℕ
  sidAdmin : Bool
  /-- The token is `UAC_TOKEN_ELEVATED`. -/
  elevated : Bool
  files : List (Option Desc)
  launch : Launch
  deriving DecidableEq

/-- A path of the volume that a process has reached. -/
structure Access where
  path : List UInt8
  launch : Launch
  deriving DecidableEq

structure State where
  users : Users
  /-- The files of the account table. -/
  table : Accounts.Files
  /-- `uac_level` is `UAC_NEVER`. -/
  uacNever : Bool
  swapReady : Bool
  procs : List (ℕ × Proc)
  /-- Every access that succeeded, the latest first. -/
  log : List Access

def State.proc? (s : State) (pid : ℕ) : Option Proc := s.procs.lookup pid

def State.setProc (s : State) (pid : ℕ) (p : Proc) : State :=
  { s with procs := s.procs.map fun x => if x.1 = pid then (pid, p) else x }

def State.reached (s : State) (p : Proc) (path : List UInt8) : State :=
  { s with log := ⟨path, p.launch⟩ :: s.log }

/-! ## The guards -/

/-- `uac_guard` on behalf of a process; `granted` is the answer to the prompt. -/
def uacGuard (never granted : Bool) (p : Proc) : Proc × Bool :=
  if p.elevated then (p, true)
  else if never then ({ p with elevated := true }, true)
  else if !p.sidAdmin then (p, false)
  else if granted then ({ p with elevated := true }, true)
  else (p, false)

/-- The paths of `dev_table` and `dev_dirs`. -/
def devPaths : List (List UInt8) :=
  [['/', 'd', 'e', 'v', '/', 'n', 'u', 'l', 'l'], ['/', 'd', 'e', 'v', '/', 'z', 'e', 'r', 'o'],
    ['/', 'd', 'e', 'v', '/', 'f', 'u', 'l', 'l'],
    ['/', 'd', 'e', 'v', '/', 'r', 'a', 'n', 'd', 'o', 'm'],
    ['/', 'd', 'e', 'v', '/', 'u', 'r', 'a', 'n', 'd', 'o', 'm'],
    ['/', 'd', 'e', 'v', '/', 't', 't', 'y'],
    ['/', 'd', 'e', 'v', '/', 'd', 'r', 'i', '/', 'c', 'a', 'r', 'd', '0'],
    ['/', 'd', 'e', 'v', '/', 'd', 'r', 'i', '/', 'r', 'e', 'n', 'd', 'e', 'r', 'D', '1', '2', '8'],
    ['/', 'd', 'e', 'v'], ['/', 'd', 'e', 'v', '/', 'd', 'r', 'i']].map bytesOf

def devClaims (abs : List UInt8) : Bool :=
  devPaths.any fun path => abs.map upcaseByte = path.map upcaseByte

/-- `fs_write_file` and `fs_delete`, if the volume then does it. -/
def writesBack (s : State) (path : List UInt8) (answer : Bool) : Bool :=
  (profMay s.users path true).isNone && !swapOwnsPath s.swapReady path && answer

/-! ## Opening -/

structure OpenFlags where
  (readable writable creat excl trunc directory cloexec : Bool)
  deriving DecidableEq

/-- What the volume has at a path, if anything. -/
inductive Found where
  | none | file | dir
  deriving DecidableEq

/-- `vfs_open`; `answer` says whether the rest of it, which reads the file or its listing into
memory, succeeds. -/
def vfsOpen (abs : List UInt8) (f : OpenFlags) (found : Found) (answer : Bool) : Option Desc :=
  if devClaims abs then
    if answer then some ⟨.dev, abs, f.readable, f.writable, f.cloexec, false⟩ else none
  else if f.directory && found ≠ .dir then none
  else
    match found with
    | .dir =>
      if f.readable && !f.writable && answer then some ⟨.dir, abs, true, false, f.cloexec, false⟩
      else none
    | found =>
      if found = .none && !f.creat then none
      else if found = .file && f.creat && f.excl then none
      else if !answer then none
      else some ⟨.file, abs, f.readable, f.writable, f.cloexec,
        f.writable && (found = .none || f.trunc)⟩

def vfsAlloc (files : List (Option Desc)) : Option ℕ := files.findIdx? Option.isNone

def sysOpen (s : State) (pid : ℕ) (p : Proc) (path : List UInt8) (f : OpenFlags) (found : Found)
    (granted answer : Bool) : State :=
  let abs := fsNative path
  let isDev := devClaims abs
  if !isDev && (profMay s.users abs f.writable).isSome then s
  else if !isDev && f.writable && swapOwnsPath s.swapReady abs then s
  else
    let (p, ok) := if !isDev && f.writable then uacGuard s.uacNever granted p else (p, true)
    let s := s.setProc pid p
    if !ok then s
    else
      match vfsAlloc p.files with
      | none => s
      | some fd =>
        match vfsOpen abs f found answer with
        | none => s
        | some d =>
          let s := s.setProc pid { p with files := p.files.set fd (some d) }
          if isDev then s else s.reached p abs

/-! ## Descriptors -/

/-- `vfs_close_desc`: what was written to the image goes to the volume. -/
def closeDesc (s : State) (p : Proc) (d : Desc) (answer : Bool) : State :=
  if d.kind = .file && d.dirty && writesBack s d.path answer then s.reached p d.path else s

def sysClose (s : State) (pid : ℕ) (p : Proc) (fd : ℕ) (answer : Bool) : State :=
  match p.files[fd]? with
  | some (some d) =>
    (closeDesc s p d answer).setProc pid { p with files := p.files.set fd none }
  | _ => s

/-- `SYS_READ` and `SYS_GETDENTS`, which ask nobody. -/
def sysRead (s : State) (p : Proc) (fd : ℕ) (answer : Bool) : State :=
  match p.files[fd]? with
  | some (some d) =>
    if (d.kind = .file || d.kind = .dir) && d.readable && answer then s.reached p d.path else s
  | _ => s

/-- `SYS_WRITE` to a file changes the image. -/
def sysWrite (s : State) (pid : ℕ) (p : Proc) (fd : ℕ) (answer : Bool) : State :=
  match p.files[fd]? with
  | some (some d) =>
    if d.kind = .file && d.writable && answer then
      (s.setProc pid { p with files := p.files.set fd (some { d with dirty := true }) }).reached p
        d.path
    else s
  | _ => s

def sysFsync (s : State) (pid : ℕ) (p : Proc) (fd : ℕ) (answer : Bool) : State :=
  match p.files[fd]? with
  | some (some d) =>
    if d.kind = .file && d.dirty && writesBack s d.path answer then
      (s.setProc pid { p with files := p.files.set fd (some { d with dirty := false }) }).reached p
        d.path
    else s
  | _ => s

/-! ## Calls that name a file -/

/-- The calls that change a file by its name: the profile, what is checked before the prompt, the
prompt, and then the function of the file layer. -/
def sysChange (s : State) (pid : ℕ) (p : Proc) (abs : List UInt8) (refused granted : Bool)
    (layer : State → Bool) : State :=
  if (profMay s.users abs true).isSome || refused then s
  else
    let (p, ok) := uacGuard s.uacNever granted p
    let s := s.setProc pid p
    if ok && layer s then s.reached p abs else s

def sysFsWrite (s : State) (pid : ℕ) (p : Proc) (path : List UInt8)
    (granted answer : Bool) : State :=
  let abs := fsNative path
  sysChange s pid p abs false granted fun s => writesBack s abs answer

/-- `SYS_UNLINK`; `found` says whether there is such a file. -/
def sysUnlink (s : State) (pid : ℕ) (p : Proc) (path : List UInt8)
    (found granted answer : Bool) : State :=
  let abs := fsNative path
  sysChange s pid p abs (swapOwnsPath s.swapReady abs || !found) granted
    fun s => writesBack s abs answer

/-- `SYS_MKDIR`; `fs_mkdir` does not know the pagefile. -/
def sysMkdir (s : State) (pid : ℕ) (p : Proc) (path : List UInt8)
    (found granted answer : Bool) : State :=
  let abs := fsNative path
  sysChange s pid p abs found granted fun s => (profMay s.users abs true).isNone && answer

/-! ## Images -/

/-- The token that `app_map_image` and `pe_spawn` give to whatever they load. -/
def State.sid (s : State) : ℕ := (s.users.current + 1).toNat

def State.sidAdmin (s : State) : Bool := userIsAdmin s.users s.users.current

/-- Whose session it is. -/
def State.session (s : State) : Launch where
  account := if s.users.current < 0 then none
    else (s.users.users[s.users.current.toNat]?).map Account.name
  sid := s.sid
  admin := s.sidAdmin

/-- A program started from the desktop. -/
def launch (s : State) (pid : ℕ) : State :=
  if (s.proc? pid).isSome then s
  else
    { s with procs := (pid, ⟨s.sid, s.sidAdmin, false,
        List.replicate 3 (some ⟨.console, [], false, false, false, false⟩) ++
          List.replicate (fdMax - 3) none, s.session⟩) :: s.procs }

/-- `SYS_FORK`: the token is inherited, and the elevation is not. -/
def sysFork (s : State) (p : Proc) (child : ℕ) (answer : Bool) : State :=
  if (s.proc? child).isSome || !answer then s
  else { s with procs := (child, { p with elevated := false }) :: s.procs }

/-- The descriptors that do not survive an `execve`, closed in order. -/
def closeOnExec (s : State) (p : Proc) (answer : ℕ → Bool) : State :=
  (List.range p.files.length).foldl (fun s fd =>
    match p.files[fd]? with
    | some (some d) => if d.kind ≠ .console && d.cloexec then closeDesc s p d (answer fd) else s
    | _ => s) s

def keptOnExec (files : List (Option Desc)) : List (Option Desc) :=
  files.map fun d => d.bind fun d => if d.kind ≠ .console && d.cloexec then none else some d

/-- `sys_execve`: `read` says whether the file could be read, `load` whether it was taken. -/
def sysExecve (s : State) (pid : ℕ) (p : Proc) (path : List UInt8) (read load : Bool)
    (answer : ℕ → Bool) : State :=
  let abs := fsNative path
  if (profMay s.users abs false).isSome || !read then s
  else
    let s := s.reached p abs
    if !load then s
    else
      (closeOnExec s p answer).setProc pid
        { p with
          sid := s.sid, sidAdmin := s.sidAdmin, elevated := false, files := keptOnExec p.files }

/-- The end of a process, as the thread sees it that cleans up: the descriptors are closed in
order. -/
def sysExit (s : State) (pid : ℕ) (p : Proc) (answer : ℕ → Bool) : State :=
  let s := (List.range p.files.length).foldl (fun s fd =>
    match p.files[fd]? with
    | some (some d) => closeDesc s p d (answer fd)
    | _ => s) s
  { s with procs := s.procs.filter fun x => x.1 ≠ pid }

/-! ## Sessions -/

/-- The right password at the login screen, which is there while nobody is signed in. -/
def login (s : State) (idx : ℕ) : State :=
  if s.users.current < 0 && idx < s.users.users.length then
    { s with users := { s.users with current := idx } }
  else s

/-- Logging out ends no process. -/
def logout (s : State) : State := { s with users := { s.users with current := -1 } }

/-- `user_add` or `user_del`; where the machine stops, it starts again from the table on disk. -/
def account (s : State) (o : Outcome) : State :=
  match o with
  | .returned files users _ _ => { s with users := users, table := files }
  | .crashed files => { s with users := ⟨usersLoad files, -1⟩, table := files, procs := [] }

inductive Step where
  | login (idx : ℕ)
  | logout
  | launch (pid : ℕ)
  | userAdd (name pw : List Char) (admin : Bool) (salt : Salt) (plan : Plan)
  | userDel (name : List Char) (plan : Plan)
  | fork (pid child : ℕ) (answer : Bool)
  | execve (pid : ℕ) (path : List UInt8) (read load : Bool) (answer : ℕ → Bool)
  | exit (pid : ℕ) (answer : ℕ → Bool)
  | open (pid : ℕ) (path : List UInt8) (f : OpenFlags) (found : Found) (granted answer : Bool)
  | close (pid fd : ℕ) (answer : Bool)
  | read (pid fd : ℕ) (answer : Bool)
  | write (pid fd : ℕ) (answer : Bool)
  | fsync (pid fd : ℕ) (answer : Bool)
  | fsWrite (pid : ℕ) (path : List UInt8) (granted answer : Bool)
  | unlink (pid : ℕ) (path : List UInt8) (found granted answer : Bool)
  | mkdir (pid : ℕ) (path : List UInt8) (found granted answer : Bool)

/-- What a process does, if there is one of this number. -/
def State.by (s : State) (pid : ℕ) (f : Proc → State) : State := ((s.proc? pid).map f).getD s

def State.step (pwHash : Salt → List Char → Digest) (s : State) : Step → State
  | .login idx => login s idx
  | .logout => logout s
  | .launch pid => launch s pid
  | .userAdd name pw admin salt plan =>
    account s (Accounts.userAdd pwHash s.users s.table name pw admin salt plan)
  | .userDel name plan => account s (Accounts.userDel s.users s.table name plan)
  | .fork pid child answer => s.by pid fun p => sysFork s p child answer
  | .execve pid path read load answer => s.by pid fun p => sysExecve s pid p path read load answer
  | .exit pid answer => s.by pid fun p => sysExit s pid p answer
  | .open pid path f found granted answer =>
    s.by pid fun p => sysOpen s pid p path f found granted answer
  | .close pid fd answer => s.by pid fun p => sysClose s pid p fd answer
  | .read pid fd answer => s.by pid fun p => sysRead s p fd answer
  | .write pid fd answer => s.by pid fun p => sysWrite s pid p fd answer
  | .fsync pid fd answer => s.by pid fun p => sysFsync s pid p fd answer
  | .fsWrite pid path granted answer => s.by pid fun p => sysFsWrite s pid p path granted answer
  | .unlink pid path found granted answer =>
    s.by pid fun p => sysUnlink s pid p path found granted answer
  | .mkdir pid path found granted answer =>
    s.by pid fun p => sysMkdir s pid p path found granted answer

end Vextro.Sessions
