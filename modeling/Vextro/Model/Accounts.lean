import Mathlib.Data.List.Basic
import Mathlib.Data.Nat.Init

/-! User accounts: `users.h`.

A string is the list of its characters, without the final NUL. Of the volume only the two files
of the table matter here; how each call of the file system ends, and where the machine stops, is
an argument of the operation. -/

namespace Vextro.Accounts

def userMax : ℕ := 8
def userNameMax : ℕ := 9

abbrev Salt := { s : List UInt8 // s.length = 8 }
abbrev Digest := { h : List UInt8 // h.length = 32 }

/-- What an entry of the table holds before it is filled. -/
def Salt.zero : Salt := ⟨List.replicate 8 0, rfl⟩

def Digest.zero : Digest := ⟨List.replicate 32 0, rfl⟩

/-- `user_t` -/
structure Account where
  name : List Char
  salt : Salt
  hash : Digest
  admin : Bool
  deriving DecidableEq

structure Users where
  users : List Account
  /-- `user_current`, negative while nobody is signed in. -/
  current : ℤ
  deriving DecidableEq

/-! ## Helpers -/

def uHexval (c : Char) : Option ℕ :=
  if '0' ≤ c ∧ c ≤ '9' then some (c.toNat - '0'.toNat)
  else if 'a' ≤ c ∧ c ≤ 'f' then some (c.toNat - 'a'.toNat + 10)
  else if 'A' ≤ c ∧ c ≤ 'F' then some (c.toNat - 'A'.toNat + 10)
  else none

def hexDigits : List Char :=
  ['0', '1', '2', '3', '4', '5', '6', '7', '8', '9', 'a', 'b', 'c', 'd', 'e', 'f']

def uTohex (bytes : List UInt8) : List Char :=
  bytes.flatMap fun b => [hexDigits.getD (b.toNat / 16) '0', hexDigits.getD (b.toNat % 16) '0']

def uFromhex : (n : ℕ) → List Char → Option { l : List UInt8 // l.length = n }
  | 0, _ => some ⟨[], rfl⟩
  | n + 1, a :: b :: rest => do
      let hi ← uHexval a
      let lo ← uHexval b
      let l ← uFromhex n rest
      return ⟨UInt8.ofNat (hi * 16 + lo) :: l.1, by rw [List.length_cons, l.2]⟩
  | _ + 1, _ => none

def nameScan : ℕ → List Char → Option String
  | _, [] => none
  | i, c :: cs =>
    if userNameMax - 1 ≤ i then some "name is limited to 8 characters"
    else if !(('a' ≤ c && c ≤ 'z') || ('0' ≤ c && c ≤ '9')) then
      some "use lowercase letters and digits only"
    else nameScan (i + 1) cs

/-- What is wrong with a name, if anything. -/
def userNameOk (name : List Char) : Option String :=
  match name with
  | [] => some "name cannot be empty"
  | c :: _ =>
    match nameScan 0 name with
    | some err => some err
    | none => if '0' ≤ c && c ≤ '9' then some "name must start with a letter" else none

def userFind (s : Users) (name : List Char) : Option ℕ := s.users.findIdx? fun u => u.name = name

def userIsAdmin (s : Users) (idx : ℤ) : Bool :=
  0 ≤ idx && idx < s.users.length && ((s.users[idx.toNat]?).elim false Account.admin)

def userAdminCount (s : Users) : ℕ := s.users.countP Account.admin

/-! ## Persistence -/

/-- The line split at its first three bars. -/
def fields : ℕ → List Char → List (List Char)
  | 0, s => [s]
  | n + 1, s =>
    match s.dropWhile (· ≠ '|') with
    | [] => [s]
    | _ :: rest => s.takeWhile (· ≠ '|') :: fields n rest

def parseLine (line : List Char) : Option Account :=
  match fields 3 (line.takeWhile (· ≠ '\x00')) with
  | [name, salt, hash, flags] => do
      let salt ← uFromhex 8 salt
      let hash ← uFromhex 32 hash
      return ⟨name.take (userNameMax - 1), salt, hash, flags.head? = some '1'⟩
  | _ => none

/-- The loop over the lines; it ends with the text or when the table is full. -/
def loadLines : ℕ → List Char → List Account → List Account
  | 0, _, users => users
  | fuel + 1, text, users =>
    if text = [] ∨ userMax ≤ users.length then users
    else
      let line := (text.takeWhile (· ≠ '\n')).take 159
      let rest := (text.dropWhile (· ≠ '\n')).drop 1
      if line = [] ∨ line.head? = some '#' then loadLines fuel rest users
      else
        match parseLine line with
        | none => loadLines fuel rest users
        | some u => loadLines fuel rest (users ++ [u])

structure Files where
  /-- `/etc/users.db` -/
  db : Option (List Char)
  /-- `/etc/users.new` -/
  tmp : Option (List Char)

def usersLoad (files : Files) : List Account :=
  match files.db with
  | none => []
  | some text => loadLines text.length text []

def outMax : ℕ := userMax * 160 - 2

/-- One more character, if the buffer has room for it. -/
def emit (out : List Char) (c : Char) : List Char := if out.length < outMax then out ++ [c] else out

def accountLine (u : Account) : List Char :=
  u.name ++ '|' :: uTohex u.salt.1 ++ '|' :: uTohex u.hash.1 ++ '|' ::
    (if u.admin then '1' else '0') ::
    ['\n']

def usersText (users : List Account) : List Char :=
  users.foldl (fun out u => (accountLine u).foldl emit out) []

inductive Written where
  | done
  /-- Refused, with the file as it was. -/
  | kept
  /-- Refused, with the old file gone. -/
  | lost
  deriving DecidableEq

/-- The call of `users_save` after which the machine stops. -/
inductive Crash where
  | never
  | start
  | mkdir
  | tmpWrite
  | dbDelete
  | dbWrite
  | tmpDelete
  deriving DecidableEq

/-- How the calls of one `users_save` end. -/
structure Plan where
  tmpWrite : Written
  dbDelete : Bool
  dbWrite : Written
  tmpDelete : Bool
  crash : Crash
  fsErrstr : String

def Written.file (w : Written) (old : Option (List Char)) (data : List Char) : Option (List Char) :=
  match w with
  | .done => some data
  | .kept => old
  | .lost => none

inductive Saved where
  | crashed (files : Files)
  | returned (files : Files) (ok : Bool)

def usersSave (users : List Account) (files : Files) (plan : Plan) : Saved :=
  let out := usersText users
  -- making the directory changes no file
  if plan.crash = .start ∨ plan.crash = .mkdir then .crashed files
  else
    let files := { files with tmp := plan.tmpWrite.file files.tmp out }
    if plan.crash = .tmpWrite then .crashed files
    else if plan.tmpWrite ≠ .done then .returned files false
    else
      let files := { files with db := if plan.dbDelete then none else files.db }
      if plan.crash = .dbDelete then .crashed files
      else
        let files := { files with db := plan.dbWrite.file files.db out }
        if plan.crash = .dbWrite then .crashed files
        else if plan.dbWrite ≠ .done then .returned files false
        else
          let files := { files with tmp := if plan.tmpDelete then none else files.tmp }
          if plan.crash = .tmpDelete then .crashed files else .returned files true

/-! ## Operations -/

inductive Outcome where
  | crashed (files : Files)
  | returned (files : Files) (s : Users) (ret : ℤ) (err : Option String)

section Operations

variable (pwHash : Salt → List Char → Digest)

def userAdd (s : Users) (files : Files) (name pw : List Char) (admin : Bool) (salt : Salt)
    (plan : Plan) :
    Outcome :=
  match userNameOk name with
  | some err => .returned files s (-1) (some err)
  | none =>
    if userMax ≤ s.users.length then .returned files s (-1) (some "no room for another account")
    else if (userFind s name).isSome then .returned files s (-1) (some "that name is already taken")
    else if pw = [] then .returned files s (-1) (some "password cannot be empty")
    else
      let u : Account := ⟨name.take (userNameMax - 1), salt, pwHash salt pw, admin⟩
      match usersSave (s.users ++ [u]) files plan with
      | .crashed files => .crashed files
      | .returned files false => .returned files s (-1) (some plan.fsErrstr)
      | .returned files true =>
        .returned files { s with users := s.users ++ [u] } s.users.length none

/-- The last three end with `return users_save()`. -/
def saved (s : Users) (files : Files) (plan : Plan) : Outcome :=
  match usersSave s.users files plan with
  | .crashed files => .crashed files
  | .returned files false => .returned files s (-1) (some plan.fsErrstr)
  | .returned files true => .returned files s 0 none

def userSetPassword (s : Users) (files : Files) (idx : ℤ) (pw : List Char) (salt : Salt)
    (plan : Plan) :
    Outcome :=
  if idx < 0 ∨ (s.users.length : ℤ) ≤ idx then .returned files s (-1) none
  else if pw = [] then .returned files s (-1) (some "password cannot be empty")
  else
    saved { s with users := s.users.modify idx.toNat fun u =>
      { u with salt := salt, hash := pwHash salt pw } } files plan

def userDel (s : Users) (files : Files) (name : List Char) (plan : Plan) : Outcome :=
  match userFind s name with
  | none => .returned files s (-1) (some "no such user")
  | some idx =>
    if (idx : ℤ) = s.current then
      .returned files s (-1) (some "cannot delete the account you are using")
    else if (s.users[idx]?).elim false Account.admin && userAdminCount s ≤ 1 then
      .returned files s (-1) (some "cannot delete the last administrator")
    else
      saved ⟨s.users.eraseIdx idx, if s.current > idx then s.current - 1 else s.current⟩ files plan

def userSetAdmin (s : Users) (files : Files) (name : List Char) (on : Bool)
    (plan : Plan) : Outcome :=
  match userFind s name with
  | none => .returned files s (-1) (some "no such user")
  | some idx =>
    if !on && (s.users[idx]?).elim false Account.admin && userAdminCount s ≤ 1 then
      .returned files s (-1) (some "cannot remove the last administrator")
    else saved { s with users := s.users.modify idx fun u => { u with admin := on } } files plan

inductive AccountOp where
  | add (name pw : List Char) (admin : Bool) (salt : Salt)
  | setPassword (idx : ℤ) (pw : List Char) (salt : Salt)
  | del (name : List Char)
  | setAdmin (name : List Char) (on : Bool)

def AccountOp.run (s : Users) (files : Files) (plan : Plan) : AccountOp → Outcome
  | .add name pw admin salt => userAdd pwHash s files name pw admin salt plan
  | .setPassword idx pw salt => userSetPassword pwHash s files idx pw salt plan
  | .del name => userDel s files name plan
  | .setAdmin name on => userSetAdmin s files name on plan

end Operations

end Vextro.Accounts
