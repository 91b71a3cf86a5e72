import Vextro.Model.Profile

/-! Files by path: the `fs_` functions of `desktop.h` over an NTFS volume. -/

namespace Vextro.FileLayer

open Accounts Profile Ntfs

/-- What the functions work on: the volume and what it has been, the latest first, who is signed
in, and whether the pager is up. -/
structure Layer where
  mount : Mount
  img : Image
  past : List Image
  users : Users
  swapReady : Bool

def swapPath : List UInt8 :=
  slash :: bytesOf ['p', 'a', 'g', 'e', 'f', 'i', 'l', 'e', '.', 's', 'y', 's']

def swapOwnsPath (swapReady : Bool) (abs : List UInt8) : Bool := swapReady && abs = swapPath

/-! ## Splitting a path -/

/-- What follows the last slash. -/
def leafOf (abs : List UInt8) : List UInt8 := (abs.reverse.takeWhile (· ≠ slash)).reverse

/-- What comes before the last slash. -/
def dirOf (abs : List UInt8) : List UInt8 := ((abs.reverse.dropWhile (· ≠ slash)).drop 1).reverse

/-- The directory that holds the last component, and the component. -/
def ntfsSplit (v : Mount) (img : Image) (abs : List UInt8) : Option (ℕ × List UInt8) :=
  if slash ∉ abs then none
  else
    let leaf := (leafOf abs).take (profilePathMax - 1)
    if leaf = [] then none
    else
      let dir := if dirOf abs = [] then [slash] else (dirOf abs).take (profilePathMax - 1)
      match ntfsLookup v img dir with
      | none => none
      | some f => if f.isDir then some (f.record, leaf) else none

/-! ## Changing -/

/-- What a call returns: `ok`, or the message it leaves in `fs_errstr`; the driver sometimes
leaves the message it had before. -/
abbrev Verdict := Except (Option String) Unit

/-- The layer once a call of the driver is over. -/
def Layer.left (l : Layer) (s : Work) : Layer :=
  { l with
    mount := { l.mount with loaded := s.loaded }
    img := s.img
    past := s.past ++ l.img :: l.past }

/-- A call of the driver, and what it says. -/
def Layer.call (l : Layer) (call : FsCall) : Verdict × Layer :=
  match call.run l.mount l.img with
  | .ok _ s => (.ok (), l.left s)
  | .error e s => (.error e.errstr, l.left s)

/-- The checks that `fs_write_file` and `fs_delete` begin with, and the place of the name. -/
def changeable (l : Layer) (abs : List UInt8) : Except String (ℕ × List UInt8) :=
  match profMay l.users abs true with
  | some err => .error err
  | none =>
    if swapOwnsPath l.swapReady abs then .error "the pagefile is in use"
    else
      match ntfsSplit l.mount l.img abs with
      | none => .error "no such directory"
      | some place => .ok place

def fsWriteFile (l : Layer) (now : ℕ) (path data : List UInt8) : Verdict × Layer :=
  let abs := fsNative path
  match changeable l abs with
  | .error err => (.error (some err), l)
  | .ok (dir, leaf) =>
    -- replace rather than update in place; what the deletion returns is not looked at
    let l := if (ntfsLookup l.mount l.img abs).isSome then (l.call (.delete dir leaf)).2 else l
    l.call (.create now dir leaf data)

def fsDelete (l : Layer) (path : List UInt8) : Verdict × Layer :=
  match changeable l (fsNative path) with
  | .error err => (.error (some err), l)
  | .ok (dir, leaf) => l.call (.delete dir leaf)

/-- The calls that name a file to change. -/
inductive ChangeCall where
  | write (now : ℕ) (path data : List UInt8)
  | delete (path : List UInt8)

def ChangeCall.path : ChangeCall → List UInt8
  | .write _ path _ => path
  | .delete path => path

def ChangeCall.run (l : Layer) : ChangeCall → Verdict × Layer
  | .write now path data => fsWriteFile l now path data
  | .delete path => fsDelete l path

end Vextro.FileLayer
