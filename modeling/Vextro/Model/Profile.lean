import Vextro.Model.Accounts
import Vextro.Model.FileCalls

/-! Paths and whose they are: `profile.h`.

A path is the list of its bytes, without the final NUL. -/

namespace Vextro.Profile

open Accounts
open Ntfs (upcaseByte skipSlashes)

def slash : UInt8 := 0x2F
def backslash : UInt8 := 0x5C
def dot : UInt8 := 0x2E

def isSeparator (c : UInt8) : Bool := c = slash || c = backslash

def isLetter (c : UInt8) : Bool := (0x41 ≤ c && c ≤ 0x5A) || (0x61 ≤ c && c ≤ 0x7A)

def profilePathMax : ℕ := 256

/-- A drive letter before a separator is dropped. -/
def dropDrive (path : List UInt8) : List UInt8 :=
  match path with
  | c :: 0x3A :: d :: rest => if isLetter c && isSeparator d then d :: rest else path
  | _ => path

/-- `fs_native`, into a buffer of `profilePathMax` bytes. -/
def fsNative (path : List UInt8) : List UInt8 :=
  let path := dropDrive path
  let path := if (path.head?).elim false isSeparator then path else slash :: path
  (path.map fun c => if c = backslash then slash else c).take (profilePathMax - 1)

/-- The loop of `prof_canon`, with the output so far. -/
def canonLoop : ℕ → List UInt8 → List UInt8 → Option (List UInt8)
  | 0, _, out => some out
  | fuel + 1, path, out =>
    let path := skipSlashes path
    if path = [] then some out
    else
      let comp := path.takeWhile (· ≠ slash)
      let rest := path.dropWhile (· ≠ slash)
      if comp = [dot, dot] then none
      else if comp = [dot] then canonLoop fuel rest out
      else if profilePathMax ≤ out.length + comp.length + 1 then none
      else canonLoop fuel rest (out ++ slash :: comp)

def profCanon (path : List UInt8) : Option (List UInt8) :=
  let native := fsNative path
  (canonLoop (native.length + 1) native []).map fun out => if out = [] then [slash] else out

def profWithin : List UInt8 → List UInt8 → Bool
  | canon, [] => (canon.head?).elim true (· = slash)
  | c :: canon, p :: within => upcaseByte c = upcaseByte p && profWithin canon within
  | [], _ :: _ => false

def bytesOf (name : List Char) : List UInt8 := name.map fun c => UInt8.ofNat c.toNat

/-- `/Documents and Settings` -/
def profileRoot : List UInt8 :=
  slash :: bytesOf ['D', 'o', 'c', 'u', 'm', 'e', 'n', 't', 's', ' ', 'a', 'n', 'd', ' ', 'S', 'e',
    't', 't',
    'i', 'n', 'g', 's']

/-- `/home` -/
def profileLegacy : List UInt8 := slash :: bytesOf ['h', 'o', 'm', 'e']

def profilePath (root : List UInt8) (u : Account) : List UInt8 := root ++ slash :: bytesOf u.name

def profOwnerOf (users : List Account) (canon : List UInt8) : Option ℕ :=
  users.findIdx? fun u =>
    profWithin canon (profilePath profileRoot u) || profWithin canon (profilePath profileLegacy u)

/-- The guard: `none` if the path may be touched, or what it leaves in `fs_errstr`. -/
def profMay (s : Users) (path : List UInt8) (write : Bool) : Option String :=
  if s.current < 0 then none
  else if userIsAdmin s s.current then none
  else
    match profCanon path with
    | none => some "that path cannot be resolved from here"
    | some canon =>
      match profOwnerOf s.users canon with
      | none => none
      | some owner =>
        if (owner : ℤ) = s.current then none
        else if write then some "that profile belongs to another account"
        else some "that profile is not yours to read"

end Vextro.Profile
