import Vextro.Model.Registry

/-! Group policy after `gpo.h`: the records of a `Registry.pol` file, and how they are applied.

The bytes from a position on are a list. What the server sends is given, for each entry of the
directory of policies. -/

namespace Vextro.GroupPolicy

open Registry Reg

/-- A record as it stands in the file. -/
structure PolRecord where
  key : List UInt16
  name : List UInt16
  type : ℕ
  data : List UInt8
deriving DecidableEq

/-! ## Reading -/

/-- The units up to the NUL, and what follows it. -/
def wideUnits : List UInt8 → List UInt16 × List UInt8
  | lo :: hi :: rest =>
    let u := lo.toUInt16 ||| hi.toUInt16 <<< 8
    if u = 0 then ([], rest) else (u :: (wideUnits rest).1, (wideUnits rest).2)
  | p => ([], p)

/-- Units as the string in a buffer of `max` bytes. -/
def narrow (max : ℕ) (units : List UInt16) : List UInt8 :=
  (units.take (max - 1)).map fun u => if u < 0x100 then u.toUInt8 else 0x3F

def gpoWideCh (want : UInt8) : List UInt8 → Option (List UInt8)
  | lo :: hi :: rest => if lo = want ∧ hi = 0 then some rest else none
  | _ => none

def gpoLe32 (p : List UInt8) : Option (ℕ × List UInt8) :=
  if p.length < 4 then none else some (word p 0, p.drop 4)

/-- `[key;name;type;size;data]` -/
def readRecord (p : List UInt8) : Option (PolRecord × List UInt8) := do
  let p ← gpoWideCh 0x5B p
  let key := wideUnits p
  let p ← gpoWideCh 0x3B key.2
  let name := wideUnits p
  let p ← gpoWideCh 0x3B name.2
  let type ← gpoLe32 p
  let p ← gpoWideCh 0x3B type.2
  let size ← gpoLe32 p
  let p ← gpoWideCh 0x3B size.2
  if p.length < size.1 then none
  else
    let rest ← gpoWideCh 0x5D (p.drop size.1)
    some (⟨key.1, name.1, type.1, p.take size.1⟩, rest)

/-! ## Applying -/

def regSetDword (s : Reg) (path name : List UInt8) (v : ℕ) : Reg × Bool :=
  s.regSet path name regDword (le 4 v)

def regSetString (s : Reg) (path name str : List UInt8) : Reg × Bool :=
  s.regSet path name regSz ((str ++ [0]).take regMaxData)

/-- The value of a record is set. -/
def setRecord (s : Reg) (r : PolRecord) : Reg × Bool :=
  let key := narrow 192 r.key
  let name := narrow 64 r.name
  if r.type = regDword.toNat ∧ r.data.length = 4 then regSetDword s key name (word r.data 0)
  else if r.type = 1 ∨ r.type = 2 then regSetString s key name (narrow 160 (wideUnits r.data).1)
  else if r.type = regBinary.toNat then s.regSet key name regBinary (r.data.take regMaxData)
  else (s, false)

/-- `**del.` -/
def PolRecord.deletion (r : PolRecord) : Bool :=
  [0x2A, 0x2A, 0x64, 0x65, 0x6C, 0x2E].isPrefixOf (narrow 64 r.name)

/-- What the transaction is given: memory for the snapshot and for the buffer of the hive, and
whether the hive is written. -/
structure Saving where
  snapshot : Bool
  buffer : Bool
  written : Bool

inductive Report where
  | applied (values : ℕ) (unsaved : Bool)
  | failed
  /-- There is no new transaction, and the refresh ends. -/
  | stopped
deriving DecidableEq

/-- An entry of the directory of policies: no policy, or one whose `GPT.INI` is of no use; one
without a `Registry.pol`; or one with that file. -/
inductive Entry where
  | other
  | bare
  | machine (file : List UInt8) (io : Saving)

/-- A file that was fetched: the registry before and after it, and what was reported. -/
structure Turn where
  file : List UInt8
  before : Reg
  after : Reg
  report : Report

end Vextro.GroupPolicy
