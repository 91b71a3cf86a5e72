import Vextro.Model.Regions

/-! The registry after `registry.h`: a tree of keys and values in an array of nodes.

A C string is the list of its bytes, without the final NUL. The array is ready, as it is from
`reg_load` on; nodes from `reg_count` on are not in use. -/

namespace Vextro.Registry

open Function

open Regions (rdLE)

def regMaxNodes : ℕ := 1024
def regNameLen : ℕ := 32
def regMaxData : ℕ := 192

def regSz : UInt8 := 1
def regBinary : UInt8 := 3
def regDword : UInt8 := 4
def regKeyType : UInt8 := 0xFF

/-- The index that stands for no node. -/
def regNone : UInt16 := 0xFFFF

/-- `reg_node_t` -/
structure Node where
  used : UInt8
  type : UInt8
  parent : UInt16
  firstChild : UInt16
  nextSibling : UInt16
  dataLen : UInt32
  name : List UInt8
  data : List UInt8
  name_length : name.length = regNameLen
  data_length : data.length = regMaxData
deriving DecidableEq

structure Reg where
  node : UInt16 → Node
  count : ℕ
  sequence : UInt32
  dirty : Bool
  inTransaction : Bool
  /-- `reg_snapshot`, up to `reg_txn_mark`; there is none before the first transaction. -/
  snapshot : Option (UInt16 → Node)
  txnMark : ℕ

namespace Reg

/-- What the registry holds. -/
def tree (s : Reg) : List Node := (List.range s.count).map fun i => s.node (UInt16.ofNat i)

/-- The bytes at the start of an array of so many; the rest are zero. -/
def field (n : ℕ) (bytes : List UInt8) : List UInt8 := (bytes ++ List.replicate n 0).take n

theorem field_length (n : ℕ) (bytes : List UInt8) : (field n bytes).length = n := by
  simp [field]

def root : Node :=
  ⟨1, regKeyType, regNone, regNone, regNone, 0, field regNameLen [], field regMaxData [],
    field_length _ _,
    field_length _ _⟩

def blank : Node :=
  ⟨0, 0, 0, 0, 0, 0, field regNameLen [], field regMaxData [], field_length _ _, field_length _ _⟩

/-- The registry with nothing in it but its root. -/
def fresh : Reg := ⟨fun i => if i = 0 then root else blank, 1, 0, false, false, none, 0⟩

/-! ## Names -/

def lower (c : UInt8) : UInt8 := if 0x41 ≤ c ∧ c ≤ 0x5A then c - 0x41 + 0x61 else c

/-- The name of a node against a C string. -/
def regNameEq : ℕ → List UInt8 → List UInt8 → Bool
  | 0, _, _ => true
  | n + 1, a, b =>
    let ca := lower (a.headD 0)
    let cb := lower (b.headD 0)
    if ca ≠ cb then false else if ca = 0 then true else regNameEq n a.tail b.tail

/-- The loop of `reg_find_child`; a list without cycles is no longer than the array. -/
def findFrom (s : Reg) (name : List UInt8) : ℕ → UInt16 → UInt16
  | 0, _ => regNone
  | fuel + 1, c =>
    if c = regNone ∨ s.count ≤ c.toNat then regNone
    else if (s.node c).used ≠ 0 ∧ regNameEq regNameLen (s.node c).name name then c
    else s.findFrom name fuel (s.node c).nextSibling

def regFindChild (s : Reg) (parent : UInt16) (name : List UInt8) : UInt16 :=
  if s.count ≤ parent.toNat then regNone else s.findFrom name regMaxNodes (s.node parent).firstChild

def firstFree (s : Reg) : Option UInt16 :=
  ((List.range (regMaxNodes - 1)).map fun i => UInt16.ofNat (i + 1)).find?
    fun i => (s.node i).used = 0

def regNewNode (s : Reg) (parent : UInt16) (name : List UInt8) (type : UInt8) : Reg × UInt16 :=
  if regMaxNodes ≤ s.count then (s, regNone)
  else
    match s.firstFree with
    | none => (s, regNone)
    | some idx =>
      let n : Node := ⟨1, type, parent, regNone, (s.node parent).firstChild, 0, field regNameLen
        (name.take (regNameLen - 1)), field regMaxData [], field_length _ _, field_length _ _⟩
      let node := update s.node idx n
      ({ s with
          node := update node parent { node parent with firstChild := idx }
          count := if idx.toNat + 1 > s.count then idx.toNat + 1 else s.count
          dirty := true }, idx)

/-- The names of a path: what stands between separators, cut to what a node can hold. -/
def segments (path : List UInt8) : List (List UInt8) :=
  ((path.splitOnP fun c => c = 0x5C ∨ c = 0x2F).filter (· ≠ [])).map (·.take (regNameLen - 1))

def keyFrom (create : Bool) : Reg → UInt16 → List (List UInt8) → Reg × UInt16
  | s, cur, [] => (s, cur)
  | s, cur, seg :: rest =>
    let next := s.regFindChild cur seg
    if next = regNone then
      if create = false then (s, regNone)
      else
        let r := s.regNewNode cur seg regKeyType
        if r.2 = regNone then r else keyFrom create r.1 r.2 rest
    else keyFrom create s next rest

def regKey (s : Reg) (path : List UInt8) (create : Bool) : Reg × UInt16 :=
  keyFrom create s 0 (segments path)

/-! ## Values -/

/-- Bytes over those at the start of an array. -/
def overlaid (data old : List UInt8) : List UInt8 := data.take old.length ++ old.drop data.length

theorem overlaid_length (data old : List UInt8) : (overlaid data old).length = old.length := by
  rw [overlaid, List.length_append, List.length_take, List.length_drop]
  omega

def put (n : Node) (type : UInt8) (data : List UInt8) : Node :=
  { n with
    type := type, dataLen := UInt32.ofNat data.length, data := overlaid data n.data
    data_length := (overlaid_length _ _).trans n.data_length }

/-- The registry, and whether the call returned 0. -/
def regSet (s : Reg) (path name : List UInt8) (type : UInt8) (data : List UInt8) : Reg × Bool :=
  if regMaxData < data.length then (s, false)
  else
    let k := s.regKey path true
    if k.2 = regNone then (k.1, false)
    else
      let v := k.1.regFindChild k.2 name
      let r := if v = regNone then k.1.regNewNode k.2 name type else (k.1, v)
      if r.2 = regNone then (r.1, false)
      else
        ({ r.1 with node := update r.1.node r.2 (put (r.1.node r.2) type data), dirty := true },
          true)

/-- The type and the data, into a buffer that is large enough. -/
def regGet (s : Reg) (path name : List UInt8) : Option (UInt8 × List UInt8) :=
  let k := (s.regKey path false).2
  if k = regNone then none
  else
    let v := s.regFindChild k name
    if v = regNone then none
      else some ((s.node v).type, (s.node v).data.take (s.node v).dataLen.toNat)

/-- Where the link to `v` is: that of the parent, or that of a sibling. -/
def unlinkFrom (v : UInt16) : ℕ → (UInt16 → Node) → UInt16 → UInt16 → Node
  | 0, node, _ => node
  | fuel + 1, node, c =>
    if (node c).nextSibling = regNone then node
    else if (node c).nextSibling = v then
      update node c { node c with nextSibling := (node v).nextSibling }
    else unlinkFrom v fuel node (node c).nextSibling

def regDelete (s : Reg) (path name : List UInt8) : Reg × Bool :=
  let k := (s.regKey path false).2
  if k = regNone then (s, false)
  else
    let v := s.regFindChild k name
    if v = regNone then (s, false)
    else
      let node :=
        if (s.node k).firstChild = v then
          update s.node k { s.node k with firstChild := (s.node v).nextSibling }
        else unlinkFrom v regMaxNodes s.node (s.node k).firstChild
      ({ s with node := update node v { node v with used := 0 }, dirty := true }, true)

/-! ## Transactions -/

/-- `reg_begin`, with memory for the snapshot if there is none yet or without. -/
def regBegin (s : Reg) (memory : Bool) : Option Reg :=
  if s.inTransaction || s.snapshot.isNone && !memory then none
  else some { s with snapshot := some s.node, txnMark := s.count, inTransaction := true }

def regRollback (s : Reg) : Reg :=
  if !s.inTransaction then s
  else
    { s with
      node := fun i =>
        if i.toNat < s.txnMark then (s.snapshot.getD s.node) i else { s.node i with used := 0 }
      count := s.txnMark
      inTransaction := false
      dirty := true }

/-- A number as so many bytes, the lowest one first. -/
def le (n v : ℕ) : List UInt8 := (List.range n).map fun i => UInt8.ofNat (v / 256 ^ i)

/-- A number of four bytes. -/
def word (bytes : List UInt8) (i : ℕ) : ℕ := rdLE 4 (fun k => bytes.getD k 0) i

end Reg

end Vextro.Registry
