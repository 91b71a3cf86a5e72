import Mathlib.Order.Lattice

/-! Nodes of search trees that are kept in numbered blocks.

A node lists its entries in order, each with the address of the subtree that comes before it, and
the address of the subtree that comes after them all. Only a large node has subtrees; the addresses
in the others mean nothing. Where the entries are in order, what is looked for is in the node, in
one subtree of it, or nowhere. -/

namespace Vextro.BlockTree

open List

variable {ε β : Type*}

structure Node (ε β : Type*) where
  large : Bool
  slots : List (ε × β)
  last : β
  deriving DecidableEq

/-- The subtree that the slots from some point on begin with. -/
def first : List (ε × β) → β → β
  | [], last => last
  | s :: _, _ => s.2

namespace Node

/-- The address beside slot `i`, or beside the end. -/
def child (n : Node ε β) (i : ℕ) : β := first (n.slots.drop i) n.last

def putAt (n : Node ε β) (i : ℕ) (s : ε × β) : Node ε β :=
  { n with slots := n.slots.take i ++ s :: n.slots.drop i }

def takeAt (n : Node ε β) (i : ℕ) : Node ε β :=
  { n with slots := n.slots.take i ++ n.slots.drop (i + 1) }

/-- The address beside slot `i`, or beside the end, is replaced; past the end there is none. -/
def setChild (n : Node ε β) (i : ℕ) (v : β) : Node ε β :=
  match n.slots.drop i with
  | [] => if i = n.slots.length then { n with last := v } else n
  | s :: post => { n with slots := n.slots.take i ++ (s.1, v) :: post }

/-- The node cut at slot `i`: what comes before it, its entry, and what comes after. -/
def cutAt (n : Node ε β) (i : ℕ) : Option (Node ε β × ε × Node ε β) :=
  match n.slots.drop i with
  | [] => none
  | s :: post =>
    some ({ n with slots := n.slots.take i, last := s.2 }, s.1, { n with slots := post })

end Node

/-! ## Entries in order -/

/-- The entries of some slots with the subtrees before them. -/
def row (sub : β → List ε) (slots : List (ε × β)) : List ε :=
  slots.flatMap fun s => sub s.2 ++ [s.1]

/-- What follows the first subtree of the slots from some point on. -/
def rest (sub : β → List ε) : List (ε × β) → β → List ε
  | [], _ => []
  | s :: post, last => s.1 :: (row sub post ++ sub last)

/-- All entries below a node, given those of its subtrees. -/
def Node.flat (sub : β → List ε) (n : Node ε β) : List ε :=
  if n.large then row sub n.slots ++ sub n.last else n.slots.map Prod.fst

section Flat

variable {sub : β → List ε} {n : Node ε β} {pre post : List (ε × β)} {last : β}

@[simp] theorem row_nil : row sub [] = [] := rfl

@[simp] theorem row_append : row sub (pre ++ post) = row sub pre ++ row sub post := by
  simp [row]

end Flat

/-! ## Edits at a point -/

section Edits

variable {n : Node ε β} {pre post : List (ε × β)}

end Edits

/-! ## Searching -/

variable {κ : Type*} [Preorder κ] {key : ε → κ} {sub : β → List ε} {n : Node ε β}
  {pre post : List (ε × β)} {k : κ} {l : List ε}

/-- The entries come in the order of their keys. -/
def Ascending (key : ε → κ) (l : List ε) : Prop := l.Pairwise fun e e' => key e < key e'

/-- What a search finds is the least entry that it looks for. -/
theorem Ascending.find?_iff (h : Ascending key l) {p : ε → Bool} {e : ε} :
    l.find? p = some e ↔ e ∈ l ∧ p e ∧ ∀ x ∈ l, p x → ¬key x < key e := by
  constructor
  · intro hfind
    obtain ⟨hp, front, back, rfl, hfront⟩ := find?_eq_some_iff_append.mp hfind
    refine ⟨by simp, hp, fun x hx hpx => ?_⟩
    rcases mem_append.mp hx with hx | hx
    · exact absurd hpx (by simpa using hfront x hx)
    rcases mem_cons.mp hx with rfl | hx
    · exact lt_irrefl _
    · exact ((pairwise_cons.mp (pairwise_append.mp h).2.1).1 x hx).not_gt
  · rintro ⟨he, hp, hleast⟩
    obtain ⟨front, back, rfl⟩ := append_of_mem he
    rw [find?_append, find?_eq_none.mpr, Option.none_or, find?_cons_of_pos hp]
    exact fun x hx hpx =>
      hleast x (by simp [hx]) hpx ((pairwise_append.mp h).2.2 x hx e (by simp))

variable [DecidableEq κ]

theorem Ascending.find? (h : Ascending key l) {e : ε} (he : e ∈ l) (hk : key e = k) :
    l.find? (fun e => key e = k) = some e := by
  refine h.find?_iff.mpr ⟨he, by simpa using hk, fun x _ hx hlt => ?_⟩
  exact hlt.ne ((of_decide_eq_true hx).trans hk.symm)

end Vextro.BlockTree
