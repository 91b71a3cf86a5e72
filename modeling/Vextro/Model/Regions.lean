import Mathlib.Algebra.Group.Nat.Defs
import Mathlib.Logic.Function.Basic

/-! Memory of a fixed size. It is read and written within its bounds only: an access outside of them
gives nothing. -/

namespace Vextro.Regions

/-- The bytes from `offset` on as a number, the lowest one first. -/
def rdLE (bytes : ℕ) (e : ℕ → UInt8) (offset : ℕ) : ℕ :=
  (List.range bytes).foldr (fun i x => (e (offset + i)).toNat + 256 * x) 0

def wrLE (bytes : ℕ) (e : ℕ → UInt8) (offset value : ℕ) : ℕ → UInt8 := fun k =>
  if offset ≤ k ∧ k < offset + bytes then UInt8.ofNat (value / 256 ^ (k - offset)) else e k

structure Region where
  size : ℕ
  bytes : ℕ → UInt8

namespace Region

def zeros (size : ℕ) : Region := ⟨size, fun _ => 0⟩

def get (r : Region) (i : ℕ) : Option UInt8 := if i < r.size then some (r.bytes i) else none

def set (r : Region) (i : ℕ) (x : UInt8) : Option Region :=
  if i < r.size then some { r with bytes := Function.update r.bytes i x } else none

/-- A number of so many bytes, the lowest one first. -/
def rd (n : ℕ) (r : Region) (i : ℕ) : Option ℕ :=
  if i + n ≤ r.size then some (rdLE n r.bytes i) else none

def wr (n : ℕ) (r : Region) (i value : ℕ) : Option Region :=
  if i + n ≤ r.size then some { r with bytes := wrLE n r.bytes i value } else none

/-- One byte after the other, by indices of 64 bits. -/
def copy (src : Region) (off : ℕ) (dst : Region) (place n : ℕ) : Option Region :=
  (List.range n).foldlM (fun dst j =>
    (src.get ((off + j) % 2 ^ 64)).bind fun x => dst.set ((place + j) % 2 ^ 64) x) dst

end Region

end Vextro.Regions
