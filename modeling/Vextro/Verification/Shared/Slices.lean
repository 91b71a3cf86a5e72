import Mathlib.Data.List.Range
import Mathlib.Algebra.Group.Nat.Defs

/-! Stretches of a sequence that is indexed by numbers: reading one, and writing one. -/

namespace Vextro.Slices

variable {α : Type*}
variable {f : ℕ → α} {i k : ℕ} {xs : List α}

/-- The `n` values from `i` on. -/
def slice (f : ℕ → α) (i n : ℕ) : List α := (List.range n).map fun k => f (i + k)

/-- The sequence with `xs` from `i` on. -/
def patch (f : ℕ → α) (i : ℕ) (xs : List α) : ℕ → α :=
  fun k => if i ≤ k then (xs[k - i]?).getD (f k) else f k

@[simp] theorem length_slice (f : ℕ → α) (i n : ℕ) : (slice f i n).length = n := by simp [slice]

theorem getElem?_slice (f : ℕ → α) (i n k : ℕ) :
    (slice f i n)[k]? = if k < n then some (f (i + k)) else none := by
  rw [slice, List.getElem?_map]
  split
  · rename_i hk
    rw [List.getElem?_range hk, Option.map_some]
  · rename_i hk
    rw [List.getElem?_eq_none (by simpa using hk), Option.map_none]

theorem getElem?_slice_eq_some {n : ℕ} {x : α} :
    (slice f i n)[k]? = some x ↔ k < n ∧ f (i + k) = x := by
  rw [getElem?_slice]
  split <;> simp_all

theorem eq_slice (h : ∀ k x, xs[k]? = some x → x = f (i + k)) :
    xs = slice f i xs.length := by
  refine List.ext_getElem? fun k => ?_
  rw [getElem?_slice]
  split
  · rename_i hk
    have hx : xs[k]? = some xs[k] := List.getElem?_eq_getElem hk
    rw [hx, h k _ hx]
  · rw [List.getElem?_eq_none (by omega)]

theorem patch_of_lt (h : k < i) : patch f i xs k = f k := by
  rw [patch, if_neg (by omega)]

theorem patch_of_ge (h : i + xs.length ≤ k) : patch f i xs k = f k := by
  rw [patch, if_pos (by omega), List.getElem?_eq_none (by omega), Option.getD_none]

theorem patch_outside (h : ¬(i ≤ k ∧ k < i + xs.length)) :
    patch f i xs k = f k := by
  by_cases hlt : k < i
  · exact patch_of_lt hlt
  · exact patch_of_ge (by omega)

theorem patch_inside {x : α} (h : xs[k]? = some x) :
    patch f i xs (i + k) = x := by
  rw [patch, if_pos (by omega), Nat.add_sub_cancel_left, h, Option.getD_some]

end Vextro.Slices
