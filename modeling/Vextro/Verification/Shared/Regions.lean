import Vextro.Model.Regions
import Mathlib.Tactic.Ring

/-! When accesses to memory stay within its bounds, and what they leave. -/

namespace Vextro.Regions

open List Option

variable {n offset value off place : ℕ} {e : ℕ → UInt8}

/-! ## Numbers -/

theorem rdLE_succ (n : ℕ) (e : ℕ → UInt8) (offset : ℕ) :
    rdLE (n + 1) e offset = (e offset).toNat + 256 * rdLE n e (offset + 1) := by
  simp only [rdLE, range_succ_eq_map, foldr_cons, foldr_map, Nat.add_zero]
  simp only [Nat.add_assoc, Nat.add_comm 1]

theorem rdLE_lt (n : ℕ) (e : ℕ → UInt8) (offset : ℕ) : rdLE n e offset < 256 ^ n := by
  induction n generalizing offset with
  | zero => exact Nat.zero_lt_one
  | succ n ih =>
    have hbyte := (e offset).toNat_lt
    have hrest := ih (offset + 1)
    rw [rdLE_succ]
    omega

theorem rdLE_congr {e' : ℕ → UInt8} (h : ∀ k, offset ≤ k → k < offset + n → e' k = e k) :
    rdLE n e' offset = rdLE n e offset := by
  induction n generalizing offset with
  | zero => rfl
  | succ n ih =>
    rw [rdLE_succ, rdLE_succ, h offset (by omega) (by omega),
      ih fun k hlo hhi => h k (by omega) (by omega)]

/-! ## Memory -/

namespace Region

variable {r r' src dst : Region} {i : ℕ}

theorem get_eq_none_iff : r.get i = none ↔ r.size ≤ i := by
  rw [get]
  split
  · next h => exact iff_of_false (some_ne_none _) (Nat.not_le.mpr h)
  · next h => exact iff_of_true rfl (Nat.le_of_not_lt h)

theorem rd_eq_none_iff : r.rd n i = none ↔ r.size < i + n := by
  rw [rd]
  split
  · next h => exact iff_of_false (some_ne_none _) (Nat.not_lt.mpr h)
  · next h => exact iff_of_true rfl (Nat.lt_of_not_le h)

theorem get_of_lt (h : i < r.size) : r.get i = some (r.bytes i) := if_pos h

theorem rd_of_le (h : i + n ≤ r.size) : r.rd n i = some (rdLE n r.bytes i) := if_pos h

theorem wr_of_le (h : i + n ≤ r.size) (value : ℕ) :
    r.wr n i value = some { r with bytes := wrLE n r.bytes i value } := if_pos h

/-- What a copy leaves. -/
def patched (src : Region) (off : ℕ) (dst : Region) (place n : ℕ) : Region :=
  { dst with bytes := fun i =>
      if place ≤ i ∧ i < place + n then src.bytes (off + (i - place)) else dst.bytes i }

theorem patched_size (src : Region) (off : ℕ) (dst : Region) (place n : ℕ) :
    (patched src off dst place n).size = dst.size := rfl

theorem patched_bytes (src : Region) (off : ℕ) (dst : Region) (place n i : ℕ) :
    (patched src off dst place n).bytes i =
      if place ≤ i ∧ i < place + n then src.bytes (off + (i - place)) else dst.bytes i := rfl

theorem patched_zero (src : Region) (off : ℕ) (dst : Region) (place : ℕ) :
    patched src off dst place 0 = dst := by
  unfold patched
  congr 1
  funext i
  rw [if_neg (by omega)]

theorem copy_succ (src : Region) (off : ℕ) (dst : Region) (place n : ℕ) :
    copy src off dst place (n + 1) = (copy src off dst place n).bind fun dst =>
      (src.get ((off + n) % 2 ^ 64)).bind fun x => dst.set ((place + n) % 2 ^ 64) x := by
  rw [copy, range_succ, foldlM_append]
  simp only [foldlM_cons, foldlM_nil, bind_pure]
  rfl

theorem copy_of_le (hsrc : src.size < 2 ^ 64) (hdst : dst.size < 2 ^ 64)
    (h : n = 0 ∨ off + n ≤ src.size ∧ place + n ≤ dst.size) :
    copy src off dst place n = some (patched src off dst place n) := by
  induction n with
  | zero => rw [patched_zero]; rfl
  | succ n ih =>
    have hlt : place + n < (patched src off dst place n).size := by
      rw [patched_size]
      omega
    have hbytes : Function.update (patched src off dst place n).bytes (place + n)
        (src.bytes (off + n)) = (patched src off dst place (n + 1)).bytes := by
      funext i
      by_cases hi : i = place + n
      · subst hi
        rw [Function.update_self, patched_bytes, if_pos (by omega), Nat.add_sub_cancel_left]
      rw [Function.update_of_ne hi, patched_bytes, patched_bytes]
      by_cases hin : place ≤ i ∧ i < place + n
      · rw [if_pos hin, if_pos (by omega)]
      · rw [if_neg hin, if_neg (by omega)]
    rw [copy_succ, ih (.inr (by omega)), bind_some, Nat.mod_eq_of_lt (by omega),
      get_of_lt (by omega), bind_some, Nat.mod_eq_of_lt (by omega), set, if_pos hlt, hbytes]
    rfl

theorem le_of_copy (hoff : off < 2 ^ 64) (hplace : place < 2 ^ 64) (hsrc : src.size < 2 ^ 64)
    (hdst : dst.size < 2 ^ 64) (h : copy src off dst place n = some r) :
    n = 0 ∨ off + n ≤ src.size ∧ place + n ≤ dst.size := by
  induction n generalizing r with
  | zero => exact .inl rfl
  | succ n ih =>
    rw [copy_succ] at h
    obtain ⟨d, hd, h⟩ := bind_eq_some_iff.mp h
    obtain ⟨x, hx, h⟩ := bind_eq_some_iff.mp h
    have hin := ih hd
    have hx' : (off + n) % 2 ^ 64 < src.size := by
      by_contra hle
      rw [get_eq_none_iff.mpr (Nat.le_of_not_lt hle)] at hx
      cases hx
    have hd' : (place + n) % 2 ^ 64 < d.size := by
      by_contra hle
      rw [set, if_neg hle] at h
      cases h
    rw [copy_of_le hsrc hdst hin] at hd
    cases hd
    rw [patched_size] at hd'
    refine .inr ?_
    omega

theorem copy_isSome_iff (hoff : off < 2 ^ 64) (hplace : place < 2 ^ 64) (hsrc : src.size < 2 ^ 64)
    (hdst : dst.size < 2 ^ 64) :
    (copy src off dst place n).isSome ↔ n = 0 ∨ off + n ≤ src.size ∧ place + n ≤ dst.size := by
  constructor
  · intro h
    obtain ⟨r, hr⟩ := isSome_iff_exists.mp h
    exact le_of_copy hoff hplace hsrc hdst hr
  intro h
  rw [copy_of_le hsrc hdst h]
  rfl

end Region

end Vextro.Regions
