import Mathlib.Data.List.Range
import Mathlib.Data.Nat.ModEq

/-! Queues in circular buffers: `n` cells, of which `len` from `tail` on are in use. -/

namespace Vextro.Circular

open List Function

variable {α : Type*} {n : ℕ}

/-- The queue, front first. -/
def queue (n : ℕ) (cells : ℕ → α) (tail len : ℕ) : List α :=
  (List.range len).map fun i => cells ((tail + i) % n)

theorem queue_length (n : ℕ) (cells : ℕ → α) (tail len : ℕ) :
    (queue n cells tail len).length = len := by
  rw [queue, length_map, length_range]

theorem queue_zero (n : ℕ) (cells : ℕ → α) (tail : ℕ) : queue n cells tail 0 = [] := rfl

/-- The cell behind the queue is none of its own. -/
theorem offset_ne {tail i len : ℕ} (hi : i < len) (hlen : len < n) :
    (tail + i) % n ≠ (tail + len) % n := by
  intro h
  have hdvd : n ∣ tail + len - (tail + i) := (Nat.modEq_iff_dvd' (by omega)).mp h
  have := Nat.le_of_dvd (by omega) hdvd
  omega

theorem queue_put {len : ℕ} (hlen : len < n) (cells : ℕ → α) (tail : ℕ) (x : α) :
    queue n (update cells ((tail + len) % n) x) tail (len + 1) = queue n cells tail len ++ [x] := by
  rw [queue, range_succ, map_append, map_singleton, update_self]
  congr 1
  refine map_congr_left fun i hi => ?_
  exact update_of_ne (offset_ne (mem_range.mp hi) hlen) x cells

theorem queue_take (cells : ℕ → α) {tail : ℕ} (htail : tail < n) (len : ℕ) :
    queue n cells tail (len + 1) = cells tail :: queue n cells ((tail + 1) % n) len := by
  rw [queue, range_succ_eq_map, map_cons, map_map, Nat.add_zero, Nat.mod_eq_of_lt htail]
  congr 1
  refine map_congr_left fun i _ => ?_
  rw [comp_apply, Nat.mod_add_mod, Nat.add_right_comm, Nat.add_assoc]

theorem queue_split (cells : ℕ → α) {k : ℕ} (tail len : ℕ) (hk : k ≤ len) :
    queue n cells tail len = queue n cells tail k ++ queue n cells ((tail + k) % n) (len - k) := by
  obtain ⟨m, rfl⟩ := Nat.exists_eq_add_of_le hk
  rw [Nat.add_sub_cancel_left, queue, range_add, map_append, map_map]
  congr 1
  refine map_congr_left fun i _ => ?_
  rw [comp_apply, Nat.mod_add_mod, Nat.add_assoc]

end Vextro.Circular
