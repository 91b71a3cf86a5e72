import Mathlib.Data.List.Basic
import Mathlib.Data.Nat.Init

/-! Buffers: lists of bytes that are read and written within their bounds only. -/

namespace Vextro.Buffer

open List

variable {α : Type*}
variable {buf : List α} {n : ℕ}

/-- `n` elements from `i` on. -/
def slice (buf : List α) (i n : ℕ) : Option (List α) :=
  if i + n ≤ buf.length then some ((buf.drop i).take n) else none

/-- One element after the other, from `i` on. -/
def store : List α → ℕ → List α → Option (List α)
  | buf, _, [] => some buf
  | buf, i, x :: xs => if i < buf.length then store (buf.set i x) (i + 1) xs else none

/-- The list with `data` at `p`; what lies between its end and `p` is filled up. -/
def overlay (fill : α) (bytes : List α) (p : ℕ) (data : List α) : List α :=
  (bytes ++ replicate (p - bytes.length) fill).take p ++ data ++ bytes.drop (p + data.length)

/-- Cut off at `n`, or filled up to it. -/
def resize (fill : α) (bytes : List α) (n : ℕ) : List α :=
  bytes.take n ++ replicate (n - bytes.length) fill

theorem store_spec (data : List α) {i : ℕ} (h : i + data.length ≤ buf.length) :
    ∃ buf', store buf i data = some buf' ∧ buf'.length = buf.length ∧
      ∀ k, buf'[k]? = if i ≤ k ∧ k < i + data.length then data[k - i]? else buf[k]? := by
  induction data generalizing buf i with
  | nil => exact ⟨buf, rfl, rfl, fun k => by rw [if_neg (by simp only [length_nil]; omega)]⟩
  | cons x xs ih =>
    simp only [length_cons] at h
    have hfit : i + 1 + xs.length ≤ (buf.set i x).length := by
      rw [length_set]
      omega
    obtain ⟨buf', hstore, hlen, hget⟩ := ih hfit
    refine ⟨buf', ?_, hlen.trans length_set, fun k => ?_⟩
    · rw [store, if_pos (by omega), hstore]
    rw [hget, length_cons]
    by_cases hk : k = i
    · subst hk
      rw [if_neg (by omega), if_pos (by omega), getElem?_set_self (by omega), Nat.sub_self,
        getElem?_cons_zero]
    rw [getElem?_set_ne (Ne.symm hk)]
    by_cases hin : i + 1 ≤ k ∧ k < i + 1 + xs.length
    · rw [if_pos hin, if_pos (by omega), show k - i = (k - (i + 1)) + 1 by omega,
        getElem?_cons_succ]
    · rw [if_neg hin, if_neg (by omega)]

theorem slice_eq {i : ℕ} (h : i + n ≤ buf.length) : slice buf i n = some ((buf.drop i).take n) :=
  if_pos h

theorem getElem?_overlay (fill : α) (bytes : List α) (p : ℕ) (data : List α) (k : ℕ) :
    (overlay fill bytes p data)[k]? =
      if k < p then (if k < bytes.length then bytes[k]? else some fill)
      else if k < p + data.length then data[k - p]? else bytes[k]? := by
  have hfront : ((bytes ++ replicate (p - bytes.length) fill).take p).length = p := by
    simp only [length_take, length_append, length_replicate]
    omega
  rw [overlay, append_assoc, getElem?_append, hfront, getElem?_append]
  by_cases hp : k < p
  · rw [if_pos hp, if_pos hp, getElem?_take_of_lt hp, getElem?_append]
    by_cases hb : k < bytes.length
    · rw [if_pos hb, if_pos hb]
    · rw [if_neg hb, if_neg hb, getElem?_replicate_of_lt (by omega)]
  rw [if_neg hp, if_neg hp]
  by_cases hd : k < p + data.length
  · rw [if_pos (by omega), if_pos hd]
  rw [if_neg (by omega), if_neg hd, getElem?_drop]
  congr 1
  omega

/-! ## Lengths apart from capacities -/

theorem store_front {grown : List α} (hn : n ≤ buf.length) (hfit : n ≤ grown.length) :
    ∃ grown', store grown 0 (buf.take n) = some grown' ∧ grown'.length = grown.length ∧
      grown'.take n = buf.take n := by
  have hlen : (buf.take n).length = n := by rw [length_take, Nat.min_eq_left hn]
  obtain ⟨grown', hstore, hlen', hget⟩ := store_spec (buf.take n)
    (hlen.symm ▸ (Nat.zero_add n).symm ▸ hfit)
  refine ⟨grown', hstore, hlen', ext_getElem? fun k => ?_⟩
  rw [getElem?_take, hget, hlen, Nat.zero_add]
  by_cases hk : k < n
  · rw [if_pos hk, if_pos ⟨Nat.zero_le k, hk⟩, Nat.sub_zero]
  · rw [if_neg hk, getElem?_eq_none (by omega)]

theorem store_overlay (fill : α) {p : ℕ} {data : List α} (hn : n ≤ buf.length)
    (hfit : p + data.length ≤ buf.length) :
    ∃ buf₁ buf₂, store buf n (replicate (p - n) fill) = some buf₁ ∧ store buf₁ p data = some buf₂ ∧
      buf₂.length = buf.length ∧
      buf₂.take (max n (p + data.length)) = overlay fill (buf.take n) p data := by
  have hlen : (buf.take n).length = n := by rw [length_take, Nat.min_eq_left hn]
  have hgap : n + (replicate (p - n) fill).length ≤ buf.length := by
    rw [length_replicate]
    omega
  obtain ⟨buf₁, h₁, hl₁, hg₁⟩ := store_spec (replicate (p - n) fill) hgap
  obtain ⟨buf₂, h₂, hl₂, hg₂⟩ := store_spec data (hl₁.symm ▸ hfit)
  refine ⟨buf₁, buf₂, h₁, h₂, hl₂.trans hl₁, ext_getElem? fun k => ?_⟩
  rw [getElem?_take, getElem?_overlay, hg₂, hg₁, hlen, length_replicate]
  -- before the end, in the gap, in the data, behind it
  by_cases hp : k < p
  · rw [if_pos (by omega), if_neg (by omega), if_pos hp]
    by_cases hk : k < n
    · rw [if_neg (by omega), if_pos hk, getElem?_take_of_lt hk]
    · rw [if_pos (by omega), if_neg hk, getElem?_replicate_of_lt (by omega)]
  rw [if_neg hp]
  by_cases hd : k < p + data.length
  · rw [if_pos (by omega), if_pos (by omega), if_pos hd]
  rw [if_neg hd]
  by_cases hk : k < n
  · rw [if_pos (by omega), if_neg (by omega), if_neg (by omega), getElem?_take_of_lt hk]
  · rw [if_neg (by omega), getElem?_eq_none (by omega)]

theorem store_resize (fill : α) {w : ℕ} (hn : n ≤ buf.length) (hw : w ≤ buf.length) :
    ∃ buf₁, store buf n (replicate (w - n) fill) = some buf₁ ∧ buf₁.length = buf.length ∧
      buf₁.take w = resize fill (buf.take n) w := by
  obtain ⟨buf₁, buf₂, h₁, h₂, hlen, htake⟩ :=
    store_overlay fill hn (show w + ([] : List α).length ≤ buf.length from hw)
  obtain rfl : buf₁ = buf₂ := Option.some.inj h₂
  refine ⟨buf₁, h₁, hlen, ?_⟩
  have hcut := congrArg (take w) htake
  rw [length_nil, Nat.add_zero, take_take, Nat.min_eq_left (Nat.le_max_right n w), overlay,
    append_nil, take_append_of_le_length, take_take, Nat.min_self, take_append, take_replicate,
    Nat.min_self] at hcut
  · exact hcut
  · simp only [length_take, length_append, length_replicate]
    omega

end Vextro.Buffer
