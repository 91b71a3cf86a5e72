import Mathlib.Order.Interval.Finset.Nat

/-! Bitmaps as sets: the clear bits below a bound. -/

namespace Vextro.Bitmap

def clear (bm : ℕ → Bool) (n : ℕ) : Finset ℕ := {f ∈ Finset.range n | bm f = false}

variable {bm : ℕ → Bool} {n f : ℕ}

@[simp]
theorem mem_clear : f ∈ clear bm n ↔ f < n ∧ bm f = false := by
  simp [clear]

theorem clear_set : clear (Function.update bm f true) n = (clear bm n).erase f := by
  ext g
  by_cases hg : g = f
  · subst hg
    simp
  · simp [hg]

theorem clear_unset (hf : f < n) :
    clear (Function.update bm f false) n = insert f (clear bm n) := by
  ext g
  by_cases hg : g = f
  · subst hg
    simp [hf]
  · simp [hg]

theorem card_clear_set (hf : f < n) (hc : bm f = false) :
    (clear (Function.update bm f true) n).card = (clear bm n).card - 1 := by
  rw [clear_set, Finset.card_erase_of_mem (mem_clear.mpr ⟨hf, hc⟩)]

theorem card_clear_unset (hf : f < n) (hs : bm f) :
    (clear (Function.update bm f false) n).card = (clear bm n).card + 1 := by
  rw [clear_unset hf, Finset.card_insert_of_notMem (by simp [hs])]

theorem card_clear_setRun {start len : ℕ} (hlen : start + len ≤ n)
    (hc : ∀ f, start ≤ f → f < start + len → bm f = false) :
    (clear (fun f => bm f || (start ≤ f && f < start + len)) n).card = (clear bm n).card - len := by
  have hset : clear (fun f => bm f || (start ≤ f && f < start + len)) n =
      clear bm n \ Finset.Ico start (start + len) := by
    ext f
    simp only [mem_clear, Finset.mem_sdiff, Finset.mem_Ico, Bool.or_eq_false_iff,
      Bool.and_eq_false_iff, decide_eq_false_iff_not]
    tauto
  have hsub : Finset.Ico start (start + len) ⊆ clear bm n := by
    intro f hf
    obtain ⟨hlo, hhi⟩ := Finset.mem_Ico.mp hf
    exact mem_clear.mpr ⟨by omega, hc f hlo hhi⟩
  rw [hset, Finset.card_sdiff_of_subset hsub, Nat.card_Ico, Nat.add_sub_cancel_left]

end Vextro.Bitmap
