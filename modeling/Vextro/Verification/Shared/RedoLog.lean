import Mathlib.Data.List.Range

/-! Redo logs whose slots are replayed in order. What a replay leaves in a cell is decided by
the last slot that names it; the log is safe as long as that slot holds the newest value. -/

namespace Vextro.RedoLog

open List
open Function (update update_of_ne update_self)

variable {slots : List ℕ} {n next : ℕ}
variable {T P : Type*} [DecidableEq T]
variable {t : T} {d p : P} {store : T → P}

/-- The record a slot contributes for `t`. -/
def recordOf (t : T) : Option (T × P) → Option P
  | some (t', p) => if t' = t then some p else none
  | none => none

/-- The record for `t` in the last of the given slots that has one. -/
def top (log : ℕ → Option (T × P)) (slots : List ℕ) (t : T) : Option P :=
  slots.foldl (fun found i => (recordOf t (log i)).or found) none

/-- Put the record of one slot in place. -/
def applySlot (store : T → P) : Option (T × P) → T → P
  | some (t, p) => update store t p
  | none => store

def replay (log : ℕ → Option (T × P)) (slots : List ℕ) (store : T → P) : T → P :=
  slots.foldl (fun store i => applySlot store (log i)) store

theorem top_append (log : ℕ → Option (T × P)) (xs ys : List ℕ) (t : T) :
    top log (xs ++ ys) t = (top log ys t).or (top log xs t) := by
  have hfrom : ∀ (ys : List ℕ) (found : Option P),
      ys.foldl (fun found i => (recordOf t (log i)).or found) found = (top log ys t).or found := by
    intro ys
    induction ys using reverseRecOn with
    | nil => intro found; rfl
    | append_singleton ys y ih =>
      intro found
      unfold top
      rw [foldl_append, foldl_append, ih]
      simp only [foldl_cons, foldl_nil, Option.or_assoc]
      rfl
  unfold top
  rw [foldl_append]
  exact hfrom ys _

theorem top_singleton (log : ℕ → Option (T × P)) (i : ℕ) (t : T) :
    top log [i] t = recordOf t (log i) := by
  simp [top]

theorem top_congr {log log' : ℕ → Option (T × P)} (h : ∀ i ∈ slots, log' i = log i) (t : T) :
    top log' slots t = top log slots t := by
  induction slots using reverseRecOn with
  | nil => rfl
  | append_singleton xs x ih =>
    rw [top_append, top_append, ih fun i hi => h i (by simp [hi]), top_singleton, top_singleton,
      h x (by simp)]

theorem top_eq_none {log : ℕ → Option (T × P)} (h : ∀ i ∈ slots, recordOf t (log i) = none) :
    top log slots t = none := by
  induction slots using reverseRecOn with
  | nil => rfl
  | append_singleton xs x ih =>
    rw [top_append, ih fun i hi => h i (by simp [hi]), top_singleton, h x (by simp)]
    rfl

theorem top_eq_some {log : ℕ → Option (T × P)} (h : top log slots t = some p) :
    ∃ i ∈ slots, log i = some (t, p) := by
  induction slots using reverseRecOn with
  | nil => cases h
  | append_singleton xs x ih =>
    rw [top_append, top_singleton] at h
    rcases Option.or_eq_some_iff.mp h with hx | ⟨-, hxs⟩
    · refine ⟨x, by simp, ?_⟩
      cases hlog : log x with
      | none => simp [hlog, recordOf] at hx
      | some r =>
        obtain ⟨t', p'⟩ := r
        simp only [hlog, recordOf, Option.ite_none_right_eq_some, Option.some.injEq] at hx
        rw [hx.1, hx.2]
    · obtain ⟨i, hi, hlog⟩ := ih hxs
      exact ⟨i, by simp [hi], hlog⟩

/-- A replay puts the top record of every cell in place. -/
theorem replay_apply (log : ℕ → Option (T × P)) (slots : List ℕ) (store : T → P) (t : T) :
    replay log slots store t = (top log slots t).getD (store t) := by
  induction slots using reverseRecOn with
  | nil => rfl
  | append_singleton xs x ih =>
    have hlast : replay log (xs ++ [x]) store = applySlot (replay log xs store) (log x) := by
      simp [replay]
    rw [hlast, top_append, top_singleton]
    cases hx : log x with
    | none => simpa [applySlot, recordOf] using ih
    | some r =>
      obtain ⟨t', p⟩ := r
      by_cases ht : t' = t
      · subst ht
        simp [applySlot, recordOf]
      · simpa [applySlot, recordOf, ht, update_of_ne (Ne.symm ht)] using ih

/-! ## Slots `0..n-1`, written one after the other -/

theorem range_split {s : ℕ} (hs : s < n) :
    range n = range s ++ s :: range' (s + 1) (n - (s + 1)) := by
  have h := range'_append_1 (s := 0) (m := s) (n := n - s)
  rw [← range_eq_range', show s + (n - s) = n by omega, ← range_eq_range', Nat.zero_add] at h
  rw [← h]
  congr 1
  rw [show n - s = (n - (s + 1)) + 1 by omega, range'_succ]

/-- The newest value of every cell that the log names is in its top record; so it is among
the slots before the one to be written next. -/
structure Safe (n : ℕ) (log : ℕ → Option (T × P)) (next : ℕ) (store : T → P) : Prop where
  bound : next < n
  whole : ∀ t p, top log (range n) t = some p → p = store t
  before : ∀ t p, top log (range next) t = some p → p = store t

theorem Safe.replay_eq {log : ℕ → Option (T × P)} (h : Safe n log next store) :
    replay log (range n) store = store := by
  funext t
  rw [replay_apply]
  cases ht : top log (range n) t with
  | none => rfl
  | some p => exact h.whole t p ht

theorem Safe.restart (hn : 0 < n) (log : ℕ → Option (T × P)) (store : T → P) :
    Safe n log 0 (replay log (range n) store) := by
  refine ⟨hn, fun t p ht => ?_, fun t p ht => ?_⟩
  · rw [replay_apply, ht]
    rfl
  · cases ht

theorem Safe.congr {log log' : ℕ → Option (T × P)} {store' : T → P} (h : Safe n log next store)
    (hlog : ∀ i < n, log' i = log i) (hstore : ∀ t, store' t = store t) :
    Safe n log' next store' := by
  have hbefore : ∀ i ∈ range next, log' i = log i := fun i hi =>
    hlog i (Nat.lt_trans (mem_range.mp hi) h.bound)
  refine ⟨h.bound, fun t p ht => ?_, fun t p ht => ?_⟩
  · rw [top_congr fun i hi => hlog i (mem_range.mp hi)] at ht
    rw [hstore]
    exact h.whole t p ht
  rw [top_congr hbefore] at ht
  rw [hstore]
  exact h.before t p ht

/-- A cell may be changed past the log, if every record for it has the new value. -/
theorem Safe.stored {log : ℕ → Option (T × P)} (h : Safe n log next store)
    (hlog : ∀ i < n, ∀ p, log i = some (t, p) → p = d) : Safe n log next (update store t d) := by
  have hkeep : ∀ slots : List ℕ, (∀ i ∈ slots, i < n) →
      (∀ u p, top log slots u = some p → p = store u) → ∀ u p, top log slots u = some p →
      p = update store t d u := by
    intro slots hslots hstore u p hu
    by_cases htu : u = t
    · subst htu
      obtain ⟨i, hi, hrec⟩ := top_eq_some hu
      rw [update_self]
      exact hlog i (hslots i hi) p hrec
    · rw [update_of_ne htu]
      exact hstore u p hu
  exact ⟨h.bound, hkeep _ (fun _ hi => mem_range.mp hi) h.whole,
    hkeep _ (fun _ hi => Nat.lt_trans (mem_range.mp hi) h.bound) h.before⟩

section Write

variable {s : ℕ} {log : ℕ → Option (T × P)}

theorem top_split (hs : s < n) (log : ℕ → Option (T × P)) (t : T) : top log (range n) t =
      ((top log (range' (s + 1) (n - (s + 1))) t).or (recordOf t (log s))).or
        (top log (range s) t) := by
  have h := top_append log (range s) (s :: range' (s + 1) (n - (s + 1))) t
  have h' := top_append log [s] (range' (s + 1) (n - (s + 1))) t
  rw [range_split hs, h, ← singleton_append, h', top_singleton]

theorem top_update_above (x : Option (T × P)) (t : T) :
    top (update log s x) (range' (s + 1) (n - (s + 1))) t =
      top log (range' (s + 1) (n - (s + 1))) t := by
  refine top_congr (fun i hi => ?_) t
  rw [mem_range'_1] at hi
  rw [update_of_ne (by omega)]

theorem top_update_below (x : Option (T × P)) (t : T) :
    top (update log s x) (range s) t = top log (range s) t := by
  refine top_congr (fun i hi => ?_) t
  rw [update_of_ne (Nat.ne_of_lt (mem_range.mp hi))]

namespace Safe

variable (h : Safe n log s store)
include h

theorem top_other {r : Option (T × P)} {u : T} (hr : recordOf u r = none)
    (hu : top (update log s r) (range n) u = some p) : p = store u := by
  rw [top_split h.bound, top_update_above, top_update_below, update_self, hr] at hu
  cases hcase : top log (range' (s + 1) (n - (s + 1))) u with
  | some q =>
    have hq := h.whole u q (by rw [top_split h.bound, hcase]; rfl)
    rw [hcase] at hu
    cases hu
    exact hq
  | none =>
    rw [hcase] at hu
    exact h.before u p (by simpa using hu)

/-- Losing the record in the slot to be written next does no harm. -/
theorem erase : Safe n (update log s none) s store := by
  refine ⟨h.bound, fun t p => h.top_other rfl, fun t p ht => ?_⟩
  rw [top_update_below] at ht
  exact h.before t p ht

/-- A committed record is recovered, in place or not, provided that no later slot holds
another value for the same cell. -/
theorem commit_top
    (habove : ∀ p, top log (range' (s + 1) (n - (s + 1))) t = some p → p = d) {u : T}
    (hu : top (update log s (some (t, d))) (range n) u = some p) : p = update store t d u := by
  by_cases htu : u = t
  · subst htu
    rw [top_split h.bound, top_update_above, update_self] at hu
    rw [update_self]
    cases hcase : top log (range' (s + 1) (n - (s + 1))) u with
    | some q =>
      rw [hcase] at hu
      cases hu
      exact habove p hcase
    | none =>
      rw [hcase] at hu
      simpa [recordOf, eq_comm] using hu
  · rw [update_of_ne htu]
    exact h.top_other (by simp [recordOf, Ne.symm htu]) hu

theorem commit_replay
    (habove : ∀ p, top log (range' (s + 1) (n - (s + 1))) t = some p → p = d) :
    replay (update log s (some (t, d))) (range n) store = update store t d := by
  funext u
  rw [replay_apply]
  cases hu : top (update log s (some (t, d))) (range n) u with
  | some p => exact h.commit_top habove hu
  | none =>
    -- the cell just written is named by its own slot
    have hne : u ≠ t := by
      rintro rfl
      rw [top_split h.bound] at hu
      simp [recordOf] at hu
    rw [Option.getD_none, update_of_ne hne]

/-- The log is safe again once the value is in place, with the next slot in turn. -/
theorem written
    (habove : ∀ p, top log (range' (s + 1) (n - (s + 1))) t = some p → p = d) :
    Safe n (update log s (some (t, d))) ((s + 1) % n) (update store t d) := by
  have hpos : 0 < n := Nat.lt_of_le_of_lt (Nat.zero_le s) h.bound
  refine ⟨Nat.mod_lt _ hpos, fun u p hu => h.commit_top habove hu, fun u p hu => ?_⟩
  rcases Nat.lt_or_eq_of_le (Nat.succ_le_of_lt h.bound) with hlt | heq
  · rw [Nat.mod_eq_of_lt hlt, range_succ, top_append, top_singleton, top_update_below] at hu
    by_cases htu : u = t
    · subst htu
      simpa [recordOf, eq_comm] using hu
    · rw [update_of_ne htu]
      exact h.before u p (by simpa [recordOf, Ne.symm htu] using hu)
  · rw [show (s + 1) % n = 0 by rw [← heq]; simp] at hu
    cases hu

end Safe

end Write

end Vextro.RedoLog
