import Mathlib.Data.List.Basic

/-! Runs of a deterministic state machine and the invariants they keep. -/

namespace Vextro.Run

variable {σ α : Type*} {step : σ → α → σ} {C : σ → α → Prop}
variable {s : σ} {xs : List α}

/-- Every step of the run meets `C` in the state it is taken from. -/
def Meets (step : σ → α → σ) (C : σ → α → Prop) : σ → List α → Prop
  | _, [] => True
  | s, x :: xs => C s x ∧ Meets step C (step s x) xs

instance Meets.decidable [∀ s x, Decidable (C s x)] (s : σ) (xs : List α) :
    Decidable (Meets step C s xs) :=
  match xs with
  | [] => isTrue trivial
  | x :: xs => @instDecidableAnd _ _ _ (Meets.decidable (step s x) xs)

theorem invariant {I : σ → Prop} (hstep : ∀ s x, I s → C s x → I (step s x)) (hI : I s)
    (hC : Meets step C s xs) : I (xs.foldl step s) := by
  induction xs generalizing s with
  | nil => exact hI
  | cons x xs ih => exact ih (hstep s x hI hC.1) hC.2

theorem Meets.take (h : Meets step C s xs) (n : ℕ) : Meets step C s (xs.take n) := by
  induction xs generalizing s n with
  | nil => simpa using h
  | cons x xs ih =>
    cases n with
    | zero => trivial
    | succ n => exact ⟨h.1, ih h.2 n⟩

/-- The property holds in every state the run passes through. -/
theorem invariant_take {I : σ → Prop} (hstep : ∀ s x, I s → C s x → I (step s x)) (hI : I s)
    (hC : Meets step C s xs) (n : ℕ) : I ((xs.take n).foldl step s) :=
  invariant hstep hI (hC.take n)

theorem Meets.trivial (s : σ) (xs : List α) : Meets step (fun _ _ => True) s xs := by
  induction xs generalizing s with
  | nil => exact True.intro
  | cons x xs ih => exact ⟨True.intro, ih (step s x)⟩

theorem Meets.mono {D : σ → α → Prop} (h : ∀ s x, C s x → D s x)
    (hC : Meets step C s xs) : Meets step D s xs := by
  induction xs generalizing s with
  | nil => exact True.intro
  | cons x xs ih => exact ⟨h s x hC.1, ih hC.2⟩

theorem Meets.and {D : σ → α → Prop} (hC : Meets step C s xs)
    (hD : Meets step D s xs) : Meets step (fun s x => C s x ∧ D s x) s xs := by
  induction xs generalizing s with
  | nil => exact True.intro
  | cons x xs ih => exact ⟨⟨hC.1, hD.1⟩, ih hC.2 hD.2⟩

/-- What the step at a place of the run meets. -/
theorem Meets.at (h : Meets step C s xs) {n : ℕ} {x : α}
    (hx : xs[n]? = some x) : C ((xs.take n).foldl step s) x := by
  induction xs generalizing s n with
  | nil => cases hx
  | cons y xs ih =>
    cases n with
    | zero =>
      cases hx
      exact h.1
    | succ n => exact ih h.2 hx

theorem Meets.append {ys : List α} (h : Meets step C s xs)
    (h' : Meets step C (xs.foldl step s) ys) : Meets step C s (xs ++ ys) := by
  induction xs generalizing s with
  | nil => exact h'
  | cons x xs ih => exact ⟨h.1, ih h.2 h'⟩

/-- A run of numbered steps, with an invariant that counts them. -/
theorem Meets.staged {I : ℕ → σ → Prop} {x : ℕ → α} {n : ℕ} (hI : I 0 s)
    (hstep : ∀ k < n, ∀ s, I k s → C s (x k) ∧ I (k + 1) (step s (x k))) :
    Meets step C s ((List.range n).map x) ∧ I n (((List.range n).map x).foldl step s) := by
  induction n with
  | zero => exact ⟨True.intro, hI⟩
  | succ n ih =>
    obtain ⟨hmeets, hn⟩ := ih fun k hk => hstep k (by omega)
    obtain ⟨hC, hnext⟩ := hstep n (by omega) _ hn
    rw [List.range_succ, List.map_append, List.foldl_append]
    exact ⟨hmeets.append ⟨hC, True.intro⟩, hnext⟩

end Vextro.Run
