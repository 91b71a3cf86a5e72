import Mathlib.Algebra.Group.Nat.Defs
import Mathlib.Algebra.Group.Pi.Basic
import Mathlib.Logic.Relation

/-! Objects with several sides, each with a count of its holders, released when no side has one.

The book has the holders as they are, the counts the objects carry, and the objects released so
far. -/

namespace Vextro.Shares

open Function (update update_of_ne update_self)

variable {r : ℕ}
variable {σ : Type*} [DecidableEq σ]

/-- One holder, on the side `e` of the object `r`. -/
def one (e : σ) (r : ℕ) : σ → ℕ → ℕ := fun e' r' => if e' = e ∧ r' = r then 1 else 0

theorem one_self (e : σ) (r : ℕ) : one e r e r = 1 := if_pos ⟨rfl, rfl⟩

theorem one_ne {e : σ} {r' : ℕ} (h : r' ≠ r) (e' : σ) : one e r e' r' = 0 :=
  if_neg fun hc => h hc.2

structure Book (σ : Type*) where
  held : σ → ℕ → ℕ
  /-- The counts of an object, while it is there. -/
  count : ℕ → Option (σ → ℕ)
  next : ℕ
  released : List ℕ

namespace Book

inductive Step : Book σ → Book σ → Prop where
  /-- A new object, with its first holders. -/
  | make (b : Book σ) (c : σ → ℕ) (hc : ∃ e, c e ≠ 0) :
      Step b { b with
        held := b.held + fun e r => if r = b.next then c e else 0
        count := update b.count b.next (some c)
        next := b.next + 1 }
  | raise (b : Book σ) (e : σ) (r : ℕ) (c : σ → ℕ) (hc : b.count r = some c) :
      Step b { b with
        held := b.held + one e r
        count := update b.count r (some fun e' => c e' + one e r e' r) }
  | lower (b : Book σ) (held : σ → ℕ → ℕ)
      (e : σ) (r : ℕ) (c : σ → ℕ) (hheld : b.held = held + one e r) (hc : b.count r = some c)
      (hmore : ∃ e', c e' - one e r e' r ≠ 0) : Step b { b with
        held
        count := update b.count r (some fun e' => c e' - one e r e' r) }
  /-- The last holder lets go. -/
  | drop (b : Book σ) (held : σ → ℕ → ℕ)
      (e : σ) (r : ℕ) (c : σ → ℕ) (hheld : b.held = held + one e r) (hc : b.count r = some c)
      (hlast : ∀ e', c e' - one e r e' r = 0) : Step b { b with
        held
        count := update b.count r none
        released := b.released ++ [r] }

/-- The counts are right, and what nobody holds has been released once. -/
structure Balanced (b : Book σ) : Prop where
  gone : ∀ r, b.count r = none ↔ ∀ e, b.held e r = 0
  exact : ∀ r c, b.count r = some c → ∀ e, c e = b.held e r
  fresh : ∀ r, b.next ≤ r → ∀ e, b.held e r = 0
  once : ∀ r < b.next, (∀ e, b.held e r = 0) → b.released.count r = 1
  kept : ∀ r, (b.next ≤ r ∨ ∃ e, b.held e r ≠ 0) → b.released.count r = 0

section

omit [DecidableEq σ]

variable {b : Book σ}

section

variable (h : b.Balanced)
include h

theorem Balanced.lt_next {e : σ} (he : b.held e r ≠ 0) : r < b.next := by
  by_contra hge
  exact he (h.fresh r (Nat.le_of_not_lt hge) e)

theorem Balanced.exists_count {e : σ} (he : b.held e r ≠ 0) : ∃ c, b.count r = some c := by
  cases hc : b.count r with
  | none => exact absurd ((h.gone r).mp hc e) he
  | some c => exact ⟨c, rfl⟩

theorem Balanced.exists_held {c : σ → ℕ} (hc : b.count r = some c) : ∃ e, b.held e r ≠ 0 := by
  by_contra hnone
  have hgone := (h.gone r).mpr fun e => by
    by_contra he
    exact hnone ⟨e, he⟩
  simp [hgone] at hc

/-- Only one object has to be looked at. -/
theorem Balanced.change {held : σ → ℕ → ℕ} {count : ℕ → Option (σ → ℕ)}
    {next : ℕ} {released : List ℕ} (r : ℕ) (hheld : ∀ q, q ≠ r → ∀ e, held e q = b.held e q)
    (hcount : ∀ q, q ≠ r → count q = b.count q)
    (hlog : ∀ q, q ≠ r → released.count q = b.released.count q)
    (hnext : ∀ q, q ≠ r → (q < next ↔ q < b.next))
    (hr : r < next) (hgone : count r = none ↔ ∀ e, held e r = 0)
    (hexact : ∀ c, count r = some c → ∀ e, c e = held e r)
    (honce : (∀ e, held e r = 0) → released.count r = 1)
    (hkept : (∃ e, held e r ≠ 0) → released.count r = 0) :
    Balanced ⟨held, count, next, released⟩ := by
  constructor
  case gone =>
    intro q
    by_cases hq : q = r
    · subst hq
      exact hgone
    · simp only [hcount q hq, hheld q hq]
      exact h.gone q
  case exact =>
    intro q c hc e
    by_cases hq : q = r
    · subst hq
      exact hexact c hc e
    · refine (h.exact q c ?_ e).trans (hheld q hq e).symm
      rwa [← hcount q hq]
  case fresh =>
    intro q hle e
    have hq : q ≠ r := by
      rintro rfl
      exact absurd hr (Nat.not_lt.mpr hle)
    refine (hheld q hq e).trans (h.fresh q ?_ e)
    exact Nat.le_of_not_lt fun hlt => absurd ((hnext q hq).mpr hlt) (Nat.not_lt.mpr hle)
  case once =>
    intro q hlt hidle
    by_cases hq : q = r
    · subst hq
      exact honce hidle
    · refine (hlog q hq).trans (h.once q ((hnext q hq).mp hlt) fun e => ?_)
      exact (hheld q hq e).symm.trans (hidle e)
  case kept =>
    intro q hkeep
    by_cases hq : q = r
    · subst hq
      exact hkept (hkeep.resolve_left (Nat.not_le.mpr hr))
    refine (hlog q hq).trans (h.kept q (hkeep.imp (fun hle => ?_) fun ⟨e, he⟩ => ⟨e, ?_⟩))
    · exact Nat.le_of_not_lt fun hlt => absurd ((hnext q hq).mpr hlt) (Nat.not_lt.mpr hle)
    · rwa [← hheld q hq e]

theorem Balanced.make {c : σ → ℕ} (hc : ∃ e, c e ≠ 0) :
    Balanced { b with
      held := b.held + fun e r => if r = b.next then c e else 0
      count := update b.count b.next (some c)
      next := b.next + 1 } := by
  have hnew : ∀ e, (b.held + fun e r => if r = b.next then c e else 0) e b.next = c e := by
    intro e
    rw [Pi.add_apply, Pi.add_apply, if_pos rfl, h.fresh b.next (Nat.le_refl _) e, Nat.zero_add]
  refine h.change b.next (fun q hq e => ?_) (fun q hq => update_of_ne hq _ _)
    (fun _ _ => rfl) (fun q hq => by omega) (Nat.lt_succ_self _) ?_ (fun c' hc' e => ?_)
    (fun hidle => ?_) fun _ => h.kept b.next (.inl (Nat.le_refl _))
  · rw [Pi.add_apply, Pi.add_apply, if_neg hq, Nat.add_zero]
  · obtain ⟨e, he⟩ := hc
    rw [update_self]
    exact ⟨nofun, fun hidle => absurd ((hnew e).symm.trans (hidle e)) he⟩
  · rw [update_self] at hc'
    rw [← Option.some.inj hc', hnew]
  · obtain ⟨e, he⟩ := hc
    exact absurd ((hnew e).symm.trans (hidle e)) he

end

end

variable {b b' : Book σ}

theorem Balanced.raise (h : b.Balanced) {e : σ} {c : σ → ℕ} (hc : b.count r = some c) :
    Balanced { b with
      held := b.held + one e r
      count := update b.count r (some fun e' => c e' + one e r e' r) } := by
  obtain ⟨e₀, he₀⟩ := h.exists_held hc
  have hstill : (b.held + one e r) e₀ r ≠ 0 := by
    rw [Pi.add_apply, Pi.add_apply]
    omega
  refine h.change r (fun q hq e' => ?_) (fun q hq => update_of_ne hq _ _)
    (fun _ _ => rfl) (fun q _ => Iff.rfl) (h.lt_next he₀) ?_ (fun c' hc' e' => ?_)
    (fun hidle => absurd (hidle e₀) hstill) fun _ => h.kept r (.inr ⟨e₀, he₀⟩)
  · rw [Pi.add_apply, Pi.add_apply, one_ne hq, Nat.add_zero]
  · rw [update_self]
    exact ⟨nofun, fun hidle => absurd (hidle e₀) hstill⟩
  rw [update_self] at hc'
  rw [← Option.some.inj hc']
  exact congrArg (· + one e r e' r) (h.exact r c hc e')

theorem held_lower {held held' : σ → ℕ → ℕ} {e : σ} (h : held = held' + one e r) :
    (∀ q, q ≠ r → ∀ e', held' e' q = held e' q) ∧ ∀ e', held' e' r = held e' r - one e r e' r := by
  subst h
  refine ⟨fun q hq e' => ?_, fun e' => ?_⟩
  · rw [Pi.add_apply, Pi.add_apply, one_ne hq, Nat.add_zero]
  · rw [Pi.add_apply, Pi.add_apply, Nat.add_sub_cancel]

theorem Balanced.lower (h : b.Balanced) {held : σ → ℕ → ℕ}
    {e : σ} {c : σ → ℕ} (hheld : b.held = held + one e r) (hc : b.count r = some c)
    (hmore : ∃ e', c e' - one e r e' r ≠ 0) : Balanced { b with
      held
      count := update b.count r (some fun e' => c e' - one e r e' r) } := by
  obtain ⟨hother, hself⟩ := held_lower hheld
  obtain ⟨e₀, he₀⟩ := hmore
  rw [h.exact r c hc, ← hself] at he₀
  obtain ⟨e₁, he₁⟩ := h.exists_held hc
  refine h.change r hother (fun q hq => update_of_ne hq _ _) (fun _ _ => rfl)
    (fun q _ => Iff.rfl) (h.lt_next he₁) ?_ (fun c' hc' e' => ?_)
    (fun hidle => absurd (hidle e₀) he₀) fun _ => h.kept r (.inr ⟨e₁, he₁⟩)
  · rw [update_self]
    exact ⟨nofun, fun hidle => absurd (hidle e₀) he₀⟩
  rw [update_self] at hc'
  rw [← Option.some.inj hc', hself]
  exact congrArg (· - one e r e' r) (h.exact r c hc e')

theorem Balanced.drop (h : b.Balanced) {held : σ → ℕ → ℕ}
    {e : σ} {c : σ → ℕ} (hheld : b.held = held + one e r) (hc : b.count r = some c)
    (hlast : ∀ e', c e' - one e r e' r = 0) : Balanced { b with
      held
      count := update b.count r none
      released := b.released ++ [r] } := by
  obtain ⟨hother, hself⟩ := held_lower hheld
  have hidle : ∀ e', held e' r = 0 := by
    intro e'
    rw [hself, ← h.exact r c hc e']
    exact hlast e'
  obtain ⟨e₁, he₁⟩ := h.exists_held hc
  refine h.change r hother (fun q hq => update_of_ne hq _ _) (fun q hq => ?_)
    (fun q _ => Iff.rfl) (h.lt_next he₁) ?_ (fun c' hc' => ?_) (fun _ => ?_)
    fun ⟨e', he'⟩ => absurd (hidle e') he'
  · simp [Ne.symm hq]
  · rw [update_self]
    exact ⟨fun _ => hidle, fun _ => rfl⟩
  · simp [update_self] at hc'
  · simp [h.kept r (.inr ⟨e₁, he₁⟩)]

/-- Step lemma: the counts stay exact. -/
theorem Balanced.step (h : b.Balanced) (hs : Step b b') : b'.Balanced := by
  cases hs with
  | make c hc => exact h.make hc
  | raise e r c hc => exact h.raise hc
  | lower held e r c hheld hc hmore => exact h.lower hheld hc hmore
  | drop held e r c hheld hc hlast => exact h.drop hheld hc hlast

theorem Balanced.steps (h : b.Balanced) (hs : Relation.ReflTransGen Step b b') : b'.Balanced := by
  induction hs with
  | refl => exact h
  | tail _ hs ih => exact ih.step hs

end Book

end Vextro.Shares
