import Mathlib.Data.List.Perm.Basic
import Mathlib.Data.List.Range

/-! Boxes of numbered slots that items are put into and taken out of.

A box belongs to an owner, can be handed on and thrown away, and has a number of its own that is
never used again. Whatever was put into a box is still in it or was taken out once. -/

namespace Vextro.Mailboxes

open List
open Function (update update_eq_self update_idem update_of_ne update_self)

variable {α : Type*} {k i b a : ℕ} {t : ℕ → Option α} {c : α}

/-- What the first `k` slots hold. -/
def contents (k : ℕ) (t : ℕ → Option α) : List α := (List.range k).filterMap t

theorem contents_succ (k : ℕ) (t : ℕ → Option α) :
    contents (k + 1) t = contents k t ++ (t k).toList := by
  rw [contents, range_succ]
  cases h : t k <;> simp [contents, h]

theorem contents_update_ge (hi : k ≤ i) (t : ℕ → Option α) (x : Option α) :
    contents k (update t i x) = contents k t := by
  refine filterMap_congr fun j hj => ?_
  have : j < k := mem_range.mp hj
  rw [update_of_ne (by omega)]

theorem contents_put (hi : i < k) (hfree : t i = none) (c : α) :
    (contents k (update t i (some c))).Perm (contents k t ++ [c]) := by
  induction k with
  | zero => omega
  | succ k ih =>
    rw [contents_succ, contents_succ]
    by_cases hik : i = k
    · subst hik
      rw [contents_update_ge le_rfl, update_self, hfree]
      simp
    rw [update_of_ne (by omega)]
    refine ((ih (by omega)).append_right _).trans ?_
    rw [append_assoc, append_assoc]
    exact perm_append_comm.append_left _

theorem contents_take (hi : i < k) (hfull : t i = some c) :
    (contents k t).Perm (contents k (update t i none) ++ [c]) := by
  have h := contents_put (t := update t i none) hi (update_self ..) c
  rwa [update_idem, ← hfull, update_eq_self] at h

theorem exists_free (h : (contents k t).length < k) : ∃ i < k, t i = none := by
  induction k with
  | zero => omega
  | succ k ih =>
    cases hk : t k with
    | none => exact ⟨k, by omega, hk⟩
    | some c =>
      rw [contents_succ, hk] at h
      obtain ⟨i, hi, hfree⟩ := ih (by simpa using h)
      exact ⟨i, by omega, hfree⟩

structure Post (α : Type*) where
  /-- The box of an owner: its number and its slots. -/
  box : ℕ → Option (ℕ × (ℕ → Option α))
  next : ℕ
  posted : List (ℕ × α)
  taken : List (ℕ × α)

/-- What concerns the box `b`. -/
def about (b : ℕ) (xs : List (ℕ × α)) : List α :=
  xs.filterMap fun x => if x.1 = b then some x.2 else none

theorem about_append (b : ℕ) (xs ys : List (ℕ × α)) :
    about b (xs ++ ys) = about b xs ++ about b ys := filterMap_append

theorem about_self (b : ℕ) (c : α) : about b [(b, c)] = [c] := by
  simp [about]

theorem about_ne {b' : ℕ} (h : b' ≠ b) (c : α) : about b [(b', c)] = [] := by
  simp [about, h]

theorem about_fresh {xs : List (ℕ × α)} (h : ∀ x ∈ xs, x.1 < b) : about b xs = [] := by
  refine filterMap_eq_nil_iff.mpr fun x hx => ?_
  rw [if_neg (by have := h x hx; omega)]

namespace Post

inductive Step (k : ℕ) : Post α → Post α → Prop where
  /-- An owner without a box gets an empty one. -/
  | create (p : Post α) (a : ℕ) (h : p.box a = none) :
      Step k p { p with
        box := update p.box a (some (p.next, fun _ => none))
        next := p.next + 1 }
  | put (p : Post α) (a b i : ℕ) (t : ℕ → Option α) (c : α) (h : p.box a = some (b, t)) (hi : i < k)
      (hfree : t i = none) :
      Step k p { p with
        box := update p.box a (some (b, update t i (some c)))
        posted := p.posted ++ [(b, c)] }
  | take (p : Post α) (a b i : ℕ) (t : ℕ → Option α) (c : α) (h : p.box a = some (b, t))
      (hi : i < k) (hfull : t i = some c) : Step k p { p with
        box := update p.box a (some (b, update t i none))
        taken := p.taken ++ [(b, c)] }
  /-- The box is thrown away. -/
  | discard (p : Post α) (a : ℕ) : Step k p { p with box := update p.box a none }
  /-- The box goes to another owner. -/
  | hand (p : Post α) (a n : ℕ) :
      Step k p { p with box := update (update p.box n (p.box a)) a none }

/-- Boxes have numbers of their own, and what was posted to a box has been taken or is in it. -/
structure Sound (k : ℕ) (p : Post α) : Prop where
  distinct : ∀ a a' x x', p.box a = some x → p.box a' = some x' → x.1 = x'.1 → a = a'
  fresh : ∀ a x, p.box a = some x → x.1 < p.next
  posted : ∀ x ∈ p.posted, x.1 < p.next
  taken : ∀ x ∈ p.taken, x.1 < p.next
  balance : ∀ a x, p.box a = some x →
    (about x.1 p.posted).Perm (about x.1 p.taken ++ contents k x.2)

variable {p p' : Post α}

theorem update_some {a' : ℕ} {f : ℕ → Option (ℕ × (ℕ → Option α))} {x y : ℕ × (ℕ → Option α)}
    (h : update f a (some y) a' = some x) : (a' = a ∧ x = y) ∨ (a' ≠ a ∧ f a' = some x) := by
  by_cases ha : a' = a
  · subst ha
    rw [update_self] at h
    exact .inl ⟨rfl, (Option.some.inj h).symm⟩
  · rw [update_of_ne ha] at h
    exact .inr ⟨ha, h⟩

theorem Sound.create (h : Sound k p) (a : ℕ) :
    Sound k { p with
      box := update p.box a (some (p.next, fun _ => none))
      next := p.next + 1 } := by
  refine ⟨?_, ?_, fun x hx => Nat.lt_succ_of_lt (h.posted x hx),
    fun x hx => Nat.lt_succ_of_lt (h.taken x hx), ?_⟩
  · intro a₁ a₂ x₁ x₂ h₁ h₂ heq
    rcases update_some h₁ with ⟨rfl, rfl⟩ | ⟨-, hx₁⟩ <;>
      rcases update_some h₂ with ⟨rfl, rfl⟩ | ⟨-, hx₂⟩
    · rfl
    · exact absurd heq.symm (h.fresh a₂ x₂ hx₂).ne
    · exact absurd heq (h.fresh a₁ x₁ hx₁).ne
    · exact h.distinct a₁ a₂ x₁ x₂ hx₁ hx₂ heq
  · intro a' x hx
    rcases update_some hx with ⟨rfl, rfl⟩ | ⟨-, hx⟩
    · exact Nat.lt_succ_self _
    · exact Nat.lt_succ_of_lt (h.fresh a' x hx)
  intro a' x hx
  rcases update_some hx with ⟨rfl, rfl⟩ | ⟨-, hx⟩
  · rw [about_fresh h.posted, about_fresh h.taken]
    simp [contents]
  · exact h.balance a' x hx

theorem Sound.change (h : Sound k p) {t' : ℕ → Option α} {posted taken : List (ℕ × α)}
    (ha : p.box a = some (b, t)) (hposted : ∀ x ∈ posted, x.1 < p.next)
    (htaken : ∀ x ∈ taken, x.1 < p.next) (hother : ∀ b', b ≠ b' →
      about b' posted = about b' p.posted ∧ about b' taken = about b' p.taken)
    (hbalance : (about b posted).Perm (about b taken ++ contents k t')) :
    Sound k { p with box := update p.box a (some (b, t')), posted, taken } := by
  refine ⟨?_, ?_, hposted, htaken, ?_⟩
  · intro a₁ a₂ x₁ x₂ h₁ h₂ heq
    rcases update_some h₁ with ⟨rfl, rfl⟩ | ⟨-, hx₁⟩ <;>
      rcases update_some h₂ with ⟨rfl, rfl⟩ | ⟨-, hx₂⟩
    · rfl
    · exact h.distinct a₁ a₂ (b, t) x₂ ha hx₂ heq
    · exact h.distinct a₁ a₂ x₁ (b, t) hx₁ ha heq
    · exact h.distinct a₁ a₂ x₁ x₂ hx₁ hx₂ heq
  · intro a' x hx
    rcases update_some hx with ⟨rfl, rfl⟩ | ⟨-, hx⟩
    · exact h.fresh a' (b, t) ha
    · exact h.fresh a' x hx
  intro a' x hx
  rcases update_some hx with ⟨rfl, rfl⟩ | ⟨hne, hx⟩
  · exact hbalance
  have hb : b ≠ x.1 := fun hb => hne (h.distinct a' a x (b, t) hx ha hb.symm)
  dsimp only
  rw [(hother x.1 hb).1, (hother x.1 hb).2]
  exact h.balance a' x hx

theorem lt_of_snoc {xs : List (ℕ × α)} {n : ℕ} (h : ∀ x ∈ xs, x.1 < n) (hb : b < n) :
    ∀ x ∈ xs ++ [(b, c)], x.1 < n := by
  intro x hx
  rcases mem_append.mp hx with hx | hx
  · exact h x hx
  · rwa [mem_singleton.mp hx]

namespace Sound

variable (h : Sound k p)
include h

theorem put (ha : p.box a = some (b, t)) (hi : i < k) (hfree : t i = none)
    (c : α) : Sound k { p with
      box := update p.box a (some (b, update t i (some c)))
      posted := p.posted ++ [(b, c)] } := by
  refine h.change ha (lt_of_snoc h.posted (h.fresh a _ ha)) h.taken (fun b' hb => ?_) ?_
  · rw [about_append, about_ne hb, append_nil]
    exact ⟨rfl, rfl⟩
  rw [about_append, about_self]
  refine ((h.balance a _ ha).append_right _).trans ?_
  rw [append_assoc]
  exact (contents_put hi hfree c).symm.append_left _

theorem take (ha : p.box a = some (b, t)) (hi : i < k)
    (hfull : t i = some c) : Sound k { p with
      box := update p.box a (some (b, update t i none))
      taken := p.taken ++ [(b, c)] } := by
  refine h.change ha h.posted (lt_of_snoc h.taken (h.fresh a _ ha)) (fun b' hb => ?_) ?_
  · rw [about_append, about_ne hb, append_nil]
    exact ⟨rfl, rfl⟩
  rw [about_append, about_self, append_assoc]
  refine (h.balance a _ ha).trans (List.Perm.append_left _ ?_)
  exact (contents_take hi hfull).trans perm_append_comm

/-- Boxes that are other owners' now, each with one owner. -/
theorem rehouse {box : ℕ → Option (ℕ × (ℕ → Option α))}
    (was : ℕ → ℕ) (hbox : ∀ a x, box a = some x → p.box (was a) = some x)
    (hwas : ∀ a a' x x', box a = some x → box a' = some x' → was a = was a' → a = a') :
    Sound k { p with box } := by
  refine ⟨?_, fun a x hx => h.fresh _ x (hbox a x hx), h.posted, h.taken,
    fun a x hx => h.balance _ x (hbox a x hx)⟩
  intro a a' x x' hx hx' heq
  exact hwas a a' x x' hx hx' (h.distinct _ _ x x' (hbox a x hx) (hbox a' x' hx') heq)

theorem discard (a : ℕ) : Sound k { p with box := update p.box a none } := by
  refine h.rehouse id (fun a' x hx => ?_) fun _ _ _ _ _ _ heq => heq
  by_cases ha : a' = a
  · subst ha
    simp [update_self] at hx
  · rwa [update_of_ne ha] at hx

theorem hand (a n : ℕ) :
    Sound k { p with box := update (update p.box n (p.box a)) a none } := by
  have hne : ∀ a' x, update (update p.box n (p.box a)) a none a' = some x →
      a' ≠ a ∧ update p.box n (p.box a) a' = some x := by
    intro a' x hx
    by_cases ha : a' = a
    · subst ha
      simp [update_self] at hx
    · rw [update_of_ne ha] at hx
      exact ⟨ha, hx⟩
  refine h.rehouse (fun a' => if a' = n then a else a') (fun a' x hx => ?_)
    fun a₁ a₂ x₁ x₂ h₁ h₂ heq => ?_
  · obtain ⟨-, hx⟩ := hne a' x hx
    by_cases hn : a' = n
    · subst hn
      simpa using hx
    · simpa [hn] using hx
  have h₁ := (hne a₁ x₁ h₁).1
  have h₂ := (hne a₂ x₂ h₂).1
  split at heq <;> split at heq
  · omega
  · omega
  · omega
  · exact heq

theorem step (hstep : Step k p p') : Sound k p' := by
  cases hstep with
  | create a _ => exact h.create a
  | put a b i t c ha hi hfree => exact h.put ha hi hfree c
  | take a b i t c ha hi hfull => exact h.take ha hi hfull
  | discard a => exact h.discard a
  | hand a n => exact h.hand a n

theorem steps (hsteps : Relation.ReflTransGen (Step k) p p') : Sound k p' := by
  induction hsteps with
  | refl => exact h
  | tail _ hstep ih => exact ih.step hstep

end Sound

end Post

end Vextro.Mailboxes
