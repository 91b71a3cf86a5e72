import Mathlib.Algebra.Order.BigOperators.Group.Finset

/-! Objects that are held from numbered places and released when the last holder lets go.

The ledger has the places, the count every object carries, and the objects released so far. -/

namespace Vextro.Holders

open Function (update update_comm update_idem update_of_ne update_self)

/-- Two sums that differ in one term. -/
theorem sum_change {ι M : Type*} [DecidableEq ι] [AddCommMonoid M]
    {s : Finset ι} {i : ι} (hi : i ∈ s) {f g : ι → M} (h : ∀ j ∈ s, j ≠ i → f j = g j) :
    ∑ j ∈ s, f j + g i = ∑ j ∈ s, g j + f i := by
  have hrest : ∑ j ∈ s.erase i, f j = ∑ j ∈ s.erase i, g j :=
    Finset.sum_congr rfl fun j hj => h j (Finset.mem_of_mem_erase hj) (Finset.ne_of_mem_erase hj)
  rw [← Finset.add_sum_erase s f hi, ← Finset.add_sum_erase s g hi, hrest]
  rw [add_comm, add_comm (f i), ← add_assoc]

structure Ledger where
  /-- What a place holds. -/
  owner : ℕ → Option ℕ
  /-- The count of an object, while it is there. -/
  refs : ℕ → Option ℕ
  next : ℕ
  released : List ℕ

variable {n i a r : ℕ} {l l' : Ledger}

namespace Ledger

/-- How many of the first `n` places hold the object. -/
def held (n : ℕ) (l : Ledger) (a : ℕ) : ℕ :=
  ∑ i ∈ Finset.range n, if l.owner i = some a then 1 else 0

theorem held_update (hi : i < n) {x : Option ℕ} (h : l'.owner = update l.owner i x) (a : ℕ) :
    l'.held n a + (if l.owner i = some a then 1 else 0) = l.held n a +
      (if x = some a then 1 else 0) := by
  have hi' : l'.owner i = x := by rw [h, update_self]
  rw [← hi']
  refine sum_change
    (g := fun j => if l.owner j = some a then 1 else 0) (Finset.mem_range.mpr hi) fun j _ hj => ?_
  rw [h, update_of_ne hj]

theorem held_take (hi : i < n) (hfree : l.owner i = none) (h : l'.owner = update l.owner i (some a))
    (b : ℕ) :
    l'.held n b = l.held n b + if a = b then 1 else 0 := by
  have := held_update hi h b
  simpa [hfree] using this

theorem held_let_go (hi : i < n) (hown : l.owner i = some a) (h : l'.owner = update l.owner i none)
    (b : ℕ) :
    l'.held n b = l.held n b - if a = b then 1 else 0 := by
  have := held_update hi h b
  simp only [hown, Option.some.injEq, reduceCtorEq, if_false] at this
  omega

theorem held_pos (hi : i < n) (h : l.owner i = some a) : 0 < l.held n a :=
  Finset.sum_pos' (fun _ _ => Nat.zero_le _) ⟨i, Finset.mem_range.mpr hi, by simp [h]⟩

/-- What may happen to the ledger, over `n` places. -/
inductive Step (n : ℕ) : Ledger → Ledger → Prop where
  /-- A new object is given up before anyone holds it. -/
  | abandon (l : Ledger) :
      Step n l { l with next := l.next + 1, released := l.released ++ [l.next] }
  /-- A free place takes a new object. -/
  | create (l : Ledger) (i : ℕ) (hi : i < n) (hfree : l.owner i = none) :
      Step n l { l with
        owner := update l.owner i (some l.next)
        refs := update l.refs l.next (some 1)
        next := l.next + 1 }
  /-- A free place takes an object that others hold. -/
  | share (l : Ledger) (i a r : ℕ) (hi : i < n) (hfree : l.owner i = none)
      (hr : l.refs a = some r) : Step n l { l with
        owner := update l.owner i (some a)
        refs := update l.refs a (some (r + 1)) }
  /-- The only holder of an object moves to a new one. -/
  | move (l : Ledger) (i a r : ℕ) (hi : i < n) (hown : l.owner i = some a) (hr : l.refs a = some r)
      (hone : r ≤ 1) :
      Step n l
        { owner := update l.owner i (some l.next)
          refs := update (update l.refs l.next (some 1)) a none
          next := l.next + 1
          released := l.released ++ [a] }
  /-- One of several holders lets go. -/
  | leave (l : Ledger) (i a r : ℕ) (hi : i < n) (hown : l.owner i = some a) (hr : l.refs a = some r)
      (hmany : 1 < r) :
      Step n l { l with
        owner := update l.owner i none
        refs := update l.refs a (some (r - 1)) }
  /-- The last holder lets go. -/
  | drop (l : Ledger) (i a r : ℕ) (hi : i < n) (hown : l.owner i = some a) (hr : l.refs a = some r)
      (hone : r ≤ 1) :
      Step n l { l with
        owner := update l.owner i none
        refs := update l.refs a none
        released := l.released ++ [a] }

/-- An object is there exactly as long as it is held, its count is the number of its holders, and
each object that is gone was released once. -/
structure Balanced (n : ℕ) (l : Ledger) : Prop where
  places : ∀ i, n ≤ i → l.owner i = none
  refs : ∀ a, l.refs a = if l.held n a = 0 then none else some (l.held n a)
  fresh : ∀ a, l.next ≤ a → l.held n a = 0
  log : ∀ a, l.released.count a = if a < l.next ∧ l.held n a = 0 then 1 else 0

theorem Balanced.held_eq (h : Balanced n l) (hr : l.refs a = some r) :
    l.held n a = r ∧ 0 < r ∧ a < l.next := by
  have hrefs := h.refs a
  rw [hr] at hrefs
  split at hrefs
  · cases hrefs
  rename_i hne
  have heq := Option.some.inj hrefs
  refine ⟨heq.symm, by omega, ?_⟩
  by_contra hge
  exact hne (h.fresh a (not_lt.mp hge))

theorem Balanced.lt_of_owner (h : Balanced n l) (ha : l.owner i = some a) : i < n := by
  by_contra hge
  simp [h.places i (not_lt.mp hge)] at ha

theorem Balanced.places_update (h : Balanced n l) (hi : i < n) (x : Option ℕ) (j : ℕ) (hj : n ≤ j) :
    update l.owner i x j = none := by
  rw [update_of_ne (by omega), h.places j hj]

theorem count_snoc (xs : List ℕ) (x a : ℕ) :
    (xs ++ [x]).count a = xs.count a + if x = a then 1 else 0 := by
  rw [List.count_append, List.count_singleton]
  simp

/-- The ledger is right about one object. -/
structure Settled (n : ℕ) (l : Ledger) (a : ℕ) : Prop where
  refs : l.refs a = if l.held n a = 0 then none else some (l.held n a)
  fresh : l.next ≤ a → l.held n a = 0
  log : l.released.count a = if a < l.next ∧ l.held n a = 0 then 1 else 0

namespace Settled

theorem held (hheld : l.held n a = r) (hpos : 0 < r) (hrefs : l.refs a = some r) (hlt : a < l.next)
    (hlog : l.released.count a = 0) : Settled n l a := by
  constructor
  · rw [hrefs, hheld, if_neg hpos.ne']
  · exact fun hge => absurd hlt hge.not_gt
  · rw [hlog, hheld, if_neg fun hc => hpos.ne' hc.2]

theorem gone (hheld : l.held n a = 0) (hrefs : l.refs a = none) (hlt : a < l.next)
    (hlog : l.released.count a = 1) : Settled n l a := by
  constructor
  · rw [hrefs, hheld, if_pos rfl]
  · exact fun _ => hheld
  · rw [hlog, if_pos ⟨hlt, hheld⟩]

theorem other (h : Balanced n l) (hheld : l'.held n a = l.held n a) (hrefs : l'.refs a = l.refs a)
    (hnext : a < l'.next ↔ a < l.next) (hlog : l'.released.count a = l.released.count a) :
    Settled n l' a := by
  constructor
  · rw [hrefs, hheld, h.refs a]
  · exact fun hge => hheld.trans (h.fresh a (by omega))
  · simp only [hlog, h.log a, hheld, hnext]

theorem balanced (hplaces : ∀ i, n ≤ i → l.owner i = none) (h : ∀ a, Settled n l a) :
    Balanced n l :=
  ⟨hplaces, fun a => (h a).refs, fun a => (h a).fresh, fun a => (h a).log⟩

end Settled

namespace Balanced

variable (h : Balanced n l)
include h

theorem count_held (hr : l.refs a = some r) : l.released.count a = 0 := by
  obtain ⟨hra, hpos, _⟩ := h.held_eq hr
  rw [h.log a, if_neg fun hc => hpos.ne' (hra.symm.trans hc.2)]

theorem count_next : l.released.count l.next = 0 := by
  rw [h.log, if_neg fun hc => lt_irrefl _ hc.1]

theorem abandon :
    Balanced n { l with next := l.next + 1, released := l.released ++ [l.next] } := by
  refine Settled.balanced h.places fun b => ?_
  by_cases hb : l.next = b
  · subst hb
    have hnext := h.fresh l.next le_rfl
    refine .gone hnext ((h.refs _).trans (if_pos hnext)) (Nat.lt_succ_self _) ?_
    rw [count_snoc, if_pos rfl, h.count_next]
  · refine .other h rfl rfl (by dsimp only; omega) ?_
    rw [count_snoc, if_neg hb, Nat.add_zero]

theorem create (hi : i < n) (hfree : l.owner i = none) : Balanced n { l with
      owner := update l.owner i (some l.next)
      refs := update l.refs l.next (some 1)
      next := l.next + 1 } := by
  refine Settled.balanced (h.places_update hi _) fun b => ?_
  by_cases hb : l.next = b
  · subst hb
    refine .held ?_ Nat.one_pos (update_self ..) (Nat.lt_succ_self _) h.count_next
    rw [held_take hi hfree rfl, h.fresh l.next le_rfl, if_pos rfl]
  · refine .other h ?_ (update_of_ne (Ne.symm hb) _ _) (by dsimp only; omega) rfl
    rw [held_take hi hfree rfl, if_neg hb, Nat.add_zero]

theorem share (hi : i < n) (hfree : l.owner i = none) (hr : l.refs a = some r) :
    Balanced n { l with
      owner := update l.owner i (some a)
      refs := update l.refs a (some (r + 1)) } := by
  obtain ⟨hra, hpos, hlt⟩ := h.held_eq hr
  refine Settled.balanced (h.places_update hi _) fun b => ?_
  by_cases hb : a = b
  · subst hb
    refine .held ?_ (Nat.succ_pos r) (update_self ..) hlt (h.count_held hr)
    rw [held_take hi hfree rfl, hra, if_pos rfl]
  · refine .other h ?_ (update_of_ne (Ne.symm hb) _ _) Iff.rfl rfl
    rw [held_take hi hfree rfl, if_neg hb, Nat.add_zero]

theorem leave (hi : i < n) (hown : l.owner i = some a) (hr : l.refs a = some r)
    (hmany : 1 < r) : Balanced n { l with
      owner := update l.owner i none
      refs := update l.refs a (some (r - 1)) } := by
  obtain ⟨hra, hpos, hlt⟩ := h.held_eq hr
  refine Settled.balanced (h.places_update hi _) fun b => ?_
  by_cases hb : a = b
  · subst hb
    refine .held ?_ (Nat.sub_pos_of_lt hmany) (update_self ..) hlt (h.count_held hr)
    rw [held_let_go hi hown rfl, hra, if_pos rfl]
  · refine .other h ?_ (update_of_ne (Ne.symm hb) _ _) Iff.rfl rfl
    rw [held_let_go hi hown rfl, if_neg hb, Nat.sub_zero]

theorem drop (hi : i < n) (hown : l.owner i = some a) (hr : l.refs a = some r)
    (hone : r ≤ 1) : Balanced n { l with
      owner := update l.owner i none
      refs := update l.refs a none
      released := l.released ++ [a] } := by
  obtain ⟨hra, hpos, hlt⟩ := h.held_eq hr
  refine Settled.balanced (h.places_update hi _) fun b => ?_
  by_cases hb : a = b
  · subst hb
    refine .gone ?_ (update_self ..) hlt ?_
    · rw [held_let_go hi hown rfl, hra, if_pos rfl, Nat.sub_eq_zero_of_le hone]
    · rw [count_snoc, if_pos rfl, h.count_held hr]
  · refine .other h ?_ (update_of_ne (Ne.symm hb) _ _) Iff.rfl ?_
    · rw [held_let_go hi hown rfl, if_neg hb, Nat.sub_zero]
    · rw [count_snoc, if_neg hb, Nat.add_zero]

theorem move (hi : i < n) (hown : l.owner i = some a) (hr : l.refs a = some r)
    (hone : r ≤ 1) : Balanced n
      { owner := update l.owner i (some l.next)
        refs := update (update l.refs l.next (some 1)) a none
        next := l.next + 1
        released := l.released ++ [a] } := by
  obtain ⟨hra, hpos, hlt⟩ := h.held_eq hr
  -- the object is dropped, then the free place takes the new one
  have hdrop := h.drop hi hown hr hone
  have hcreate := hdrop.create hi (update_self ..)
  rwa [update_idem, update_comm hlt.ne] at hcreate

theorem step (hstep : Step n l l') : Balanced n l' := by
  cases hstep with
  | abandon => exact h.abandon
  | create i hi hfree => exact h.create hi hfree
  | share i a r hi hfree hr => exact h.share hi hfree hr
  | move i a r hi hown hr hone => exact h.move hi hown hr hone
  | leave i a r hi hown hr hmany => exact h.leave hi hown hr hmany
  | drop i a r hi hown hr hone => exact h.drop hi hown hr hone

theorem steps (hsteps : Relation.ReflTransGen (Step n) l l') : Balanced n l' := by
  induction hsteps with
  | refl => exact h
  | tail _ hstep ih => exact ih.step hstep

end Balanced

end Ledger

end Vextro.Holders
