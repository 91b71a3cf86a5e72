import Mathlib.Data.List.Nodup

/-! Linked lists in memory: nodes are non-zero addresses and `0` ends a list. -/

namespace Vextro.Links

open List

variable {next next' : ℕ → ℕ} {p x : ℕ} {l : List ℕ}

/-- From `p` on, `next` leads through the nodes of the list to its end. -/
def Chain (next : ℕ → ℕ) : ℕ → List ℕ → Prop
  | p, [] => p = 0
  | p, x :: xs => p = x ∧ x ≠ 0 ∧ Chain next (next x) xs

namespace Chain

variable (h : Chain next p l)
include h

theorem congr (hsame : ∀ x ∈ l, next' x = next x) : Chain next' p l := by
  induction l generalizing p with
  | nil => exact h
  | cons x xs ih =>
    obtain ⟨hp, h0, hrest⟩ := h
    refine ⟨hp, h0, ?_⟩
    rw [hsame x mem_cons_self]
    exact ih hrest fun y hy => hsame y (mem_cons_of_mem x hy)

theorem ne_zero (hx : x ∈ l) : x ≠ 0 := by
  induction l generalizing p with
  | nil => cases hx
  | cons y ys ih =>
    rcases mem_cons.mp hx with rfl | hx
    · exact h.2.1
    · exact ih h.2.2 hx

theorem head_mem (hp : p ≠ 0) : p ∈ l := by
  cases l with
  | nil => exact absurd h hp
  | cons y ys =>
    rw [h.1]
    exact mem_cons_self

theorem next_mem (hx : x ∈ l) (h0 : next x ≠ 0) : next x ∈ l := by
  induction l generalizing p with
  | nil => cases hx
  | cons y ys ih =>
    rcases mem_cons.mp hx with rfl | hx
    · exact mem_cons_of_mem x (h.2.2.head_mem h0)
    · exact mem_cons_of_mem y (ih h.2.2 hx)

theorem next_ne (hnd : l.Nodup) (hx : x ∈ l) : next x ≠ x := by
  induction l generalizing p with
  | nil => cases hx
  | cons y ys ih =>
    obtain ⟨hy, hnd'⟩ := nodup_cons.mp hnd
    rcases mem_cons.mp hx with rfl | hx
    · intro hself
      have hmem := h.2.2.head_mem (by rw [hself]; exact h.2.1)
      rw [hself] at hmem
      exact hy hmem
    · exact ih h.2.2 hnd' hx

theorem erase_head (hnd : l.Nodup) (hp : p ≠ 0) (hsame : ∀ y ∈ l, y ≠ p → next' y = next y) :
    Chain next' (next p) (l.erase p) := by
  cases l with
  | nil => exact absurd h hp
  | cons y ys =>
    obtain ⟨rfl, -, hrest⟩ := h
    rw [erase_cons_head]
    exact hrest.congr fun z hz =>
      hsame z (mem_cons_of_mem p hz) fun hzp => (nodup_cons.mp hnd).1 (hzp ▸ hz)

/-- The node behind `x` is taken out. -/
theorem erase_next (hnd : l.Nodup) (hx : x ∈ l) (h0 : next x ≠ 0)
    (hnext : next' x = next (next x)) (hsame : ∀ y ∈ l, y ≠ x → y ≠ next x → next' y = next y) :
    Chain next' p (l.erase (next x)) := by
  induction l generalizing p with
  | nil => cases hx
  | cons y ys ih =>
    obtain ⟨rfl, hp0, hrest⟩ := h
    obtain ⟨hy, hnd'⟩ := nodup_cons.mp hnd
    by_cases hpx : p = x
    · subst hpx
      have hne : p ≠ next p := fun hp => hy (hp ▸ hrest.head_mem h0)
      rw [erase_cons_tail (by simpa using hne)]
      refine ⟨rfl, hp0, ?_⟩
      rw [hnext]
      exact hrest.erase_head hnd' h0 fun z hz hzn =>
        hsame z (mem_cons_of_mem p hz) (fun hzp => hy (hzp ▸ hz)) hzn
    have hxs : x ∈ ys := (mem_cons.mp hx).resolve_left (Ne.symm hpx)
    have hne : p ≠ next x := fun hp => hy (hp ▸ hrest.next_mem hxs h0)
    rw [erase_cons_tail (by simpa using hne)]
    refine ⟨rfl, hp0, ?_⟩
    rw [hsame p mem_cons_self hpx hne]
    exact ih hrest hnd' hxs fun z hz => hsame z (mem_cons_of_mem p hz)

end Chain

/-- As a chain, and every node also points back at the one before it; `before` stands before
the first. -/
def Doubly (next prev : ℕ → ℕ) : ℕ → ℕ → List ℕ → Prop
  | _, p, [] => p = 0
  | before, p, x :: xs => p = x ∧ x ≠ 0 ∧ prev x = before ∧ Doubly next prev x (next x) xs

namespace Doubly

variable {prev prev' : ℕ → ℕ} {before : ℕ}

section

variable (h : Doubly next prev before p l)
include h

theorem congr (hnext : ∀ y ∈ l, next' y = next y)
    (hprev : ∀ y ∈ l, prev' y = prev y) : Doubly next' prev' before p l := by
  induction l generalizing before p with
  | nil => exact h
  | cons x xs ih =>
    obtain ⟨hp, h0, hback, hrest⟩ := h
    refine ⟨hp, h0, (hprev x mem_cons_self).trans hback, ?_⟩
    rw [hnext x mem_cons_self]
    exact ih hrest (fun y hy => hnext y (mem_cons_of_mem x hy))
      fun y hy => hprev y (mem_cons_of_mem x hy)

theorem chain : Chain next p l := by
  induction l generalizing before p with
  | nil => exact h
  | cons x xs ih => exact ⟨h.1, h.2.1, ih h.2.2.2⟩

theorem prev_mem (hx : x ∈ l) : p = x ∧ prev x = before ∨ prev x ∈ l := by
  induction l generalizing before p with
  | nil => cases hx
  | cons y ys ih =>
    obtain ⟨hp, -, hback, hrest⟩ := h
    rcases mem_cons.mp hx with rfl | hx
    · exact .inl ⟨hp, hback⟩
    rcases ih hrest hx with ⟨-, hprev⟩ | hprev
    · rw [hprev]
      exact .inr mem_cons_self
    · exact .inr (mem_cons_of_mem y hprev)

end

theorem push (h : Doubly next prev 0 p l) (hnd : l.Nodup) (h0 : x ≠ 0) (hx : x ∉ l)
    (hnext : ∀ y, next' y = if y = x then p else next y)
    (hprev : ∀ y, prev' y = if y = x then 0 else if y = p ∧ p ≠ 0 then x else prev y) :
    Doubly next' prev' 0 x (x :: l) := by
  refine ⟨rfl, h0, by rw [hprev, if_pos rfl], ?_⟩
  rw [hnext, if_pos rfl]
  cases l with
  | nil => exact h
  | cons y ys =>
    obtain ⟨rfl, hp0, -, hrest⟩ := h
    obtain ⟨hy, -⟩ := nodup_cons.mp hnd
    have hne : ∀ z ∈ p :: ys, z ≠ x := fun z hz hzx => hx (hzx ▸ hz)
    refine ⟨rfl, hp0, ?_, ?_⟩
    · rw [hprev, if_neg (hne p mem_cons_self), if_pos ⟨rfl, hp0⟩]
    rw [hnext, if_neg (hne p mem_cons_self)]
    refine hrest.congr (fun z hz => ?_) fun z hz => ?_
    · rw [hnext, if_neg (hne z (mem_cons_of_mem p hz))]
    rw [hprev, if_neg (hne z (mem_cons_of_mem p hz)), if_neg]
    rintro ⟨rfl, -⟩
    exact hy hz

theorem remove_from (h : Doubly next prev before p l) (hnd : l.Nodup) (hb : before ∉ l) (hx : x ∈ l)
    (hnext : ∀ y ∈ l, y ≠ x → next' y = if y = prev x then next x else next y)
    (hprev : ∀ y ∈ l, y ≠ x → prev' y = if y = next x then prev x else prev y) :
    Doubly next' prev' before (if p = x then next x else p) (l.erase x) := by
  induction l generalizing before p with
  | nil => cases hx
  | cons y ys ih =>
    obtain ⟨rfl, h0, hback, hrest⟩ := h
    obtain ⟨hy, hnd'⟩ := nodup_cons.mp hnd
    by_cases hyx : p = x
    · subst hyx
      rw [if_pos rfl, erase_cons_head]
      cases ys with
      | nil => exact hrest
      | cons z zs =>
        obtain ⟨hz, hz0, hzback, hzrest⟩ := hrest
        obtain ⟨hzn, -⟩ := nodup_cons.mp hnd'
        have hne : ∀ w ∈ z :: zs, w ≠ p := fun w hw hwp => hy (hwp ▸ hw)
        have hnb : ∀ w ∈ z :: zs, w ≠ prev p := fun w hw hwb =>
          hb (hback ▸ hwb ▸ mem_cons_of_mem p hw)
        refine ⟨hz, hz0, ?_, ?_⟩
        · rw [hprev z (by simp) (hne z (by simp)), if_pos hz.symm, hback]
        rw [hnext z (by simp) (hne z (by simp)), if_neg (hnb z (by simp))]
        refine hzrest.congr (fun w hw => ?_) fun w hw => ?_
        · have hw' := mem_cons_of_mem z hw
          rw [hnext w (mem_cons_of_mem p hw') (hne w hw'), if_neg (hnb w hw')]
        have hw' := mem_cons_of_mem z hw
        rw [hprev w (mem_cons_of_mem p hw') (hne w hw'), if_neg]
        rintro rfl
        exact hzn (hz ▸ hw)
    · have hxs : x ∈ ys := (mem_cons.mp hx).resolve_left (Ne.symm hyx)
      have hnx : p ≠ next x := by
        intro hpx
        have hxm := hrest.chain.next_mem hxs (hpx ▸ h0)
        exact hy (hpx ▸ hxm)
      rw [if_neg hyx, erase_cons_tail (by simpa using hyx)]
      refine ⟨rfl, h0, ?_, ?_⟩
      · rw [hprev p mem_cons_self hyx, if_neg hnx, hback]
      have hstep := ih hrest hnd' hy hxs
        (fun z hz => hnext z (mem_cons_of_mem p hz))
        fun z hz => hprev z (mem_cons_of_mem p hz)
      -- the node before `x` is the one whose successor `x` is
      have heq : p = prev x ↔ next p = x := by
        constructor
        · intro hpx
          rcases hrest.prev_mem hxs with ⟨hfirst, -⟩ | hmem
          · exact hfirst
          · exact absurd (hpx ▸ hmem) hy
        intro hpx
        cases ys with
        | nil => cases hxs
        | cons z zs =>
          obtain ⟨hz, -, hzback, -⟩ := hrest
          rw [← hpx, hz, hzback]
      rwa [hnext p mem_cons_self hyx, if_congr heq rfl rfl]

theorem remove (h : Doubly next prev 0 p l) (hnd : l.Nodup) (hx : x ∈ l)
    (hnext : ∀ y ∈ l, y ≠ x → next' y = if y = prev x then next x else next y)
    (hprev : ∀ y ∈ l, y ≠ x → prev' y = if y = next x then prev x else prev y) :
    Doubly next' prev' 0 (if prev x = 0 then next x else p) (l.erase x) := by
  have hb : 0 ∉ l := fun h0 => h.chain.ne_zero h0 rfl
  have hfirst : prev x = 0 ↔ p = x := by
    constructor
    · intro hx0
      rcases h.prev_mem hx with ⟨hp, -⟩ | hmem
      · exact hp
      · exact absurd (hx0 ▸ hmem) hb
    rintro rfl
    cases l with
    | nil => cases hx
    | cons y ys =>
      obtain ⟨rfl, -, hback, -⟩ := h
      exact hback
  rw [if_congr hfirst rfl rfl]
  exact h.remove_from hnd hb hx hnext hprev

end Doubly

end Vextro.Links
