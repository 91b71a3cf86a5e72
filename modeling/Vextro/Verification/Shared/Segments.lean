import Mathlib.Data.List.TakeWhile

/-! The segments between the separators of a list; empty ones do not count. -/

namespace Vextro.Segments

open List

section

variable {α : Type*} {sep : α}

/-- Every segment after one separator. -/
def spell (sep : α) (comps : List (List α)) : List α := comps.flatMap (sep :: ·)

def Plain (sep : α) (comp : List α) : Prop := comp ≠ [] ∧ sep ∉ comp

/-- What may follow a segment. -/
def Follows (sep : α) (rest : List α) : Prop := ∀ c ∈ rest.head?, c = sep

theorem follows_nil : Follows sep [] := by simp [Follows]

theorem follows_sep (rest : List α) : Follows sep (sep :: rest) := by simp [Follows]

theorem follows_spell (comps : List (List α)) : Follows sep (spell sep comps) := by
  cases comps with
  | nil => exact follows_nil
  | cons comp comps => exact follows_sep _

end

variable {α β : Type*} [DecidableEq α] [DecidableEq β] {sep : α}

def segments (sep : α) (xs : List α) : List (List α) := (xs.splitOnP (· = sep)).filter (· ≠ [])

@[simp] theorem segments_nil : segments sep [] = [] := by simp [segments]

@[simp] theorem segments_sep (xs : List α) : segments sep (sep :: xs) = segments sep xs := by
  simp [segments, splitOnP_cons_eq_if_modifyHead]

theorem splitOnP_append_sep (xs ys : List α) :
    (xs ++ sep :: ys).splitOnP (· = sep) = xs.splitOnP (· = sep) ++ ys.splitOnP (· = sep) := by
  induction xs with
  | nil => simp [splitOnP_cons_eq_if_modifyHead]
  | cons x xs ih =>
    rw [cons_append, splitOnP_cons_eq_if_modifyHead, splitOnP_cons_eq_if_modifyHead, ih]
    split
    · rfl
    obtain ⟨w, ws, hw⟩ := exists_cons_of_ne_nil (splitOnP_ne_nil (· = sep) xs)
    rw [hw]
    rfl

theorem segments_append (front : List α) {back : List α} (h : Follows sep back) :
    segments sep (front ++ back) = segments sep front ++ segments sep back := by
  cases back with
  | nil => simp
  | cons c back =>
    obtain rfl : c = sep := h c rfl
    rw [segments_sep, segments, splitOnP_append_sep, filter_append]
    rfl

theorem segments_plain {comp : List α} (h : Plain sep comp) : segments sep comp = [comp] := by
  have hfree : ∀ c ∈ comp, decide (c = sep) = false := by
    intro c hc
    exact decide_eq_false fun heq => h.2 (heq ▸ hc)
  rw [segments, splitOnP_eq_singleton hfree]
  simp [h.1]

theorem segments_cons {comp rest : List α} (h : Plain sep comp) (hrest : Follows sep rest) :
    segments sep (comp ++ rest) = comp :: segments sep rest := by
  rw [segments_append comp hrest, segments_plain h, singleton_append]

@[simp] theorem segments_dropWhile (xs : List α) :
    segments sep (xs.dropWhile (· = sep)) = segments sep xs := by
  induction xs with
  | nil => rfl
  | cons x xs ih =>
    by_cases hx : x = sep
    · subst hx
      rw [dropWhile_cons_of_pos (by simp), ih, segments_sep]
    · rw [dropWhile_cons_of_neg (by simpa using hx)]

theorem follows_dropWhile (xs : List α) : Follows sep (xs.dropWhile (· ≠ sep)) := by
  induction xs with
  | nil => exact follows_nil
  | cons x xs ih =>
    by_cases hx : x = sep
    · subst hx
      rw [dropWhile_cons_of_neg (by simp)]
      exact follows_sep xs
    · rw [dropWhile_cons_of_pos (by simpa using hx)]
      exact ih

theorem sep_not_mem_takeWhile (xs : List α) : sep ∉ xs.takeWhile (· ≠ sep) := by
  intro hmem
  simpa using mem_takeWhile_imp hmem

theorem plain_of_mem {xs comp : List α} (h : comp ∈ segments sep xs) : Plain sep comp := by
  induction xs generalizing comp with
  | nil => simp at h
  | cons x xs ih =>
    by_cases hx : x = sep
    · subst hx
      exact ih (segments_sep xs ▸ h)
    -- the first segment, up to the next separator, and the rest
    have hsplit : x :: xs = (x :: xs.takeWhile (· ≠ sep)) ++ xs.dropWhile (· ≠ sep) := by
      rw [cons_append, takeWhile_append_dropWhile]
    have hplain : Plain sep (x :: xs.takeWhile (· ≠ sep)) :=
      by
      refine ⟨cons_ne_nil _ _, fun hmem => ?_⟩
      rcases mem_cons.mp hmem with heq | hmem
      · exact hx heq.symm
      · exact sep_not_mem_takeWhile xs hmem
    rw [hsplit, segments_cons hplain (follows_dropWhile xs)] at h
    rcases mem_cons.mp h with rfl | h
    · exact hplain
    refine ih ?_
    rw [← takeWhile_append_dropWhile (l := xs), segments_append _ (follows_dropWhile xs)]
    exact mem_append_right _ h

theorem segments_spell {comps : List (List α)} (h : ∀ comp ∈ comps, Plain sep comp) :
    segments sep (spell sep comps) = comps := by
  induction comps with
  | nil => rfl
  | cons comp comps ih =>
    have hrest := ih fun c hc => h c (mem_cons_of_mem _ hc)
    calc segments sep (spell sep (comp :: comps))
        = segments sep (sep :: (comp ++ spell sep comps)) := rfl
      _ = comp :: segments sep (spell sep comps) := by
          rw [segments_sep, segments_cons (h comp (by simp)) (follows_spell comps)]
      _ = comp :: comps := by rw [hrest]

/-- A map that keeps separators and nothing else apart keeps the segments. -/
theorem segments_map {tep : β} {f : α → β} (hf : ∀ c, f c = tep ↔ c = sep) (xs : List α) :
    segments tep (xs.map f) = (segments sep xs).map (List.map f) := by
  have hsplit : (xs.map f).splitOnP (· = tep) = (xs.splitOnP (· = sep)).map (List.map f) := by
    induction xs with
    | nil => rfl
    | cons x xs ih =>
      rw [map_cons, splitOnP_cons_eq_if_modifyHead, splitOnP_cons_eq_if_modifyHead, ih]
      simp only [hf]
      split
      · rfl
      obtain ⟨w, ws, hw⟩ := exists_cons_of_ne_nil (splitOnP_ne_nil (· = sep) xs)
      rw [hw]
      rfl
  rw [segments, hsplit, filter_map]
  congr 1
  refine filter_congr fun comp _ => ?_
  simp

end Vextro.Segments
