import Vextro.Model.FileLayer
import Vextro.Verification.Profiles.Spelling

/-! A path is split into the components before its last slash and the name after it. -/

namespace Vextro.FileLayer

open Profile Segments Ntfs List

variable {abs : List UInt8}

theorem split_eq (h : slash ∈ abs) : abs = dirOf abs ++ slash :: leafOf abs := by
  have hrest : abs.reverse.dropWhile (· ≠ slash) ≠ [] := by
    rw [ne_eq, dropWhile_eq_nil_iff]
    intro hall
    have := hall slash (by simpa using h)
    simp at this
  obtain ⟨c, rest, hcons⟩ := exists_cons_of_ne_nil hrest
  have hc : c = slash := by
    have hfollows : Follows slash (abs.reverse.dropWhile (· ≠ slash)) := follows_dropWhile _
    rw [hcons] at hfollows
    exact hfollows c rfl
  have hsplit := takeWhile_append_dropWhile (p := (· ≠ slash)) (l := abs.reverse)
  rw [hcons, hc] at hsplit
  calc abs = (abs.reverse.takeWhile (· ≠ slash) ++ slash ::
      rest).reverse := by rw [hsplit, reverse_reverse]
    _ = rest.reverse ++ slash :: (abs.reverse.takeWhile (· ≠ slash)).reverse := by simp
    _ = dirOf abs ++ slash :: leafOf abs := by rw [dirOf, leafOf, hcons, drop_one, tail_cons]

theorem slash_not_mem_leafOf (abs : List UInt8) : slash ∉ leafOf abs := by
  rw [leafOf, mem_reverse]
  exact sep_not_mem_takeWhile _

/-- A path that does not end with a slash has its last component after the last one. -/
theorem segments_split (h : slash ∈ abs) (hend : abs.getLast? ≠ some slash) :
    segments slash abs = segments slash (dirOf abs) ++ [leafOf abs] ∧ leafOf abs ≠ [] := by
  have hsplit := split_eq h
  have hne : leafOf abs ≠ [] := by
    intro hnil
    rw [hnil] at hsplit
    rw [hsplit] at hend
    exact hend (by simp)
  refine ⟨?_, hne⟩
  conv_lhs => rw [hsplit]
  rw [segments_append _ (follows_sep _), segments_sep,
    segments_plain ⟨hne, slash_not_mem_leafOf abs⟩]

theorem leafOf_slash (h : abs.getLast? = some slash) : leafOf abs = [] := by
  obtain ⟨front, rfl⟩ := List.getLast?_eq_some_iff.mp h
  simp [leafOf]

theorem ntfsSplit_slash {v : Mount} {img : Image} (h : abs.getLast? = some slash) :
    ntfsSplit v img abs = none := by
  rw [ntfsSplit]
  split
  · rfl
  · simp [leafOf_slash h]

/-- The name is what follows the last slash, and what comes before it leads to the directory. -/
theorem ntfsSplit_eq_some {v : Mount} {img : Image} (habs : Absolute abs) {dir : ℕ}
    {leaf : List UInt8} :
    ntfsSplit v img abs = some (dir, leaf) ↔
    v.mounted ∧ abs.getLast? ≠ some slash ∧ leaf = leafOf abs ∧
        ∃ f, lookupFrom v img (segments slash (dirOf abs)) lookupStart = some f ∧ f.isDir ∧
          f.record = dir := by
  have hmem : slash ∈ abs := mem_of_mem_head? habs.head
  have hlen := congrArg List.length (split_eq hmem)
  have hshort := habs.short
  simp only [length_append, length_cons, profilePathMax] at hlen hshort
  have htake : (leafOf abs).take (profilePathMax - 1) = leafOf abs :=
    take_of_length_le (by simp only [profilePathMax]; omega)
  have hlookup : ntfsLookup v img
      (if dirOf abs = [] then [slash] else (dirOf abs).take (profilePathMax - 1)) =
      if !v.mounted then none else lookupFrom v img (segments slash (dirOf abs)) lookupStart := by
    have hcomps : segments slash
        (if dirOf abs = [] then [slash] else (dirOf abs).take (profilePathMax - 1)) =
        segments slash (dirOf abs) := by
      split
      · rename_i hnil
        rw [hnil]
        rfl
      · rw [take_of_length_le (by simp only [profilePathMax]; omega)]
    rw [ntfsLookup, pathComponents_absolute, hcomps]
    · rfl
    split
    · decide
    · exact lt_of_le_of_lt (length_take_le _ _) (by decide)
  rw [ntfsSplit, if_neg (not_not.mpr hmem)]
  simp only [htake, hlookup]
  by_cases hend : abs.getLast? = some slash
  · have hnil : leafOf abs = [] := leafOf_slash hend
    simp [hnil, hend]
  rw [if_neg (segments_split hmem hend).2]
  cases v.mounted with
  | false => simp
  | true =>
    cases hf : lookupFrom v img (segments slash (dirOf abs)) lookupStart with
    | none => simp
    | some f =>
      cases hdir : f.isDir with
      | false => simp [hdir]
      | true =>
        simp only [hdir, hend, Bool.not_true, Bool.false_eq_true, if_false, if_true,
          Option.some.injEq, Prod.mk.injEq, ne_eq, not_false_eq_true, true_and, exists_eq_left']
        rw [and_comm, eq_comm]

end Vextro.FileLayer
