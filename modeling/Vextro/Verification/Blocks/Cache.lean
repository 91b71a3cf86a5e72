import Vextro.Model.BlockLayer

/-! What the cache hands out is what was read into it: a read gives right values if the lines and
the disk do. -/

namespace Vextro.Blocks

open Slices List Option

variable {α : Type*} {d : Disk α} {f : Front α} {lba count : ℕ}

theorem sum64_of_lt {a b : ℕ} (h : a + b < 2 ^ 64) : sum64 a b = a + b := Nat.mod_eq_of_lt h

/-! ## The disk -/

theorem readRaw_eq_some {xs : List α} (h : d.readRaw lba count = some xs) :
    d.sound lba count ∧ xs = slice d.data lba count := by
  rw [Disk.readRaw] at h
  split at h
  · rename_i hsound
    exact ⟨hsound, (some.inj h).symm⟩
  · cases h

theorem sound_iff :
    d.sound lba count ↔ lba + count ≤ d.sectors ∧ ∀ k < count, d.bad (lba + k) = false := by
  simp [Disk.sound]

theorem readRaw_getElem? {xs : List α} (h : d.readRaw lba count = some xs) {k : ℕ} {v : α}
    (hv : xs[k]? = some v) : k < count ∧ d.data (lba + k) = v := by
  rw [(readRaw_eq_some h).2] at hv
  exact getElem?_slice_eq_some.mp hv

theorem readRaw_length {xs : List α} (h : d.readRaw lba count = some xs) : xs.length = count := by
  rw [(readRaw_eq_some h).2, length_slice]

theorem readRaw_lt {xs : List α} (h : d.readRaw lba count = some xs) : lba + count < 2 ^ 64 :=
  (sound_iff.mp (readRaw_eq_some h).1).1.trans_lt d.fits

/-! ## Right values -/

variable (K : ℕ → α → Prop)

/-- The values are right for the sectors from `lba` on. -/
def Right (lba : ℕ) (xs : List α) : Prop := ∀ k v, xs[k]? = some v → K (lba + k) v

/-- The line is empty, or has right values for its sectors. -/
def Line.right (l : Line α) : Prop := ∀ base, l.base = some base →
  l.data.length = l.count ∧ base + l.count < 2 ^ 64 ∧ Right K base l.data

def Front.right (f : Front α) : Prop := ∀ lines, f.cache = some lines → ∀ l ∈ lines, l.right K

variable {K}

theorem Right.append {xs ys : List α} (hxs : Right K lba xs) (hys : Right K (lba + xs.length) ys) :
    Right K lba (xs ++ ys) := by
  intro k v hv
  rw [getElem?_append] at hv
  split at hv
  · exact hxs k v hv
  have hplace : lba + xs.length + (k - xs.length) = lba + k := by omega
  exact hplace ▸ hys (k - xs.length) v hv

theorem Right.take {xs : List α} (h : Right K lba xs) (n : ℕ) : Right K lba (xs.take n) := by
  intro k v hv
  rw [getElem?_take] at hv
  split at hv
  · exact h k v hv
  · cases hv

/-- A request that does not wrap around is served from the sectors of the line. -/
theorem Line.right.copied {l : Line α} (h : l.right K) (hfits : lba + count < 2 ^ 64)
    (hholds : l.holds lba count) (beyond : ℕ → α) : Right K lba (l.copied beyond lba count) := by
  rw [Line.holds, Option.any_eq_true] at hholds
  obtain ⟨base, hbase, hrange⟩ := hholds
  obtain ⟨hlen, hend, hright⟩ := h base hbase
  simp only [Bool.and_eq_true, decide_eq_true_eq, sum64_of_lt hfits, sum64_of_lt hend] at hrange
  intro k v hv
  rw [Line.copied, hbase, getD_some] at hv
  obtain ⟨hk, rfl⟩ := getElem?_slice_eq_some.mp hv
  have hin : lba - base + k < l.data.length := by omega
  have hplace : base + (lba - base + k) = lba + k := by omega
  rw [List.getD_eq_getElem?_getD, getElem?_eq_getElem hin, getD_some]
  exact hplace ▸ hright _ _ (getElem?_eq_getElem hin)

theorem mem_modify {β : Type*} {xs : List β} {i : ℕ} {g : β → β} {y : β} (h : y ∈ xs.modify i g) :
    y ∈ xs ∨ ∃ x ∈ xs, y = g x := by
  obtain ⟨k, hk⟩ := mem_iff_getElem?.mp h
  rw [getElem?_modify] at hk
  obtain ⟨x, hx, hy⟩ := map_eq_some_iff.mp hk
  split at hy
  · exact .inr ⟨x, mem_of_getElem? hx, hy.symm⟩
  · exact .inl (hy ▸ mem_of_getElem? hx)

theorem Line.right_empty (l : Line α) : l.empty.right K := by
  intro base hbase
  cases hbase

/-! ## Retiring -/

/-- Retiring a sector fails, unless the sector can be read; the cache stays as it is. -/
theorem blkRetireSector_cases (d : Disk α) (f : Front α) (lba : ℕ) :
    blkRetireSector d f lba = (f, true) ∧ (d.readRaw lba 1).isSome ∨
      (blkRetireSector d f lba).2 = false ∧ (blkRetireSector d f lba).1.cache = f.cache := by
  rw [blkRetireSector]
  split
  · rename_i hread
    exact .inl ⟨rfl, hread⟩
  split
  · exact .inr ⟨rfl, rfl⟩
  split
  · exact .inr ⟨rfl, rfl⟩
  · exact .inr ⟨rfl, rfl⟩

/-! ## Reading -/

/-- One sector at a time: the values are those of the places where the sectors are. -/
theorem readEach_right {done : List α} (hfits : lba + done.length + count < 2 ^ 64)
    (hdone : Right K lba done)
    (heach : ∀ k v, k < done.length + count → d.readRaw (blkRemapLookup f (lba + k)) 1 = some [v] →
      K (lba + k) v) :
    (readEach d lba count f done).1.cache = f.cache ∧
      ∀ xs, (readEach d lba count f done).2 = some xs →
        xs.length = done.length + count ∧ Right K lba xs := by
  induction count generalizing done with
  | zero =>
    refine ⟨rfl, fun xs hxs => ?_⟩
    cases hxs
    exact ⟨rfl, hdone⟩
  | succ count ih =>
    -- a sector that can be read is added to the rest
    have hnext : ∀ x, d.readRaw (blkRemapLookup f (lba + done.length)) 1 = some x →
        (readEach d lba count f (done ++ x)).1.cache = f.cache ∧
          ∀ xs, (readEach d lba count f (done ++ x)).2 = some xs →
            xs.length = done.length + (count + 1) ∧ Right K lba xs := by
      intro x hx
      obtain ⟨v, rfl⟩ := length_eq_one_iff.mp (readRaw_length hx)
      have hv : Right K lba (done ++ [v]) := by
        refine hdone.append fun k w hw => ?_
        cases k with
        | zero =>
          cases hw
          exact heach done.length v (by omega) hx
        | succ k => cases hw
      have hlen : (done ++ [v]).length + count = done.length + (count + 1) := by
        simp only [length_append, length_singleton]
        omega
      have h := ih (by omega) hv fun k w hk hw => heach k w (by omega) hw
      rwa [hlen] at h
    rw [readEach, sum64_of_lt (by omega)]
    cases hx : d.readRaw (blkRemapLookup f (lba + done.length)) 1 with
    | some x => exact hnext x hx
    | none =>
      rcases blkRetireSector_cases d f (blkRemapLookup f (lba + done.length)) with
        ⟨-, hread⟩ | ⟨hfail, hcache⟩
      · simp [hx] at hread
      · simp only [hfail]
        exact ⟨hcache, fun xs hxs => by cases hxs⟩

theorem readDirect_right (hplace : blkRemapLookup f lba = lba)
    (hraw : ∀ n xs, d.readRaw lba n = some xs → Right K lba xs) (count : ℕ) :
    (readDirect d f lba count).1.cache = f.cache ∧
      ∀ xs, (readDirect d f lba count).2 = some xs → xs.length = count ∧ Right K lba xs := by
  rw [readDirect, hplace]
  cases hx : d.readRaw lba count with
  | some x =>
    refine ⟨rfl, fun xs hxs => ?_⟩
    cases hxs
    exact ⟨readRaw_length hx, hraw _ _ hx⟩
  | none =>
    simp only
    split
    · exact ⟨rfl, fun xs hxs => by cases hxs⟩
    rename_i hone
    rw [not_not.mp hone] at hx
    rcases blkRetireSector_cases d f lba with ⟨-, hread⟩ | ⟨hfail, hcache⟩
    · simp [hx] at hread
    · simp only [hfail]
      exact ⟨hcache, fun xs hxs => by cases hxs⟩

theorem readMiss_right {lines : List (Line α)} (hfits : lba + count < 2 ^ 64)
    (hlines : ∀ l ∈ lines, l.right K) (hplace : blkRemapLookup f lba = lba)
    (hraw : ∀ n xs, d.readRaw lba n = some xs → Right K lba xs)
    (heach : ∀ k v, k < count → d.readRaw (blkRemapLookup f (lba + k)) 1 = some [v] →
      K (lba + k) v) :
    (readMiss d f lines lba count).1.right K ∧
      ∀ xs, (readMiss d f lines lba count).2 = some xs → xs.length = count ∧ Right K lba xs := by
  rw [readMiss, hplace]
  split
  · generalize hf' : ({ f with
        cache := some
          (lines.modify (victimFrom 0 0 (2 ^ 64 - 1) lines) Line.empty) } : Front α) = f'
    have hremap : ∀ k, blkRemapLookup f' k = blkRemapLookup f k := by
      rw [← hf']
      exact fun k => rfl
    have hnil : Right K lba [] := fun k v hv => by cases hv
    have h := readEach_right hfits hnil fun k v hk hv =>
      heach k v (by simpa using hk) (hremap _ ▸ hv)
    refine ⟨fun lines' hlines' l hl => ?_, fun xs hxs => ?_⟩
    · rw [h.1, ← hf'] at hlines'
      cases hlines'
      rcases mem_modify hl with hmem | ⟨l', -, rfl⟩
      · exact hlines l hmem
      · exact l'.right_empty
    · simpa using h.2 xs hxs
  · rename_i x hx
    refine ⟨fun lines' hlines' l hl => ?_, fun xs hxs => ?_⟩
    · cases hlines'
      rcases mem_modify hl with hmem | ⟨-, -, rfl⟩
      · exact hlines l hmem
      intro base hbase
      cases hbase
      exact ⟨readRaw_length hx, readRaw_lt hx, hraw _ _ hx⟩
    · cases hxs
      refine ⟨?_, (hraw _ _ hx).take count⟩
      rw [length_take, readRaw_length hx]
      exact Nat.min_eq_left (le_max_right _ _)

theorem blkRead_right (hfits : lba + count < 2 ^ 64) (hf : f.right K)
    (hplace : blkRemapLookup f lba = lba)
    (hraw : ∀ n xs, d.readRaw lba n = some xs → Right K lba xs)
    (heach : ∀ k v, k < count → d.readRaw (blkRemapLookup f (lba + k)) 1 = some [v] →
      K (lba + k) v) :
    (blkRead d f lba count).1.right K ∧
      ∀ xs, (blkRead d f lba count).2 = some xs → xs.length = count ∧ Right K lba xs := by
  rw [blkRead]
  split
  · exact ⟨hf, fun xs hxs => by cases hxs⟩
  have hdirect : (readDirect d f lba count).1.right K := by
    intro lines hlines
    rw [(readDirect_right hplace hraw count).1] at hlines
    exact hf lines hlines
  cases hcache : f.cache with
  | none => exact ⟨hdirect, (readDirect_right hplace hraw count).2⟩
  | some lines =>
    simp only
    split
    · exact ⟨hdirect, (readDirect_right hplace hraw count).2⟩
    cases hfind : lines.findIdx? fun l => l.holds lba count with
    | none => exact readMiss_right hfits (hf lines hcache) hplace hraw heach
    | some i =>
      refine ⟨fun lines' hlines' l hl => ?_, fun xs hxs => ?_⟩
      · cases hlines'
        rcases mem_modify hl with hmem | ⟨l', hl', rfl⟩
        · exact hf lines hcache l hmem
        · exact hf lines hcache l' hl'
      obtain ⟨l, hl, rfl⟩ := map_eq_some_iff.mp hxs
      obtain ⟨hi, hholds, -⟩ := findIdx?_eq_some_iff_getElem.mp hfind
      have hget : lines[i] = l := by
        rw [getElem?_eq_getElem hi] at hl
        exact some.inj hl
      rw [hget] at hholds
      exact ⟨length_slice _ _ _, (hf lines hcache l (mem_of_getElem? hl)).copied hfits hholds _⟩

/-! ## Writing -/

/-- Once the lines that overlap a stretch are dropped, the others are right for whatever is right
outside of it. -/
theorem blkCacheDrop_right {K' : ℕ → α → Prop} (hfits : lba + count < 2 ^ 64) (hf : f.right K)
    (hout : ∀ k v, ¬(lba ≤ k ∧ k < lba + count) → K k v → K' k v) :
    (blkCacheDrop f lba count).right K' := by
  intro lines hlines l hl base hbase
  obtain ⟨lines₀, hlines₀, rfl⟩ := map_eq_some_iff.mp hlines
  obtain ⟨l₀, hl₀, rfl⟩ := mem_map.mp hl
  split at hbase
  · cases hbase
  rename_i hover
  rw [if_neg hover]
  obtain ⟨hlen, hend, hright⟩ := hf lines₀ hlines₀ l₀ hl₀ base hbase
  refine ⟨hlen, hend, fun k v hv => hout _ v ?_ (hright k v hv)⟩
  have hk : k < l₀.count := by
    rw [← hlen]
    exact (List.getElem?_eq_some_iff.mp hv).1
  simp only [Line.overlaps, hbase, any_some, Bool.not_eq_true', Bool.or_eq_false_iff,
    decide_eq_false_iff_not, sum64_of_lt hfits, sum64_of_lt hend] at hover
  omega

end Vextro.Blocks
