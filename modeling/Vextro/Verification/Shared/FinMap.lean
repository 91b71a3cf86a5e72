import Mathlib.Algebra.GroupWithZero.Nat
import Mathlib.Data.List.Pairwise
import Mathlib.Algebra.BigOperators.Group.List.Basic

/-! Finite maps on `ℕ` in ascending key order, with a weighted count of their values. -/

namespace Vextro

open List

/-- Put `value` under `key`, keeping the keys ascending. -/
def insertKey {β : Type*} (key : ℕ) (value : β) : List (ℕ × β) → List (ℕ × β)
  | [] => [(key, value)]
  | (k, v) :: rest =>
    if key < k then (key, value) :: (k, v) :: rest
    else if key = k then (key, value) :: rest
    else (k, v) :: insertKey key value rest

theorem mem_insertKey {β : Type*} {key : ℕ} {value : β} {xs : List (ℕ × β)} {x : ℕ × β}
    (h : x ∈ insertKey key value xs) : x = (key, value) ∨ x ∈ xs := by
  induction xs with
  | nil => simpa [insertKey] using h
  | cons y rest ih =>
    simp only [insertKey] at h
    split at h
    · simpa using h
    split at h
    · rcases mem_cons.mp h with h | h
      · exact Or.inl h
      · exact Or.inr (by simp [h])
    rcases mem_cons.mp h with h | h
    · exact Or.inr (by simp [h])
    rcases ih h with h | h
    · exact Or.inl h
    · exact Or.inr (by simp [h])

theorem insertKey_sorted
    {β : Type*} (key : ℕ) (value : β) (xs : List (ℕ × β)) (h : xs.Pairwise fun x y => x.1 < y.1) :
    (insertKey key value xs).Pairwise fun x y => x.1 < y.1 := by
  induction xs with
  | nil => simp [insertKey]
  | cons y rest ih =>
    obtain ⟨k, v⟩ := y
    obtain ⟨hk, hr⟩ := pairwise_cons.mp h
    simp only [insertKey]
    split
    · rename_i hlt
      refine pairwise_cons.mpr ⟨?_, h⟩
      intro x hx
      rcases mem_cons.mp hx with rfl | hx
      · exact hlt
      · exact Nat.lt_trans hlt (hk x hx)
    split
    · rename_i heq
      exact pairwise_cons.mpr ⟨fun x hx => heq ▸ hk x hx, hr⟩
    refine pairwise_cons.mpr ⟨?_, ih hr⟩
    intro x hx
    rcases mem_insertKey hx with rfl | hx
    · omega
    · exact hk x hx

/-- A finite map: the bindings ascend strictly, so every key is bound at most once. -/
structure FinMap (β : Type*) where
  entries : List (ℕ × β)
  sorted : entries.Pairwise fun x y => x.1 < y.1

namespace FinMap

variable {β : Type*}

def empty : FinMap β := ⟨[], List.Pairwise.nil⟩

/-- The value bound to `key`; an unbound key reads as `default`. -/
def get [Inhabited β] (m : FinMap β) (key : ℕ) : β := (m.entries.lookup key).getD default

def set (m : FinMap β) (key : ℕ) (value : β) : FinMap β :=
  ⟨insertKey key value m.entries, insertKey_sorted key value m.entries m.sorted⟩

def keys (m : FinMap β) : List ℕ := m.entries.map Prod.fst

/-- The sum of a weight over all bound values. -/
def total (f : β → ℕ) (m : FinMap β) : ℕ := (m.entries.map fun x => f x.2).sum

@[simp] theorem get_empty [Inhabited β] (key : ℕ) : (empty : FinMap β).get key = default := rfl

@[simp] theorem total_empty (f : β → ℕ) : total f (empty : FinMap β) = 0 := rfl

private theorem lookup_insertKey (key key' : ℕ) (value : β) (xs : List (ℕ × β))
    (h : xs.Pairwise fun x y => x.1 < y.1) : (insertKey key value xs).lookup key' =
      if key' = key then some value else xs.lookup key' := by
  induction xs with
  | nil =>
    simp only [insertKey, lookup_nil]
    by_cases hk : key' = key
    · simp [hk]
    · simp [hk]
  | cons y rest ih =>
    obtain ⟨k, v⟩ := y
    obtain ⟨_, hr⟩ := pairwise_cons.mp h
    by_cases hk' : key' = key
    · subst hk'
      simp only [insertKey]
      split
      · simp
      split
      · simp
      · rename_i hne
        simp [lookup_cons, beq_eq_false_iff_ne.mpr hne, ih hr]
    simp only [insertKey, hk']
    split
    · simp [lookup_cons, beq_eq_false_iff_ne.mpr hk']
    split
    · rename_i heq
      subst heq
      simp [lookup_cons, beq_eq_false_iff_ne.mpr hk']
    · simp only [lookup_cons, ih hr, hk', if_false]

theorem get_set [Inhabited β] (m : FinMap β) (key key' : ℕ) (value : β) :
    (m.set key value).get key' = if key' = key then value else m.get key' := by
  unfold get set
  rw [lookup_insertKey key key' value m.entries m.sorted]
  split <;> simp

@[simp] theorem get_set_self [Inhabited β] (m : FinMap β) (key : ℕ) (value : β) :
    (m.set key value).get key = value := by
  simp [get_set]

theorem get_set_ne [Inhabited β] (m : FinMap β) {key key' : ℕ} (value : β) (h : key' ≠ key) :
    (m.set key value).get key' = m.get key' := by
  simp [get_set, h]

private theorem lookup_of_lt {key : ℕ} {xs : List (ℕ × β)} (h : ∀ x ∈ xs, key < x.1) :
    xs.lookup key = none := by
  induction xs with
  | nil => rfl
  | cons y rest ih =>
    obtain ⟨k, v⟩ := y
    have hk : key < k := h (k, v) (by simp)
    have hne : (key == k) = false := beq_eq_false_iff_ne.mpr (by omega)
    simp only [lookup_cons, hne]
    exact ih fun x hx => h x (by simp [hx])

/-- Binding a key moves the total by the two weights. -/
theorem total_set [Inhabited β] (f : β → ℕ) (hf : f default = 0) (m : FinMap β) (key : ℕ)
    (value : β) :
    total f (m.set key value) + f (m.get key) = total f m + f value := by
  obtain ⟨xs, hs⟩ := m
  unfold total get set
  simp only
  induction xs with
  | nil => simp [insertKey, hf]
  | cons y rest ih =>
    obtain ⟨k, v⟩ := y
    obtain ⟨hk, hr⟩ := pairwise_cons.mp hs
    simp only [insertKey]
    split
    · rename_i hlt
      have hnone : ((k, v) :: rest).lookup key = none := by
        apply lookup_of_lt
        intro x hx
        rcases mem_cons.mp hx with rfl | hx
        · exact hlt
        · exact Nat.lt_trans hlt (hk x hx)
      simp [hnone, hf]
      omega
    · split
      · rename_i heq
        subst heq
        simp
        omega
      rename_i hne
      have := ih hr
      simp only [map_cons, sum_cons, lookup_cons, beq_eq_false_iff_ne.mpr hne]
      omega

theorem le_total [Inhabited β] (f : β → ℕ) (hf : f default = 0) (m : FinMap β) (key : ℕ) :
    f (m.get key) ≤ total f m := by
  have h := total_set f hf m key default
  omega

/-- Distinct keys never count more than the total. -/
theorem sum_le_total [Inhabited β] (f : β → ℕ) (hf : f default = 0) (m : FinMap β)
    {keys : List ℕ} (hnd : keys.Nodup) : (keys.map fun key => f (m.get key)).sum ≤ total f m := by
  induction keys generalizing m with
  | nil => exact Nat.zero_le _
  | cons key keys ih =>
    obtain ⟨hkey, hnd'⟩ := nodup_cons.mp hnd
    have h := total_set f hf m key default
    have hrest := ih (m.set key default) hnd'
    have hsame : (keys.map fun k => f ((m.set key default).get k)) = keys.map
        fun k => f (m.get k) := map_congr_left fun k hk => by
        rw [get_set_ne m default fun heq : k = key => hkey (heq ▸ hk)]
    rw [hsame] at hrest
    rw [map_cons, sum_cons]
    omega

theorem mem_keys_of_get_ne [Inhabited β] {m : FinMap β} {key : ℕ} (h : m.get key ≠ default) :
    key ∈ m.keys := by
  unfold get at h
  cases hl : m.entries.lookup key with
  | none => simp [hl] at h
  | some value =>
    have : (key, value) ∈ m.entries := by
      generalize m.entries = xs at hl
      induction xs with
      | nil => simp at hl
      | cons y rest ih =>
        obtain ⟨k, v⟩ := y
        by_cases hy : key = k
        · subst hy
          simp only [lookup_cons, beq_self_eq_true, Option.some.injEq] at hl
          simp [hl]
        · simp only [lookup_cons, beq_eq_false_iff_ne.mpr hy] at hl
          exact mem_cons_of_mem _ (ih hl)
    exact mem_map.mpr ⟨_, this, rfl⟩

private theorem lookup_of_mem {xs : List (ℕ × β)} (hs : xs.Pairwise fun x y => x.1 < y.1)
    {x : ℕ × β} (hx : x ∈ xs) : xs.lookup x.1 = some x.2 := by
  induction xs with
  | nil => simp at hx
  | cons y rest ih =>
    obtain ⟨k, v⟩ := y
    obtain ⟨hk, hr⟩ := pairwise_cons.mp hs
    rcases mem_cons.mp hx with rfl | hx
    · simp
    have hne : (x.1 == k) = false := beq_eq_false_iff_ne.mpr (Nat.ne_of_gt (hk x hx))
    simp only [lookup_cons, hne]
    exact ih hr hx

theorem get_of_mem [Inhabited β] {m : FinMap β} {x : ℕ × β} (h : x ∈ m.entries) :
    m.get x.1 = x.2 := by
  unfold get
  rw [lookup_of_mem m.sorted h]
  rfl

theorem total_eq_zero [Inhabited β] {f : β → ℕ} {m : FinMap β} (h : ∀ key, f (m.get key) = 0) :
    total f m = 0 := by
  apply sum_eq_zero
  intro n hn
  obtain ⟨x, hx, rfl⟩ := mem_map.mp hn
  rw [← get_of_mem hx]
  exact h x.1

theorem exists_of_total_ne_zero [Inhabited β] {f : β → ℕ} {m : FinMap β} (h : total f m ≠ 0) :
    ∃ key, f (m.get key) ≠ 0 := by
  by_contra hall
  exact h (total_eq_zero fun key => not_not.mp fun hne => hall ⟨key, hne⟩)

private theorem insertKey_insertKey (key : ℕ) (value value' : β) (xs : List (ℕ × β)) :
    insertKey key value' (insertKey key value xs) = insertKey key value' xs := by
  induction xs with
  | nil => simp [insertKey]
  | cons y rest ih =>
    simp only [insertKey]
    split
    · simp [insertKey]
    split
    · simp [insertKey]
    · next hlt hne => simp [insertKey, hlt, hne, ih]

theorem set_set (m : FinMap β) (key : ℕ) (value value' : β) :
    (m.set key value).set key value' = m.set key value' := by
  unfold set
  simp only [insertKey_insertKey]

theorem keys_nodup (m : FinMap β) : m.keys.Nodup := by
  unfold keys
  rw [nodup_iff_pairwise_ne, pairwise_map]
  exact m.sorted.imp fun h => Nat.ne_of_lt h

end FinMap

end Vextro
