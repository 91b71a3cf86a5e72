import Vextro.Verification.Blocks.Cache
import Vextro.Verification.Shared.Run

/-! Retired sectors and their spares: which requests do not notice the difference. -/

namespace Vextro.Blocks

open Run (Meets)
open Slices List Option

variable {k len lba count : ℕ}
variable {α : Type*}

/-! ## The record of a run -/

/-- One disk and the layer in front of it, with what a reader may expect. -/
structure Traced (α : Type*) where
  disk : Disk α
  front : Front α
  /-- What the last successful write put in a sector, unless a write has failed there since. -/
  mem : ℕ → Option α
  /-- Sectors that were retired since they were written. -/
  lost : ℕ → Bool

/-- Spares come from here on. -/
def Disk.limit (d : Disk α) : ℕ := if d.sectors < 4096 then d.sectors else d.sectors - 1024

def Front.retired (f : Front α) (k : ℕ) : Bool := f.remap.any fun r => r.1 = k

def inside (lba len k : ℕ) : Bool := lba ≤ k && k < lba + len

def Traced.step (t : Traced α) : Step α → Traced α
  | .select _ => t
  | .read lba count =>
    let front := (blkRead t.disk t.front lba count).1
    { t with front := front, lost := fun k => t.lost k || front.retired k && !t.front.retired k }
  | .write lba data torn =>
    let (disk, front, ok) := blkWrite t.disk t.front lba data torn
    { disk := disk
      front := front
      mem := if ok then patch t.mem lba (data.map some)
        else if t.disk.sectors < sum64 lba data.length then t.mem
        else fun k => if inside lba data.length k then none else t.mem k
      lost := fun k => t.lost k && !(ok && inside lba data.length k) }
  | .fail sectors => { t with disk := { t.disk with bad := fun k => t.disk.bad k || sectors k } }

/-- What is in the place of a sector. -/
def Traced.at (t : Traced α) (k : ℕ) : α := t.disk.data (blkRemapLookup t.front k)

/-- Requests and failures stay out of the spare sectors. A read starts at a sector that has not been
retired and covers none that is lost, and a write that starts at a retired sector covers no other.
-/
def Careful (t : Traced α) : Step α → Prop
  | .select _ => True
  | .read lba count =>
    lba + count ≤ t.disk.limit ∧ t.front.retired lba = false ∧ ∀ k < count, t.lost (lba + k) = false
  | .write lba data _ =>
    lba + data.length ≤ t.disk.limit ∧ (t.front.retired lba = true → data.length ≤ 1)
  | .fail sectors => ∀ k, t.disk.limit ≤ k → sectors k = false

/-! ## The table -/

/-- The sectors of the table fail, and their spares are taken in order. -/
structure Table (d : Disk α) (f : Front α) : Prop where
  entry : ∀ i r, f.remap[i]? = some r → r.2 = d.limit + i ∧ r.1 < d.limit ∧ d.bad r.1 = true
  short : f.remap.length ≤ blkRemapMax
  large : f.remap ≠ [] → 4096 ≤ d.sectors
  next : f.spareNext = if f.remap = [] then 0 else d.limit + f.remap.length
  healthy : ∀ k, d.limit ≤ k → d.bad k = false

variable {d : Disk α} {f : Front α}

theorem retired_iff : f.retired k ↔ ∃ r ∈ f.remap, r.1 = k := by simp [Front.retired]

theorem lookup_not_retired (h : f.retired k = false) : blkRemapLookup f k = k := by
  have hnone : (f.remap.find? fun r => r.1 = k) = none := by
    simpa [Front.retired] using h
  rw [blkRemapLookup, hnone]
  rfl

theorem lookup_retired (h : f.retired k) :
    ∃ (i : ℕ) (r : ℕ × ℕ), f.remap[i]? = some r ∧ r.1 = k ∧ blkRemapLookup f k = r.2 := by
  obtain ⟨r₀, hr₀, hk₀⟩ := retired_iff.mp h
  have hsome : (f.remap.find? fun r => r.1 = k).isSome := by
    rw [find?_isSome]
    exact ⟨r₀, hr₀, by simpa using hk₀⟩
  obtain ⟨r, hr⟩ := isSome_iff_exists.mp hsome
  obtain ⟨i, hi⟩ := mem_iff_getElem?.mp (mem_of_find?_eq_some hr)
  refine ⟨i, r, hi, by simpa using find?_some hr, ?_⟩
  rw [blkRemapLookup, hr]
  rfl

theorem Table.lookup (h : Table d f) (hk : f.retired k) :
    ∃ i < f.remap.length, blkRemapLookup f k = d.limit + i := by
  obtain ⟨i, r, hi, -, hlook⟩ := lookup_retired hk
  exact ⟨i, (List.getElem?_eq_some_iff.mp hi).1, hlook.trans (h.entry i r hi).1⟩

theorem Table.bad (h : Table d f) (hk : f.retired k) : d.bad k := by
  obtain ⟨i, r, hi, rfl, -⟩ := lookup_retired hk
  exact (h.entry i r hi).2.2

theorem Table.retired_of_good (h : Table d f) (hk : d.bad k = false) : f.retired k = false := by
  by_contra hret
  simp [h.bad (by simpa using hret)] at hk

theorem Disk.limit_le (d : Disk α) : d.limit ≤ d.sectors := by
  rw [Disk.limit]
  split <;> omega

theorem Table.lookup_ne (h : Table d f) {k' : ℕ} (hk : k < d.limit) (hk' : k' < d.limit)
    (hne : k ≠ k') :
    blkRemapLookup f k ≠ blkRemapLookup f k' := by
  cases hret : f.retired k with
  | false =>
    rw [lookup_not_retired hret]
    cases hret' : f.retired k' with
    | false => rwa [lookup_not_retired hret']
    | true =>
      obtain ⟨i, -, hlook⟩ := h.lookup hret'
      omega
  | true =>
    obtain ⟨i, r, hi, rfl, hlook⟩ := lookup_retired hret
    cases hret' : f.retired k' with
    | false =>
      rw [lookup_not_retired hret', hlook, (h.entry i r hi).1]
      omega
    | true =>
      obtain ⟨i', r', hi', rfl, hlook'⟩ := lookup_retired hret'
      rw [hlook, hlook', (h.entry i r hi).1, (h.entry i' r' hi').1]
      intro heq
      have hsame : i = i' := by omega
      subst hsame
      rw [hi] at hi'
      exact hne (congrArg Prod.fst (some.inj hi'))

theorem Table.sound_spare (h : Table d f) (hk : f.retired k) (hlen : len ≤ 1) :
    d.sound (blkRemapLookup f k) len := by
  obtain ⟨i, hi, hlook⟩ := h.lookup hk
  have hlarge : 4096 ≤ d.sectors := h.large fun hnil => by simp [hnil] at hi
  have hlimit : d.limit = d.sectors - 1024 := if_neg (by omega)
  have hshort := h.short
  rw [blkRemapMax] at hshort
  exact sound_iff.mpr ⟨by omega, fun j hj => h.healthy _ (by omega)⟩

/-! ## Retiring -/

/-- The table may have grown; what it had, and what it does not have, is where it was. -/
structure Extends (d : Disk α) (f f' : Front α) : Prop where
  table : Table d f'
  lookup : ∀ k, f.retired k = true ∨ f'.retired k = false → blkRemapLookup f' k = blkRemapLookup f k

theorem Table.congr {f' : Front α} (h : Table d f) (hremap : f'.remap = f.remap)
    (hnext : f'.spareNext = f.spareNext) : Table d f' := by
  refine ⟨?_, ?_, ?_, ?_, h.healthy⟩
  · rw [hremap]
    exact h.entry
  · rw [hremap]
    exact h.short
  · rw [hremap]
    exact h.large
  · rw [hnext, hremap]
    exact h.next

theorem Extends.of_eq {f' : Front α} (h : Table d f) (hremap : f'.remap = f.remap)
    (hnext : f'.spareNext = f.spareNext) : Extends d f f' :=
  ⟨h.congr hremap hnext, fun k _ => by rw [blkRemapLookup, blkRemapLookup, hremap]⟩

theorem lookup_append {f' : Front α} {s spare : ℕ} (hremap : f'.remap = f.remap ++ [(s, spare)])
    (h : f.retired k ∨ f'.retired k = false) : blkRemapLookup f' k = blkRemapLookup f k := by
  have hfind : (f'.remap.find? fun r => r.1 = k) = f.remap.find? fun r => r.1 = k := by
    rw [hremap, find?_append]
    rcases h with h | h
    · obtain ⟨r, hr, hk⟩ := retired_iff.mp h
      have hsome : (f.remap.find? fun r => r.1 = k).isSome := by
        rw [find?_isSome]
        exact ⟨r, hr, by simpa using hk⟩
      rw [or_of_isSome hsome]
    · have hne : s ≠ k := by
        rintro rfl
        rw [Front.retired, hremap] at h
        simp at h
      simp [hne]
  rw [blkRemapLookup, blkRemapLookup, hfind]

section

variable (h : Table d f)
include h

/-- A sector below the spares that fails is added to the table, if there is room. -/
theorem Table.retire {s : ℕ} (hs : s < d.limit) (hfail : d.readRaw s 1 = none) :
    Extends d f (blkRetireSector d f s).1 := by
  have hle := d.limit_le
  have hbad : d.bad s := by
    by_contra hgood
    have hsound : d.sound s 1 := by
      refine sound_iff.mpr ⟨by omega, fun k hk => ?_⟩
      obtain rfl : k = 0 := by omega
      simpa using hgood
    simp [Disk.readRaw, if_pos hsound] at hfail
  rw [blkRetireSector, hfail]
  simp only [isSome_none, Bool.false_eq_true, if_false]
  split
  · exact .of_eq h rfl rfl
  split
  · exact .of_eq h rfl rfl
  rename_i hsize
  -- the spare after the last one
  have hspare : (if f.spareNext = 0 then d.sectors - 1024 else f.spareNext) = d.limit +
      f.remap.length ∧ 4096 ≤ d.sectors := by
    have hnext := h.next
    by_cases hnil : f.remap = []
    · rw [if_pos hnil] at hnext
      have hlarge : ¬d.sectors < 4096 := fun hlt => hsize ⟨hnext, hlt⟩
      rw [if_pos hnext, hnil, Disk.limit, if_neg hlarge]
      exact ⟨by rw [length_nil, Nat.add_zero], by omega⟩
    have hlarge := h.large hnil
    rw [if_neg hnil] at hnext
    rw [if_neg (by omega)]
    exact ⟨hnext, hlarge⟩
  constructor
  · refine ⟨fun i r hi => ?_, ?_, fun _ => hspare.2, ?_, h.healthy⟩
    · rw [getElem?_append] at hi
      split at hi
      · exact h.entry i r hi
      rw [getElem?_singleton] at hi
      split at hi
      · cases hi
        refine ⟨?_, hs, hbad⟩
        omega
      · cases hi
    · rw [length_append, length_singleton]
      omega
    · simp only [append_eq_nil_iff, cons_ne_nil, and_false, if_false, length_append,
        length_singleton]
      omega
  · exact fun k hk => lookup_append rfl hk

/-- A sector of a request that cannot be read where it is has not been retired. -/
theorem Table.retire_at (hk : k < d.limit) (hfail : d.readRaw (blkRemapLookup f k) 1 = none) :
    Extends d f (blkRetireSector d f (blkRemapLookup f k)).1 := by
  have hret : f.retired k = false := by
    by_contra hret
    simp [Disk.readRaw, if_pos (h.sound_spare (by simpa using hret) (le_refl 1))] at hfail
  rw [lookup_not_retired hret] at hfail ⊢
  exact h.retire hk hfail

theorem readEach_extends {done : List α} (hfits : lba + done.length + count ≤ d.limit) :
    Extends d f (readEach d lba count f done).1 := by
  induction count generalizing done with
  | zero => exact .of_eq h rfl rfl
  | succ count ih =>
    have hle := d.limit_le
    have hsmall := d.fits
    rw [readEach, sum64_of_lt (by omega)]
    cases hx : d.readRaw (blkRemapLookup f (lba + done.length)) 1 with
    | some x =>
      refine ih ?_
      rw [length_append, readRaw_length hx]
      omega
    | none =>
      rcases blkRetireSector_cases d f
        (blkRemapLookup f (lba + done.length)) with ⟨-, hread⟩ | ⟨hfail, -⟩
      · simp [hx] at hread
      · simp only [hfail]
        exact h.retire_at (by omega) hx

theorem readDirect_extends (hfits : lba + count ≤ d.limit) :
    Extends d f (readDirect d f lba count).1 := by
  rw [readDirect]
  cases hx : d.readRaw (blkRemapLookup f lba) count with
  | some x => exact .of_eq h rfl rfl
  | none =>
    simp only
    split
    · exact .of_eq h rfl rfl
    rename_i hone
    rw [not_not.mp hone] at hx
    exact h.retire_at (by omega) hx

theorem blkRead_extends (hfits : lba + count ≤ d.limit) :
    Extends d f (blkRead d f lba count).1 := by
  rw [blkRead]
  split
  · exact .of_eq h rfl rfl
  cases f.cache with
  | none => exact readDirect_extends h hfits
  | some lines =>
    simp only
    split
    · exact readDirect_extends h hfits
    split
    · exact .of_eq h rfl rfl
    rw [readMiss]
    split
    · generalize hf' :
        ({ f with cache := some (lines.modify (victimFrom 0 0 (2 ^ 64 - 1) lines) Line.empty) } :
          Front α) = f'
      have hf'eq : f'.remap = f.remap ∧ f'.spareNext = f.spareNext := by
        rw [← hf']
        exact ⟨rfl, rfl⟩
      have hext : Extends d f' (readEach d lba count f' []).1 :=
        readEach_extends (h.congr hf'eq.1 hf'eq.2) (by simpa using hfits)
      refine ⟨hext.table, fun k hk => ?_⟩
      have hret : f'.retired k = f.retired k := by rw [Front.retired, Front.retired, hf'eq.1]
      rw [hext.lookup k (hret ▸ hk), blkRemapLookup, blkRemapLookup, hf'eq.1]
    · exact .of_eq h rfl rfl

end

/-! ## What a reader may expect -/

/-- A value is what the sector should have, if it is known and not lost. -/
def Expected (t : Traced α) (k : ℕ) (v : α) : Prop :=
  k < t.disk.limit → t.lost k = false → ∀ w, t.mem k = some w → v = w

/-- The places of the sectors and the lines of the cache have what is expected. -/
structure Kept (t : Traced α) : Prop where
  table : Table t.disk t.front
  lines : t.front.right (Expected t)
  store : ∀ k, Expected t k (t.at k)

theorem Front.right.mono {K K' : ℕ → α → Prop} (h : f.right K) (hK : ∀ k v, K k v → K' k v) :
    f.right K' := by
  intro lines hlines l hl base hbase
  obtain ⟨hlen, hend, hright⟩ := h lines hlines l hl base hbase
  exact ⟨hlen, hend, fun k v hv => hK _ v (hright k v hv)⟩

theorem Disk.limit_lt {len : ℕ} (hfits : lba + len ≤ d.limit) : lba + len < 2 ^ 64 :=
  (hfits.trans d.limit_le).trans_lt d.fits

theorem Kept.read {t : Traced α} (h : Kept t) (hfits : lba + count ≤ t.disk.limit)
    (hret : t.front.retired lba = false) :
    (blkRead t.disk t.front lba count).1.right (Expected t) ∧
      ∀ xs, (blkRead t.disk t.front lba count).2 = some xs →
      xs.length = count ∧ Right (Expected t) lba xs := by
  refine blkRead_right (Disk.limit_lt hfits) h.lines (lookup_not_retired hret)
    (fun n xs hxs k v hv => ?_) (fun k v _ hv => ?_)
  · -- a run that the disk reads has no retired sector
    have hgood : t.disk.bad (lba + k) = false :=
      (sound_iff.mp (readRaw_eq_some hxs).1).2 k (readRaw_getElem? hxs hv).1
    have hplace := lookup_not_retired (h.table.retired_of_good hgood)
    have hstore := h.store (lba + k)
    rwa [Traced.at, hplace, (readRaw_getElem? hxs hv).2] at hstore
  · have hstore := h.store (lba + k)
    have hval : t.disk.data (blkRemapLookup t.front (lba + k) + 0) = v :=
      (readRaw_getElem? hv rfl).2
    rwa [Traced.at, ← Nat.add_zero (blkRemapLookup t.front (lba + k)), hval] at hstore

theorem Kept.step_read {t : Traced α} (h : Kept t)
    (hx : Careful t (.read lba count)) : Kept (t.step (.read lba count)) := by
  obtain ⟨hfits, hret, -⟩ := hx
  have hext := blkRead_extends h.table hfits
  -- what is not lost now was not lost before
  have hweaker : ∀ k v, Expected t k v → Expected (t.step (.read lba count)) k v := by
    intro k v hv hk hlost
    exact hv hk (Bool.or_eq_false_iff.mp hlost).1
  refine ⟨hext.table, (h.read hfits hret).1.mono hweaker, fun k => ?_⟩
  intro hk hlost
  obtain ⟨hlost₀, hnew⟩ := Bool.or_eq_false_iff.mp hlost
  have hplace : blkRemapLookup
      (blkRead t.disk t.front lba count).1 k = blkRemapLookup t.front k := by
    refine hext.lookup k ?_
    cases hret : t.front.retired k with
    | true => exact .inl rfl
    | false => exact .inr (by simpa [hret] using hnew)
  have hsame : (t.step (.read lba count)).at k = t.at k := congrArg t.disk.data hplace
  rw [hsame]
  exact h.store k hk hlost₀

/-! ## Writing -/

theorem inside_iff : inside lba len k ↔ lba ≤ k ∧ k < lba + len := by simp [inside]

/-- The place of a sector outside a careful write is outside the sectors that are written. -/
theorem Table.lookup_outside (h : Table d f) (hfits : lba + len ≤ d.limit)
    (hone : f.retired lba → len ≤ 1) (hk : k < d.limit) (hout : ¬(lba ≤ k ∧ k < lba + len)) :
    ¬(blkRemapLookup f lba ≤ blkRemapLookup f k ∧
      blkRemapLookup f k < blkRemapLookup f lba + len) := by
  cases hret : f.retired lba with
  | true =>
    have hlen := hone hret
    intro hin
    have hne := h.lookup_ne hk (show lba < d.limit by omega) (by omega)
    omega
  | false =>
    rw [lookup_not_retired hret]
    cases hretk : f.retired k with
    | false => rwa [lookup_not_retired hretk]
    | true =>
      obtain ⟨i, -, hlook⟩ := h.lookup hretk
      omega

theorem Table.write (h : Table d f) {data : List α} (hfits : lba + data.length ≤ d.limit)
    (hone : f.retired lba → data.length ≤ 1) (torn : ℕ → Bool) :
    (blkWrite d f lba data torn).2.1 = blkCacheDrop f lba data.length ∧
      (blkWrite d f lba data torn).1.sectors = d.sectors ∧
      (blkWrite d f lba data torn).1.bad = d.bad ∧
      (∀ k, k < d.limit → ¬(lba ≤ k ∧ k < lba + data.length) →
        (blkWrite d f lba data torn).1.data (blkRemapLookup f k) = d.data (blkRemapLookup f k)) ∧
      ((blkWrite d f lba data torn).2.2 = true → ∀ k v, data[k]? = some v →
        (blkWrite d f lba data torn).1.data (blkRemapLookup f (lba + k)) = v) := by
  have hle := d.limit_le
  have hlook : blkRemapLookup (blkCacheDrop f lba data.length) lba = blkRemapLookup f lba := rfl
  have houtside : ∀ k, k < d.limit → ¬(lba ≤ k ∧ k < lba + data.length) →
      patch d.data (blkRemapLookup f lba) data (blkRemapLookup f k) = d.data (blkRemapLookup f k) :=
    fun k hk hout => patch_outside (h.lookup_outside hfits hone hk hout)
  rw [blkWrite, sum64_of_lt (Disk.limit_lt hfits), if_neg (by omega)]
  simp only [hlook, Disk.writeRaw]
  split
  · rename_i hsound
    refine ⟨trivial, rfl, rfl, houtside, fun _ k v hv => ?_⟩
    have hk : k < data.length := (List.getElem?_eq_some_iff.mp hv).1
    -- the sectors of a run that can be written are where they are asked for
    have hplace : blkRemapLookup f (lba + k) = blkRemapLookup f lba + k := by
      cases hret : f.retired lba with
      | true =>
        obtain rfl : k = 0 := by
          have := hone hret
          omega
        rfl
      | false =>
        rw [lookup_not_retired hret] at hsound ⊢
        exact lookup_not_retired (h.retired_of_good ((sound_iff.mp hsound).2 k hk))
    rw [hplace]
    exact patch_inside hv
  · refine ⟨trivial, rfl, rfl, fun k hk hout => ?_, fun hok => by cases hok⟩
    simp only
    split
    · exact houtside k hk hout
    · rfl

theorem Kept.step_write {t : Traced α} (h : Kept t) {data : List α} {torn : ℕ → Bool}
    (hx : Careful t (.write lba data torn)) : Kept (t.step (.write lba data torn)) := by
  obtain ⟨hfits, hone⟩ := hx
  obtain ⟨hfront, hsectors, hbad, hout, hin⟩ := h.table.write hfits hone torn
  have hle := t.disk.limit_le
  generalize ht' : t.step (.write lba data torn) = t'
  have hdisk : t'.disk = (blkWrite t.disk t.front lba data torn).1 := by rw [← ht']; rfl
  have hfront' : t'.front = blkCacheDrop t.front lba data.length := by rw [← ht', ← hfront]; rfl
  have hlimit : t'.disk.limit = t.disk.limit := by rw [hdisk, Disk.limit, Disk.limit, hsectors]
  have hmem : t'.mem = if (blkWrite t.disk t.front lba data torn).2.2 then patch t.mem lba
      (data.map some)
      else fun k => if inside lba data.length k then none else t.mem k := by
    rw [← ht', Traced.step]
    simp only [sum64_of_lt (Disk.limit_lt hfits),
      Nat.not_lt.mpr (show lba + data.length ≤ t.disk.sectors by omega), if_false]
  have hlost : t'.lost = fun k => t.lost k && !((blkWrite t.disk t.front lba data torn).2.2 &&
      inside lba data.length k) := by rw [← ht']; rfl
  have hplace : ∀ k, blkRemapLookup t'.front k = blkRemapLookup t.front k := by
    rw [hfront']
    exact fun k => rfl
  -- outside the write nothing is expected that was not expected before
  have hsame : ∀ k v, ¬(lba ≤ k ∧ k < lba + data.length) → Expected t k v → Expected t' k v := by
    intro k v hk hv hlim hl w hw
    have hnot : inside lba data.length k = false := by simpa [inside] using hk
    refine hv (hlimit ▸ hlim) ?_ w ?_
    · simpa [hlost, hnot] using hl
    rw [hmem] at hw
    split at hw
    · rwa [patch_outside (by simpa using hk)] at hw
    · simpa [hnot] using hw
  refine ⟨?_, ?_, fun k => ?_⟩
  · have htable : Table t'.disk t.front := by
      refine ⟨fun i r hi => ?_, h.table.short, ?_, ?_, ?_⟩
      · rw [hlimit, hdisk, hbad]
        exact h.table.entry i r hi
      · rw [hdisk, hsectors]
        exact h.table.large
      · rw [hlimit]
        exact h.table.next
      · rw [hlimit, hdisk, hbad]
        exact h.table.healthy
    rw [hfront']
    exact htable.congr rfl rfl
  · rw [hfront']
    exact blkCacheDrop_right (Disk.limit_lt hfits) h.lines hsame
  · have hat : t'.at k = (blkWrite t.disk t.front lba data torn).1.data
        (blkRemapLookup t.front k) := by
      rw [Traced.at, hplace, hdisk]
    by_cases hk : lba ≤ k ∧ k < lba + data.length
    · intro _ _ w hw
      have hinside : inside lba data.length k := inside_iff.mpr hk
      rw [hmem] at hw
      split at hw
      · rename_i hok
        obtain ⟨j, rfl⟩ := Nat.exists_eq_add_of_le hk.1
        have hj : j < data.length := by omega
        rw [patch_inside (x := some data[j]) (by simp [hj])] at hw
        rw [hat, hin hok j data[j] (getElem?_eq_getElem hj)]
        exact some.inj hw
      · simp [hinside] at hw
    · refine hsame k _ hk ?_
      intro hlim
      rw [hat, hout k hlim hk]
      exact h.store k hlim

theorem Kept.step {t : Traced α} {x : Step α} (h : Kept t) (hx : Careful t x) :
    Kept (t.step x) := by
  cases x with
  | select idx => exact h
  | read lba count => exact h.step_read hx
  | write lba data torn => exact h.step_write hx
  | fail sectors =>
    refine ⟨⟨fun i r hi => ?_, h.table.short, h.table.large, h.table.next, fun k hk => ?_⟩,
      h.lines, h.store⟩
    · obtain ⟨hspare, hlt, hbad⟩ := h.table.entry i r hi
      exact ⟨hspare, hlt, by simp [Traced.step, hbad]⟩
    have hgood := h.table.healthy k hk
    have hspared := hx k hk
    simp [Traced.step, hgood, hspared]

/-- A disk whose spare sectors are good, before any sector was retired. -/
structure Started (t : Traced α) : Prop where
  spares : ∀ k, t.disk.limit ≤ k → t.disk.bad k = false
  remap : t.front.remap = []
  spareNext : t.front.spareNext = 0
  bare : ∀ lines, t.front.cache = some lines → ∀ l ∈ lines, l.base = none
  mem : ∀ k, t.mem k = some (t.disk.data k)

theorem Started.kept {t : Traced α} (h : Started t) : Kept t := by
  have hlook : ∀ k, blkRemapLookup t.front k = k := by
    intro k
    rw [blkRemapLookup, h.remap]
    rfl
  refine ⟨⟨?_, ?_, ?_, ?_, h.spares⟩, ?_, fun k => ?_⟩
  · simp [h.remap]
  · simp [h.remap]
  · simp [h.remap]
  · simp [h.remap, h.spareNext]
  · intro lines hlines l hl base hbase
    simp [h.bare lines hlines l hl] at hbase
  intro _ _ w hw
  rw [h.mem] at hw
  rw [Traced.at, hlook]
  exact some.inj hw

/-- In every run of careful requests, a read that succeeds returns what was last written, and a
write changes nothing outside its sectors. -/
theorem remapping_transparent {t : Traced α} (ht : Started t)
    {steps : List (Step α)} (h : Meets Traced.step Careful t steps) (n : ℕ) :
    (∀ lba count, steps[n]? = some (.read lba count) →
      ∀ xs, (blkRead ((steps.take n).foldl Traced.step t).disk
        ((steps.take n).foldl Traced.step t).front lba
          count).2 = some xs → xs.length = count ∧ ∀ k v w, xs[k]? = some v →
          ((steps.take n).foldl Traced.step t).mem (lba + k) = some w → v = w) ∧
      ∀ lba data torn, steps[n]? = some (.write lba data torn) →
        ∀ k, k < ((steps.take n).foldl Traced.step t).disk.limit →
        ¬(lba ≤ k ∧ k < lba + data.length) →
          (((steps.take n).foldl Traced.step t).step (.write lba data torn)).at k =
            ((steps.take n).foldl Traced.step t).at k := by
  have hkept : Kept ((steps.take n).foldl Traced.step t) :=
    Run.invariant_take (fun _ _ hI hC => Kept.step hI hC) ht.kept h n
  have hcareful : ∀ x, steps[n]? = some x → Careful ((steps.take n).foldl Traced.step t) x :=
    fun x hx => h.at hx
  generalize (steps.take n).foldl Traced.step t = t' at hkept hcareful ⊢
  refine ⟨fun lba count hx xs hxs => ?_, fun lba data torn hx k hk hout => ?_⟩
  · obtain ⟨hfits, hret, hlost⟩ := hcareful _ hx
    obtain ⟨hlen, hright⟩ := (hkept.read hfits hret).2 xs hxs
    refine ⟨hlen, fun k v w hv hw => ?_⟩
    have hk : k < count := hlen ▸ (List.getElem?_eq_some_iff.mp hv).1
    exact hright k v hv (by omega) (hlost k hk) w hw
  obtain ⟨hfits, hone⟩ := hcareful _ hx
  obtain ⟨hfront, -, -, hsame, -⟩ := hkept.table.write hfits hone torn
  have hat : (t'.step (.write lba data torn)).at k =
      (blkWrite t'.disk t'.front lba data torn).1.data
      (blkRemapLookup (blkWrite t'.disk t'.front lba data torn).2.1 k) := rfl
  rw [hat, hfront]
  exact hsame k hk hout

/-! ## A write that starts at a retired sector -/

theorem numbered_fits : 4096 < 2 ^ 64 := by decide

/-- Every sector has its own number. -/
def numbered : Traced ℕ where
  disk := ⟨4096, numbered_fits, fun k => k, fun _ => false⟩
  front := ⟨some (replicate 16 ⟨none, 0, 0, []⟩), 0, [], 0, fun _ => 0⟩
  mem := some
  lost := fun _ => false

theorem numbered_started : Started numbered where
  spares := fun _ _ => rfl
  remap := rfl
  spareNext := rfl
  bare := by
    intro lines hlines l hl
    cases hlines
    rw [eq_of_mem_replicate hl]
  mem := fun _ => rfl

/-- Sector 100 fails, and is retired when it is read. -/
def retire100 : List (Step ℕ) := [.fail fun k => k = 100, .read 100 1]

/-- A retired sector that has been written again is read along with the one before it. -/
def rewritten : List (Step ℕ) := retire100 ++ [.write 100 [7] fun _ => false, .read 99 2]

theorem remapping_transparent_rewritten : Meets Traced.step Careful numbered rewritten ∧
    ∀ xs, (blkRead ((rewritten.take 3).foldl Traced.step numbered).disk
        ((rewritten.take 3).foldl Traced.step numbered).front 99 2).2 = some xs →
      xs.length = 2 ∧ ∀ k v w, xs[k]? = some v →
        ((rewritten.take 3).foldl Traced.step numbered).mem (99 + k) = some w → v = w := by
  have hmeets : Meets Traced.step Careful numbered rewritten := by
    refine ⟨fun k hk => ?_, ?_, ?_, ?_, trivial⟩
    · have hlimit : numbered.disk.limit = 3072 := rfl
      simp only [decide_eq_false_iff_not]
      omega
    · exact ⟨by decide, by decide, fun k hk => rfl⟩
    · exact ⟨by decide +kernel, fun _ => by decide⟩
    · refine ⟨by decide +kernel, by decide +kernel, ?_⟩
      decide +kernel
  exact ⟨hmeets, (remapping_transparent numbered_started hmeets 3).1 99 2 rfl⟩

/-- Two sectors are written from the retired one on: the write succeeds, the second of them still
reads as it was, and a sector of the spare area is overwritten. -/
theorem run_from_retired_sector_lost :
    ((retire100 ++ [Step.write 100 [7, 8] fun _ => false]).foldl Traced.step numbered).mem 101 =
      some 8 ∧
      (blkRead
        ((retire100 ++ [Step.write 100 [7, 8] fun _ => false]).foldl Traced.step numbered).disk
        ((retire100 ++ [Step.write 100 [7, 8] fun _ => false]).foldl Traced.step numbered).front
        101 1).2 = some [101] ∧ (retire100.foldl Traced.step numbered).disk.data 3073 = 3073 ∧
      ((retire100 ++ [Step.write 100 [7, 8] fun _ => false]).foldl Traced.step numbered).disk.data
        3073 = 8 := by
  decide +kernel

end Vextro.Blocks
