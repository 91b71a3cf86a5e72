import Vextro.Verification.Blocks.Cache
import Vextro.Verification.Shared.Run

/-! Disks without errors are arrays of sectors, as long as another disk is not selected while the
cache holds sectors of the last. -/

namespace Vextro.Blocks

open Run (Meets)
open Slices List Option

variable {α : Type*}
variable {d : Disk α} {f : Front α} {b : Layer α}

/-! ## Arrays -/

/-- What the layer stands for: the size and the contents of each disk. -/
structure Arrays (α : Type*) where
  arrays : List (ℕ × (ℕ → α))
  cur : Option ℕ

def Arrays.selected (a : Arrays α) : Option (ℕ × (ℕ → α)) := a.cur.bind fun i => a.arrays[i]?

/-- A write within the array changes its sectors. -/
def Arrays.write (a : Arrays α) (lba : ℕ) (data : List α) : Arrays α :=
  { a with arrays := match a.cur with
      | none => a.arrays
      | some i => a.arrays.modify i fun x =>
        if lba + data.length ≤ x.1 then (x.1, patch x.2 lba data) else x }

def Arrays.step (a : Arrays α) : Step α → Arrays α
  | .select idx => if 0 ≤ idx ∧ idx < a.arrays.length then { a with cur := some idx.toNat } else a
  | .write lba data _ => a.write lba data
  | _ => a

def Disk.array (d : Disk α) : ℕ × (ℕ → α) := (d.sectors, d.data)

def Layer.arrays (b : Layer α) : Arrays α := ⟨b.disks.map Disk.array, b.cur⟩

theorem Layer.arrays_selected (b : Layer α) : b.arrays.selected = b.disk.map Disk.array := by
  rw [Arrays.selected, Layer.disk, Layer.arrays]
  cases b.cur with
  | none => rfl
  | some i => simp

/-! ## Healthy disks -/

def Disk.Healthy (d : Disk α) : Prop := ∀ k, d.bad k = false

theorem Disk.Healthy.readRaw (h : d.Healthy) {lba count : ℕ} (hfits : lba + count ≤ d.sectors) :
    d.readRaw lba count = some (slice d.data lba count) := by
  rw [Disk.readRaw, if_pos (sound_iff.mpr ⟨hfits, fun k _ => h _⟩)]

theorem blkRemapLookup_nil (h : f.remap = []) (lba : ℕ) : blkRemapLookup f lba = lba := by
  rw [blkRemapLookup, h]
  rfl

theorem readEach_remap (hd : d.Healthy) (hf : f.remap = []) {lba count : ℕ} {done : List α}
    (hfits : lba + done.length + count ≤ d.sectors) :
    (readEach d lba count f done).1.remap = [] := by
  have hsmall := d.fits
  induction count generalizing done with
  | zero => exact hf
  | succ count ih =>
    rw [readEach, sum64_of_lt (by omega), blkRemapLookup_nil hf, hd.readRaw (by omega)]
    refine ih ?_
    rw [length_append, length_slice]
    omega

/-- On a healthy disk no sector of a request within it is retired. -/
theorem blkRead_remap (hd : d.Healthy) (hf : f.remap = []) {lba count : ℕ}
    (hno : lba + count < 2 ^ 64) : (blkRead d f lba count).1.remap = [] := by
  rw [blkRead, sum64_of_lt hno]
  split
  · exact hf
  have hdirect : (readDirect d f lba count).1.remap = [] := by
    rw [readDirect, blkRemapLookup_nil hf]
    rwa [hd.readRaw (by omega)]
  cases f.cache with
  | none => exact hdirect
  | some lines =>
    simp only
    split
    · exact hdirect
    split
    · exact hf
    have hall : lba + ([] : List α).length + count ≤ d.sectors := by
      rw [length_nil]
      omega
    rw [readMiss]
    split
    · refine readEach_remap hd ?_ hall
      exact hf
    · exact hf

/-! ## Runs -/

/-- No line of the cache is filled. -/
def Front.Bare (f : Front α) : Prop := ∀ lines, f.cache = some lines → ∀ l ∈ lines, l.base = none

/-- No disk fails, another one is selected only while the cache is empty, and no request wraps
around. -/
def Steady (b : Layer α) : Step α → Prop
  | .select idx => 0 ≤ idx → idx < b.disks.length → b.cur = some idx.toNat ∨ b.front.Bare
  | .read lba count => lba + count < 2 ^ 64
  | .write lba data _ => lba + data.length < 2 ^ 64
  | .fail _ => False

/-- Healthy disks, nothing retired, and a cache that has what is on the selected disk. -/
structure Coherent (b : Layer α) : Prop where
  healthy : ∀ d ∈ b.disks, d.Healthy
  remap : b.front.remap = []
  lines : ∀ d, b.disk = some d → b.front.right fun k v => v = d.data k

theorem Layer.disk_mem (h : b.disk = some d) : d ∈ b.disks := by
  obtain ⟨i, -, hi⟩ := bind_eq_some_iff.mp h
  exact mem_of_getElem? hi

theorem Front.Bare.right (h : f.Bare) (K : ℕ → α → Prop) : f.right K := by
  intro lines hlines l hl base hbase
  simp [h lines hlines l hl] at hbase

theorem Coherent.read (h : Coherent b) (hd : b.disk = some d) {lba count : ℕ}
    (hno : lba + count < 2 ^ 64) :
    (blkRead d b.front lba count).1.right (fun k v => v = d.data k) ∧
      ∀ xs, (blkRead d b.front lba count).2 = some xs → xs = slice d.data lba count := by
  have hlook := blkRemapLookup_nil h.remap
  obtain ⟨hlines, hread⟩ := blkRead_right hno (h.lines d hd) (hlook lba)
    (fun n xs hxs k v hv => (readRaw_getElem? hxs hv).2.symm)
    (fun k v _ hv => by
      rw [hlook] at hv
      exact (readRaw_getElem? hv (k := 0) rfl).2.symm)
  refine ⟨hlines, fun xs hxs => ?_⟩
  obtain ⟨hlen, hright⟩ := hread xs hxs
  exact hlen ▸ eq_slice hright

theorem Layer.setDisk_disk {d' : Disk α} (h : b.disk = some d) : (b.setDisk d').disk = some d' := by
  obtain ⟨i, hcur, hi⟩ := bind_eq_some_iff.mp h
  have hlt : i < b.disks.length := (List.getElem?_eq_some_iff.mp hi).1
  simp [Layer.setDisk, Layer.disk, hcur, hlt]

theorem mem_setDisk {x : Disk α} (h : x ∈ (b.setDisk d).disks) : x ∈ b.disks ∨ x = d := by
  rw [Layer.setDisk] at h
  split at h
  · exact .inl h
  · exact mem_or_eq_of_mem_set h

theorem Layer.setDisk_arrays (h : b.disk = some d) (lba : ℕ) (data : List α)
    (hfits : lba + data.length ≤ d.sectors) :
    (b.setDisk { d with data := patch d.data lba data }).arrays = b.arrays.write lba data := by
  obtain ⟨i, hcur, hi⟩ := bind_eq_some_iff.mp h
  obtain ⟨hlt, hget⟩ := List.getElem?_eq_some_iff.mp hi
  rw [Layer.arrays, Layer.setDisk, Layer.arrays]
  simp only [hcur]
  congr 1
  refine ext_getElem? fun k => ?_
  by_cases hk : i = k
  · subst hk
    simp [hlt, hget, Disk.array, hfits]
  · simp [hk]

theorem Arrays.write_refused (h : b.disk = some d) {lba : ℕ} {data : List α}
    (hfits : d.sectors < lba + data.length) : b.arrays.write lba data = b.arrays := by
  obtain ⟨i, hcur, hi⟩ := bind_eq_some_iff.mp h
  rw [Arrays.write, Layer.arrays]
  simp only [hcur]
  congr 1
  refine ext_getElem? fun k => ?_
  by_cases hk : i = k
  · subst hk
    simp [hi, Disk.array, Nat.not_le.mpr hfits]
  · simp [hk]

theorem Coherent.write (h : Coherent b) {lba : ℕ} {data : List α}
    (hno : lba + data.length < 2 ^ 64) (torn : ℕ → Bool) :
    Coherent (b.step (.write lba data torn)) ∧
      (b.step (.write lba data torn)).arrays = b.arrays.write lba data := by
  rw [Layer.step]
  cases hd : b.disk with
  | none =>
    refine ⟨h, ?_⟩
    rw [Arrays.write]
    cases hcur : b.cur with
    | none => rw [Layer.arrays, hcur]
    | some i =>
      rw [Layer.disk, hcur, bind_some] at hd
      rw [Layer.arrays, hcur]
      simp only
      rw [modify_eq_self (by simpa using hd)]
  | some d =>
    simp only [blkWrite, sum64_of_lt hno]
    by_cases hfits : d.sectors < lba + data.length
    · simp only [hfits, if_true]
      have hsame : b.setDisk d = b := by
        obtain ⟨i, hcur, hi⟩ := bind_eq_some_iff.mp hd
        obtain ⟨hlt, hget⟩ := List.getElem?_eq_some_iff.mp hi
        rw [Layer.setDisk]
        simp only [hcur]
        rw [← hget, set_getElem_self, ← hcur]
      rw [hsame]
      exact ⟨h, (Arrays.write_refused hd hfits).symm⟩
    · have hremap : (blkCacheDrop b.front lba data.length).remap = [] := h.remap
      have hsound : d.sound lba data.length :=
        sound_iff.mpr ⟨by omega, fun k _ => h.healthy d (Layer.disk_mem hd) _⟩
      simp only [hfits, Disk.writeRaw, blkRemapLookup_nil hremap, hsound]
      refine ⟨⟨fun x hx => ?_, hremap, fun x hx => ?_⟩, Layer.setDisk_arrays hd lba data (by omega)⟩
      · rcases mem_setDisk hx with hx | rfl
        · exact h.healthy x hx
        · exact h.healthy d (Layer.disk_mem hd)
      · obtain rfl := some.inj ((Layer.setDisk_disk hd).symm.trans hx)
        exact blkCacheDrop_right hno (h.lines d hd) fun k v hk hv =>
          hv.trans (patch_outside hk).symm

theorem Coherent.select (h : Coherent b) {idx : ℤ} (hx : Steady b (.select idx)) :
    Coherent (blkSelect b idx) ∧ (blkSelect b idx).arrays = b.arrays.step (.select idx) := by
  have hlen : b.arrays.arrays.length = b.disks.length := by simp [Layer.arrays]
  rw [blkSelect, Arrays.step, hlen]
  split
  · rename_i hidx
    refine ⟨⟨h.healthy, h.remap, fun d hd => ?_⟩, rfl⟩
    rcases hx hidx.1 hidx.2 with hcur | hbare
    · exact h.lines d (by rw [Layer.disk, hcur]; exact hd)
    · exact hbare.right _
  · exact ⟨h, rfl⟩

theorem Coherent.step {x : Step α} (h : Coherent b) (hx : Steady b x) :
    Coherent (b.step x) ∧ (b.step x).arrays = b.arrays.step x := by
  cases x with
  | select idx => exact h.select hx
  | read lba count =>
    rw [Layer.step]
    cases hd : b.disk with
    | none => exact ⟨h, rfl⟩
    | some d =>
      have hremap := blkRead_remap (h.healthy d (Layer.disk_mem hd)) h.remap hx
      refine ⟨⟨h.healthy, hremap, fun d' hd' => ?_⟩, rfl⟩
      obtain rfl := some.inj (hd.symm.trans hd')
      exact (h.read hd hx).1
  | write lba data torn => exact h.write hx torn
  | fail sectors => exact absurd hx id

/-- The layer as it is after `blk_init` and `blk_cache_init`, on disks without errors. -/
structure Fresh (b : Layer α) : Prop where
  healthy : ∀ d ∈ b.disks, d.Healthy
  remap : b.front.remap = []
  bare : b.front.Bare

/-- In every run that selects another disk only while the cache is empty, and whose requests do not
wrap around, a read that succeeds returns the sectors of the selected disk as they were last
written. -/
theorem read_last_written {b : Layer α} (hb : Fresh b) {steps : List (Step α)}
    (h : Meets Layer.step Steady b steps) (n : ℕ) {lba count : ℕ} (hno : lba + count < 2 ^ 64)
    {xs : List α} (hread : ((steps.take n).foldl Layer.step b).read lba count = some xs) :
    ∃ size contents, ((steps.take n).foldl Arrays.step b.arrays).selected = some (size, contents) ∧
      xs = slice contents lba count := by
  have hstart : Coherent b := ⟨hb.healthy, hb.remap, fun d _ => hb.bare.right _⟩
  -- the arrays follow the layer step by step
  have hrun : ∀ (ys : List (Step α)) (b' : Layer α), Coherent b' → Meets Layer.step Steady b' ys →
      Coherent (ys.foldl Layer.step b') ∧
        (ys.foldl Layer.step b').arrays = ys.foldl Arrays.step b'.arrays := by
    intro ys
    induction ys with
    | nil => exact fun b' hb' _ => ⟨hb', rfl⟩
    | cons y ys ih =>
      intro b' hb' hmeets
      obtain ⟨hnext, harrays⟩ := hb'.step hmeets.1
      rw [foldl_cons, foldl_cons, ← harrays]
      exact ih _ hnext hmeets.2
  obtain ⟨hend, harrays⟩ := hrun _ b hstart (h.take n)
  obtain ⟨d, hd, hxs⟩ := bind_eq_some_iff.mp hread
  refine ⟨d.sectors, d.data, ?_, (hend.read hd hno).2 xs hxs⟩
  rw [← harrays, Layer.arrays_selected, hd]
  rfl

/-! ## Two disks -/

/-- A disk with the same number in every sector. -/
def plainDisk (value : ℕ) : Disk ℕ := ⟨4096, by decide, fun _ => value, fun _ => false⟩

def emptyLine : Line ℕ := ⟨none, 0, 0, []⟩

/-- Two disks, the first of them selected. -/
def twoDisks : Layer ℕ :=
  ⟨[plainDisk 1, plainDisk 2], some 0, ⟨some (replicate 16 emptyLine), 0, [], 0, fun _ => 0⟩⟩

theorem twoDisks_fresh : Fresh twoDisks where
  healthy := by
    intro d hd k
    have hd' : d = plainDisk 1 ∨ d = plainDisk 2 := by simpa [twoDisks] using hd
    rcases hd' with rfl | rfl <;> rfl
  remap := rfl
  bare := by
    intro lines hlines l hl
    cases hlines
    rw [eq_of_mem_replicate hl]
    rfl

/-- The second disk is selected before the first is read, and a sector of it is written. -/
theorem read_last_written_second :
    ∃ size contents, ([Step.select 1, Step.write 0 [7] fun _ => false].foldl Arrays.step
      twoDisks.arrays).selected = some (size, contents) ∧ [7, 2] = slice contents 0 2 := by
  have hmeets : Meets Layer.step Steady twoDisks [Step.select 1, Step.write 0 [7] fun _ => false] :=
    ⟨fun _ _ => .inr twoDisks_fresh.bare, (by decide : 0 + 1 < 2 ^ 64), trivial⟩
  exact read_last_written twoDisks_fresh hmeets 2 (by decide) (by decide +kernel)

/-- The first sector of the first disk is read, the second disk is selected, and its first sector
reads like the other's. -/
theorem selected_disk_reads_stale : Fresh twoDisks ∧
      ([Step.read 0 1, Step.select 1].foldl Layer.step twoDisks).read 0 1 = some [1] ∧
      ([Step.read 0 1, Step.select 1].foldl Arrays.step twoDisks.arrays).selected.map
        (fun a => slice a.2 0 1) = some [2] :=
  ⟨twoDisks_fresh, by decide +kernel, by decide +kernel⟩

-- a request that wraps around passes the bounds check and is served from past the line
example : ([Step.read 0 1].foldl Layer.step twoDisks).read (2 ^ 64 - 1) 1 = some [0] := by
  decide +kernel

end Vextro.Blocks
