import Vextro.Model.FrameMap
import Vextro.Verification.Paging.Operations
import Vextro.Verification.Shared.Bitmap
import Vextro.Verification.Shared.Run

/-! The frame allocator: what is free, what is counted and what is handed out. -/

namespace Vextro.Paging

open List Function

variable {bm : ℕ → Bool} {w n f : ℕ} {mm : List MemmapEntry} {grantable : ℕ → Prop} {s : Leases}

/-! ## The search for a run -/

theorem wordFull_iff : wordFull bm w ↔ ∀ b < 64, bm (w * 64 + b) := by
  simp [wordFull]

/-- `n` clear frames from `start` on. -/
def ClearRun (m : Machine) (start n : ℕ) : Prop := ∀ f, start ≤ f → f < start + n → m.used f = false

/-- The search stands before frame `f`: the last `run` frames are clear, the one before them is
not, and no run of `n` frames has ended yet. -/
structure Scanning (m : Machine) (n f run start : ℕ) : Prop where
  short : run < n
  low : lowFrames + run ≤ f
  start : run ≠ 0 → start + run = f
  clear : ClearRun m (f - run) run
  edge : lowFrames + run = f ∨ m.used (f - run - 1) = true
  none : ∀ s, lowFrames ≤ s → s + n ≤ f → ¬ ClearRun m s n

namespace Scanning

variable {m : Machine} {run start : ℕ}

theorem begin (hn : 0 < n) : Scanning m n lowFrames 0 0 where
  short := hn
  low := le_rfl
  start h := absurd rfl h
  clear f hlo hhi := absurd hlo (by omega)
  edge := .inl rfl
  none s hlo hhi := by omega

section

variable (h : Scanning m n f run start)
include h

/-- Past `k` frames of which the last is taken, whatever the others are, no run has ended. -/
theorem skip {k : ℕ} (hk : 0 < k)
    (hused : ∀ x, f ≤ x → x < f + k → m.used x) : Scanning m n (f + k) 0 start where
  short := Nat.zero_lt_of_lt h.short
  low := by
    have := h.low
    omega
  start h := absurd rfl h
  clear x hlo hhi := absurd hlo (by omega)
  edge := .inr (hused _ (by omega) (by omega))
  none s hlo hhi hrun := by
    by_cases hs : s + n ≤ f
    · exact h.none s hlo hs hrun
    have hpos := Nat.zero_lt_of_lt h.short
    have hlast := hrun (s + n - 1) (by omega) (by omega)
    rw [hused _ (by omega) (by omega)] at hlast
    cases hlast

theorem extend (hc : m.used f = false) : ClearRun m (f - run) (run + 1) := by
  intro x hlo hhi
  have hlow := h.low
  by_cases hx : x = f
  · rwa [hx]
  · exact h.clear x hlo (by omega)

theorem step (hc : m.used f = false) (hne : run + 1 ≠ n) :
    Scanning m n (f + 1) (run + 1) (if run = 0 then f else start) where
  short := by
    have := h.short
    omega
  low := by
    have := h.low
    omega
  start _ := by
    split
    · omega
    rename_i hr
    have := h.start hr
    omega
  clear := by
    rw [Nat.add_sub_add_right]
    exact h.extend hc
  edge := by
    rw [Nat.add_sub_add_right]
    exact h.edge.imp (fun h => by omega) id
  none s hlo hhi hrun := by
    by_cases hs : s + n ≤ f
    · exact h.none s hlo hs hrun
    -- the run would have to start before the clear frames do
    have hshort := h.short
    have hlow := h.low
    rcases h.edge with hedge | hedge
    · omega
    · rw [hrun _ (by omega) (by omega)] at hedge
      cases hedge

end

end Scanning

theorem contigScan_spec {m : Machine} (fuel : ℕ) {run start : ℕ} (h : Scanning m n f run start)
    (hfuel : m.highest ≤ f + fuel) : (contigScan m n fuel f run start = none →
      ∀ s, lowFrames ≤ s → s + n ≤ m.highest → ¬ ClearRun m s n) ∧ ∀ s,
      contigScan m n fuel f run start = some s →
      lowFrames ≤ s ∧ s + n ≤ m.highest ∧ ClearRun m s n := by
  induction fuel generalizing f run start with
  | zero => exact ⟨fun _ s hlo hhi => h.none s hlo (by omega), fun s hs => by cases hs⟩
  | succ fuel ih =>
    rw [contigScan]
    split
    · exact ⟨fun _ s hlo hhi => h.none s hlo (by omega), fun s hs => by cases hs⟩
    split
    · -- a full word
      rename_i hword
      obtain ⟨hmod, hfull⟩ := Bool.and_eq_true_iff.mp hword
      refine ih (h.skip (by decide) fun x hlo hhi => ?_) (by omega)
      have hbit := wordFull_iff.mp hfull (x - f) (by omega)
      have hx : f / 64 * 64 + (x - f) = x := by
        have := of_decide_eq_true hmod
        omega
      rwa [hx] at hbit
    · split
      · rename_i hused
        refine ih (h.skip (by decide) fun x hlo hhi => ?_) (by omega)
        obtain rfl : x = f := by omega
        exact hused
      rename_i hclear
      have hclear : m.used f = false := by simpa using hclear
      dsimp only
      split
      · rename_i hn
        refine ⟨fun h => (Option.some_ne_none _ h).elim, fun s hs => ?_⟩
        have hlow := h.low
        have hs : f - run = s := by
          rw [← Option.some.inj hs]
          split
          · omega
          rename_i hr
          have := h.start hr
          omega
        have hrun := h.extend hclear
        rw [hn, hs] at hrun
        exact ⟨by omega, by omega, hrun⟩
      · rename_i hne
        exact ih (h.step hclear hne) (by omega)

/-! ## The ledger -/

/-- The frames that may be handed out are all accounted for: each of them is either clear in the
bitmap or in somebody's hands, and every other frame is taken for good. -/
structure Ledger (grantable : ℕ → Prop) (s : Leases) : Prop where
  free : ∀ f, s.m.used f = false ↔ grantable f ∧ f ∉ s.held
  held : ∀ f ∈ s.held, grantable f
  nodup : s.held.Nodup
  range : ∀ f, grantable f → lowFrames ≤ f ∧ f < s.m.highest
  full : ∀ f, f < s.m.hint * 64 → s.m.used f = true
  count : s.m.freeFrames = (Bitmap.clear s.m.used (bitmapWords s.m * 64)).card
  refs : ∀ r, s.m.ref = some r → ∀ f, r f = 0

theorem highest_le_words (m : Machine) : m.highest ≤ bitmapWords m * 64 := by
  simp only [bitmapWords]
  omega

namespace Ledger

section

variable (h : Ledger grantable s)
include h

theorem lt_words (hf : grantable f) : f < bitmapWords s.m * 64 :=
  (h.range f hf).2.trans_le (highest_le_words s.m)

theorem ne_zero (hf : grantable f) : f ≠ 0 :=
  (Nat.zero_lt_of_lt ((show 0 < lowFrames by decide).trans_le (h.range f hf).1)).ne'

theorem used_of_held (hf : f ∈ s.held) : s.m.used f := by
  by_contra hc
  exact ((h.free f).mp (by simpa using hc)).2 hf

theorem take (hf : s.m.used f = false) (hw : ∀ x, x < w * 64 → s.m.used x)
    (mem : ℕ → Page) : Ledger grantable ⟨{ s.m with
      used := update s.m.used f true
      freeFrames := s.m.freeFrames - 1
      hint := w
      mem := mem }, f :: s.held⟩ := by
  obtain ⟨hgrant, hfree⟩ := (h.free f).mp hf
  refine ⟨fun x => ?_, fun x hx => ?_, nodup_cons.mpr ⟨hfree, h.nodup⟩, h.range, fun x hx => ?_,
    ?_, h.refs⟩
  · by_cases hx : x = f
    · subst hx
      simp
    · simp [hx, h.free x]
  · rcases mem_cons.mp hx with rfl | hx
    · exact hgrant
    · exact h.held x hx
  · dsimp only
    rw [update_apply]
    split
    · rfl
    · exact hw x hx
  · rw [h.count]
    exact (Bitmap.card_clear_set (h.lt_words hgrant) hf).symm

theorem takeRun {start : ℕ} (hrun : ClearRun s.m start n) (hhi : start + n ≤ s.m.highest) :
    Ledger grantable ⟨{ s.m with
      used := fun f => s.m.used f || (start ≤ f && f < start + n)
      freeFrames := s.m.freeFrames - n }, range' start n ++ s.held⟩ := by
  have hmem : ∀ f, f ∈ range' start n ↔ start ≤ f ∧ f < start + n := fun f => mem_range'_1
  have hclear : ∀ f ∈ range' start n, grantable f ∧ f ∉ s.held := fun f hf =>
    (h.free f).mp (hrun f ((hmem f).mp hf).1 ((hmem f).mp hf).2)
  refine ⟨fun x => ?_, fun x hx => ?_, ?_, h.range, fun x hx => ?_, ?_, h.refs⟩
  · have hx := h.free x
    simp only [Bool.or_eq_false_iff, Bool.and_eq_false_iff, decide_eq_false_iff_not,
      mem_append, hmem]
    tauto
  · rcases mem_append.mp hx with hx | hx
    · exact (hclear x hx).1
    · exact h.held x hx
  · exact nodup_append'.mpr ⟨nodup_range', h.nodup, fun x hx hx' => (hclear x hx).2 hx'⟩
  · simp only [h.full x hx, Bool.true_or]
  rw [h.count]
  exact (Bitmap.card_clear_setRun (hhi.trans (highest_le_words s.m)) hrun).symm

theorem give (hf : f ∈ s.held) : Ledger grantable ⟨pmmFree s.m f, s.held.erase f⟩ := by
  have hgrant := h.held f hf
  have hused := h.used_of_held hf
  have hfree : pmmFree s.m f = pmmClear s.m f := by
    rw [pmmFree, if_neg (h.ne_zero hgrant), if_neg (h.range f hgrant).2.not_ge]
    cases hr : s.m.ref with
    | none => rfl
    | some r => simp only [h.refs r hr f, ne_eq, not_true_eq_false, if_false]
  rw [hfree, pmmClear, if_pos hused]
  refine ⟨fun x => ?_, fun x hx => h.held x (mem_of_mem_erase hx), h.nodup.erase f, h.range,
    fun x hx => ?_, ?_, h.refs⟩
  · by_cases hx : x = f
    · subst hx
      simp [hgrant, h.nodup.not_mem_erase]
    · simp [hx, h.free x]
  · dsimp only at hx ⊢
    have hne : x ≠ f := by
      split at hx <;> omega
    rw [update_of_ne hne]
    refine h.full x ?_
    split at hx <;> omega
  · rw [h.count]
    exact (Bitmap.card_clear_unset (h.lt_words hgrant) hused).symm

theorem refTable : Ledger grantable ⟨{ s.m with ref := some fun _ => 0 }, s.held⟩ :=
  ⟨h.free, h.held, h.nodup, h.range, h.full, h.count, fun r hr f => by
    rw [← Option.some.inj hr]⟩

end

/-! ## Calls -/

theorem once (h : Ledger grantable s) :
    (pmmAllocOnce s.m = (s.m, 0) ∧ ∀ f, s.m.used f = true) ∨
      ∃ f w, f ≠ 0 ∧ s.m.used f = false ∧ (∀ x, x < w * 64 → s.m.used x = true) ∧
      pmmAllocOnce s.m = ({ s.m with
          used := update s.m.used f true
          freeFrames := s.m.freeFrames - 1
          hint := w
          mem := update s.m.mem f zeroPage }, f) := by
  have h0 : s.m.used 0 := by
    by_contra hc
    exact h.ne_zero ((h.free 0).mp (by simpa using hc)).1 rfl
  rcases pmmAllocOnce_spec h0 with ⟨heq, hall⟩ | ⟨f, hne, -, hclear, hlow, heq⟩
  · refine .inl ⟨heq, fun f => ?_⟩
    by_contra hc
    have hc : s.m.used f = false := by simpa using hc
    simp [hall f (h.range f ((h.free f).mp hc).1).2] at hc
  · refine .inr ⟨f, f / 64, hne, hclear, fun x hx => ?_, heq⟩
    by_cases hx' : x < s.m.hint * 64
    · exact h.full x hx'
    · exact hlow x (by omega) (by omega)

theorem contig (h : Ledger grantable s) (hn : n ≠ 0) :
    (pmmAllocContig s.m n = (s.m, 0) ∧ ∀ start, ¬ ClearRun s.m start n) ∨
      ∃ start, start ≠ 0 ∧ ClearRun s.m start n ∧ start + n ≤ s.m.highest ∧
      pmmAllocContig s.m n = ({ s.m with
          used := fun f => s.m.used f || (start ≤ f && f < start + n)
          freeFrames := s.m.freeFrames - n }, start) := by
  have hspec := contigScan_spec s.m.highest (Scanning.begin (Nat.pos_of_ne_zero hn))
    (Nat.le_add_left _ _)
  rw [pmmAllocContig, if_neg hn]
  cases hs : contigScan s.m n s.m.highest lowFrames 0 0 with
  | none =>
    refine .inl ⟨rfl, fun start hrun => ?_⟩
    have hfirst := h.range _ ((h.free _).mp (hrun start le_rfl (by omega))).1
    have hlast := h.range _ ((h.free _).mp (hrun (start + n - 1) (by omega) (by omega))).1
    exact hspec.1 hs start hfirst.1 (by omega) hrun
  | some start =>
    obtain ⟨hlow, hhi, hrun⟩ := hspec.2 start hs
    exact .inr ⟨start,
      (Nat.zero_lt_of_lt ((show 0 < lowFrames by decide).trans_le hlow)).ne', hrun, hhi, rfl⟩

end Ledger

/-! ## Boot -/

theorem pageAlignUp_div {x : ℕ} (h : x ≤ 2 ^ 53) : pageAlignUp x / 4096 = (x + 4095) / 4096 := by
  rw [pageAlignUp, Nat.mul_div_cancel _ (by decide), Nat.mod_eq_of_lt (by omega)]

theorem pageAlignDown_div (x : ℕ) :
    pageAlignDown x / 4096 = x / 4096 := Nat.mul_div_cancel _ (by decide)

/-- The frame lies in usable memory as a whole. -/
def Usable (mm : List MemmapEntry) (f : ℕ) : Prop :=
  ∃ e ∈ mm, e.usable = true ∧ e.base ≤ f * 4096 ∧ (f + 1) * 4096 ≤ e.base + e.length

theorem MemmapEntry.mem_frames (e : MemmapEntry) (f : ℕ) :
    f ∈ e.frames ↔ e.base ≤ f * 4096 ∧ (f + 1) * 4096 ≤ e.base + e.length := by
  have hfits := e.fits
  rw [frames, mem_range'_1, pageAlignUp_div (by omega), pageAlignDown_div, last]
  omega

/-- What boot has done so far: the clear frames, and their number. -/
structure Booting (highest : ℕ) (p : ℕ → Prop) (m : Machine) : Prop where
  highest : m.highest = highest
  hint : m.hint = 0
  ref : m.ref = none
  free : ∀ f, m.used f = false ↔ p f
  count : m.freeFrames = (Bitmap.clear m.used (bitmapWords m * 64)).card

namespace Booting

variable {highest : ℕ} {p : ℕ → Prop} {m : Machine}

theorem blank (m : Machine) (highest : ℕ) :
    Booting highest (fun _ => False) (bootBlank m highest) := by
  refine ⟨rfl, rfl, rfl, fun f => ?_, ?_⟩
  · simp [bootBlank]
  · simp [bootBlank, Bitmap.clear]

variable (h : Booting highest p m)
include h

theorem congr {q : ℕ → Prop} (hpq : ∀ f, p f ↔ q f) : Booting highest q m :=
  ⟨h.highest, h.hint, h.ref, fun f => (h.free f).trans (hpq f), h.count⟩

theorem lt_words (hf : f < highest) : f < bitmapWords m * 64 :=
  (h.highest ▸ hf : f < m.highest).trans_le (highest_le_words m)

theorem bootFree (hf : f < highest) :
    Booting highest (fun x => p x ∨ x = f) (bootFree m f) := by
  rw [Paging.bootFree]
  split
  · rename_i hused
    refine ⟨h.highest, h.hint, h.ref, fun x => ?_, ?_⟩
    · by_cases hx : x = f
      · subst hx
        simp
      · simp [hx, h.free x]
    dsimp only
    rw [h.count]
    exact (Bitmap.card_clear_unset (h.lt_words hf) hused).symm
  · rename_i hused
    refine h.congr fun x => ⟨.inl, fun hx => hx.elim id ?_⟩
    rintro rfl
    exact (h.free x).mp (by simpa using hused)

theorem bootTake (hf : f < highest) :
    Booting highest (fun x => p x ∧ x ≠ f) (bootTake m f) := by
  rw [Paging.bootTake]
  split
  · rename_i hused
    refine h.congr fun x => ⟨fun hx => ⟨hx, ?_⟩, And.left⟩
    rintro rfl
    simp [(h.free x).mpr hx] at hused
  rename_i hused
  refine ⟨h.highest, h.hint, h.ref, fun x => ?_, ?_⟩
  · by_cases hx : x = f
    · subst hx
      simp
    · simp [hx, h.free x]
  dsimp only
  rw [h.count]
  exact (Bitmap.card_clear_set (h.lt_words hf) (by simpa using hused)).symm

theorem bootFrees (fs : List ℕ) (hfs : ∀ f ∈ fs, f < highest) :
    Booting highest (fun x => p x ∨ x ∈ fs) (fs.foldl Paging.bootFree m) := by
  induction fs generalizing p m with
  | nil => exact h.congr fun x => by simp
  | cons f fs ih =>
    refine (ih (h.bootFree (hfs f mem_cons_self)) fun x hx =>
      hfs x (mem_cons_of_mem f hx)).congr fun x => ?_
    rw [mem_cons, or_assoc]

theorem bootTakes (fs : List ℕ) (hfs : ∀ f ∈ fs, f < highest) :
    Booting highest (fun x => p x ∧ x ∉ fs) (fs.foldl Paging.bootTake m) := by
  induction fs generalizing p m with
  | nil => exact h.congr fun x => by simp
  | cons f fs ih =>
    refine (ih (h.bootTake (hfs f mem_cons_self)) fun x hx =>
      hfs x (mem_cons_of_mem f hx)).congr fun x => ?_
    rw [mem_cons, not_or, and_assoc]

theorem bootEntries (hmm : ∀ e ∈ mm, e.usable → e.last / 4096 ≤ highest) :
    Booting highest (fun x => p x ∨ Usable mm x) (mm.foldl bootEntry m) := by
  induction mm generalizing p m with
  | nil => exact h.congr fun x => by simp [Usable]
  | cons e mm ih =>
    have hentry : Booting highest
        (fun x => p x ∨ e.usable = true ∧ x ∈ e.frames) (bootEntry m e) := by
      rw [bootEntry]
      split
      · rename_i hu
        refine (h.bootFrees e.frames fun f hf => ?_).congr fun x => by simp [hu]
        have hlast := hmm e mem_cons_self hu
        have hin := ((e.mem_frames f).mp hf).2
        rw [MemmapEntry.last] at hlast
        omega
      · rename_i hu
        exact h.congr fun x => by simp [hu]
    refine (ih hentry fun e' he' => hmm e' (mem_cons_of_mem e he')).congr fun x => ?_
    simp only [Usable, mem_cons, exists_eq_or_imp, e.mem_frames, or_assoc]

end Booting

theorem le_highestAddress {e : MemmapEntry} (he : e ∈ mm) (hu : e.usable) :
    e.last ≤ highestAddress mm := by
  have hfold : ∀ (mm : List MemmapEntry) (high : ℕ), high ≤ mm.foldl
      (fun highest e => if e.usable && highest < e.last then e.last else highest) high ∧ ∀ e ∈ mm,
      e.usable = true → e.last ≤ mm.foldl
      (fun highest e => if e.usable && highest < e.last then e.last else highest) high := by
    intro mm
    induction mm with
    | nil => exact fun high => ⟨le_rfl, fun e he => by cases he⟩
    | cons d mm ih =>
      intro high
      obtain ⟨hle, hmem⟩ := ih (if d.usable && high < d.last then d.last else high)
      have hstep : high ≤ (if d.usable && high < d.last then d.last else high) ∧
          (d.usable = true → d.last ≤ (if d.usable && high < d.last then d.last else high)) := by
        by_cases hu : d.usable = true
        · by_cases hlt : high < d.last
          · simp [hu, hlt, hlt.le]
          · simp [hlt, Nat.le_of_not_lt hlt]
        · simp [hu]
      refine ⟨hstep.1.trans hle, fun e he hu => ?_⟩
      rcases mem_cons.mp he with rfl | he
      · exact (hstep.2 hu).trans hle
      · exact hmem e he hu
  exact (hfold mm 0).2 e he hu

/-- The frames the allocator may ever hand out, when the bitmap has `bytes` bytes at `base`: whole
frames of usable memory, past the first megabyte and clear of the bitmap. -/
def Grantable (mm : List MemmapEntry) (base bytes f : ℕ) : Prop :=
  Usable mm f ∧ 0x100000 ≤ f * 4096 ∧ (base + bytes ≤ f * 4096 ∨ (f + 1) * 4096 ≤ base)

/-- What stands in the bitmap's place. -/
structure Placed (mm : List MemmapEntry) (base bytes : ℕ) : Prop where
  aligned : base % 4096 = 0
  room : ∃ e ∈ mm, e.usable = true ∧ base + bytes ≤ e.last / 4096 * 4096

theorem bitmapBase_placed {bytes base : ℕ} (h : bitmapBase mm bytes = some base) :
    Placed mm base bytes := by
  obtain ⟨e, he, rfl⟩ := Option.map_eq_some_iff.mp h
  have hp := find?_some he
  simp only [Bool.and_eq_true, decide_eq_true_eq] at hp
  refine ⟨Nat.mul_mod_left _ _, e, mem_of_find?_eq_some he, hp.1.1.1, ?_⟩
  rw [pageAlignDown] at hp
  omega

theorem Placed.mem_bitmapFrames {base bytes : ℕ} (h : Placed mm base bytes) (f : ℕ) :
    f ∉ bitmapFrames base bytes ↔
      base + bytes ≤ f * 4096 ∨ (f + 1) * 4096 ≤ base := by
  obtain ⟨e, -, -, hlast⟩ := h.room
  have hfits := e.fits
  rw [MemmapEntry.last] at hlast
  rw [bitmapFrames, mem_range'_1, pageAlignUp_div (by omega)]
  omega

/-- The frames that boot leaves to the allocator; none if there is no room for a bitmap. -/
def BootFrames (mm : List MemmapEntry) (f : ℕ) : Prop :=
  ∃ base, bitmapBase mm (bitmapBytes (highestAddress mm / 4096)) = some base ∧
    Grantable mm base (bitmapBytes (highestAddress mm / 4096)) f

theorem pmmInit_booting (m : Machine) (mm : List MemmapEntry) :
    Booting (highestAddress mm / 4096) (BootFrames mm) (pmmInit m mm).1 := by
  rw [pmmInit]
  have hhigh : ∀ e ∈ mm, e.usable → e.last / 4096 ≤ highestAddress mm / 4096 :=
    fun e he hu => Nat.div_le_div_right (le_highestAddress he hu)
  cases hb : bitmapBase mm (bitmapBytes (highestAddress mm / 4096)) with
  | none => exact (Booting.blank m _).congr fun f => by simp [BootFrames, hb]
  | some base =>
    have hplaced := bitmapBase_placed hb
    have hentries := (Booting.blank m _).bootEntries hhigh
    have hbitmap := hentries.bootTakes
      (bitmapFrames base (bitmapBytes (highestAddress mm / 4096))) fun f hf => by
        obtain ⟨e, he, hu, hlast⟩ := hplaced.room
        have hfits := e.fits
        rw [← MemmapEntry.last] at hfits
        have hle := hhigh e he hu
        rw [bitmapFrames, mem_range'_1, pageAlignUp_div (by omega)] at hf
        omega
    have hlow := hbitmap.bootTakes (range (min lowFrames (highestAddress mm / 4096)))
      fun f hf => (mem_range.mp hf).trans_le (min_le_right _ _)
    refine hlow.congr fun f => ?_
    have hin : Usable mm f → f < highestAddress mm / 4096 := by
      rintro ⟨e, he, hu, -, hlast⟩
      have hle := hhigh e he hu
      rw [MemmapEntry.last] at hle
      omega
    have hrange : f ∉ range (min lowFrames (highestAddress mm / 4096)) ↔
        lowFrames ≤ f ∨ highestAddress mm / 4096 ≤ f := by
      rw [mem_range, lt_min_iff, not_and_or, not_lt, not_lt]
    have hmega : 0x100000 ≤ f * 4096 ↔ lowFrames ≤ f := by
      rw [lowFrames]
      omega
    simp only [BootFrames, hb, Option.some.injEq, exists_eq_left', Grantable,
      hplaced.mem_bitmapFrames, hrange, hmega, false_or]
    constructor
    · rintro ⟨⟨hu, hbit⟩, hf⟩
      exact ⟨hu, hf.resolve_right (hin hu).not_ge, hbit⟩
    · rintro ⟨hu, hf, hbit⟩
      exact ⟨⟨hu, hbit⟩, .inl hf⟩

theorem pmmInit_ledger (m : Machine) (mm : List MemmapEntry) :
    Ledger (BootFrames mm) ⟨(pmmInit m mm).1, []⟩ := by
  have h := pmmInit_booting m mm
  refine ⟨fun f => by simp [h.free f], fun f hf => (not_mem_nil hf).elim, nodup_nil, ?_,
    fun f hf => ?_, h.count, fun r hr => ?_⟩
  · rintro f ⟨base, -, ⟨e, he, hu, -, hlast⟩, hlow, -⟩
    have hle := le_highestAddress he hu
    rw [MemmapEntry.last] at hle
    refine ⟨?_, ?_⟩
    · rw [lowFrames]
      omega
    · rw [h.highest]
      omega
  · rw [h.hint] at hf
    omega
  · simp [h.ref] at hr

/-! ## Whole runs -/

theorem Ledger.step_contig (h : Ledger grantable s) (n : ℕ) :
    Ledger grantable ⟨(pmmAllocContig s.m n).1, if (pmmAllocContig s.m n).2 = 0 then s.held
      else range' (pmmAllocContig s.m n).2 n ++ s.held⟩ := by
  by_cases hn : n = 0
  · subst hn
    exact h
  rcases h.contig hn with ⟨heq, -⟩ | ⟨start, hne, hrun, hhi, heq⟩
  · rwa [heq]
  rw [heq]
  rw [if_neg hne]
  exact h.takeRun hrun hhi

theorem Ledger.step_refInit (h : Ledger grantable s) :
    Ledger grantable ⟨(pmmRefInit s.m).1, if (pmmRefInit s.m).2 = 0 then s.held
      else range' (pmmRefInit s.m).2 (pageAlignUp (s.m.highest * 2) / 4096) ++ s.held⟩ := by
  have htaken := h.step_contig (pageAlignUp (s.m.highest * 2) / 4096)
  by_cases hsome : s.m.ref.isSome = true
  · rwa [pmmRefInit, if_pos hsome]
  rw [pmmRefInit, if_neg hsome]
  generalize pageAlignUp (s.m.highest * 2) / 4096 = n at htaken ⊢
  rcases hr : pmmAllocContig s.m n with ⟨m', start⟩
  rw [hr] at htaken
  cases start with
  | zero => exact htaken
  | succ start => exact htaken.refTable

theorem FrameCall.step_ledger (h : Ledger grantable s) (ready : Bool) (c : FrameCall) :
    Ledger grantable (c.step ready s).1 := by
  cases ready with
  | false => cases c <;> exact h
  | true =>
    cases c with
    | once =>
      simp only [step]
      rcases h.once with ⟨heq, -⟩ | ⟨f, w, hne, hfree, hfull, heq⟩
      · rwa [heq]
      rw [heq]
      rw [if_neg hne]
      exact h.take hfree hfull _
    | contig n => exact h.step_contig n
    | free f =>
      simp only [step]
      split
      · exact h
      · rename_i hf
        exact h.give (by simpa using hf)
    | refInit => exact h.step_refInit

theorem FrameCall.step_unready (s : Leases) (c : FrameCall) : (c.step false s).1 = s := by
  cases c <;> rfl

/-- Without a bitmap every frame counts as taken. -/
theorem pmmInit_unready {m : Machine} (h : (pmmInit m mm).2 = false) (f : ℕ) :
    (pmmInit m mm).1.used f := by
  rw [pmmInit] at h ⊢
  split at h
  · rfl
  · cases h

/-- What callers rely on in one state of the allocator. -/
structure Provided (mm : List MemmapEntry) (ready : Bool) (s : Leases) : Prop where
  free : ∀ f, s.m.used f = false ↔ BootFrames mm f ∧ f ∉ s.held
  counted : s.m.freeFrames = (Bitmap.clear s.m.used (bitmapWords s.m * 64)).card
  hintFull : ∀ w < s.m.hint, wordFull s.m.used w = true
  oneOwner : s.held.Nodup
  granted : ∀ f ∈ s.held, BootFrames mm f
  onceFresh : ∀ f, (FrameCall.step ready s .once).2 = f → f ≠ 0 → BootFrames mm f ∧ f ∉ s.held
  contigFresh : ∀ n start, (FrameCall.step ready s (.contig n)).2 = start → start ≠ 0 →
    ∀ f, start ≤ f → f < start + n → BootFrames mm f ∧ f ∉ s.held
  onceFails : (FrameCall.step ready s .once).2 = 0 → ∀ f < bitmapWords s.m * 64, s.m.used f = true
  contigFails : ∀ n, 0 < n → (FrameCall.step ready s (.contig n)).2 = 0 →
    ∀ start, ¬ ClearRun s.m start n

theorem Ledger.provided {ready : Bool} (h : Ledger (BootFrames mm) s)
    (hready : ready = false → ∀ f, s.m.used f) : Provided mm ready s := by
  have hunready : ready = false → ∀ n, 0 < n → ∀ start, ¬ ClearRun s.m start n := by
    intro hr n hn start hrun
    have hclear := hrun start le_rfl (by omega)
    simp [hready hr start] at hclear
  refine ⟨h.free, h.count, fun w hw => wordFull_iff.mpr fun b hb => h.full _ (by omega), h.nodup,
    h.held, fun f hf hne => ?_, fun n start hs hne => ?_, fun hf f _ => ?_, fun n hn hs => ?_⟩
  · cases ready with
    | false => exact absurd hf.symm hne
    | true =>
      simp only [FrameCall.step] at hf
      rcases h.once with ⟨heq, -⟩ | ⟨x, w, -, hfree, -, heq⟩
      · rw [heq] at hf
        exact absurd hf.symm hne
      rw [heq] at hf
      subst hf
      exact (h.free x).mp hfree
  · cases ready with
    | false => exact absurd hs.symm hne
    | true =>
      simp only [FrameCall.step] at hs
      by_cases hn : n = 0
      · intro f hlo hhi
        omega
      rcases h.contig hn with ⟨heq, -⟩ | ⟨x, -, hrun, -, heq⟩
      · rw [heq] at hs
        exact absurd hs.symm hne
      rw [heq] at hs
      subst hs
      exact fun f hlo hhi => (h.free f).mp (hrun f hlo hhi)
  · cases ready with
    | false => exact hready rfl f
    | true =>
      simp only [FrameCall.step] at hf
      rcases h.once with ⟨-, hall⟩ | ⟨x, w, hne, -, -, heq⟩
      · exact hall f
      · rw [heq] at hf
        exact absurd hf hne
  · cases ready with
    | false => exact hunready rfl n hn
    | true =>
      simp only [FrameCall.step] at hs
      rcases h.contig hn.ne' with ⟨-, hnone⟩ | ⟨x, hne, -, -, heq⟩
      · exact hnone
      · rw [heq] at hs
        exact absurd hs hne

/-- Whatever the memory map, and whatever the calls: what is counted, what is full, who owns what,
and that a search only fails for want of frames. -/
theorem frames_provided (m : Machine) (mm : List MemmapEntry) (calls : List FrameCall) :
    Provided mm (pmmInit m mm).2
      (calls.foldl (fun s c => (c.step (pmmInit m mm).2 s).1) ⟨(pmmInit m mm).1, []⟩) := by
  have hcalls : Run.Meets (fun s c => (FrameCall.step (pmmInit m mm).2 s c).1) (fun _ _ => True)
      ⟨(pmmInit m mm).1, []⟩ calls := Run.Meets.trivial _ calls
  have hinv := Run.invariant
    (I := fun s => Ledger (BootFrames mm) s ∧ ((pmmInit m mm).2 = false → ∀ f, s.m.used f = true))
    (fun s c h _ => ⟨c.step_ledger h.1 _, fun hr f => ?_⟩)
    ⟨pmmInit_ledger m mm, pmmInit_unready⟩ hcalls
  · exact hinv.1.provided hinv.2
  · rw [hr, FrameCall.step_unready]
    exact h.2 hr f

-- Four frames past the first megabyte, the first of which holds the bitmap.
example : (FrameCall.step true ⟨(pmmInit oneProcess [⟨0x100000, 0x4000, true, by decide⟩]).1, []⟩
    (.contig 3)).2 = 257 := by decide +kernel

end Vextro.Paging
