import Vextro.Verification.Images.Elf
import Vextro.Verification.Paging.ImagePages

/-! Which accepted files make a page that may be written and run. -/

namespace Vextro.Images

open Regions Region

section Vx

open Option

variable {h : VxHeader} {size : ℕ}

/-- The fields are numbers of 64 bits. -/
structure VxHeader.InRange (h : VxHeader) : Prop where
  entry : h.entry < 2 ^ 64
  textOff : h.textOff < 2 ^ 64
  textSize : h.textSize < 2 ^ 64
  dataOff : h.dataOff < 2 ^ 64
  dataSize : h.dataSize < 2 ^ 64
  textVaddr : h.textVaddr < 2 ^ 64
  dataVaddr : h.dataVaddr < 2 ^ 64
  bssSize : h.bssSize < 2 ^ 64

theorem vxHeader_inRange (b : ℕ → UInt8) : (vxHeader b).InRange := by
  have hlt : ∀ offset, rdLE 8 b offset < 2 ^ 64 := fun offset => rdLE_lt 8 b offset
  exact ⟨hlt 8, hlt 16, hlt 24, hlt 32, hlt 40, hlt 48, hlt 56, hlt 64⟩

theorem vxHeader_congr {b b' : ℕ → UInt8} (h : ∀ i < vxHeaderSize, b' i = b i) :
    vxHeader b' = vxHeader b := by
  have hrd : ∀ n offset, offset + n ≤ vxHeaderSize → rdLE n b' offset = rdLE n b offset :=
    fun n offset hle =>
    rdLE_congr fun k _ hk => h k (by omega)
  have hmagic : (List.range 4).map b' = (List.range 4).map b := List.map_congr_left
    fun i hi => h i (by have := List.mem_range.mp hi; unfold vxHeaderSize; omega)
  unfold vxHeader
  rw [hmagic, hrd 4 4 (by decide), hrd 8 8 (by decide), hrd 8 16 (by decide), hrd 8 24 (by decide),
    hrd 8 32 (by decide), hrd 8 40 (by decide), hrd 8 48 (by decide), hrd 8 56 (by decide),
    hrd 8 64 (by decide)]

/-- What `vx_validate` has checked. -/
structure Accepted (h : VxHeader) (size : ℕ) : Prop where
  header : vxHeaderSize ≤ size
  textPos : 0 < h.textSize
  textFile : h.textOff + h.textSize ≤ size
  textAlign : h.textVaddr % 4096 = 0
  textPage : 4096 ≤ h.textOff
  textEnd : h.textVaddr + h.textSize < 2 ^ 64
  dataFile : h.dataSize ≠ 0 → h.dataOff + h.dataSize ≤ size
  dataEnd : h.hasData = true → h.dataVaddr + h.dataSize + h.bssSize < 2 ^ 64
  dataApart : h.hasData = true → u64 (h.textVaddr + vxRoundUp h.textSize vxPageSize) ≤ h.dataVaddr

theorem ite_some_eq_none {α : Type*} {c : Prop} [Decidable c] {why : α} {rest : Option α} :
    (if c then some why else rest) = none ↔ ¬ c ∧ rest = none := by
  split <;> simp [*]

theorem accepted (hr : h.InRange) (hv : vxValidate h size = none) : Accepted h size := by
  have := hr.dataVaddr
  unfold vxValidate at hv
  simp only [ite_some_eq_none] at hv
  obtain ⟨hheader, -, -, hpos, htext, hoff, halign, hcongr, hend, hdata, -, -, -, hdend, hapart, -,
    -, -⟩ := hv
  unfold vxPageSize vxHeaderSize at *
  refine ⟨by unfold vxHeaderSize; omega, by omega, by omega, by omega, by omega, by omega,
    by omega, fun hd => ?_, fun hd => ?_⟩
  · have := not_and.mp hdend hd
    omega
  · exact Nat.le_of_not_lt (not_and.mp hapart hd)

/-- Rounding up a size that comes out of a file does not wrap. -/
theorem Accepted.roundUp (ha : Accepted h size) (hsize : size < 2 ^ 64) :
    vxRoundUp h.textSize vxPageSize = (h.textSize + 4095) / 4096 * 4096 := by
  have := ha.textFile
  have := ha.textPage
  have hmod : (h.textSize + 4096 - 1) % 2 ^ 64 = h.textSize + 4095 := Nat.mod_eq_of_lt (by omega)
  rw [vxRoundUp, u64, vxPageSize, hmod]

theorem sub64_of_le {a b : ℕ} (h : b ≤ a) (ha : a < 2 ^ 64) : sub64 a b = a - b := by
  unfold sub64
  omega

/-- The span reaches to the end of the text, and to the end of the data behind it. -/
theorem Accepted.span (ha : Accepted h size) : h.textSize ≤ vxImageSpan h ∧
      (h.hasData = true → h.textVaddr ≤ h.dataVaddr →
        h.dataVaddr - h.textVaddr + h.dataSize + h.bssSize ≤ vxImageSpan h) := by
  have htext := ha.textEnd
  have hend : u64 (h.textVaddr + h.textSize) = h.textVaddr + h.textSize := Nat.mod_eq_of_lt htext
  unfold vxImageSpan vxImageEnd
  rw [hend]
  by_cases hd : h.hasData = true
  · have hdata := ha.dataEnd hd
    have hdend : u64 (h.dataVaddr + h.dataSize + h.bssSize) = h.dataVaddr + h.dataSize +
        h.bssSize := Nat.mod_eq_of_lt hdata
    simp only [hd, if_true, hdend]
    split
    · rw [sub64_of_le (by omega) hdata]
      omega
    · rw [sub64_of_le (by omega) htext]
      omega
  · simp only [hd, Bool.false_eq_true, if_false, false_imp_iff, and_true]
    rw [sub64_of_le (by omega) htext]
    omega

/-! ## Loading -/

/-- The data segment starts on a page behind the last one with text. -/
def VxHeader.DataBehind (h : VxHeader) : Prop :=
  (h.textVaddr + h.textSize - 1) / 4096 < h.dataVaddr / 4096

/-- The loader comes as far as placing the segments. -/
def VxHeader.Placed (arena : Bool) (h : VxHeader) : Prop :=
  arena = true ∧ vxImageSpan h ≤ appMemSize

/-- Behind the page that the text ends on there is another one. -/
def VxHeader.TextEnds (h : VxHeader) : Prop :=
  h.textVaddr + vxRoundUp h.textSize vxPageSize < 2 ^ 64

theorem dataBehind_iff (ha : Accepted h size) (hsize : size < 2 ^ 64) (hr : h.InRange)
    (hd : h.hasData) :
    h.DataBehind ↔ h.TextEnds := by
  have hround := ha.roundUp hsize
  have hapart := ha.dataApart hd
  have halign := ha.textAlign
  have hpos := ha.textPos
  have hvaddr := hr.dataVaddr
  unfold VxHeader.DataBehind VxHeader.TextEnds
  unfold u64 at hapart
  constructor <;> intro <;> omega

/-- The protections that `load_vx_image` marks. -/
def vxProt (h : VxHeader) : ℕ → UInt8 :=
  let prot := appMarkProt (fun _ => 0) 0 h.textSize (aprotRead ||| aprotExec)
  if h.textVaddr ≤ h.dataVaddr then
    appMarkProt prot (sub64 h.dataVaddr h.textVaddr)
      (sub64 (vxImageSpan h) (sub64 h.dataVaddr h.textVaddr)) (aprotRead ||| aprotWrite)
  else prot

/-- The loader once the header is accepted: the text, the data, and the imports. -/
def placeVx (exports : List Export) (h : VxHeader) (file : Region) : Option (Option Loaded) :=
  (Region.copy file h.textOff (.zeros appMemSize) 0 h.textSize).bind fun mem =>
    (if h.dataSize = 0 then some mem
      else Region.copy file h.dataOff mem (sub64 h.dataVaddr h.textVaddr) h.dataSize).bind
        fun mem =>
      (vxResolveImports exports mem (vxImageSpan h)).map fun r =>
        r.1.map fun _ => ⟨h.entry, h.textVaddr, vxImageSpan h, vxProt h, r.2⟩

variable {arena : Bool} {exports : List Export} {file : Region}

theorem sub64_self (a : ℕ) : sub64 a a = 0 := by
  unfold sub64
  rw [Nat.add_sub_cancel_left, Nat.mod_self]

/-- The file is refused before a segment is placed. -/
def vxUnfit (arena : Bool) (file : Region) : Bool :=
  file.size < vxHeaderSize || (vxValidate (vxHeader file.bytes) file.size).isSome ||
    appMemSize < vxImageSpan (vxHeader file.bytes) || !arena

theorem loadVxImage_eq (hsize : file.size < 2 ^ 64) : loadVxImage arena exports file =
      if vxUnfit arena file then some none else placeVx exports (vxHeader file.bytes) file := by
  by_cases hheader : file.size < vxHeaderSize
  · rw [loadVxImage, if_pos hheader, vxUnfit, decide_eq_true hheader]
    rfl
  -- the copy of the header is the header
  have hcopy : Region.copy file 0 (.zeros vxHeaderSize) 0 vxHeaderSize =
      some (patched file 0 (.zeros vxHeaderSize) 0 vxHeaderSize) :=
    copy_of_le hsize (by decide) (.inr ⟨by omega, by decide⟩)
  have hbytes : vxHeader
      (patched file 0 (.zeros vxHeaderSize) 0 vxHeaderSize).bytes = vxHeader file.bytes :=
    vxHeader_congr fun i hi => by rw [patched_bytes, if_pos (by omega), Nat.zero_add, Nat.sub_zero]
  rw [loadVxImage, if_neg hheader, hcopy, bind_some, vxUnfit, decide_eq_false hheader]
  simp only [hbytes, sub64_self]
  by_cases hv : (vxValidate (vxHeader file.bytes) file.size).isSome = true
  · simp [hv]
  by_cases hspan : appMemSize < vxImageSpan (vxHeader file.bytes)
  · simp [hspan]
  · cases arena <;> simp [hv, placeVx, vxProt]

theorem placed_of_fit (h : vxUnfit arena file = false) :
    vxValidate (vxHeader file.bytes) file.size = none ∧ (vxHeader file.bytes).Placed arena := by
  simp only [vxUnfit, Bool.or_eq_false_iff, decide_eq_false_iff_not, Bool.not_eq_false',
    isSome_eq_false_iff, isNone_iff_eq_none] at h
  exact ⟨h.1.1.2, h.2, Nat.le_of_not_lt h.1.2⟩

theorem placeVx_isSome (hr : h.InRange) (ha : Accepted h file.size) (hsize : file.size < 2 ^ 64)
    (hspan : vxImageSpan h ≤ appMemSize) (hd : h.hasData → h.DataBehind) :
    (placeVx exports h file).isSome := by
  have happ : appMemSize < 2 ^ 64 := by decide
  have htext : Region.copy file h.textOff (.zeros appMemSize) 0 h.textSize =
      some (patched file h.textOff (.zeros appMemSize) 0 h.textSize) :=
    copy_of_le hsize happ (.inr ⟨ha.textFile, by
      have := ha.span.1
      show 0 + h.textSize ≤ appMemSize
      omega⟩)
  have hresolve : ∀ mem : Region, mem.size = appMemSize →
      ((vxResolveImports exports mem (vxImageSpan h)).map fun r =>
        r.1.map fun _ => (⟨h.entry, h.textVaddr, vxImageSpan h, vxProt h, r.2⟩ : Loaded)).isSome =
          true := by
    intro mem hmem
    obtain ⟨r, mem', heq, -⟩ := vxResolveImports_spec exports (hspan.trans hmem.ge)
    rw [heq]
    rfl
  rw [placeVx, htext, bind_some]
  by_cases h0 : h.dataSize = 0
  · rw [if_pos h0, bind_some]
    exact hresolve _ rfl
  have hdata : h.hasData := by simp [VxHeader.hasData, h0]
  have hbehind : h.textVaddr ≤ h.dataVaddr := by
    have := hd hdata
    unfold VxHeader.DataBehind at *
    omega
  have hplace : sub64 h.dataVaddr h.textVaddr = h.dataVaddr - h.textVaddr :=
    sub64_of_le hbehind hr.dataVaddr
  rw [if_neg h0, copy_of_le hsize happ (.inr ⟨ha.dataFile h0, by
    have := ha.span.2 hdata hbehind
    show _ ≤ appMemSize
    omega⟩), bind_some]
  exact hresolve _ rfl

/-- `load_vx_image` keeps to the file and the buffer, with the data behind the text, if and only if
the text of an image that it places does not end on the last page there is. -/
theorem loadVxImage_safe_iff (arena : Bool) (exports : List Export) (file : Region)
    (hsize : file.size < 2 ^ 64) (hv : vxValidate (vxHeader file.bytes) file.size = none) :
    ((loadVxImage arena exports file).isSome = true ∧
        ((vxHeader file.bytes).Placed arena → (vxHeader file.bytes).hasData = true →
          (vxHeader file.bytes).DataBehind)) ↔
      ((vxHeader file.bytes).Placed arena → (vxHeader file.bytes).hasData = true →
        (vxHeader file.bytes).TextEnds) := by
  have hr := vxHeader_inRange file.bytes
  have ha := accepted hr hv
  constructor
  · rintro ⟨-, hbehind⟩ hp hd
    exact (dataBehind_iff ha hsize hr hd).mp (hbehind hp hd)
  intro hends
  have hbehind : (vxHeader file.bytes).Placed arena →
      (vxHeader file.bytes).hasData = true → (vxHeader file.bytes).DataBehind :=
    fun hp hd => (dataBehind_iff ha hsize hr hd).mpr (hends hp hd)
  refine ⟨?_, hbehind⟩
  rw [loadVxImage_eq hsize]
  split
  · rfl
  next hfit =>
    have hp := (placed_of_fit (Bool.eq_false_iff.mpr hfit)).2
    exact placeVx_isSome hr ha hsize hp.2 (hbehind hp)

/-- A file with one byte of text and one of data behind a header of a page. -/
def vxFile (textVaddr dataVaddr dataSize : ℕ) : Region where
  size := 4097
  bytes :=
  wrLE 8 (wrLE 8 (wrLE 8 (wrLE 8 (wrLE 8 (wrLE 8 (wrLE 8 (wrLE 4 (wrLE 4 (fun _ => 0) 0 0x6458567F)
    4 1) 8 textVaddr) 16 4096) 24 1) 32 4096) 40 dataSize) 48 textVaddr) 56 dataVaddr

theorem loadVxImage_safe_two_pages :
    (loadVxImage true [] (vxFile 0x400000 0x401000 1)).isSome = true ∧
      ((vxHeader (vxFile 0x400000 0x401000 1).bytes).Placed true →
        (vxHeader (vxFile 0x400000 0x401000 1).bytes).hasData = true →
          (vxHeader (vxFile 0x400000 0x401000 1).bytes).DataBehind) :=
  (loadVxImage_safe_iff true [] (vxFile 0x400000 0x401000 1) (by decide) (by decide +kernel)).mpr
    fun _ _ => by unfold VxHeader.TextEnds; decide +kernel

/-- The text is on the last page: the sum in `vx_validate` is zero, and the data may lie anywhere.
-/
theorem loadVxImage_outside :
    vxValidate (vxHeader (vxFile (2 ^ 64 - 4096) (2 ^ 40) 1).bytes)
    (vxFile (2 ^ 64 - 4096) (2 ^ 40) 1).size = none ∧
      (loadVxImage true [] (vxFile (2 ^ 64 - 4096) (2 ^ 40) 1)).isNone = true := by
  constructor <;> decide +kernel

end Vx

variable {p : ℕ} {bit : UInt8} {file : Region}

/-! ## Marks -/

theorem or_and_ne_zero {a b c : UInt8} : (a ||| b) &&& c ≠ 0 ↔ a &&& c ≠ 0 ∨ b &&& c ≠ 0 := by
  have hdistrib : (a ||| b) &&& c = (a &&& c) ||| (b &&& c) := by
    apply UInt8.toBitVec_inj.mp
    ext i hi
    simp [Bool.and_or_distrib_right]
  rw [hdistrib, ne_eq, UInt8.or_eq_zero_iff, not_and_or]

/-- The pages that `app_mark_prot` marks. -/
def covers (off len p : ℕ) : Prop :=
  off / 4096 ≤ p ∧ p < u64 (off + len + 4095) / 4096 ∧ p < appMaxPages

instance (off len p : ℕ) : Decidable (covers off len p) := inferInstanceAs (Decidable (_ ∧ _ ∧ _))

theorem appMarkProt_asks {prot : ℕ → UInt8} {off len : ℕ} {x : UInt8} :
    appMarkProt prot off len x p &&& bit ≠ 0 ↔
    covers off len p ∧ x &&& bit ≠ 0 ∨ prot p &&& bit ≠ 0 := by
  unfold appMarkProt covers
  split
  · next h => rw [or_and_ne_zero, or_comm, and_iff_right h]
  · next h => rw [or_iff_right fun hc => h hc.1]

/-! ## `.vx` files -/

/-- The data address is not on a page of the text. -/
def vxApart (file : Region) : Prop :=
  (vxHeader file.bytes).textVaddr ≤ (vxHeader file.bytes).dataVaddr →
    (vxHeader file.bytes).textVaddr + vxRoundUp (vxHeader file.bytes).textSize vxPageSize ≤
      (vxHeader file.bytes).dataVaddr

theorem vxProt_write {h : VxHeader} : vxProt h p &&& aprotWrite ≠ 0 ↔
    h.textVaddr ≤ h.dataVaddr ∧ covers (sub64 h.dataVaddr h.textVaddr)
      (sub64 (vxImageSpan h) (sub64 h.dataVaddr h.textVaddr)) p := by
  unfold vxProt
  split
  · next hle => simp +decide [appMarkProt_asks, hle]
  · next hle => simp +decide [appMarkProt_asks, hle]

theorem vxProt_exec {h : VxHeader} : vxProt h p &&& aprotExec ≠ 0 ↔ covers 0 h.textSize p := by
  unfold vxProt
  split <;> simp +decide [appMarkProt_asks]

theorem loaded_vx {arena : Bool} {exports : List Export} {l : Loaded} (hsize : file.size < 2 ^ 64)
    (hl : loadVxImage arena exports file = some (some l)) :
    Accepted (vxHeader file.bytes) file.size ∧ vxImageSpan (vxHeader file.bytes) ≤ appMemSize ∧
      l.span = vxImageSpan (vxHeader file.bytes) ∧ l.prot = vxProt (vxHeader file.bytes) := by
  rw [loadVxImage_eq hsize] at hl
  split at hl
  · cases hl
  next hfit =>
    obtain ⟨hv, hp⟩ := placed_of_fit (Bool.eq_false_iff.mpr hfit)
    obtain ⟨mem, -, hl⟩ := Option.bind_eq_some_iff.mp hl
    obtain ⟨mem', -, hl⟩ := Option.bind_eq_some_iff.mp hl
    obtain ⟨r, -, hl⟩ := Option.map_eq_some_iff.mp hl
    obtain ⟨n, -, hl⟩ := Option.map_eq_some_iff.mp hl
    refine ⟨accepted (vxHeader_inRange file.bytes) hv, hp.2, ?_, ?_⟩
    · rw [← hl]
    · rw [← hl]

theorem vx_asksBoth_iff (hsize : file.size < 2 ^ 64) (ha : Accepted (vxHeader file.bytes) file.size)
    (hspan : vxImageSpan (vxHeader file.bytes) ≤ appMemSize) :
    (∀ p < (vxImageSpan (vxHeader file.bytes) + 4095) / 4096,
      ¬ (vxProt (vxHeader file.bytes) p &&& aprotWrite ≠ 0 ∧
        vxProt (vxHeader file.bytes) p &&& aprotExec ≠ 0)) ↔
      vxApart file := by
  have hr := vxHeader_inRange file.bytes
  have hround := ha.roundUp hsize
  have htext := ha.span.1
  unfold vxApart
  simp only [vxProt_write, vxProt_exec]
  generalize vxHeader file.bytes = h at hr ha hround htext hspan ⊢
  have happ : appMemSize = 4194304 := rfl
  -- the marks for the data go on to the end of the image
  have hmark : ∀ p, h.textVaddr ≤ h.dataVaddr → (covers
      (sub64 h.dataVaddr h.textVaddr) (sub64 (vxImageSpan h) (sub64 h.dataVaddr h.textVaddr)) p ↔
      (h.dataVaddr - h.textVaddr) / 4096 ≤ p ∧ p < (vxImageSpan h + 4095) / 4096) := by
    intro p hle
    have := hr.dataVaddr
    unfold covers sub64 u64 appMaxPages
    omega
  have hexec : ∀ p, covers 0 h.textSize p ↔ p < (h.textSize + 4095) / 4096 := by
    intro p
    unfold covers u64 appMaxPages
    omega
  constructor
  · intro hno hle
    by_contra hlt
    have := hno ((h.dataVaddr - h.textVaddr) / 4096) (by omega)
    rw [hmark _ hle, hexec] at this
    exact this ⟨⟨hle, le_rfl, by omega⟩, by omega⟩
  · rintro hapart p - ⟨⟨hle, hw⟩, hx⟩
    rw [hmark p hle] at hw
    rw [hexec] at hx
    omega

/-! ## ELF files -/

/-- No page is in a segment that may be written and in one that may be run. -/
def elfApart (file : Region) : Prop :=
  ∀ w ∈ elfHeaders file, ∀ x ∈ elfHeaders file, segLoads file w = true → segLoads file x = true →
    (segFlags file w).testBit 1 = true → (segFlags file x).testBit 0 = true → ∀ p < appMaxPages,
      ¬ (covers (segPlace file (imageBase file) w) (segMemsz file w) p ∧
        covers (segPlace file (imageBase file) x) (segMemsz file x) p)

theorem elfProt_write {flags : ℕ} : elfProt flags &&& aprotWrite ≠ 0 ↔ flags.testBit 1 := by
  unfold elfProt
  cases flags.testBit 1 <;> cases flags.testBit 0 <;> decide

theorem elfProt_exec {flags : ℕ} : elfProt flags &&& aprotExec ≠ 0 ↔ flags.testBit 0 := by
  unfold elfProt
  cases flags.testBit 1 <;> cases flags.testBit 0 <;> decide

/-- A page asks for what a segment that covers it asks for. -/
theorem foldl_stage_asks {base : ℕ} (phs : List ℕ) (s : Staged) :
    (phs.foldl (stage file base) s).prot p &&& bit ≠ 0 ↔
      s.prot p &&& bit ≠ 0 ∨ ∃ ph ∈ phs, segLoads file ph ∧
        covers (segPlace file base ph) (segMemsz file ph) p ∧
        elfProt (segFlags file ph) &&& bit ≠ 0 := by
  induction phs generalizing s with
  | nil => simp
  | cons ph rest ih =>
    rw [List.foldl_cons, ih]
    cases hloads : segLoads file ph with
    | false => simp [stage, hloads]
    | true =>
      have hprot : (stage file base s ph).prot p &&& bit ≠ 0 ↔ covers (segPlace file base ph)
          (segMemsz file ph) p ∧ elfProt (segFlags file ph) &&& bit ≠ 0 ∨ s.prot p &&& bit ≠ 0 := by
        rw [stage, if_pos hloads]
        exact appMarkProt_asks
      rw [hprot]
      simp only [List.mem_cons, exists_eq_or_imp, hloads, true_and]
      rw [or_assoc, or_left_comm]

theorem elfImage_asks :
    (elfImage file).prot p &&& bit ≠ 0 ↔ ∃ ph ∈ elfHeaders file, segLoads file ph ∧
      covers (segPlace file (imageBase file) ph) (segMemsz file ph) p ∧
      elfProt (segFlags file ph) &&& bit ≠ 0 := by
  unfold elfImage
  rw [foldl_stage_asks]
  simp

theorem span_le_foldl_stage (base : ℕ) (phs : List ℕ) (s : Staged) :
    s.span ≤ (phs.foldl (stage file base) s).span ∧ ∀ ph ∈ phs, segLoads file ph →
      u64 (segPlace file base ph + segMemsz file ph) ≤ (phs.foldl (stage file base) s).span := by
  induction phs generalizing s with
  | nil => exact ⟨le_rfl, by simp⟩
  | cons ph rest ih =>
    obtain ⟨hle, hrest⟩ := ih (stage file base s ph)
    have hstep : s.span ≤ (stage file base s ph).span ∧ (segLoads file ph = true →
        u64 (segPlace file base ph + segMemsz file ph) ≤ (stage file base s ph).span) := by
      unfold stage
      split
      · simp only
        split <;> omega
      · next hno => exact ⟨le_rfl, fun h => absurd h hno⟩
    refine ⟨hstep.1.trans hle, fun x hx hl => ?_⟩
    rcases List.mem_cons.mp hx with rfl | hx
    · exact (hstep.2 hl).trans hle
    · exact hrest x hx hl

theorem lt_of_covers {ph : ℕ} (hph : ph ∈ elfHeaders file) (hl : segLoads file ph)
    (h : covers (segPlace file (imageBase file) ph) (segMemsz file ph) p) :
    p < ((elfImage file).span + 4095) / 4096 := by
  have hspan := (span_le_foldl_stage (imageBase file) (elfHeaders file)
    ⟨.zeros appMemSize, fun _ => 0, 0⟩).2 ph hph hl
  rw [← elfImage] at hspan
  obtain ⟨hfirst, hlast, -⟩ := h
  unfold u64 at hspan hlast
  omega

theorem elf_asksBoth_iff (hspan : (elfImage file).span ≤ appMemSize) :
    (∀ p < ((elfImage file).span + 4095) / 4096,
      ¬ ((elfImage file).prot p &&& aprotWrite ≠ 0 ∧ (elfImage file).prot p &&& aprotExec ≠ 0)) ↔
      elfApart file := by
  have happ : appMemSize = 4194304 := rfl
  simp only [elfImage_asks, elfProt_write, elfProt_exec]
  constructor
  · rintro hno w hw x hx hlw hlx hbw hbx p - ⟨hcw, hcx⟩
    exact hno p (lt_of_covers hw hlw hcw) ⟨⟨w, hw, hlw, hcw, hbw⟩, x, hx, hlx, hcx, hbx⟩
  · rintro hapart p hp ⟨⟨w, hw, hlw, hcw, hbw⟩, x, hx, hlx, hcx, hbx⟩
    exact hapart w hw x hx hlw hlx hbw hbx p (by unfold appMaxPages; omega) ⟨hcw, hcx⟩

theorem loaded_elf {arena : Bool} {exports : List Export} {l : Loaded} (hsize : file.size < 2 ^ 64)
    (hl : loadElfImage arena exports file = some (some l)) :
    (elfImage file).span ≤ appMemSize ∧ l.span = (elfImage file).span ∧
    l.prot = (elfImage file).prot := by
  have hfits := elfFits_of_isSome hsize (Option.isSome_of_eq_some hl)
  obtain ⟨mem, heq⟩ := loadElfImage_of_fits exports hsize hfits
  rw [heq] at hl
  split at hl
  · cases hl
  next hr =>
    rw [← Option.some.inj (Option.some.inj hl)]
    refine ⟨(foldl_stage_span (Nat.zero_le _) rfl fun ph hph => ?_).1, rfl, rfl⟩
    simp only [elfRefused, Bool.or_eq_true, not_or] at hr
    simpa using List.any_eq_false.mp (Bool.eq_false_iff.mpr hr.1.2) ph hph

/-! ## Both -/

inductive Format where
  | vx
  | elf
deriving DecidableEq

def load (exports : List Export) (file : Region) : Format → Option (Option Loaded)
  | .vx => loadVxImage true exports file
  | .elf => loadElfImage true exports file

def Apart (file : Region) : Format → Prop
  | .vx => vxApart file
  | .elf => elfApart file

/-- The staged image, with the kernel's pages of some other. -/
def Loaded.image (l : Loaded) (kernel : Paging.Image) : Paging.Image := { kernel with
    base := l.base
    span := l.span
    prot := l.prot
    staged := fun p i => l.memory.bytes (p * 4096 + i) }

/-- After an accepted file, also one whose end wraps around, has been mapped into a new space, no
page of it may be written and run if and only if none of the file asks for it. -/
theorem load_writeXorExec_iff (exports : List Export) (file : Region) (format : Format)
    (hsize : file.size < 2 ^ 64) (l : Loaded) (hl : load exports file format = some (some l))
    (kernel : Paging.Image) (hin : (l.image kernel).inPlace = true) (m : Paging.Machine)
    (hm : Paging.Sane m) (a : ℕ) (hnew : Paging.NewSpace m a) (lay : Paging.Layout)
    (hok : (Paging.appMapImage m a (l.image kernel) lay).2 = true) :
    (∀ v, Paging.WxEntry ((Paging.appMapImage m a (l.image kernel) lay).1.pte a v)) ↔
      Apart file format := by
  have happ : appMemSize ≤ Paging.userImageMax := by decide
  cases format with
  | vx =>
    obtain ⟨ha, hspan, hspan', hprot⟩ := loaded_vx hsize hl
    rw [Paging.appMapImage_wx hm hnew hin (hspan'.trans_le (hspan.trans happ)) hok]
    have hiff := vx_asksBoth_iff hsize ha hspan
    rwa [← hspan', ← hprot] at hiff
  | elf =>
    obtain ⟨hspan, hspan', hprot⟩ := loaded_elf hsize hl
    rw [Paging.appMapImage_wx hm hnew hin (hspan'.trans_le (hspan.trans happ)) hok]
    have hiff := elf_asksBoth_iff hspan
    rwa [← hspan', ← hprot] at hiff

/-- A machine with room for a program. -/
def roomy : Paging.Machine := { Paging.oneProcess with highest := 128, freeFrames := 111 }

theorem roomy_sane : Paging.Sane roomy := { Paging.oneProcess_sane with highest := by decide }

theorem roomy_new :
    Paging.NewSpace roomy 1 := ⟨by decide +kernel, by decide +kernel, Paging.oneProcess_pte 1⟩

/-- A page of trampolines, and one of a surface. -/
def kernelPages : Paging.Image :=
  ⟨0, 0, fun _ => 0, fun _ => Paging.zeroPage, [1], [2], 0, by decide, by decide⟩

/-- The file with one segment, staged. -/
def stagedElf (flags : ℕ) : Option Loaded :=
  (load [] (elfFile 121 0x400000 flags 0x400000) .elf).join

/-- What `app_map_image` makes of it. -/
def mappedElf (l : Loaded) : Paging.Machine × Bool :=
  Paging.appMapImage roomy 1 (l.image kernelPages) ⟨0, 0, 0, 0⟩

theorem stagedElf_ok (flags : ℕ)
    (h : ((stagedElf flags).map fun l => (l.image kernelPages).inPlace && (mappedElf l).2) =
      some true) :
    ∃ l, load [] (elfFile 121 0x400000 flags 0x400000) .elf = some (some l) ∧
    stagedElf flags = some l ∧
      (l.image kernelPages).inPlace ∧ (mappedElf l).2 := by
  obtain ⟨l, hl, hok⟩ := Option.map_eq_some_iff.mp h
  rw [Bool.and_eq_true] at hok
  exact ⟨l, Option.join_eq_some_iff.mp hl, hl, hok⟩

/-- A segment that is read and run. -/
theorem load_writeXorExec_text :
    ∃ l, load [] (elfFile 121 0x400000 5 0x400000) .elf = some (some l) ∧
    ∀ v, Paging.WxEntry ((mappedElf l).1.pte 1 v) := by
  obtain ⟨l, hl, -, hin, hok⟩ := stagedElf_ok 5 (by decide +kernel)
  refine ⟨l, hl, (load_writeXorExec_iff [] _ .elf
      (by decide) l hl kernelPages hin roomy roomy_sane 1 roomy_new ⟨0, 0, 0, 0⟩ hok).mpr ?_⟩
  unfold Apart elfApart
  decide +kernel

/-- A segment that is written and run. -/
theorem load_both : ∃ l, load [] (elfFile 121 0x400000 7 0x400000) .elf = some (some l) ∧
    (l.image kernelPages).inPlace = true ∧ (mappedElf l).2 = true ∧
      ¬ ∀ v, Paging.WxEntry ((mappedElf l).1.pte 1 v) := by
  obtain ⟨l, hl, hstaged, hin, hok⟩ := stagedElf_ok 7 (by decide +kernel)
  refine ⟨l, hl, hin, hok, fun hwx => ?_⟩
  have hperm : ((stagedElf 7).map fun l => Paging.perm ((mappedElf l).1.pte 1 0x400)) = some
      (some (true, false)) := by
    decide +kernel
  rw [hstaged] at hperm
  exact Paging.wxEntry_iff_perm.mp (hwx 0x400) (Option.some.inj hperm)

end Vextro.Images
