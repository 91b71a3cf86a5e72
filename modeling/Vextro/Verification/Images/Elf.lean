import Vextro.Model.Images
import Vextro.Verification.Shared.Regions

/-! The import table of an image, and which ELF files `load_elf_image` loads within its bounds, and
what it makes of them. -/

namespace Vextro.Images

open Regions Region List Option

variable {mem mem' : Region} (exports : List Export)

theorem vxNameEqFrom_isSome (name : List UInt8) (a n i : ℕ) (h : a + i + n ≤ mem.size) :
    (vxNameEqFrom mem a name n i).isSome := by
  induction n generalizing i with
  | zero => rfl
  | succ n ih =>
    rw [vxNameEqFrom, get_of_lt (by omega), bind_some]
    split
    · rfl
    split
    · rfl
    · exact ih (i + 1) (by omega)

theorem findExport_isSome {a : ℕ} (h : a + 24 ≤ mem.size) : (findExport mem a exports).isSome := by
  induction exports with
  | nil => rfl
  | cons x rest ih =>
    obtain ⟨eq, heq⟩ :=
      isSome_iff_exists.mp (vxNameEqFrom_isSome x.name a 24 0 (by omega : a + 0 + 24 ≤ mem.size))
    rw [findExport, vxNameEq, heq, bind_some]
    split
    · rfl
    · exact ih

theorem resolveEntry_spec {e : ℕ} (h : e + 32 ≤ mem.size) :
    ∃ found mem', resolveEntry exports mem e = some (found, mem') ∧ mem'.size = mem.size := by
  have hsize : Region.size { mem with bytes := wrLE 8 mem.bytes (e + 24) 0 } = mem.size := rfl
  obtain ⟨found, hfound⟩ := isSome_iff_exists.mp (findExport_isSome exports
    (by omega : e + 24 ≤ Region.size { mem with bytes := wrLE 8 mem.bytes (e + 24) 0 }))
  rw [resolveEntry, wr_of_le (by omega), bind_some, hfound, bind_some]
  cases found with
  | none => exact ⟨false, _, rfl, rfl⟩
  | some addr =>
    simp only
    rw [wr_of_le (by omega)]
    exact ⟨true, _, rfl, rfl⟩

theorem resolveEntries_spec {table : ℕ} (is : List ℕ) (found : ℕ)
    (h : ∀ i ∈ is, table + 32 * i + 32 ≤ mem.size) :
    ∃ n mem', resolveEntries exports table is found mem = some (n, mem') ∧
    mem'.size = mem.size := by
  induction is generalizing mem found with
  | nil => exact ⟨found, mem, rfl, rfl⟩
  | cons i rest ih =>
    obtain ⟨ok, mem₁, hentry, hsize₁⟩ := resolveEntry_spec exports (h i mem_cons_self)
    obtain ⟨n, mem₂, hrest, hsize₂⟩ := ih (if ok then found + 1 else found)
      fun j hj => hsize₁.symm ▸ h j (mem_cons_of_mem i hj)
    refine ⟨n, mem₂, ?_, hsize₂.trans hsize₁⟩
    rwa [resolveEntries, hentry]

theorem scanImports_spec {len : ℕ} (hlen : len ≤ mem.size) (offs : List ℕ)
    (h : ∀ off ∈ offs, off + 16 ≤ len) :
    ∃ r mem', scanImports exports mem len offs = some (r, mem') ∧ mem'.size = mem.size := by
  induction offs with
  | nil => exact ⟨some 0, mem, rfl, rfl⟩
  | cons off rest ih =>
    have hoff := h off mem_cons_self
    rw [scanImports, rd_of_le (by omega), bind_some]
    split
    · exact ih fun x hx => h x (mem_cons_of_mem off hx)
    rw [rd_of_le (by omega), bind_some]
    split
    · exact ⟨none, mem, rfl, rfl⟩
    split
    · exact ⟨none, mem, rfl, rfl⟩
    -- the count has been held against the end of the image
    next hneed =>
      obtain ⟨n, mem', hres, hsize⟩ :=
        resolveEntries_spec exports (List.range (rdLE 4 mem.bytes (off + 8))) 0 fun i hi =>
          (by have := mem_range.mp hi; omega : off + 16 + 32 * i + 32 ≤ mem.size)
      exact ⟨some n, mem', by rw [hres]; rfl, hsize⟩

theorem vxResolveImports_spec {len : ℕ} (hlen : len ≤ mem.size) :
    ∃ r mem', vxResolveImports exports mem len = some (r, mem') ∧ mem'.size = mem.size := by
  unfold vxResolveImports
  split
  · exact ⟨some 0, mem, rfl, rfl⟩
  refine scanImports_spec exports hlen _ fun off hoff => ?_
  obtain ⟨k, hk, rfl⟩ := mem_map.mp hoff
  have := mem_range.mp hk
  omega

variable {arena : Bool} {exports}

/-! ## Segments -/

section Segment

variable (file : Region) (base ph : ℕ)

def segType : ℕ := rdLE 4 file.bytes ph

def segFlags : ℕ := rdLE 4 file.bytes (ph + 4)

def segOffset : ℕ := rdLE 8 file.bytes (ph + 8)

def segVaddr : ℕ := rdLE 8 file.bytes (ph + 16)

def segFilesz : ℕ := rdLE 8 file.bytes (ph + 32)

def segMemsz : ℕ := rdLE 8 file.bytes (ph + 40)

/-- The header is of a segment that is loaded. -/
def segLoads : Bool := segType file ph == elfPtLoad && segMemsz file ph != 0

/-- The header is inside of the file, as far as it is read. -/
def headerIn : Bool := ph + 4 ≤ file.size && (segType file ph != elfPtLoad || ph + 48 ≤ file.size)

def segPlace : ℕ := sub64 (segVaddr file ph) base

/-- The segment is refused. -/
def segTooLarge : Bool :=
  segLoads file ph && appMemSize < u64 (segPlace file base ph + segMemsz file ph)

/-- The bytes of the segment are in the file, and their place is in the buffer. -/
def segFits : Bool := !segLoads file ph || segFilesz file ph == 0 ||
    segOffset file ph + segFilesz file ph ≤ file.size &&
    segPlace file base ph + segFilesz file ph ≤ appMemSize

/-- A segment into the image. -/
def stage (s : Staged) (ph : ℕ) : Staged :=
  if segLoads file ph then
    ⟨patched file (segOffset file ph) s.memory (segPlace file base ph) (segFilesz file ph),
      appMarkProt s.prot (segPlace file base ph) (segMemsz file ph) (elfProt (segFlags file ph)),
      if s.span < u64 (segPlace file base ph + segMemsz file ph) then
        u64 (segPlace file base ph + segMemsz file ph) else s.span⟩
  else s

/-- The segments that are placed before one is refused all fit. -/
def segsFit (phs : List ℕ) : Bool :=
  (phs.takeWhile (!segTooLarge file base ·)).all (segFits file base)

/-- The lowest address of a segment. -/
def lowest (phs : List ℕ) : ℕ :=
  phs.foldl (fun base ph => if segLoads file ph && segVaddr file ph < base then segVaddr file ph
    else base) base

end Segment

variable {file : Region} {base ph : ℕ} {phs : List ℕ} {s : Staged}

theorem rd_of_headerIn {n i : ℕ} (h : headerIn file ph) (htype : segType file ph = elfPtLoad)
    (hi : i + n ≤ 48) : file.rd n (ph + i) = some (rdLE n file.bytes (ph + i)) := by
  simp only [headerIn, htype, bne_self_eq_false, Bool.false_or, Bool.and_eq_true,
    decide_eq_true_eq] at h
  exact rd_of_le (by omega)

theorem rd_type_of_headerIn (h : headerIn file ph) : file.rd 4 ph = some (segType file ph) := by
  simp only [headerIn, Bool.and_eq_true, decide_eq_true_eq] at h
  exact rd_of_le h.1

theorem segPlace_lt (file : Region) (base ph : ℕ) : segPlace file base ph < 2 ^ 64 := by
  exact Nat.mod_lt _ (by decide)

theorem headerIn_of_rd {type : ℕ} (h : file.rd 4 ph = some type)
    (hrd : type = elfPtLoad → ∃ x, file.rd 8 (ph + 40) = some x) : headerIn file ph := by
  have hle : ph + 4 ≤ file.size := by
    by_contra hlt
    rw [rd_eq_none_iff.mpr (by omega)] at h
    cases h
  rw [rd_of_le hle] at h
  cases h
  by_cases htype : rdLE 4 file.bytes ph = elfPtLoad
  · obtain ⟨x, hx⟩ := hrd htype
    have : ph + 40 + 8 ≤ file.size := by
      by_contra hlt
      rw [rd_eq_none_iff.mpr (by omega)] at hx
      cases hx
    simp [headerIn, hle, this]
  · simp [headerIn, hle, segType, htype]

theorem segLoads_of_ne (h : segType file ph ≠ elfPtLoad) : segLoads file ph = false := by
  simp [segLoads, h]

theorem segLoads_of_eq (h : segType file ph = elfPtLoad) :
    segLoads file ph = decide (segMemsz file ph ≠ 0) := by
  simp [segLoads, h, bne, Bool.beq_eq_decide_eq]

theorem elfBase_eq (phs : List ℕ) (base : ℕ) :
    elfBase file phs base = if phs.all (headerIn file) then some (lowest file base phs)
      else none := by
  induction phs generalizing base with
  | nil => rfl
  | cons ph rest ih =>
    rw [all_cons]
    cases hin : headerIn file ph with
    | false =>
      -- one of the two reads is outside
      rw [Bool.false_and, elfBase]
      cases htype : file.rd 4 ph with
      | none => rfl
      | some type =>
        rw [bind_some]
        split
        · next hne => exact absurd (headerIn_of_rd htype fun heq => absurd heq hne) (by simp [hin])
        next heq =>
          cases hmem : file.rd 8 (ph + 40) with
          | none => rfl
          | some x => exact absurd (headerIn_of_rd htype fun _ => ⟨x, hmem⟩) (by simp [hin])
    | true =>
      rw [Bool.true_and, elfBase, rd_type_of_headerIn hin, bind_some]
      have hstep : ∀ base',
          (if segLoads file ph && segVaddr file ph < base then segVaddr file ph else base) = base' →
          lowest file base (ph :: rest) = lowest file base' rest := by
        rintro _ rfl
        rfl
      split
      · next hne => rw [ih, hstep base (by rw [segLoads_of_ne hne]; rfl)]
      next heq =>
        have heq := not_not.mp heq
        rw [rd_of_headerIn hin heq (by omega), bind_some]
        by_cases h0 : rdLE 8 file.bytes (ph + 40) = 0
        · rw [if_pos h0, ih, hstep base (by rw [segLoads_of_eq heq, segMemsz, h0]; rfl)]
        rw [if_neg h0, rd_of_headerIn hin heq (by omega), bind_some, ih]
        have hloads : segLoads file ph := by rw [segLoads_of_eq heq]; exact decide_eq_true h0
        rw [hstep (if segVaddr file ph < base then segVaddr file ph else base) (by simp [hloads])]
        rfl

theorem elfSegments_cons_of_not {rest : List ℕ} (hin : headerIn file ph)
    (hno : segLoads file ph = false) :
    elfSegments file base (ph :: rest) s = elfSegments file base rest s := by
  rw [elfSegments, rd_type_of_headerIn hin, bind_some]
  split
  · rfl
  next heq =>
    have heq := not_not.mp heq
    have h0 : segMemsz file ph = 0 := by simpa [segLoads_of_eq heq] using hno
    rw [rd_of_headerIn hin heq (by omega), bind_some, ← segMemsz, if_pos h0]

theorem elfSegments_cons_of_loads {rest : List ℕ} (hin : headerIn file ph)
    (hloads : segLoads file ph) :
    elfSegments file base (ph :: rest) s =
      if appMemSize < u64 (segPlace file base ph + segMemsz file ph) then some none
      else (copy file (segOffset file ph) s.memory (segPlace file base ph) (segFilesz file ph)).bind
        fun mem =>
        elfSegments file base rest { stage file base s ph with memory := mem } := by
  obtain ⟨heq, h0⟩ : segType file ph = elfPtLoad ∧
      segMemsz file ph ≠ 0 := by simpa [segLoads] using hloads
  have hrd : ∀ n i, i + n ≤ 48 → file.rd n (ph + i) = some (rdLE n file.bytes (ph + i)) :=
    fun n i hi =>
    rd_of_headerIn hin heq hi
  rw [elfSegments, rd_type_of_headerIn hin, bind_some, if_neg (not_not.mpr heq),
    hrd 8 40 (by omega), bind_some, ← segMemsz, if_neg h0, hrd 8 16 (by omega), bind_some,
    hrd 8 8 (by omega), hrd 8 32 (by omega), hrd 4 4 (by omega)]
  simp only [bind_some]
  rw [← segVaddr, ← segPlace, ← segOffset, ← segFilesz, ← segFlags, stage, if_pos hloads]

theorem elfSegments_eq (hsize : file.size < 2 ^ 64)
    (hmem : s.memory.size = appMemSize) (hin : ∀ ph ∈ phs, headerIn file ph) :
    elfSegments file base phs s = if segsFit file base phs then
        some (if phs.any (segTooLarge file base) then none
          else some (phs.foldl (stage file base) s)) else none := by
  induction phs generalizing s with
  | nil => rfl
  | cons ph rest ih =>
    have hph := hin ph mem_cons_self
    have hrest := fun x hx => hin x (mem_cons_of_mem ph hx)
    cases hloads : segLoads file ph with
    | false =>
      rw [elfSegments_cons_of_not hph hloads, ih hmem hrest]
      simp [segsFit, segTooLarge, segFits, stage, hloads]
    | true =>
      rw [elfSegments_cons_of_loads hph hloads]
      by_cases hlarge : appMemSize < u64 (segPlace file base ph + segMemsz file ph)
      · have hlarge' : segTooLarge file base ph := by simp [segTooLarge, hloads, hlarge]
        rw [if_pos hlarge]
        simp [segsFit, hlarge']
      have hlarge' : segTooLarge file base ph = false := by simp [segTooLarge, hlarge]
      have hfit : segsFit file base
          (ph :: rest) = (segFits file base ph && segsFit file base rest) := by
        simp [segsFit, hlarge']
      have hdst : s.memory.size < 2 ^ 64 := by rw [hmem]; decide
      have hcopy : segFits file base ph = true ↔ segFilesz file ph = 0 ∨
          segOffset file ph + segFilesz file ph ≤ file.size ∧
            segPlace file base ph + segFilesz file ph ≤ s.memory.size := by
        simp [segFits, hloads, hmem]
      rw [if_neg hlarge, hfit, any_cons, hlarge', Bool.false_or, foldl_cons]
      by_cases hfits : segFits file base ph = true
      · have hmemory : (stage file base s ph).memory = patched file (segOffset file ph) s.memory
            (segPlace file base ph) (segFilesz file ph) := by
          rw [stage, if_pos hloads]
        rw [copy_of_le hsize hdst (hcopy.mp hfits), bind_some, ← hmemory,
          ih (by rw [hmemory, patched_size, hmem]) hrest, hfits, Bool.true_and]
      -- the copy leaves the file or the buffer
      have hnone : copy file (segOffset file ph) s.memory (segPlace file base ph)
          (segFilesz file ph) = none := by
        have hoff : segOffset file ph < 2 ^ 64 := rdLE_lt 8 file.bytes (ph + 8)
        rw [← not_isSome_iff_eq_none, copy_isSome_iff hoff (segPlace_lt file base ph) hsize hdst]
        exact fun h => hfits (hcopy.mpr h)
      rw [hnone, Bool.eq_false_iff.mpr hfits]
      rfl

/-! ## Loading -/

/-- Where the files go wrong that are refused before a segment is placed. -/
def elfUnfit (arena : Bool) (file : Region) : Bool :=
  file.size < elfHeaderSize || file.bytes 4 != 2 || !arena

/-- The base of the image. -/
def imageBase (file : Region) : ℕ := lowest file (2 ^ 64 - 1) (elfHeaders file)

/-- The image that the segments give. -/
def elfImage (file : Region) : Staged :=
  (elfHeaders file).foldl (stage file (imageBase file)) ⟨.zeros appMemSize, fun _ => 0, 0⟩

/-- The headers that are read are in the file, and so are the segments that are placed, with room
for them in the buffer. -/
def elfFits (arena : Bool) (file : Region) : Bool :=
  elfUnfit arena file || (elfHeaders file).all (headerIn file) &&
    (imageBase file == 2 ^ 64 - 1 || segsFit file (imageBase file) (elfHeaders file))

/-- The file is refused: it is unfit, has no segments or one that is too large, or a malformed table
of imports. -/
def elfRefused (arena : Bool) (exports : List Export) (file : Region) : Bool :=
  elfUnfit arena file || imageBase file == 2 ^ 64 - 1 ||
    (elfHeaders file).any (segTooLarge file (imageBase file)) ||
    ((vxResolveImports exports (elfImage file).memory (elfImage file).span).any fun r => r.1.isNone)

/-- An address is in a segment that is loaded. -/
def elfEntryIn (file : Region) (entry : ℕ) : Prop :=
  ∃ ph ∈ elfHeaders file, segLoads file ph = true ∧ segVaddr file ph ≤ entry ∧
    entry < segVaddr file ph + segMemsz file ph

theorem foldl_stage_span (hspan : s.span ≤ appMemSize)
    (hmem : s.memory.size = appMemSize) (h : ∀ ph ∈ phs, segTooLarge file base ph = false) :
    (phs.foldl (stage file base) s).span ≤ appMemSize ∧
      (phs.foldl (stage file base) s).memory.size = appMemSize := by
  induction phs generalizing s with
  | nil => exact ⟨hspan, hmem⟩
  | cons ph rest ih =>
    have hph := h ph mem_cons_self
    refine ih ?_ ?_ fun x hx => h x (mem_cons_of_mem ph hx)
    · unfold stage
      split
      · next hloads =>
          simp only [segTooLarge, hloads, Bool.true_and, decide_eq_false_iff_not] at hph
          simp only
          split <;> omega
      · exact hspan
    · unfold stage
      split
      · rw [patched_size, hmem]
      · exact hmem

theorem loadElfImage_of_unfit (h : elfUnfit arena file) :
    loadElfImage arena exports file = some none := by
  simp only [elfUnfit] at h
  unfold loadElfImage
  split
  · rfl
  split
  · rfl
  split
  · rfl
  · simp_all

theorem elfUnfit_eq_false : elfUnfit arena file = false ↔
    ¬ file.size < elfHeaderSize ∧ ¬ file.bytes 4 ≠ 2 ∧ ¬ (!arena) = true := by
  simp [elfUnfit, and_assoc]

theorem loadElfImage_of_fits (exports : List Export) (hsize : file.size < 2 ^ 64)
    (hfits : elfFits arena file) :
    ∃ mem, loadElfImage arena exports file = some (if elfRefused arena exports file then none
      else some ⟨rdLE 8 file.bytes 24, imageBase file, (elfImage file).span, (elfImage file).prot,
        mem⟩) := by
  cases hu : elfUnfit arena file with
  | true =>
    refine ⟨file, ?_⟩
    rw [loadElfImage_of_unfit hu]
    simp [elfRefused, hu]
  | false =>
    obtain ⟨hin, hsegs⟩ : (elfHeaders file).all (headerIn file) = true ∧
        (imageBase file = 2 ^ 64 - 1 ∨ segsFit file (imageBase file) (elfHeaders file) = true) := by
      simpa [elfFits, hu] using hfits
    obtain ⟨hlarge, hclass, harena⟩ := elfUnfit_eq_false.mp hu
    rw [loadElfImage, if_neg hlarge, if_neg hclass, if_neg harena, elfBase_eq, if_pos hin,
      bind_some, ← imageBase]
    by_cases hbase : imageBase file = 2 ^ 64 - 1
    · refine ⟨file, ?_⟩
      simp [elfRefused, hbase]
    rw [if_neg hbase, elfSegments_eq hsize rfl (all_eq_true.mp hin),
      if_pos (hsegs.resolve_left hbase)]
    cases hlarge : (elfHeaders file).any (segTooLarge file (imageBase file)) with
    | true =>
      refine ⟨file, ?_⟩
      simp [elfRefused, hlarge]
    | false =>
      obtain ⟨hspan, hmem⟩ : (elfImage file).span ≤ appMemSize ∧
          (elfImage file).memory.size = appMemSize := foldl_stage_span (Nat.zero_le _) rfl
        fun ph hph => by simpa using any_eq_false.mp hlarge ph hph
      obtain ⟨r, mem, hres, -⟩ := vxResolveImports_spec exports (hspan.trans hmem.ge)
      refine ⟨mem, ?_⟩
      have hrefused : elfRefused arena exports file = r.isNone := by
        simp only [elfRefused, hu, beq_eq_false_iff_ne.mpr hbase, hlarge, hres, Option.any_some,
          Bool.false_or]
      rw [hrefused]
      show Option.map _ (vxResolveImports exports (elfImage file).memory (elfImage file).span) = _
      rw [hres]
      cases r <;> rfl

theorem elfFits_of_isSome (hsize : file.size < 2 ^ 64)
    (h : (loadElfImage arena exports file).isSome) :
    elfFits arena file := by
  cases hu : elfUnfit arena file with
  | true => simp [elfFits, hu]
  | false =>
    obtain ⟨hlarge, hclass, harena⟩ := elfUnfit_eq_false.mp hu
    rw [loadElfImage, if_neg hlarge, if_neg hclass, if_neg harena, elfBase_eq] at h
    by_cases hin : (elfHeaders file).all (headerIn file) = true
    · rw [if_pos hin, bind_some, ← imageBase] at h
      by_cases hbase : imageBase file = 2 ^ 64 - 1
      · rw [elfFits, hin, beq_iff_eq.mpr hbase, Bool.true_or, Bool.and_true, Bool.or_true]
      rw [if_neg hbase, elfSegments_eq hsize rfl (all_eq_true.mp hin)] at h
      by_cases hsegs : segsFit file (imageBase file) (elfHeaders file) = true
      · rw [elfFits, hin, hsegs, Bool.or_true, Bool.and_true, Bool.or_true]
      · simp [if_neg hsegs] at h
    · rw [if_neg hin] at h
      cases h

/-- `load_elf_image` keeps to the file and the buffer, and accepts no file whose entry point is
outside of its segments, if and only if the headers and segments that it uses fit, and the entry
point is in a segment or the file is refused. -/
theorem loadElfImage_safe_iff (arena : Bool) (exports : List Export) (file : Region)
    (hsize : file.size < 2 ^ 64) :
    ((loadElfImage arena exports file).isSome = true ∧
        ∀ l, loadElfImage arena exports file = some (some l) → elfEntryIn file l.entry) ↔
        elfFits arena file = true ∧
        (elfRefused arena exports file = true ∨ elfEntryIn file (rdLE 8 file.bytes 24)) := by
  constructor
  · rintro ⟨hsome, hentry⟩
    have hfits := elfFits_of_isSome hsize hsome
    refine ⟨hfits, ?_⟩
    obtain ⟨mem, heq⟩ := loadElfImage_of_fits exports hsize hfits
    by_cases hr : elfRefused arena exports file = true
    · exact .inl hr
    · rw [if_neg hr] at heq
      have hin := hentry _ heq
      exact .inr hin
  rintro ⟨hfits, hr⟩
  obtain ⟨mem, heq⟩ := loadElfImage_of_fits exports hsize hfits
  rw [heq]
  refine ⟨rfl, fun l hl => ?_⟩
  rcases hr with hr | hentry
  · simp [if_pos hr] at hl
  split at hl
  · cases hl
  · rwa [← some.inj (some.inj hl)]

/-- A file with one program header behind the first, and a byte after it. -/
def elfFile (size entry flags vaddr : ℕ) : Region where
  size := size
  bytes := wrLE 8 (wrLE 8
    (wrLE 8 (wrLE 8 (wrLE 4 (wrLE 4 (wrLE 2 (wrLE 2 (wrLE 8 (wrLE 8 (wrLE 1 (fun _ => 0) 4 2)
    24 entry) 32 64) 54 56) 56 1) 64 1) 68 flags) 72 120) 80 vaddr) 96 1) 104 1

theorem loadElfImage_safe_one_segment :
    (loadElfImage true [] (elfFile 121 0x400000 5 0x400000)).isSome = true ∧
      ∀ l, loadElfImage true [] (elfFile 121 0x400000 5 0x400000) = some (some l) →
        elfEntryIn (elfFile 121 0x400000 5 0x400000) l.entry :=
  (loadElfImage_safe_iff true [] (elfFile 121 0x400000 5 0x400000) (by decide)).mpr
    ⟨by decide +kernel, .inr (by unfold elfEntryIn; decide +kernel)⟩

/-- The file ends where the program header would start. -/
theorem loadElfImage_outside :
    (loadElfImage true [] (elfFile 64 0x400000 5 0x400000)).isNone = true := by
  decide +kernel

end Vextro.Images
