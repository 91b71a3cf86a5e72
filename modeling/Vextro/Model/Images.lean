import Vextro.Model.Regions

/-! Executable files into the application buffer: `.vx` files after `vx_format.h`, and
`load_vx_image` and `load_elf_image` of `desktop.h`. Sums are sums of 64 bits, and none means an
access outside of the file or of the buffer. -/

namespace Vextro.Images

open Regions

def u64 (n : ℕ) : ℕ := n % 2 ^ 64

def sub64 (a b : ℕ) : ℕ := (a + 2 ^ 64 - b) % 2 ^ 64

/-! ## The header of a `.vx` file -/

def vxPageSize : ℕ := 4096

def vxMaxImage : ℕ := 64 * 1024 * 1024

structure VxHeader where
  magic : List UInt8
  (version entry textOff textSize dataOff dataSize textVaddr dataVaddr bssSize : ℕ)
deriving DecidableEq

/-- `sizeof(vx_header_t)` -/
def vxHeaderSize : ℕ := 80

def vxHeader (b : ℕ → UInt8) : VxHeader where
  magic := (List.range 4).map b
  version := rdLE 4 b 4
  entry := rdLE 8 b 8
  textOff := rdLE 8 b 16
  textSize := rdLE 8 b 24
  dataOff := rdLE 8 b 32
  dataSize := rdLE 8 b 40
  textVaddr := rdLE 8 b 48
  dataVaddr := rdLE 8 b 56
  bssSize := rdLE 8 b 64

def vxMagicOk (h : VxHeader) : Bool := h.magic == [0x7F, 86, 88, 0x64]

def vxRoundUp (v align : ℕ) : ℕ := u64 (v + align - 1) / align * align

/-- There is a data segment. -/
def VxHeader.hasData (h : VxHeader) : Bool := h.dataSize != 0 || h.bssSize != 0

def vxImageEnd (h : VxHeader) : ℕ :=
  let stop := u64 (h.textVaddr + h.textSize)
  if h.hasData then
    let d := u64 (h.dataVaddr + h.dataSize + h.bssSize)
    if stop < d then d else stop
  else stop

def vxImageSpan (h : VxHeader) : ℕ := sub64 (vxImageEnd h) h.textVaddr

/-- `vx_validate`; a header without a reason against it is accepted. -/
def vxValidate (h : VxHeader) (fileSize : ℕ) : Option String :=
  let uintMax := 2 ^ 64 - 1
  if fileSize < vxHeaderSize then some "file is smaller than the header"
  else if !vxMagicOk h then some "bad magic - not a .vx image"
  else if h.version ≠ 1 then some "unsupported format version"
  else if h.textSize = 0 then some "empty text section"
  else if fileSize < h.textOff ∨ fileSize - h.textOff < h.textSize then
    some "text section runs past the end of the file"
  else if h.textOff < vxHeaderSize then some "text section overlaps the header"
  else if h.textVaddr % vxPageSize ≠ 0 then some "text_vaddr is not page aligned"
  else if h.textOff % vxPageSize ≠ h.textVaddr % vxPageSize then some
    "text_off is not congruent to text_vaddr"
  else if uintMax - h.textVaddr < h.textSize then some "text section wraps the address space"
  else if h.dataSize ≠ 0 ∧ (fileSize < h.dataOff ∨ fileSize - h.dataOff < h.dataSize) then
    some "data section runs past the end of the file"
  else if h.dataSize ≠ 0 ∧ h.dataOff < vxHeaderSize then some "data section overlaps the header"
  else if h.dataSize ≠ 0 ∧ h.dataOff % vxPageSize ≠ h.dataVaddr % vxPageSize then
    some "data_off is not congruent to data_vaddr"
  else if h.hasData ∧ h.dataVaddr % vxPageSize ≠ 0 then some "data_vaddr is not page aligned"
  else if h.hasData ∧
  (uintMax - h.dataVaddr < h.dataSize ∨ uintMax - h.dataVaddr - h.dataSize < h.bssSize) then
    some "data segment wraps the address space"
  else if h.hasData ∧ h.dataVaddr < u64 (h.textVaddr + vxRoundUp h.textSize vxPageSize) then
    some "data segment shares a page with the text segment"
  else if h.entry < h.textVaddr ∨ u64 (h.textVaddr + h.textSize) ≤ h.entry then
    some "entry point is outside the text section"
  else if vxMaxImage < vxImageSpan h then some "image is larger than the format allows"
  else none

/-! ## The application buffer -/

def appMemSize : ℕ := 4 * 1024 * 1024

def appMaxPages : ℕ := appMemSize / 4096

def aprotRead : UInt8 := 1

def aprotWrite : UInt8 := 2

def aprotExec : UInt8 := 4

/-- `app_mark_prot`, on `app_page_prot`. -/
def appMarkProt (prot : ℕ → UInt8) (off len : ℕ) (x : UInt8) : ℕ → UInt8 := fun p =>
  if off / 4096 ≤ p ∧ p < u64 (off + len + 4095) / 4096 ∧ p < appMaxPages then prot p ||| x
    else prot p

/-- What a loader leaves for `app_map_image`. -/
structure Loaded where
  entry : ℕ
  base : ℕ
  span : ℕ
  prot : ℕ → UInt8
  memory : Region

/-! ## Imported symbols -/

/-- A row of `kernel_exports`. -/
structure Export where
  name : List UInt8
  addr : ℕ

def vxImportMagic : ℕ := 0x5352504D495F5856

def vxImportMax : ℕ := 32

/-- `vx_name_eq` from an index on, for so many characters more. -/
def vxNameEqFrom (mem : Region) (a : ℕ) (name : List UInt8) : ℕ → ℕ → Option Bool
  | 0, _ => some true
  | n + 1, i => (mem.get (a + i)).bind fun x =>
    if x ≠ name.getD i 0 then some false
    else if x = 0 then some true
    else vxNameEqFrom mem a name n (i + 1)

def vxNameEq (mem : Region) (a : ℕ) (name : List UInt8) : Option Bool :=
  vxNameEqFrom mem a name 24 0

def findExport (mem : Region) (a : ℕ) : List Export → Option (Option ℕ)
  | [] => some none
  | x :: rest =>
    (vxNameEq mem a x.name).bind fun eq => if eq then some (some x.addr) else findExport mem a rest

/-- The entry at `e` of an import table, and whether its name was found. -/
def resolveEntry (exports : List Export) (mem : Region) (e : ℕ) : Option (Bool × Region) :=
  (mem.wr 8 (e + 24) 0).bind fun mem =>
    (findExport mem e exports).bind fun found =>
      match found with
      | some addr => (mem.wr 8 (e + 24) addr).map (true, ·)
      | none => some (false, mem)

def resolveEntries (exports : List Export) (table : ℕ) : List ℕ → ℕ → Region → Option (ℕ × Region)
  | [], found, mem => some (found, mem)
  | i :: rest, found, mem => (resolveEntry exports mem (table + 32 * i)).bind fun r =>
    resolveEntries exports table rest (if r.1 then found + 1 else found) r.2

/-- The search for the table; no number means that it is malformed. -/
def scanImports (exports : List Export) (mem : Region) (len : ℕ) : List ℕ →
      Option (Option ℕ × Region)
  | [] => some (some 0, mem)
  | off :: rest => (mem.rd 8 off).bind fun magic =>
    if magic ≠ vxImportMagic then scanImports exports mem len rest
    else (mem.rd 4 (off + 8)).bind fun count =>
      if count = 0 ∨ vxImportMax < count then some (none, mem)
      else if len - off < 16 + count * 32 then some (none, mem)
      else (resolveEntries exports (off + 16) (List.range count) 0 mem).map fun r => (some r.1, r.2)

def vxResolveImports (exports : List Export) (mem : Region)
    (len : ℕ) : Option (Option ℕ × Region) :=
  if len < 16 then some (some 0, mem)
  else scanImports exports mem len ((List.range ((len - 16) / 8 + 1)).map (8 * ·))

/-! ## The loaders -/

/-- `load_vx_image`, with the answer of `app_arena_ready`. -/
def loadVxImage (arena : Bool) (exports : List Export) (file : Region) : Option (Option Loaded) :=
  if file.size < vxHeaderSize then some none
  else (Region.copy file 0 (.zeros vxHeaderSize) 0 vxHeaderSize).bind fun hp =>
    let h := vxHeader hp.bytes
    if (vxValidate h file.size).isSome then some none
    else if appMemSize < vxImageSpan h then some none
    else if !arena then some none
    else
      let base := h.textVaddr
      (Region.copy file h.textOff (.zeros appMemSize) (sub64 h.textVaddr base) h.textSize).bind
        fun mem =>
        let prot :=
          appMarkProt (fun _ => 0) (sub64 h.textVaddr base) h.textSize (aprotRead ||| aprotExec)
        (if h.dataSize = 0 then some mem
          else Region.copy file h.dataOff mem (sub64 h.dataVaddr base) h.dataSize).bind fun mem =>
          let prot := if base ≤ h.dataVaddr then
              appMarkProt prot (sub64 h.dataVaddr base)
              (sub64 (vxImageSpan h) (sub64 h.dataVaddr base))
                (aprotRead ||| aprotWrite)
            else prot
          (vxResolveImports exports mem (vxImageSpan h)).map fun r =>
            r.1.map fun _ => ⟨h.entry, base, vxImageSpan h, prot, r.2⟩

def elfPtLoad : ℕ := 1

/-- The place of a program header. The product of two numbers of 16 bits is an `int`. -/
def phdrAt (phoff phentsize i : ℕ) : ℕ :=
  let p := i * phentsize
  u64 (phoff + if p < 2 ^ 31 then p else p + 2 ^ 64 - 2 ^ 32)

/-- The lowest address that a segment occupies. -/
def elfBase (file : Region) : List ℕ → ℕ → Option ℕ
  | [], base => some base
  | ph :: rest, base => (file.rd 4 ph).bind fun type =>
    if type ≠ elfPtLoad then elfBase file rest base
    else (file.rd 8 (ph + 40)).bind fun memsz =>
      if memsz = 0 then elfBase file rest base
      else (file.rd 8 (ph + 16)).bind
        fun vaddr => elfBase file rest (if vaddr < base then vaddr else base)

/-- The image that is being put together. -/
structure Staged where
  memory : Region
  prot : ℕ → UInt8
  span : ℕ

/-- The protection of a segment. -/
def elfProt (flags : ℕ) : UInt8 :=
  aprotRead ||| (if flags.testBit 1 then aprotWrite else 0) |||
    (if flags.testBit 0 then aprotExec else 0)

/-- The loop over the segments; no image means that a segment is too large. -/
def elfSegments (file : Region) (base : ℕ) : List ℕ → Staged → Option (Option Staged)
  | [], s => some (some s)
  | ph :: rest, s => (file.rd 4 ph).bind fun type =>
    if type ≠ elfPtLoad then elfSegments file base rest s
    else (file.rd 8 (ph + 40)).bind fun memsz =>
      if memsz = 0 then elfSegments file base rest s
      else (file.rd 8 (ph + 16)).bind fun vaddr =>
        let offset := sub64 vaddr base
        if appMemSize < u64 (offset + memsz) then some none
        else (file.rd 8 (ph + 8)).bind fun poffset => (file.rd 8 (ph + 32)).bind fun filesz =>
          (Region.copy file poffset s.memory offset filesz).bind
            fun mem => (file.rd 4 (ph + 4)).bind fun flags =>
            elfSegments file base rest ⟨mem, appMarkProt s.prot offset memsz (elfProt flags),
              if s.span < u64 (offset + memsz) then u64 (offset + memsz) else s.span⟩

/-- `sizeof(Elf64_Ehdr)` -/
def elfHeaderSize : ℕ := 64

/-- The program headers of a file. -/
def elfHeaders (file : Region) : List ℕ :=
  (List.range (rdLE 2 file.bytes 56)).map (phdrAt (rdLE 8 file.bytes 32) (rdLE 2 file.bytes 54))

/-- `load_elf_image`, with the answer of `app_arena_ready`. -/
def loadElfImage (arena : Bool) (exports : List Export) (file : Region) : Option (Option Loaded) :=
  if file.size < elfHeaderSize then some none
  else if file.bytes 4 ≠ 2 then some none
  else if !arena then some none
  else (elfBase file (elfHeaders file) (2 ^ 64 - 1)).bind fun base =>
    if base = 2 ^ 64 - 1 then some none
    else (elfSegments file base (elfHeaders file) ⟨.zeros appMemSize, fun _ => 0, 0⟩).bind fun r =>
      match r with
      | none => some none
      | some s => (vxResolveImports exports s.memory s.span).map fun r =>
        r.1.map fun _ => ⟨rdLE 8 file.bytes 24, base, s.span, s.prot, r.2⟩

end Vextro.Images
