import Vextro.Model.MemoryCalls

/-! The frame bitmap at boot, contiguous runs and the reference table: the rest of `pmm.h`. -/

namespace Vextro.Paging

/-- An entry of the boot loader's memory map; physical addresses have 52 bits. -/
structure MemmapEntry where
  base : ℕ
  length : ℕ
  usable : Bool
  fits : base + length ≤ 2 ^ 52

/-! ## Building the bitmap -/

def MemmapEntry.last (e : MemmapEntry) : ℕ := e.base + e.length

/-- The whole frames inside an entry. -/
def MemmapEntry.frames (e : MemmapEntry) : List ℕ :=
  List.range' (pageAlignUp e.base / 4096) (pageAlignDown e.last / 4096 - pageAlignUp e.base / 4096)

def highestAddress (mm : List MemmapEntry) : ℕ :=
  mm.foldl (fun highest e => if e.usable && highest < e.last then e.last else highest) 0

/-- The first usable entry that can hold the whole bitmap; address zero means there is none. -/
def bitmapBase (mm : List MemmapEntry) (bytes : ℕ) : Option ℕ :=
  (mm.find? fun e => e.usable && pageAlignUp e.base < pageAlignDown e.last &&
    bytes ≤ pageAlignDown e.last - pageAlignUp e.base && pageAlignUp e.base ≠ 0).map
      fun e => pageAlignUp e.base

def bootFree (m : Machine) (f : ℕ) : Machine :=
  if m.used f then
    { m with used := Function.update m.used f false, freeFrames := m.freeFrames + 1 }
  else m

def bootTake (m : Machine) (f : ℕ) : Machine :=
  if m.used f then m
  else { m with used := Function.update m.used f true, freeFrames := m.freeFrames - 1 }

def bootEntry (m : Machine) (e : MemmapEntry) : Machine :=
  if e.usable then e.frames.foldl bootFree m else m

def bitmapBytes (highest : ℕ) : ℕ := (highest + 63) / 64 * 8

def bitmapFrames (base bytes : ℕ) : List ℕ :=
  List.range' (base / 4096) (pageAlignUp (base + bytes) / 4096 - base / 4096)

def lowFrames : ℕ := 0x100000 / 4096

/-- Nothing is tracked yet: every frame counts as taken. -/
def bootBlank (m : Machine) (highest : ℕ) : Machine :=
  { m with highest := highest, used := fun _ => true, freeFrames := 0, hint := 0, ref := none }

/-- `pmm_init`; the flag is `pmm_ready`. -/
def pmmInit (m : Machine) (mm : List MemmapEntry) : Machine × Bool :=
  let highest := highestAddress mm / 4096
  match bitmapBase mm (bitmapBytes highest) with
  | none => (bootBlank m highest, false)
  | some base =>
    let m := mm.foldl bootEntry (bootBlank m highest)
    let m := (bitmapFrames base (bitmapBytes highest)).foldl bootTake m
    ((List.range (min lowFrames highest)).foldl bootTake m, true)

/-! ## Runs of frames -/

def wordFull (bm : ℕ → Bool) (w : ℕ) : Bool := (List.range 64).all fun b => bm (w * 64 + b)

/-- The search of `pmm_alloc_contig`: `run` clear frames from `start` on end right before `f`. -/
def contigScan (m : Machine) (frames : ℕ) : ℕ → ℕ → ℕ → ℕ → Option ℕ
  | 0, _, _, _ => none
  | fuel + 1, f, run, start =>
    if m.highest ≤ f then none
    else if f % 64 = 0 && wordFull m.used (f / 64) then contigScan m frames fuel (f + 64) 0 start
    else if m.used f then contigScan m frames fuel (f + 1) 0 start
    else
      let start := if run = 0 then f else start
      if run + 1 = frames then some start
      else contigScan m frames fuel (f + 1) (run + 1) start

/-- `pmm_alloc_contig`: the first frame of the run, or `0`. -/
def pmmAllocContig (m : Machine) (frames : ℕ) : Machine × ℕ :=
  if frames = 0 then (m, 0)
  else
    match contigScan m frames m.highest lowFrames 0 0 with
    | none => (m, 0)
    | some start =>
      ({ m with
          used := fun f => m.used f || (start ≤ f && f < start + frames)
          freeFrames := m.freeFrames - frames }, start)

def pmmFreeContig (m : Machine) (start frames : ℕ) : Machine :=
  (List.range' start frames).foldl pmmFree m

def pmmRefInit (m : Machine) : Machine × ℕ :=
  if m.ref.isSome then (m, 0)
  else
    match pmmAllocContig m (pageAlignUp (m.highest * 2) / 4096) with
    | (m, 0) => (m, 0)
    | (m, start) => ({ m with ref := some fun _ => 0 }, start)

/-! ## Owners -/

inductive FrameCall where
  | once
  | contig (frames : ℕ)
  | free (f : ℕ)
  | refInit

/-- The allocator and the frames that are in somebody's hands. -/
structure Leases where
  m : Machine
  held : List ℕ

/-- One call; only a frame that somebody owns is given back. -/
def FrameCall.step (ready : Bool) (s : Leases) : FrameCall → Leases × ℕ
  | .once =>
    if !ready then (s, 0)
    else
      let r := pmmAllocOnce s.m
      (⟨r.1, if r.2 = 0 then s.held else r.2 :: s.held⟩, r.2)
  | .contig frames =>
    if !ready then (s, 0)
    else
      let r := pmmAllocContig s.m frames
      (⟨r.1, if r.2 = 0 then s.held else List.range' r.2 frames ++ s.held⟩, r.2)
  | .free f =>
    if !ready || !s.held.contains f then (s, 0) else (⟨pmmFree s.m f, s.held.erase f⟩, 0)
  | .refInit =>
    if !ready then (s, 0)
    else
      let r := pmmRefInit s.m
      (⟨r.1, if r.2 = 0 then s.held
        else List.range' r.2 (pageAlignUp (s.m.highest * 2) / 4096) ++ s.held⟩, r.2)

end Vextro.Paging
