import Mathlib.Data.Nat.Bitwise
import Mathlib.Data.BitVec
import Vextro.Verification.Shared.FinMap

/-! Page table entries, physical frames, address spaces and the pager: `pmm.h`, `swap.h` and the
walk of `vmm.h`.

Frames are numbered, and frame `0` stands for the null physical address. A virtual page is
named by its number `va / 4096`. The page tables of one address space are kept as the map
of its leaf entries, where an absent table reads as entries that are zero, and the frames
that hold the tables. -/

namespace Vextro.Paging

open BitVec

/-- A page table entry: one 64-bit word. -/
abbrev Pte := BitVec 64

def ptePresent : Pte := twoPow 64 0
def pteWrite : Pte := twoPow 64 1
def pteUser : Pte := twoPow 64 2
def pteAccessed : Pte := twoPow 64 5
def pteDirty : Pte := twoPow 64 6
def pteShared : Pte := twoPow 64 9
def pteCow : Pte := twoPow 64 10
def pteNx : Pte := twoPow 64 63

/-- Bit 10 of an entry that is not present marks a page held in the pagefile. -/
def pteSwapped : Pte := twoPow 64 10

def pteAddrMask : Pte := 0x000FFFFFFFFFF000#64

def swapSlotMask : Pte := 0xFFFF#64

def swapPermMask : Pte := pteWrite ||| pteUser ||| pteNx

/-- `e & flag` read as a truth value. -/
def has (e flag : Pte) : Bool := e &&& flag != 0#64

/-- The frame number an entry carries: `(e & PTE_ADDR_MASK) >> PAGE_SHIFT`. -/
def pteFrame (e : Pte) : ℕ := ((e &&& pteAddrMask) >>> 12).toNat

/-- The physical address of a frame: `frame << PAGE_SHIFT`. -/
def physOf (frame : ℕ) : Pte := BitVec.ofNat 64 (frame * 4096)

def swapPteIsSwapped (e : Pte) : Bool := !has e ptePresent && has e pteSwapped

def swapPteSlot (e : Pte) : ℕ := ((e >>> 12) &&& swapSlotMask).toNat

def swapPteMake (slot : ℕ) (old : Pte) : Pte :=
  (BitVec.ofNat 64 slot <<< 12) ||| pteSwapped ||| (old &&& swapPermMask)

/-- Entries `vmm_map` writes: `(phys & PTE_ADDR_MASK) | flags | PTE_PRESENT`. -/
def pteMake (frame : ℕ) (flags : Pte) : Pte :=
  (physOf frame &&& pteAddrMask) ||| flags ||| ptePresent

/-- Entries that count as private user memory: present and not `PTE_SHARED`. -/
def isPrivate (e : Pte) : Bool := has e ptePresent && !has e pteShared

open Function

/-- The bytes of one page. -/
abbrev Page := Fin 4096 → UInt8

def zeroPage : Page := fun _ => 0

/-- A reservation made by `mmap`; a zero length marks a free slot. -/
structure Area where
  base : ℕ
  len : ℕ
  pteFlags : Pte
  flags : ℕ

def freeArea : Area := ⟨0, 0, 0, 0⟩

/-- `addr_space_t`, as far as memory is concerned. -/
structure AddrSpace where
  live : Bool
  pml4 : ℕ
  /-- The frames of the inner tables, see `tableKey`. -/
  tables : FinMap ℕ
  /-- The leaf entries by virtual page number. -/
  pt : FinMap Pte
  brk : ℕ
  brkTop : ℕ
  mmapNext : ℕ
  /-- The frame of the reservation table, `0` while there is none. -/
  vmas : ℕ
  areas : List Area
  vmaCount : ℕ

/-- The zeroed structure of a space that does not exist. -/
def deadSpace : AddrSpace := ⟨false, 0, .empty, .empty, 0, 0, 0, 0, [], 0⟩

instance : Inhabited AddrSpace := ⟨deadSpace⟩

structure Machine where
  /-- `pmm_highest_frame` -/
  highest : ℕ
  /-- The frame bitmap. -/
  used : ℕ → Bool
  hint : ℕ
  freeFrames : ℕ
  /-- `pmm_ref`; absent when boot found no room for it. -/
  ref : Option (ℕ → ℕ)
  mem : ℕ → Page
  spaces : FinMap AddrSpace
  swapReady : Bool
  swapBusy : Bool
  slotCount : ℕ
  slotsUsed : ℕ
  slotBm : ℕ → Bool
  /-- The reverse map: the space and page last seen to own a frame. -/
  rmap : Option (ℕ → Option (ℕ × ℕ))
  hand : ℕ
  pagefile : ℕ → Page
  /-- The slots whose sectors the device fails to transfer. -/
  slotFails : ℕ → Bool

namespace Machine

def space (m : Machine) (a : ℕ) : AddrSpace := m.spaces.get a

def setSpace (m : Machine) (a : ℕ) (s : AddrSpace) : Machine :=
  { m with spaces := m.spaces.set a s }

/-- The leaf entry of page `v`, zero where a table is missing. -/
def pte (m : Machine) (a v : ℕ) : Pte := (m.space a).pt.get v

def setPte (m : Machine) (a v : ℕ) (e : Pte) : Machine :=
  m.setSpace a { m.space a with pt := (m.space a).pt.set v e }

end Machine

/-! ## Frames -/

/-- The lowest clear bit of a bitmap word. -/
def ctzClear (bm : ℕ → Bool) (w : ℕ) : Option ℕ :=
  (List.range 64).find? fun b => !bm (w * 64 + b)

/-- The first of the `n` words from `w` on that is not full, with its lowest clear bit. -/
def scanWords (bm : ℕ → Bool) : ℕ → ℕ → Option (ℕ × ℕ)
  | _, 0 => none
  | w, n + 1 =>
    match ctzClear bm w with
    | some b => some (w, b)
    | none => scanWords bm (w + 1) n

def bitmapWords (m : Machine) : ℕ := (m.highest + 63) / 64

/-- One pass of the bitmap search, over `n` words from `w` on. -/
def pmmSweep (m : Machine) (w n : ℕ) : Machine × ℕ :=
  match scanWords m.used w n with
  | none => (m, 0)
  | some (w', b) =>
    if m.highest ≤ w' * 64 + b then (m, 0)
    else
      ({ m with
          used := update m.used (w' * 64 + b) true
          freeFrames := m.freeFrames - 1
          hint := w' }, w' * 64 + b)

/-- `pmm_alloc_once`: from the hint to the end, then from the start to the hint. -/
def pmmAllocOnce (m : Machine) : Machine × ℕ :=
  let r := pmmSweep m m.hint (bitmapWords m - m.hint)
  let r := if r.2 = 0 then pmmSweep r.1 0 r.1.hint else r
  if r.2 = 0 then r
  else ({ r.1 with mem := update r.1.mem r.2 zeroPage }, r.2)

def pmmRefInc (m : Machine) (f : ℕ) : Machine :=
  match m.ref with
  | none => m
  | some r =>
    if m.highest ≤ f then m
    else if r f < 0xFFFF then { m with ref := some (update r f (r f + 1)) }
    else m

def pmmRefCount (m : Machine) (f : ℕ) : ℕ :=
  match m.ref with
  | none => 1
  | some r => if m.highest ≤ f then 1 else r f + 1

/-- The part of `pmm_free` that returns the frame to the bitmap. -/
def pmmClear (m : Machine) (f : ℕ) : Machine :=
  if m.used f then
    { m with
      used := update m.used f false
      freeFrames := m.freeFrames + 1
      hint := if f / 64 < m.hint then f / 64 else m.hint }
  else m

def pmmFree (m : Machine) (f : ℕ) : Machine :=
  if f = 0 then m
  else if m.highest ≤ f then m
  else
    match m.ref with
    | none => pmmClear m f
    | some r =>
      if r f ≠ 0 then { m with ref := some (update r f (r f - 1)) }
      else pmmClear m f

/-! ## The pager -/

def swapSlots : ℕ := 65536

def swapSlotAlloc (m : Machine) : Machine × Option ℕ :=
  match scanWords m.slotBm 0 (swapSlots / 64) with
  | none => (m, none)
  | some (w, b) =>
    if m.slotCount ≤ w * 64 + b then (m, none)
    else
      ({ m with
          slotBm := update m.slotBm (w * 64 + b) true
          slotsUsed := m.slotsUsed + 1 }, some (w * 64 + b))

def swapSlotFree (m : Machine) (slot : ℕ) : Machine :=
  if m.slotCount ≤ slot then m
  else if m.slotBm slot then
    { m with
      slotBm := update m.slotBm slot false
      slotsUsed := m.slotsUsed - 1 }
  else m

def swapRmapSet (m : Machine) (f : ℕ) (owner : Option (ℕ × ℕ)) : Machine :=
  match m.rmap with
  | none => m
  | some r =>
    if m.highest ≤ f then m else { m with rmap := some (update r f owner) }

def swapRmapRecord (m : Machine) (f a v : ℕ) : Machine := swapRmapSet m f (some (a, v))

/-- Also `swap_rmap_record` with a null space. -/
def swapRmapForget (m : Machine) (f : ℕ) : Machine := swapRmapSet m f none

/-- Pages `USER_MIN / 4096 = 1` up to `USER_SPACE_END / 4096 = 2^35`. -/
def userPage (v : ℕ) : Bool := 1 ≤ v && v < 2 ^ 35

/-- `swap_victim_ok`: the page a frame can be evicted from, if the reverse map still tells
the truth about it. A stale entry is dropped on the way. -/
def swapVictimOk (m : Machine) (f : ℕ) : Machine × Option (ℕ × ℕ) :=
  match m.rmap with
  | none => (m, none)
  | some r =>
    match r f with
    | none => (m, none)
    | some (a, v) =>
      if !(m.space a).live then (m, none)
      else if !userPage v then (m, none)
      else if !has (m.pte a v) ptePresent then (swapRmapForget m f, none)
      else if pteFrame (m.pte a v) ≠ f then (swapRmapForget m f, none)
      else if !has (m.pte a v) pteUser then (m, none)
      else if has (m.pte a v) pteShared then (m, none)
      else if has (m.pte a v) pteCow then (m, none)
      else if 1 < pmmRefCount m (pteFrame (m.pte a v)) then (m, none)
      else (m, some (a, v))

/-- The clock, for `n` more steps of the hand. -/
def swapSweep : ℕ → Machine → Machine × Option (ℕ × ℕ × ℕ)
  | 0, m => (m, none)
  | n + 1, m =>
    let f := m.hand
    let m := { m with hand := if m.highest ≤ m.hand + 1 then 0 else m.hand + 1 }
    match swapVictimOk m f with
    | (m, none) => swapSweep n m
    | (m, some (a, v)) =>
      if has (m.pte a v) pteAccessed then
        swapSweep n (m.setPte a v (m.pte a v &&& ~~~pteAccessed))
      else (m, some (f, a, v))

/-- `swap_find_victim`: two sweeps over all frames at most. -/
def swapFindVictim (m : Machine) : Machine × Option (ℕ × ℕ × ℕ) :=
  if m.rmap.isNone then (m, none) else swapSweep (2 * m.highest) m

/-- `swap_out_one`: the data reaches the pagefile before the entry stops pointing at it. -/
def swapOutOne (m : Machine) : Machine × Bool :=
  match swapFindVictim m with
  | (m, none) => (m, false)
  | (m, some (f, a, v)) =>
    if f = 0 then (m, false)
    else
      match swapSlotAlloc m with
      | (m, none) => (m, false)
      | (m, some slot) =>
        if m.slotFails slot then (swapSlotFree m slot, false)
        else
          let frame := pteFrame (m.pte a v)
          let m := { m with pagefile := update m.pagefile slot (m.mem frame) }
          let m := m.setPte a v (swapPteMake slot (m.pte a v))
          (pmmFree (swapRmapForget m frame) frame, true)

def swapReclaim (m : Machine) : Machine × Bool :=
  if !m.swapReady || m.swapBusy then (m, false)
  else
    let r := swapOutOne { m with swapBusy := true }
    ({ r.1 with swapBusy := false }, r.2)

/-- `pmm_alloc`: the bitmap, and after one reclaim the bitmap again. -/
def pmmAlloc (m : Machine) : Machine × ℕ :=
  match pmmAllocOnce m with
  | (m, 0) =>
    match swapReclaim m with
    | (m, false) => (m, 0)
    | (m, true) => pmmAllocOnce m
  | (m, f) => (m, f)

def swapInPage (m : Machine) (a v : ℕ) : Machine × Bool :=
  if !m.swapReady || !(m.space a).live then (m, false)
  else if !swapPteIsSwapped (m.pte a v) then (m, false)
  else
    let slot := swapPteSlot (m.pte a v)
    if m.slotCount ≤ slot then (m, false)
    else
      match pmmAlloc m with
      | (m, 0) => (m, false)
      | (m, f) =>
        if m.slotFails slot then (pmmFree m f, false)
        else
          let m := { m with mem := update m.mem f (m.pagefile slot) }
          let m := m.setPte a v
            ((physOf f &&& pteAddrMask) ||| (m.pte a v &&& swapPermMask) ||| ptePresent)
          (swapRmapRecord (swapSlotFree m slot) f a v, true)

def swapDiscardPte (m : Machine) (e : Pte) : Machine :=
  if !m.swapReady || !swapPteIsSwapped e then m
  else if swapPteSlot e < m.slotCount then swapSlotFree m (swapPteSlot e)
  else m

end Vextro.Paging
