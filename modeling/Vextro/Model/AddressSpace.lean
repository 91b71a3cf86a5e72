import Vextro.Model.Machine

/-! Address spaces: creation, mapping, reservations, fork and teardown, after `vmm.h`. -/

namespace Vextro.Paging

/-- Where a table sits: `shift` is 27, 18 or 9, the page-number bits below its level. -/
def tableKey (shift v : ℕ) : ℕ := shift * 2 ^ 40 + v / 2 ^ shift

/-- Step of `vmm_walk(create = 1)` through one level of tables. -/
def vmmWalkLevel (m : Machine) (a v shift : ℕ) : Machine × Bool :=
  if (m.space a).tables.get (tableKey shift v) ≠ 0 then (m, true)
  else
    match pmmAlloc m with
    | (m, 0) => (m, false)
    | (m, f) =>
      (m.setSpace a { m.space a with
          tables := (m.space a).tables.set (tableKey shift v) f }, true)

/-- `vmm_walk(create = 1)`: build the tables down to the leaf. -/
def vmmWalk (m : Machine) (a v : ℕ) : Machine × Bool :=
  match vmmWalkLevel m a v 27 with
  | (m, false) => (m, false)
  | (m, true) =>
    match vmmWalkLevel m a v 18 with
    | (m, false) => (m, false)
    | (m, true) => vmmWalkLevel m a v 9

/-- `vmm_map` of a user page. -/
def vmmMap (m : Machine) (a v f : ℕ) (flags : Pte) : Machine × Bool :=
  match vmmWalk m a v with
  | (m, false) => (m, false)
  | (m, true) =>
    let m := m.setPte a v (pteMake f flags)
    if has flags pteUser && !has flags pteShared then (swapRmapRecord m f a v, true)
    else (swapRmapForget m f, true)

def userHeapBase : ℕ := 0x40000000
def userMmapBase : ℕ := 0x100000000000
def userMmapMax : ℕ := 0x400000000000
def userMin : ℕ := 0x1000
def userSpaceEnd : ℕ := 0x800000000000

def vmmCreate (m : Machine) (a : ℕ) : Machine × Bool :=
  match pmmAlloc m with
  | (m, 0) => (m, false)
  | (m, f) =>
    (m.setSpace a
      { live := true, pml4 := f, tables := .empty, pt := .empty
        brk := userHeapBase, brkTop := userHeapBase, mmapNext := userMmapBase
        vmas := 0, areas := [], vmaCount := 0 }, true)

/-! ## Reservations -/

def vmaMax : ℕ := 128

def vmaFixed : ℕ := 1

/-- `vmm_area_table(create = 1)` -/
def vmmAreaTable (m : Machine) (a : ℕ) : Machine × Bool :=
  if (m.space a).vmas ≠ 0 then (m, true)
  else
    match pmmAlloc m with
    | (m, 0) => (m, false)
    | (m, f) =>
      (m.setSpace a { m.space a with
          vmas := f, areas := List.replicate vmaMax freeArea, vmaCount := 0 }, true)

def Area.covers (x : Area) (va : ℕ) : Bool :=
  x.len ≠ 0 && x.base ≤ va && va < x.base + x.len

/-- `vmm_area_find`; a space with no table has no reservations. -/
def vmmAreaFind (m : Machine) (a va : ℕ) : Option Area :=
  if (m.space a).vmas = 0 then none else (m.space a).areas.find? fun x => x.covers va

def setAreas (m : Machine) (a : ℕ) (areas : List Area) : Machine :=
  m.setSpace a { m.space a with areas := areas }

def vmmAreaAdd (m : Machine) (a : ℕ) (x : Area) : Machine × Bool :=
  match vmmAreaTable m a with
  | (m, false) => (m, false)
  | (m, true) =>
    match (m.space a).areas.findIdx? fun y => y.len = 0 with
    | none => (m, false)
    | some i =>
      (m.setSpace a { m.space a with
          areas := (m.space a).areas.set i x
          vmaCount := (m.space a).vmaCount + 1 }, true)

/-- One round of the loop in `vmm_area_remove`, for slot `i` and the range `base..stop`. -/
def vmmAreaCut (m : Machine) (a base stop i : ℕ) : Machine × Bool :=
  let areas := (m.space a).areas
  let x := areas.getD i freeArea
  if x.len = 0 then (m, true)
  else if stop ≤ x.base || x.base + x.len ≤ base then (m, true)
  else if base ≤ x.base && x.base + x.len ≤ stop then
    (m.setSpace a { m.space a with
        areas := areas.set i { x with len := 0 }
        vmaCount := (m.space a).vmaCount - 1 }, true)
  else if base ≤ x.base then
    (setAreas m a (areas.set i { x with base := stop, len := x.base + x.len - stop }), true)
  else if x.base + x.len ≤ stop then
    (setAreas m a (areas.set i { x with len := base - x.base }), true)
  else
    match vmmAreaAdd m a { x with base := stop, len := x.base + x.len - stop } with
    | (m, false) => (m, false)
    | (m, true) =>
      (setAreas m a ((m.space a).areas.set i { x with len := base - x.base }), true)

def vmmAreaRemoveFrom (a base stop : ℕ) : ℕ → ℕ → Machine → Machine × Bool
  | _, 0, m => (m, true)
  | i, n + 1, m =>
    match vmmAreaCut m a base stop i with
    | (m, false) => (m, false)
    | (m, true) => vmmAreaRemoveFrom a base stop (i + 1) n m

def vmmAreaRemove (m : Machine) (a base len : ℕ) : Machine × Bool :=
  if (m.space a).vmas = 0 then (m, true)
  else vmmAreaRemoveFrom a base (base + len) 0 vmaMax m

/-- `vmm_fault_anon`: back one page of a reservation. -/
def vmmFaultAnon (m : Machine) (a va : ℕ) : Machine × Bool :=
  let v := va / 4096
  if !(m.space a).live then (m, false)
  else if userSpaceEnd ≤ va then (m, false)
  else
    match vmmAreaFind m a (v * 4096) with
    | none => (m, false)
    | some x =>
      if has (m.pte a v) ptePresent then (m, true)
      else if swapPteIsSwapped (m.pte a v) then (m, false)
      else
        match pmmAlloc m with
        | (m, 0) => (m, false)
        | (m, f) =>
          let m := { m with mem := Function.update m.mem f zeroPage }
          match vmmMap m a v f x.pteFlags with
          | (m, false) => (pmmFree m f, false)
          | (m, true) => (m, true)

/-! ## Ranges -/

/-- The pages a byte range touches: from `PAGE_ALIGN_DOWN(base)` up to
`PAGE_ALIGN_UP(base + len)`. -/
def rangePages (base len : ℕ) : List ℕ :=
  List.range' (base / 4096) ((base + len + 4095) / 4096 - base / 4096)

/-- One page of `vmm_unmap_range`. -/
def vmmUnmapPage (m : Machine) (a v : ℕ) : Machine :=
  let e := m.pte a v
  if e = 0 then m
  else if has e ptePresent then
    let m := if has e pteShared then m
      else pmmFree (swapRmapForget m (pteFrame e)) (pteFrame e)
    m.setPte a v 0
  else (swapDiscardPte m e).setPte a v 0

def vmmUnmapRange (m : Machine) (a base len : ℕ) : Machine :=
  if !(m.space a).live || len = 0 then m
  else (rangePages base len).foldl (fun m v => vmmUnmapPage m a v) m

/-- One page of `vmm_protect_range`. -/
def vmmProtectPage (m : Machine) (a v : ℕ) (flags : Pte) : Machine :=
  if has (m.pte a v) ptePresent then
    m.setPte a v
      ((m.pte a v &&& (pteAddrMask ||| pteShared ||| pteCow)) ||| flags ||| ptePresent)
  else m

/-- Whole reservations inside the range take the new protection for pages to come. -/
def protectArea (base len : ℕ) (flags : Pte) (x : Area) : Area :=
  if x.len ≠ 0 && base ≤ x.base && x.base + x.len ≤ base + len then
    { x with pteFlags := flags }
  else x

def vmmProtectRange (m : Machine) (a base len : ℕ) (flags : Pte) : Machine :=
  if !(m.space a).live || len = 0 then m
  else
    let m := (rangePages base len).foldl (fun m v => vmmProtectPage m a v flags) m
    if (m.space a).vmas = 0 then m
    else setAreas m a ((m.space a).areas.map (protectArea base len flags))

/-! ## Fork, copy on write, teardown -/

/-- One entry of `vmm_fork`'s walk of the parent's tables. -/
def vmmForkPage (m : Machine) (dst src v : ℕ) : Machine × Bool :=
  let r :=
    if has (m.pte src v) ptePresent then (m, true)
    else if swapPteIsSwapped (m.pte src v) then swapInPage m src v
    else (m, true)
  match r with
  | (m, false) => (m, false)
  | (m, true) =>
    if !has (m.pte src v) ptePresent then (m, true)
    else
      let m :=
        if !has (m.pte src v) pteShared && has (m.pte src v) pteWrite then
          m.setPte src v ((m.pte src v &&& ~~~pteWrite) ||| pteCow)
        else m
      let e := m.pte src v
      let m := if has e pteShared then m else pmmRefInc m (pteFrame e)
      match vmmWalk m dst v with
      | (m, false) => (m, false)
      | (m, true) => (m.setPte dst v e, true)

def vmmForkPages (dst src : ℕ) : List ℕ → Machine → Machine × Bool
  | [], m => (m, true)
  | v :: vs, m =>
    match vmmForkPage m dst src v with
    | (m, false) => (m, false)
    | (m, true) => vmmForkPages dst src vs m

/-- The reservations a fork copies. -/
def vmmForkAreas (m : Machine) (dst src : ℕ) : Machine × Bool :=
  if (m.space src).vmas = 0 then (m, true)
  else
    match vmmAreaTable m dst with
    | (m, false) => (m, false)
    | (m, true) =>
      (m.setSpace dst { m.space dst with
          areas := (m.space src).areas
          vmaCount := (m.space src).vmaCount }, true)

def vmmFork (m : Machine) (dst src : ℕ) : Machine × Bool :=
  match vmmCreate m dst with
  | (m, false) => (m, false)
  | (m, true) =>
    let m := m.setSpace dst { m.space dst with
      brk := (m.space src).brk
      brkTop := (m.space src).brkTop
      mmapNext := (m.space src).mmapNext }
    match vmmForkAreas m dst src with
    | (m, false) => (m, false)
    | (m, true) => vmmForkPages dst src (m.space src).pt.keys m

/-- `vmm_resolve_cow`: the last owner keeps the frame, anyone else gets a copy. -/
def vmmResolveCow (m : Machine) (a va : ℕ) : Machine × Bool :=
  let v := va / 4096
  if !(m.space a).live then (m, false)
  else if !has (m.pte a v) ptePresent || !has (m.pte a v) pteCow then (m, false)
  else
    let old := pteFrame (m.pte a v)
    if pmmRefCount m old ≤ 1 then
      (m.setPte a v ((m.pte a v &&& ~~~pteCow) ||| pteWrite), true)
    else
      match pmmAlloc m with
      | (m, 0) => (m, false)
      | (m, f) =>
        let m := { m with mem := Function.update m.mem f (m.mem old) }
        let m := m.setPte a v
          (physOf f ||| (m.pte a v &&& ~~~(pteAddrMask ||| pteCow)) ||| pteWrite)
        (pmmFree m old, true)

/-- What `vmm_destroy` does with one leaf entry; the entry goes with its table. -/
def vmmDropPage (m : Machine) (a v : ℕ) : Machine :=
  let e := m.pte a v
  let m :=
    if !has e ptePresent then swapDiscardPte m e
    else if has e pteShared then m
    else pmmFree m (pteFrame e)
  m.setPte a v 0

/-- Return the frame of one inner table. -/
def vmmDropTable (m : Machine) (a key : ℕ) : Machine :=
  let f := (m.space a).tables.get key
  if f = 0 then m
  else
    let m := pmmFree m f
    m.setSpace a { m.space a with tables := (m.space a).tables.set key 0 }

/-- `vmm_destroy`: leaves, inner tables, the root table, the reservation table. -/
def vmmDestroy (m : Machine) (a : ℕ) : Machine :=
  if !(m.space a).live then m
  else
    let m := (m.space a).pt.keys.foldl (fun m v => vmmDropPage m a v) m
    let m := (m.space a).tables.keys.foldl (fun m k => vmmDropTable m a k) m
    let m := pmmFree m (m.space a).pml4
    let m := m.setSpace a { m.space a with pml4 := 0, live := false }
    if (m.space a).vmas = 0 then m
    else
      let m := pmmFree m (m.space a).vmas
      m.setSpace a { m.space a with vmas := 0, areas := [], vmaCount := 0 }

end Vextro.Paging
