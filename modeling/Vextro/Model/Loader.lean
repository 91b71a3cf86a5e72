import Vextro.Model.MemoryCalls

/-! Programs into memory: `SYS_SBRK`, `app_map_image`, `app_spawn` and `sys_execve` of `desktop.h`,
as far as pages are concerned. -/

namespace Vextro.Paging

def pteGuard : Pte := BitVec.twoPow 64 11

def userImageMax : ℕ := 0x10000000
def userTrampVa : ℕ := 0x20000000
def userCanvasVa : ℕ := 0x30000000
def userHeapMax : ℕ := 0x100000000000
def userStackTop : ℕ := 0x7FFFFFFFF000
def userStackSize : ℕ := 256 * 1024

/-- Data pages: a program may write to them and not run them. -/
def dataFlags : Pte := pteUser ||| pteWrite ||| pteNx

/-- Go on, unless the step before has failed. -/
def andThen (r : Machine × Bool) (next : Machine → Machine × Bool) : Machine × Bool :=
  if r.2 then next r.1 else r

/-- A loop that gives up at the first failure. -/
def forEach {α : Type} (body : Machine → α → Machine × Bool) : List α → Machine → Machine × Bool
  | [], m => (m, true)
  | x :: xs, m => andThen (body m x) (forEach body xs)

/-! ## Mapping -/

/-- A new frame at page `v`; the frame is `0` when there is none or no table for it. -/
def vmmAllocMap (m : Machine) (a v : ℕ) (flags : Pte) : Machine × ℕ :=
  match pmmAlloc m with
  | (m, 0) => (m, 0)
  | (m, f) =>
    match vmmMap m a v f flags with
    | (m, false) => (pmmFree m f, 0)
    | (m, true) => (m, f)

/-- `vmm_alloc_range`; it has mapped all it was asked for when it does not fail. -/
def vmmAllocRange (m : Machine) (a base len : ℕ) (flags : Pte) : Machine × Bool :=
  forEach (fun m v =>
    let r := vmmAllocMap m a v flags
    (r.1, r.2 ≠ 0)) (rangePages base len) m

/-- `vmm_map_shared`: frames of the kernel, in order, from page `v` on. -/
def vmmMapShared (m : Machine) (a v : ℕ) (frames : List ℕ) (flags : Pte) : Machine × Bool :=
  forEach (fun m i =>
    if frames.getD i 0 = 0 then (m, false)
    else vmmMap m a (v + i) (frames.getD i 0) (flags ||| pteShared)) (List.range frames.length) m

/-- `vmm_resolve`: the frame behind an address, fetched or made if need be. -/
def vmmResolve (m : Machine) (a va : ℕ) : Machine × Option ℕ :=
  let v := va / 4096
  let m := if has (m.pte a v) ptePresent then m else (vmmFaultAnon m a va).1
  if has (m.pte a v) ptePresent then (m, some (pteFrame (m.pte a v)))
  else if !swapPteIsSwapped (m.pte a v) then (m, none)
  else
    match swapInPage m a v with
    | (m, false) => (m, none)
    | (m, true) =>
      if has (m.pte a v) ptePresent then (m, some (pteFrame (m.pte a v))) else (m, none)

/-- A run of bytes, written into a page. -/
def putBytes (page : Page) (offset : ℕ) (bytes : List UInt8) : Page := fun i =>
  if offset ≤ i.val then bytes.getD (i.val - offset) (page i) else page i

/-- The loop of `as_write`, for at most `n` chunks. -/
def asWriteFrom (a : ℕ) : ℕ → ℕ → List UInt8 → Machine → Machine × Bool
  | 0, _, _, m => (m, true)
  | n + 1, va, bytes, m =>
    if bytes.isEmpty then (m, true)
    else
      match vmmResolve m a va with
      | (m, none) => (m, false)
      | (m, some f) =>
        let chunk := min (4096 - va % 4096) bytes.length
        let page := putBytes (m.mem f) (va % 4096) (bytes.take chunk)
        asWriteFrom a n (va + chunk) (bytes.drop chunk)
          { m with mem := Function.update m.mem f page }

/-- `as_write`; every chunk holds at least one byte. -/
def asWrite (m : Machine) (a va : ℕ) (bytes : List UInt8) : Machine × Bool :=
  asWriteFrom a bytes.length va bytes m

def asPoke64 (m : Machine) (a va val : ℕ) : Machine × Bool :=
  asWrite m a va ((List.range 8).map fun i => UInt8.ofNat (val / 256 ^ i))

/-! ## The break -/

/-- `sys_sbrk`; the break moves back without giving pages up. -/
def sysSbrk (m : Machine) (a : ℕ) (delta : ℤ) : Machine × Bool :=
  let s := m.space a
  if !s.live then (m, false)
  else if delta = 0 then (m, true)
  else if delta < 0 then
    let back := delta.natAbs
    let want := if (s.brk + 2 ^ 64 - userHeapBase) % 2 ^ 64 < back then userHeapBase
      else s.brk - back
    (m.setSpace a { s with brk := want }, true)
  else
    let want := (s.brk + delta.natAbs) % 2 ^ 64
    if want < s.brk || userHeapMax < want then (m, false)
    else if s.brkTop < want then
      let top := pageAlignUp want
      andThen (vmmAllocRange m a s.brkTop (top - s.brkTop) dataFlags) fun m =>
        (m.setSpace a { m.space a with brkTop := top, brk := want }, true)
    else (m.setSpace a { s with brk := want }, true)

/-! ## Images -/

def aprotWrite : UInt8 := 2
def aprotExec : UInt8 := 4

/-- The flags of an image page; a page that no segment claims is readable. -/
def aprotFlags (prot : UInt8) : Pte :=
  let prot := if prot = 0 then 1 else prot
  pteUser ||| (if prot &&& aprotWrite ≠ 0 then pteWrite else 0) |||
    (if prot &&& aprotExec ≠ 0 then 0 else pteNx)

/-- What `aslr_next` has drawn for the pieces of a program that can move. -/
structure Layout where
  stack : ℕ
  tramp : ℕ
  canvas : ℕ
  heap : ℕ

def aslrOffset (draw pages : ℕ) : ℕ := draw % pages * 4096

/-! `app_layout_pick` -/

def Layout.stackTop (l : Layout) : ℕ := userStackTop - aslrOffset l.stack 256
def Layout.trampVa (l : Layout) : ℕ := userTrampVa + aslrOffset l.tramp 1024
def Layout.canvasVa (l : Layout) : ℕ := userCanvasVa + aslrOffset l.canvas 1024
def Layout.heapBase (l : Layout) : ℕ := userHeapBase + aslrOffset l.heap 4096

/-- A staged image, and the kernel's pages that every program gets. -/
structure Image where
  base : ℕ
  span : ℕ
  /-- `app_page_prot` -/
  prot : ℕ → UInt8
  /-- `app_memory` -/
  staged : ℕ → Page
  /-- The frames of the trampolines, which do not reach the canvas. -/
  tramp : List ℕ
  /-- The frames of the surface, which do not reach the heap. -/
  canvas : List ℕ
  /-- `utramp_exit - utramp_start` -/
  exitStub : ℕ
  tramp_fits : tramp.length ≤ 1024
  canvas_fits : canvas.length ≤ 1024

/-- Where page `p` of an image goes: the sum `base_va + p * 4096` is one of 64 bits. -/
def imagePage (base p : ℕ) : ℕ := (base + p * 4096) % 2 ^ 64 / 4096

/-- An image page gets a frame, and the frame the staged bytes. -/
def appMapPage (a : ℕ) (img : Image) (m : Machine) (p : ℕ) : Machine × Bool :=
  match vmmAllocMap m a (imagePage img.base p) (aprotFlags (img.prot p)) with
  | (m, 0) => (m, false)
  | (m, f) => ({ m with mem := Function.update m.mem f (img.staged p) }, true)

/-- The page below the stack; no harm is done if it has no table. -/
def appMapGuard (m : Machine) (a v : ℕ) : Machine :=
  match vmmWalk m a v with
  | (m, false) => m
  | (m, true) => m.setPte a v pteGuard

/-- `app_map_image`: the image, the stack and its guard, the trampolines, the surface and the
address to return to. -/
def appMapImage (m : Machine) (a : ℕ) (img : Image) (lay : Layout) : Machine × Bool :=
  let m := m.setSpace a { m.space a with brk := lay.heapBase, brkTop := lay.heapBase }
  andThen (forEach (appMapPage a img) (List.range ((img.span + 4095) / 4096)) m) fun m =>
    andThen (vmmAllocRange m a (lay.stackTop - userStackSize) userStackSize dataFlags) fun m =>
      let m := appMapGuard m a ((lay.stackTop - userStackSize - 4096) / 4096)
      andThen (vmmMapShared m a (lay.trampVa / 4096) img.tramp pteUser) fun m =>
        andThen (vmmMapShared m a (lay.canvasVa / 4096) img.canvas dataFlags) fun m =>
          asPoke64 m a (lay.stackTop - 8) (lay.trampVa + img.exitStub)

/-- The image lies where images may lie, if its end does not wrap around to there. -/
def Image.inPlace (img : Image) : Bool :=
  userMin ≤ img.base && (img.base + img.span) % 2 ^ 64 ≤ userImageMax

/-- A space that is given up when the rest fails. -/
def orDestroy (a : ℕ) (r : Machine × Bool) : Machine × Bool :=
  if r.2 then r else (vmmDestroy r.1 a, false)

/-- `app_spawn`; the structure is newly allocated, so `a` names no live space, and `thread` is the
answer of the scheduler. -/
def appSpawn (m : Machine) (a : ℕ) (img : Image) (lay : Layout) (thread : Bool) : Machine × Bool :=
  if (m.space a).live || !img.inPlace then (m, false)
  else
    andThen (vmmCreate m a) fun m =>
      orDestroy a (andThen (appMapImage m a img lay) fun m => (m, thread))

/-- `sys_execve` once the file is staged: the new space is built and gets its arguments, and the old
one goes. -/
def sysExecve (m : Machine) (nas old : ℕ) (img : Image) (lay : Layout)
    (args : List (ℕ × List UInt8)) : Machine × Bool :=
  if !(m.space old).live || (m.space nas).live || !img.inPlace then (m, false)
  else
    andThen (vmmCreate m nas) fun m =>
      andThen (orDestroy nas (andThen (appMapImage m nas img lay) fun m =>
        forEach (fun m arg => asWrite m nas arg.1 arg.2) args m)) fun m =>
          (vmmDestroy m old, true)

/-! ## Calls -/

inductive Call where
  | op (o : Op)
  | sbrk (a : ℕ) (delta : ℤ)
  | spawn (a : ℕ) (img : Image) (lay : Layout) (thread : Bool)
  | execve (nas old : ℕ) (img : Image) (lay : Layout) (args : List (ℕ × List UInt8))

def call (m : Machine) : Call → Machine × Bool
  | .op o => step m o
  | .sbrk a delta => sysSbrk m a delta
  | .spawn a img lay thread => appSpawn m a img lay thread
  | .execve nas old img lay args => sysExecve m nas old img lay args

end Vextro.Paging
