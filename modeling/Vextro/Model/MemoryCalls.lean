import Vextro.Model.AddressSpace

/-! The memory system calls of `desktop.h`, the page fault path of `trap.h`, and the
processor's own accesses. -/

namespace Vextro.Paging

def vxProtWrite : UInt64 := 2
def vxProtExec : UInt64 := 4
def vxMapFixed : UInt64 := 0x10
def vxMapAnonymous : UInt64 := 0x20

def asks (word bit : UInt64) : Bool := word &&& bit != 0

/-- The entry flags a protection asks for. -/
def protFlags (prot : UInt64) : Pte :=
  pteUser ||| (if asks prot vxProtWrite then pteWrite else 0) |||
    (if asks prot vxProtExec then 0 else pteNx)

/-- Both `mmap` and `mprotect` refuse a page that is writable and executable. -/
def refusesProt (prot : UInt64) : Bool := asks prot vxProtWrite && asks prot vxProtExec

def pageAlignDown (x : ℕ) : ℕ := x / 4096 * 4096

/-- `PAGE_ALIGN_UP` in 64-bit arithmetic. -/
def pageAlignUp (x : ℕ) : ℕ := (x + 4095) % 2 ^ 64 / 4096 * 4096

def userRangeOk (addr len : ℕ) : Bool :=
  if len = 0 then true
  else if addr < userMin then false
  else if userSpaceEnd ≤ addr then false
  else if (addr + len) % 2 ^ 64 < addr then false
  else (addr + len) % 2 ^ 64 ≤ userSpaceEnd

/-- `SYS_MMAP`; the result is the base address, or none for `-1`. -/
def sysMmap (m : Machine) (a : ℕ) (hint length prot flags : UInt64) : Machine × Option ℕ :=
  let len := pageAlignUp length.toNat
  if !(m.space a).live then (m, none)
  else if length = 0 then (m, none)
  else if !asks flags vxMapAnonymous then (m, none)
  else if len < length.toNat then (m, none)
  else if refusesProt prot then (m, none)
  else
    let kind := if asks flags vxMapFixed then vmaFixed else 0
    if asks flags vxMapFixed && hint ≠ 0 then
      let base := pageAlignDown hint.toNat
      if !userRangeOk base len then (m, none)
      else
        let m := vmmUnmapRange m a base len
        let m := (vmmAreaRemove m a base len).1
        match vmmAreaAdd m a ⟨base, len, protFlags prot, kind⟩ with
        | (m, false) => (m, none)
        | (m, true) => (m, some base)
    else
      let base := (m.space a).mmapNext
      if 2 ^ 64 ≤ base + len || userMmapMax < base + len then (m, none)
      else
        let m := m.setSpace a { m.space a with mmapNext := base + len + 4096 }
        match vmmAreaAdd m a ⟨base, len, protFlags prot, kind⟩ with
        | (m, false) => (m, none)
        | (m, true) => (m, some base)

/-- The base and length `munmap` and `mprotect` work on. -/
def callRange (addr length : UInt64) : ℕ × ℕ :=
  let base := pageAlignDown addr.toNat
  (base, (pageAlignUp ((addr.toNat + length.toNat) % 2 ^ 64) + 2 ^ 64 - base) % 2 ^ 64)

def sysMunmap (m : Machine) (a : ℕ) (addr length : UInt64) : Machine × Bool :=
  let (base, len) := callRange addr length
  if !(m.space a).live then (m, false)
  else if length = 0 then (m, true)
  else if !userRangeOk base len then (m, false)
  else if base < userMmapBase then (m, false)
  else
    match vmmAreaRemove (vmmUnmapRange m a base len) a base len with
    | (m, false) => (m, false)
    | (m, true) =>
      if base + len + 4096 = (m.space a).mmapNext then
        (m.setSpace a { m.space a with mmapNext := base }, true)
      else (m, true)

def sysMprotect (m : Machine) (a : ℕ) (addr length prot : UInt64) : Machine × Bool :=
  let (base, len) := callRange addr length
  if !(m.space a).live then (m, false)
  else if length = 0 then (m, true)
  else if !userRangeOk base len then (m, false)
  else if refusesProt prot then (m, false)
  else if base < userMmapBase then (m, false)
  else (vmmProtectRange m a base len (protFlags prot), true)

/-- `SYS_FORK`, its memory half. The child's structure is newly allocated, so `dst` names
no live space; `accepted` is the outcome of cloning files and signals and finding a
thread. -/
def sysFork (m : Machine) (dst src : ℕ) (accepted : Bool) : Machine × Bool :=
  if !(m.space src).live then (m, false)
  else
    match vmmFork m dst src with
    | (m, false) => (vmmDestroy m dst, false)
    | (m, true) => if accepted then (m, true) else (vmmDestroy m dst, false)

def swapHandleFault (m : Machine) (a va : ℕ) : Machine × Bool :=
  if !m.swapReady then (m, false)
  else if userSpaceEnd ≤ va then (m, false)
  else swapInPage m a (va / 4096)

/-- The page fault cases of `exception_handle`; `false` is a fault reported as an error. -/
def exceptionHandle (m : Machine) (a va : ℕ) (write user : Bool) : Machine × Bool :=
  if has (m.pte a (va / 4096)) ptePresent then
    if write then vmmResolveCow m a va else (m, false)
  else
    match swapHandleFault m a va with
    | (m, true) => (m, true)
    | (m, false) => if user then vmmFaultAnon m a va else (m, false)

/-- A byte of a page, replaced. -/
def putByte (page : Page) (offset : ℕ) (byte : UInt8) : Page :=
  fun i => if i.val = offset then byte else page i

/-- A load from user mode that does not fault: the processor marks the page accessed. -/
def userLoad (m : Machine) (a va : ℕ) : Machine × Bool :=
  let e := m.pte a (va / 4096)
  if has e ptePresent && has e pteUser then
    (m.setPte a (va / 4096) (e ||| pteAccessed), true)
  else (m, false)

/-- A store from user mode; `false` is a page fault and changes nothing. -/
def userStore (m : Machine) (a va : ℕ) (byte : UInt8) : Machine × Bool :=
  let e := m.pte a (va / 4096)
  if has e ptePresent && has e pteUser && has e pteWrite then
    let m := m.setPte a (va / 4096) (e ||| pteAccessed ||| pteDirty)
    let page := putByte (m.mem (pteFrame e)) (va % 4096) byte
    ({ m with mem := Function.update m.mem (pteFrame e) page }, true)
  else (m, false)

/-! ## Operations -/

/-- What can happen to memory, one call at a time. -/
inductive Op where
  | mmap (a : ℕ) (hint length prot flags : UInt64)
  | munmap (a : ℕ) (addr length : UInt64)
  | mprotect (a : ℕ) (addr length prot : UInt64)
  | fork (dst src : ℕ) (accepted : Bool)
  | exit (a : ℕ)
  | fault (a va : ℕ) (write user : Bool)
  | load (a va : ℕ)
  | store (a va : ℕ) (byte : UInt8)
  | vmmFork (dst src : ℕ)
  | resolveCow (a va : ℕ)
  | unmapRange (a base len : ℕ)
  | faultAnon (a va : ℕ)
  | swapOut
  | swapIn (a va : ℕ)
  /-- The device starts or stops failing on some slots. -/
  | device (fails : ℕ → Bool)

/-- Run one operation; the flag is its success. -/
def step (m : Machine) : Op → Machine × Bool
  | .mmap a hint length prot flags =>
    let r := sysMmap m a hint length prot flags
    (r.1, r.2.isSome)
  | .munmap a addr length => sysMunmap m a addr length
  | .mprotect a addr length prot => sysMprotect m a addr length prot
  | .fork dst src accepted => if (m.space dst).live then (m, false) else sysFork m dst src accepted
  | .exit a => (vmmDestroy m a, true)
  | .fault a va write user => exceptionHandle m a va write user
  | .load a va => userLoad m a va
  | .store a va byte => userStore m a va byte
  | .vmmFork dst src =>
    if (m.space dst).live || !(m.space src).live then (m, false) else vmmFork m dst src
  | .resolveCow a va => vmmResolveCow m a va
  | .unmapRange a base len => (vmmUnmapRange m a base len, true)
  | .faultAnon a va => vmmFaultAnon m a va
  | .swapOut => swapOutOne m
  | .swapIn a va => swapInPage m a (va / 4096)
  | .device fails => ({ m with slotFails := fails }, true)

/-- The state after a sequence of operations, whatever each of them answers. -/
def run (m : Machine) (ops : List Op) : Machine :=
  ops.foldl (fun m op => (step m op).1) m

end Vextro.Paging
