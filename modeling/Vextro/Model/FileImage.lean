import Vextro.Model.Descriptors
import Vextro.Verification.Shared.Buffer

/-! Files behind a descriptor: the write-back image of `vfs.h`, and `SYS_FTRUNCATE`.

A step that would touch a byte outside of a buffer has no result. What the heap answers, with
what the new block happens to hold, is an argument of the call. -/

namespace Vextro.Vfs

open Buffer
open Descriptors (Kind)

def vfsWbufMin : ℕ := 4096
def vfsWbufMax : ℕ := 4194304

def vxeNoent : ℤ := 2
def vxeIo : ℤ := 5
def vxeBadf : ℤ := 9
def vxeNomem : ℤ := 12
def vxeExist : ℤ := 17
def vxeInval : ℤ := 22
def vxeNospc : ℤ := 28
def vxeSpipe : ℤ := 29
def vxeRofs : ℤ := 30
def vxeOverflow : ℤ := 75

/-- A resolved file: its size, and what `fs_pread` answers at an offset for a length. -/
structure FsFile where
  valid : Bool
  size : ℕ
  pread : ℕ → ℕ → Option (List UInt8)
  short : ∀ pos len bytes, pread pos len = some bytes → bytes.length ≤ len

def FsFile.none : FsFile := ⟨false, 0, fun _ _ => Option.none, fun _ _ _ h => nomatch h⟩

/-- The bits of `oflags`. -/
structure OFlags where
  acc : Fin 4
  creat : Bool
  excl : Bool
  trunc : Bool
  append : Bool

def OFlags.wantsWrite (o : OFlags) : Bool := o.acc = 1 || o.acc = 2

def vxORdwr : Fin 4 := 2

def OFlags.readable (o : OFlags) : Bool := o.acc = 0 || o.acc = 2

structure Desc where
  kind : Kind
  readable : Bool
  writable : Bool
  dirty : Bool
  append : Bool
  pos : ℕ
  file : FsFile
  /-- A block of `wcap` bytes. -/
  wbuf : Option (List UInt8)
  wlen : ℕ
  nents : ℕ
  devLength : ℕ

def Desc.wcap (d : Desc) : ℕ := (d.wbuf.getD []).length

abbrev Heap := Option (ℕ → UInt8)

def kmalloc (heap : Heap) (cap : ℕ) : Option (List UInt8) :=
  heap.map fun junk => (List.range cap).map junk

structure Reply where
  ret : ℤ
  data : List UInt8
  deriving DecidableEq

/-! ## Opening -/

def vfsOpenReg (oflags : OFlags) (exist fsWritable : Bool) (fsOpen : Option FsFile) (heap : Heap) :
    Except ℤ Desc :=
  if !exist && !oflags.creat then .error (-vxeNoent)
  else if exist && oflags.creat && oflags.excl then .error (-vxeExist)
  else if oflags.wantsWrite && !fsWritable then .error (-vxeRofs)
  else
    let seeded := exist && !oflags.trunc
    match if seeded then fsOpen else some .none with
    | none => .error (-vxeNoent)
    | some file =>
      let d : Desc :=
        ⟨.file, oflags.readable, oflags.wantsWrite, false, oflags.append, 0, file, none, 0, 0, 0⟩
      if !oflags.wantsWrite then .ok d
      else if seeded && vfsWbufMax < file.size then .error (-vxeOverflow)
      else
        let seed := if seeded then file.size else 0
        match kmalloc heap (if seed < vfsWbufMin then vfsWbufMin else seed) with
        | none => .error (-vxeNomem)
        | some wbuf =>
          match if seed ≠ 0 then file.pread 0 seed else some [] with
          | none => .error (-vxeIo)
          | some got =>
            -- the bytes go to the front of the block
            .ok { d with
              wbuf := some (got ++ wbuf.drop got.length)
              wlen := got.length
              pos := if oflags.append then got.length else 0
              dirty := !exist || oflags.trunc }

/-! ## Reading and writing -/

def vfsFileRead (d : Desc) (len : ℕ) : Option (Desc × Reply) :=
  if !d.readable then some (d, ⟨-vxeBadf, []⟩)
  else if len = 0 then some (d, ⟨0, []⟩)
  else
    match if d.writable then d.wbuf else none with
    | some wbuf =>
      if d.wlen ≤ d.pos then some (d, ⟨0, []⟩)
      else do
        let n := min (d.wlen - d.pos) len
        let bytes ← slice wbuf d.pos n
        return ({ d with pos := d.pos + n }, ⟨n, bytes⟩)
    | none =>
      if !d.file.valid then some (d, ⟨0, []⟩)
      else
        match d.file.pread d.pos len with
        | none => some (d, ⟨-vxeIo, []⟩)
        | some got => some ({ d with pos := d.pos + got.length }, ⟨got.length, got⟩)

/-- `while (cap < need) cap *= 2` -/
def doubled : ℕ → ℕ → ℕ → ℕ
  | 0, cap, _ => cap
  | fuel + 1, cap, need => if cap < need then doubled fuel (cap * 2) need else cap

def vfsWbufReserve (d : Desc) (need : ℕ) (heap : Heap) : Option (Desc × ℤ) :=
  if need ≤ d.wcap then some (d, 0)
  else if vfsWbufMax < need then some (d, -vxeNospc)
  else
    let cap := doubled need (if d.wcap ≠ 0 then d.wcap else vfsWbufMin) need
    match kmalloc heap (if vfsWbufMax < cap then vfsWbufMax else cap) with
    | none => some (d, -vxeNomem)
    | some grown => do
        let old ← slice (d.wbuf.getD []) 0 d.wlen
        let grown ← store grown 0 old
        return ({ d with wbuf := some grown }, 0)

def vfsFileWrite (d : Desc) (data : List UInt8) (heap : Heap) : Option (Desc × Reply) :=
  if !d.writable || d.wbuf.isNone then some (d, ⟨-vxeBadf, []⟩)
  else if data = [] then some (d, ⟨0, []⟩)
  else do
    let d := if d.append then { d with pos := d.wlen } else d
    let last := d.pos + data.length
    let (d, rc) ← vfsWbufReserve d last heap
    if rc ≠ 0 then return (d, ⟨rc, []⟩)
    let wbuf ← store (d.wbuf.getD []) d.wlen (List.replicate (d.pos - d.wlen) 0)
    let wbuf ← store wbuf d.pos data
    return ({ d with wbuf := some wbuf, pos := last, wlen := max d.wlen last, dirty := true },
      ⟨data.length, []⟩)

def sysFtruncate (d : Desc) (want : ℕ) (heap : Heap) : Option (Desc × Reply) :=
  if d.kind ≠ .file || !d.writable || d.wbuf.isNone then some (d, ⟨-vxeBadf, []⟩)
  else if vfsWbufMax < want then some (d, ⟨-vxeNospc, []⟩)
  else do
    let (d, rc) ← vfsWbufReserve d want heap
    if rc ≠ 0 then return (d, ⟨rc, []⟩)
    let wbuf ← store (d.wbuf.getD []) d.wlen (List.replicate (want - d.wlen) 0)
    return ({ d with wbuf := some wbuf, wlen := want, dirty := true }, ⟨0, []⟩)

/-- A sum of type `int64_t`. -/
def wrap (x : ℤ) : ℤ := x.bmod (2 ^ 64)

/-- `switch (whence)` -/
def seekWant (pos last : ℕ) (off : Int64) (whence : ℕ) : Option ℤ :=
  match whence with
  | 0 => some off.toInt
  | 1 => some (wrap (pos + off.toInt))
  | 2 => some (wrap (last + off.toInt))
  | _ => none

def vfsSeek (d : Desc) (off : Int64) (whence : ℕ) : Desc × Reply :=
  if d.kind = .sock || d.kind = .console then (d, ⟨-vxeSpipe, []⟩)
  else
    let last : ℕ :=
      if d.kind = .dev then d.devLength
      else if d.kind = .dir then d.nents
      else if d.writable && d.wbuf.isSome then d.wlen
      else d.file.size
    match seekWant d.pos last off whence with
    | none => (d, ⟨-vxeInval, []⟩)
    | some want =>
      if want < 0 then (d, ⟨-vxeInval, []⟩)
      else if d.kind = .file && d.writable && (vfsWbufMax : ℤ) < want then (d, ⟨-vxeNospc, []⟩)
      else ({ d with pos := want.toNat }, ⟨want, []⟩)

/-- With what `fs_write_file` was given, if it was called; `ok` is its answer. -/
def vfsFlush (d : Desc) (ok : Bool) : Option (Desc × Reply × Option (List UInt8)) :=
  if d.kind ≠ .file then some (d, ⟨0, []⟩, none)
  else
    match if d.dirty then d.wbuf else none with
    | none => some (d, ⟨0, []⟩, none)
    | some wbuf => do
        let image ← slice wbuf 0 d.wlen
        return (if ok then { d with dirty := false } else d, ⟨if ok then 0 else -vxeIo, []⟩,
          some image)

/-! ## Calls -/

inductive FileCall where
  | read (len : ℕ)
  | write (data : List UInt8) (heap : Heap)
  | seek (off : Int64) (whence : ℕ)
  | ftruncate (want : ℕ) (heap : Heap)

inductive Action where
  | call (c : FileCall)
  | flush (ok : Bool)

structure Outcome where
  reply : Reply
  handed : Option (List UInt8)
  deriving DecidableEq

def FileCall.exec (d : Desc) : FileCall → Option (Desc × Reply)
  | .read len => vfsFileRead d len
  | .write data heap => vfsFileWrite d data heap
  | .seek off whence => some (vfsSeek d off whence)
  | .ftruncate want heap => sysFtruncate d want heap

def Action.exec (d : Desc) : Action → Option (Desc × Outcome)
  | .call c => (c.exec d).map fun r => (r.1, ⟨r.2, none⟩)
  | .flush ok => (vfsFlush d ok).map fun r => (r.1, ⟨r.2.1, r.2.2⟩)

def perform : Desc → List Action → Option (Desc × List Outcome)
  | d, [] => some (d, [])
  | d, a :: as => do
      let (d, out) ← a.exec d
      let (d, outs) ← perform d as
      return (d, out :: outs)

end Vextro.Vfs
