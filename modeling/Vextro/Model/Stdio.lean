import Mathlib.Algebra.Group.Nat.Defs
import Mathlib.Data.List.Basic
import Mathlib.Data.Int.Basic

/-! Buffered streams after `stdio.c`. The calls below them keep to an array of bytes with an offset;
the flags that only `feof` and `ferror` read are left out. -/

namespace Vextro.Stdio

/-! ## Descriptors -/

/-- Bytes over those from a place on; a gap before them is filled with zeros. -/
def overwrite (data : List UInt8) (start : ℕ) (bytes : List UInt8) : List UInt8 :=
  data.take start ++ List.replicate (start - data.length) 0 ++ bytes ++ data.drop
    (start + bytes.length)

structure File where
  data : List UInt8
  offset : ℕ
  /-- `O_APPEND` -/
  append : Bool
deriving DecidableEq

inductive Whence where
  | seekSet
  | seekCur
  | seekEnd
deriving DecidableEq

namespace File

def read (f : File) (n : ℕ) : File × List UInt8 :=
  let bytes := (f.data.drop f.offset).take n
  ({ f with offset := f.offset + bytes.length }, bytes)

def write (f : File) (bytes : List UInt8) : File :=
  let start := if f.append then f.data.length else f.offset
  { f with data := overwrite f.data start bytes, offset := start + bytes.length }

def target (f : File) (off : ℤ) : Whence → ℤ
  | .seekSet => off
  | .seekCur => f.offset + off
  | .seekEnd => f.data.length + off

def lseek (f : File) (off : ℤ) (whence : Whence) : File × ℤ :=
  if f.target off whence < 0 then (f, -1)
  else ({ f with offset := (f.target off whence).toNat }, f.target off whence)

end File

/-! ## Streams -/

def vxfBufsz : ℕ := 4096

structure Stream where
  file : File
  /-- `VXF_READ` -/
  readable : Bool
  /-- `VXF_WRITE` -/
  writable : Bool
  /-- The mode is `_IOFBF`, and there is a buffer. -/
  buffered : Bool
  /-- The first `len` bytes of the buffer. -/
  held : List UInt8
  pos : ℕ
  /-- `VXF_DIRTY` -/
  dirty : Bool
  ungot : Option UInt8
deriving DecidableEq

/-- The first letter of a mode. -/
inductive Access where
  | r
  | w
  | a
deriving DecidableEq

/-- `fopen` of a file that holds some bytes, with the answer of `malloc`. -/
def fopen (access : Access) (plus memory : Bool) (data : List UInt8) : Stream where
  file := ⟨if access = .w then [] else data, 0, access = .a⟩
  readable := plus || access = .r
  writable := plus || access ≠ .r
  buffered := memory
  held := []
  pos := 0
  dirty := false
  ungot := none

def vxDrain (s : Stream) : Stream :=
  if !s.dirty || s.held.isEmpty then { s with held := [], dirty := false }
  else { s with file := s.file.write s.held, held := [], dirty := false }

def vxFill (s : Stream) : Stream :=
  let r := s.file.read vxfBufsz
  { s with file := r.1, held := r.2, pos := 0 }

def fputc (s : Stream) (c : UInt8) : Stream × Option UInt8 :=
  if !s.writable then (s, none)
  else if !s.buffered then ({ s with file := s.file.write [c] }, some c)
  else
    let s := if s.held.length = vxfBufsz then vxDrain s else s
    ({ s with held := s.held ++ [c], dirty := true }, some c)

/-- The bytes behind a pointer. -/
def bytesAt (p : ℕ → UInt8) (n : ℕ) : List UInt8 := (List.range n).map p

def fwrite (s : Stream) (p : ℕ → UInt8) (size count : ℕ) : Stream × ℕ :=
  let total := size * count
  if size = 0 ∨ count = 0 ∨ 2 ^ 64 ≤ total ∨ s.writable = false then (s, 0)
  else if !s.buffered || vxfBufsz ≤ total then
    let s := vxDrain s
    ({ s with file := s.file.write (bytesAt p total) }, total / size)
  else
    let s := if vxfBufsz < s.held.length + total then vxDrain s else s
    ({ s with held := s.held ++ bytesAt p total, dirty := true }, count)

def fgetc (s : Stream) : Stream × Option UInt8 :=
  if !s.readable then (s, none)
  else
    match s.ungot with
    | some c => ({ s with ungot := none }, some c)
    | none =>
      let s := if s.dirty then vxDrain s else s
      if !s.buffered then
        let r := s.file.read 1
        ({ s with file := r.1 }, r.2.head?)
      else
        let s := if s.held.length ≤ s.pos then vxFill s else s
        match (s.held.drop s.pos).head? with
        | none => (s, none)
        | some c => ({ s with pos := s.pos + 1 }, some c)

/-- `ungetc`, which gives EOF back. -/
def ungetc (s : Stream) (c : Option UInt8) : Stream × Option UInt8 :=
  if c = none ∨ s.ungot ≠ none then (s, none) else ({ s with ungot := c }, c)

/-- The second loop of `fread`, for so many bytes more; a round takes one of them at least. -/
def freadLoop : ℕ → Stream → ℕ → Stream × List UInt8
  | 0, s, _ => (s, [])
  | fuel + 1, s, want =>
    if want = 0 then (s, [])
    else if vxfBufsz ≤ want || !s.buffered then
      let r := s.file.read want
      let s := { s with file := r.1 }
      if r.2.isEmpty then (s, [])
      else
        let next := freadLoop fuel s (want - r.2.length)
        (next.1, r.2 ++ next.2)
    else
      let s := vxFill s
      if s.held.isEmpty then (s, [])
      else
        let n := min s.held.length want
        let next := freadLoop fuel { s with pos := n } (want - n)
        (next.1, s.held.take n ++ next.2)

def fread (s : Stream) (size count : ℕ) : Stream × ℕ × List UInt8 :=
  let total := size * count
  if size = 0 ∨ count = 0 ∨ 2 ^ 64 ≤ total ∨ s.readable = false then (s, 0, [])
  else
    let s := if s.dirty then vxDrain s else s
    let pushed := s.ungot.toList
    let s := { s with ungot := none }
    let ahead := (s.held.drop s.pos).take (total - pushed.length)
    let s := { s with pos := s.pos + ahead.length }
    let want := total - pushed.length - ahead.length
    let r := freadLoop want s want
    (r.1, (pushed ++ ahead ++ r.2).length / size, pushed ++ ahead ++ r.2)

/-- The loop of `fgets`, for so many characters more. -/
def getsLoop {σ : Type} (getc : σ → σ × Option UInt8) : ℕ → σ → σ × List UInt8
  | 0, s => (s, [])
  | n + 1, s =>
    match getc s with
    | (s, none) => (s, [])
    | (s, some c) =>
      if c = 10 then (s, [c])
      else
        let r := getsLoop getc n s
        (r.1, c :: r.2)

/-- `fgets` into an array of so many characters; nothing read is no line. -/
def fgets {σ : Type} (getc : σ → σ × Option UInt8) (s : σ) (cap : ℕ) : σ × Option (List UInt8) :=
  if cap = 0 then (s, none)
  else
    let r := getsLoop getc (cap - 1) s
    (r.1, if r.2.isEmpty then none else some r.2)

def fseek (s : Stream) (off : ℤ) (whence : Whence) : Stream × ℤ :=
  let s := vxDrain s
  let off := if whence = .seekCur ∧ s.pos < s.held.length then off - (s.held.length - s.pos : ℕ)
    else off
  let off := if whence = .seekCur ∧ s.ungot ≠ none then off - 1 else off
  let s := { s with pos := 0, held := [], ungot := none }
  let r := s.file.lseek off whence
  ({ s with file := r.1 }, if r.2 < 0 then -1 else 0)

def ftell (s : Stream) : Stream × ℤ :=
  let s := if s.dirty then vxDrain s else s
  let place : ℤ := s.file.offset
  let place := if s.pos < s.held.length then place - (s.held.length - s.pos : ℕ) else place
  (s, if s.ungot ≠ none then place - 1 else place)

/-! ## Calls -/

inductive Op where
  | fgetc
  | fread (size count : ℕ)
  | ungetc (c : Option UInt8)
  | fgets (cap : ℕ)
  | fputc (c : UInt8)
  | fwrite (p : ℕ → UInt8) (size count : ℕ)
  | fflush
  | fseek (off : ℤ) (whence : Whence)
  | ftell

/-- What a call returns and leaves with its caller. -/
inductive Answer where
  | char (c : Option UInt8)
  | block (count : ℕ) (bytes : List UInt8)
  | line (text : Option (List UInt8))
  | number (n : ℤ)
deriving DecidableEq

def step (s : Stream) : Op → Stream × Answer
  | .fgetc => ((fgetc s).1, .char (fgetc s).2)
  | .fread size count =>
    ((fread s size count).1, .block (fread s size count).2.1 (fread s size count).2.2)
  | .ungetc c => ((ungetc s c).1, .char (ungetc s c).2)
  | .fgets cap => ((fgets fgetc s cap).1, .line (fgets fgetc s cap).2)
  | .fputc c => ((fputc s c).1, .char (fputc s c).2)
  | .fwrite p size count => ((fwrite s p size count).1, .number (fwrite s p size count).2)
  | .fflush => (vxDrain s, .number 0)
  | .fseek off whence => ((fseek s off whence).1, .number (fseek s off whence).2)
  | .ftell => ((ftell s).1, .number (ftell s).2)

end Vextro.Stdio
