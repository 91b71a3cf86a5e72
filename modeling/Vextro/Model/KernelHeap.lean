import Vextro.Model.FrameMap

/-! The kernel heap: `kheap.h`.

A pointer is a physical address; the direct map adds a constant to it. What a slab or a large
block keeps at the start of its page is the `header` of that page, and `link` is the word a free
object holds. -/

namespace Vextro.Kheap

open Paging Function

inductive Pool where
  | nonPaged
  | paged
  deriving DecidableEq

/-- A pool that does not exist stands for the non-paged one. -/
def poolOf (pool : ℤ) : Pool := if pool = 1 then .paged else .nonPaged

def kheapMaxSlab : ℕ := 2048
def kheapHdrBytes : ℕ := 64

def kheapClasses : List ℕ := [16, 32, 64, 128, 256, 512, 1024, 2048]

def classSize (cls : ℕ) : ℕ := kheapClasses.getD cls 16

def kheapClassOf (n : ℕ) : Option ℕ := kheapClasses.findIdx? fun size => n ≤ size

structure Slab where
  (next prev freelist objSize objTotal objFree cls : ℕ)
  pool : Pool

structure Large where
  frames : ℕ
  bytes : ℕ
  pool : Pool

/-- The magic number says which of the two a page starts with. -/
inductive Header where
  | other
  | slab (s : Slab)
  | large (l : Large)

structure Heap where
  m : Machine
  header : ℕ → Header
  link : ℕ → ℕ
  kheapPartial : Pool → ℕ → ℕ
  liveBytes : Pool → ℕ
  slabPages : Pool → ℕ
  largePages : Pool → ℕ

/-! ## Slab lists -/

def Heap.setPartial (h : Heap) (pool : Pool) (cls page : ℕ) : Heap :=
  { h with
    kheapPartial := update h.kheapPartial pool
      (update (h.kheapPartial pool) cls page) }

def Heap.setSlab (h : Heap) (page : ℕ) (s : Slab) : Heap :=
  { h with header := update h.header page (.slab s) }

def Heap.setNext (h : Heap) (page next : ℕ) : Heap :=
  match h.header page with
  | .slab s => h.setSlab page { s with next := next }
  | _ => h

def Heap.setPrev (h : Heap) (page prev : ℕ) : Heap :=
  match h.header page with
  | .slab s => h.setSlab page { s with prev := prev }
  | _ => h

def kheapUnlink (h : Heap) (page : ℕ) : Heap :=
  match h.header page with
  | .slab s =>
    let h := if s.prev ≠ 0 then h.setNext s.prev s.next else h.setPartial s.pool s.cls s.next
    let h := if s.next ≠ 0 then h.setPrev s.next s.prev else h
    (h.setNext page 0).setPrev page 0
  | _ => h

def kheapLink (h : Heap) (page : ℕ) : Heap :=
  match h.header page with
  | .slab s =>
    let first := h.kheapPartial s.pool s.cls
    let h := (h.setPrev page 0).setNext page first
    let h := if first ≠ 0 then h.setPrev first page else h
    h.setPartial s.pool s.cls page
  | _ => h

/-! ## Slabs -/

/-- Every object points at the next one, and the last at nothing. -/
def threadObjects (base size total : ℕ) (link : ℕ → ℕ) : ℕ → ℕ :=
  (List.range total).foldl (fun link i => update link (base + i * size)
    (if i + 1 < total then base + (i + 1) * size else 0)) link

def kheapNewSlab (h : Heap) (cls : ℕ) (pool : Pool) : Heap × ℕ :=
  match pmmAlloc h.m with
  | (m, 0) => ({ h with m := m }, 0)
  | (m, page) =>
    let size := classSize cls
    let total := (4096 - kheapHdrBytes) / size
    let base := page * 4096 + kheapHdrBytes
    ({ h with
        m := m
        header := update h.header page (.slab ⟨0, 0, base, size, total, total, cls, pool⟩)
        link := threadObjects base size total h.link
        slabPages := update h.slabPages pool (h.slabPages pool + 1) }, page)

/-- The first free object of a slab that has one. -/
def slabTake (h : Heap) (page : ℕ) (pool : Pool) : Heap × ℕ :=
  match h.header page with
  | .slab s =>
    let out := s.freelist
    let h := h.setSlab page { s with freelist := h.link out, objFree := s.objFree - 1 }
    let h := if s.objFree - 1 = 0 then kheapUnlink h page else h
    ({ h with
        liveBytes := update h.liveBytes pool (h.liveBytes pool + s.objSize) }, out)
  | _ => (h, 0)

/-- The slab an object is taken from, or `0`. -/
def slabFor (h : Heap) (cls : ℕ) (pool : Pool) : Heap × ℕ :=
  if h.kheapPartial pool cls ≠ 0 then (h, h.kheapPartial pool cls)
  else
    match kheapNewSlab h cls pool with
    | (h, 0) => (h, 0)
    | (h, page) => (kheapLink h page, page)

/-! ## Blocks -/

def largeFrames (n : ℕ) : ℕ := pageAlignUp (kheapHdrBytes + n) / 4096

def kmallocLarge (h : Heap) (n : ℕ) (pool : Pool) : Heap × ℕ :=
  match pmmAllocContig h.m (largeFrames n) with
  | (m, 0) => ({ h with m := m }, 0)
  | (m, page) =>
    ({ h with
        m := m
        header := update h.header page (.large ⟨largeFrames n, n, pool⟩)
        largePages := update h.largePages pool (h.largePages pool + largeFrames n)
        liveBytes := update h.liveBytes pool (h.liveBytes pool + n) },
      page * 4096 + kheapHdrBytes)

def kmallocPool (h : Heap) (n : ℕ) (pool : ℤ) : Heap × ℕ :=
  if n = 0 then (h, 0)
  else
    match if n ≤ kheapMaxSlab then kheapClassOf n else none with
    | some cls =>
      match slabFor h cls (poolOf pool) with
      | (h, 0) => (h, 0)
      | (h, page) => slabTake h page (poolOf pool)
    | none => kmallocLarge h n (poolOf pool)

def kfree (h : Heap) (p : ℕ) : Heap :=
  if p = 0 then h
  else
    let page := p / 4096
    match h.header page with
    | .slab s =>
      let h : Heap := { h with
        link := update h.link p s.freelist
        liveBytes := update h.liveBytes s.pool (h.liveBytes s.pool - s.objSize) }
      let h := h.setSlab page { s with freelist := p, objFree := s.objFree + 1 }
      let h := if s.objFree = 0 then kheapLink h page else h
      if s.objFree + 1 = s.objTotal then
        let h := kheapUnlink h page
        { h with
          m := pmmFree h.m page
          header := update h.header page .other
          slabPages := update h.slabPages s.pool (h.slabPages s.pool - 1) }
      else h
    | .large l =>
      { h with
        m := pmmFreeContig h.m page l.frames
        header := update h.header page .other
        largePages := update h.largePages l.pool (h.largePages l.pool - l.frames)
        liveBytes := update h.liveBytes l.pool (h.liveBytes l.pool - l.bytes) }
    | .other => h

/-! ## Callers -/

/-- A block in somebody's hands: where it is and what was asked for. -/
structure Block where
  addr : ℕ
  size : ℕ
  pool : Pool
  deriving DecidableEq

inductive HeapCall where
  | kmalloc (n : Fin (2 ^ 48)) (pool : ℤ)
  | kfree (p : ℕ)
  /-- The owner of a block stores something in it. -/
  | store (p : ℕ) (words : ℕ → ℕ)

structure Clients where
  h : Heap
  live : List Block

/-- One call; only live blocks are freed and written to. -/
def HeapCall.step (s : Clients) : HeapCall → Clients
  | .kmalloc n pool =>
    let r := kmallocPool s.h n pool
    ⟨r.1, if r.2 = 0 then s.live else ⟨r.2, n, poolOf pool⟩ :: s.live⟩
  | .kfree p =>
    match s.live.find? fun b => b.addr = p with
    | none => s
    | some b => ⟨Kheap.kfree s.h p, s.live.erase b⟩
  | .store p words =>
    match s.live.find? fun b => b.addr = p with
    | none => s
    | some b =>
      ⟨{ s.h with link := fun a => if p ≤ a && a < p + b.size then words a else s.h.link a },
        s.live⟩

end Vextro.Kheap
