import Mathlib.Data.Finset.Basic
import Vextro.Model.Pipes
import Vextro.Model.Scheduler

/-! Descriptor tables and the calls that open, copy and close pipe ends, after `vfs.h` and the
system calls of `desktop.h`.

A process is named by a slot: it has at least one thread, so there are no more of them than
threads. Whether the heap can serve a request is an argument of the call. -/

namespace Vextro.Descriptors

open Pipes Threads Function

def fdMax : ℕ := 64

inductive Kind where
  | free
  | console
  | file
  | dir
  | sock
  | dev
  | pipe
  deriving DecidableEq

/-- `vfs_desc_t`; the image and the listing are blocks of the heap. -/
structure Desc where
  kind : Kind
  cloexec : Bool
  writable : Bool
  readable : Bool
  busy : Bool
  wbuf : Option ℕ
  ents : Option ℕ
  /-- The ring this end reads. -/
  prd : Option ℕ
  /-- The ring this end writes. -/
  pwr : Option ℕ
  deriving DecidableEq

/-- `vfs_desc_reset` -/
def Desc.reset : Desc := ⟨.free, false, false, false, false, none, none, none, none⟩

def Desc.console : Desc := { Desc.reset with kind := .console }

def Kind.idle : Kind → Bool
  | .free | .console => true
  | _ => false

/-- `struct proc_files` -/
structure Files where
  addr : ℕ
  d : ℕ → Desc

def Files.set (f : Files) (i : ℕ) (d : Desc) : Files := { f with d := update f.d i d }

structure Proc where
  /-- The block of the `addr_space_t`. -/
  space : ℕ
  sig : Option ℕ
  files : Option Files

/-- A thread parked in `vfs_pipe_read` or `vfs_pipe_write`: where it came from, and the ring it
holds a pointer to. -/
structure Parked where
  proc : ℕ
  fd : ℕ
  ring : ℕ
  call : Call
  deriving DecidableEq

structure World where
  rings : ℕ → Option Ring
  nextRing : ℕ
  /-- Every ring that was freed. -/
  freed : List ℕ
  heap : Finset ℕ
  nextObj : ℕ
  procs : ℕ → Option Proc
  /-- The tables queued for the janitor. -/
  retired : List Files
  /-- The table the janitor is closing, and the descriptor it is at. -/
  closing : Option (Files × ℕ)
  janitorUp : Bool
  parked : ℕ → Option Parked

def World.kmalloc (w : World) : World :=
  { w with heap := insert w.nextObj w.heap, nextObj := w.nextObj + 1 }

def World.kfree (w : World) (a : Option ℕ) : World :=
  match a with
  | none => w
  | some a => { w with heap := w.heap.erase a }

def World.setFiles (w : World) (k : ℕ) (f : Option Files) : World :=
  { w with procs := fun j => if j = k then (w.procs j).map fun p => { p with files := f }
      else w.procs j }

def World.files (w : World) (k : ℕ) : Option Files := (w.procs k).bind Proc.files

/-- The descriptor a call works on, in a table that exists. -/
def World.desc (w : World) (k i : ℕ) : Desc := ((w.files k).map fun f => f.d i).getD .reset

def World.setDesc (w : World) (k i : ℕ) (d : Desc) : World :=
  w.setFiles k ((w.files k).map fun f => f.set i d)

/-! ## Closing -/

inductive Side where
  | read
  | write
  deriving DecidableEq

/-- Take an end away from its side. -/
def lower (e : Side) (p : Ring) : Ring :=
  match e with
  | .read => { p with readers := p.readers - 1 }
  | .write => { p with writers := p.writers - 1 }

/-- The counts are sixteen bits wide. -/
def raise (e : Side) (p : Ring) : Ring :=
  match e with
  | .read => { p with readers := (p.readers + 1) % 2 ^ 16 }
  | .write => { p with writers := (p.writers + 1) % 2 ^ 16 }

/-- One end of a descriptor goes back; a ring that is gone is not looked at again. -/
def World.letGo (w : World) (e : Side) (r : Option ℕ) : World :=
  match r with
  | none => w
  | some r =>
    match w.rings r with
    | none => w
    | some p =>
      let p := lower e p
      if p.readers = 0 ∧ p.writers = 0 then
        { w with rings := update w.rings r none, freed := w.freed ++ [r] }
      else { w with rings := update w.rings r (some p) }

/-- `vfs_close_desc`, but for the reset at its end. -/
def vfsCloseDesc (w : World) (d : Desc) : World :=
  match d.kind with
  | .file => w.kfree d.wbuf
  | .dir => w.kfree d.ents
  | .pipe => (w.letGo .read d.prd).letGo .write d.pwr
  | _ => w

def vfsTableDestroy (w : World) (f : Files) : World :=
  ((List.range fdMax).foldl (fun w i => vfsCloseDesc w (f.d i)) w).kfree (some f.addr)

/-- Sixteen places in a circle hold fifteen tables. -/
def vfsRetireMax : ℕ := 16

def vfsRetireTable (w : World) (f : Files) : World :=
  if w.janitorUp ∧ w.retired.length + 1 < vfsRetireMax then { w with retired := w.retired ++ [f] }
  else vfsTableDestroy w f

/-- The janitor takes the next table, closes its next descriptor, or gives the table back. It may
block at each descriptor. -/
def vfsJanitor (w : World) : World :=
  match w.closing with
  | none =>
    match w.retired with
    | [] => w
    | f :: rest => { w with closing := some (f, 0), retired := rest }
  | some (f, i) =>
    if i < fdMax then
      { vfsCloseDesc w (f.d i) with closing := some (f.set i .reset, i + 1) }
    else { w.kfree (some f.addr) with closing := none }

/-! ## The table -/

def Files.new (addr : ℕ) : Files := ⟨addr, fun i => if i < 3 then .console else .reset⟩

/-- `vfs_files` with leave to create. -/
def vfsFiles (w : World) (k : ℕ) (memory : Bool) : Option World :=
  match w.procs k with
  | none => none
  | some p =>
    if p.files.isSome then some w
    else if !memory then none
    else some (w.kmalloc.setFiles k (some (.new w.nextObj)))

def vfsKindOf (w : World) (k fd : ℕ) : Kind :=
  if fdMax ≤ fd then .free
  else
    match w.procs k with
    | none => .free
    | some p =>
      match p.files with
      | none => if fd < 3 then .console else .free
      | some f => (f.d fd).kind

def ebadf : Int := 9
def eperm : Int := 1
def enomem : Int := 12
def efault : Int := 14
def ebusy : Int := 16
def emfile : Int := 24
def eopnotsupp : Int := 95

/-- `vfs_alloc`: the lowest descriptor not in use. -/
def vfsAlloc (w : World) (k : ℕ) (memory : Bool) : World × Except Int ℕ :=
  match vfsFiles w k memory with
  | none => (w, .error (-enomem))
  | some w =>
    match (List.range fdMax).find? fun i => 3 ≤ i ∧ (w.desc k i).kind = .free with
    | none => (w, .error (-emfile))
    | some i => (w, .ok i)

/-! ## Making a pipe -/

/-- The end of a new pipe or pair that reads `prd` and writes `pwr`. -/
def pipeEnd (cloexec : Bool) (prd pwr : Option ℕ) : Desc :=
  { Desc.reset with
    kind := .pipe, cloexec, readable := prd.isSome, writable := pwr.isSome, prd, pwr }

/-- A new ring with one reader and one writer. -/
def World.addRing (w : World) : World :=
  { w with
    rings := update w.rings w.nextRing (some (.fresh (fun _ => 0) 1 1))
    nextRing := w.nextRing + 1 }

/-- `vfs_pipe_create`; whether the table and the rings can be had is an argument. -/
def vfsPipeCreate (w : World) (k : ℕ) (cloexec twoWay table rings : Bool) : World × Int :=
  match vfsAlloc w k table with
  | (w, .error e) => (w, e)
  | (w, .ok a) =>
    let claimed := w.setDesc k a { w.desc k a with kind := .pipe }
    match vfsAlloc claimed k table with
    | (w, .error e) => (w.setDesc k a .reset, e)
    | (w, .ok b) =>
      if !rings then ((w.setDesc k a .reset).setDesc k b .reset, -enomem)
      else
        let ab := w.nextRing
        if twoWay then
          let ba := ab + 1
          ((w.addRing.addRing.setDesc k a (pipeEnd cloexec (some ba) (some ab))).setDesc k b
            (pipeEnd cloexec (some ab) (some ba)), 0)
        else
          ((w.addRing.setDesc k a (pipeEnd cloexec (some ab) none)).setDesc k b
            (pipeEnd cloexec none (some ab)), 0)

/-- `SYS_PIPE2` and `SYS_SOCKETPAIR`, with the error their arguments are refused with. -/
def sysPipe (w : World) (k : ℕ) (refused : Option Int) (cloexec twoWay table rings : Bool) :
    World × Int :=
  if (w.procs k).isNone then (w, -eperm)
  else
    match refused with
    | some e => (w, -e)
    | none => vfsPipeCreate w k cloexec twoWay table rings

/-! ## Copies of a descriptor -/

/-- Where the copy goes: the target of `SYS_DUP2` is closed first, and silently. -/
def dupPlace (w : World) (k : ℕ) (target : Option ℕ) (table : Bool) : World × Except Int ℕ :=
  match target with
  | some n =>
    if fdMax ≤ n then (w, .error (-ebadf))
    else if (w.desc k n).kind.idle then (w, .ok n)
    else ((vfsCloseDesc w (w.desc k n)).setDesc k n .reset, .ok n)
  | none => vfsAlloc w k table

/-- `SYS_DUP`, or `SYS_DUP2` with a target. -/
def sysDup (w : World) (k fd : ℕ) (target : Option ℕ) (table listing : Bool) : World × Int :=
  if (w.procs k).isNone then (w, -eperm)
  else
    let kind := vfsKindOf w k fd
    if kind = .free then (w, -ebadf)
    else if target = some fd then (w, fd)
    else
      match vfsFiles w k table with
      | none => (w, -enomem)
      | some w =>
        let s := w.desc k fd
        if kind = .sock then (w, -eopnotsupp)
        else if kind = .file ∧ s.writable = true then (w, -eopnotsupp)
        else
          match dupPlace w k target table with
          | (w, .error e) => (w, e)
          | (w, .ok n) =>
            let o := { s with wbuf := none, ents := none, busy := false, cloexec := false }
            if kind = .dir ∧ s.ents.isSome then
              if !listing then (w.setDesc k n .reset, -enomem)
              else (w.kmalloc.setDesc k n { o with ents := some w.nextObj }, n)
            else (w.setDesc k n o, n)

def sysClose (w : World) (k fd : ℕ) (table : Bool) : World × Int :=
  if (w.procs k).isNone then (w, -eperm)
  else if vfsKindOf w k fd = .free then (w, -ebadf)
  else
    match vfsFiles w k table with
    | none => (w, -enomem)
    | some w =>
      if (w.desc k fd).busy then (w, -ebusy)
      else ((vfsCloseDesc w (w.desc k fd)).setDesc k fd .reset, 0)

/-- `SYS_OPEN` and `SYS_SOCKET`, for a descriptor that is no pipe end. -/
def sysOpen (w : World) (k : ℕ) (kind : Kind) (writable table buffer : Bool) : World × Int :=
  if (w.procs k).isNone ∨ kind.idle = true ∨ kind = .pipe then (w, -eperm)
  else
    match vfsAlloc w k table with
    | (w, .error e) => (w, e)
    | (w, .ok i) =>
      let d : Desc := { Desc.reset with kind, writable, readable := true }
      if kind = .file ∧ buffer = true then
        (w.kmalloc.setDesc k i { d with wbuf := some w.nextObj }, i)
      else if kind = .dir ∧ buffer = true then
        (w.kmalloc.setDesc k i { d with ents := some w.nextObj }, i)
      else (w.setDesc k i d, i)

/-! ## Reading and writing -/

/-- A pipe call runs until it parks or returns; none if it parks. -/
def World.runCall (w : World) (t : ℕ) (c : Parked) (mem : ℕ → UInt8) : World × Option Int :=
  match w.rings c.ring with
  | none => (w, none)
  | some p =>
    let park (call : Call) := update w.parked t (some { c with call })
    match c.call with
    | .read len =>
      match vfsPipeRead p len with
      | (p, none) =>
        ({ w with rings := update w.rings c.ring (some p), parked := park c.call }, none)
      | (p, some bytes) =>
        ({ w with
          rings := update w.rings c.ring (some p)
          parked := update w.parked t none }, some bytes.length)
    | .write len done =>
      match vfsPipeWrite p mem len done with
      | (p, .parked d) =>
        ({ w with
          rings := update w.rings c.ring (some p)
          parked := park (.write len d) }, none)
      | (p, .returned v) =>
        ({ w with
          rings := update w.rings c.ring (some p)
          parked := update w.parked t none }, some v)

def vfsIoMax : ℕ := 1024 * 1024

/-- `SYS_READ` or `SYS_WRITE` on a pipe end, by the thread in slot `t`; `mapped` is what the
caller's buffer is worth. -/
def sysPipeIo (w : World) (k t fd : ℕ) (e : Side) (count : ℕ) (mapped : Bool) (mem : ℕ → UInt8) :
    World × Option Int :=
  if vfsKindOf w k fd ≠ .pipe ∨ schedMaxThreads ≤ t ∨ (w.parked t).isSome then (w, none)
  else
    let len := min count vfsIoMax
    let d := w.desc k fd
    if len = 0 then (w, some 0)
    else if !mapped then (w, some (-efault))
    else
      match e with
      | .read =>
        match d.prd with
        | some r =>
          if !d.readable then (w, some (-ebadf)) else w.runCall t ⟨k, fd, r, .read len⟩ mem
        | none => (w, some (-ebadf))
      | .write =>
        match d.pwr with
        | some r =>
          if !d.writable then (w, some (-ebadf)) else w.runCall t ⟨k, fd, r, .write len 0⟩ mem
        | none => (w, some (-ebadf))

/-- A thread parked in a pipe goes round its loop. -/
def resume (w : World) (t : ℕ) (mem : ℕ → UInt8) : World × Option Int :=
  match w.parked t with
  | none => (w, none)
  | some c => w.runCall t c mem

structure Ready where
  read : Bool
  write : Bool
  hup : Bool
  deriving DecidableEq

/-- `vfs_ready`, for what a pass of `SYS_POLL` asks of one descriptor. -/
def vfsReady (w : World) (k fd : ℕ) : Option Ready :=
  match vfsKindOf w k fd with
  | .free => none
  | .console => some ⟨false, true, false⟩
  | .pipe =>
    let d := w.desc k fd
    let rd := d.prd.bind w.rings
    let wr := d.pwr.bind w.rings
    if d.prd.isNone && d.pwr.isNone then some ⟨false, false, true⟩
    else some
      ⟨rd.any fun p => p.len ≠ 0 || p.writers = 0, wr.any (·.len < vfsPipeSize),
        rd.any (·.writers = 0) || wr.any (·.readers = 0)⟩
  | _ => some ⟨(w.desc k fd).readable, true, false⟩

/-- A pass of `SYS_POLL` over the descriptors it is given. -/
def sysPoll (w : World) (k : ℕ) (fds : List ℕ) : World × List (Option Ready) :=
  (w, fds.map (vfsReady w k))

/-! ## Fork and exit -/

/-- A ring gets one more holder, if the end is there. -/
def World.hold (w : World) (e : Side) (r : Option ℕ) : World :=
  match r with
  | none => w
  | some r => { w with rings := fun q => if q = r then (w.rings q).map (raise e) else w.rings q }

/-- One descriptor of the loop in `vfs_clone_table`; none if there is no memory for the copy. -/
def cloneDesc (w : World) (s : Desc) (memory : Bool) : World × Option Desc :=
  let o := { s with wbuf := none, ents := none, busy := false }
  match s.kind with
  | .file =>
    if s.wbuf.isSome then
      if !memory then (w, none) else (w.kmalloc, some { o with wbuf := some w.nextObj })
    else (w, some o)
  | .dir =>
    if s.ents.isSome then
      if !memory then (w, none) else (w.kmalloc, some { o with ents := some w.nextObj })
    else (w, some o)
  | .pipe => ((w.hold .read s.prd).hold .write s.pwr, some o)
  | _ => (w, some o)

/-- The loop itself, over `n` descriptors from `i` on. -/
def cloneFrom (src : ℕ → Desc) (memory : ℕ → Bool) : ℕ → ℕ → World → Files → World × Files × Bool
  | _, 0, w, dst => (w, dst, true)
  | i, n + 1, w, dst =>
    if (src i).kind.idle ∨ (src i).kind = .sock then cloneFrom src memory (i + 1) n w dst
    else
      match cloneDesc w (src i) (memory i) with
      | (w, none) => (w, dst.set i .reset, false)
      | (w, some o) => cloneFrom src memory (i + 1) n w (dst.set i o)

/-- `vfs_clone_table`: the child's table, if it got one, and whether the copy is whole. -/
def vfsCloneTable (w : World) (parent : Proc) (table : Bool) (memory : ℕ → Bool) :
    World × Option Files × Bool :=
  match parent.files with
  | none => (w, none, true)
  | some src =>
    if !table then (w, none, false)
    else
      match cloneFrom src.d memory 0 fdMax w.kmalloc (.new w.nextObj) with
      | (w, dst, ok) => (w, some dst, ok)

/-- What a fork is given. -/
structure ForkAnswers where
  /-- A block for the child's `addr_space_t`. -/
  space : Bool
  /-- `vmm_fork` -/
  pages : Bool
  table : Bool
  /-- The copies of images and listings, descriptor by descriptor. -/
  copies : ℕ → Bool
  sig : Bool
  thread : Bool

/-- The slot a new process gets, if a thread can be had for it. -/
def World.freeSlot (w : World) : Option ℕ :=
  (List.range schedMaxThreads).find? fun k => (w.procs k).isNone

/-- `SYS_FORK`, but for the child's memory: the slot of the child, or none for `-1`. -/
def sysFork (w : World) (k : ℕ) (r : ForkAnswers) : World × Option ℕ :=
  match w.procs k with
  | none => (w, none)
  | some parent =>
    if !r.space then (w, none)
    else
      let child := w.nextObj
      let w := w.kmalloc
      if !r.pages then (w.kfree (some child), none)
      else
        match vfsCloneTable w parent r.table r.copies with
        | (w, files, false) =>
          (((files.map fun f => vfsTableDestroy w f).getD w).kfree (some child), none)
        | (w, files, true) =>
          if parent.sig.isSome ∧ r.sig = false then
            (((files.map fun f => vfsTableDestroy w f).getD w).kfree (some child), none)
          else
            let sig := parent.sig.map fun _ => w.nextObj
            let w := if parent.sig.isSome then w.kmalloc else w
            match if r.thread then w.freeSlot else none with
            -- The table is not given back here.
            | none => ((w.kfree sig).kfree (some child), none)
            | some c => ({ w with procs := update w.procs c (some ⟨child, sig, files⟩) },
                some c)

/-- `app_spawn`: a process without a table. -/
def appSpawn (w : World) (memory : Bool) : World :=
  match if memory then w.freeSlot else none with
  | none => w
  | some c => { w.kmalloc with procs := update w.procs c (some ⟨w.nextObj, none, none⟩) }

/-- `sys_execve`, refused to a process with a second thread: the ends marked for it are closed. -/
def sysExecve (w : World) (k : ℕ) : World :=
  if (List.range schedMaxThreads).any fun t => (w.parked t).any (·.proc = k) then w
  else
    match w.files k with
    | none => w
    | some f => (List.range fdMax).foldl (fun w i =>
      if (f.d i).kind.idle ∨ (f.d i).cloexec = false then w
      else (vfsCloseDesc w (f.d i)).setDesc k i .reset) w

/-- A process and its threads are gone. -/
def World.remove (w : World) (k : ℕ) : World :=
  { w with
    procs := update w.procs k none
    parked := fun t => if (w.parked t).any fun c => c.proc = k then none else w.parked t }

/-- The last thread of a process is reaped. -/
def exit (w : World) (k : ℕ) : World :=
  match w.procs k with
  | none => w
  | some p =>
    let w := ((w.remove k).kfree (some p.space)).kfree p.sig
    (p.files.map fun f => vfsRetireTable w f).getD w

/-! ## Histories -/

inductive Op where
  | pipe (k : ℕ) (refused : Option Int) (cloexec twoWay table rings : Bool)
  | dup (k fd : ℕ) (target : Option ℕ) (table listing : Bool)
  | close (k fd : ℕ) (table : Bool)
  | open_ (k : ℕ) (kind : Kind) (writable table buffer : Bool)
  | io (k t fd : ℕ) (e : Side) (count : ℕ) (mapped : Bool) (mem : ℕ → UInt8)
  | resume (t : ℕ) (mem : ℕ → UInt8)
  /-- It looks at rings, and keeps no pointer to one while it sleeps. -/
  | poll (k : ℕ) (fds : List ℕ)
  | fork (k : ℕ) (r : ForkAnswers)
  | spawn (memory : Bool)
  | execve (k : ℕ)
  | exit (k : ℕ)
  | janitorStart
  | janitor

def step (w : World) : Op → World
  | .pipe k refused cloexec twoWay table rings =>
    (sysPipe w k refused cloexec twoWay table rings).1
  | .dup k fd target table listing => (sysDup w k fd target table listing).1
  | .close k fd table => (sysClose w k fd table).1
  | .open_ k kind writable table buffer => (sysOpen w k kind writable table buffer).1
  | .io k t fd e count mapped mem => (sysPipeIo w k t fd e count mapped mem).1
  | .resume t mem => (resume w t mem).1
  | .poll k fds => (sysPoll w k fds).1
  | .fork k r => (sysFork w k r).1
  | .spawn memory => appSpawn w memory
  | .execve k => sysExecve w k
  | .exit k => exit w k
  | .janitorStart => { w with janitorUp := true }
  | .janitor => vfsJanitor w

end Vextro.Descriptors
