import Mathlib.Algebra.Group.Int.Defs
import Vextro.Model.Scheduler
import Vextro.Model.Signals

/-! Processes: their threads, their signals and their parents, after `scheduler.c`, `vls_core.c` and
the system calls of `desktop.h`.

An address space is the process; it is named by a number that is never used twice. What the
other parts of the kernel answer (whether a page table, a stack or an image could be had) is an
argument of the call. -/

namespace Vextro.Processes

open Threads Signals Function

/-- `addr_space_t` -/
structure Space where
  pid : ℕ
  ppid : ℕ
  /-- The account the process belongs to. -/
  sid : ℕ
  refs : ℕ
  live : Bool
  exitReported : Bool
  sig : Option Sig

/-- A space as `vmm_create` leaves it. -/
def Space.created (sid : ℕ) : Space := ⟨0, 0, sid, 1, true, false, none⟩

/-- What a thread parked in `vls_wait4` goes on with. -/
structure Wait where
  want : Int
  /-- A status was asked for. -/
  status : Bool
  deriving DecidableEq

/-- A process has reported its end. -/
structure Ending where
  /-- The space of the process, its number and its parent's. -/
  space : ℕ
  pid : ℕ
  ppid : ℕ
  /-- The processes with a registered thread: their numbers and their spaces. -/
  running : List (ℕ × ℕ)
  /-- What became of it: exits that were put on record, with the block. -/
  told : List (ℕ × Child)
  /-- Whose block that is. -/
  block : ℕ → Option ℕ

structure System where
  sched : Sched
  spaces : ℕ → Option Space
  nextSpace : ℕ
  /-- The address the next signal block will have. -/
  nextBlock : ℕ
  /-- How many more signal blocks the heap can give. -/
  room : ℕ
  waits : ℕ → Option Wait
  /-- Every call of `vmm_destroy`. -/
  destroyed : List ℕ
  /-- Every report of a process's end. -/
  ends : List Ending
  /-- Every exit a process was told of, with the block of that process. -/
  exits : List (ℕ × Child)
  /-- The exits for which that process could not be given a block. -/
  lost : List Child
  /-- Every status `wait4` has returned, with the block it came from. -/
  collected : List (ℕ × Child)

def System.modifySpace (s : System) (a : ℕ) (f : Space → Space) : System :=
  { s with spaces := fun b => if b = a then (s.spaces b).map f else s.spaces b }

def System.sigOf (s : System) (a : ℕ) : Option Sig := (s.spaces a).bind Space.sig

def System.modifySig (s : System) (a : ℕ) (f : Sig → Sig) : System :=
  s.modifySpace a fun sp => { sp with sig := sp.sig.map f }

/-- The space of the current thread: `vmm_current`. -/
def System.vmmCurrent (s : System) : Option ℕ :=
  (s.sched.cur.bind s.sched.threads).bind Thread.as

/-! ## Finding a process -/

/-- The first registered thread, in slot order, with an answer. -/
def System.firstThread {α : Type} (s : System) (f : ℕ → Thread → Option α) : Option α :=
  (List.range schedMaxThreads).findSome? fun i =>
    (s.sched.threads i).bind fun t => if t.state = .free then none else f i t

def System.running (s : System) : List (ℕ × ℕ) :=
  (List.range schedMaxThreads).filterMap fun i => (s.sched.threads i).bind fun t =>
    if t.state = .free then none
    else t.as.bind fun a => (s.spaces a).map fun sp => (sp.pid, a)

def vlsFindProcess (s : System) (pid : ℕ) : Option ℕ :=
  if pid = 0 then none
  else s.firstThread fun _ t => t.as.bind fun a =>
    if (s.spaces a).any (·.pid = pid) then some a else none

def vlsFindThread (s : System) (tid : ℕ) : Option Thread :=
  if tid = 0 then none else s.firstThread fun _ t => if t.pid = tid then some t else none

def vlsHasLiveChild (s : System) (pid : ℕ) : Bool :=
  pid ≠ 0 && (s.firstThread fun _ t => t.as.bind fun a =>
    if (s.spaces a).any (fun sp => !sp.exitReported && sp.ppid = pid && sp.pid ≠ pid) then some ()
    else none).isSome

/-! ## Posting a signal -/

def esrch : Int := 3
def eperm : Int := 1
def echild : Int := 10
def enomem : Int := 12
def efault : Int := 14
def einval : Int := 22
def eopnotsupp : Int := 95

/-- `vls_sig_of` with leave to create: none if there is no memory for the block. -/
def vlsSigOf (s : System) (a : ℕ) : Option System :=
  match s.spaces a with
  | none => none
  | some sp =>
    if sp.sig.isSome then some s
    else if s.room = 0 then none
    else some { s.modifySpace a (fun sp => { sp with sig := some (.fresh s.nextBlock) }) with
      nextBlock := s.nextBlock + 1
      room := s.room - 1 }

/-- `sched_wake_chan` on the signal block of a process. -/
def System.wakeSig (s : System) (a : ℕ) : System :=
  match s.sigOf a with
  | none => s
  | some g => { s with sched := schedWakeChan g.addr true s.sched }

/-- The handler of a signal; a process without a block has only defaults. -/
def System.handler (s : System) (a sig : ℕ) : Word :=
  ((s.sigOf a).map fun g => (g.act sig).handler).getD sigDfl

def System.blocks (s : System) (a sig : ℕ) : Bool :=
  (s.sigOf a).any fun g => g.blocked &&& sigBit sig ≠ 0

/-- `vls_signal_post`, over what it does to a process it must end at once. -/
def postWith (terminate : System → ℕ → ℕ → System) (s : System) (a : ℕ) (sig : Int) :
    System × Int :=
  if !(s.spaces a).any Space.live then (s, -esrch)
  else if sig < 0 ∨ (vlsNsig : Int) ≤ sig then (s, -einval)
  else if sig = 0 then (s, 0)
  else
    match vlsSigOf s a with
    | none => (s, -enomem)
    | some s =>
      let n := sig.toNat
      let pended := s.modifySig a fun g => g.pend n
      if sigBit n &&& unblockable ≠ 0 then (terminate pended a n, 0)
      else if s.handler a n = sigIgn then (s, 0)
      else if s.handler a n = sigDfl ∧ vlsDefaultIsIgnore n = true then (s, 0)
      else if s.handler a n = sigDfl ∧ s.blocks a n = false ∧ s.vmmCurrent ≠ some a then
        ((terminate pended a n).wakeSig a, 0)
      else (pended.wakeSig a, 0)

def vlsEncodeStatus (exitCode : Int) (killed : Bool) : Int :=
  if killed then exitCode % 128 else exitCode % 256 * 256

/-- The first free record takes the child; a full table drops it. -/
def recordChild (c : Child) (g : Sig) : Sig :=
  match (List.range vlsMaxChildren).find? fun i => (g.child i).isNone with
  | none => g
  | some i => { g with child := update g.child i (some c) }

/-- `vls_child_exited`. The signal it posts never ends a process: its default is to be
ignored. -/
def vlsChildExited (s : System) (pid ppid : ℕ) (exitCode : Int) (killed : Bool) : System :=
  if pid = 0 ∨ ppid = 0 then s
  else
    match vlsFindProcess s ppid with
    | none => s
    | some parent =>
      let c : Child := ⟨pid, vlsEncodeStatus exitCode killed⟩
      match vlsSigOf s parent with
      | none => { s with lost := s.lost ++ [c] }
      | some s =>
        let s := { s.modifySig parent (recordChild c) with
          exits := s.exits ++ (s.sigOf parent).toList.map fun g => (g.addr, c) }
        (postWith (fun s _ _ => s) s parent sigChld).1.wakeSig parent

def vlsReportExit (s : System) (a : ℕ) (exitCode : Int) (killed : Bool) : System :=
  match s.spaces a with
  | none => s
  | some sp =>
    if sp.exitReported = true ∨ sp.pid = 0 then s
    else
      let u := s.modifySpace a fun sp => { sp with exitReported := true }
      let s' := vlsChildExited u sp.pid sp.ppid exitCode killed
      let e : Ending := ⟨a, sp.pid, sp.ppid, u.running, s'.exits.drop u.exits.length,
        fun b => (s'.sigOf b).map Sig.addr⟩
      { s' with ends := s'.ends ++ [e] }

/-- End every thread of a process but the current one. -/
def System.zombify (s : System) (a : ℕ) (code : Int) : System :=
  { s with sched := { s.sched with threads := fun i => (s.sched.threads i).map fun t =>
      if i < schedMaxThreads ∧ s.sched.cur ≠ some i ∧ t.as = some a ∧ t.state ≠ .free then
        { t with exitCode := code, state := .zombie }
      else t } }

def vlsTerminate (s : System) (a sig : ℕ) : System :=
  let s :=
    ((vlsSigOf s a).map fun s => s.modifySig a fun g => { g with killedBy := sig % 256 }).getD s
  (vlsReportExit s a sig true).zombify a (128 + sig)

def vlsSignalPost : System → ℕ → Int → System × Int := postWith vlsTerminate

/-! ## The calls that send one -/

def lKill (s : System) (pid sig : Int) : System × Int :=
  if sig < 0 ∨ (vlsNsig : Int) ≤ sig then (s, -einval)
  else if pid ≤ 0 then (s, -eopnotsupp)
  else
    match vlsFindProcess s (pid.toNat % 2 ^ 32) with
    | none => (s, -esrch)
    | some target =>
      match s.vmmCurrent with
      | some me =>
        if (s.spaces target).map Space.sid ≠ (s.spaces me).map Space.sid then (s, -eperm)
        else vlsSignalPost s target sig
      | none => vlsSignalPost s target sig

def lTkill (s : System) (tid : ℕ) (sig : Int) : System × Int :=
  match (vlsFindThread s (tid % 2 ^ 32)).bind Thread.as with
  | none => (s, -esrch)
  | some a =>
    if sig < 0 ∨ (vlsNsig : Int) ≤ sig then (s, -einval) else vlsSignalPost s a sig

def lTgkill (s : System) (_tgid tid : ℕ) (sig : Int) : System × Int := lTkill s tid sig

def lRtSigaction (s : System) (sig : ℕ) (act : SigAction) : System :=
  if sig = 0 ∨ vlsNsig ≤ sig then s
  else
    match s.vmmCurrent.bind (vlsSigOf s) with
    | none => s
    | some s' =>
      if hsig : sigBit sig &&& unblockable ≠ 0 then s'
      else if act.handler ≠ sigDfl ∧ act.handler ≠ sigIgn ∧ userRangeOk act.handler 1 = false then
        s'
      else s'.modifySig (s.vmmCurrent.getD 0) fun g =>
        { g.setAct sig { act with mask := act.mask &&& ~~~unblockable } fun h => absurd h hsig with
          pending := if act.handler = sigIgn then g.pending &&& ~~~sigBit sig else g.pending }

def lRtSigprocmask (s : System) (how : ℕ) (set : Word) : System :=
  match s.vmmCurrent.bind (vlsSigOf s) with
  | none => s
  | some s' => s'.modifySig (s.vmmCurrent.getD 0) fun g =>
    if how = 0 then g.setBlocked (g.blocked ||| set)
    else if how = 1 then g.setBlocked (g.blocked &&& ~~~set)
    else if how = 2 then g.setBlocked set
    else g

/-- `l_rt_sigreturn` of a call that came by SYSCALL, with the frame it returns along if it restores
one. -/
def lRtSigreturn (s : System) (m : UserMem) (f : SyscallFrame)
    (uptr : Word) : System × Option SyscallFrame :=
  match s.vmmCurrent with
  | none => (s, none)
  | some a =>
    (s.modifySig a fun g => ((vlsSigreturn g m f uptr).map Prod.fst).getD g,
      ((s.sigOf a).bind fun g => vlsSigreturn g m f uptr).map Prod.snd)

/-! ## Waiting for a child -/

/-- The first record a wait may collect. -/
def matchingChild (g : Sig) (want : Int) : Option (ℕ × Child) :=
  (List.range vlsMaxChildren).findSome? fun i => (g.child i).bind fun c =>
    if 0 < want ∧ (c.pid : Int) ≠ want % 2 ^ 32 then none else some (i, c)

/-- One round of the loop in `vls_wait4`: `status` says whether a status is asked for and whether
it can be written; none as an answer means that the thread has parked. -/
def wait4Round (s : System) (a me : ℕ) (want : Int) (status : Option Bool) (nohang : Bool) :
    System × Option Int :=
  match s.sigOf a with
  | none => (s, none)
  | some g =>
    match matchingChild g want with
    | some (i, c) =>
      let s := s.modifySig a fun g => { g with child := update g.child i none }
      if status = some false then (s, some (-efault))
      else ({ s with collected := s.collected ++ [(g.addr, c)] }, some c.pid)
    | none =>
      if !vlsHasLiveChild s me then (s, some (-echild))
      else if nohang then (s, some 0)
      else
        ({ s with
          sched := schedBlockOn g.addr 50 s.sched
          waits := fun i => if s.sched.cur = some i then some ⟨want, status.isSome⟩
            else s.waits i }, none)

def vlsWait4 (s : System) (pid : Int) (status : Option Bool) (nohang rusage : Bool) :
    System × Option Int :=
  match s.vmmCurrent with
  | none => (s, some (-echild))
  | some a =>
    match s.spaces a with
    | none => (s, some (-echild))
    | some sp =>
      if sp.live = false ∨ sp.pid = 0 then (s, some (-echild))
      else if rusage then (s, some (-einval))
      else
        match vlsSigOf s a with
        | none => (s, some (-enomem))
        | some s => wait4Round s a sp.pid pid status nohang

/-- A thread parked in `vls_wait4` runs again and goes round the loop. -/
def wait4Resume (s : System) (writable : Bool) : System × Option Int :=
  match s.sched.cur.bind s.waits with
  | none => (s, none)
  | some w =>
    let s := { s with
      sched := schedBlockOnReturn s.sched
      waits := fun i => if s.sched.cur = some i then none else s.waits i }
    match s.vmmCurrent with
    | none => (s, none)
    | some a =>
      wait4Round s a (((s.spaces a).map Space.pid).getD 0) w.want
        (if w.status then some writable else none) false

/-! ## Threads and spaces -/

/-- `vmm_destroy` and the `kfree` after it. -/
def System.vmmDestroy (s : System) (a : ℕ) : System :=
  { s with
    spaces := update s.spaces a none
    destroyed := s.destroyed ++ [a] }

/-- A new space, under the next number. -/
def System.addSpace (s : System) (sp : Space) : System :=
  { s with
    spaces := update s.spaces s.nextSpace (some sp)
    nextSpace := s.nextSpace + 1 }

/-- `sched_new` and `sched_register`; `memory` is whether a control block and a stack could be had.
The number of a thread that finds no slot is used up. -/
def schedSpawn (s : Sched) (as : Option ℕ) (prio : ℕ) (memory : Bool) : Sched × Option Thread :=
  if !memory then (s, none)
  else
    let t : Thread := ⟨as, s.nextPid, prio, .ready, 0, 0, false, 0, 0, 0⟩
    let s := { s with nextPid := (s.nextPid + 1) % 2 ^ 32 }
    match (List.range schedMaxThreads).find? fun i => (s.threads i).isNone with
    | none => (s, none)
    | some i => (s.setThread i t, some t)

def appSpawn (s : System) (sid : ℕ) (create map memory : Bool) : System :=
  if !create then s
  else
    let a := s.nextSpace
    let s := s.addSpace (.created sid)
    if !map then s.vmmDestroy a
    else
      match schedSpawn s.sched (some a) prioNormal memory with
      | (sched, none) => { s with sched }.vmmDestroy a
      | (sched, some t) =>
        { s with sched }.modifySpace a fun sp => { sp with pid := t.pid, ppid := 0 }

/-- `SYS_CLONE` with `sched_spawn_thread`, and `l_clone` with `sched_clone_thread`: they differ in
the priority. `accepted` stands for the checks on the caller's arguments. -/
def sysClone (s : System) (prio : ℕ) (accepted memory : Bool) : System :=
  match s.vmmCurrent with
  | none => s
  | some a =>
    if !accepted || !(s.spaces a).any Space.live then s
    else
      match schedSpawn s.sched (some a) prio memory with
      | (sched, none) => { s with sched }
      | (sched, some _) => { s with sched }.modifySpace a fun sp => { sp with refs := sp.refs + 1 }

/-- What a fork is given: a control block with page tables, the pages, the descriptors, and a
thread. -/
structure ForkAnswers where
  create : Bool
  pages : Bool
  files : Bool
  thread : Bool
  deriving DecidableEq

/-- `vls_sig_clone` into the new space `c`. -/
def cloneSig (s : System) (parent : Space) (c : ℕ) : Option System :=
  match parent.sig with
  | none => some s
  | some g => (vlsSigOf s c).map fun s => s.modifySig c fun d => vlsSigClone d g

def sysFork (s : System) (r : ForkAnswers) : System :=
  match s.vmmCurrent.bind fun a => s.spaces a with
  | none => s
  | some parent =>
    if !r.create then s
    else
      let c := s.nextSpace
      let s := s.addSpace (.created parent.sid)
      if !r.pages || !r.files then s.vmmDestroy c
      else
        match cloneSig s parent c with
        | none => s.vmmDestroy c
        | some s =>
          match schedSpawn s.sched (some c)
            (((s.sched.cur.bind s.sched.threads).map Thread.prio).getD 0) r.thread with
          | (sched, none) => { s with sched }.vmmDestroy c
          | (sched, some t) => { s with sched }.modifySpace c fun sp =>
            { sp with pid := t.pid, ppid := parent.pid }

/-- `sys_execve`: the process goes on in a new space, whose account is the one signed in. -/
def sysExecve (s : System) (sid : ℕ) (accepted create map : Bool) : System :=
  match s.vmmCurrent with
  | none => s
  | some a =>
    match s.spaces a with
    | none => s
    | some old =>
      if !old.live || !accepted then s
      else if 1 < old.refs then s
      else if !create then s
      else
        let n := s.nextSpace
        if !map then (s.addSpace (.created sid)).vmmDestroy n
        else
          let s := s.addSpace { Space.created sid with
            pid := old.pid
            ppid := old.ppid
            sig := old.sig.map vlsSigResetForExec }
          { s with sched := s.sched.modifyCur fun t => { t with as := some n } }.vmmDestroy a

/-! ## The ways out -/

def System.exit (s : System) (code : Int) : System := { s with sched := schedExit code s.sched }

def sysExit (s : System) (code : Int) : System :=
  ((s.vmmCurrent.map fun a => vlsReportExit s a code false).getD s).exit code

/-- `SYS_THREAD_EXIT`: only the last thread of a process tells the parent. -/
def sysThreadExit (s : System) (code : Int) : System :=
  match s.vmmCurrent with
  | none => s.exit code
  | some a =>
    if (s.spaces a).any (·.refs ≤ 1) then (vlsReportExit s a code false).exit code
    else s.exit code

def sysExitGroup (s : System) (code : Int) : System :=
  match s.vmmCurrent with
  | none => s.exit code
  | some a => (vlsReportExit (s.zombify a code) a code false).exit code

/-- The signals a thread meets on its way out of a system call. -/
def deliverSignals (s : System) (tramp : Word) (m : UserMem) (f : SyscallFrame) (ret : Word) :
    System :=
  match s.vmmCurrent with
  | none => s
  | some a =>
    match s.sigOf a with
    | none => s
    | some g =>
      let r := syscallDeliverSignals tramp g m f ret
      let s := s.modifySig a fun _ => r.1
      match r.2 with
      | .fatal =>
        let sig := r.1.killedBy
        ((vlsReportExit s a sig true).zombify a (128 + sig)).exit (128 + sig)
      | _ => s

/-- A fault in ring 3: the program's signal handler, its `__try`, or the end of the thread. -/
def userFault (s : System) (tramp : Word) (m : UserMem) (r : Regs) (tried : Bool) : System :=
  let ended (s : System) := if tried then s else s.exit (-1)
  match s.vmmCurrent with
  | none => s
  | some a =>
    match s.sigOf a with
    | none => ended s
    | some g =>
      let d := deliverFault tramp g m r
      let s := s.modifySig a fun _ => d.1
      match d.2 with
      | .handler _ _ => s
      | _ => ended s

/-- `app_reaped`, as far as the process goes: the last thread out reports its end. -/
def appReaped (s : System) (t : Thread) (a : ℕ) : System :=
  if (s.spaces a).any (·.refs ≤ 1) then
    let killed := ((s.sigOf a).map Sig.killedBy).getD 0
    let s := vlsReportExit s a (if killed ≠ 0 then killed else t.exitCode) (killed ≠ 0)
    s.modifySpace a fun sp => { sp with sig := none }
  else s

def System.clearSlot (s : System) (i : ℕ) : System :=
  { s with sched := { s.sched with threads := update s.sched.threads i none } }

/-- One slot of the loop in `sched_reap`. -/
def reapSlot (s : System) (i : ℕ) : System :=
  match s.sched.threads i with
  | none => s
  | some t =>
    if t.state ≠ .zombie ∨ s.sched.cur = some i then s
    else
      match t.as with
      | none => s.clearSlot i
      | some a =>
        let s := (appReaped s t a).clearSlot i
        if (s.spaces a).any (1 < ·.refs) then s.modifySpace a
          fun sp => { sp with refs := sp.refs - 1 }
        else s.vmmDestroy a

def schedReap (s : System) : System := (List.range schedMaxThreads).foldl reapSlot s

/-! ## Histories -/

inductive Op where
  | sched (e : Event)
  | appSpawn (sid : ℕ) (create map memory : Bool)
  | clone (prio : ℕ) (accepted memory : Bool)
  | fork (r : ForkAnswers)
  | execve (sid : ℕ) (accepted create map : Bool)
  | exit (code : Int)
  | threadExit (code : Int)
  | exitGroup (code : Int)
  | kill (pid sig : Int)
  | tkill (tid : ℕ) (sig : Int)
  | tgkill (tgid tid : ℕ) (sig : Int)
  | sigaction (sig : ℕ) (act : SigAction)
  | sigprocmask (how : ℕ) (set : Word)
  | deliver (tramp : Word) (m : UserMem) (f : SyscallFrame) (ret : Word)
  | fault (tramp : Word) (m : UserMem) (r : Regs) (tried : Bool)
  | wait4 (pid : Int) (status : Option Bool) (nohang rusage : Bool)
  | wait4Resume (writable : Bool)
  | reap
  /-- The rest of the kernel takes memory from the heap or gives it back. -/
  | heap (room : ℕ)

def step (s : System) : Op → System
  | .sched e => { s with sched := e.step s.sched }
  | .appSpawn sid create map memory => appSpawn s sid create map memory
  | .clone prio accepted memory => sysClone s prio accepted memory
  | .fork r => sysFork s r
  | .execve sid accepted create map => sysExecve s sid accepted create map
  | .exit code => sysExit s code
  | .threadExit code => sysThreadExit s code
  | .exitGroup code => sysExitGroup s code
  | .kill pid sig => (lKill s pid sig).1
  | .tkill tid sig => (lTkill s tid sig).1
  | .tgkill tgid tid sig => (lTgkill s tgid tid sig).1
  | .sigaction sig act => lRtSigaction s sig act
  | .sigprocmask how set => lRtSigprocmask s how set
  | .deliver tramp m f ret => deliverSignals s tramp m f ret
  | .fault tramp m r tried => userFault s tramp m r tried
  | .wait4 pid status nohang rusage => (vlsWait4 s pid status nohang rusage).1
  | .wait4Resume writable => (wait4Resume s writable).1
  | .reap => schedReap s
  | .heap room => { s with room }

end Vextro.Processes
