import Mathlib.Logic.Function.Basic
import Mathlib.Algebra.Group.Nat.Defs

/-! Threads and the interrupt that switches between them, after `scheduler.c`.

A thread is named by its slot in the thread table; `cur_thread` is a slot too. The saved
registers, the stacks and the extended state of a thread are left out. -/

namespace Vextro.Threads

def schedMaxThreads : ℕ := 64

def prioNormal : ℕ := 4
def prioUi : ℕ := 8

inductive ThreadState where
  | free | ready | running | sleeping | zombie
  deriving DecidableEq

structure Thread where
  /-- The address space, by number; none for a kernel thread. -/
  as : Option ℕ
  pid : ℕ
  prio : ℕ
  state : ThreadState
  wakeAt : ℕ
  slices : ℕ
  waitsFrame : Bool
  /-- The channel the thread is parked on, `0` for none. -/
  waitChan : ℕ
  exitCode : Int
  cpu : ℕ
  deriving DecidableEq

structure Sched where
  threads : ℕ → Option Thread
  /-- The slot of `cur_thread`. -/
  cur : Option ℕ
  nextPid : ℕ
  preemptCount : Int
  ticks : ℕ
  switches : ℕ
  running : Bool

def Sched.setThread (s : Sched) (i : ℕ) (t : Thread) : Sched :=
  { s with threads := Function.update s.threads i (some t) }

/-- Change the thread in a slot, if there is one. -/
def Sched.modifyThread (s : Sched) (i : ℕ) (f : Thread → Thread) : Sched :=
  match s.threads i with
  | none => s
  | some t => s.setThread i (f t)

/-- Change the current thread, if there is one. -/
def Sched.modifyCur (s : Sched) (f : Thread → Thread) : Sched :=
  match s.cur with
  | none => s
  | some i => s.modifyThread i f

/-! ## Picking -/

def Thread.runnable (t : Thread) : Bool := t.state = .ready || t.state = .running

/-- A sleeper whose deadline has passed is woken on the way through. -/
def wakeDue (ticks : ℕ) (t : Thread) : Thread :=
  if t.state = .sleeping ∧ t.wakeAt ≤ ticks then { t with state := .ready } else t

/-- How many processors run this scheduler; nothing ever raises it. -/
def schedDispatchers : ℕ := 1

def schedHere : ℕ := 0

def affine : Bool := 1 < schedDispatchers

/-- One round of the loop in `sched_pick`, for slot `i`. -/
def pickVisit (first : Bool) (r : Sched × Option ℕ) (i : ℕ) : Sched × Option ℕ :=
  match r.1.threads i with
  | none => r
  | some t =>
    let t := if first then wakeDue r.1.ticks t else t
    let s := r.1.setThread i t
    if !t.runnable then (s, r.2)
    else if first && affine && t.cpu ≠ schedHere then (s, r.2)
    else
      match r.2 with
      | none => (s, some i)
      | some b =>
        if ((s.threads b).map Thread.prio).getD 0 < t.prio then (s, some i) else (s, some b)

/-- The slots in the order a search visits them: from one past the current thread, round to it
again. -/
def pickOrder (cur : Option ℕ) : List ℕ :=
  (List.range schedMaxThreads).map fun n => ((cur.map (· + 1)).getD 0 + n) % schedMaxThreads

/-- `sched_pick`: the second pass is for a search that a home restricted. -/
def schedPick (s : Sched) : Sched × Option ℕ :=
  let r := (pickOrder s.cur).foldl (pickVisit true) (s, none)
  if r.2.isSome || !affine then r else (pickOrder s.cur).foldl (pickVisit false) r

/-! ## The tick -/

/-- Nothing to switch to: the current thread goes on. -/
def keepRunning (s : Sched) : Sched :=
  s.modifyCur fun t => if t.state = .ready then { t with state := .running } else t

def switchTo (s : Sched) (next : ℕ) : Sched :=
  let s := s.modifyCur fun t => if t.state = .running then { t with state := .ready } else t
  let s := { s with cur := some next, switches := s.switches + 1 }
  s.modifyThread next fun t => { t with state := .running, slices := t.slices + 1 }

/-- `sched_on_tick`, with the thread it dispatches; `soft` marks a yield. -/
def schedOnTick (soft : Bool) (s : Sched) : Sched × Option ℕ :=
  let s := if soft then s else { s with ticks := s.ticks + 1 }
  if !s.running || s.cur.isNone then (s, none)
  else if 0 < s.preemptCount && !soft then (s, none)
  else
    match schedPick s with
    | (s, none) => (keepRunning s, none)
    | (s, some i) => if some i = s.cur then (keepRunning s, some i) else (switchTo s i, some i)

/-! ## Sleeping and waking -/

/-- The deadline of a thread that has none. -/
def never : ℕ := 2 ^ 64 - 1

/-- `sched_sleep_ms` up to its yield. -/
def schedSleepMs (ms : ℕ) (s : Sched) : Sched :=
  if s.cur.isNone || !s.running then s
  else s.modifyCur fun t =>
    { t with wakeAt := s.ticks + (if ms = 0 then 1 else ms), state := .sleeping }

/-- `sched_block_on_locked` up to its yield. -/
def schedBlockOn (chan timeoutMs : ℕ) (s : Sched) : Sched :=
  if s.cur.isNone || !s.running then s
  else s.modifyCur fun t =>
    { t with
      waitChan := chan
      wakeAt := if timeoutMs = 0 then never else s.ticks + timeoutMs
      state := .sleeping }

/-- What `sched_block_on_locked` does once the thread runs again. -/
def schedBlockOnReturn (s : Sched) : Sched := s.modifyCur fun t => { t with waitChan := 0 }

/-- `sched_wait_frame` up to its yield. -/
def schedWaitFrame (s : Sched) : Sched :=
  if s.cur.isNone || !s.running then s
  else s.modifyCur fun t => { t with waitsFrame := true, wakeAt := never, state := .sleeping }

def wakeThread (t : Thread) : Thread :=
  if t.state = .sleeping then { t with state := .ready } else t

/-- The loop of `sched_wake_chan`, over `n` slots from `i` on. -/
def wakeChanFrom (chan : ℕ) (all : Bool) : ℕ → ℕ → Sched → Sched
  | _, 0, s => s
  | i, n + 1, s =>
    match s.threads i with
    | none => wakeChanFrom chan all (i + 1) n s
    | some t =>
      if t.waitChan ≠ chan then wakeChanFrom chan all (i + 1) n s
      else
        let s := s.setThread i (wakeThread { t with waitChan := 0 })
        if all then wakeChanFrom chan all (i + 1) n s else s

def schedWakeChan (chan : ℕ) (all : Bool) (s : Sched) : Sched :=
  wakeChanFrom chan all 0 schedMaxThreads s

def pulseThread (t : Thread) : Thread :=
  if t.waitsFrame then wakeThread { t with waitsFrame := false } else t

def schedFramePulse (s : Sched) : Sched :=
  { s with threads := fun i => if i < schedMaxThreads then (s.threads i).map pulseThread
      else s.threads i }

/-- `sched_exit` up to its yield. -/
def schedExit (code : Int) (s : Sched) : Sched :=
  s.modifyCur fun t => { t with exitCode := code, state := .zombie }

/-- What another thread or an interrupt may do to the thread table of a fixed set of threads. -/
inductive Event where
  | tick
  | yield
  | sleepMs (ms : ℕ)
  | blockOn (chan timeoutMs : ℕ)
  | blockOnReturn
  | waitFrame
  | wakeChan (chan : ℕ) (all : Bool)
  | framePulse
  | exit (code : Int)
  /-- A fatal signal or `exit_group` ends a thread that is not running. -/
  | terminate (slot : ℕ) (code : Int)
  | preemptDisable
  | preemptEnable

/-- One event, with the slot that `sched_pick` chose if it was asked. -/
def Event.run (s : Sched) : Event → Sched × Option ℕ
  | .tick => schedOnTick false s
  | .yield => schedOnTick true s
  | .sleepMs ms => (schedSleepMs ms s, none)
  | .blockOn chan timeoutMs => (schedBlockOn chan timeoutMs s, none)
  | .blockOnReturn => (schedBlockOnReturn s, none)
  | .waitFrame => (schedWaitFrame s, none)
  | .wakeChan chan all => (schedWakeChan chan all s, none)
  | .framePulse => (schedFramePulse s, none)
  | .exit code => (schedExit code s, none)
  | .terminate slot code =>
    (if s.cur = some slot then s
      else s.modifyThread slot fun t => { t with exitCode := code, state := .zombie }, none)
  | .preemptDisable => ({ s with preemptCount := s.preemptCount + 1 }, none)
  | .preemptEnable => ({ s with preemptCount := s.preemptCount - 1 }, none)

def Event.step (s : Sched) (e : Event) : Sched := (e.run s).1

def Event.dispatched (s : Sched) (e : Event) : Option ℕ := (e.run s).2

end Vextro.Threads
