import Mathlib.Logic.Function.Basic
import Mathlib.Data.Nat.Notation

/-! The elevation prompt: `uac_prompt`, the two guards that ask through it and `uac_answer`, after
`desktop.h` and `vfs.h`. A thread is named by its pid. -/

namespace Vextro.Elevation

open Function

def uacWaitTicks : ℕ := 60000

structure UacReq where
  (pending answered granted : Bool)
  pid : ℕ
  deriving DecidableEq

/-- What a guard reads and records in an address space; nothing in `netOk` stands for a program not
asked about. -/
structure Space where
  (elevated sidAdmin : Bool)
  netOk : Option Bool
  deriving DecidableEq

/-- `uac_guard` or `net_guard` -/
inductive Guard where
  | privileged | network
  deriving DecidableEq

/-- Where a thread is; one that is parked in `uac_prompt` has its guard to go on with. -/
inductive Place where
  | elsewhere
  | parked (g : Guard) (deadline : ℕ)
  | ended
  deriving DecidableEq

structure State where
  req : UacReq
  ticks : ℕ
  /-- `uac_level` is `UAC_NEVER`. -/
  never : Bool
  /-- `user_current` names an account. -/
  signedIn : Bool
  as : ℕ → ℕ
  place : ℕ → Place
  spaces : ℕ → Space

/-- What a guard does with the answer. -/
def Space.record (sp : Space) (ok : Bool) : Guard → Space
  | .privileged => { sp with elevated := ok || sp.elevated }
  | .network => { sp with netOk := some ok }

def State.record (s : State) (i : ℕ) (g : Guard) (ok : Bool) : State :=
  { s with spaces := update s.spaces (s.as i) ((s.spaces (s.as i)).record ok g) }

/-- The question of thread `i` goes on the screen, and the thread waits for the answer. -/
def State.ask (s : State) (i : ℕ) (g : Guard) : State :=
  { s with
    req := ⟨true, false, false, i⟩
    place := update s.place i (.parked g (s.ticks + uacWaitTicks)) }

/-- `uac_prompt` up to its wait; with another question on the screen, the guard has its refusal at
once. -/
def uacPrompt (s : State) (i : ℕ) (g : Guard) : State :=
  if s.req.pending then s.record i g false else s.ask i g

/-- Nothing is asked when the answer is on record, and nobody is when there is nobody who could give
it. -/
def State.guarded (s : State) (i : ℕ) (g : Guard) (known mayAsk : Bool) : State :=
  if known then s
  else if s.never then s.record i g true
  else if !mayAsk then s.record i g false
  else uacPrompt s i g

def uacGuard (s : State) (i : ℕ) : State :=
  s.guarded i .privileged (s.spaces (s.as i)).elevated (s.spaces (s.as i)).sidAdmin

def netGuard (s : State) (i : ℕ) : State :=
  s.guarded i .network (s.spaces (s.as i)).netOk.isSome s.signedIn

def uacAnswer (s : State) (granted : Bool) : State :=
  if !s.req.pending then s
    else { s with req := { s.req with granted := granted, answered := true } }

/-- A thread that is parked runs again: it parks once more, or takes the answer. -/
def uacWaitRound (s : State) (i : ℕ) : State :=
  match s.place i with
  | .parked g deadline =>
    if !s.req.answered && s.ticks < deadline then s
    else { s with
      req := { s.req with pending := false, answered := false }
      place := update s.place i .elsewhere }.record i g (s.req.answered && s.req.granted)
  | _ => s

inductive Event where
  | guard (i : ℕ) (g : Guard)
  | run (i : ℕ)
  | answer (granted : Bool)
  | tick
  /-- `SYS_EXIT_GROUP` or a fatal signal: every thread of an address space ends where it is. -/
  | terminate (a : ℕ)

def State.step (s : State) : Event → State
  | .guard i g =>
    if s.place i ≠ .elsewhere then s
    else
      match g with
      | .privileged => uacGuard s i
      | .network => netGuard s i
  | .run i => uacWaitRound s i
  | .answer granted => uacAnswer s granted
  | .tick => { s with ticks := s.ticks + 1 }
  | .terminate a => { s with place := fun i => if s.as i = a then .ended else s.place i }

end Vextro.Elevation
