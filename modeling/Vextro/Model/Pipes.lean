import Mathlib.Data.Nat.Notation
import Mathlib.Logic.Function.Basic

/-! The ring behind a pipe, and the calls that read and write it, after `vfs.h`.

Interrupts are masked in a system call, so a call is interrupted only where it parks. It then
goes round its loop again with nothing but its own count of bytes. -/

namespace Vextro.Pipes

open Function

def vfsPipeSize : ℕ := 4096

/-- `struct vfs_pipe` -/
structure Ring where
  buf : ℕ → UInt8
  /-- Where the next byte is written. -/
  head : ℕ
  /-- Where the next byte is read. -/
  tail : ℕ
  len : ℕ
  readers : ℕ
  writers : ℕ

/-- `vfs_ring_new`, with the counts its creator gives it. -/
def Ring.fresh (buf : ℕ → UInt8) (readers writers : ℕ) : Ring := ⟨buf, 0, 0, 0, readers, writers⟩

/-! ## Reading -/

/-- The loop that copies out of the ring. -/
def Ring.copyOut : ℕ → Ring → Ring × List UInt8
  | 0, p => (p, [])
  | n + 1, p =>
    let r := Ring.copyOut n { p with tail := (p.tail + 1) % vfsPipeSize }
    (r.1, p.buf p.tail :: r.2)

/-- `vfs_pipe_read` from the head of its loop on: the bytes it returns, or none if it parks. -/
def vfsPipeRead (p : Ring) (len : ℕ) : Ring × Option (List UInt8) :=
  if p.len = 0 then
    if p.writers = 0 then (p, some []) else (p, none)
  else
    let n := min len p.len
    let r := p.copyOut n
    ({ r.1 with len := r.1.len - n }, some r.2)

/-! ## Writing -/

def Ring.put (p : Ring) (b : UInt8) : Ring :=
  { p with
    buf := update p.buf p.head b
    head := (p.head + 1) % vfsPipeSize }

/-- The loop that copies into the ring. -/
def Ring.copyIn (p : Ring) (bytes : List UInt8) : Ring := bytes.foldl Ring.put p

/-- What a writer reads in the caller's buffer. -/
def slice (mem : ℕ → UInt8) (i n : ℕ) : List UInt8 := (List.range n).map fun j => mem (i + j)

inductive Written where
  | returned (result : Int)
  /-- The call parks with this much done. -/
  | parked (done : ℕ)
  deriving DecidableEq

def epipe : Int := 32

/-- The loop of `vfs_pipe_write` up to where it parks; `mem` is the caller's buffer as it is now.
Every round but the last moves a byte, so that `len - done` of them are enough. -/
def writeLoop (mem : ℕ → UInt8) (len : ℕ) : ℕ → Ring → ℕ → Ring × Written
  | 0, p, done => (p, .returned done)
  | rounds + 1, p, done =>
    if len ≤ done then (p, .returned done)
    else if p.readers = 0 then (p, .returned (if done ≠ 0 then done else -epipe))
    else if p.len = vfsPipeSize then (p, .parked done)
    else
      let room := vfsPipeSize - p.len
      let n := min (len - done) room
      let p := p.copyIn (slice mem done n)
      writeLoop mem len rounds { p with len := p.len + n } (done + n)

/-- `vfs_pipe_write` from the head of its loop on. -/
def vfsPipeWrite (p : Ring) (mem : ℕ → UInt8) (len done : ℕ) : Ring × Written :=
  writeLoop mem len (len - done + 1) p done

/-- How many bytes the call has taken from its caller. -/
def Written.taken (done : ℕ) : Written → ℕ
  | .returned v => max done v.toNat
  | .parked d => d

/-! ## Many callers -/

inductive Call where
  | read (len : ℕ)
  | write (len done : ℕ)
  deriving DecidableEq

/-- One ring, the calls parked in it, and the bytes that went in and came out. -/
structure Traffic where
  ring : Ring
  calls : ℕ → Option Call
  accepted : List UInt8
  returned : List UInt8

/-- A call runs until it parks or returns. -/
def Traffic.run (s : Traffic) (t : ℕ) (mem : ℕ → UInt8) : Call → Traffic × Option Int
  | .read len =>
    match vfsPipeRead s.ring len with
    | (ring, none) => ({ s with ring, calls := update s.calls t (some (.read len)) }, none)
    | (ring, some bytes) =>
      ({ s with
        ring
        calls := update s.calls t none
        returned := s.returned ++ bytes }, some bytes.length)
  | .write len done =>
    let r := vfsPipeWrite s.ring mem len done
    let s := { s with
      ring := r.1
      accepted := s.accepted ++ slice mem done (r.2.taken done - done) }
    match r.2 with
    | .returned v => ({ s with calls := update s.calls t none }, some v)
    | .parked d => ({ s with calls := update s.calls t (some (.write len d)) }, none)

inductive Event where
  | read (thread len : ℕ)
  | write (thread len : ℕ) (mem : ℕ → UInt8)
  /-- A parked thread runs again. -/
  | resume (thread : ℕ) (mem : ℕ → UInt8)
  /-- Ends of the pipe are closed, or a fork makes more of them. -/
  | ends (readers writers : ℕ)

/-- A call of zero bytes returns at once. -/
def Traffic.enter (s : Traffic) (t len : ℕ) (mem : ℕ → UInt8) (c : Call) : Traffic × Option Int :=
  if (s.calls t).isSome then (s, none)
  else if len = 0 then (s, some 0)
  else s.run t mem c

/-- The state after an event, and what it makes a call return. -/
def Traffic.next (s : Traffic) : Event → Traffic × Option Int
  | .read t len => s.enter t len (fun _ => 0) (.read len)
  | .write t len mem => s.enter t len mem (.write len 0)
  | .resume t mem =>
    match s.calls t with
    | none => (s, none)
    | some c => s.run t mem c
  | .ends readers writers => ({ s with ring := { s.ring with readers, writers } }, none)

def Traffic.step (s : Traffic) (e : Event) : Traffic := (s.next e).1

/-- The read that an event runs, if it runs one: how many bytes it asks for. -/
def Traffic.asked (s : Traffic) : Event → Option ℕ
  | .read t len => if (s.calls t).isSome then none else some len
  | .resume t _ =>
    match s.calls t with
    | some (.read len) => some len
    | _ => none
  | _ => none

/-- A ring just made: nobody is in it, and nothing has gone through it. -/
def Traffic.fresh (buf : ℕ → UInt8) (readers writers : ℕ) : Traffic :=
  ⟨.fresh buf readers writers, fun _ => none, [], []⟩

end Vextro.Pipes
