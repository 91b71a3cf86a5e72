import Mathlib.Data.List.Basic

/-! Threads and what is kept for them, after `pthread.c`.

Threads are numbered as they are created, and a number is never used again, so that a record, a
stack or a TLS block that was given back can be told from a later one at the same address. `0` is
the null pointer and `1` the main thread. Each step of a run is one access of one thread to the
memory they share. -/

namespace Vextro.Pthread

def mainThread : ℕ := 1

inductive Part where
  | stack
  | tls
  | record
deriving DecidableEq

/-- `struct pthread_impl` -/
structure Impl where
  detached : Bool
  /-- 1 while running, 0 when finished. -/
  done : ℕ
  retiredNext : ℕ
deriving DecidableEq

/-- What a thread does once it has given back the parts of another. -/
inductive After where
  /-- `pthread_join` returns. -/
  | joined
  /-- `reap_retired` goes on with the records it has taken. -/
  | reaping (detached : Bool) (take : ℕ)
deriving DecidableEq

/-- Where a thread is. -/
inductive Place where
  | absent
  /-- In code of the program. -/
  | user
  /-- In `pthread_join`, waiting for `done`. -/
  | joinWait (t : ℕ)
  /-- In `pthread_detach`, before `detached` is set, before `done` is read, and before the record is
  retired. -/
  | detachSet (t : ℕ)
  | detachTest (t : ℕ)
  | detachPush (t : ℕ)
  /-- In `reap_retired`, called by `pthread_create`: before it has the lock, at the pointer `pp`
  (that of the list, or the `retired_next` of a record), and at the head of what it has taken. -/
  | createLock (detached : Bool)
  | walk (detached : Bool) (pp take : ℕ)
  | reap (detached : Bool) (take : ℕ)
  /-- The three parts of a thread are given back, one after the other. -/
  | unmap (t : ℕ) (k : After)
  | freeTls (t : ℕ) (k : After)
  | freeRecord (t : ℕ) (k : After)
  /-- In `pthread_create`, before the clone and before `tid` is stored. -/
  | createClone (detached : Bool)
  | createStore (t : ℕ)
  /-- In `pthread_exit`: before `detached` is read, before the record is retired, before `done` is
  cleared, and before the exit call is made. -/
  | exitTest
  | exitPush
  | exitDone
  | leaving
  | gone
deriving DecidableEq

def After.place : After → Place
  | .joined => .user
  | .reaping detached take => .reap detached take

/-- What a thread that is in code of the program does next; elsewhere it takes the next step of the
call it is in, and `refuse` tells that there is no memory for a new thread. -/
inductive Act where
  | create (detached : Bool)
  | exit
  | join (t : ℕ)
  | detach (t : ℕ)
  | go
  | refuse
deriving DecidableEq

structure State where
  impl : ℕ → Impl
  place : ℕ → Place
  /-- The next number for a thread. -/
  fresh : ℕ
  retiredList : ℕ
  /-- Who holds `retired_lock`. -/
  retiredLock : Option ℕ
  liveThreads : ℕ
  /-- The process has ended. -/
  ended : Bool
  /-- What has been given back so far. -/
  frees : List (ℕ × Part)
  /-- What has been read or written after it was given back. -/
  late : List (ℕ × Part)
  /-- The records that a reaper has taken off the list. -/
  taken : List ℕ
  /-- The threads that `pthread_join` or `pthread_detach` has been called with. -/
  called : List ℕ

namespace State

def init : State where
  impl t := ⟨decide (t = mainThread), 1, 0⟩
  place t := if t = mainThread then .user else .absent
  fresh := mainThread + 1
  retiredList := 0
  retiredLock := none
  liveThreads := 1
  ended := false
  frees := []
  late := []
  taken := []
  called := []

def goto (s : State) (a : ℕ) (p : Place) : State := { s with place := Function.update s.place a p }

def set (s : State) (t : ℕ) (i : Impl) : State := { s with impl := Function.update s.impl t i }

/-- `t->retired_next = retired_list; retired_list = t` under the lock. -/
def push (s : State) (t : ℕ) : State :=
  { s.set t { s.impl t with retiredNext := s.retiredList } with retiredList := t }

/-- `*pp` -/
def deref (s : State) (pp : ℕ) : ℕ := if pp = 0 then s.retiredList else (s.impl pp).retiredNext

/-- `*pp = x` -/
def assign (s : State) (pp x : ℕ) : State :=
  if pp = 0 then { s with retiredList := x } else s.set pp { s.impl pp with retiredNext := x }

def free (s : State) (t : ℕ) (p : Part) : State := { s with frees := (t, p) :: s.frees }

/-- A pass of the loop of `reap_retired` that unlinks. -/
def unlink (s : State) (pp take t : ℕ) : State :=
  let s := s.assign pp (s.impl t).retiredNext
  { s.set t { s.impl t with retiredNext := take } with taken := t :: s.taken }

/-- The record of a new thread, and the thread. -/
def clone (s : State) (detached : Bool) : State :=
  { (s.set s.fresh ⟨detached, 1, 0⟩).goto s.fresh .user with
    fresh := s.fresh + 1, liveThreads := s.liveThreads + 1 }

def call (s : State) (t : ℕ) : State := { s with called := t :: s.called }

/-- What a thread stands on and works with. -/
def own (a : ℕ) : List (ℕ × Part) := [(a, .stack), (a, .tls), (a, .record)]

/-- What the next step of a thread reads or writes. From the store to `done` on it uses only
registers. -/
def refs (s : State) (a : ℕ) (act : Act) : List (ℕ × Part) :=
  match s.place a, act with
  | .absent, _ | .leaving, _ | .gone, _ => []
  | .user, .join t => if t = a then own a else (t, .record) :: own a
  | .user, .detach t => (t, .record) :: own a
  | .joinWait t, _ | .detachSet t, _ | .detachTest t, _ | .detachPush t, _ | .unmap t _,
      _ | .freeTls t _, _
  | .createStore t, _ => (t, .record) :: own a
  | .walk _ pp _, _ => (pp, .record) :: (s.deref pp, .record) :: own a
  | .reap _ take, _ => (take, .record) :: own a
  | _, _ => own a

def touch (s : State) (refs : List (ℕ × Part)) : State :=
  { s with late := refs.filter (· ∈ s.frees) ++ s.late }

/-- The step of a thread. -/
def next (s : State) (a : ℕ) (act : Act) : State :=
  match s.place a with
  | .absent | .gone => s
  | .user =>
    match act with
    | .create detached => s.goto a (.createLock detached)
    | .exit =>
      let s := { s with liveThreads := s.liveThreads - 1 }
      if s.liveThreads = 0 then { s with ended := true } else s.goto a .exitTest
    | .join t =>
      if t = 0 ∨ t = a then s
      else if (s.impl t).detached then s.call t
      else (s.call t).goto a (.joinWait t)
    | .detach t =>
      if t = 0 then s
      else if (s.impl t).detached then s.call t
      else (s.call t).goto a (.detachSet t)
    | .go | .refuse => s
  | .joinWait t => if (s.impl t).done = 0 then s.goto a (.unmap t .joined) else s
  | .detachSet t => (s.set t { s.impl t with detached := true }).goto a (.detachTest t)
  | .detachTest t => if (s.impl t).done = 0 then s.goto a (.detachPush t) else s.goto a .user
  | .detachPush t => if s.retiredLock = none then (s.push t).goto a .user else s
  | .createLock d =>
    if s.retiredLock = none then { s with retiredLock := some a }.goto a (.walk d 0 0) else s
  | .walk d pp take =>
    let t := s.deref pp
    if t = 0 then { s with retiredLock := none }.goto a (.reap d take)
    else if (s.impl t).done = 0 then (s.unlink pp take t).goto a (.walk d pp t)
    else s.goto a (.walk d t take)
  | .reap d take =>
    if take = 0 then s.goto a (.createClone d)
    else s.goto a (.unmap take (.reaping d (s.impl take).retiredNext))
  | .unmap t k => (s.free t .stack).goto a (.freeTls t k)
  | .freeTls t k => (s.free t .tls).goto a (.freeRecord t k)
  | .freeRecord t k => (s.free t .record).goto a k.place
  | .createClone d =>
    if act = .refuse then s.goto a .user else (s.clone d).goto a (.createStore s.fresh)
  | .createStore _ => s.goto a .user
  | .exitTest =>
    if (s.impl a).detached ∧ a ≠ mainThread then s.goto a .exitPush else s.goto a .exitDone
  | .exitPush => if s.retiredLock = none then (s.push a).goto a .exitDone else s
  | .exitDone => (s.set a { s.impl a with done := 0 }).goto a .leaving
  | .leaving => s.goto a .gone

def step (s : State) (x : ℕ × Act) : State :=
  if s.ended then s else (s.touch (s.refs x.1 x.2)).next x.1 x.2

/-- The records on the retired list, as far as a walk of `n` records goes. -/
def listed (s : State) : ℕ → ℕ → List ℕ
  | 0, _ => []
  | n + 1, p => if p = 0 then [] else p :: s.listed n (s.impl p).retiredNext

/-- No thread is at the place. -/
def nobodyAt (s : State) (p : Place) : Bool := (List.range s.fresh).all fun a => s.place a ≠ p

end State

end Vextro.Pthread
