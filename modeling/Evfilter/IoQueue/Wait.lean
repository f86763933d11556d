import Evfilter.IoQueue.Queue
import Evfilter.Lib.Machine

/-!
# Waiting on the queue

`evf_io_queue_wait` taken apart at its calls of `select()` and of the read callbacks. A callback may call the
functions of the queue, `evf_io_queue_wait` too, so the callbacks that have not returned form a stack. What the
loop meets is the list and the `fd_set` as the callbacks left them.
-/

namespace Evfilter.IoQueue
open Lib

/-- A call of `evf_io_queue_wait` whose `select()` has returned. -/
structure Wait where
  /-- What `select()` left in the `fd_set`. -/
  ready : Finset Nat
  /-- The size of the heap at that moment. Members added later have addresses from there on. -/
  since : Addr
deriving DecidableEq

/-- The effects outside the queue. -/
inductive Call
  | read (self : Addr) (m : Memb)
  | close (fd : Nat)
  | free (priv : Priv)
  | waited (ret : Int)
deriving DecidableEq

structure State where
  queue : Queue
  /-- The members whose callbacks are running, the innermost call first. -/
  reading : List (Addr × Wait)
  /-- `here` of the innermost wait, while no callback of it is running. -/
  walk : Option (Option Addr × Wait)
  log : List Call
deriving DecidableEq

inductive Op
  | add (fd : Nat) (read : ReadFn) (priv : Priv) (malloc : Bool)
  | rem (fd : Nat)
  /-- `select()` leaves the armed descriptors that are ready, or fails. -/
  | wait (select : Option (Finset Nat))
  /-- The loop looks at `here`. -/
  | visit
  /-- The innermost callback returns. -/
  | ret (readRet : Int32)

/-- What the loop does with a member whose callback did not return `EVF_IO_QUEUE_OK`. -/
def afterRead (q : Queue) (m : Memb) (readRet : Int32) : Queue × List Call :=
  let calls := (if readRet &&& evfIoQueueClose ≠ 0 then [Call.close m.fd] else []) ++
    (if readRet &&& evfIoQueueDfree ≠ 0 then [Call.free m.priv] else [])
  if readRet &&& evfIoQueueRemFlag ≠ 0 then
    let list := listDelete q.heap q.root m.fd
    (⟨list.1, q.cnt, q.rfds.erase m.fd, list.2⟩, calls)
  else ({ q with rfds := q.rfds.erase m.fd }, calls)

def stepWait (s : State) (select : Option (Finset Nat)) : Option State :=
  match s.queue.root with
  | none => some { s with log := .waited 0 :: s.log }
  | some root => match select with
    | none => some { s with log := .waited (-1) :: s.log }
    | some ready =>
      if ready ⊆ s.queue.rfds then
        some { s with
          queue := { s.queue with rfds := ready }
          walk := some (some root, ⟨ready, s.queue.heap.size⟩) }
      else none

def stepVisit (s : State) : Option State :=
  match s.walk with
  | none => none
  | some (none, w) => some { s with walk := none, log := .waited w.ready.card :: s.log }
  | some (some here, w) => match s.queue.heap.get? here with
    | none => none
    | some c =>
      if c.val.fd ∈ s.queue.rfds then
        some { s with
          reading := (here, w) :: s.reading
          walk := none
          log := .read here c.val :: s.log }
      else
        some { s with
          queue := { s.queue with rfds := insert c.val.fd s.queue.rfds }
          walk := some (c.next, w) }

/-- A callback that removed its own member leaves the loop with a pointer to a freed one, which it reads, and the
run ends. When the loop itself has freed the member, the successor is the one it had. -/
def stepRet (s : State) (readRet : Int32) : Option State :=
  match s.reading with
  | [] => none
  | (here, w) :: reading => match s.queue.heap.get? here with
    | none => none
    | some c =>
      if readRet = evfIoQueueOk then
        some { s with reading := reading, walk := some (c.next, w) }
      else
        let after := afterRead s.queue c.val readRet
        some {
          queue := after.1
          reading := reading
          walk := some ((after.1.heap.cell? here).bind (·.next), w)
          log := after.2.reverse ++ s.log }

/-- The queue is called from outside of it or from the innermost callback. `FD_SET` takes descriptors below
`FD_SETSIZE`. -/
def step (s : State) : Op → Option State
  | .add fd read priv malloc =>
    if s.walk = none ∧ fd < fdSetsize then
      some { s with queue := (evfIoQueueAdd s.queue fd read priv malloc).1 }
    else none
  | .rem fd =>
    if s.walk = none ∧ fd < fdSetsize then some { s with queue := evfIoQueueRem s.queue fd } else none
  | .wait select => if s.walk = none then stepWait s select else none
  | .visit => stepVisit s
  | .ret readRet => if s.walk = none then stepRet s readRet else none

def machine : Machine State Op := ⟨⟨Queue.empty, [], none, []⟩, step⟩

end Evfilter.IoQueue
