import Evfilter.Filters.Event

/-!
# Barrier

Holds the events until a SYN_REPORT. The array of the filter is kept up to `queue_index`; a slot that has been
sent is not read again before it is overwritten.
-/

namespace Evfilter.Filters
open Lib

structure Barrier where
  queueSize : UInt32
  queue : List InputEvent
  bounded : queue.length ≤ queueSize.toNat
deriving DecidableEq

def evfBarrierAlloc (history : UInt32) : Barrier := ⟨history, [], Nat.zero_le _⟩

/-- `barrier->queue_index = 0` -/
def Barrier.emptied (barrier : Barrier) : Barrier := ⟨barrier.queueSize, [], Nat.zero_le _⟩

def Barrier.queueIndex (barrier : Barrier) : Nat := barrier.queue.length

/-- A full queue drops the event. -/
def insertQueue (barrier : Barrier) (ev : InputEvent) : Barrier :=
  if h : barrier.queueSize.toNat ≤ barrier.queueIndex then barrier
  else ⟨barrier.queueSize, barrier.queue ++ [ev], by
    rw [List.length_append]
    exact Nat.lt_of_not_le h⟩

/-- Each slot is sent by its own address, so nothing comes back. -/
def flushQueue : List InputEvent → Modify Unit
  | [] => pure ()
  | ev :: queue => do
    let _ ← emit ev
    flushQueue queue

def Barrier.modify (barrier : Barrier) (ev : InputEvent) : Modify (Barrier × InputEvent) := do
  if ev.type = evSyn ∧ ev.code = synReport then
    flushQueue barrier.queue
    let ev ← emit ev
    return (barrier.emptied, ev)
  return (insertQueue barrier ev, ev)

end Evfilter.Filters
