import Evfilter.Lib.Chain
import Mathlib.Data.Finset.Card

/-!
# The io queue

The functions of `evf_io_queue.c` that add, remove and count members. An `fd_set` is the set of the descriptors
armed in it. The cells of the members are part of the queue. An argument `malloc` tells whether the allocation
in the call succeeds.
-/

namespace Evfilter.IoQueue
open Lib

/-- `FD_SETSIZE` -/
def fdSetsize : Nat := 1024

def evfIoQueueOk : Int32 := 0
def evfIoQueueRemFlag : Int32 := 1
def evfIoQueueClose : Int32 := 2
def evfIoQueueDfree : Int32 := 4

/-- An `int (*)(struct evf_io_queue_memb *)`. -/
abbrev ReadFn := Nat

/-- A `void *`. -/
abbrev Priv := Nat

/-- `struct evf_io_queue_memb`; its `next` is that of the cell. -/
structure Memb where
  fd : Nat
  read : ReadFn
  priv : Priv
deriving DecidableEq

structure Queue where
  heap : Heap Memb
  cnt : UInt32
  rfds : Finset Nat
  root : Option Addr
deriving DecidableEq

def Queue.members (q : Queue) : List (Addr × Memb) := q.heap.toList q.root

def listInsert (h : Heap Memb) (root : Option Addr) (memb : Addr) : Heap Memb × Option Addr :=
  match h.get? memb with
  | none => (h, root)
  | some m => match h.scanPrev (fun here => here.val.fd ≤ m.val.fd) root with
    | (none, _) => (h.setNext memb root, some memb)
    | (some prev, here) => ((h.setNext prev (some memb)).setNext memb here, root)

def listDelete (h : Heap Memb) (root : Option Addr) (fd : Nat) : Heap Memb × Option Addr :=
  match h.scanPrev (fun here => here.val.fd == fd) root with
  | (_, none) => (h, root)
  | (prev, some here) =>
    let next := (h.get? here).bind (·.next)
    match prev with
    | none => (h.free here, next)
    | some prev => ((h.setNext prev next).free here, root)

def Queue.empty : Queue := ⟨Heap.empty, 0, ∅, none⟩

def evfIoQueueNew (malloc : Bool) : Option Queue := if malloc then some Queue.empty else none

def evfIoQueueAdd (q : Queue) (fd : Nat) (read : ReadFn) (priv : Priv) (malloc : Bool) : Queue × Int32 :=
  if malloc then
    let memb := q.heap.alloc ⟨fd, read, priv⟩ none
    let list := listInsert memb.1 q.root memb.2
    (⟨list.1, q.cnt + 1, insert fd q.rfds, list.2⟩, 1)
  else (q, 0)

def evfIoQueueRem (q : Queue) (fd : Nat) : Queue :=
  if fd ∈ q.rfds then
    let list := listDelete q.heap q.root fd
    ⟨list.1, q.cnt - 1, q.rfds.erase fd, list.2⟩
  else q

def evfIoQueueGetCount (q : Queue) : UInt32 := q.cnt

end Evfilter.IoQueue
