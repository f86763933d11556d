import Evfilter.Handle.Registry
import Evfilter.Lib.Machine

/-!
# The handle registry and its users

Senders hold the handles that `evf_handle_create` returned to them. A receiver is a GetFromHandle filter whose
attach returned 0. The users call the registry in any order, each call being one input of the machine.
-/

namespace Evfilter.Handle
open Lib

/-- A GetFromHandle filter, the name in its `struct priv`, and the handle it was put on. -/
structure Receiver where
  filter : FilterPtr
  name : CString
  handle : Addr
deriving DecidableEq

structure Sys where
  reg : Registry
  /-- One entry for each create not yet destroyed. -/
  senders : List Addr
  receivers : List Receiver
deriving DecidableEq

/-- Filters whose attach returned 0 and that have not been detached since. -/
def Sys.attached (s : Sys) : List FilterPtr := s.receivers.map (·.filter)

inductive Op
  | create (name : CString) (malloc : Bool)
  | destroy (self : Addr)
  | attach (name : CString) (filter : FilterPtr) (send : SendFn) (malloc : Bool)
  | detach (filter : FilterPtr)

def attachHandle (r : Registry) (name : CString) : Addr := (handleLookup r name).getD r.heap.size

/-- A sender destroys a handle it holds. A filter is attached by `evf_get_from_handle_alloc` when it is
allocated, and detached by its free helper under the name kept in `priv`. A run goes as far as the refcounts do not
overflow. -/
def step (s : Sys) : Op → Option Sys
  | .create name malloc =>
    if s.reg.CanCount name then
      match evfHandleCreate s.reg name malloc with
      | (reg, none) => some { s with reg := reg }
      | (reg, some a) => some { s with reg := reg, senders := a :: s.senders }
    else none
  | .destroy self =>
    if self ∈ s.senders then
      (evfHandleDestroy s.reg self).map fun reg =>
        { s with reg := reg, senders := s.senders.erase self }
    else none
  | .attach name filter send malloc =>
    if filter ∈ s.attached then none
    else match evfHandleAttach s.reg name filter send malloc with
      | (reg, 0, _) => some { s with
          reg := reg
          receivers := ⟨filter, storedName name, attachHandle s.reg name⟩ :: s.receivers }
      | (reg, _, _) => some { s with reg := reg }
  | .detach filter => match s.receivers.find? (·.filter == filter) with
    | none => none
    | some r => some { s with
        reg := evfHandleDetach s.reg r.name
        receivers := s.receivers.erase r }

def machine : Machine Sys Op := ⟨⟨Registry.empty, [], []⟩, step⟩

end Evfilter.Handle
