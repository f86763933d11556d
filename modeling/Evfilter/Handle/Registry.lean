import Evfilter.Lib.Chain
import Evfilter.Lib.CString

/-!
# The handle registry

The functions of `evf_handle.c`. The global list `handles` and the cells it is made of are one value,
passed through each function. A handle that the list lost track of is still a cell of the heap. An argument
`malloc` tells whether the allocation in the call succeeds.
-/

namespace Evfilter.Handle
open Lib

/-- `EVF_HANDLE_MAX` -/
def evfHandleMax : Nat := 64

/-- A `struct evf_filter *` other than NULL. -/
abbrev FilterPtr := Nat

/-- A `void (*)(struct evf_filter *, struct input_event *)` other than NULL. -/
abbrev SendFn := Nat

/-- `struct evf_handle`; its `next` is that of the cell. -/
structure EvfHandle where
  name : CString
  refcount : Nat
  filter : Option FilterPtr
  send : Option SendFn
deriving DecidableEq

structure Registry where
  heap : Heap EvfHandle
  handles : Option Addr
deriving DecidableEq

namespace Registry

def empty : Registry := ⟨Heap.empty, none⟩

/-- The handles of the list, in its order. -/
def members (r : Registry) : List (Addr × EvfHandle) := r.heap.toList r.handles

def addrs (r : Registry) : List Addr := Heap.addrs r.members

/-- The fields of a handle that has not been freed. -/
def val? (r : Registry) (a : Addr) : Option EvfHandle := (r.heap.get? a).map (·.val)

end Registry

/-- `strncpy` into `name[EVF_HANDLE_MAX]`, the last byte overwritten with NUL. -/
def storedName (name : CString) : CString := name.trunc (evfHandleMax - 1)

def handleAlloc (r : Registry) (name : CString) (malloc : Bool) : Registry × Option Addr :=
  if malloc then
    let new := r.heap.alloc
      { name := storedName name, refcount := 0, filter := none, send := none } r.handles
    (⟨new.1, some new.2⟩, some new.2)
  else (r, none)

def handleFree (r : Registry) (self : Addr) : Registry :=
  -- the search is for the predecessor, which the first handle does not have
  match r.heap.scan (fun c => c.next == some self) r.handles with
  | none => r
  | some i =>
    let next := (r.heap.get? self).bind (·.next)
    if some i = r.handles then ⟨r.heap.free self, next⟩
    else ⟨(r.heap.setNext i next).free self, r.handles⟩

def handleLookup (r : Registry) (name : CString) : Option Addr :=
  r.heap.scan (fun c => CString.strcasecmp c.val.name name == 0) r.handles

/-- `i->refcount++` -/
def incRefcount (r : Registry) (i : Addr) : Registry :=
  { r with heap := r.heap.setVal i fun v => { v with refcount := v.refcount + 1 } }

def intMax : Nat := 2147483647

/-- `refcount` is an `int`, so that the handle of the name can be created again only if it is not at its end. -/
def Registry.CanCount (r : Registry) (name : CString) : Prop :=
  ∀ i ∈ handleLookup r name, ∀ v ∈ r.val? i, v.refcount < intMax

instance (r : Registry) (name : CString) : Decidable (r.CanCount name) :=
  inferInstanceAs (Decidable (∀ i ∈ handleLookup r name, ∀ v ∈ r.val? i, v.refcount < intMax))

def evfHandleCreate (r : Registry) (name : CString) (malloc : Bool) : Registry × Option Addr :=
  match handleLookup r name with
  | some i => (incRefcount r i, some i)
  | none => match handleAlloc r name malloc with
    | (r', none) => (r', none)
    | (r', some i) => (incRefcount r' i, some i)

/-- `none` is a read through a pointer to a freed handle. -/
def evfHandleDestroy (r : Registry) (self : Addr) : Option Registry :=
  match r.val? self with
  | none => none
  | some v =>
    if 1 < v.refcount then
      some { r with heap := r.heap.setVal self fun v => { v with refcount := v.refcount - 1 } }
    else if v.filter = none then some (handleFree r self)
    else some r

def evfHandleDetach (r : Registry) (name : CString) : Registry :=
  match handleLookup r name with
  | none => r
  | some i =>
    if 0 < ((r.val? i).elim 0 (·.refcount)) then
      { r with heap := r.heap.setVal i fun v => { v with filter := none } }
    else handleFree r i

/-- `i->filter = *filter; i->send = send;` -/
def setReceiver (r : Registry) (i : Addr) (filter : FilterPtr) (send : SendFn) : Registry :=
  { r with heap := r.heap.setVal i fun v => { v with filter := some filter, send := some send } }

/-- The return value and what is left in `*filter`. -/
def evfHandleAttach (r : Registry) (name : CString) (filter : FilterPtr) (send : SendFn)
    (malloc : Bool) : Registry × Nat × FilterPtr :=
  match handleLookup r name with
  | none => match handleAlloc r name malloc with
    | (r', none) => (r', 1, filter)
    | (r', some i) => (setReceiver r' i filter send, 0, filter)
  | some i => match (r.val? i).bind (·.filter) with
    | none => (setReceiver r i filter send, 0, filter)
    | some f => (r, 2, f)

/-- The call `self->send(self->filter, ev)`, if one is made. For a handle that has been freed there is none, whereas the
code reads freed memory. -/
def evfHandleSend (r : Registry) (self : Addr) : Option (Option SendFn × FilterPtr) :=
  (r.val? self).bind fun v => match v.filter with
    | none => none
    | some f => some (v.send, f)

end Evfilter.Handle
