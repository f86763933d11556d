import Evfilter.Evfd.Descriptors
import Evfilter.IoQueue.Wait
import Evfilter.Lib.CString

/-!
# The devices of evfd

`device_plugged`, `line_data` and the loop of `main` over the members of the queue, with the functions of
`evf_line.c` that they call. The descriptor of a uinput device is the private pointer of the commit filter of its
line, and `evf_line_destroy` returns it.
-/

namespace Evfilter.Evfd.Devices
open Lib IoQueue

/-- A filter of a line, by what its `free` gives back. -/
inductive LineFilter
  | loaded (priv : Priv)
  | barrier
  | commit (data : Priv)
deriving DecidableEq

def evfFilterFree : LineFilter → Priv
  | .loaded priv => priv
  | .barrier => 0
  | .commit data => data

/-- What the last filter gives back. Without filters `priv` is not initialised. -/
def evfFiltersFree (root : List LineFilter) : Option Priv := root.foldl (fun _ del => some (evfFilterFree del)) none

/-- `struct evf_line` -/
structure Line where
  fd : Nat
  begins : List LineFilter
deriving DecidableEq

/-- `stopped` when `main` has left its loop. -/
structure State where
  kernel : Kernel
  queue : Queue
  /-- The lines by their addresses, which are not 0. -/
  lines : Priv → Option Line
  malloced : Nat
  stopped : Bool

/-! ## Lines -/

/-- What `read` returns. -/
inductive Read
  | data
  | error (errno : Nat)
deriving DecidableEq

def ENODEV : Nat := 19
def EAGAIN : Nat := 11

def evfLineProcess : Read → Int32
  | .data => 0
  | .error errno => if errno = ENODEV then -1 else if errno ≠ EAGAIN then -1 else 0

/-- The device as `open` and `EVIOCGVERSION` see it. -/
structure Device where
  fd : Option Nat
  version : Bool

/-- A descriptor without a version is closed, and returned all the same. -/
def openInputDevice (k : Kernel) (dev : Device) : Option (Kernel × Int) :=
  match dev.fd with
  | none => some (k, -1)
  | some fd => (k.opened fd .input).map fun k => if dev.version then (k, fd) else (k.close fd, fd)

/-- What the rest of `evf_line_create` meets: the `free` results of the filters that `evf_load_system_profile` loads,
unless it fails, and the allocations. -/
structure Setup where
  profile : Option (List Priv)
  mallocLine : Bool
  allocCommit : Bool
  allocBarrier : Bool

/-- The address of the line, with its commit filter for `priv`. -/
def evfLineCreate (s : State) (dev : Device) (setup : Setup) (priv : Priv) (useBarriers : UInt32) (evenEmpty : Bool) :
    Option (State × Option Priv) :=
  (openInputDevice s.kernel dev).map fun (r : Kernel × Int) =>
    if r.2 < 0 then ({ s with kernel := r.1 }, none)
    else
      let closed : State × Option Priv := ({ s with kernel := r.1.close r.2.toNat }, none)
      match setup.profile with
      | none => closed
      | some filters =>
        if evenEmpty = false ∧ filters = [] then closed
        else if setup.mallocLine = false then closed
        else if setup.allocCommit = false ∨ (useBarriers ≠ 0 ∧ setup.allocBarrier = false) then closed
        else
          let closing : List LineFilter := if useBarriers ≠ 0 then [.barrier, .commit priv] else [.commit priv]
          let line : Line := { fd := r.2.toNat, begins := filters.map .loaded ++ closing }
          ({ s with
              kernel := r.1
              lines := Function.update s.lines (s.malloced + 1) (some line)
              malloced := s.malloced + 1 },
            some (s.malloced + 1))

/-- `none` where there is no line to destroy. -/
def evfLineDestroy (s : State) (line : Priv) : Option (State × Priv) :=
  (s.lines line).bind fun self => (evfFiltersFree self.begins).map fun priv =>
    ({ s with kernel := s.kernel.close self.fd, lines := Function.update s.lines line none }, priv)

/-! ## The callbacks -/

/-- The `read` of the members of lines, and that of the hotplug member. -/
def lineDataFn : ReadFn := 0
def hotplugDataFn : ReadFn := 1

/-- What `evf_line_destroy` returns is dropped. -/
def lineData (s : State) (priv : Priv) (read : Read) : Option (State × Int32) :=
  (s.lines priv).bind fun _ =>
    if evfLineProcess read ≠ 0 then (evfLineDestroy s priv).map fun r => (r.1, evfIoQueueRemFlag)
    else some (s, evfIoQueueOk)

/-- 1 for a device that cannot be opened, too. -/
def ourInputDevice (name : Option CString) : Int32 :=
  match name with
  | none => 1
  | some name => if name = CString.literal "uinput device" then 1 else 0

/-- What one call of `device_plugged` meets. -/
structure Plug where
  name : Option CString
  uinput : Uinput
  device : Device
  setup : Setup
  mallocMemb : Bool

def devicePlugged (s : State) (plug : Plug) : Option State :=
  if ourInputDevice plug.name ≠ 0 then some s
  else (evfUinputCreate s.kernel plug.uinput).bind fun created =>
    let s := { s with kernel := created.1 }
    if created.2 < 0 then some s
    else
      let fd := created.2.toNat
      (evfLineCreate s plug.device plug.setup fd 0 false).bind fun r =>
        match r.2 with
        | none => some { r.1 with kernel := evfUinputDestroy r.1.kernel fd }
        | some line => (r.1.lines line).bind fun self =>
          let added := evfIoQueueAdd r.1.queue self.fd lineDataFn line plug.mallocMemb
          let s := { r.1 with queue := added.1 }
          if added.2 = 0 then
            (evfLineDestroy { s with kernel := evfUinputDestroy s.kernel fd } line).map Prod.fst
          else some s

/-- `EVF_IO_QUEUE_MEMB_LOOP` at the end of `main`. -/
def cleanup (s : State) : List (Addr × Memb) → Option State
  | [] => some s
  | i :: is =>
    if i.2.priv ≠ 0 then
      (evfLineDestroy s i.2.priv).bind fun r => cleanup { r.1 with kernel := evfUinputDestroy r.1.kernel r.2 } is
    else cleanup s is

/-! ## Runs -/

inductive Input
  /-- The inotify instance gets its member of the queue. -/
  | hotplug (fd : Nat)
  | plugged (plug : Plug)
  /-- `evf_io_queue_wait` calls `line_data`. -/
  | data (here : Addr) (read : Read)
  | shutdown

def hotplug (s : State) (fd : Nat) : Option State :=
  (s.kernel.opened fd .hotplug).map fun kernel =>
    { s with kernel, queue := (evfIoQueueAdd s.queue fd hotplugDataFn 0 true).1 }

def data (s : State) (here : Addr) (read : Read) : Option State :=
  match s.queue.heap.get? here with
  | none => none
  | some memb =>
    if memb.val.read = lineDataFn then
      (lineData s memb.val.priv read).map fun r =>
        if r.2 = evfIoQueueOk then r.1 else { r.1 with queue := (afterRead r.1.queue memb.val r.2).1 }
    else none

def shutdown (s : State) : Option State := cleanup { s with stopped := true } s.queue.members

def step (s : State) (input : Input) : Option State :=
  if s.stopped then none
  else match input with
    | .hotplug fd => hotplug s fd
    | .plugged plug => devicePlugged s plug
    | .data here read => data s here read
    | .shutdown => shutdown s

/-- The queue is new. Files that are open already take their descriptors. -/
def machine : Machine State Input where
  init := {
    kernel := ⟨fun _ => none, 0, []⟩
    queue := Queue.empty
    lines := fun _ => none
    malloced := 0
    stopped := false }
  step := step

/-! ## What is owned -/

def commitPriv (line : Line) : Option Priv :=
  match line.begins.getLast? with
  | some (.commit data) => some data
  | _ => none

/-- The commit priv of the line of a member, if the member has a line. -/
def ownedBy (lines : Priv → Option Line) (x : Addr × Memb) : Option Priv :=
  if x.2.priv = 0 then none else (lines x.2.priv).bind commitPriv

/-- The commit privs of the lines in the queue. -/
def State.commitPrivs (s : State) : List Priv := s.queue.members.filterMap (ownedBy s.lines)

/-- Each device is live or was destroyed, and this once. The live ones belong to the lines in the queue, and none is
left when evfd exits. -/
structure Accounted (s : State) : Prop where
  once : s.kernel.destroyed.Nodup
  destroyed : ∀ dev, dev ∈ s.kernel.destroyed ↔ dev < s.kernel.devices ∧ ∀ fd, s.kernel.device fd ≠ some dev
  distinct : s.stopped = false → s.commitPrivs.Nodup
  live : s.stopped = false → ∀ fd, fd ∈ s.commitPrivs ↔ (s.kernel.device fd).isSome
  gone : s.stopped = true → ∀ fd, s.kernel.device fd = none

/-- No read of a line fails. -/
def LinesRead (_ : State) : Input → Prop
  | .data _ read => ∀ errno, read = .error errno → errno = EAGAIN
  | _ => True

end Evfilter.Evfd.Devices
