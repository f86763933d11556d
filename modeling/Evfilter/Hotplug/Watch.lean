import Evfilter.Lib.CString
import Evfilter.Lib.Machine
import Mathlib.Data.Finset.Card

/-!
# Watching for devices

`evf_hotplug_init` and `evf_hotplug_rescan` taken apart at their system calls and at their calls of `dev_plug`.
Between any two of these, entries of the directory come and go. The scan reports the entries that are present
throughout it, and the inotify instance has a notification for whatever happens after the watch was added.
-/

namespace Evfilter.Hotplug
open Lib

/-- The name of an entry of a directory, within `NAME_MAX`. -/
structure FileName where
  name : CString
  short : name.strlen ≤ 255
deriving DecidableEq

/-- `EVF_BUF_LEN` -/
def evfBufLen : Nat := 1024

/-- `!strncmp(name, "event", 5)` -/
def isEvent (n : FileName) : Bool := n.name.trunc 5 = CString.literal "event"

/-- `snprintf(buf, EVF_BUF_LEN, "%s%s", EVF_DEV_PATH, name)` -/
def devPath (n : FileName) : CString := ((CString.literal "/dev/input/").append n.name).trunc (evfBufLen - 1)

def inCreate : UInt32 := 0x100
def inDelete : UInt32 := 0x200

/-- `struct inotify_event` -/
structure Notification where
  mask : UInt32
  name : FileName
deriving DecidableEq

/-- The name is padded with NULs to a multiple of the size of the rest. -/
def Notification.size (ev : Notification) : Nat := 16 + 16 * (ev.name.name.strlen / 16 + 1)

/-- `read` on the inotify instance: the events that fit, and those that stay in the queue. -/
def readEvents (room : Nat) : List Notification → List Notification × List Notification
  | [] => ([], [])
  | ev :: queue =>
    if ev.size ≤ room then
      let r := readEvents (room - ev.size) queue
      (ev :: r.1, r.2)
    else ([], ev :: queue)

inductive Happening
  | created (name : FileName)
  | removed (name : FileName)
  /-- Calls of `dev_plug` and `dev_unplug`. -/
  | plugged (dev : CString)
  | unplugged (dev : CString)
deriving DecidableEq

/-- The body of the loop of `evf_hotplug_rescan`, with its calls. -/
def rescanEvent (devUnplug : Bool) (ev : Notification) : List Happening :=
  if isEvent ev.name then
    (if ev.mask &&& inCreate ≠ 0 then [.plugged (devPath ev.name)] else []) ++
      if devUnplug ∧ ev.mask &&& inDelete ≠ 0 then [.unplugged (devPath ev.name)] else []
  else []

/-- The loop of `walk`. -/
structure Walk where
  /-- Entries that have been present since `opendir`, and that `readdir` has not returned. -/
  pending : Finset FileName
  /-- Entries that `readdir` may return. -/
  seen : Finset FileName
  /-- The entry that `dev_plug` is about to be called for. -/
  dirEnt : Option FileName

/-- How far `evf_hotplug_init` is. It returns the descriptor in `watching` and -1 in `failed`. -/
inductive Phase
  | start
  | walking (walk : Walk)
  | walked
  | inotify
  | watching
  | failed

structure State where
  dir : Finset FileName
  phase : Phase
  /-- The notifications of the inotify instance. -/
  queue : List Notification
  /-- Those that `evf_hotplug_rescan` has read and not looked at. -/
  buf : List Notification
  /-- What has happened since `opendir`, the last first. -/
  log : List Happening

inductive Input
  | create (name : FileName)
  | remove (name : FileName)
  | opendir (ok : Bool)
  | readdir (name : FileName)
  | devPlug
  /-- `readdir` returns `NULL`. Any call since the start of the loop may have set `errno`. -/
  | walkEnd (errno : Bool)
  | inotifyInit (ok : Bool)
  | addWatch (ok : Bool)
  | read (ok : Bool)
  | event

/-- What the kernel tells the inotify instance. -/
def State.notify (s : State) (mask : UInt32) (name : FileName) : List Notification :=
  match s.phase with
  | .watching => s.queue ++ [⟨mask, name⟩]
  | _ => s.queue

def create (s : State) (name : FileName) : Option State :=
  if name ∈ s.dir then none
  else some {
    s with
    dir := insert name s.dir
    phase := match s.phase with
      | .walking w => .walking { w with seen := insert name w.seen }
      | phase => phase
    queue := s.notify inCreate name
    log := .created name :: s.log }

def remove (s : State) (name : FileName) : Option State :=
  if name ∈ s.dir then
    some {
      s with
      dir := s.dir.erase name
      phase := match s.phase with
        | .walking w => .walking { w with pending := w.pending.erase name }
        | phase => phase
      queue := s.notify inDelete name
      log := .removed name :: s.log }
  else none

def opendir (s : State) (ok : Bool) : Option State :=
  match s.phase with
  | .start => some (if ok then { s with phase := .walking ⟨s.dir, s.dir, none⟩, log := [] }
      else { s with phase := .failed })
  | _ => none

def readdir (s : State) (name : FileName) : Option State :=
  match s.phase with
  | .walking ⟨pending, seen, none⟩ =>
    if name ∈ seen then
      some { s with phase := .walking ⟨pending.erase name, seen, if isEvent name then some name else none⟩ }
    else none
  | _ => none

def devPlug (s : State) : Option State :=
  match s.phase with
  | .walking ⟨pending, seen, some name⟩ =>
    some { s with phase := .walking ⟨pending, seen, none⟩, log := .plugged (devPath name) :: s.log }
  | _ => none

def walkEnd (s : State) (errno : Bool) : Option State :=
  match s.phase with
  | .walking ⟨pending, _, none⟩ =>
    if pending = ∅ then some { s with phase := if errno then .failed else .walked } else none
  | _ => none

def inotifyInit (s : State) (ok : Bool) : Option State :=
  match s.phase with
  | .walked => some { s with phase := if ok then .inotify else .failed }
  | _ => none

def addWatch (s : State) (ok : Bool) : Option State :=
  match s.phase with
  | .inotify => some { s with phase := if ok then .watching else .failed }
  | _ => none

/-- The call of `read` in `evf_hotplug_rescan`, which blocks as long as there is nothing to read. -/
def read (s : State) (ok : Bool) : Option State :=
  match s.phase with
  | .watching =>
    if s.buf = [] ∧ s.queue ≠ [] then
      let r := readEvents evfBufLen s.queue
      some (if ok then { s with buf := r.1, queue := r.2 } else s)
    else none
  | _ => none

def event (devUnplug : Bool) (s : State) : Option State :=
  match s.buf with
  | [] => none
  | ev :: buf => some { s with buf, log := (rescanEvent devUnplug ev).reverse ++ s.log }

def step (devUnplug : Bool) (s : State) : Input → Option State
  | .create name => create s name
  | .remove name => remove s name
  | .opendir ok => opendir s ok
  | .readdir name => readdir s name
  | .devPlug => devPlug s
  | .walkEnd errno => walkEnd s errno
  | .inotifyInit ok => inotifyInit s ok
  | .addWatch ok => addWatch s ok
  | .read ok => read s ok
  | .event => event devUnplug s

/-- `dev_plug` is set, and `dev_unplug` may be. -/
def machine (devUnplug : Bool) (dir : Finset FileName) : Machine State Input where
  init := { dir, phase := .start, queue := [], buf := [], log := [] }
  step := step devUnplug

/-! ## What is reported -/

/-- `dev_plug` has been called for the device since it was created. -/
def reported (name : FileName) : List Happening → Bool
  | [] => false
  | .plugged dev :: log => dev = devPath name || reported name log
  | .created other :: log => other ≠ name && reported name log
  | _ :: log => reported name log

/-- Once all notifications have been processed, the devices that exist have been reported. -/
def Covered (s : State) : Prop :=
  s.phase = .watching → s.queue = [] → s.buf = [] → ∀ name ∈ s.dir, isEvent name → reported name s.log

/-- When the watch is added, the scan has reported the devices that were created since it began, as far as they
exist. -/
def HandedOver (s : State) : Input → Prop
  | .addWatch true => ∀ name ∈ s.dir, isEvent name → .created name ∈ s.log → reported name s.log
  | _ => True

end Evfilter.Hotplug
