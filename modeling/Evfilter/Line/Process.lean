import Evfilter.Evfd.Devices
import Evfilter.Filters.Event
import Evfilter.Lib.Transducer

/-!
# Reading a device

`evf_line_process` hands what it has read to the first filter of the line. It does so, too, when nothing has been read
and when an event has been read in part.
-/

namespace Evfilter.Line
open Lib Filters Evfd

/-- `sizeof (struct input_event)` -/
def sizeofInputEvent : Nat := 24

/-- What `read` comes to. `ev` is what the struct contains after the call, where only a part of it has been written or
none. -/
inductive ReadOutcome
  | whole (ev : InputEvent)
  | short (count : Fin sizeofInputEvent) (ev : InputEvent)
  | error (errno : Nat) (ev : InputEvent)

namespace ReadOutcome

/-- What `read` returns. -/
def ret : ReadOutcome → Int
  | whole _ => sizeofInputEvent
  | short count _ => count
  | error _ _ => -1

def errno : ReadOutcome → Nat
  | error errno _ => errno
  | _ => 0

def content : ReadOutcome → InputEvent
  | whole ev | short _ ev | error _ ev => ev

/-- The event that has been read. -/
def event : ReadOutcome → Option InputEvent
  | whole ev => some ev
  | _ => none

/-- As evfd sees it. -/
def seen : ReadOutcome → Devices.Read
  | error errno _ => .error errno
  | _ => .data

/-- A whole event, or an error other than EAGAIN. -/
def Clear : ReadOutcome → Prop
  | whole _ => True
  | short _ _ => False
  | error errno _ => errno ≠ Devices.EAGAIN

end ReadOutcome

/-- `root->modify(root, ev)` -/
def evfLineProcessEvent (ev : InputEvent) : Modify InputEvent := emit ev

def evfLineProcess (read : ReadOutcome) : Modify Int32 := do
  if read.ret < 0 then
    if read.errno = Devices.ENODEV then return -1
    else if read.errno ≠ Devices.EAGAIN then return -1
  let _ ← evfLineProcessEvent read.content
  return 0

variable {β : Type}

/-- The calls of `evf_line_process`, with what they hand to the first filter. -/
def processing (first : InputEvent → β → InputEvent × β) : Transducer β ReadOutcome InputEvent where
  step := fun b read => (((evfLineProcess read).drive first b).2, (evfLineProcess read).calls first b)

def returned (first : InputEvent → β → InputEvent × β) (b : β) (read : ReadOutcome) : Int32 :=
  ((evfLineProcess read).drive first b).1

/-- The first filter gets the events that have been read, and the caller is told of the errors. -/
structure Delivers (first : InputEvent → β → InputEvent × β) (b : β) (reads : List ReadOutcome) : Prop where
  events : (processing first).outputs b reads = reads.filterMap ReadOutcome.event
  nothing : (processing first).Along (fun b read => read.event = none → ((processing first).step b read).2 = []) b reads
  eagain : (processing first).Along (fun b read => ∀ ev, read = .error Devices.EAGAIN ev → returned first b read = 0)
    b reads
  failed : (processing first).Along
    (fun b read => ∀ errno ev, errno ≠ Devices.EAGAIN → read = .error errno ev → returned first b read = -1) b reads

variable {first : InputEvent → β → InputEvent × β} {b : β} {read : ReadOutcome} {reads : List ReadOutcome}

/-! ## One call -/

theorem evfLineProcess_failed {errno : Nat} {ev : InputEvent} (h : errno ≠ Devices.EAGAIN) :
    evfLineProcess (.error errno ev) = .done (-1) := by
  by_cases hdev : errno = Devices.ENODEV
  · simp [evfLineProcess, ReadOutcome.ret, ReadOutcome.errno, hdev]
  · simp [evfLineProcess, ReadOutcome.ret, ReadOutcome.errno, hdev, h]

theorem evfLineProcess_passed (h : ∀ errno ev, read = .error errno ev → errno = Devices.EAGAIN) :
    evfLineProcess read = .call read.content fun _ => .done 0 := by
  cases read with
  | whole ev => rfl
  | short count ev =>
      have hret : ¬ (ReadOutcome.short count ev).ret < 0 := Int.not_lt.mpr (Int.natCast_nonneg _)
      rw [evfLineProcess, if_neg hret]
      rfl
  | error errno ev =>
      obtain rfl := h errno ev rfl
      rfl

theorem evfLineProcess_clear (h : read.Clear) (first : InputEvent → β → InputEvent × β) (b : β) :
    (evfLineProcess read).calls first b = read.event.toList := by
  cases read with
  | whole ev => rfl
  | short count ev => exact h.elim
  | error errno ev =>
      rw [evfLineProcess_failed h]
      rfl

theorem evfLineProcess_unclear (h : ¬ read.Clear) (first : InputEvent → β → InputEvent × β) (b : β) :
    read.event = none ∧ (evfLineProcess read).calls first b = [read.content] := by
  cases read with
  | whole ev => exact absurd trivial h
  | short count ev =>
      rw [evfLineProcess_passed fun _ _ heq => by cases heq]
      exact ⟨rfl, rfl⟩
  | error errno ev =>
      obtain rfl : errno = Devices.EAGAIN := not_not.mp h
      exact ⟨rfl, rfl⟩

/-- What evfd goes by. -/
theorem returned_eq : returned first b read = Devices.evfLineProcess read.seen := by
  by_cases h : ∀ errno ev, read = .error errno ev → errno = Devices.EAGAIN
  · rw [returned, evfLineProcess_passed h]
    cases read with
    | whole ev => rfl
    | short count ev => rfl
    | error errno ev =>
        obtain rfl := h errno ev rfl
        rfl
  · push Not at h
    obtain ⟨errno, ev, rfl, hne⟩ := h
    rw [returned, evfLineProcess_failed hne]
    simp [ReadOutcome.seen, Devices.evfLineProcess, hne, Proc.drive]

/-! ## Several calls -/

theorem nothing_iff : (processing first).Along
    (fun b read => read.event = none → ((processing first).step b read).2 = []) b reads ↔
      ∀ read ∈ reads, read.Clear := by
  refine (Transducer.along_congr fun b read _ => ?_).trans Transducer.along_const
  constructor
  · intro h
    by_contra hclear
    obtain ⟨hnone, hcalls⟩ := evfLineProcess_unclear hclear first b
    have hempty := h hnone
    simp only [processing, hcalls] at hempty
    cases hempty
  · intro hclear hnone
    simp only [processing, evfLineProcess_clear hclear, hnone]
    rfl

theorem outputs_clear (h : ∀ read ∈ reads, read.Clear) :
    (processing first).outputs b reads = reads.filterMap ReadOutcome.event := by
  induction reads generalizing b with
  | nil => rfl
  | cons read reads ih =>
      obtain ⟨hread, hreads⟩ := List.forall_mem_cons.mp h
      rw [Transducer.outputs, ih hreads]
      simp only [processing, evfLineProcess_clear hread]
      cases hevent : read.event with
      | none => rw [List.filterMap_cons_none hevent, Option.toList_none, List.nil_append]
      | some ev => rw [List.filterMap_cons_some hevent, Option.toList_some, List.singleton_append]

/-- A read that comes to a part of an event, to nothing or to EAGAIN hands on what is in the struct. -/
theorem delivers_iff (first : InputEvent → β → InputEvent × β) (b : β) (reads : List ReadOutcome) :
    Delivers first b reads ↔ ∀ read ∈ reads, read.Clear := by
  constructor
  · exact fun h => nothing_iff.mp h.nothing
  · intro h
    refine ⟨outputs_clear h, nothing_iff.mpr h, ?_, ?_⟩
    · refine Transducer.along_iff.mpr fun _ read _ _ ev heq => ?_
      rw [returned_eq, heq]
      rfl
    · refine Transducer.along_iff.mpr fun _ read _ _ errno ev hne heq => ?_
      rw [heq, returned, evfLineProcess_failed hne]
      rfl

/-- An event is read, and then there is none. -/
theorem not_delivers : ¬ ∀ reads : List ReadOutcome, Delivers (Proc.record id) [] reads := by
  intro h
  have hclear := nothing_iff.mp (h [.whole ⟨(3, 0), evRel, relX, 5⟩, .error Devices.EAGAIN ⟨(0, 0), 7, 7, 7⟩]).nothing
  exact hclear _ (List.mem_cons_of_mem _ List.mem_cons_self) rfl

end Evfilter.Line
