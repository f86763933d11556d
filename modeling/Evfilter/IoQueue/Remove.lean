import Evfilter.IoQueue.Lemmas.Effects

/-!
# Removing a member

`evf_io_queue_rem` takes a descriptor for that of a member if it is armed. During a pass the descriptors that
`select()` did not report are armed again one by one, and that of a member whose callback did not return
`EVF_IO_QUEUE_OK` is armed in the pass after it only.
-/

namespace Evfilter.IoQueue
open Lib

/-- One member with that descriptor is gone, and everything else is as before. -/
def RemovesOne (q q' : Queue) (fd : Nat) : Prop :=
  ∃ l₁ x l₂, q.members = l₁ ++ x :: l₂ ∧ x.2.fd = fd ∧ q'.members = l₁ ++ l₂ ∧
    q'.rfds = q.rfds.erase fd ∧ q'.cnt = q.cnt - 1

variable {s : State} {q : Queue} {x : Addr × Memb} {fd : Nat}

theorem RemovesOne.of_armed (hq : q.Ok) (hx : x ∈ q.members) (hfd : x.2.fd = fd) (ha : fd ∈ q.rfds) :
    RemovesOne q (evfIoQueueRem q fd) fd := by
  obtain ⟨_, hm, hr, hc⟩ := evfIoQueueRem_spec hq ha
  obtain ⟨y, l₁, l₂, _, hy, hl, he⟩ := List.exists_of_eraseP hx (hasFd_iff.mpr hfd)
  exact ⟨l₁, y, l₂, hl, hasFd_iff.mp hy, hm.trans he, hr, hc⟩

/-- A descriptor that is not armed is taken for one that is not in the queue. -/
theorem RemovesOne.armed (h : RemovesOne q (evfIoQueueRem q fd) fd) : fd ∈ q.rfds := by
  by_contra ha
  obtain ⟨l₁, x, l₂, hl, _, he, _⟩ := h
  rw [evfIoQueueRem, if_neg ha, hl] at he
  simpa using congrArg List.length he

/-- `evf_io_queue_rem` removes a member exactly in the states in which its descriptor is armed. -/
theorem removesOne_iff (hs : machine.Reachable s) (hx : x ∈ s.queue.members) :
    RemovesOne s.queue (evfIoQueueRem s.queue x.2.fd) x.2.fd ↔ x.2.fd ∈ s.queue.rfds :=
  ⟨RemovesOne.armed, RemovesOne.of_armed (ok_reachable hs) hx rfl⟩

/-- The callback of descriptor 5 is running, and that of descriptor 3 was not reported. -/
def inCallback : State :=
  (machine.run machine.init [.add 5 1 1 true, .add 3 1 2 true, .wait (some {5}), .visit]).getD machine.init

theorem inCallback_reachable : machine.Reachable inCallback :=
  Machine.reachable_iff.mpr
    ⟨[.add 5 1 1 true, .add 3 1 2 true, .wait (some {5}), .visit], by decide⟩

theorem removesOne_inCallback : RemovesOne inCallback.queue (evfIoQueueRem inCallback.queue 5) 5 :=
  (removesOne_iff (x := (0, ⟨5, 1, 1⟩)) inCallback_reachable (by decide)).mpr (by decide)

theorem not_removesOne : ¬ ∀ (s : State) (x : Addr × Memb), machine.Reachable s → s.walk = none →
    x ∈ s.queue.members → RemovesOne s.queue (evfIoQueueRem s.queue x.2.fd) x.2.fd := by
  intro h
  have hr := h inCallback (1, ⟨3, 1, 2⟩) inCallback_reachable (by decide) (by decide)
  exact absurd hr.armed (by decide)

end Evfilter.IoQueue
