import Evfilter.IoQueue.Lemmas.Invariants

/-!
# What is passed to `select()`

The first argument is taken from the first member, so the list has to be descending and every armed descriptor
has to be that of a member.
-/

namespace Evfilter.IoQueue
open Lib

/-- `queue->root->fd + 1` -/
def Queue.nfds (q : Queue) : Option Nat :=
  (q.root.bind fun root => q.heap.get? root).map fun c => c.val.fd + 1

def Descending (q : Queue) : Prop := (q.members.map (·.2.fd)).Pairwise (· > ·)

def ArmedMembers (q : Queue) : Prop := ∀ fd ∈ q.rfds, fd ∈ q.members.map (·.2.fd)

/-- No armed descriptor is left out of `select()`. -/
def Covered (q : Queue) : Prop := ∀ fd ∈ q.rfds, ∃ n, q.nfds = some n ∧ fd < n

variable {s : State} {q : Queue}

/-- The first member has the largest descriptor. -/
theorem Queue.Wf.covered (hq : q.Wf) : Covered q := by
  intro fd hfd
  obtain ⟨x, hx, rfl⟩ := hq.armed fd hfd
  have hchain := hq.ok.rep.chain
  have hd := hq.descending
  cases hl : q.members with
  | nil => simp [hl] at hx
  | cons y l =>
      rw [hl] at hchain hx hd
      obtain ⟨hroot, n, hn, _⟩ := hchain
      refine ⟨y.2.fd + 1, by simp [Queue.nfds, hroot, hn], ?_⟩
      rcases List.mem_cons.mp hx with rfl | hx
      · exact Nat.lt_succ_self _
      · exact Nat.lt_succ_of_lt ((List.pairwise_cons.mp hd).1 x hx)

/-- In a run that adds fresh descriptors only, whatever the callbacks do, the list is strictly descending, the
armed descriptors are those of members, and `select()` is told about all of them. -/
theorem select_covers {ops : List Op} (hfresh : machine.Along Fresh machine.init ops) :
    machine.Throughout (fun s => Descending s.queue ∧ ArmedMembers s.queue ∧ Covered s.queue)
      machine.init ops := by
  refine (hfresh.throughout (J := fun s => s.queue.Wf) Queue.empty_wf
    fun hq hf hs => hq.step hs hf).mono fun s hq => ⟨?_, fun fd hfd => ?_, hq.covered⟩
  · exact List.pairwise_map.mpr hq.descending
  · obtain ⟨x, hx, rfl⟩ := hq.armed fd hfd
    exact List.mem_map_of_mem hx

theorem select_covers_run :
    machine.Throughout (fun s => Descending s.queue ∧ ArmedMembers s.queue ∧ Covered s.queue) machine.init
      [.add 5 1 1 true, .wait (some {5}), .visit, .add 9 1 2 true, .add 3 1 3 true, .ret 1, .visit, .ret 0,
        .visit, .wait (some {3})] :=
  select_covers (by decide)

end Evfilter.IoQueue
