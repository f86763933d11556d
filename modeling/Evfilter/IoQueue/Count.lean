import Evfilter.IoQueue.Lemmas.Invariants

/-!
# The counter

`evf_io_queue_get_count` should return the number of members. A member that leaves because its callback says so
stays counted.
-/

namespace Evfilter.IoQueue
open Lib

def Counted (s : State) : Prop := (evfIoQueueGetCount s.queue).toNat = s.queue.members.length

instance (s : State) : Decidable (Counted s) := inferInstanceAs (Decidable (_ = _))

def NoRemoval (_ : State) (op : Op) : Prop := ¬ Removes op

instance (s : State) : DecidablePred (NoRemoval s) := fun op => inferInstanceAs (Decidable (¬ Removes op))

variable {s s' : State} {op : Op} {q q' : Queue}

theorem length_eraseP (fd : Nat) {l : List (Addr × Memb)} (h : ∃ x ∈ l, x.2.fd = fd) :
    (l.eraseP (hasFd fd)).length + 1 = l.length := by
  obtain ⟨x, hx, hfd⟩ := h
  have hpos := List.length_pos_of_mem hx
  rw [List.length_eraseP_of_mem hx (by simpa using hfd)]
  omega

theorem toNat_add_one {n : UInt32} (h : n.toNat < fdSetsize + 1) : (n + 1).toNat = n.toNat + 1 := by
  unfold fdSetsize at h
  rw [UInt32.toNat_add]
  simp only [UInt32.reduceToNat]
  omega

theorem toNat_sub_one {n : UInt32} (h : 0 < n.toNat) : (n - 1).toNat = n.toNat - 1 := by
  rw [UInt32.toNat_sub_of_le]
  · rfl
  · rw [UInt32.le_iff_toNat_le]
    exact h

theorem Counted.step (hc : Counted s) (hq : s.queue.Wf) (hf : Fresh s op) (hop : NoRemoval s op)
    (h : step s op = some s') : Counted s' := by
  have hle := hq.length_le
  unfold Counted evfIoQueueGetCount at hc ⊢
  obtain ⟨-, he⟩ := step_effect hq.ok h
  cases he with
  | add hm _ hcnt _ =>
      rw [hm, hcnt, List.orderedInsert_length, toNat_add_one (by omega), hc]
  | rem hm _ hcnt harmed =>
      have hlen := length_eraseP _ (hq.armed _ harmed)
      rw [hm, hcnt, toNat_sub_one (by omega)]
      omega
  | drop _ _ _ hflag _ => exact absurd hflag hop
  | mask hm _ hcnt _ => rw [hm, hcnt, hc]

theorem Counted.only (hc : Counted s) (hq : s.queue.Wf) (h : IoQueue.step s op = some s')
    (hc' : Counted s') : NoRemoval s op := by
  unfold Counted evfIoQueueGetCount at hc hc'
  obtain ⟨-, he⟩ := step_effect hq.ok h
  cases he with
  | add => exact id
  | rem => exact id
  | @drop _ _ a m hm _ hcnt _ hmem =>
      have hlen := length_eraseP m.fd ⟨(a, m), hmem, rfl⟩
      rw [hm, hcnt] at hc'
      omega
  | mask _ _ _ hkeeps => exact hkeeps

/-- The runs in which the counter is right in every state are those in which no callback returns
`EVF_IO_QUEUE_REM`. -/
theorem counted_iff {ops : List Op} (hfresh : machine.Along Fresh machine.init ops) :
    machine.Throughout Counted machine.init ops ↔ machine.Along NoRemoval machine.init ops := by
  have hstart : Counted machine.init := rfl
  constructor
  · intro h
    refine h.along (J := fun s => s.queue.Wf ∧ Counted s) hfresh ⟨Queue.empty_wf, hstart⟩ ?_ ?_
    · exact fun hj hf hop hs => ⟨hj.1.step hs hf, hj.2.step hj.1 hf hop hs⟩
    · exact fun hj _ hs hc' => hj.2.only hj.1 hs hc'
  · intro h
    refine ((hfresh.and h).throughout (J := fun s => s.queue.Wf ∧ Counted s) ⟨Queue.empty_wf, hstart⟩
      ?_).mono fun _ hj => hj.2
    exact fun hj hc hs => ⟨hj.1.step hs hc.1, hj.2.step hj.1 hc.1 hc.2 hs⟩

theorem counted_addInCallback : machine.Throughout Counted machine.init
    [.add 5 1 1 true, .wait (some {5}), .visit, .add 7 1 2 true, .ret 2, .rem 7] :=
  (counted_iff (by decide)).mpr (by decide)

/-- A callback has its member removed. -/
theorem not_counted : ¬ ∀ ops : List Op,
    machine.Along Fresh machine.init ops → machine.Throughout Counted machine.init ops := by
  intro h
  have hr : machine.run machine.init [.add 5 1 1 true, .wait (some {5}), .visit, .ret 1] =
      some ((machine.run machine.init [.add 5 1 1 true, .wait (some {5}), .visit, .ret 1]).getD
        machine.init) := by decide
  exact absurd ((h _ (by decide)).last hr) (by decide)

end Evfilter.IoQueue
