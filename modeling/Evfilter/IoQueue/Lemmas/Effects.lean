import Evfilter.IoQueue.Lemmas.View
import Evfilter.IoQueue.Wait

/-!
# What one step does to the queue

The steps of a wait and of its callers, seen on the members, the `fd_set` and the counter.
-/

namespace Evfilter.IoQueue
open Lib

/-- A callback returns with `EVF_IO_QUEUE_REM`. -/
def Removes : Op → Prop
  | .ret readRet => readRet &&& evfIoQueueRemFlag ≠ 0
  | _ => False

instance : DecidablePred Removes
  | .ret readRet => inferInstanceAs (Decidable (readRet &&& evfIoQueueRemFlag ≠ 0))
  | .add _ _ _ _ | .rem _ | .wait _ | .visit => instDecidableFalse

inductive Effect (q : Queue) : Op → Queue → Prop
  | add {fd read priv q'} (members : q'.members = q.members.orderedInsert Before (q.heap.size, ⟨fd, read, priv⟩))
      (rfds : q'.rfds = insert fd q.rfds) (cnt : q'.cnt = q.cnt + 1) (small : fd < fdSetsize) :
      Effect q (.add fd read priv true) q'
  | rem {fd q'} (members : q'.members = q.members.eraseP (hasFd fd)) (rfds : q'.rfds = q.rfds.erase fd)
      (cnt : q'.cnt = q.cnt - 1) (armed : fd ∈ q.rfds) : Effect q (.rem fd) q'
  | drop {readRet q' a m} (members : q'.members = q.members.eraseP (hasFd m.fd))
      (rfds : q'.rfds = q.rfds.erase m.fd) (cnt : q'.cnt = q.cnt)
      (flag : readRet &&& evfIoQueueRemFlag ≠ 0) (mem : (a, m) ∈ q.members) : Effect q (.ret readRet) q'
  | mask {op q'} (members : q'.members = q.members)
      (rfds : ∀ fd ∈ q'.rfds, fd ∈ q.rfds ∨ ∃ x ∈ q.members, x.2.fd = fd) (cnt : q'.cnt = q.cnt)
      (keeps : ¬ Removes op) : Effect q op q'

variable {s s' : State} {op : Op} {fd : Nat} {a : Addr}

/-! ## Inversion of a step -/

theorem step_add {read : ReadFn} {priv : Priv} {malloc : Bool}
    (h : step s (.add fd read priv malloc) = some s') : s.walk = none ∧ fd < fdSetsize ∧
      s' = { s with queue := (evfIoQueueAdd s.queue fd read priv malloc).1 } := by
  simp only [step] at h
  split at h
  · rename_i hg
    exact ⟨hg.1, hg.2, (Option.some.inj h).symm⟩
  · cases h

theorem step_rem (h : step s (.rem fd) = some s') :
    s.walk = none ∧ s' = { s with queue := evfIoQueueRem s.queue fd } := by
  simp only [step] at h
  split at h
  · rename_i hg
    exact ⟨hg.1, (Option.some.inj h).symm⟩
  · cases h

/-- A wait that returns at once leaves everything but the log as it is. -/
theorem step_wait {select : Option (Finset Nat)} (h : step s (.wait select) = some s') :
    s.walk = none ∧ ((∃ ret, s' = { s with log := .waited ret :: s.log }) ∨
      ∃ root ready, s.queue.root = some root ∧ select = some ready ∧ ready ⊆ s.queue.rfds ∧
        s' = { s with
          queue := { s.queue with rfds := ready }
          walk := some (some root, ⟨ready, s.queue.heap.size⟩) }) := by
  simp only [step] at h
  split at h
  case isFalse => cases h
  case isTrue hwalk =>
    refine ⟨hwalk, ?_⟩
    simp only [stepWait] at h
    split at h
    · exact Or.inl ⟨_, (Option.some.inj h).symm⟩
    · rename_i root hroot
      split at h
      · exact Or.inl ⟨_, (Option.some.inj h).symm⟩
      · rename_i ready
        split at h
        · rename_i hsub
          exact Or.inr ⟨root, ready, hroot, rfl, hsub, (Option.some.inj h).symm⟩
        · cases h

theorem step_visit (h : step s .visit = some s') : ∃ here w, s.walk = some (here, w) ∧
    ((here = none ∧ s' = { s with walk := none, log := .waited w.ready.card :: s.log }) ∨
    ∃ a c, here = some a ∧ s.queue.heap.get? a = some c ∧
      ((c.val.fd ∈ s.queue.rfds ∧ s' = { s with
          reading := (a, w) :: s.reading
          walk := none
          log := .read a c.val :: s.log }) ∨
      (c.val.fd ∉ s.queue.rfds ∧ s' = { s with
          queue := { s.queue with rfds := insert c.val.fd s.queue.rfds }
          walk := some (c.next, w) }))) := by
  simp only [step, stepVisit] at h
  split at h
  · cases h
  · rename_i w hwalk
    exact ⟨none, w, hwalk, Or.inl ⟨rfl, (Option.some.inj h).symm⟩⟩
  · rename_i a w hwalk
    refine ⟨some a, w, hwalk, Or.inr ?_⟩
    split at h
    · cases h
    · rename_i c hc
      refine ⟨a, c, rfl, hc, ?_⟩
      split at h
      · rename_i hfd
        exact Or.inl ⟨hfd, (Option.some.inj h).symm⟩
      · rename_i hfd
        exact Or.inr ⟨hfd, (Option.some.inj h).symm⟩

theorem step_ret {readRet : Int32} (h : step s (.ret readRet) = some s') :
    s.walk = none ∧ ∃ a w reading c, s.reading = (a, w) :: reading ∧ s.queue.heap.get? a = some c ∧
      s'.reading = reading ∧
      ((readRet = evfIoQueueOk ∧ s'.queue = s.queue ∧ s'.walk = some (c.next, w)) ∨
      (readRet ≠ evfIoQueueOk ∧ s'.queue = (afterRead s.queue c.val readRet).1 ∧
        s'.walk = some ((s'.queue.heap.cell? a).bind (·.next), w))) := by
  simp only [step] at h
  split at h
  case isFalse => cases h
  case isTrue hwalk =>
    refine ⟨hwalk, ?_⟩
    simp only [stepRet] at h
    split at h
    · cases h
    · rename_i a w reading hreading
      split at h
      · cases h
      · rename_i c hc
        refine ⟨a, w, reading, c, hreading, hc, ?_⟩
        split at h
        · rename_i hok
          cases h
          exact ⟨rfl, Or.inl ⟨hok, rfl, rfl⟩⟩
        · rename_i hok
          cases h
          exact ⟨rfl, Or.inr ⟨hok, rfl, rfl⟩⟩

/-! ## The effects -/

theorem afterRead_effect {m : Memb} {readRet : Int32} (hq : s.queue.Ok) (hm : (a, m) ∈ s.queue.members) :
    (afterRead s.queue m readRet).1.Ok ∧ Effect s.queue (.ret readRet) (afterRead s.queue m readRet).1 := by
  by_cases hflag : readRet &&& evfIoQueueRemFlag ≠ 0
  · obtain ⟨hok, hmem⟩ := listDelete_spec s.queue.cnt (s.queue.rfds.erase m.fd) m.fd hq
    simp only [afterRead, if_pos hflag]
    exact ⟨hok, .drop hmem rfl rfl hflag hm⟩
  · simp only [afterRead, if_neg hflag]
    exact ⟨hq, .mask rfl (fun fd hfd => Or.inl (Finset.mem_of_mem_erase hfd)) rfl hflag⟩

theorem step_effect (hq : s.queue.Ok) (h : step s op = some s') :
    s'.queue.Ok ∧ Effect s.queue op s'.queue := by
  cases op with
  | add fd read priv malloc =>
      obtain ⟨_, hfd, rfl⟩ := step_add h
      cases malloc with
      | false => exact ⟨hq, .mask rfl (fun _ h => Or.inl h) rfl id⟩
      | true =>
          obtain ⟨hok, hm⟩ := evfIoQueueAdd_spec fd read priv hq
          exact ⟨hok, .add hm rfl rfl hfd⟩
  | rem fd =>
      obtain ⟨_, rfl⟩ := step_rem h
      by_cases hfd : fd ∈ s.queue.rfds
      · obtain ⟨hok, hm, hr, hc⟩ := evfIoQueueRem_spec hq hfd
        exact ⟨hok, .rem hm hr hc hfd⟩
      · simp only [evfIoQueueRem, if_neg hfd]
        exact ⟨hq, .mask rfl (fun _ h => Or.inl h) rfl id⟩
  | wait select =>
      obtain ⟨_, ⟨ret, rfl⟩ | ⟨root, ready, _, _, hsub, rfl⟩⟩ := step_wait h
      · exact ⟨hq, .mask rfl (fun _ h => Or.inl h) rfl id⟩
      · exact ⟨hq, .mask rfl (fun _ h => Or.inl (hsub h)) rfl id⟩
  | visit =>
      obtain ⟨here, w, _, ⟨_, rfl⟩ | ⟨a, c, _, hc, ⟨_, rfl⟩ | ⟨_, rfl⟩⟩⟩ := step_visit h
      · exact ⟨hq, .mask rfl (fun _ h => Or.inl h) rfl id⟩
      · exact ⟨hq, .mask rfl (fun _ h => Or.inl h) rfl id⟩
      · refine ⟨hq, .mask rfl (fun fd hfd => ?_) rfl id⟩
        rcases Finset.mem_insert.mp hfd with rfl | hfd
        · exact Or.inr ⟨(a, c.val), hq.mem hc, rfl⟩
        · exact Or.inl hfd
  | ret readRet =>
      obtain ⟨_, a, w, reading, c, _, hc, _, ⟨hok, he, _⟩ | ⟨_, he, _⟩⟩ := step_ret h
      · rw [he]
        refine ⟨hq, .mask rfl (fun _ h => Or.inl h) rfl fun hflag => hflag ?_⟩
        rw [hok]
        decide
      · rw [he]
        exact afterRead_effect hq (hq.mem hc)

theorem ok_reachable (h : machine.Reachable s) : s.queue.Ok :=
  h.invariant Queue.empty_ok fun hq hs => (step_effect hq hs).1

end Evfilter.IoQueue
