import Evfilter.IoQueue.Lemmas.Effects
import Evfilter.Lib.Comp

/-!
# One pass over the members

`evf_io_queue_wait` as a whole, with callbacks that do nothing to the queue but return. `free()` deletes the cell of a
member, and reading it afterwards is a fault.
-/

namespace Evfilter.IoQueue
open Lib

inductive Fault
  | freed
deriving DecidableEq

def readCell (h : Heap Memb) (a : Addr) : Except Fault (Cell Memb) :=
  match h.get? a with
  | none => .error .freed
  | some c => .ok c

/-- The queue, the member that the loop has come to, and the calls made so far. -/
structure Pass where
  queue : Queue
  here : Option Addr
  log : List Call

/-- What the callbacks return. -/
abbrev Results := Addr → Memb → Int32

def passStep (results : Results) (s : Pass) : Except Fault (Pass ⊕ Pass) :=
  match s.here with
  | none => .ok (.inr s)
  | some here => do
    let c ← readCell s.queue.heap here
    if c.val.fd ∈ s.queue.rfds then
      let readRet := results here c.val
      if readRet = evfIoQueueOk then
        return .inl { s with here := c.next, log := s.log ++ [.read here c.val] }
      let after := afterRead s.queue c.val readRet
      -- `here = here->next`, after the member may have been freed
      let c' ← readCell after.1.heap here
      return .inl { queue := after.1, here := c'.next, log := s.log ++ .read here c.val :: after.2 }
    else
      return .inl { s with queue := { s.queue with rfds := insert c.val.fd s.queue.rfds }, here := c.next }

structure Waited where
  ret : Int
  queue : Queue
  log : List Call

def evfIoQueueWait (q : Queue) (select : Option (Finset Nat)) (results : Results) : Comp Fault Waited :=
  match q.root with
  | none => pure ⟨0, q, []⟩
  | some root => do
    let _ ← readCell q.heap root
    match select with
    | none => pure ⟨-1, q, []⟩
    | some ready =>
      let s ← Comp.loop (fun s => .done (passStep results s)) ⟨{ q with rfds := ready }, some root, []⟩
      pure ⟨ready.card, s.queue, s.log⟩

def readsOf (log : List Call) : List (Addr × Memb) :=
  log.filterMap fun
    | .read self m => some (self, m)
    | _ => none

/-! ## The same on the list -/

def removes (results : Results) (x : Addr × Memb) : Prop := results x.1 x.2 &&& evfIoQueueRemFlag ≠ 0

instance (results : Results) (x : Addr × Memb) : Decidable (removes results x) := inferInstanceAs (Decidable (_ ≠ _))

/-- The armed descriptors after a member has been looked at. -/
def armedAfter (results : Results) (rfds : Finset Nat) (x : Addr × Memb) : Finset Nat :=
  if x.2.fd ∈ rfds then if results x.1 x.2 = evfIoQueueOk then rfds else rfds.erase x.2.fd else insert x.2.fd rfds

/-- The members whose callbacks are called on the way through `l`, and what is left of the members. The member that is
deleted is the first one with its descriptor. -/
def pass (results : Results) : Finset Nat → List (Addr × Memb) → List (Addr × Memb) →
    Except Fault (List (Addr × Memb) × List (Addr × Memb))
  | _, members, [] => .ok ([], members)
  | rfds, members, x :: l =>
    if x.2.fd ∈ rfds then
      if removes results x then
        if members.find? (hasFd x.2.fd) = some x then .error .freed
        else (pass results (armedAfter results rfds x) (members.eraseP (hasFd x.2.fd)) l).map fun r => (x :: r.1, r.2)
      else (pass results (armedAfter results rfds x) members l).map fun r => (x :: r.1, r.2)
    else pass results (armedAfter results rfds x) members l

variable {results : Results} {q : Queue} {here : Option Addr} {log : List Call} {l l₁ l₂ : List (Addr × Memb)}
  {x y : Addr × Memb} {rfds ready : Finset Nat}

/-- The computation comes to the same as a pass over the list. -/
def Computes (c : Comp Fault Pass) (log : List Call) :
    Except Fault (List (Addr × Memb) × List (Addr × Memb)) → Prop
  | .error e => c.Yields (.error e)
  | .ok r => ∃ s, c.Yields (.ok s) ∧ readsOf s.log = readsOf log ++ r.1 ∧ s.queue.members = r.2

theorem readsOf_append {log' : List Call} : readsOf (log ++ log') = readsOf log ++ readsOf log' := List.filterMap_append

theorem Computes.cons {c : Comp Fault Pass} {p : Except Fault (List (Addr × Memb) × List (Addr × Memb))}
    {log' : List Call} (hlog : readsOf log' = readsOf log ++ [x]) (h : Computes c log' p) :
    Computes c log (p.map fun r => (x :: r.1, r.2)) := by
  cases p with
  | error e => exact h
  | ok r =>
      obtain ⟨s, hs, hreads, hmembers⟩ := h
      exact ⟨s, hs, by rw [hreads, hlog, List.append_assoc]; rfl, hmembers⟩

theorem Computes.same {c c' : Comp Fault Pass} {p : Except Fault (List (Addr × Memb) × List (Addr × Memb))}
    (hsame : c.Same c') (h : Computes c' log p) : Computes c log p := by
  cases p with
  | error e => exact (hsame _).mpr h
  | ok r =>
      obtain ⟨s, hs, hr⟩ := h
      exact ⟨s, (hsame _).mpr hs, hr⟩

/-! ## One member -/

variable {a : Addr} {m : Memb} {n : Option Addr}

theorem readCell_of (h : q.heap.get? a = some ⟨m, n, true⟩) : readCell q.heap a = .ok ⟨m, n, true⟩ := by
  rw [readCell, h]

theorem passStep_skipped (hc : q.heap.get? a = some ⟨m, n, true⟩) (hfd : m.fd ∉ q.rfds) :
    passStep results ⟨q, some a, log⟩ = .ok (.inl ⟨{ q with rfds := armedAfter results q.rfds (a, m) }, n, log⟩) := by
  simp only [passStep, readCell_of hc, ok_bind, armedAfter, if_neg hfd]
  rfl

theorem not_removes_ok (h : results x.1 x.2 = evfIoQueueOk) : ¬ removes results x := by
  rw [removes, h]
  decide

theorem readsOf_afterRead {readRet : Int32} : readsOf (afterRead q m readRet).2 = [] := by
  have hcalls : readsOf ((if readRet &&& evfIoQueueClose ≠ 0 then [Call.close m.fd] else []) ++
      (if readRet &&& evfIoQueueDfree ≠ 0 then [Call.free m.priv] else [])) = [] := by
    rw [readsOf_append]
    split <;> split <;> rfl
  by_cases hflag : readRet &&& evfIoQueueRemFlag ≠ 0
  · simp only [afterRead, if_pos hflag]
    exact hcalls
  · simp only [afterRead, if_neg hflag]
    exact hcalls

/-- The callback does not have the member removed. -/
theorem passStep_kept (hc : q.heap.get? a = some ⟨m, n, true⟩) (hfd : m.fd ∈ q.rfds)
    (hkept : ¬ removes results (a, m)) : ∃ calls, readsOf calls = [] ∧ passStep results ⟨q, some a, log⟩ =
      .ok (.inl ⟨{ q with rfds := armedAfter results q.rfds (a, m) }, n, log ++ .read a m :: calls⟩) := by
  simp only [passStep, readCell_of hc, ok_bind, armedAfter, if_pos hfd]
  by_cases hok : results a m = evfIoQueueOk
  · simp only [if_pos hok]
    exact ⟨[], rfl, rfl⟩
  · have hflag : ¬ results a m &&& evfIoQueueRemFlag ≠ 0 := hkept
    refine ⟨(afterRead q m (results a m)).2, readsOf_afterRead, ?_⟩
    simp only [if_neg hok, afterRead, if_neg hflag, readCell_of hc, ok_bind]
    rfl

/-- The queue without the first member that has the descriptor. -/
def Queue.deleted (q : Queue) (results : Results) (x : Addr × Memb) : Queue :=
  ⟨(listDelete q.heap q.root x.2.fd).1, q.cnt, armedAfter results q.rfds x, (listDelete q.heap q.root x.2.fd).2⟩

theorem passStep_removed (hc : q.heap.get? a = some ⟨m, n, true⟩) (hfd : m.fd ∈ q.rfds)
    (hremoves : removes results (a, m)) : ∃ calls, readsOf calls = [] ∧ passStep results ⟨q, some a, log⟩ =
      (readCell (q.deleted results (a, m)).heap a).map fun c =>
        .inl ⟨q.deleted results (a, m), c.next, log ++ .read a m :: calls⟩ := by
  have hok : ¬ results a m = evfIoQueueOk := fun h => not_removes_ok h hremoves
  have hflag : results a m &&& evfIoQueueRemFlag ≠ 0 := hremoves
  refine ⟨(afterRead q m (results a m)).2, readsOf_afterRead, ?_⟩
  simp only [passStep, readCell_of hc, ok_bind, if_pos hfd, if_neg hok, afterRead, if_pos hflag, Queue.deleted,
    armedAfter]
  cases readCell (listDelete q.heap q.root m.fd).1 a <;> rfl

/-- Deleting the member itself leaves no cell to go on from. -/
theorem deleted_self (hq : q.Ok) (hfirst : q.members.find? (hasFd x.2.fd) = some x) :
    readCell (q.deleted results x).heap x.1 = .error .freed := by
  obtain ⟨hx, as, bs, heq, has⟩ := List.find?_eq_some_iff_append.mp hfirst
  have hrep := hq.rep.delete x.2.fd
  have herase : q.members.eraseP (hasFd x.2.fd) = as ++ bs := by
    have hne : ∀ y ∈ as, ¬ hasFd x.2.fd y = true := fun y hy h => by simpa [h] using has y hy
    rw [heq, List.eraseP_append_right _ hne, List.eraseP_cons_of_pos hx]
  have hnodup := hq.rep.chain.nodup
  rw [heq] at hnodup
  have hfree : (q.deleted results x).heap.get? x.1 = none := by
    by_contra hne
    obtain ⟨c, hc⟩ := Option.ne_none_iff_exists'.mp hne
    have hmem := hrep.owns x.1 ⟨c, hc⟩
    rw [herase] at hmem
    simp only [Heap.addrs, List.map_append, List.map_cons] at hnodup hmem
    exact (List.nodup_middle.mp hnodup |> List.nodup_cons.mp).1 hmem
  rw [readCell, hfree]

/-- Deleting a member before it leaves what comes after it as it was. -/
theorem deleted_before (hq : q.Ok) (hm : q.members = l₁ ++ x :: l) (hy : y ∈ l₁) (hfd : y.2.fd = x.2.fd) :
    (q.deleted results x).Ok ∧ (q.deleted results x).members = l₁.eraseP (hasFd x.2.fd) ++ x :: l ∧
      ∃ n, (q.deleted results x).heap.get? x.1 = some ⟨x.2, n, true⟩ ∧ (q.deleted results x).heap.Chain n l := by
  obtain ⟨hok, hmembers⟩ := listDelete_spec q.cnt (armedAfter results q.rfds x) x.2.fd hq
  rw [hm, List.eraseP_append_left (by simpa using hfd) _ hy] at hmembers
  have hchain := hok.rep.chain
  rw [hmembers] at hchain
  obtain ⟨_, -, -, n, hn, hl⟩ := Heap.seg_append.mp hchain
  exact ⟨hok, hmembers, n, hn, hl⟩

theorem exists_before {members : List (Addr × Memb)} (hm : members = l₁ ++ x :: l)
    (hfirst : members.find? (hasFd x.2.fd) ≠ some x) : ∃ y ∈ l₁, y.2.fd = x.2.fd := by
  by_contra hnone
  refine hfirst (List.find?_eq_some_iff_append.mpr ⟨by simp, l₁, l, hm, fun y hy => ?_⟩)
  rw [Bool.not_eq_true', Bool.eq_false_iff]
  exact fun hfd => hnone ⟨y, hy, hasFd_iff.mp hfd⟩

theorem readsOf_called {calls : List Call} (h : readsOf calls = []) :
    readsOf (log ++ .read x.1 x.2 :: calls) = readsOf log ++ [x] := by
  rw [readsOf_append]
  exact congrArg (readsOf log ++ x :: ·) h

/-! ## The loop -/

theorem loop_pass (log : List Call) (hq : q.Ok) (hm : q.members = l₁ ++ l) (hhere : q.heap.Chain here l) :
    Computes (.loop (fun s => .done (passStep results s)) ⟨q, here, log⟩) log (pass results q.rfds q.members l) := by
  induction l generalizing q here log l₁ with
  | nil =>
      obtain rfl : here = none := hhere
      exact Computes.same (Comp.same_loop_inr rfl) ⟨_, Comp.yields_pure.mpr rfl, by simp, rfl⟩
  | cons x l ih =>
      obtain ⟨rfl, n, hn, hl⟩ := hhere
      have hm' : q.members = (l₁ ++ [x]) ++ l := by rw [hm, List.append_assoc, List.singleton_append]
      rw [pass]
      by_cases hfd : x.2.fd ∈ q.rfds
      · rw [if_pos hfd]
        by_cases hremoves : removes results x
        · obtain ⟨calls, hcalls, hstep⟩ := passStep_removed hn hfd hremoves
          rw [if_pos hremoves]
          by_cases hfirst : q.members.find? (hasFd x.2.fd) = some x
          · rw [if_pos hfirst]
            rw [deleted_self hq hfirst] at hstep
            exact (Comp.same_loop_error (congrArg Comp.done hstep) _).mpr (Comp.yields_fault.mpr rfl)
          · obtain ⟨y, hy, hyfd⟩ := exists_before hm hfirst
            obtain ⟨hq', hmembers, n', hn', hl'⟩ := @deleted_before results _ _ _ _ _ hq hm hy hyfd
            rw [readCell_of hn'] at hstep
            rw [if_neg hfirst]
            refine Computes.cons (readsOf_called hcalls) ?_
            have hnext := ih (log ++ .read x.1 x.2 :: calls) hq' (by rw [hmembers, List.append_cons]) hl'
            rw [hmembers, ← List.eraseP_append_left (by simpa using hyfd) _ hy, ← hm] at hnext
            exact Computes.same (Comp.same_loop_inl (congrArg Comp.done hstep)) hnext
        · obtain ⟨calls, hcalls, hstep⟩ := passStep_kept hn hfd hremoves
          rw [if_neg hremoves]
          refine Computes.cons (readsOf_called hcalls) ?_
          exact Computes.same (Comp.same_loop_inl (congrArg Comp.done hstep)) (ih _ hq hm' hl)
      · rw [if_neg hfd]
        exact Computes.same (Comp.same_loop_inl (congrArg Comp.done (passStep_skipped hn hfd))) (ih _ hq hm' hl)

/-! ## A wait that returns is a run -/

variable {s t : Pass} {w : Wait} {reading : List (Addr × Wait)} {st : State} {select : Option (Finset Nat)}

/-- The loop between two members, while the callbacks of `reading` are running. -/
def Pass.state (s : Pass) (reading : List (Addr × Wait)) (w : Wait) (log : List Call) : State :=
  ⟨s.queue, reading, some (s.here, w), s.log.reverse ++ log⟩

theorem readCell_ok {c : Cell Memb} (h : readCell q.heap a = .ok c) : q.heap.get? a = some c := by
  unfold readCell at h
  split at h
  · cases h
  · rename_i c' hc
    rw [hc, Except.ok.inj h]

theorem passStep_cases {o : Pass ⊕ Pass} (h : passStep results s = .ok o) : s.here = none ∧ o = .inr s ∨
    ∃ a c t, s.here = some a ∧ s.queue.heap.get? a = some c ∧ o = .inl t ∧
      (c.val.fd ∉ s.queue.rfds ∧
          t = ⟨{ s.queue with rfds := insert c.val.fd s.queue.rfds }, c.next, s.log⟩ ∨
        c.val.fd ∈ s.queue.rfds ∧ results a c.val = evfIoQueueOk ∧
          t = ⟨s.queue, c.next, s.log ++ [.read a c.val]⟩ ∨
        c.val.fd ∈ s.queue.rfds ∧ results a c.val ≠ evfIoQueueOk ∧
          ∃ c', (afterRead s.queue c.val (results a c.val)).1.heap.get? a = some c' ∧
            t = ⟨(afterRead s.queue c.val (results a c.val)).1, c'.next,
              s.log ++ .read a c.val :: (afterRead s.queue c.val (results a c.val)).2⟩) := by
  obtain ⟨q, here, calls⟩ := s
  cases here with
  | none => exact Or.inl ⟨rfl, (Except.ok.inj h).symm⟩
  | some a =>
      simp only [passStep] at h
      cases hread : readCell q.heap a with
      | error e =>
          rw [hread] at h
          cases h
      | ok c =>
          rw [hread, ok_bind] at h
          by_cases hfd : c.val.fd ∈ q.rfds
          · rw [if_pos hfd] at h
            by_cases hok : results a c.val = evfIoQueueOk
            · rw [if_pos hok] at h
              exact Or.inr ⟨a, c, _, rfl, readCell_ok hread, (Except.ok.inj h).symm, Or.inr (Or.inl ⟨hfd, hok, rfl⟩)⟩
            · rw [if_neg hok] at h
              cases hagain : readCell (afterRead q c.val (results a c.val)).1.heap a with
              | error e =>
                  rw [hagain] at h
                  cases h
              | ok c' =>
                  rw [hagain, ok_bind] at h
                  exact Or.inr ⟨a, c, _, rfl, readCell_ok hread, (Except.ok.inj h).symm,
                    Or.inr (Or.inr ⟨hfd, hok, c', readCell_ok hagain, rfl⟩)⟩
          · rw [if_neg hfd] at h
            exact Or.inr ⟨a, c, _, rfl, readCell_ok hread, (Except.ok.inj h).symm, Or.inl ⟨hfd, rfl⟩⟩

theorem passStep_run (h : passStep results s = .ok (.inl t)) :
    ∃ ops, machine.run (s.state reading w log) ops = some (t.state reading w log) := by
  obtain ⟨q, here, calls⟩ := s
  obtain ⟨-, h⟩ | ⟨a, c, t', rfl, hc, ht, hcase⟩ := passStep_cases h
  · cases h
  · obtain rfl := Sum.inl.inj ht
    obtain ⟨hfd, rfl⟩ | ⟨hfd, hok, rfl⟩ | ⟨hfd, hok, c', hc', rfl⟩ := hcase
    · exact ⟨[.visit], by simp [machine, Machine.run, step, stepVisit, Pass.state, hc, hfd]⟩
    · refine ⟨[.visit, .ret (results a c.val)], ?_⟩
      simp [machine, Machine.run, step, stepVisit, stepRet, Pass.state, hc, hfd, hok]
    · refine ⟨[.visit, .ret (results a c.val)], ?_⟩
      have hbytes := (Heap.get?_eq_some.mp hc').1
      simp [machine, Machine.run, step, stepVisit, stepRet, Pass.state, hc, hfd, hok, hbytes]

theorem passStep_end (h : passStep results s = .ok (.inr t)) : s.here = none ∧ t = s := by
  obtain ⟨hhere, h⟩ | ⟨a, c, t', -, -, h, -⟩ := passStep_cases h
  · exact ⟨hhere, Sum.inr.inj h⟩
  · cases h

theorem loop_run (h : (Comp.loop (fun s => .done (passStep results s)) s).Yields (.ok t)) :
    t.here = none ∧ ∃ ops, machine.run (s.state reading w log) ops = some (t.state reading w log) := by
  refine Comp.loop_keeps (fun t => ∃ ops, machine.run (s.state reading w log) ops = some (t.state reading w log))
    (fun t => t.here = none ∧ ∃ ops, machine.run (s.state reading w log) ops = some (t.state reading w log))
    ?_ ?_ ⟨[], rfl⟩ h
  · rintro t t' ⟨ops, hops⟩ ht
    obtain ⟨ops', hops'⟩ := passStep_run (Comp.yields_done.mp ht).symm
    exact ⟨ops ++ ops', by rw [Machine.run_append, hops, Option.bind_some, hops']⟩
  · rintro t t' hrun ht
    obtain ⟨hhere, rfl⟩ := passStep_end (Comp.yields_done.mp ht).symm
    exact ⟨hhere, hrun⟩

/-- A wait that comes to an end is a run of the machine. -/
theorem evfIoQueueWait_run {waited : Waited} (hwalk : st.walk = none) (hsub : ∀ ready ∈ select, ready ⊆ st.queue.rfds)
    (h : (evfIoQueueWait st.queue select results).Yields (.ok waited)) : ∃ ops, machine.run st ops =
      some ⟨waited.queue, st.reading, none, .waited waited.ret :: (waited.log.reverse ++ st.log)⟩ := by
  unfold evfIoQueueWait at h
  cases hroot : st.queue.root with
  | none =>
      simp only [hroot] at h
      obtain rfl := Except.ok.inj (Comp.yields_pure.mp h)
      exact ⟨[.wait select], by simp [machine, Machine.run, step, stepWait, hwalk, hroot]⟩
  | some root =>
      simp only [hroot] at h
      rcases Comp.yields_bind.mp h with ⟨_, -, h⟩ | ⟨e, -, he⟩
      case inr => cases he
      cases select with
      | none =>
          obtain rfl := Except.ok.inj (Comp.yields_pure.mp h)
          exact ⟨[.wait none], by simp [machine, Machine.run, step, stepWait, hwalk, hroot]⟩
      | some ready =>
          rcases Comp.yields_bind.mp h with ⟨t, ht, h⟩ | ⟨e, -, he⟩
          case inr => cases he
          obtain rfl := Except.ok.inj (Comp.yields_pure.mp h)
          obtain ⟨hhere, ops, hops⟩ := @loop_run results st.log _ _ ⟨ready, st.queue.heap.size⟩ st.reading ht
          refine ⟨.wait (some ready) :: (ops ++ [.visit]), ?_⟩
          have hstart : machine.step st (.wait (some ready)) =
              some (Pass.state ⟨⟨st.queue.heap, st.queue.cnt, ready, some root⟩, some root, []⟩ st.reading
                ⟨ready, st.queue.heap.size⟩ st.log) := by
            simp [machine, step, stepWait, hwalk, hroot, hsub ready rfl, Pass.state]
          rw [Machine.run_cons, hstart, Option.bind_some, Machine.run_append, hops, Option.bind_some]
          simp [machine, Machine.run, step, stepVisit, Pass.state, hhere]

end Evfilter.IoQueue
