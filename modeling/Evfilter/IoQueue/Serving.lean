import Evfilter.IoQueue.Pass

/-!
# Which members a pass serves

A pass should call every ready member once, and remove those whose callbacks ask for it. A member that is alone with
its descriptor is freed when it is removed, and the loop reads on in it.
-/

namespace Evfilter.IoQueue
open Lib

variable {results : Results} {q : Queue} {l l₁ l₂ members members' : List (Addr × Memb)} {x y : Addr × Memb}
  {rfds ready : Finset Nat} {r : List (Addr × Memb) × List (Addr × Memb)} {fd : Nat}

/-! ## Passes that call the right members -/

theorem armedAfter_other (h : fd ≠ x.2.fd) : fd ∈ armedAfter results rfds x ↔ fd ∈ rfds := by
  unfold armedAfter
  split
  · split
    · exact Iff.rfl
    · simp [h]
  · simp [h]

theorem map_eq_ok {α β : Type} {f : α → β} {p : Except Fault α} {b : β} (h : p.map f = .ok b) :
    ∃ a, p = .ok a ∧ f a = b := by
  cases p with
  | error e => cases h
  | ok a => exact ⟨a, rfl, Except.ok.inj h⟩

theorem pass_cons (h : pass results rfds members (x :: l) = .ok r) : ∃ members' r',
    pass results (armedAfter results rfds x) members' l = .ok r' ∧
      r = (if x.2.fd ∈ rfds then x :: r'.1 else r'.1, r'.2) ∧
      ((x.2.fd ∈ rfds ∧ removes results x) ∧ members.find? (hasFd x.2.fd) ≠ some x ∧
          members' = members.eraseP (hasFd x.2.fd) ∨
        ¬ (x.2.fd ∈ rfds ∧ removes results x) ∧ members' = members) := by
  rw [pass] at h
  by_cases hfd : x.2.fd ∈ rfds
  · rw [if_pos hfd] at h
    by_cases hremoves : removes results x
    · rw [if_pos hremoves] at h
      split at h
      · cases h
      · rename_i hfirst
        obtain ⟨r', hr', rfl⟩ := map_eq_ok h
        exact ⟨_, r', hr', by rw [if_pos hfd], Or.inl ⟨⟨hfd, hremoves⟩, hfirst, rfl⟩⟩
    · rw [if_neg hremoves] at h
      obtain ⟨r', hr', rfl⟩ := map_eq_ok h
      exact ⟨_, r', hr', by rw [if_pos hfd], Or.inr ⟨fun h => hremoves h.2, rfl⟩⟩
  · rw [if_neg hfd] at h
    exact ⟨_, r, h, by rw [if_neg hfd], Or.inr ⟨fun h => hfd h.1, rfl⟩⟩

/-- What is left are members that were there, and those called are members that were come to, in the order of the
list. -/
theorem pass_sublist (h : pass results rfds members l = .ok r) : r.2.Sublist members ∧ r.1.Sublist l := by
  induction l generalizing rfds members r with
  | nil =>
      obtain rfl := Except.ok.inj h
      exact ⟨List.Sublist.refl _, List.Sublist.slnil⟩
  | cons x l ih =>
      obtain ⟨members', r', hpass, rfl, hmembers⟩ := pass_cons h
      obtain ⟨hleft, hreads⟩ := ih hpass
      have hsub : members'.Sublist members := by
        rcases hmembers with ⟨-, -, rfl⟩ | ⟨-, rfl⟩
        · exact List.eraseP_sublist
        · exact List.Sublist.refl _
      refine ⟨hleft.trans hsub, ?_⟩
      dsimp only
      split
      · exact hreads.cons_cons x
      · exact hreads.cons x

/-- Whether the first member with a descriptor is called depends on whether the descriptor is armed at the start. -/
theorem first_called (h : pass results rfds members (l₁ ++ y :: l₂) = .ok r) (hl₁ : ∀ x ∈ l₁, y.2.fd ≠ x.2.fd)
    (hl₂ : y ∉ l₂) : y ∈ r.1 ↔ y.2.fd ∈ rfds := by
  induction l₁ generalizing rfds members r with
  | nil =>
      obtain ⟨members', r', hpass, rfl, -⟩ := pass_cons h
      have hnot : y ∉ r'.1 := fun hy => hl₂ ((pass_sublist hpass).2.subset hy)
      by_cases hfd : y.2.fd ∈ rfds <;> simp [hfd, hnot]
  | cons x l₁ ih =>
      obtain ⟨members', r', hpass, rfl, -⟩ := pass_cons h
      obtain ⟨hx, hl₁⟩ := List.forall_mem_cons.mp hl₁
      have hne : y ≠ x := fun heq => hx (heq ▸ rfl)
      rw [← armedAfter_other hx, ← ih hpass hl₁]
      by_cases hfd : x.2.fd ∈ rfds <;> simp [hfd, hne]

theorem armedAfter_self : x.2.fd ∈ armedAfter results rfds x ↔ (x.2.fd ∈ rfds → results x.1 x.2 = evfIoQueueOk) := by
  unfold armedAfter
  by_cases hfd : x.2.fd ∈ rfds
  · by_cases hok : results x.1 x.2 = evfIoQueueOk <;> simp [hfd, hok]
  · simp [hfd]

/-- A ready member. -/
def isReady (ready : Finset Nat) (x : Addr × Memb) : Bool := x.2.fd ∈ ready

theorem isReady_iff : isReady ready x = true ↔ x.2.fd ∈ ready := by
  simp [isReady]

/-- No ready member is removed, and where members have one descriptor, all but the last are ready and stay armed. -/
structure Smooth (results : Results) (ready : Finset Nat) (l : List (Addr × Memb)) : Prop where
  kept : ∀ x ∈ l, x.2.fd ∈ ready → ¬ removes results x
  shared : l.Pairwise fun x y => x.2.fd = y.2.fd → x.2.fd ∈ ready ∧ results x.1 x.2 = evfIoQueueOk

/-- The members after `x` are armed as before, as long as those with its descriptor find it armed. -/
theorem agree_after (hx : x.2.fd ∈ rfds ↔ x.2.fd ∈ ready) (hl : ∀ y ∈ l, y.2.fd ∈ rfds ↔ y.2.fd ∈ ready)
    (hshared : ∀ y ∈ l, x.2.fd = y.2.fd → x.2.fd ∈ ready ∧ results x.1 x.2 = evfIoQueueOk) :
    ∀ y ∈ l, y.2.fd ∈ armedAfter results rfds x ↔ y.2.fd ∈ ready := by
  intro y hy
  by_cases hfd : x.2.fd = y.2.fd
  · obtain ⟨hready, hok⟩ := hshared y hy hfd
    rw [armedAfter, if_pos (hx.mpr hready), if_pos hok]
    exact hl y hy
  · rw [armedAfter_other (Ne.symm hfd)]
    exact hl y hy

theorem Smooth.pass_eq (h : Smooth results ready l) (hagree : ∀ x ∈ l, x.2.fd ∈ rfds ↔ x.2.fd ∈ ready) :
    pass results rfds members l = .ok (l.filter (isReady ready), members) := by
  induction l generalizing rfds with
  | nil => rfl
  | cons x l ih =>
      obtain ⟨hkept, hkepts⟩ := List.forall_mem_cons.mp h.kept
      obtain ⟨hshared, hshareds⟩ := List.pairwise_cons.mp h.shared
      obtain ⟨hx, hl⟩ := List.forall_mem_cons.mp hagree
      rw [pass, ih ⟨hkepts, hshareds⟩ (agree_after hx hl hshared)]
      by_cases hready : x.2.fd ∈ ready
      · rw [if_pos (hx.mpr hready), if_neg (hkept hready), List.filter_cons_of_pos (isReady_iff.mpr hready)]
        rfl
      · rw [if_neg (mt hx.mp hready), List.filter_cons_of_neg (mt isReady_iff.mp hready)]

/-- The members that no ready callback wants removed. -/
def stays (results : Results) (ready : Finset Nat) (x : Addr × Memb) : Bool := ¬ (x.2.fd ∈ ready ∧ removes results x)

theorem stays_iff : stays results ready x = true ↔ (x.2.fd ∈ ready → ¬ removes results x) := by
  simp [stays, imp_iff_not_or]

theorem exists_first (hy : y ∈ l) (hfd : y.2.fd = fd) :
    ∃ l₁ z l₂, l = l₁ ++ z :: l₂ ∧ z.2.fd = fd ∧ ∀ x ∈ l₁, fd ≠ x.2.fd := by
  obtain ⟨z, l₁, l₂, hl₁, hz, hl, -⟩ := List.exists_of_eraseP hy (hasFd_iff.mpr hfd)
  exact ⟨l₁, z, l₂, hl, hasFd_iff.mp hz, fun x hx heq => hl₁ x hx (hasFd_iff.mpr heq.symm)⟩

/-- A removal takes another member that should stay. -/
theorem not_pass_erased (hnodup : (l₁ ++ x :: l).Nodup) (hl₁ : ∀ y ∈ l₁, stays results ready y = true)
    (hfirst : (l₁ ++ x :: l).find? (hasFd x.2.fd) ≠ some x)
    (hpass : pass results rfds ((l₁ ++ x :: l).eraseP (hasFd x.2.fd)) l₂ = .ok r) :
    r.2 ≠ (l₁ ++ x :: l).filter (stays results ready) := by
  intro hleft
  obtain ⟨y, hy, hyfd⟩ := exists_before rfl hfirst
  obtain ⟨as, z, bs, rfl, hz, has⟩ := exists_first hy hyfd
  have hmem : z ∈ r.2 := by
    rw [hleft]
    exact List.mem_filter.mpr ⟨by simp, hl₁ z (by simp)⟩
  have herase : ((as ++ z :: bs) ++ x :: l).eraseP (hasFd x.2.fd) = as ++ (bs ++ x :: l) := by
    have hne : ∀ w ∈ as, ¬ hasFd x.2.fd w = true := fun w hw h => has w hw (hasFd_iff.mp h).symm
    rw [List.append_assoc, List.eraseP_append_right _ hne, List.cons_append,
      List.eraseP_cons_of_pos (hasFd_iff.mpr hz)]
  rw [herase] at hpass
  rw [List.append_assoc, List.cons_append] at hnodup
  exact (List.nodup_cons.mp (List.nodup_middle.mp hnodup)).1 ((pass_sublist hpass).1.subset hmem)

/-- Only a smooth pass calls the ready members and leaves those that should stay. -/
theorem smooth_of_pass (hnodup : (l₁ ++ l).Nodup) (hl₁ : ∀ y ∈ l₁, stays results ready y = true)
    (hagree : ∀ x ∈ l, x.2.fd ∈ rfds ↔ x.2.fd ∈ ready) (h : pass results rfds (l₁ ++ l) l = .ok r)
    (hreads : r.1 = l.filter (isReady ready)) (hleft : r.2 = (l₁ ++ l).filter (stays results ready)) :
    Smooth results ready l := by
  induction l generalizing rfds l₁ r with
  | nil => exact ⟨by simp, List.Pairwise.nil⟩
  | cons x l ih =>
      obtain ⟨members', r', hpass, rfl, hmembers⟩ := pass_cons h
      obtain ⟨hx, hl⟩ := List.forall_mem_cons.mp hagree
      have hxl : x ∉ l ∧ l.Nodup := List.nodup_cons.mp (List.nodup_append.mp hnodup).2.1
      have hkept : x.2.fd ∈ ready → ¬ removes results x := by
        intro hready hremoves
        rcases hmembers with ⟨-, hfirst, rfl⟩ | ⟨hnot, -⟩
        · exact not_pass_erased hnodup hl₁ hfirst hpass hleft
        · exact hnot ⟨hx.mpr hready, hremoves⟩
      have hreads' : r'.1 = l.filter (isReady ready) := by
        by_cases hready : x.2.fd ∈ ready
        · rw [if_pos (hx.mpr hready), List.filter_cons_of_pos (isReady_iff.mpr hready)] at hreads
          exact List.tail_eq_of_cons_eq hreads
        · rwa [if_neg (mt hx.mp hready), List.filter_cons_of_neg (mt isReady_iff.mp hready)] at hreads
      have hshared : ∀ y ∈ l, x.2.fd = y.2.fd → x.2.fd ∈ ready ∧ results x.1 x.2 = evfIoQueueOk := by
        intro y hy hfd
        obtain ⟨as, z, bs, rfl, hz, has⟩ := exists_first hy hfd.symm
        have hzbs : z ∉ bs := (List.nodup_cons.mp (List.nodup_append.mp hxl.2).2.1).1
        have hcalled := first_called hpass (hz ▸ has) hzbs
        rw [hreads', List.mem_filter, isReady_iff, hz, armedAfter_self, hx] at hcalled
        have hready : x.2.fd ∈ ready := by
          by_contra hnot
          exact hnot (hcalled.mpr fun h => absurd h hnot).2
        exact ⟨hready, hcalled.mp ⟨by simp, hready⟩ hready⟩
      have hmembers' : members' = (l₁ ++ [x]) ++ l := by
        rcases hmembers with ⟨⟨hfd, hremoves⟩, -⟩ | ⟨-, rfl⟩
        · exact absurd hremoves (hkept (hx.mp hfd))
        · exact List.append_cons l₁ x l
      rw [hmembers'] at hpass
      rw [List.append_cons] at hnodup hleft
      have hstays : ∀ y ∈ l₁ ++ [x], stays results ready y = true := by
        intro y hy
        rcases List.mem_append.mp hy with hy | hy
        · exact hl₁ y hy
        · exact stays_iff.mpr (List.mem_singleton.mp hy ▸ hkept)
      have hrest := ih hnodup hstays (agree_after hx hl hshared) hpass hreads' hleft
      exact ⟨List.forall_mem_cons.mpr ⟨hkept, hrest.kept⟩, List.pairwise_cons.mpr ⟨hshared, hrest.shared⟩⟩

/-! ## Waits -/

/-- The callback of every ready member is called exactly once, in descending order, and the members whose callbacks
ask for it are removed. -/
structure Serves (q : Queue) (ready : Finset Nat) (results : Results) (w : Waited) : Prop where
  once : (readsOf w.log).Perm (q.members.filter (isReady ready))
  descending : (readsOf w.log).Pairwise Before
  removed : w.queue.members = q.members.filter (stays results ready)

variable {s : State} {select : Option (Finset Nat)} {c : Comp Fault Pass}

instance before_trans : IsTrans (Addr × Memb) Before := ⟨fun _ _ _ h h' => Nat.le_trans h' h⟩

instance before_total : @Std.Total (Addr × Memb) Before := ⟨fun x y => Nat.le_total y.2.fd x.2.fd⟩

theorem descending_reachable (hs : machine.Reachable s) : s.queue.members.Pairwise Before := by
  have hboth : s.queue.Ok ∧ s.queue.members.Pairwise Before := by
    refine hs.invariant (I := fun s => s.queue.Ok ∧ s.queue.members.Pairwise Before)
      ⟨Queue.empty_ok, List.Pairwise.nil⟩ fun hq hs => ?_
    obtain ⟨hok, he⟩ := step_effect hq.1 hs
    refine ⟨hok, ?_⟩
    cases he with
    | add hm _ _ _ => exact hm ▸ hq.2.orderedInsert _ _
    | rem hm _ _ _ => exact hm ▸ hq.2.eraseP _
    | drop hm _ _ _ _ => exact hm ▸ hq.2.eraseP _
    | mask hm _ _ _ => exact hm ▸ hq.2
  exact hboth.2

theorem Queue.Ok.nodup (hq : q.Ok) : q.members.Nodup := hq.rep.chain.nodup.of_map _

/-- The members called are in the order of the list, so that there is only one way to call the right ones. -/
theorem eq_filter_of_perm (hsub : l₁.Sublist l) (hperm : l₁.Perm (l.filter (isReady ready))) :
    l₁ = l.filter (isReady ready) := by
  have hall : l₁.filter (isReady ready) = l₁ :=
    List.filter_eq_self.mpr fun x hx => (List.mem_filter.mp (hperm.subset hx)).2
  have hfilter := hsub.filter (isReady ready)
  rw [hall] at hfilter
  exact hfilter.eq_of_length hperm.length_eq

theorem pass_serves_iff (hnodup : l.Nodup) (hsorted : l.Pairwise Before) :
    (∃ r, pass results ready l l = .ok r ∧ r.1.Perm (l.filter (isReady ready)) ∧ r.1.Pairwise Before ∧
      r.2 = l.filter (stays results ready)) ↔ Smooth results ready l := by
  constructor
  · rintro ⟨r, hpass, hperm, -, hleft⟩
    have hreads := eq_filter_of_perm (pass_sublist hpass).2 hperm
    have hnodup' : ([] ++ l).Nodup := hnodup
    exact smooth_of_pass hnodup' (by simp) (fun _ _ => Iff.rfl) hpass hreads hleft
  · intro h
    refine ⟨_, h.pass_eq fun _ _ => Iff.rfl, List.Perm.refl _, hsorted.filter _, ?_⟩
    exact (List.filter_eq_self.mpr fun x hx => stays_iff.mpr (h.kept x hx)).symm

theorem Computes.serves_iff {p : Except Fault (List (Addr × Memb) × List (Addr × Memb))} {ret : Int}
    (h : Computes c [] p) : c.Returns (fun s => Serves q ready results ⟨ret, s.queue, s.log⟩) ↔
      ∃ r, p = .ok r ∧ r.1.Perm (q.members.filter (isReady ready)) ∧ r.1.Pairwise Before ∧
        r.2 = q.members.filter (stays results ready) := by
  cases p with
  | error e =>
      constructor
      · rintro ⟨s, hs, -⟩
        cases hs.unique h
      · rintro ⟨r, hr, -⟩
        cases hr
  | ok r =>
      obtain ⟨reads, left⟩ := r
      obtain ⟨s, hs, hreads, hleft⟩ := h
      obtain rfl : readsOf s.log = reads := hreads
      obtain rfl : s.queue.members = left := hleft
      constructor
      · rintro ⟨s', hs', hserves⟩
        obtain rfl := Except.ok.inj (hs'.unique hs)
        exact ⟨_, rfl, hserves.once, hserves.descending, hserves.removed⟩
      · rintro ⟨r', hr', hperm, hsorted, hleft⟩
        obtain rfl := Except.ok.inj hr'
        exact ⟨s, hs, hperm, hsorted, hleft⟩

/-- Nobody is ready. -/
theorem serves_none {ret : Int} : Serves q ∅ results ⟨ret, q, []⟩ where
  once := by
    rw [List.filter_eq_nil_iff.mpr fun x _ => by simp [isReady]]
    exact List.Perm.refl _
  descending := List.Pairwise.nil
  removed := (List.filter_eq_self.mpr fun x _ => by simp [stays]).symm

theorem serves_empty {ret : Int} (hm : q.members = []) : Serves q ready results ⟨ret, q, []⟩ where
  once := by
    rw [hm]
    exact List.Perm.refl _
  descending := List.Pairwise.nil
  removed := by rw [hm, List.filter_nil]

/-- A wait serves its members exactly if the pass over them is smooth. -/
theorem wait_serves_iff (hs : machine.Reachable s) : (evfIoQueueWait s.queue select results).Returns
      (Serves s.queue (select.getD ∅) results) ↔
    ∀ ready, select = some ready → Smooth results ready s.queue.members := by
  have hq := ok_reachable hs
  have hchain := hq.rep.chain
  unfold evfIoQueueWait
  cases hm : s.queue.members with
  | nil =>
      rw [hm] at hchain
      simp only [show s.queue.root = none from hchain]
      rw [Comp.returns_pure]
      exact iff_of_true (serves_empty hm) fun ready _ => ⟨by simp, List.Pairwise.nil⟩
  | cons x l =>
      rw [hm] at hchain
      obtain ⟨hroot, n, hn, -⟩ := hchain
      simp only [hroot, readCell_of hn]
      refine (Comp.returns_same (Comp.same_pure_bind _ _)).trans ?_
      cases select with
      | none => exact iff_of_true (Comp.returns_pure.mpr serves_none) fun ready h => nomatch h
      | some ready =>
          have hloop := @loop_pass results { s.queue with rfds := ready } _ _ [] [] hq rfl hq.rep.chain
          rw [Comp.returns_bind]
          simp only [Comp.returns_pure, Option.getD_some]
          rw [← hroot, hloop.serves_iff]
          refine (pass_serves_iff hq.nodup (descending_reachable hs)).trans ⟨fun h r hr => ?_, fun h => ?_⟩
          · obtain rfl := Option.some.inj hr
            exact hm ▸ h
          · exact hm ▸ h ready rfl

def twoAdded : State :=
  (machine.run machine.init [.add 5 1 1 true, .add 3 1 2 true]).getD machine.init

theorem twoAdded_reachable : machine.Reachable twoAdded :=
  Machine.reachable_iff.mpr ⟨[.add 5 1 1 true, .add 3 1 2 true], by decide⟩

/-- The first member is closed but not removed. -/
theorem wait_serves_closed : (evfIoQueueWait twoAdded.queue (some {5}) fun _ _ => evfIoQueueClose).Returns
    (Serves twoAdded.queue {5} fun _ _ => evfIoQueueClose) :=
  (wait_serves_iff twoAdded_reachable).mpr fun ready h => by
    obtain rfl := Option.some.inj h
    exact ⟨by decide, by decide⟩

/-- The callback returns `EVF_IO_QUEUE_REM | EVF_IO_QUEUE_CLOSE`, as the header shows it. -/
theorem not_wait_serves : ¬ ∀ (s : State) (select : Option (Finset Nat)) (results : Results),
    machine.Reachable s → (∀ ready ∈ select, ready ⊆ s.queue.rfds) →
      (evfIoQueueWait s.queue select results).Returns (Serves s.queue (select.getD ∅) results) := by
  intro h
  obtain ⟨w, hw, -⟩ := h twoAdded (some {5}) (fun _ _ => evfIoQueueRemFlag ||| evfIoQueueClose) twoAdded_reachable
    (by decide)
  have hfault : (evfIoQueueWait twoAdded.queue (some {5}) fun _ _ => evfIoQueueRemFlag ||| evfIoQueueClose).Yields
      (.error .freed) := ⟨1, rfl⟩
  cases hw.unique hfault

end Evfilter.IoQueue
