import Evfilter.Evfd.Serving
import Evfilter.Lib.Keys

/-!
# What evfd has open

The open descriptors of input devices, of the inotify instance and of uinput devices are those of the members of the
queue and of the uinput devices of their lines, and one for each line that could not be read: `line_data` drops what
`evf_line_destroy` returns.
-/

namespace Evfilter.Evfd.Devices
open Lib IoQueue

/-- The descriptor that nobody knows any more after the input. -/
def leftBy (s : State) : Input → List Nat
  | .data here read =>
    if evfLineProcess read = 0 then []
    else ((s.queue.heap.get? here).bind fun memb => ownedBy s.lines (here, memb.val)).toList
  | _ => []

/-- A read that fails. -/
def fails : Input → Bool
  | .data _ read => evfLineProcess read ≠ 0
  | _ => false

def leftBehind (s : State) : List Input → List Nat
  | [] => []
  | input :: is => leftBy s input ++ match step s input with
    | none => []
    | some s' => leftBehind s' is

def fdsOf (members : List (Addr × Memb)) : List Nat := members.map fun x => x.2.fd

/-- The members without a line. -/
def withoutLine (members : List (Addr × Memb)) : List (Addr × Memb) := members.filter fun x => x.2.priv = 0

/-- All of these descriptors that should be open, each of them once. -/
def State.opened (s : State) (left : List Nat) : List Nat :=
  if s.stopped then fdsOf (withoutLine s.queue.members) ++ left
  else fdsOf s.queue.members ++ s.commitPrivs ++ left

/-- What is open while `main` is in its loop. -/
structure Holds (left : List Nat) (s : State) : Prop where
  serving : Serving s
  callback : ∀ x ∈ s.queue.members, x.2.read = lineDataFn ↔ x.2.priv ≠ 0
  keys : Keys s.kernel.fds (fdsOf s.queue.members ++ s.commitPrivs ++ left)

variable {s s' : State} {left : List Nat} {plug : Plug} {line : Line} {fd : Nat} {input : Input} {is : List Input}
  {lines : Priv → Option Line} {members : List (Addr × Memb)} {x y : Addr × Memb}

namespace Holds

theorem start : Holds [] machine.init := ⟨.start, by simp [machine, Queue.members_empty], .empty⟩

/-! ## Opening -/

/-- The descriptors after a member has been added. -/
theorem fdsOf_insert : (fdsOf (members.orderedInsert Before x)).Perm (x.2.fd :: fdsOf members) :=
  (List.perm_orderedInsert Before x members).map _

theorem hotplug (h : Holds left s) (hs : hotplug s fd = some s') : Holds left s' := by
  have hserving := h.serving.hotplug hs
  obtain ⟨kernel, hopen, rfl⟩ := Option.map_eq_some_iff.mp hs
  obtain ⟨hfree, rfl⟩ := opened_eq hopen
  obtain ⟨-, hmembers⟩ := evfIoQueueAdd_spec fd hotplugDataFn 0 h.serving.ok
  let t : State := { s with
    kernel := { s.kernel with fds := Function.update s.kernel.fds fd (some .hotplug) }
    queue := (evfIoQueueAdd s.queue fd hotplugDataFn 0 true).1 }
  have hqueue : t.queue = (evfIoQueueAdd s.queue fd hotplugDataFn 0 true).1 := rfl
  obtain ⟨-, -, hprivs⟩ := commitPrivs_add h.serving.ok hqueue fun _ _ => rfl
  replace hprivs : t.commitPrivs.Perm s.commitPrivs := hprivs
  refine ⟨hserving, fun x hx => ?_, (h.keys.insert hfree .hotplug).perm ?_⟩
  · rcases mem_orderedInsert.mp (hmembers ▸ hx) with rfl | hx
    · exact iff_of_false (show hotplugDataFn ≠ lineDataFn by decide) fun hne => hne rfl
    · exact h.callback x hx
  · have hfds : (fdsOf t.queue.members).Perm (fd :: fdsOf s.queue.members) := by
      rw [hqueue, hmembers]
      exact fdsOf_insert
    exact ((hfds.append hprivs).append_right left).symm

theorem plugged (h : Holds left s) (hs : devicePlugged s plug = some s')
    (hc : s'.queue ≠ s.queue → plug.device.version = true) : Holds left s' := by
  have hserving := (h.serving.plugged_iff hs).mpr hc
  rcases h.serving.plugged_cases hs with ⟨hqueue, hlines, hfds, -⟩ |
    ⟨line, fd, hfree, hunread, hapart, howned, hfds, hqueue, -, hlines, -⟩
  · refine ⟨hserving, hqueue ▸ h.callback, ?_⟩
    rw [State.commitPrivs, hqueue, hlines, hfds]
    exact h.keys
  have hold : ∀ x ∈ s.queue.members, s'.lines x.2.priv = s.lines x.2.priv := by
    intro x hx
    rw [hlines]
    refine Function.update_of_ne (fun he => ?_) ..
    have hpriv : x.2.priv ≠ 0 := he ▸ Nat.succ_ne_zero _
    obtain ⟨self, hself, -⟩ := h.serving.queued x hx ((h.callback x hx).mpr hpriv)
    rw [he, h.serving.fresh] at hself
    cases hself
  obtain ⟨-, hmembers⟩ := evfIoQueueAdd_spec line.fd lineDataFn (s.malloced + 1) h.serving.ok
  obtain ⟨-, -, hprivs⟩ := commitPrivs_add h.serving.ok hqueue hold
  rw [← hqueue] at hmembers
  have hnew : ownedBy s'.lines (s.queue.heap.size, ⟨line.fd, lineDataFn, s.malloced + 1⟩) = some fd := by
    simp [ownedBy, hlines, howned]
  rw [hnew, Option.toList_some, List.singleton_append] at hprivs
  rw [inputFile, if_pos (hc (hqueue ▸ h.serving.add_changes))] at hfds
  refine ⟨hserving, fun x hx => ?_, ?_⟩
  · rcases mem_orderedInsert.mp (hmembers ▸ hx) with rfl | hx
    · exact iff_of_true rfl (Nat.succ_ne_zero _)
    · exact h.callback x hx
  · have hread : Function.update s.kernel.fds fd (some (.uinput (some s.kernel.devices))) line.fd = none := by
      rw [Function.update_of_ne hapart, hunread]
    rw [hfds, hmembers]
    refine ((h.keys.insert hfree _).insert hread .input).perm ?_
    refine List.Perm.trans ?_ ((fdsOf_insert.append hprivs).append_right left).symm
    simp only [List.cons_append, List.append_assoc]
    exact (List.perm_middle.symm).cons _

/-! ## Closing -/

/-- The member with the descriptor is the one that is removed. -/
theorem perm_erase (hl : members.Pairwise fun x y => y.2.fd < x.2.fd) (hx : x ∈ members) :
    members.Perm (x :: members.eraseP (hasFd x.2.fd)) := by
  obtain ⟨y, l₁, l₂, -, hy, rfl, herase⟩ := List.exists_of_eraseP hx (hasFd_iff.mpr rfl)
  obtain rfl := eq_of_fd hl (by simp) hx (hasFd_iff.mp hy)
  rw [herase]
  exact List.perm_middle

theorem data {here : Addr} {read : Read} (h : Holds left s) (hs : Devices.data s here read = some s') :
    Holds (left ++ leftBy s (.data here read)) s' ∧
      (leftBy s (.data here read)).length = if fails (.data here read) then 1 else 0 := by
  have hserving := h.serving.data hs
  rcases data_cases h.serving.ok hs with ⟨hread, rfl⟩ | ⟨hread, memb, line, hx, hfn, hline, hkernel, hlines, -, hmembers⟩
  · rw [leftBy, if_pos hread, List.append_nil]
    exact ⟨h, by simp [fails, hread]⟩
  obtain ⟨n, hget⟩ := h.serving.ok.rep.chain.get hx
  obtain ⟨fd, dev, howned, -⟩ := h.serving.commits hline
  have hpriv : memb.priv ≠ 0 := (h.callback _ hx).mp hfn
  have hown : ownedBy s.lines (here, memb) = some fd := by simp [ownedBy, hpriv, hline, howned]
  have hleft : leftBy s (.data here read) = [fd] := by simp [leftBy, hread, hget, hown]
  obtain ⟨self, hself, hfd⟩ := h.serving.queued _ hx hfn
  cases hline.symm.trans hself
  have hperm := perm_erase h.serving.descending hx
  rw [← hmembers] at hperm
  have hother : ∀ y ∈ s'.queue.members, s'.lines y.2.priv = s.lines y.2.priv := by
    intro y hy
    rw [hlines]
    refine Function.update_of_ne (fun he => ?_) ..
    obtain ⟨hmem, hne⟩ := (mem_eraseP h.serving.descending).mp (hmembers ▸ hy)
    obtain ⟨self, hself, hyfd⟩ := h.serving.queued y hmem ((h.callback y hmem).mpr (he ▸ hpriv))
    rw [he, hline] at hself
    cases hself
    exact hne (hyfd.symm.trans hfd)
  have hprivs : s.commitPrivs.Perm (fd :: s'.commitPrivs) := by
    refine (hperm.filterMap _).trans ?_
    rw [List.filterMap_cons_some hown, State.commitPrivs, ownedBy_congr hother]
  rw [hleft]
  refine ⟨⟨hserving, fun y hy => h.callback y (List.mem_of_mem_eraseP (hmembers ▸ hy)), ?_⟩, by simp [fails, hread]⟩
  rw [hkernel, fds_close, hfd]
  have hfds : (fdsOf s.queue.members).Perm (memb.fd :: fdsOf s'.queue.members) := hperm.map _
  have hmove : (fdsOf s'.queue.members ++ (fd :: s'.commitPrivs) ++ left).Perm
      (fdsOf s'.queue.members ++ s'.commitPrivs ++ (left ++ [fd])) := by
    rw [List.append_assoc, List.append_assoc, List.cons_append, ← List.append_assoc s'.commitPrivs]
    exact List.Perm.append_left _ (List.perm_append_singleton fd _).symm
  exact (h.keys.perm (((hfds.append hprivs).append_right left).trans (hmove.cons _))).erase

end Holds

/-! ## Exiting -/

/-- What the loop at the end of `main` closes for a member. -/
def heldBy (lines : Priv → Option Line) (x : Addr × Memb) : List Nat :=
  if x.2.priv = 0 then [] else x.2.fd :: (ownedBy lines x).toList

theorem perm_heldBy (lines : Priv → Option Line) (members : List (Addr × Memb)) :
    (fdsOf members ++ members.filterMap (ownedBy lines)).Perm
      (members.flatMap (heldBy lines) ++ fdsOf (withoutLine members)) := by
  induction members with
  | nil => exact List.Perm.refl _
  | cons x members ih =>
      by_cases hpriv : x.2.priv = 0
      · have hown : ownedBy lines x = none := by simp [ownedBy, hpriv]
        rw [List.filterMap_cons_none hown, List.flatMap_cons, heldBy, if_pos hpriv, withoutLine,
          List.filter_cons_of_pos (by simpa using hpriv)]
        exact (ih.cons x.2.fd).trans List.perm_middle.symm
      · rw [List.flatMap_cons, heldBy, if_neg hpriv, withoutLine, List.filter_cons_of_neg (by simpa using hpriv)]
        cases hown : ownedBy lines x with
        | none =>
            rw [List.filterMap_cons_none hown]
            exact ih.cons x.2.fd
        | some fd =>
            rw [List.filterMap_cons_some hown]
            exact (List.perm_middle.trans (ih.cons fd)).cons x.2.fd

theorem fds_evfUinputDestroy {k : Kernel} : (evfUinputDestroy k fd).fds = Function.update k.fds fd none := by
  rw [evfUinputDestroy_eq, fds_close]

/-- The loop closes what the lines have open, and leaves the rest. -/
theorem cleanup_keys {rest : List Nat} (hk : Keys s.kernel.fds (members.flatMap (heldBy s.lines) ++ rest))
    (hl : ∀ x ∈ members, x.2.priv ≠ 0 → ∃ line, s.lines x.2.priv = some line ∧ line.fd = x.2.fd)
    (hd : members.Pairwise fun x y => x.2.priv ≠ 0 → x.2.priv ≠ y.2.priv)
    (hb : ∀ {addr line}, s.lines addr = some line → ∃ fd, commitPriv line = some fd)
    (h : cleanup s members = some s') : Keys s'.kernel.fds rest ∧ s'.queue = s.queue := by
  induction members generalizing s with
  | nil =>
      cases h
      exact ⟨hk, rfl⟩
  | cons x members ih =>
      obtain ⟨hx, hd⟩ := List.pairwise_cons.mp hd
      obtain ⟨hxl, hl⟩ := List.forall_mem_cons.mp hl
      simp only [cleanup] at h
      rw [List.flatMap_cons] at hk
      split at h
      · rename_i hpriv
        obtain ⟨line, hline, hfd⟩ := hxl hpriv
        obtain ⟨fd, howned⟩ := hb hline
        have hown : ownedBy s.lines x = some fd := by simp [ownedBy, hpriv, hline, howned]
        rw [evfLineDestroy_commit hline howned, Option.bind_some] at h
        rw [heldBy, if_neg hpriv, hown] at hk
        have hother : ∀ y ∈ members, Function.update s.lines x.2.priv none y.2.priv = s.lines y.2.priv := fun y hy =>
          Function.update_of_ne (hx y hy hpriv).symm ..
        have hsame : members.flatMap (heldBy (Function.update s.lines x.2.priv none)) =
            members.flatMap (heldBy s.lines) :=
          List.flatMap_congr fun y hy => by simp only [heldBy, ownedBy, hother y hy]
        let t : State := { s with
          kernel := evfUinputDestroy (s.kernel.close line.fd) fd
          lines := Function.update s.lines x.2.priv none }
        have hkt : Keys t.kernel.fds (members.flatMap (heldBy t.lines) ++ rest) := by
          simp only [t, fds_evfUinputDestroy, fds_close, hfd, hsame]
          exact hk.erase.erase
        refine @ih t hkt (fun y hy hy0 => ?_) hd (fun {addr self} ha => ?_) h
        · obtain ⟨self, hself, hyfd⟩ := hl y hy hy0
          exact ⟨self, (hother y hy).trans hself, hyfd⟩
        · by_cases haddr : addr = x.2.priv
          · simp [t, haddr] at ha
          · exact hb (by simpa [t, haddr] using ha)
      · rename_i hpriv
        rw [heldBy, if_pos (not_not.mp hpriv), List.nil_append] at hk
        exact ih hk hl hd hb h

theorem Holds.shutdown (h : Holds left s) (hs : shutdown s = some s') :
    s'.stopped = true ∧ Keys s'.kernel.fds (s'.opened left) := by
  have hstopped : s'.stopped = true := (cleanup_spec hs).2.1
  have hk : Keys s.kernel.fds (s.queue.members.flatMap (heldBy s.lines) ++
      (fdsOf (withoutLine s.queue.members) ++ left)) := by
    rw [← List.append_assoc]
    exact h.keys.perm ((perm_heldBy s.lines s.queue.members).append_right left)
  have hlines : ∀ x ∈ s.queue.members, x.2.priv ≠ 0 → ∃ line, s.lines x.2.priv = some line ∧ line.fd = x.2.fd :=
    fun x hx hpriv => h.serving.queued x hx ((h.callback x hx).mpr hpriv)
  have hd : s.queue.members.Pairwise fun x y => x.2.priv ≠ 0 → x.2.priv ≠ y.2.priv := by
    refine h.serving.descending.imp_of_mem fun {x y} hx hy hlt hpriv he => ?_
    obtain ⟨line, hline, hfd⟩ := hlines x hx hpriv
    obtain ⟨line', hline', hfd'⟩ := hlines y hy (he ▸ hpriv)
    rw [← he, hline] at hline'
    cases hline'
    omega
  have hb : ∀ {addr line}, s.lines addr = some line → ∃ fd, commitPriv line = some fd := fun ha =>
    (h.serving.commits ha).imp fun _ ⟨_, howned, _⟩ => howned
  obtain ⟨hkeys, hqueue⟩ := @cleanup_keys { s with stopped := true } s' _ _ hk hlines hd hb hs
  refine ⟨hstopped, ?_⟩
  rw [State.opened, if_pos hstopped, hqueue]
  exact hkeys

/-! ## Runs -/

theorem Holds.opened (h : Holds left s) (hlive : s.stopped = false) : Keys s.kernel.fds (s.opened left) := by
  rw [State.opened, if_neg (by simp [hlive])]
  exact h.keys

theorem Holds.step (h : Holds left s) (hc : Answers s input) (hs : step s input = some s') :
    ((s'.stopped = false ∧ Holds (left ++ leftBy s input) s') ∨
      (s'.stopped = true ∧ Keys s'.kernel.fds (s'.opened (left ++ leftBy s input)))) ∧
      (leftBy s input).length = if fails input then 1 else 0 := by
  have hstopped := step_live hs
  simp only [Devices.step, hstopped] at hs
  cases input with
  | hotplug fd =>
      obtain ⟨_, _, rfl⟩ := Option.map_eq_some_iff.mp hs
      rw [show leftBy s (.hotplug fd) = [] from rfl, List.append_nil]
      exact ⟨Or.inl ⟨hstopped, h.hotplug hs⟩, rfl⟩
  | plugged plug =>
      have hlive : s'.stopped = false := by
        cases devicePlugged_cases hs with
        | kept sound device queue stopped => exact stopped.trans hstopped
        | added line fd sound free apart owned device queue stopped => exact stopped.trans hstopped
      rw [show leftBy s (.plugged plug) = [] from rfl, List.append_nil]
      exact ⟨Or.inl ⟨hlive, h.plugged hs (hc s' hs)⟩, rfl⟩
  | data here read =>
      obtain ⟨hholds, hlength⟩ := h.data hs
      refine ⟨Or.inl ⟨?_, hholds⟩, hlength⟩
      rcases data_cases h.serving.ok hs with ⟨-, rfl⟩ | ⟨-, -, -, -, -, -, -, -, hkept, -⟩
      · exact hstopped
      · exact hkept.trans hstopped
  | shutdown =>
      rw [show leftBy s .shutdown = [] from rfl, List.append_nil]
      exact ⟨Or.inr (h.shutdown hs), rfl⟩

theorem Holds.run (h : Holds left s) (hlive : s.stopped = false) (hc : machine.Along Answers s is)
    (hr : machine.run s is = some s') : Keys s'.kernel.fds (s'.opened (left ++ leftBehind s is)) ∧
      (leftBehind s is).length = is.countP fails := by
  induction is generalizing s left with
  | nil =>
      cases hr
      rw [leftBehind, List.append_nil]
      exact ⟨h.opened hlive, rfl⟩
  | cons input is ih =>
      obtain ⟨t, ht, hr⟩ := Option.bind_eq_some_iff.mp hr
      obtain ⟨hanswers, hrest⟩ := hc t ht
      obtain ⟨hnext, hlength⟩ := h.step hanswers ht
      have hbehind : leftBehind s (input :: is) = leftBy s input ++ leftBehind t is := by
        rw [leftBehind]
        exact congrArg (leftBy s input ++ ·) (by rw [show Devices.step s input = some t from ht])
      rw [hbehind, List.countP_cons, List.length_append, hlength]
      rcases hnext with ⟨hlive, hholds⟩ | ⟨hleft, hkeys⟩
      · obtain ⟨hkeys, hcount⟩ := ih hholds hlive hrest hr
        rw [← List.append_assoc]
        exact ⟨hkeys, by omega⟩
      · -- `main` has left its loop, and no input is taken any more.
        cases is with
        | nil =>
            cases hr
            rw [leftBehind, List.append_nil]
            exact ⟨hkeys, by simp⟩
        | cons next is =>
            obtain ⟨u, hu, -⟩ := Option.bind_eq_some_iff.mp hr
            have hgoing := step_live hu
            simp [hleft] at hgoing

/-- While evfd runs, the open descriptors of devices and of the inotify instance are those of the members of its queue,
one for the uinput device of each line of the queue, and one for each read that has failed. When it exits, the last ones
and those of members without a line are left. -/
theorem opened_accounted (hc : machine.Along Answers machine.init is) (hr : machine.run machine.init is = some s) :
    Keys s.kernel.fds (s.opened (leftBehind machine.init is)) ∧
      (leftBehind machine.init is).length = is.countP fails :=
  Holds.start.run rfl hc hr

/-- The device of `unplugged` stays open. -/
theorem unplugged_opened : ∃ s, machine.run machine.init unplugged = some s ∧
    Keys s.kernel.fds (s.opened (leftBehind machine.init unplugged)) ∧ (leftBehind machine.init unplugged).length = 1 := by
  have hanswers : machine.Along Answers machine.init unplugged :=
    fun _ _ => ⟨fun _ _ _ => rfl, fun _ _ => ⟨trivial, fun _ _ => ⟨trivial, trivial⟩⟩⟩
  exact ⟨_, rfl, opened_accounted hanswers rfl⟩

end Evfilter.Evfd.Devices
