import Evfilter.IoQueue.Lemmas.Invariants

/-!
# Which members a wait dispatches

A read callback should be called only for a descriptor that `select()` reported in the same wait. The loop reads
the list and the `fd_set` as the callbacks left them, so that it also meets a member that a callback put behind
the one it is at.
-/

namespace Evfilter.IoQueue
open Lib

/-- No callback waits on the queue. -/
def NoNesting (s : State) : Op → Prop
  | .wait _ => s.reading = []
  | _ => True

/-- The members whose callbacks are running are still there. The loop reads them when the callbacks return. -/
def State.Held (s : State) : Prop := ∀ aw ∈ s.reading, s.queue.heap.Live aw.1

/-- The loop calls the callback of a member only if `select()` reported it, which had been added before. -/
def CallsReported (s : State) : Op → Prop
  | .visit => ∀ hw ∈ s.walk, ∀ a ∈ hw.1, ∀ c ∈ s.queue.heap.get? a,
      c.val.fd ∈ s.queue.rfds → c.val.fd ∈ hw.2.ready ∧ a < hw.2.since
  | _ => True

/-- Only reported members are called. From a member that has been freed the loop could go on to any other. -/
def Reported (s : State) (op : Op) : Prop := CallsReported s op ∧ ∀ s' ∈ step s op, s'.Held

/-- The loop is at a member that was in the queue when `select()` returned. -/
def MeetsOld (s : State) : Op → Prop
  | .visit => ∀ hw ∈ s.walk, ∀ a ∈ hw.1, a < hw.2.since
  | _ => True

/-- No descriptor is armed that a pass has yet to get to: not by a callback that adds one below its own, and not
by a wait in a callback, unless it was reported to the pass around it too. -/
def ArmsBehind (s : State) : Op → Prop
  | .add fd _ _ _ => ∀ aw ∈ s.reading, ∀ x ∈ s.queue.members, x.1 = aw.1 → x.2.fd < fd
  | .visit => ∀ hw ∈ s.walk, ∀ b ∈ hw.1, ∀ c ∈ s.queue.heap.get? b, c.val.fd ∉ s.queue.rfds →
      ∀ aw ∈ s.reading, ∀ x ∈ s.queue.members, x.1 = aw.1 → c.val.fd < x.2.fd →
        c.val.fd ∈ aw.2.ready ∧ b < aw.2.since
  | _ => True

/-- Neither a callback nor a wait in it removes the member that the callback is called for. -/
def KeepsOwn (s : State) : Op → Prop
  | .rem fd => fd ∈ s.queue.rfds → ∀ aw ∈ s.reading, ∀ x ∈ s.queue.members, x.1 = aw.1 → x.2.fd ≠ fd
  | .ret readRet => readRet &&& evfIoQueueRemFlag ≠ 0 →
      ∀ aw ∈ s.reading.head?, ∀ bw ∈ s.reading.tail, bw.1 ≠ aw.1
  | _ => True

instance (s : State) : DecidablePred (NoNesting s)
  | .wait _ => inferInstanceAs (Decidable (s.reading = []))
  | .add _ _ _ _ | .rem _ | .visit | .ret _ => instDecidableTrue

instance (s : State) : Decidable s.Held := inferInstanceAs (Decidable (∀ aw ∈ s.reading, s.queue.heap.Live aw.1))

instance (s : State) : DecidablePred (CallsReported s)
  | .visit => inferInstanceAs (Decidable (∀ hw ∈ s.walk, ∀ a ∈ hw.1, ∀ c ∈ s.queue.heap.get? a,
      c.val.fd ∈ s.queue.rfds → c.val.fd ∈ hw.2.ready ∧ a < hw.2.since))
  | .add _ _ _ _ | .rem _ | .wait _ | .ret _ => instDecidableTrue

instance (s : State) : DecidablePred (Reported s) := fun _ => inferInstanceAs (Decidable (_ ∧ _))

instance (s : State) : DecidablePred (KeepsOwn s)
  | .rem fd => inferInstanceAs (Decidable (fd ∈ s.queue.rfds → ∀ aw ∈ s.reading, ∀ x ∈ s.queue.members,
      x.1 = aw.1 → x.2.fd ≠ fd))
  | .ret readRet => inferInstanceAs (Decidable (readRet &&& evfIoQueueRemFlag ≠ 0 →
      ∀ aw ∈ s.reading.head?, ∀ bw ∈ s.reading.tail, bw.1 ≠ aw.1))
  | .add _ _ _ _ | .wait _ | .visit => instDecidableTrue

instance (s : State) : DecidablePred (ArmsBehind s)
  | .add fd _ _ _ => inferInstanceAs (Decidable (∀ aw ∈ s.reading, ∀ x ∈ s.queue.members,
      x.1 = aw.1 → x.2.fd < fd))
  | .visit => inferInstanceAs (Decidable (∀ hw ∈ s.walk, ∀ b ∈ hw.1, ∀ c ∈ s.queue.heap.get? b,
      c.val.fd ∉ s.queue.rfds → ∀ aw ∈ s.reading, ∀ x ∈ s.queue.members, x.1 = aw.1 →
        c.val.fd < x.2.fd → c.val.fd ∈ aw.2.ready ∧ b < aw.2.since))
  | .rem _ | .wait _ | .ret _ => instDecidableTrue

variable {s s' : State} {op : Op} {q : Queue} {a b : Addr} {w : Wait} {m : Memb} {c : Cell Memb}
  {fd : Nat} {rfds : Finset Nat} {x : Addr × Memb}

/-! ## The next member -/

theorem Queue.Wf.split (hq : q.Wf) (hc : q.heap.get? a = some c) : ∃ l₁ l₂,
    q.members = l₁ ++ (a, c.val) :: l₂ ∧ c.next = Heap.first l₂ ∧
      (∀ y ∈ l₁, y.2.fd ≠ c.val.fd) ∧ ∀ y ∈ l₂, y.2.fd < c.val.fd := by
  obtain ⟨l₁, l₂, hl⟩ := List.append_of_mem (hq.ok.mem hc)
  have hchain := hq.ok.rep.chain
  have hd := hq.descending
  rw [hl] at hchain hd
  obtain ⟨_, _, _, n, hn, ht⟩ := Heap.seg_append.mp hchain
  obtain ⟨_, h₂, h₁₂⟩ := List.pairwise_append.mp hd
  have hnext : c.next = n := congrArg Cell.next (Option.some.inj (hc.symm.trans hn))
  refine ⟨l₁, l₂, hl, hnext.trans (Heap.Chain.first_eq ht), fun y hy => ?_, (List.pairwise_cons.mp h₂).1⟩
  exact Nat.ne_of_gt (h₁₂ y hy _ List.mem_cons_self)

theorem Queue.Wf.next (hq : q.Wf) (hc : q.heap.get? a = some c) (hb : c.next = some b) :
    ∃ m, (b, m) ∈ q.members ∧ m.fd < c.val.fd := by
  obtain ⟨l₁, l₂, hl, hnext, _, hlt⟩ := hq.split hc
  cases l₂ with
  | nil => simp [hnext] at hb
  | cons y l₂ =>
      obtain rfl : y.1 = b := by simpa [hnext] using hb
      exact ⟨y.2, by simp [hl], hlt y List.mem_cons_self⟩

/-- The member that the loop deletes still has its successor. -/
theorem Queue.Wf.next_deleted (hq : q.Wf) (hc : q.heap.get? a = some c) :
    ((listDelete q.heap q.root c.val.fd).1.cell? a).bind (·.next) = c.next := by
  obtain ⟨l₁, l₂, hl, hnext, hl₁, _⟩ := hq.split hc
  have hchain := hq.ok.rep.chain
  have hnd := hchain.nodup
  rw [hl] at hchain hnd
  have hcell := (Heap.get?_eq_some.mp hc).1
  rw [listDelete_found hchain rfl hl₁]
  rcases List.eq_nil_or_concat l₁ with rfl | ⟨l₀, ⟨p, u⟩, rfl⟩
  · simp [Heap.cell?_free, hcell]
  · have hpa : p ≠ a := by
      rintro rfl
      simp [Heap.addrs, List.nodup_append] at hnd
    simp [Heap.cell?_free, Heap.cell?_setNext, hcell, hpa]

/-! ## Members still to be met -/

/-- An old member is armed only if it was reported, and a new one is armed. -/
def Awaits (w : Wait) (rfds : Finset Nat) (x : Addr × Memb) : Prop :=
  (x.1 < w.since → x.2.fd ∈ rfds → x.2.fd ∈ w.ready) ∧ (w.since ≤ x.1 → x.2.fd ∈ rfds)

/-- The members below `fd` await the loop. -/
def AwaitsBelow (q : Queue) (w : Wait) (fd : Nat) : Prop :=
  w.since ≤ q.heap.size ∧ ∀ x ∈ q.members, x.2.fd < fd → Awaits w q.rfds x

structure Passing (s : State) : Prop where
  wf : s.queue.Wf
  alone : ∀ hw, s.walk = some hw → s.reading = []
  single : s.reading.length ≤ 1
  /-- While a callback runs, the members after its own await the loop. -/
  reading : ∀ a w, (a, w) ∈ s.reading → a < s.queue.heap.size ∧
    ∀ m, (a, m) ∈ s.queue.members → AwaitsBelow s.queue w m.fd
  /-- Between two callbacks, the members from `here` on do. -/
  visiting : ∀ a w, s.walk = some (some a, w) →
    ∃ m, (a, m) ∈ s.queue.members ∧ AwaitsBelow s.queue w (m.fd + 1)

variable {q' : Queue} {n k : Nat}

/-- Members may go, and the others below `fd` are armed as before. -/
theorem AwaitsBelow.frame (h : AwaitsBelow q w n) (hsize : q'.heap.size = q.heap.size)
    (hm : ∀ x ∈ q'.members, x ∈ q.members)
    (hr : ∀ x ∈ q'.members, x.2.fd < n → (x.2.fd ∈ q'.rfds ↔ x.2.fd ∈ q.rfds)) : AwaitsBelow q' w n := by
  refine ⟨hsize ▸ h.1, fun x hx hlt => ?_⟩
  simp only [Awaits, hr x hx hlt]
  exact h.2 x (hm x hx) hlt

theorem AwaitsBelow.mono (h : AwaitsBelow q w n) (hk : k ≤ n) : AwaitsBelow q w k :=
  ⟨h.1, fun x hx hlt => h.2 x hx (Nat.lt_of_lt_of_le hlt hk)⟩

theorem size_add {read : ReadFn} {priv : Priv} :
    (evfIoQueueAdd q fd read priv true).1.heap.size = q.heap.size + 1 := by
  simp [evfIoQueueAdd, size_listInsert]

theorem AwaitsBelow.add {read : ReadFn} {priv : Priv} (h : AwaitsBelow q w n) (hq : q.Ok)
    (hfresh : ∀ x ∈ q.members, x.2.fd ≠ fd) : AwaitsBelow (evfIoQueueAdd q fd read priv true).1 w n := by
  have hm := (evfIoQueueAdd_spec fd read priv hq).2
  refine ⟨size_add ▸ Nat.le_succ_of_le h.1, fun x hx hlt => ?_⟩
  have hr : (evfIoQueueAdd q fd read priv true).1.rfds = insert fd q.rfds := rfl
  rw [hm] at hx
  rw [hr]
  rcases mem_orderedInsert.mp hx with rfl | hx
  · exact ⟨fun hold => absurd h.1 (Nat.not_le_of_lt hold), fun _ => Finset.mem_insert_self _ _⟩
  · obtain ⟨h₁, h₂⟩ := h.2 x hx hlt
    exact ⟨fun hold ha => h₁ hold ((Finset.mem_insert.mp ha).resolve_left (hfresh x hx)),
      fun hnew => Finset.mem_insert_of_mem (h₂ hnew)⟩

theorem Queue.Wf.rem_frame (hq : q.Wf) (fd : Nat) : (∀ x ∈ (evfIoQueueRem q fd).members, x ∈ q.members ∧
    (x.2.fd ∈ (evfIoQueueRem q fd).rfds ↔ x.2.fd ∈ q.rfds)) ∧
    (evfIoQueueRem q fd).heap.size = q.heap.size := by
  by_cases hfd : fd ∈ q.rfds
  · obtain ⟨_, hm, hr, _⟩ := evfIoQueueRem_spec hq.ok hfd
    refine ⟨fun x hx => ?_, by simp [evfIoQueueRem, hfd, size_listDelete]⟩
    rw [hm] at hx
    obtain ⟨hx, hne⟩ := (mem_eraseP hq.descending).mp hx
    rw [hr, Finset.mem_erase]
    exact ⟨hx, and_iff_right hne⟩
  · rw [evfIoQueueRem, if_neg hfd]
    exact ⟨fun x hx => ⟨hx, Iff.rfl⟩, rfl⟩

/-- No member is new or newly armed, and those below `fd` stay and are armed as before. -/
structure KeepsBelow (q q' : Queue) (fd : Nat) : Prop where
  size : q'.heap.size = q.heap.size
  members : ∀ x ∈ q'.members, x ∈ q.members
  rfds : q'.rfds ⊆ q.rfds
  below : ∀ x ∈ q.members, x.2.fd < fd → x ∈ q'.members ∧ (x.2.fd ∈ q'.rfds ↔ x.2.fd ∈ q.rfds)

theorem Queue.Wf.next_afterRead {readRet : Int32} (hq : q.Wf) (hc : q.heap.get? a = some c) :
    ((afterRead q c.val readRet).1.heap.cell? a).bind (·.next) = c.next := by
  by_cases hflag : readRet &&& evfIoQueueRemFlag ≠ 0
  · simp only [afterRead, if_pos hflag]
    exact hq.next_deleted hc
  · simp only [afterRead, if_neg hflag, (Heap.get?_eq_some.mp hc).1, Option.bind_some]

theorem Queue.Wf.keeps_afterRead {readRet : Int32} (hq : q.Wf) :
    KeepsBelow q (afterRead q m readRet).1 m.fd := by
  by_cases hflag : readRet &&& evfIoQueueRemFlag ≠ 0
  · have hm := (listDelete_spec q.cnt (q.rfds.erase m.fd) m.fd hq.ok).2
    simp only [afterRead, if_pos hflag]
    refine ⟨size_listDelete, fun x hx => ?_, Finset.erase_subset _ _, fun x hx hlt => ⟨?_, ?_⟩⟩
    · exact List.mem_of_mem_eraseP (hm ▸ hx)
    · rw [hm]
      exact (mem_eraseP hq.descending).mpr ⟨hx, Nat.ne_of_lt hlt⟩
    · exact Finset.mem_erase.trans (and_iff_right (Nat.ne_of_lt hlt))
  · simp only [afterRead, if_neg hflag]
    refine ⟨rfl, fun x hx => hx, Finset.erase_subset _ _, fun x hx hlt => ⟨hx, ?_⟩⟩
    exact Finset.mem_erase.trans (and_iff_right (Nat.ne_of_lt hlt))

/-- After a callback the loop goes on behind its member. -/
theorem Queue.Wf.after_ret {readRet : Int32} (hq : s.queue.Wf)
    (hs : IoQueue.step s (.ret readRet) = some s') : ∃ a w c, s.reading = (a, w) :: s'.reading ∧
      s.queue.heap.get? a = some c ∧ s'.walk = some (c.next, w) ∧ KeepsBelow s.queue s'.queue c.val.fd := by
  obtain ⟨_, a, w, reading, c, hreading, hc, hr', hcase⟩ := step_ret hs
  refine ⟨a, w, c, by rw [hreading, hr'], hc, ?_⟩
  rcases hcase with ⟨_, he, hw⟩ | ⟨_, he, hw⟩
  · exact ⟨hw, by rw [he]; exact ⟨rfl, fun _ hx => hx, fun _ hx => hx, fun _ hx _ => ⟨hx, Iff.rfl⟩⟩⟩
  · rw [he] at hw ⊢
    exact ⟨hw.trans (by rw [hq.next_afterRead hc]), hq.keeps_afterRead⟩

/-! ## Members whose callbacks are running -/

theorem Queue.Ok.live_member (hq : q.Ok) : q.heap.Live a ↔ ∃ m, (a, m) ∈ q.members := by
  rw [hq.live_iff]
  simp [Heap.addrs]

/-- Members that are not erased. -/
theorem Queue.Wf.live_erased (hq : q.Wf) (hq' : q'.Ok) (hm : q'.members = q.members.eraseP (hasFd fd))
    (ha : (a, m) ∈ q.members) : q'.heap.Live a ↔ m.fd ≠ fd := by
  rw [hq'.live_member, hm]
  constructor
  · rintro ⟨m', hm'⟩
    obtain ⟨hm', hne⟩ := (mem_eraseP hq.descending).mp hm'
    cases hq.ok.rep.chain.val_unique ha hm'
    exact hne
  · exact fun hne => ⟨m, (mem_eraseP hq.descending).mpr ⟨ha, hne⟩⟩

theorem State.Held.mono (h : s.Held) (hq : s.queue.Ok) (hq' : s'.queue.Ok) (hr : ∀ aw ∈ s'.reading, aw ∈ s.reading)
    (hm : ∀ x ∈ s.queue.members, x ∈ s'.queue.members) : s'.Held := by
  intro aw haw
  obtain ⟨m, hmem⟩ := hq.live_member.mp (h aw (hr aw haw))
  exact hq'.live_member.mpr ⟨m, hm _ hmem⟩

theorem State.Held.rem_iff (h : s.Held) (hq : s.queue.Wf) (hs : step s (.rem fd) = some s') :
    s'.Held ↔ KeepsOwn s (.rem fd) := by
  have hok' := (step_effect hq.ok hs).1
  obtain ⟨_, rfl⟩ := step_rem hs
  by_cases hfd : fd ∈ s.queue.rfds
  · have hm := (evfIoQueueRem_spec hq.ok hfd).2.1
    constructor
    · rintro hheld - aw haw ⟨_, m⟩ hx rfl
      exact (hq.live_erased hok' hm hx).mp (hheld aw haw)
    · intro hkeeps aw haw
      obtain ⟨m, hmem⟩ := hq.ok.live_member.mp (h aw haw)
      exact (hq.live_erased hok' hm hmem).mpr (hkeeps hfd aw haw _ hmem rfl)
  · refine iff_of_true ?_ fun harmed => absurd harmed hfd
    simpa only [evfIoQueueRem, if_neg hfd] using h

theorem State.Held.ret_iff {readRet : Int32} (h : s.Held) (hq : s.queue.Wf)
    (hs : step s (.ret readRet) = some s') : s'.Held ↔ KeepsOwn s (.ret readRet) := by
  obtain ⟨hok', heffect⟩ := step_effect hq.ok hs
  obtain ⟨_, a, w, reading, c, hreading, hc, hr', hcase⟩ := step_ret hs
  have htail : ∀ aw ∈ s'.reading, aw ∈ s.reading := fun aw haw => by
    rw [hr'] at haw
    exact hreading ▸ List.mem_cons_of_mem _ haw
  by_cases hflag : readRet &&& evfIoQueueRemFlag ≠ 0
  · have hne : readRet ≠ evfIoQueueOk := fun hok => hflag (by rw [hok]; decide)
    obtain ⟨_, hqueue, _⟩ := hcase.resolve_left fun hok => hne hok.1
    have hm : s'.queue.members = s.queue.members.eraseP (hasFd c.val.fd) := by
      rw [hqueue]
      simp only [afterRead, if_pos hflag]
      exact (listDelete_spec s.queue.cnt (s.queue.rfds.erase c.val.fd) c.val.fd hq.ok).2
    have hkeeps : KeepsOwn s (.ret readRet) ↔ ∀ bw ∈ s'.reading, bw.1 ≠ a := by
      simp only [KeepsOwn, hreading, hr', List.head?_cons, List.tail_cons, Option.mem_some_iff, forall_eq']
      exact imp_iff_right hflag
    rw [hkeeps]
    refine forall₂_congr fun bw hbw => ?_
    obtain ⟨m, hmem⟩ := hq.ok.live_member.mp (h bw (htail bw hbw))
    rw [hq.live_erased hok' hm hmem]
    refine not_congr ⟨fun hfd => ?_, fun heq => ?_⟩
    · exact congrArg Prod.fst (eq_of_fd hq.descending hmem (hq.ok.mem hc) hfd)
    · subst heq
      rw [hq.ok.rep.chain.val_unique hmem (hq.ok.mem hc)]
  · refine iff_of_true (h.mono hq.ok hok' htail fun x hx => ?_) fun hremoves => absurd hremoves hflag
    cases heffect with
    | drop _ _ _ hdrops _ => exact absurd hdrops hflag
    | mask hm _ _ _ => exact hm ▸ hx

/-- A step leaves the members of all callbacks unless one of them is removed. -/
theorem State.Held.step_iff (h : s.Held) (hq : s.queue.Wf) (hf : Fresh s op) (hs : step s op = some s') :
    s'.Held ↔ KeepsOwn s op := by
  have hok' := (hq.step hs hf).ok
  cases op with
  | add fd read priv malloc =>
      obtain ⟨_, _, rfl⟩ := step_add hs
      refine iff_of_true (h.mono hq.ok hok' (fun _ => id) fun x hx => ?_) trivial
      cases malloc with
      | false => exact hx
      | true =>
          change x ∈ (evfIoQueueAdd s.queue fd read priv true).1.members
          rw [(evfIoQueueAdd_spec fd read priv hq.ok).2]
          exact mem_orderedInsert.mpr (Or.inr hx)
  | rem fd => exact h.rem_iff hq hs
  | wait select =>
      obtain ⟨_, ⟨ret, rfl⟩ | ⟨root, ready, _, _, _, rfl⟩⟩ := step_wait hs <;> exact iff_of_true h trivial
  | visit =>
      refine iff_of_true ?_ trivial
      obtain ⟨here, w, _, ⟨_, rfl⟩ | ⟨a, c, rfl, hc, ⟨_, rfl⟩ | ⟨_, rfl⟩⟩⟩ := step_visit hs
      · exact h
      · exact List.forall_mem_cons.mpr ⟨⟨c, hc⟩, h⟩
      · exact h
  | ret readRet => exact h.ret_iff hq hs

/-! ## Preservation -/

theorem Passing.add {read : ReadFn} {priv : Priv} {malloc : Bool} (h : Passing s)
    (hf : Fresh s (.add fd read priv malloc)) (hs : step s (.add fd read priv malloc) = some s') :
    Passing s' := by
  have hwf := h.wf.step hs hf
  obtain ⟨hwalk, _, rfl⟩ := step_add hs
  cases malloc with
  | false => exact h
  | true =>
      have hm := (evfIoQueueAdd_spec fd read priv h.wf.ok).2
      refine ⟨hwf, h.alone, h.single, fun a w ha => ?_, fun a w hv => by simp [hwalk] at hv⟩
      obtain ⟨hlt, hab⟩ := h.reading a w ha
      refine ⟨size_add ▸ Nat.lt_succ_of_lt hlt, fun m hmem => ?_⟩
      simp only [hm, mem_orderedInsert] at hmem
      rcases hmem with he | hmem
      · exact absurd (congrArg Prod.fst he) (Nat.ne_of_lt hlt)
      · exact (hab m hmem).add h.wf.ok hf

theorem Passing.rem (h : Passing s) (hs : step s (.rem fd) = some s') : Passing s' := by
  have hwf := h.wf.step hs trivial
  obtain ⟨hwalk, rfl⟩ := step_rem hs
  obtain ⟨hm, hsize⟩ := h.wf.rem_frame fd
  refine ⟨hwf, h.alone, h.single, fun a w ha => ?_, fun a w hv => by simp [hwalk] at hv⟩
  obtain ⟨hlt, hab⟩ := h.reading a w ha
  refine ⟨hsize ▸ hlt, fun m hmem => ?_⟩
  exact (hab m (hm _ hmem).1).frame hsize (fun x hx => (hm x hx).1) fun x hx _ => (hm x hx).2

theorem Passing.wait {select : Option (Finset Nat)} (h : Passing s) (hn : NoNesting s (.wait select))
    (hs : step s (.wait select) = some s') : Passing s' := by
  have hwf := h.wf.step hs trivial
  obtain ⟨hwalk, ⟨ret, rfl⟩ | ⟨root, ready, hroot, _, _, rfl⟩⟩ := step_wait hs
  · exact ⟨hwf, h.alone, h.single, h.reading, h.visiting⟩
  · have hr : s.reading = [] := hn
    refine ⟨hwf, fun _ _ => hr, h.single, fun a w ha => by simp [hr] at ha, ?_⟩
    rintro a w ⟨⟩
    have hchain := h.wf.ok.rep.chain
    cases hl : s.queue.members with
    | nil =>
        rw [hl] at hchain
        cases hroot.symm.trans hchain
    | cons y l =>
        have hy : y.1 = root := by
          rw [hl] at hchain
          exact Option.some.inj (hchain.1.symm.trans hroot)
        refine ⟨y.2, ?_, Nat.le_refl _, fun x hx _ => ⟨fun _ ha => ha, fun hnew => ?_⟩⟩
        · rw [← hy]
          show y ∈ s.queue.members
          simp [hl]
        · obtain ⟨v, n, _, hg⟩ := h.wf.ok.rep.chain.get_of_addr (List.mem_map_of_mem hx)
          exact absurd (Heap.lt_size_of_get? hg) (Nat.not_lt_of_le hnew)

theorem Passing.visit (h : Passing s) (hs : step s .visit = some s') : Passing s' := by
  have hwf := h.wf.step hs trivial
  obtain ⟨here, w, hwalk, ⟨_, rfl⟩ | ⟨a, c, rfl, hc, ⟨_, rfl⟩ | ⟨_, rfl⟩⟩⟩ := step_visit hs
  · exact ⟨hwf, by simp, h.single, h.reading, by simp⟩
  · have hr := h.alone _ hwalk
    refine ⟨hwf, by simp, by simp [hr], fun b u hb => ?_, by simp⟩
    obtain ⟨rfl, rfl⟩ : b = a ∧ u = w := by simpa [hr] using hb
    refine ⟨Heap.lt_size_of_get? hc, fun m hm => ?_⟩
    obtain ⟨m', hm', hab⟩ := h.visiting _ _ hwalk
    cases h.wf.ok.rep.chain.val_unique hm hm'
    exact hab.mono (Nat.le_succ _)
  · refine ⟨hwf, fun _ _ => h.alone _ hwalk, h.single, fun b u hb => ?_, ?_⟩
    · simp [h.alone _ hwalk] at hb
    · rintro b u hbu
      obtain ⟨hnext, rfl⟩ : c.next = some b ∧ w = u := by simpa using hbu
      obtain ⟨m, hm, hlt⟩ := h.wf.next hc hnext
      obtain ⟨m', hm', hab⟩ := h.visiting _ _ hwalk
      cases h.wf.ok.rep.chain.val_unique hm' (h.wf.ok.mem hc)
      refine ⟨m, hm, (hab.mono (Nat.succ_le_succ (Nat.le_of_lt hlt))).frame rfl (fun x hx => hx) ?_⟩
      intro x _ hx
      exact Finset.mem_insert.trans (or_iff_right (by omega))

theorem Passing.ret {readRet : Int32} (h : Passing s) (hs : step s (.ret readRet) = some s') :
    Passing s' := by
  have hwf := h.wf.step hs trivial
  obtain ⟨a, w, c, hreading, hc, hwalk, hk⟩ := h.wf.after_ret hs
  have hr' : s'.reading = [] := by simpa [hreading] using h.single
  refine ⟨hwf, fun _ _ => hr', by simp [hr'], fun b u hb => by simp [hr'] at hb, fun b u hbu => ?_⟩
  obtain ⟨hb, rfl⟩ : c.next = some b ∧ w = u := by simpa [hwalk] using hbu
  obtain ⟨m, hm, hlt⟩ := h.wf.next hc hb
  obtain ⟨_, hab⟩ := h.reading a w (by simp [hreading])
  refine ⟨m, (hk.below _ hm hlt).1, ((hab c.val (h.wf.ok.mem hc)).mono hlt).frame hk.size hk.members ?_⟩
  intro x hx hxm
  exact (hk.below x (hk.members x hx) (Nat.lt_of_lt_of_le hxm hlt)).2

theorem Passing.step (h : Passing s) (hc : Fresh s op ∧ NoNesting s op) (hs : IoQueue.step s op = some s') :
    Passing s' := by
  cases op with
  | add fd read priv malloc => exact h.add hc.1 hs
  | rem fd => exact h.rem hs
  | wait select => exact h.wait hc.2 hs
  | visit => exact h.visit hs
  | ret readRet => exact h.ret hs

theorem passing_init : Passing machine.init :=
  ⟨Queue.empty_wf, by simp [machine], by simp [machine], by simp [machine], by simp [machine]⟩

/-- What the loop meets is armed for a reason, so a wrong call is one of a new member, and there is no other. -/
theorem Passing.callsReported (h : Passing s) : CallsReported s op ↔ MeetsOld s op := by
  cases op with
  | visit =>
      constructor
      · rintro hr ⟨_, w⟩ hwalk a rfl
        obtain ⟨m, hm, hsince, hab⟩ := h.visiting a w hwalk
        obtain ⟨n, hn⟩ := h.wf.ok.rep.chain.get hm
        by_contra hnew
        have ha := (hab (a, m) hm (Nat.lt_succ_self _)).2 (Nat.le_of_not_lt hnew)
        exact hnew (hr _ hwalk a rfl _ hn ha).2
      · rintro ho ⟨_, w⟩ hwalk a rfl c hc harmed
        obtain ⟨m, hm, _, hab⟩ := h.visiting a w hwalk
        cases h.wf.ok.rep.chain.val_unique hm (h.wf.ok.mem hc)
        have hold := ho _ hwalk a rfl
        exact ⟨(hab _ hm (Nat.lt_succ_self _)).1 hold harmed, hold⟩
  | _ => exact Iff.rfl

/-! ## Runs that arm behind the loop only -/

/-- The members below `fd` are armed only if they were reported. -/
def OnlyReported (q : Queue) (w : Wait) (fd : Nat) : Prop :=
  ∀ x ∈ q.members, x.2.fd < fd → x.2.fd ∈ q.rfds → x.2.fd ∈ w.ready ∧ x.1 < w.since

/-- Every pass, the ones that wait for a callback to return too, has only reported members ahead of it. -/
structure Guarded (s : State) : Prop where
  wf : s.queue.Wf
  reading : ∀ a w, (a, w) ∈ s.reading → a < s.queue.heap.size ∧
    ∀ m, (a, m) ∈ s.queue.members → OnlyReported s.queue w m.fd
  visiting : ∀ a w, s.walk = some (some a, w) → ∀ m, (a, m) ∈ s.queue.members →
    OnlyReported s.queue w (m.fd + 1)

theorem OnlyReported.mono (h : OnlyReported q w n) (hm : ∀ x ∈ q'.members, x ∈ q.members)
    (hr : ∀ x ∈ q'.members, x.2.fd ∈ q'.rfds → x.2.fd ∈ q.rfds) (hk : k ≤ n) : OnlyReported q' w k :=
  fun x hx hlt ha => h x (hm x hx) (Nat.lt_of_lt_of_le hlt hk) (hr x hx ha)

theorem Queue.Ok.lt_size (hq : q.Ok) (hx : x ∈ q.members) : x.1 < q.heap.size := by
  obtain ⟨n, hn⟩ := hq.rep.chain.get hx
  exact Heap.lt_size_of_get? hn

/-- The loop goes on from a member to the next one. -/
theorem OnlyReported.advance (hq : q.Wf) (h : OnlyReported q w c.val.fd) (hc : q.heap.get? a = some c)
    (hm : ∀ x ∈ q'.members, x ∈ q.members)
    (hr : ∀ x ∈ q'.members, x.2.fd < c.val.fd → x.2.fd ∈ q'.rfds → x.2.fd ∈ q.rfds)
    (hb : c.next = some b) (hbm : (b, m) ∈ q'.members) : OnlyReported q' w (m.fd + 1) := by
  obtain ⟨m', hm', hlt⟩ := hq.next hc hb
  cases hq.ok.rep.chain.val_unique hm' (hm _ hbm)
  intro x hx hxm ha
  have hxc := Nat.lt_of_lt_of_le hxm hlt
  exact h x (hm x hx) hxc (hr x hx hxc ha)

theorem Guarded.add {read : ReadFn} {priv : Priv} {malloc : Bool} (h : Guarded s)
    (hf : Fresh s (.add fd read priv malloc)) (ha : ArmsBehind s (.add fd read priv malloc))
    (hs : step s (.add fd read priv malloc) = some s') : Guarded s' := by
  have hwf := h.wf.step hs hf
  obtain ⟨hwalk, _, rfl⟩ := step_add hs
  cases malloc with
  | false => exact h
  | true =>
      have hm := (evfIoQueueAdd_spec fd read priv h.wf.ok).2
      refine ⟨hwf, fun a w har => ?_, fun a w hv => by simp [hwalk] at hv⟩
      obtain ⟨hlt, hrep⟩ := h.reading a w har
      refine ⟨size_add ▸ Nat.lt_succ_of_lt hlt, fun m hmem x hx hxm harmed => ?_⟩
      simp only [hm, mem_orderedInsert] at hmem hx
      have hmem := hmem.resolve_left fun he => absurd (congrArg Prod.fst he) (Nat.ne_of_lt hlt)
      rcases hx with rfl | hx
      · exact absurd hxm (Nat.not_lt_of_lt (ha _ har _ hmem rfl))
      · exact hrep m hmem x hx hxm ((Finset.mem_insert.mp harmed).resolve_left (hf x hx))

theorem Guarded.visit (h : Guarded s) (ha : ArmsBehind s .visit) (hs : step s .visit = some s') :
    Guarded s' := by
  have hwf := h.wf.step hs trivial
  obtain ⟨here, w, hwalk, ⟨_, rfl⟩ | ⟨a, c, rfl, hc, ⟨_, rfl⟩ | ⟨hfd, rfl⟩⟩⟩ := step_visit hs
  · exact ⟨hwf, h.reading, by simp⟩
  · refine ⟨hwf, fun b u hb => ?_, by simp⟩
    rcases List.mem_cons.mp hb with he | hb
    · cases he
      exact ⟨Heap.lt_size_of_get? hc, fun m hm =>
        (h.visiting _ _ hwalk m hm).mono (fun _ hx => hx) (fun _ _ hx => hx) (Nat.le_succ _)⟩
    · exact h.reading b u hb
  · have hmem := h.wf.ok.mem hc
    refine ⟨hwf, fun b u hb => ?_, fun b u hbu m hm => ?_⟩
    · obtain ⟨hlt, hrep⟩ := h.reading b u hb
      refine ⟨hlt, fun m hm x hx hxm harmed => ?_⟩
      rcases Finset.mem_insert.mp harmed with he | harmed
      · cases eq_of_fd h.wf.descending hx hmem he
        exact ha _ hwalk a rfl c hc hfd _ hb _ hm rfl hxm
      · exact hrep m hm x hx hxm harmed
    · obtain ⟨hnext, rfl⟩ : c.next = some b ∧ w = u := by simpa using hbu
      have hbelow := (h.visiting _ _ hwalk _ hmem).mono (fun _ hx => hx) (fun _ _ hx => hx) (Nat.le_succ _)
      refine hbelow.advance h.wf hc (fun _ hx => hx) (fun x _ hxc harmed => ?_) hnext hm
      exact (Finset.mem_insert.mp harmed).resolve_left (Nat.ne_of_lt hxc)

theorem Guarded.step (h : Guarded s) (hf : Fresh s op) (ha : ArmsBehind s op)
    (hs : IoQueue.step s op = some s') : Guarded s' := by
  have hwf := h.wf.step hs hf
  cases op with
  | add fd read priv malloc => exact h.add hf ha hs
  | rem fd =>
      obtain ⟨hwalk, rfl⟩ := step_rem hs
      obtain ⟨hm, hsize⟩ := h.wf.rem_frame fd
      refine ⟨hwf, fun a w har => ?_, fun a w hv => by simp [hwalk] at hv⟩
      obtain ⟨hlt, hrep⟩ := h.reading a w har
      exact ⟨hsize ▸ hlt, fun m hmem => (hrep m (hm _ hmem).1).mono (fun x hx => (hm x hx).1)
        (fun x hx => (hm x hx).2.mp) (Nat.le_refl _)⟩
  | wait select =>
      obtain ⟨hwalk, ⟨ret, rfl⟩ | ⟨root, ready, _, _, hsub, rfl⟩⟩ := step_wait hs
      · exact ⟨hwf, h.reading, h.visiting⟩
      · refine ⟨hwf, fun a w har => ?_, ?_⟩
        · obtain ⟨hlt, hrep⟩ := h.reading a w har
          exact ⟨hlt, fun m hm => (hrep m hm).mono (fun _ hx => hx) (fun _ _ hx => hsub hx) (Nat.le_refl _)⟩
        · rintro a w ⟨⟩ m _ x hx _ harmed
          exact ⟨harmed, h.wf.ok.lt_size hx⟩
  | visit => exact h.visit ha hs
  | ret readRet =>
      obtain ⟨a, w, c, hreading, hc, hwalk, hk⟩ := h.wf.after_ret hs
      have hread : ∀ b u, (b, u) ∈ s'.reading → (b, u) ∈ s.reading := fun b u hb => by
        rw [hreading]
        exact List.mem_cons_of_mem _ hb
      refine ⟨hwf, fun b u hb => ?_, fun b u hbu m hm => ?_⟩
      · obtain ⟨hlt, hrep⟩ := h.reading b u (hread b u hb)
        exact ⟨hk.size ▸ hlt, fun m hm => (hrep m (hk.members _ hm)).mono hk.members
          (fun _ _ hx => hk.rfds hx) (Nat.le_refl _)⟩
      · obtain ⟨hnext, rfl⟩ : c.next = some b ∧ w = u := by simpa [hwalk] using hbu
        exact ((h.reading a w (by simp [hreading])).2 _ (h.wf.ok.mem hc)).advance h.wf hc hk.members
          (fun _ _ _ hx => hk.rfds hx) hnext hm

theorem Guarded.callsReported (h : Guarded s) : CallsReported s op := by
  cases op with
  | visit =>
      rintro ⟨_, w⟩ hwalk a rfl c hc harmed
      have hmem := h.wf.ok.mem hc
      exact h.visiting a w hwalk _ hmem _ hmem (Nat.lt_succ_self _) harmed
  | _ => trivial

theorem guarded_init : Guarded machine.init :=
  ⟨Queue.empty_wf, by simp [machine], by simp [machine]⟩

/-! ## Runs -/

theorem held_init : machine.init.Held := by simp [machine, State.Held]

/-- The run goes on as long as the running callbacks have their members. -/
theorem reported_iff_calls (h : s.Held) (hq : s.queue.Wf) (hf : Fresh s op) (hs : step s op = some s') :
    Reported s op ↔ CallsReported s op ∧ KeepsOwn s op := by
  refine and_congr_right fun _ => ?_
  rw [← h.step_iff hq hf hs, hs]
  simp

/-- If nothing is armed ahead of a pass and no callback removes its own member, callbacks are called for reported
descriptors only. In a run in which no callback waits, they are exactly if the loop never gets to a member that was
added during its pass, nor back to one that was removed. -/
theorem reported_iff {ops : List Op} (hfresh : machine.Along Fresh machine.init ops) :
    (machine.Along (fun s op => ArmsBehind s op ∧ KeepsOwn s op) machine.init ops →
      machine.Along Reported machine.init ops) ∧
    (machine.Along NoNesting machine.init ops →
      (machine.Along Reported machine.init ops ↔
        machine.Along (fun s op => MeetsOld s op ∧ KeepsOwn s op) machine.init ops)) := by
  refine ⟨fun h => ?_, fun h => ?_⟩
  · refine (hfresh.and h).imp (J := fun s => Guarded s ∧ s.Held) ⟨guarded_init, held_init⟩ ?_ ?_
    · rintro s s' op ⟨hg, hheld⟩ ⟨hf, ha, hk⟩ hs
      exact ⟨hg.step hf ha hs, (hheld.step_iff hg.wf hf hs).mpr hk⟩
    · rintro s s' op ⟨hg, hheld⟩ ⟨hf, ha, hk⟩ hs
      exact (reported_iff_calls hheld hg.wf hf hs).mpr ⟨hg.callsReported, hk⟩
  · refine (hfresh.and h).congr (J := fun s => Passing s ∧ s.Held) ⟨passing_init, held_init⟩ ?_ ?_
    · rintro s s' op ⟨hp, hheld⟩ hc hr hs
      exact ⟨hp.step hc hs, hr.2 s' hs⟩
    · rintro s s' op ⟨hp, hheld⟩ hc hs
      rw [reported_iff_calls hheld hp.wf hc.1 hs, hp.callsReported]

/-- The callback of 5 adds 9, which waits for the next pass. -/
theorem reported_addAbove : machine.Along Reported machine.init
    [.add 5 1 1 true, .add 4 1 1 true, .wait (some {5}), .visit, .add 9 1 2 true, .ret 0, .visit, .visit,
      .wait (some {9}), .visit] :=
  (reported_iff (by decide)).1 (by decide)

/-- The callback of 5 adds 3, which the same pass dispatches. -/
theorem not_reported : ¬ ∀ ops : List Op,
    machine.Along Fresh machine.init ops → machine.Along Reported machine.init ops := by
  intro h
  exact absurd (h [.add 5 1 1 true, .wait (some {5}), .visit, .add 3 1 2 true, .ret 0, .visit] (by decide))
    (by decide)

end Evfilter.IoQueue
