import Evfilter.Handle.Dangling
import Evfilter.Handle.Lemmas.Names

/-!
# How long a handle lives

A handle should be in the list while a sender holds it or a receiver is attached to it, and its refcount should
be the number of its senders. `evf_handle_destroy` does not count the last sender out while a filter is attached,
and `handle_free` does not unlink the first two handles of the list as it should.
-/

namespace Evfilter.Handle
open Lib

/-- A receiver was put on the handle and has not been detached. -/
def Sys.Receives (s : Sys) (a : Addr) : Prop := ∃ r ∈ s.receivers, r.handle = a

instance (s : Sys) (a : Addr) : Decidable (s.Receives a) :=
  inferInstanceAs (Decidable (∃ r ∈ s.receivers, r.handle = a))

/-- For every handle ever allocated: the refcount, unless it has been freed, is the number of its senders, and
it is in the list exactly while it has a sender or a receiver. -/
def Tracked (s : Sys) : Prop := ∀ a < s.reg.heap.size,
  (∀ v ∈ s.reg.val? a, v.refcount = s.senders.count a) ∧
    (a ∈ s.reg.addrs ↔ 0 < s.senders.count a ∨ s.Receives a)

/-- The handle is third or later in the list. -/
def Deep (r : Registry) (a : Addr) : Prop := a ∈ r.addrs.drop 2

/-- The last sender of a handle destroys it when no filter is attached and the handle is deep in the list. A
receiver finds its own handle, and if that has no sender it is deep in the list. -/
def ReleasesDeep (s : Sys) : Op → Prop
  | .destroy a => ∀ v ∈ s.reg.val? a, 1 < v.refcount ∨ (v.filter = none ∧ Deep s.reg a)
  | .detach f => ∀ r ∈ s.receivers, r.filter = f → handleLookup s.reg r.name = some r.handle ∧
      ∀ v ∈ s.reg.val? r.handle, 0 < v.refcount ∨ Deep s.reg r.handle
  | _ => True

variable {s s' : Sys} {a b : Addr} {v : EvfHandle} {op : Op} {f : FilterPtr} {r : Receiver}
  {as : List Addr} {o : Option EvfHandle}

/-! ## The invariant of the runs that release deep handles only -/

structure Counted (s : Sys) : Prop where
  wf : s.Wf
  tracked : Tracked s
  /-- A handle has the filter of its receiver, and none without a receiver. -/
  linked : ∀ a v, s.reg.val? a = some v → ∀ f, v.filter = some f ↔ ∃ r ∈ s.receivers, r.filter = f ∧ r.handle = a

theorem Counted.receives (h : Counted s) (hv : s.reg.val? a = some v) :
    s.Receives a ↔ v.filter ≠ none := by
  constructor
  · rintro ⟨r, hr, hra⟩ hn
    have := (h.linked a v hv r.filter).mpr ⟨r, hr, rfl, hra⟩
    simp [hn] at this
  · intro hn
    obtain ⟨f, hf⟩ := Option.ne_none_iff_exists'.mp hn
    obtain ⟨r, hr, _, hra⟩ := (h.linked a v hv f).mp hf
    exact ⟨r, hr, hra⟩

theorem mem_unlinked_of_deep {l : List Addr} (hl : l.Nodup) (ha : a ∈ l.drop 2) :
    b ∈ unlinked a l ↔ b ∈ l ∧ b ≠ a := by
  match l with
  | [] => cases ha
  | [x] => cases ha
  | x :: y :: l =>
      have hx : x ≠ a := by rintro rfl; simp_all
      have hy : y ≠ a := by rintro rfl; simp_all
      rw [unlinked, if_neg hy, List.mem_cons, (List.nodup_cons.mp hl).2.mem_erase_iff]
      simp only [List.mem_cons]
      grind

theorem mem_tail_of_deep {l : List Addr} (ha : a ∈ l.drop 2) : a ∈ l.tail := by
  match l with
  | [] => cases ha
  | [x] => cases ha
  | x :: y :: l => exact List.mem_cons_of_mem _ ha

/-- A call that changes the fields, the senders and the receivers of `a` only. -/
theorem Counted.becomes (h : Counted s) (hw' : s'.Wf) (hb : Becomes s.reg s'.reg as a o)
    (hs : ∀ b, b ≠ a → s'.senders.count b = s.senders.count b)
    (hr : ∀ r, r.handle ≠ a → (r ∈ s'.receivers ↔ r ∈ s.receivers))
    (has : ∀ b, b ≠ a → (b ∈ as ↔ b ∈ s.reg.addrs))
    (hself : (∀ v ∈ o, v.refcount = s'.senders.count a) ∧
      (a ∈ as ↔ 0 < s'.senders.count a ∨ s'.Receives a))
    (hlink : ∀ v ∈ o, ∀ f, v.filter = some f ↔ ∃ r ∈ s'.receivers, r.filter = f ∧ r.handle = a) :
    Counted s' := by
  have hrec : ∀ b, b ≠ a → ∀ p : Receiver → Prop,
      (∃ r ∈ s'.receivers, p r ∧ r.handle = b) ↔ ∃ r ∈ s.receivers, p r ∧ r.handle = b := by
    intro b hne p
    constructor
    · rintro ⟨r, hm, hp, rfl⟩; exact ⟨r, (hr r hne).mp hm, hp, rfl⟩
    · rintro ⟨r, hm, hp, rfl⟩; exact ⟨r, (hr r hne).mpr hm, hp, rfl⟩
  refine ⟨hw', fun b hlt => ?_, fun b v hv f => ?_⟩
  · by_cases hba : b = a
    · subst hba
      rw [hb.val_self, hb.addrs]
      exact hself
    · obtain ⟨h1, h2⟩ := h.tracked b (hb.old b hba hlt)
      rw [hb.val_ne hba, hb.addrs, hs b hba, has b hba]
      refine ⟨h1, h2.trans (or_congr Iff.rfl ?_)⟩
      simpa [Sys.Receives] using (hrec b hba fun _ => True).symm
  · by_cases hba : b = a
    · subst hba
      exact hlink v (hb.val_self ▸ hv) f
    · rw [hrec b hba (·.filter = f)]
      exact h.linked b v ((hb.val_ne hba).symm.trans hv) f

theorem Counted.not_receives_new (h : Counted s) : ∀ r ∈ s.receivers, r.handle ≠ s.reg.heap.size :=
  fun r hr he => Nat.lt_irrefl _ (he ▸ h.wf.placed r hr)

theorem Counted.create {name : CString} {malloc : Bool} (h : Counted s)
    (hs : step s (.create name malloc) = some s') : Counted s' := by
  have hw' := h.wf.create hs
  rcases step_create h.wf.ok hs with ⟨a, v, _, ha, hv, hb, hse, hr⟩ | rfl | ⟨_, hb, hse, hr⟩
  · have hcount := (h.tracked a (Registry.lt_size hv)).1 v hv
    refine h.becomes hw' hb (fun b hne => by simp [hse, Ne.symm hne]) (fun r _ => by rw [hr])
      (fun b _ => Iff.rfl) ⟨?_, by simp [ha, hse]⟩ ?_
    · rintro w ⟨⟩
      simp [hse, hcount]
    · rintro w ⟨⟩ f
      simpa only [hr] using h.linked a v hv f
  · exact h
  · refine h.becomes hw' hb (fun b hne => by simp [hse, Ne.symm hne]) (fun r _ => by rw [hr])
      (fun b hne => by simp [hne]) ⟨?_, by simp [hse]⟩ ?_
    · rintro w ⟨⟩
      simp [hse, h.wf.count_new]
    · rintro w ⟨⟩ f
      simp only [hr, newHandle, reduceCtorEq, false_iff, not_exists, not_and]
      exact fun r hm _ => h.not_receives_new r hm

theorem Counted.destroy (h : Counted s) (hc : ReleasesDeep s (.destroy a))
    (hs : step s (.destroy a) = some s') : Counted s' := by
  have hw' := h.wf.destroy hs
  obtain ⟨hm, hse, hr, v, hv, hcase⟩ := step_destroy h.wf hs
  have hcount : v.refcount = s.senders.count a := (h.tracked a (Registry.lt_size hv)).1 v hv
  have hself : s'.senders.count a = s.senders.count a - 1 := by rw [hse, List.count_erase_self]
  have hoth : ∀ b, b ≠ a → s'.senders.count b = s.senders.count b := fun b hne => by
    rw [hse, List.count_erase_of_ne hne]
  have ha : a ∈ s.reg.addrs :=
    (h.tracked a (Registry.lt_size hv)).2.mpr (Or.inl (List.count_pos_iff.mpr hm))
  have hdeep := hc v hv
  rcases hcase with ⟨h1, hb⟩ | ⟨h1, hf, hb⟩ | ⟨h1, hf, _⟩
  · refine h.becomes hw' hb hoth (fun r _ => by rw [hr]) (fun b _ => Iff.rfl) ⟨?_, ?_⟩ ?_
    · rintro w ⟨⟩
      simp only
      omega
    · have : 0 < s'.senders.count a := by omega
      simp [ha, this]
    · rintro w ⟨⟩ f
      simpa only [hr] using h.linked a v hv f
  · have hd : Deep s.reg a := (hdeep.resolve_left (Nat.not_lt_of_le h1)).2
    have hrec : ¬ s'.Receives a := by
      rw [Sys.Receives, hr]
      exact fun hx => (h.receives hv).mp hx hf
    rw [if_pos (mem_tail_of_deep hd)] at hb
    refine h.becomes hw' hb hoth (fun r _ => by rw [hr]) (fun b hne => ?_) ⟨by simp, ?_⟩ (by simp)
    · rw [mem_unlinked_of_deep h.wf.ok.nodup hd]
      simp [hne]
    · have : ¬ 0 < s'.senders.count a := by omega
      simp only [mem_unlinked_of_deep h.wf.ok.nodup hd, ne_eq, not_true_eq_false, and_false, this, hrec,
        or_self]
  · rcases hdeep with h2 | h2
    · omega
    · exact absurd h2.1 hf

theorem first_receiver (hr : s'.receivers = r :: s.receivers) (hn : ∀ q ∈ s.receivers, q.handle ≠ r.handle) :
    some r.filter = some f ↔ ∃ q ∈ s'.receivers, q.filter = f ∧ q.handle = r.handle := by
  rw [hr, Option.some_inj]
  constructor
  · rintro rfl
    exact ⟨r, List.mem_cons_self, rfl, rfl⟩
  · rintro ⟨q, hq, rfl, hqa⟩
    rcases List.mem_cons.mp hq with rfl | hq
    · rfl
    · exact absurd hqa (hn q hq)

theorem Counted.attach {name : CString} {send : SendFn} {malloc : Bool} (h : Counted s)
    (hs : step s (.attach name f send malloc) = some s') : Counted s' := by
  have hw' := h.wf.attach hs
  obtain ⟨hf, hse, rfl | ⟨_, hb, hr⟩ | ⟨a, v, _, ha, hv, hn, hb, hr⟩⟩ := step_attach h.wf.ok hs
  · exact h
  · refine h.becomes hw' hb (fun b _ => by rw [hse]) (fun r hne => ?_) (fun b hne => by simp [hne])
      ⟨?_, ?_⟩ ?_
    · rw [hr, List.mem_cons, or_iff_right]
      rintro rfl
      exact hne rfl
    · rintro w ⟨⟩
      simp [hse, h.wf.count_new, newHandle]
    · simp [Sys.Receives, hr]
    · rintro w ⟨⟩ g
      exact first_receiver hr h.not_receives_new
  · have hcount := (h.tracked a (Registry.lt_size hv)).1 v hv
    have hrec : ∀ r ∈ s.receivers, r.handle ≠ a := fun r hm hra => (h.receives hv).mp ⟨r, hm, hra⟩ hn
    refine h.becomes hw' hb (fun b _ => by rw [hse]) (fun r hne => ?_) (fun b _ => Iff.rfl) ⟨?_, ?_⟩ ?_
    · rw [hr, List.mem_cons, or_iff_right]
      rintro rfl
      exact hne rfl
    · rintro w ⟨⟩
      rw [hse]
      exact hcount
    · simp [Sys.Receives, hr, ha]
    · rintro w ⟨⟩ g
      exact first_receiver hr hrec

theorem Counted.one_receiver (h : Counted s) (hm : r ∈ s.receivers) (hv : s.reg.val? r.handle = some v)
    (hr : s'.receivers = s.receivers.erase r) : ∀ q ∈ s'.receivers, q.handle ≠ r.handle := by
  intro q hq hqa
  have hqs : q ∈ s.receivers := List.mem_of_mem_erase (hr ▸ hq)
  have hqr : some q.filter = some r.filter :=
    ((h.linked _ v hv _).mpr ⟨q, hqs, rfl, hqa⟩).symm.trans ((h.linked _ v hv _).mpr ⟨r, hm, rfl, rfl⟩)
  have hn := h.wf.notMem_erase hm
  rw [← hr] at hn
  exact hn (Option.some.inj hqr ▸ List.mem_map_of_mem hq)

theorem mem_receivers_other {q : Receiver} (hne : q.handle ≠ r.handle)
    (hr : s'.receivers = s.receivers.erase r) : q ∈ s'.receivers ↔ q ∈ s.receivers := by
  rw [hr, List.mem_erase_of_ne]
  rintro rfl
  exact hne rfl

theorem Counted.detach (h : Counted s) (hc : ReleasesDeep s (.detach f))
    (hs : step s (.detach f) = some s') : Counted s' := by
  have hw' := h.wf.detach hs
  obtain ⟨r, hm, _, rfl, hse, hr, hcase⟩ := step_detach h.wf.ok hs
  obtain ⟨hl, hdeep⟩ := hc r hm rfl
  have hgone := fun v hv => h.one_receiver (v := v) hm hv hr
  have hother := fun q hne => mem_receivers_other (q := q) hne hr
  rcases hcase with ⟨hl', _⟩ | ⟨a, v, hl', ha, hv, h0, hb⟩ | ⟨a, v, hl', ha, hv, h0, hb⟩
  · simp [hl] at hl'
  · obtain rfl : r.handle = a := Option.some.inj (hl.symm.trans hl')
    have hcount := (h.tracked _ (Registry.lt_size hv)).1 v hv
    refine h.becomes hw' hb (fun b _ => by rw [hse]) hother (fun b _ => Iff.rfl) ⟨?_, ?_⟩ ?_
    · rintro w ⟨⟩
      rw [hse]
      exact hcount
    · rw [hse, ← hcount]
      simp [ha, h0]
    · rintro w ⟨⟩ g
      simp only [reduceCtorEq, false_iff, not_exists, not_and]
      exact fun q hq _ => hgone v hv q hq
  · obtain rfl : r.handle = a := Option.some.inj (hl.symm.trans hl')
    have hcount := (h.tracked _ (Registry.lt_size hv)).1 v hv
    have hd : Deep s.reg r.handle := (hdeep v hv).resolve_left (by omega)
    rw [if_pos (mem_tail_of_deep hd)] at hb
    refine h.becomes hw' hb (fun b _ => by rw [hse]) hother (fun b hne => ?_) ⟨by simp, ?_⟩ (by simp)
    · rw [mem_unlinked_of_deep h.wf.ok.nodup hd]
      simp [hne]
    · have := hgone v hv
      rw [mem_unlinked_of_deep h.wf.ok.nodup hd, hse, ← hcount]
      simpa [h0, Sys.Receives] using this

/-! ## Runs with names that fit -/

theorem Counted.finds (h : Counted s) (hu : UniqueNames s.reg) (hr : r ∈ s.receivers) :
    handleLookup s.reg r.name = some r.handle := by
  have ha : r.handle ∈ s.reg.addrs :=
    (h.tracked _ (h.wf.placed r hr)).2.mpr (Or.inr ⟨r, hr, rfl⟩)
  obtain ⟨v, hv⟩ := h.wf.ok.val ha
  exact hu.lookup h.wf.ok ha hv (h.wf.known r hr v hv)

/-- Unlinking the first handle of the list leaves it there, and unlinking the second takes the first with it. -/
theorem unlinked_shallow {l : List Addr} (hl : l.Nodup) (ha : a ∈ l) (hd : a ∉ l.drop 2) :
    a ∈ unlinked a l ∨ ∃ b ∈ l, b ≠ a ∧ b ∉ unlinked a l := by
  match l with
  | [] => cases ha
  | [x] => exact Or.inl ha
  | x :: y :: l =>
      rcases List.mem_cons.mp ha with rfl | hy
      · left
        rw [unlinked_of_notMem_tail (List.nodup_cons.mp hl).1]
        exact List.mem_cons_self
      · obtain rfl : a = y := (List.mem_cons.mp hy).resolve_right hd
        refine Or.inr ⟨x, List.mem_cons_self, ?_⟩
        rw [unlinked_second]
        have hx := (List.nodup_cons.mp hl).1
        exact ⟨by rintro rfl; simp at hx, fun hm => hx (List.mem_cons_of_mem _ hm)⟩

/-- A handle without senders and receivers has been released well only if it was deep in the list. -/
theorem Counted.deep_of_tracked (h : Counted s) (ht : Tracked s') (ha : a ∈ s.reg.addrs)
    (hb : Becomes s.reg s'.reg (unlinked a s.reg.addrs) a o)
    (hs : ∀ b, b ≠ a → s'.senders.count b = s.senders.count b)
    (hr : ∀ b, b ≠ a → (s'.Receives b ↔ s.Receives b))
    (h0 : s'.senders.count a = 0) (hn : ¬ s'.Receives a) : Deep s.reg a := by
  have hlt : ∀ b ∈ s.reg.addrs, b < s.reg.heap.size := fun b hb => by
    obtain ⟨v, hv⟩ := h.wf.ok.val hb
    exact Registry.lt_size hv
  by_contra hd
  rcases unlinked_shallow h.wf.ok.nodup ha hd with hm | ⟨b, hbm, hne, hm⟩
  · have := (ht a (Nat.lt_of_lt_of_le (hlt a ha) hb.grows)).2.mp (hb.addrs ▸ hm)
    simp [h0, hn] at this
  · have h1 := (h.tracked b (hlt b hbm)).2.mp hbm
    have h2 := (ht b (Nat.lt_of_lt_of_le (hlt b hbm) hb.grows)).2
    rw [hb.addrs, hs b hne, hr b hne] at h2
    exact hm (h2.mpr h1)

theorem Counted.destroy_only (h : Counted s) (hs : step s (.destroy a) = some s') (ht : Tracked s') :
    ReleasesDeep s (.destroy a) := by
  obtain ⟨hm, hse, hr, v, hv, hcase⟩ := step_destroy h.wf hs
  have hlt := Registry.lt_size hv
  obtain ⟨hcount, hin⟩ := h.tracked a hlt
  have hcount := hcount v hv
  have hpos := List.count_pos_iff.mpr hm
  have hself : s'.senders.count a = s.senders.count a - 1 := by rw [hse, List.count_erase_self]
  intro w hw
  obtain rfl : v = w := Option.some.inj (hv.symm.trans hw)
  rcases hcase with ⟨h1, _⟩ | ⟨h1, hf, hb⟩ | ⟨h1, _, he⟩
  · exact Or.inl h1
  · refine Or.inr ⟨hf, h.deep_of_tracked ht (hin.mpr (Or.inl hpos)) hb ?_ ?_ (by omega) ?_⟩
    · exact fun b hne => by rw [hse, List.count_erase_of_ne hne]
    · exact fun b _ => by rw [Sys.Receives, hr, Sys.Receives]
    · rw [Sys.Receives, hr]
      exact fun hx => (h.receives hv).mp hx hf
  · -- the refcount still counts the sender that is gone
    have := (ht a (he ▸ hlt)).1 v (he ▸ hv)
    omega

theorem Counted.detach_only (h : Counted s) (hu : UniqueNames s.reg)
    (hs : step s (.detach f) = some s') (ht : Tracked s') : ReleasesDeep s (.detach f) := by
  obtain ⟨r, hm, _, rfl, hse, hr, hcase⟩ := step_detach h.wf.ok hs
  have hl := h.finds hu hm
  intro q hq hqr
  obtain rfl : q = r := h.wf.receiver_unique hq hm hqr
  refine ⟨hl, fun w hw => ?_⟩
  rcases hcase with ⟨hl', _⟩ | ⟨a, v, hl', _, hv, h0, _⟩ | ⟨a, v, hl', ha, hv, h0, hb⟩
  · simp [hl] at hl'
  · obtain rfl : q.handle = a := Option.some.inj (hl.symm.trans hl')
    obtain rfl : v = w := Option.some.inj (hv.symm.trans hw)
    exact Or.inl h0
  · obtain rfl : q.handle = a := Option.some.inj (hl.symm.trans hl')
    have hcount := (h.tracked _ (Registry.lt_size hv)).1 v hv
    refine Or.inr (h.deep_of_tracked ht ha hb (fun b _ => by rw [hse]) (fun b hne => ?_) ?_ ?_)
    · constructor
      · rintro ⟨p, hp, rfl⟩
        exact ⟨p, (mem_receivers_other hne hr).mp hp, rfl⟩
      · rintro ⟨p, hp, rfl⟩
        exact ⟨p, (mem_receivers_other hne hr).mpr hp, rfl⟩
    · rw [hse, ← hcount, h0]
    · rintro ⟨p, hp, hpa⟩
      exact h.one_receiver hm hv hr p hp hpa

theorem Counted.only (h : Counted s) (hu : UniqueNames s.reg) (hs : step s op = some s')
    (ht : Tracked s') : ReleasesDeep s op := by
  cases op with
  | destroy a => exact h.destroy_only hs ht
  | detach f => exact h.detach_only hu hs ht
  | _ => trivial

/-! ## Runs -/

theorem Counted.step (h : Counted s) (hc : ReleasesDeep s op) (hs : step s op = some s') :
    Counted s' := by
  cases op with
  | create name malloc => exact h.create hs
  | destroy a => exact h.destroy hc hs
  | attach name f send malloc => exact h.attach hs
  | detach f => exact h.detach hc hs

theorem counted_init : Counted machine.init := by
  refine ⟨wf_init, fun a hlt => absurd hlt (Nat.not_lt_zero a), fun a v hv => ?_⟩
  simp [machine, Registry.val?, Registry.empty] at hv

/-- In a run that releases only handles that are deep in the list, every handle is counted and kept as it
should be. The runs with names that fit into `struct evf_handle` do so only if they are of this kind. -/
theorem tracked_iff (ops : List Op) :
    (machine.Along ReleasesDeep machine.init ops → machine.Throughout Tracked machine.init ops) ∧
    (machine.Along ShortName machine.init ops →
      (machine.Throughout Tracked machine.init ops ↔ machine.Along ReleasesDeep machine.init ops)) := by
  have hof : machine.Along ReleasesDeep machine.init ops → machine.Throughout Tracked machine.init ops :=
    fun h => (h.throughout counted_init fun hj hc hs => hj.step hc hs).mono fun _ hj => hj.tracked
  refine ⟨hof, fun hshort => ⟨fun h => ?_, hof⟩⟩
  refine h.along (J := fun s => Counted s ∧ UniqueNames s.reg) hshort ⟨counted_init, uniqueNames_init⟩ ?_ ?_
  · exact fun hj hd hc hs => ⟨hj.1.step hc hs, hj.2.step hj.1.wf hd hs⟩
  · exact fun hj _ hs ht => hj.1.only hj.2 hs ht

/-- The first handle of the list is not freed with its last sender. -/
theorem untracked_run : ¬ ∀ ops : List Op, machine.Throughout Tracked machine.init ops := by
  intro h
  have hr : machine.run machine.init [.create nameA true, .destroy 0] =
      some ⟨⟨⟨[⟨⟨nameA, 1, none, none⟩, none, true⟩]⟩, some 0⟩, [], []⟩ := by decide
  exact absurd (((h _).last hr 0 (by decide)).1 ⟨nameA, 1, none, none⟩ rfl) (by decide)

end Evfilter.Handle
