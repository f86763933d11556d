import Evfilter.Handle.Frame

/-!
# Events go to attached filters only

A GetFromHandle filter is freed right after its detach. If the detach misses the handle that has the filter, or
finds it but leaves it as it is, a sender still delivers to the freed filter.
-/

namespace Evfilter.Handle
open Lib

/-- The handles that are in the list or held by a sender. -/
def Sys.visible (s : Sys) : List Addr := s.reg.addrs ++ s.senders

def NoDangling (s : Sys) : Prop :=
  ∀ a ∈ s.visible, ∀ v ∈ s.reg.val? a, ∀ f ∈ v.filter, f ∈ s.attached

def SendsToAttached (s : Sys) : Prop :=
  ∀ a ∈ s.senders, ∀ x ∈ evfHandleSend s.reg a, x.2 ∈ s.attached

/-- A detach finds, by the name of the receiver, the handle that has its filter, and that handle is not both
first in the list and without a sender. Nothing is asked if no handle in the list or held has the filter. -/
def DetachFinds (s : Sys) : Op → Prop
  | .detach f => ∀ a ∈ s.visible, ∀ v ∈ s.reg.val? a, v.filter = some f →
      ∀ r ∈ s.receivers, r.filter = f →
        handleLookup s.reg r.name = some a ∧ (0 < v.refcount ∨ s.reg.handles ≠ some a)
  | _ => True

variable {s s' : Sys} {a b : Addr} {v : EvfHandle} {op : Op} {f : FilterPtr} {r : Receiver}
  {as : List Addr} {o : Option EvfHandle}

theorem mem_visible : a ∈ s.visible ↔ a ∈ s.reg.addrs ∨ a ∈ s.senders := List.mem_append

theorem NoDangling.sends (h : NoDangling s) : SendsToAttached s := by
  intro a ha x hx
  obtain ⟨v, hv, hx⟩ := Option.bind_eq_some_iff.mp hx
  cases hf : v.filter with
  | none => simp [hf] at hx
  | some f =>
      simp only [hf, Option.some.injEq] at hx
      subst hx
      exact h a (mem_visible.mpr (Or.inr ha)) v hv f hf

/-! ## The invariant -/

/-- The filter of a handle, if any, is that of a receiver put on this handle. -/
def Backed (s : Sys) (a : Addr) (v : EvfHandle) : Prop :=
  ∀ f ∈ v.filter, ∃ r ∈ s.receivers, r.filter = f ∧ r.handle = a

structure Sound (s : Sys) : Prop where
  wf : s.Wf
  backed : ∀ a ∈ s.visible, ∀ v ∈ s.reg.val? a, Backed s a v

theorem Sound.noDangling (h : Sound s) : NoDangling s := fun a ha v hv f hf => by
  obtain ⟨r, hr, hrf, _⟩ := h.backed a ha v hv f hf
  exact hrf ▸ List.mem_map_of_mem hr

/-- Receivers are told apart by their filter. -/
theorem Sys.Wf.receiver_unique (hw : s.Wf) {q : Receiver} (hq : q ∈ s.receivers) (hr : r ∈ s.receivers)
    (h : q.filter = r.filter) : q = r :=
  List.inj_on_of_nodup_map hw.distinct hq hr h

theorem Sys.Wf.notMem_erase (hw : s.Wf) (hr : r ∈ s.receivers) :
    r.filter ∉ (s.receivers.erase r).map (·.filter) := by
  have hd : (s.receivers.map (·.filter)).Nodup := hw.distinct
  rw [((List.perm_cons_erase hr).map (·.filter)).nodup_iff] at hd
  exact (List.nodup_cons.mp hd).1

theorem Sound.becomes (h : Sound s) (hw' : s'.Wf) (hb : Becomes s.reg s'.reg as a o)
    (hvis : ∀ b ∈ s'.visible, b ≠ a → b ∈ s.visible)
    (hoth : ∀ b ∈ s'.visible, b ≠ a → ∀ v ∈ s.reg.val? b, Backed s b v → Backed s' b v)
    (hself : a ∈ s'.visible → ∀ v ∈ o, Backed s' a v) : Sound s' := by
  refine ⟨hw', fun b hbv v hv => ?_⟩
  by_cases hba : b = a
  · subst hba
    exact hself hbv v (hb.val_self ▸ hv)
  · have hv' : s.reg.val? b = some v := (hb.val_ne hba).symm.trans hv
    exact hoth b hbv hba v hv' (h.backed b (hvis b hbv hba) v hv')

theorem Backed.mono (h : Backed s a v) (hr : ∀ r ∈ s.receivers, r ∈ s'.receivers) : Backed s' a v :=
  fun f hf => (h f hf).imp fun _ hq => ⟨hr _ hq.1, hq.2⟩

theorem Sound.create {name : CString} {malloc : Bool} (h : Sound s)
    (hs : step s (.create name malloc) = some s') : Sound s' := by
  have hw' := h.wf.create hs
  rcases step_create h.wf.ok hs with ⟨a, v, _, ha, hv, hb, hse, hr⟩ | rfl | ⟨_, hb, hse, hr⟩
  · refine h.becomes hw' hb ?_ (fun b _ _ v _ hv => hv.mono (by simp [hr])) ?_
    · intro b hbv hne
      rcases mem_visible.mp hbv with hm | hm
      · exact mem_visible.mpr (Or.inl (hb.addrs ▸ hm))
      · exact mem_visible.mpr (Or.inr ((List.mem_cons.mp (hse ▸ hm)).resolve_left hne))
    · rintro _ w ⟨⟩ f hf
      obtain ⟨q, hq, hqf⟩ := h.backed a (mem_visible.mpr (Or.inl ha)) v hv f hf
      exact ⟨q, hr ▸ hq, hqf⟩
  · exact h
  · refine h.becomes hw' hb ?_ (fun b _ _ v _ hv => hv.mono (by simp [hr])) ?_
    · intro b hbv hne
      rcases mem_visible.mp hbv with hm | hm
      · exact mem_visible.mpr (Or.inl ((List.mem_cons.mp (hb.addrs ▸ hm)).resolve_left hne))
      · exact mem_visible.mpr (Or.inr ((List.mem_cons.mp (hse ▸ hm)).resolve_left hne))
    · rintro _ w ⟨⟩ f hf
      cases hf

theorem Sound.destroy (h : Sound s) (hs : step s (.destroy a) = some s') : Sound s' := by
  have hw' := h.wf.destroy hs
  obtain ⟨hm, hse, hr, v, hv, hc⟩ := step_destroy h.wf hs
  have hback := h.backed a (mem_visible.mpr (Or.inr hm)) v hv
  have hsub : ∀ {as}, s'.reg.addrs = as → (∀ b ∈ as, b ∈ s.reg.addrs) →
      ∀ b ∈ s'.visible, b ≠ a → b ∈ s.visible := by
    intro as has hsub b hbv _
    rcases mem_visible.mp hbv with hm | hm
    · exact mem_visible.mpr (Or.inl (hsub b (has ▸ hm)))
    · exact mem_visible.mpr (Or.inr (List.mem_of_mem_erase (hse ▸ hm)))
  rcases hc with ⟨_, hb⟩ | ⟨_, _, hb⟩ | ⟨_, _, he⟩
  · refine h.becomes hw' hb (hsub hb.addrs fun _ hm => hm)
      (fun b _ _ v _ hv => hv.mono (by simp [hr])) ?_
    rintro _ w ⟨⟩ f hf
    obtain ⟨q, hq, hqf⟩ := hback f hf
    exact ⟨q, hr ▸ hq, hqf⟩
  · refine h.becomes hw' hb (hsub hb.addrs fun _ hm => (unlinked_sublist _).subset hm)
      (fun b _ _ v _ hv => hv.mono (by simp [hr])) ?_
    intro _ w hw
    split at hw <;> cases hw
    exact hback.mono (by simp [hr])
  · have hb : Becomes s.reg s'.reg s.reg.addrs a (some v) := by
      rw [he]; exact becomes_refl h.wf.ok hv
    refine h.becomes hw' hb (hsub hb.addrs fun _ hm => hm)
      (fun b _ _ v _ hv => hv.mono (by simp [hr])) ?_
    rintro _ w ⟨⟩
    exact hback.mono (by simp [hr])

theorem Sound.attach {name : CString} {send : SendFn} {malloc : Bool} (h : Sound s)
    (hs : step s (.attach name f send malloc) = some s') : Sound s' := by
  have hw' := h.wf.attach hs
  obtain ⟨_, hse, rfl | ⟨_, hb, hr⟩ | ⟨a, v, _, ha, _, _, hb, hr⟩⟩ := step_attach h.wf.ok hs
  · exact h
  · refine h.becomes hw' hb ?_ (fun b _ _ v _ hv => hv.mono fun q hq => by simp [hr, hq]) ?_
    · intro b hbv hne
      rcases mem_visible.mp hbv with hm | hm
      · exact mem_visible.mpr (Or.inl ((List.mem_cons.mp (hb.addrs ▸ hm)).resolve_left hne))
      · exact mem_visible.mpr (Or.inr (hse ▸ hm))
    · rintro _ w ⟨⟩ g hg
      cases hg
      exact ⟨_, hr ▸ List.mem_cons_self, rfl, rfl⟩
  · refine h.becomes hw' hb ?_ (fun b _ _ v _ hv => hv.mono fun q hq => by simp [hr, hq]) ?_
    · intro b hbv _
      rcases mem_visible.mp hbv with hm | hm
      · exact mem_visible.mpr (Or.inl (hb.addrs ▸ hm))
      · exact mem_visible.mpr (Or.inr (hse ▸ hm))
    · rintro _ w ⟨⟩ g hg
      cases hg
      exact ⟨_, hr ▸ List.mem_cons_self, rfl, rfl⟩

/-! ## Detaching -/

theorem notMem_tail_of_head {l : List Addr} (hl : l.Nodup) (h : l.head? = some a) : a ∉ l.tail := by
  cases l with
  | nil => cases h
  | cons x l => cases h; exact (List.nodup_cons.mp hl).1

theorem mem_tail_of_head_ne {l : List Addr} (hm : a ∈ l) (h : l.head? ≠ some a) : a ∈ l.tail := by
  cases l with
  | nil => cases hm
  | cons x l => exact (List.mem_cons.mp hm).resolve_left (by rintro rfl; exact h rfl)

/-- Only the first handle can be lost by unlinking another one. -/
theorem mem_unlinked {l : List Addr} (hm : b ∈ l) (hne : b ≠ a) (h : l.head? ≠ some b) :
    b ∈ unlinked a l := by
  match l with
  | [] => cases hm
  | [x] => exact hm
  | x :: y :: l =>
      have hyl := (List.mem_cons.mp hm).resolve_left (by rintro rfl; exact h rfl)
      rw [unlinked]
      split
      · rename_i hy
        exact (List.mem_cons.mp hyl).resolve_left (by rintro rfl; exact hne hy)
      · exact List.mem_cons_of_mem _ ((List.mem_erase_of_ne hne).mpr hyl)

theorem handleLookup_first {reg : Registry} {name : CString} (hr : reg.Ok)
    (hh : reg.addrs.head? = some a) (hv : reg.val? a = some v) (hn : v.name.fold = name.fold) :
    handleLookup reg name = some a := by
  rw [handleLookup_eq hr]
  cases hl : reg.addrs with
  | nil => simp [hl] at hh
  | cons x l =>
      obtain rfl : x = a := by simpa [hl] using hh
      rw [List.find?_cons_of_pos]
      simp [Registry.Named, hv, hn]

theorem Sound.detach (h : Sound s) (hc : DetachFinds s (.detach f))
    (hs : step s (.detach f) = some s') : Sound s' := by
  have hw' := h.wf.detach hs
  obtain ⟨r, hr, _, rfl, hse, hre, hcase⟩ := step_detach h.wf.ok hs
  -- a handle that keeps a filter other than that of `r` is still backed
  have hback : ∀ b v, Backed s b v → v.filter ≠ some r.filter → Backed s' b v := by
    intro b v hb hne g hg
    obtain ⟨q, hq, hqg, hqb⟩ := hb g hg
    refine ⟨q, hre ▸ (List.mem_erase_of_ne ?_).mpr hq, hqg, hqb⟩
    rintro rfl
    exact hne (hqg ▸ hg)
  rcases hcase with ⟨hl, he⟩ | ⟨a, v, hl, ha, hv, h0, hb⟩ | ⟨a, v, hl, ha, hv, h0, hb⟩
  · refine ⟨hw', fun b hbv v hv => ?_⟩
    have hbs : b ∈ s.visible := by simpa [Sys.visible, he, hse] using hbv
    rw [he] at hv
    refine hback b v (h.backed b hbs v hv) fun hf => ?_
    simp [(hc b hbs v hv hf r hr rfl).1] at hl
  · have hvis : ∀ b ∈ s'.visible, b ∈ s.visible := fun b hbv => by
      simpa [Sys.visible, hb.addrs, hse] using hbv
    refine h.becomes hw' hb (fun b hbv _ => hvis b hbv) (fun b hbv hne w hw hbk => ?_) ?_
    · refine hback b w hbk fun hf => hne ?_
      have hlb := (hc b (hvis b hbv) w hw hf r hr rfl).1
      exact Option.some.inj (hlb.symm.trans hl)
    · rintro _ w ⟨⟩ g hg
      cases hg
  · have hvis : ∀ b ∈ s'.visible, b ∈ s.visible := fun b hbv => by
      rcases mem_visible.mp hbv with hm | hm
      · exact mem_visible.mpr (Or.inl ((unlinked_sublist _).subset (hb.addrs ▸ hm)))
      · exact mem_visible.mpr (Or.inr (hse ▸ hm))
    refine h.becomes hw' hb (fun b hbv _ => hvis b hbv) (fun b hbv hne w hw hbk => ?_) ?_
    · refine hback b w hbk fun hf => hne ?_
      have hlb := (hc b (hvis b hbv) w hw hf r hr rfl).1
      exact Option.some.inj (hlb.symm.trans hl)
    · intro hav w hw
      split at hw
      · cases hw
      · rename_i ht
        cases hw
        refine hback a v (h.backed a (hvis a hav) v hv) fun hf => ?_
        -- `handle_free` found no predecessor, so `a` is the first handle
        rcases (hc a (hvis a hav) v hv hf r hr rfl).2 with h1 | h1
        · omega
        · exact ht (mem_tail_of_head_ne ha (by rwa [← h.wf.ok.handles_eq]))

theorem Sound.detach_only (h : Sound s) (hs : step s (.detach f) = some s') (hn : NoDangling s') :
    DetachFinds s (.detach f) := by
  obtain ⟨r, hr, _, rfl, hse, hre, hcase⟩ := step_detach h.wf.ok hs
  intro a ha v hv hf q hq hqr
  obtain rfl : q = r := h.wf.receiver_unique hq hr hqr
  obtain ⟨q', hq', hqf, hqa⟩ := h.backed a ha v hv q.filter hf
  obtain rfl : q' = q := h.wf.receiver_unique hq' hq hqf
  have hfold : v.name.fold = q'.name.fold := h.wf.known q' hq' v (hqa ▸ hv)
  -- the filter of `q'` is no longer attached, so `a` cannot be left with it
  have hgone : a ∈ s'.visible → s'.reg.val? a = some v → False := fun hav hva => by
    have hm := hn a hav v hva q'.filter hf
    rw [Sys.attached, hre] at hm
    exact h.wf.notMem_erase hq' hm
  rcases hcase with ⟨hl, he⟩ | ⟨i, w, hl, hi, hw, h0, hb⟩ | ⟨i, w, hl, hi, hw, h0, hb⟩
  · exact (hgone (by simpa [Sys.visible, he, hse] using ha) (by rw [he]; exact hv)).elim
  · by_cases hai : a = i
    · subst hai
      cases hv.symm.trans hw
      exact ⟨hl, Or.inl h0⟩
    · exact (hgone (by simpa [Sys.visible, hb.addrs, hse] using ha)
        (by rw [hb.val_ne hai]; exact hv)).elim
  · by_cases hai : a = i
    · subst hai
      refine ⟨hl, Or.inr fun hh => ?_⟩
      rw [h.wf.ok.handles_eq] at hh
      have ht := notMem_tail_of_head h.wf.ok.nodup hh
      refine hgone (mem_visible.mpr (Or.inl ?_)) (by rw [hb.val_self, if_neg ht]; exact hw ▸ hv)
      rw [hb.addrs, unlinked_of_notMem_tail ht]
      exact hi
    · refine (hgone ?_ (by rw [hb.val_ne hai]; exact hv)).elim
      rcases mem_visible.mp ha with hm | hm
      · refine mem_visible.mpr (Or.inl (hb.addrs ▸ mem_unlinked hm hai fun hh => hai ?_))
        have hla := handleLookup_first h.wf.ok hh hv hfold
        exact Option.some.inj (hla.symm.trans hl)
      · exact mem_visible.mpr (Or.inr (hse ▸ hm))

/-! ## Runs -/

theorem Sound.step (h : Sound s) (hc : DetachFinds s op) (hs : step s op = some s') : Sound s' := by
  cases op with
  | create name malloc => exact h.create hs
  | destroy a => exact h.destroy hs
  | attach name f send malloc => exact h.attach hs
  | detach f => exact h.detach hc hs

theorem sound_init : Sound machine.init := ⟨wf_init, by simp [Sys.visible, machine, Registry.empty,
  Registry.addrs, Registry.members, Heap.toList, Heap.size, Heap.empty, Heap.follow]⟩

/-- In a run no sender ever delivers to a filter that has been detached, and no handle in the list or held is
left with one, exactly if every detach finds the handle of its filter in a place it can be freed from. -/
theorem no_dangling_iff (ops : List Op) :
    machine.Throughout (fun s => NoDangling s ∧ SendsToAttached s) machine.init ops ↔
      machine.Along DetachFinds machine.init ops := by
  constructor
  · intro h
    refine h.along (D := fun _ _ => True) (J := Sound) Machine.along_true sound_init
      (fun hj _ hc hs => hj.step hc hs) ?_
    intro s s' op hj _ hs hn
    cases op with
    | detach f => exact hj.detach_only hs hn.1
    | _ => trivial
  · intro h
    exact (h.throughout sound_init fun hj hc hs => hj.step hc hs).mono
      fun _ hj => ⟨hj.noDangling, hj.noDangling.sends⟩

/-- A receiver detaches from the only handle of the list, and a sender then creates that handle. -/
theorem dangling_run : ¬ ∀ ops : List Op,
    machine.Throughout (fun s => NoDangling s ∧ SendsToAttached s) machine.init ops := by
  intro h
  have hr : machine.run machine.init [.attach nameA 7 1 true, .detach 7, .create nameA true] =
      some ⟨⟨⟨[⟨⟨nameA, 1, some 7, some 1⟩, none, true⟩]⟩, some 0⟩, [0], []⟩ := by decide
  exact absurd (((h _).last hr).2 0 (by decide) (some 1, 7) (by decide)) (by decide)

end Evfilter.Handle
