import Evfilter.Handle.Lemmas.Effects

/-!
# What every run keeps

The invariant `Wf` holds whatever the calls are and in whatever order they come. It does not say that a handle
in use is still in the list, which `handle_free` does not keep.
-/

namespace Evfilter.Handle
open Lib

structure Sys.Wf (s : Sys) : Prop where
  ok : s.reg.Ok
  /-- A handle held by a sender has not been freed, and its refcount is the number of senders, or one more. -/
  held : ∀ a ∈ s.senders, ∃ v, s.reg.val? a = some v
  counted : ∀ a v, s.reg.val? a = some v → s.senders.count a ≤ v.refcount ∧ v.refcount ≤ s.senders.count a + 1
  short : ∀ a v, s.reg.val? a = some v → v.name.strlen < evfHandleMax
  distinct : s.attached.Nodup
  /-- A receiver knows its handle by the name the handle has. -/
  known : ∀ r ∈ s.receivers, ∀ v, s.reg.val? r.handle = some v → v.name.fold = r.name.fold
  placed : ∀ r ∈ s.receivers, r.handle < s.reg.heap.size

/-! ## Inversion of a step -/

variable {s s' : Sys} {a b : Addr} {v w : EvfHandle} {name : CString} {f : FilterPtr}

theorem step_create {malloc : Bool} (hok : s.reg.Ok) (h : step s (.create name malloc) = some s') :
    (∃ a v, handleLookup s.reg name = some a ∧ a ∈ s.reg.addrs ∧ s.reg.val? a = some v ∧
      Becomes s.reg s'.reg s.reg.addrs a (some { v with refcount := v.refcount + 1 }) ∧
      s'.senders = a :: s.senders ∧ s'.receivers = s.receivers) ∨
    s' = s ∨
    (handleLookup s.reg name = none ∧
      Becomes s.reg s'.reg (s.reg.heap.size :: s.reg.addrs) s.reg.heap.size
        (some { newHandle name with refcount := 1 }) ∧
      s'.senders = s.reg.heap.size :: s.senders ∧ s'.receivers = s.receivers) := by
  simp only [step] at h
  split at h
  case isFalse => cases h
  rcases create_cases hok name malloc with ⟨a, v, r', hl, ha, hv, he, hb⟩ | ⟨_, _, he⟩ |
    ⟨hl, _, r', he, hb⟩
  · simp only [he, Option.some.injEq] at h
    subst h
    exact Or.inl ⟨a, v, hl, ha, hv, hb, rfl, rfl⟩
  · simp only [he, Option.some.injEq] at h
    exact Or.inr (Or.inl h.symm)
  · simp only [he, Option.some.injEq] at h
    subst h
    exact Or.inr (Or.inr ⟨hl, hb, rfl, rfl⟩)

theorem step_destroy (hw : s.Wf) (h : step s (.destroy a) = some s') :
    a ∈ s.senders ∧ s'.senders = s.senders.erase a ∧ s'.receivers = s.receivers ∧
    ∃ v, s.reg.val? a = some v ∧
      ((1 < v.refcount ∧
        Becomes s.reg s'.reg s.reg.addrs a (some { v with refcount := v.refcount - 1 })) ∨
      (v.refcount ≤ 1 ∧ v.filter = none ∧ Becomes s.reg s'.reg (unlinked a s.reg.addrs) a
        (if a ∈ s.reg.addrs.tail then none else some v)) ∨
      (v.refcount ≤ 1 ∧ v.filter ≠ none ∧ s'.reg = s.reg)) := by
  simp only [step] at h
  split at h
  case isFalse => cases h
  case isTrue ha =>
    obtain ⟨v, hv⟩ := hw.held a ha
    obtain ⟨r', he, hc⟩ := destroy_cases hw.ok hv
    simp only [he, Option.map_some, Option.some.injEq] at h
    subst h
    exact ⟨ha, rfl, rfl, v, hv, hc⟩

theorem step_attach {send : SendFn} {malloc : Bool} (hok : s.reg.Ok)
    (h : step s (.attach name f send malloc) = some s') : f ∉ s.attached ∧ s'.senders = s.senders ∧
    (s' = s ∨
    (handleLookup s.reg name = none ∧
      Becomes s.reg s'.reg (s.reg.heap.size :: s.reg.addrs) s.reg.heap.size
        (some { newHandle name with filter := some f, send := some send }) ∧
      s'.receivers = ⟨f, storedName name, s.reg.heap.size⟩ :: s.receivers) ∨
    (∃ a v, handleLookup s.reg name = some a ∧ a ∈ s.reg.addrs ∧ s.reg.val? a = some v ∧
      v.filter = none ∧
      Becomes s.reg s'.reg s.reg.addrs a (some { v with filter := some f, send := some send }) ∧
      s'.receivers = ⟨f, storedName name, a⟩ :: s.receivers)) := by
  simp only [step] at h
  split at h
  · cases h
  · rename_i hf
    refine ⟨hf, ?_⟩
    rcases attach_cases hok name f send malloc with ⟨_, _, he⟩ | ⟨hl, _, r', he, hb⟩ |
      ⟨a, v, r', hl, ha, hv, hn, he, hb⟩ | ⟨a, v, g, _, _, _, he⟩
    · simp only [he, Option.some.injEq] at h
      exact ⟨by rw [← h], Or.inl h.symm⟩
    · simp only [he, Option.some.injEq] at h
      subst h
      exact ⟨rfl, Or.inr (Or.inl ⟨hl, hb, by simp [attachHandle, hl]⟩)⟩
    · simp only [he, Option.some.injEq] at h
      subst h
      exact ⟨rfl, Or.inr (Or.inr ⟨a, v, hl, ha, hv, hn, hb, by simp [attachHandle, hl]⟩)⟩
    · simp only [he, Option.some.injEq] at h
      exact ⟨by rw [← h], Or.inl h.symm⟩

theorem step_detach (hok : s.reg.Ok) (h : step s (.detach f) = some s') :
    ∃ r ∈ s.receivers, s.receivers.find? (·.filter == f) = some r ∧ r.filter = f ∧
      s'.senders = s.senders ∧ s'.receivers = s.receivers.erase r ∧
      ((handleLookup s.reg r.name = none ∧ s'.reg = s.reg) ∨
      (∃ a v, handleLookup s.reg r.name = some a ∧ a ∈ s.reg.addrs ∧ s.reg.val? a = some v ∧
        0 < v.refcount ∧ Becomes s.reg s'.reg s.reg.addrs a (some { v with filter := none })) ∨
      (∃ a v, handleLookup s.reg r.name = some a ∧ a ∈ s.reg.addrs ∧ s.reg.val? a = some v ∧
        v.refcount = 0 ∧ Becomes s.reg s'.reg (unlinked a s.reg.addrs) a
          (if a ∈ s.reg.addrs.tail then none else some v))) := by
  simp only [step] at h
  split at h
  · cases h
  · rename_i r hr
    simp only [Option.some.injEq] at h
    subst h
    exact ⟨r, List.mem_of_find?_eq_some hr, hr, by simpa using List.find?_some hr, rfl, rfl,
      detach_cases hok⟩

/-! ## Preservation -/

/-- A call that changes the fields of `a` only, and the senders and receivers of `a` only. -/
theorem Sys.Wf.becomes {as : List Addr} {o : Option EvfHandle} (hw : s.Wf)
    (hb : Becomes s.reg s'.reg as a o) (hs : ∀ b, b ≠ a → s'.senders.count b = s.senders.count b)
    (hlive : a ∈ s'.senders → ∃ v, o = some v)
    (hv : ∀ v, o = some v → (s'.senders.count a ≤ v.refcount ∧ v.refcount ≤ s'.senders.count a + 1) ∧
      v.name.strlen < evfHandleMax ∧ ∀ r ∈ s'.receivers, r.handle = a → v.name.fold = r.name.fold)
    (hd : s'.attached.Nodup) (hr : ∀ r ∈ s'.receivers, r.handle ≠ a → r ∈ s.receivers)
    (hp : a < s'.reg.heap.size) : s'.Wf where
  ok := hb.ok
  held b hm := by
    rw [hb.val]
    split
    · rename_i h; subst h; exact hlive hm
    · rename_i h
      have hc := List.count_pos_iff.mpr hm
      rw [hs b h] at hc
      exact hw.held b (List.count_pos_iff.mp hc)
  counted b v hbv := by
    rw [hb.val] at hbv
    split at hbv
    · rename_i h; subst h; exact (hv v hbv).1
    · rename_i h; rw [hs b h]; exact hw.counted b v hbv
  short b v hbv := by
    rw [hb.val] at hbv
    split at hbv
    · exact (hv v hbv).2.1
    · exact hw.short b v hbv
  distinct := hd
  known r hm v hbv := by
    rw [hb.val] at hbv
    split at hbv
    · rename_i h; exact (hv v hbv).2.2 r hm h
    · rename_i h; exact hw.known r (hr r hm h) v hbv
  placed r hm := by
    by_cases h : r.handle = a
    · rw [h]; exact hp
    · exact Nat.lt_of_lt_of_le (hw.placed r (hr r hm h)) hb.grows

theorem storedName_of_short (h : name.strlen < evfHandleMax) : storedName name = name :=
  CString.trunc_of_le (by unfold evfHandleMax at *; omega)

theorem strlen_storedName : (storedName name).strlen < evfHandleMax := by
  rw [storedName, CString.strlen_trunc]
  unfold evfHandleMax
  omega

/-- A handle that answers to a name has the name that would be stored for it. -/
theorem Sys.Wf.fold_stored (hw : s.Wf) (hv : s.reg.val? a = some v) (h : v.name.fold = name.fold) :
    v.name.fold = (storedName name).fold := by
  rw [storedName_of_short (CString.strlen_eq_of_fold h ▸ hw.short a v hv), h]

theorem Sys.Wf.count_new (hw : s.Wf) : s.senders.count s.reg.heap.size = 0 := by
  refine List.count_eq_zero.mpr fun hm => ?_
  obtain ⟨v, hv⟩ := hw.held _ hm
  exact Nat.lt_irrefl _ (Registry.lt_size hv)

theorem Sys.Wf.create {malloc : Bool} (hw : s.Wf) (h : step s (.create name malloc) = some s') :
    s'.Wf := by
  rcases step_create hw.ok h with ⟨a, v, _, _, hv, hb, hs, hr⟩ | rfl | ⟨_, hb, hs, hr⟩
  · refine hw.becomes hb (fun b hne => by simp [hs, Ne.symm hne]) (fun _ => ⟨_, rfl⟩) ?_
      (by simpa only [Sys.attached, hr] using hw.distinct) (fun r hm _ => hr ▸ hm)
      (Registry.lt_size hb.val_self)
    rintro w ⟨⟩
    refine ⟨?_, hw.short a v hv, fun r hm hra => hw.known r (hr ▸ hm) v (hra ▸ hv)⟩
    have := hw.counted a v hv
    simp only [hs, List.count_cons_self]
    omega
  · exact hw
  · refine hw.becomes hb (fun b hne => by simp [hs, Ne.symm hne]) (fun _ => ⟨_, rfl⟩) ?_
      (by simpa only [Sys.attached, hr] using hw.distinct) (fun r hm _ => hr ▸ hm)
      (Registry.lt_size hb.val_self)
    rintro w ⟨⟩
    refine ⟨by simp [hs, hw.count_new], strlen_storedName, fun r hm hra => ?_⟩
    exact absurd (hra ▸ hw.placed r (hr ▸ hm)) (Nat.lt_irrefl _)

theorem Sys.Wf.destroy (hw : s.Wf) (h : step s (.destroy a) = some s') : s'.Wf := by
  obtain ⟨hm, hs, hr, v, hv, hc⟩ := step_destroy hw h
  have hcount : ∀ b, b ≠ a → s'.senders.count b = s.senders.count b := fun b hne => by
    rw [hs, List.count_erase_of_ne hne]
  have hself : s'.senders.count a = s.senders.count a - 1 := by rw [hs, List.count_erase_self]
  have hle := hw.counted a v hv
  have hd : s'.attached.Nodup := by simpa only [Sys.attached, hr] using hw.distinct
  have hknown : ∀ r ∈ s'.receivers, r.handle = a → v.name.fold = r.name.fold :=
    fun r hm hra => hw.known r (hr ▸ hm) v (hra ▸ hv)
  have hlt : a < s.reg.heap.size := Registry.lt_size hv
  rcases hc with ⟨_, hb⟩ | ⟨h1, _, hb⟩ | ⟨h1, _, he⟩
  · refine hw.becomes hb hcount (fun _ => ⟨_, rfl⟩) ?_ hd (fun r hm _ => hr ▸ hm)
      (Nat.lt_of_lt_of_le hlt hb.grows)
    rintro w ⟨⟩
    exact ⟨by simp only; omega, hw.short a v hv, hknown⟩
  · refine hw.becomes hb hcount (fun hm' => ?_) (fun w hw' => ?_) hd (fun r hm _ => hr ▸ hm)
      (Nat.lt_of_lt_of_le hlt hb.grows)
    · -- the sender destroyed the last reference
      have := List.count_pos_iff.mpr hm'
      omega
    · split at hw'
      · cases hw'
      · cases hw'
        exact ⟨by omega, hw.short a v hv, hknown⟩
  · have hb : Becomes s.reg s'.reg s.reg.addrs a (some v) := by rw [he]; exact becomes_refl hw.ok hv
    refine hw.becomes hb hcount (fun _ => ⟨_, rfl⟩) ?_ hd (fun r hm _ => hr ▸ hm) (he ▸ hlt)
    rintro w ⟨⟩
    exact ⟨by omega, hw.short a v hv, hknown⟩

theorem Sys.Wf.attach {send : SendFn} {malloc : Bool} (hw : s.Wf)
    (h : step s (.attach name f send malloc) = some s') : s'.Wf := by
  obtain ⟨hf, hs, rfl | ⟨_, hb, hr⟩ | ⟨a, v, hl, _, hv, _, hb, hr⟩⟩ := step_attach hw.ok h
  · exact hw
  · refine hw.becomes hb (fun b _ => by rw [hs]) (fun _ => ⟨_, rfl⟩) ?_
      (by simpa only [Sys.attached, hr, List.map_cons] using List.nodup_cons.mpr ⟨hf, hw.distinct⟩) ?_
      (Registry.lt_size hb.val_self)
    · rintro w ⟨⟩
      refine ⟨by simp [hs, hw.count_new, newHandle], strlen_storedName, fun r hm hra => ?_⟩
      rw [hr] at hm
      rcases List.mem_cons.mp hm with rfl | hm
      · rfl
      · exact absurd (hra ▸ hw.placed r hm) (Nat.lt_irrefl _)
    · intro r hm hne
      rw [hr] at hm
      exact (List.mem_cons.mp hm).resolve_left (by rintro rfl; exact hne rfl)
  · have hfold := (handleLookup_some hw.ok hl).2
    rw [hv] at hfold
    obtain ⟨_, ⟨⟩, hfold⟩ := hfold
    have hstored := hw.fold_stored hv hfold
    refine hw.becomes hb (fun b _ => by rw [hs]) (fun _ => ⟨_, rfl⟩) ?_
      (by simpa only [Sys.attached, hr, List.map_cons] using List.nodup_cons.mpr ⟨hf, hw.distinct⟩) ?_
      (Registry.lt_size hb.val_self)
    · rintro w ⟨⟩
      refine ⟨hs ▸ hw.counted a v hv, hw.short a v hv, fun r hm hra => ?_⟩
      rw [hr] at hm
      rcases List.mem_cons.mp hm with rfl | hm
      · exact hstored
      · exact hw.known r hm v (hra ▸ hv)
    · intro r hm hne
      rw [hr] at hm
      exact (List.mem_cons.mp hm).resolve_left (by rintro rfl; exact hne rfl)

theorem Sys.Wf.detach (hw : s.Wf) (h : step s (.detach f) = some s') : s'.Wf := by
  obtain ⟨r, _, _, _, hs, hr, hc⟩ := step_detach hw.ok h
  have hsub : ∀ q ∈ s'.receivers, q ∈ s.receivers := fun q hq => List.mem_of_mem_erase (hr ▸ hq)
  have hd : s'.attached.Nodup := by
    refine List.Nodup.sublist ?_ hw.distinct
    rw [Sys.attached, hr]
    exact List.Sublist.map _ List.erase_sublist
  rcases hc with ⟨_, he⟩ | ⟨a, v, _, _, hv, _, hb⟩ | ⟨a, v, _, _, hv, h0, hb⟩
  · exact ⟨he ▸ hw.ok, by rw [hs, he]; exact hw.held, by rw [hs, he]; exact hw.counted,
      by rw [he]; exact hw.short, hd, fun q hq => by rw [he]; exact hw.known q (hsub q hq),
      fun q hq => by rw [he]; exact hw.placed q (hsub q hq)⟩
  · refine hw.becomes hb (fun b _ => by rw [hs]) (fun _ => ⟨_, rfl⟩) ?_ hd (fun q hq _ => hsub q hq)
      (Registry.lt_size hb.val_self)
    rintro w ⟨⟩
    exact ⟨hs ▸ hw.counted a v hv, hw.short a v hv,
      fun q hq hqa => hw.known q (hsub q hq) v (hqa ▸ hv)⟩
  · refine hw.becomes hb (fun b _ => by rw [hs]) (fun hm => ?_) (fun w hw' => ?_) hd
      (fun q hq _ => hsub q hq) (Nat.lt_of_lt_of_le (Registry.lt_size hv) hb.grows)
    · -- no sender holds a handle with refcount 0
      have := hw.counted a v hv
      have := List.count_pos_iff.mpr (hs ▸ hm)
      omega
    · split at hw'
      · cases hw'
      · cases hw'
        exact ⟨hs ▸ hw.counted a v hv, hw.short a v hv,
          fun q hq hqa => hw.known q (hsub q hq) v (hqa ▸ hv)⟩

theorem Sys.Wf.step {op : Op} (hw : s.Wf) (h : step s op = some s') : s'.Wf := by
  cases op with
  | create name malloc => exact hw.create h
  | destroy a => exact hw.destroy h
  | attach name f send malloc => exact hw.attach h
  | detach f => exact hw.detach h

theorem wf_init : Sys.Wf ⟨Registry.empty, [], []⟩ :=
  ⟨Registry.empty_ok, by simp, by simp [Registry.val?, Registry.empty],
    by simp [Registry.val?, Registry.empty], List.nodup_nil, by simp, by simp⟩

theorem wf_reachable (h : machine.Reachable s) : s.Wf := h.invariant wf_init Sys.Wf.step

end Evfilter.Handle
