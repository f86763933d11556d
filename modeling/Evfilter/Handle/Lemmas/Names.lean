import Evfilter.Handle.Lemmas.Invariants

/-!
# One handle for each name

A name of `EVF_HANDLE_MAX` bytes or more is stored truncated and looked up as it is, so it is never found
again. In a run without such names no two handles of the list have the same name.
-/

namespace Evfilter.Handle
open Lib

def Op.name? : Op → Option CString
  | .create name _ => some name
  | .attach name _ _ _ => some name
  | _ => none

/-- The name in the call, if any, fits into `struct evf_handle`. -/
def ShortName (_ : Sys) (op : Op) : Prop := ∀ name ∈ op.name?, name.strlen < evfHandleMax

/-- The name of a handle as `strcasecmp` sees it. -/
def Registry.nameOf (r : Registry) (a : Addr) : Option (List UInt8) := (r.val? a).map (·.name.fold)

def UniqueNames (r : Registry) : Prop :=
  ∀ a ∈ r.addrs, ∀ b ∈ r.addrs, r.nameOf a = r.nameOf b → a = b

variable {s s' : Sys} {r r' : Registry} {a b : Addr} {v : EvfHandle} {name : CString} {op : Op}
  {as : List Addr} {o : Option EvfHandle}

theorem Registry.nameOf_eq (hv : r.val? a = some v) : r.nameOf a = some v.name.fold := by
  simp [nameOf, hv]

theorem Becomes.nameOf_ne (h : Becomes r r' as a o) (hb : b ≠ a) : r'.nameOf b = r.nameOf b := by
  rw [Registry.nameOf, h.val_ne hb, Registry.nameOf]

theorem Becomes.nameOf (h : Becomes r r' as a (some v)) : ∀ w, r.val? a = some w → w.name = v.name →
    ∀ b, r'.nameOf b = r.nameOf b := by
  intro w hw hn b
  by_cases hb : b = a
  · rw [hb, Registry.nameOf_eq h.val_self, Registry.nameOf_eq hw, hn]
  · exact h.nameOf_ne hb

/-! ## Preservation -/

/-- Some handles may be gone, and none is renamed. -/
theorem UniqueNames.mono (h : UniqueNames r) (hsub : ∀ b ∈ r'.addrs, b ∈ r.addrs)
    (hn : ∀ b ∈ r'.addrs, r'.nameOf b = r.nameOf b) : UniqueNames r' :=
  fun a ha b hb hab => h a (hsub a ha) b (hsub b hb) (by rw [← hn a ha, ← hn b hb, hab])

theorem UniqueNames.update (h : UniqueNames r) (hb : Becomes r r' r.addrs a (some v))
    (hw : ∃ w, r.val? a = some w ∧ w.name = v.name) : UniqueNames r' := by
  obtain ⟨w, hw, hn⟩ := hw
  exact h.mono (fun b hm => hb.addrs ▸ hm) fun b _ => hb.nameOf w hw hn b

theorem UniqueNames.unlink (h : UniqueNames r) (hv : r.val? a = some v)
    (hb : Becomes r r' (unlinked a r.addrs) a (if a ∈ r.addrs.tail then none else some v)) :
    UniqueNames r' := by
  refine h.mono (fun b hm => (unlinked_sublist _).subset (hb.addrs ▸ hm)) fun b hm => ?_
  split at hb
  · -- the live handles of the new list are those other than `a`
    refine hb.nameOf_ne ?_
    rintro rfl
    obtain ⟨w, hw⟩ := hb.ok.val hm
    simp [hb.val_self] at hw
  · exact hb.nameOf v hv rfl b

theorem UniqueNames.push (h : UniqueNames r) (hr : r.Ok) (hl : handleLookup r name = none)
    (hb : Becomes r r' (r.heap.size :: r.addrs) r.heap.size (some v)) (hn : v.name = name) :
    UniqueNames r' := by
  have hold : ∀ b ∈ r.addrs, b ≠ r.heap.size ∧ r'.nameOf b = r.nameOf b ∧
      r.nameOf b ≠ some name.fold := by
    intro b hm
    obtain ⟨w, hw⟩ := hr.val hm
    have hne : b ≠ r.heap.size := Nat.ne_of_lt (Registry.lt_size hw)
    refine ⟨hne, hb.nameOf_ne hne, ?_⟩
    rw [Registry.nameOf_eq hw]
    simpa using handleLookup_none hr hl hm hw
  have hnew : r'.nameOf r.heap.size = some name.fold := by rw [Registry.nameOf_eq hb.val_self, hn]
  intro a ha b hb' hab
  rw [hb.addrs] at ha hb'
  rcases List.mem_cons.mp ha with rfl | ha <;> rcases List.mem_cons.mp hb' with rfl | hb'
  · rfl
  · exact absurd (by rw [← (hold b hb').2.1, ← hab, hnew]) (hold b hb').2.2
  · exact absurd (by rw [← (hold a ha).2.1, hab, hnew]) (hold a ha).2.2
  · exact h a ha b hb' (by rw [← (hold a ha).2.1, ← (hold b hb').2.1, hab])

theorem UniqueNames.step (h : UniqueNames s.reg) (hw : s.Wf) (hc : ShortName s op)
    (hs : step s op = some s') : UniqueNames s'.reg := by
  cases op with
  | create name malloc =>
      have hn : storedName name = name := storedName_of_short (hc name rfl)
      rcases step_create hw.ok hs with ⟨a, v, _, _, hv, hb, _⟩ | rfl | ⟨hl, hb, _⟩
      · exact h.update hb ⟨v, hv, rfl⟩
      · exact h
      · exact h.push hw.ok hl hb hn
  | destroy a =>
      obtain ⟨_, _, _, v, hv, ⟨_, hb⟩ | ⟨_, _, hb⟩ | ⟨_, _, he⟩⟩ := step_destroy hw hs
      · exact h.update hb ⟨v, hv, rfl⟩
      · exact h.unlink hv hb
      · rw [he]
        exact h
  | attach name f send malloc =>
      have hn : storedName name = name := storedName_of_short (hc name rfl)
      obtain ⟨_, _, rfl | ⟨hl, hb, _⟩ | ⟨a, v, _, _, hv, _, hb, _⟩⟩ := step_attach hw.ok hs
      · exact h
      · exact h.push hw.ok hl hb hn
      · exact h.update hb ⟨v, hv, rfl⟩
  | detach f =>
      obtain ⟨_, _, _, _, _, _, ⟨_, he⟩ | ⟨a, v, _, _, hv, _, hb⟩ | ⟨a, v, _, _, hv, _, hb⟩⟩ :=
        step_detach hw.ok hs
      · rw [he]
        exact h
      · exact h.update hb ⟨v, hv, rfl⟩
      · exact h.unlink hv hb

theorem uniqueNames_init : UniqueNames machine.init.reg := by
  simp [UniqueNames, machine, Registry.empty, Registry.addrs, Registry.members, Heap.toList, Heap.size,
    Heap.empty, Heap.follow]

/-! ## Lookup -/

theorem UniqueNames.lookup (h : UniqueNames r) (hr : r.Ok) (ha : a ∈ r.addrs) (hv : r.val? a = some v)
    (hn : v.name.fold = name.fold) : handleLookup r name = some a := by
  cases hl : handleLookup r name with
  | none => exact absurd hn (handleLookup_none hr hl ha hv)
  | some b =>
      obtain ⟨hb, w, hw, hwn⟩ := handleLookup_some hr hl
      rw [h b hb a ha]
      rw [Registry.nameOf_eq hw, Registry.nameOf_eq hv, hwn, hn]

end Evfilter.Handle
