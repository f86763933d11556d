import Evfilter.Handle.Lifetime

/-!
# Senders and receivers meet by name

A sender and a receiver that use one name should get the same handle, whoever comes first. They do unless the
name is longer than what `struct evf_handle` holds.
-/

namespace Evfilter.Handle
open Lib

/-- Events sent on the handle go to the filter, and another attach by that name is refused with 2. -/
def Delivers (r : Registry) (a : Addr) (name : CString) (f : FilterPtr) (send : SendFn) : Prop :=
  evfHandleSend r a = some (some send, f) ∧
    ∀ n g snd malloc, n.fold = name.fold → (evfHandleAttach r n g snd malloc).2 = (2, f)

/-- A create by one name, then an attach by the other. -/
def CreateConnects (r : Registry) (n1 n2 : CString) (f : FilterPtr) (send : SendFn) (malloc : Bool) : Prop :=
  ∃ r₁ a r₂, evfHandleCreate r n1 true = (r₁, some a) ∧
    evfHandleAttach r₁ n2 f send malloc = (r₂, 0, f) ∧ Delivers r₂ a n1 f send

/-- An attach by one name, then a create by the other. -/
def AttachConnects (r : Registry) (n1 n2 : CString) (f : FilterPtr) (send : SendFn) (malloc : Bool) : Prop :=
  ∃ r₁ a r₂, evfHandleAttach r n2 f send true = (r₁, 0, f) ∧
    evfHandleCreate r₁ n1 malloc = (r₂, some a) ∧ Delivers r₂ a n1 f send

variable {s : Sys} {r r₁ r₂ : Registry} {a : Addr} {v : EvfHandle} {n1 n2 name : CString} {f : FilterPtr}
  {send : SendFn} {malloc : Bool}

theorem delivers_of_first (hr : r.Ok) (hh : r.addrs.head? = some a) (hv : r.val? a = some v)
    (hn : v.name.fold = name.fold) (hf : v.filter = some f) (hs : v.send = some send) :
    Delivers r a name f send := by
  refine ⟨by simp [evfHandleSend, hv, hf, hs], fun n g snd m hfold => ?_⟩
  have hl := handleLookup_first hr hh hv (hn.trans hfold.symm)
  simp [evfHandleAttach, hl, hv, hf]

/-- The second call finds the handle that the first one put at the head of the list. -/
theorem Becomes.finds_new {o : Option EvfHandle} (hb : Becomes r r₁ (r.heap.size :: r.addrs) r.heap.size o)
    (ho : o = some v) (hn : v.name.fold = name.fold) : handleLookup r₁ name = some r.heap.size :=
  handleLookup_first hb.ok (by rw [hb.addrs]; rfl) (hb.val_self.trans ho) hn

theorem CreateConnects.of_short (hr : r.Ok) (h : n1.strlen < evfHandleMax) (hn : n1.fold = n2.fold)
    (hl : handleLookup r n1 = none) : CreateConnects r n1 n2 f send malloc := by
  rcases create_cases hr n1 true with ⟨a, v, _, hl', _⟩ | ⟨_, hm, _⟩ | ⟨_, _, r₁, he₁, hb₁⟩
  · simp [hl] at hl'
  · cases hm
  have hs : (newHandle n1).name = n1 := storedName_of_short h
  have hl₁ : handleLookup r₁ n2 = some r.heap.size := hb₁.finds_new rfl (by simp only [hs, hn])
  rcases attach_cases hb₁.ok n2 f send malloc with ⟨hl', _⟩ | ⟨hl', _⟩ |
    ⟨a, v, r₂, hl', _, hv, _, he₂, hb₂⟩ | ⟨a, v, g, hl', hv, hg, _⟩
  · simp [hl₁] at hl'
  · simp [hl₁] at hl'
  · obtain rfl : r.heap.size = a := Option.some.inj (hl₁.symm.trans hl')
    cases hb₁.val_self.symm.trans hv
    refine ⟨r₁, r.heap.size, r₂, he₁, he₂, delivers_of_first hb₂.ok ?_ hb₂.val_self ?_ rfl rfl⟩
    · rw [hb₂.addrs, hb₁.addrs]
      rfl
    · simp only [hs]
  · obtain rfl : r.heap.size = a := Option.some.inj (hl₁.symm.trans hl')
    cases hb₁.val_self.symm.trans hv
    cases hg

theorem AttachConnects.of_short (hr : r.Ok) (h : n1.strlen < evfHandleMax) (hn : n1.fold = n2.fold)
    (hl : handleLookup r n2 = none) : AttachConnects r n1 n2 f send malloc := by
  rcases attach_cases hr n2 f send true with ⟨_, hm, _⟩ | ⟨_, _, r₁, he₁, hb₁⟩ |
    ⟨a, v, _, hl', _⟩ | ⟨a, v, g, hl', _⟩
  · cases hm
  · have hs : (newHandle n2).name = n2 := storedName_of_short (CString.strlen_eq_of_fold hn ▸ h)
    have hl₁ : handleLookup r₁ n1 = some r.heap.size := hb₁.finds_new rfl (by simp only [hs, hn])
    rcases create_cases hb₁.ok n1 malloc with ⟨a, v, r₂, hl', _, hv, he₂, hb₂⟩ | ⟨hl', _⟩ | ⟨hl', _⟩
    · obtain rfl : r.heap.size = a := Option.some.inj (hl₁.symm.trans hl')
      cases hb₁.val_self.symm.trans hv
      refine ⟨r₁, r.heap.size, r₂, he₁, he₂, delivers_of_first hb₂.ok ?_ hb₂.val_self ?_ rfl rfl⟩
      · rw [hb₂.addrs, hb₁.addrs]
        rfl
      · simp only [hs, hn]
    · simp [hl₁] at hl'
    · simp [hl₁] at hl'
  · simp [hl] at hl'
  · simp [hl] at hl'

/-! ## Names that do not fit -/

def Registry.Short (r : Registry) : Prop := ∀ a v, r.val? a = some v → v.name.strlen < evfHandleMax

theorem Registry.Short.lookup (hr : r.Ok) (hs : r.Short) (h : evfHandleMax ≤ name.strlen) :
    handleLookup r name = none := by
  cases hl : handleLookup r name with
  | none => rfl
  | some a =>
      obtain ⟨_, v, hv, hn⟩ := handleLookup_some hr hl
      have hlt := hs a v hv
      rw [CString.strlen_eq_of_fold hn] at hlt
      exact absurd hlt (Nat.not_lt_of_le h)

theorem Registry.Short.push {as : List Addr} (hs : r.Short) (hb : Becomes r r₁ as a (some v))
    (hn : v.name = storedName name) : r₁.Short := by
  intro b w hw
  rw [hb.val] at hw
  split at hw
  · cases hw
    rw [hn]
    exact strlen_storedName
  · exact hs b w hw

/-- Each call allocates a handle of its own. -/
theorem CreateConnects.short (hr : r.Ok) (hs : r.Short) (hn : n1.fold = n2.fold)
    (h : CreateConnects r n1 n2 f send malloc) : n1.strlen < evfHandleMax := by
  by_contra hlong
  have hlong := Nat.le_of_not_lt hlong
  obtain ⟨r₁, a, r₂, hcreate, hattach, hd, _⟩ := h
  rcases create_cases hr n1 true with ⟨i, v, _, hl, _⟩ | ⟨_, hm, _⟩ | ⟨_, _, q, he, hb⟩
  · simp [hs.lookup hr hlong] at hl
  · cases hm
  cases he.symm.trans hcreate
  have hl := (hs.push hb rfl).lookup hb.ok (CString.strlen_eq_of_fold hn ▸ hlong)
  have hne : r.heap.size ≠ r₁.heap.size := Nat.ne_of_lt (Registry.lt_size hb.val_self)
  rcases attach_cases hb.ok n2 f send malloc with ⟨_, _, he'⟩ | ⟨_, _, q, he', hb'⟩ |
    ⟨i, v, _, hl', _⟩ | ⟨i, v, _, hl', _⟩
  · cases he'.symm.trans hattach
  · cases he'.symm.trans hattach
    -- the filter is on the second handle
    simp [evfHandleSend, hb'.val_ne hne, hb.val_self, newHandle] at hd
  · simp [hl] at hl'
  · simp [hl] at hl'

theorem AttachConnects.short (hr : r.Ok) (hs : r.Short) (hn : n1.fold = n2.fold)
    (h : AttachConnects r n1 n2 f send malloc) : n1.strlen < evfHandleMax := by
  by_contra hlong
  have hlong := Nat.le_of_not_lt hlong
  obtain ⟨r₁, a, r₂, hattach, hcreate, hd, _⟩ := h
  have hl := hs.lookup hr (show evfHandleMax ≤ n2.strlen from CString.strlen_eq_of_fold hn ▸ hlong)
  rcases attach_cases hr n2 f send true with ⟨_, hm, _⟩ | ⟨_, _, q, he, hb⟩ |
    ⟨i, v, _, hl', _⟩ | ⟨i, v, _, hl', _⟩
  · cases hm
  · cases he.symm.trans hattach
    have hl₁ := (hs.push hb rfl).lookup hb.ok hlong
    rcases create_cases hb.ok n1 malloc with ⟨i, v, _, hl', _⟩ | ⟨_, _, he'⟩ | ⟨_, _, q, he', hb'⟩
    · simp [hl₁] at hl'
    · cases he'.symm.trans hcreate
    · cases he'.symm.trans hcreate
      simp [evfHandleSend, hb'.val_self, newHandle] at hd
  · simp [hl] at hl'
  · simp [hl] at hl'

/-! ## Runs -/

/-- For names that fit, and only for these, a sender and a receiver get the same handle in either order of the
calls, from any reachable registry without a handle of that name. In a run with such names no two handles of the
list ever have the same name. -/
theorem connects_iff_short (hs : machine.Reachable s) (hn : n1.fold = n2.fold)
    (hl : handleLookup s.reg n1 = none) :
    (CreateConnects s.reg n1 n2 f send malloc ↔ n1.strlen < evfHandleMax) ∧
    (AttachConnects s.reg n1 n2 f send malloc ↔ n1.strlen < evfHandleMax) ∧
    ∀ ops, machine.Along ShortName machine.init ops →
      machine.Throughout (fun s => UniqueNames s.reg) machine.init ops := by
  have hw := wf_reachable hs
  have hl2 : handleLookup s.reg n2 = none := by
    rw [← hl, handleLookup_eq hw.ok, handleLookup_eq hw.ok]
    exact List.find?_congr fun a _ => by simp [Registry.Named, hn]
  refine ⟨⟨CreateConnects.short hw.ok hw.short hn, fun h => .of_short hw.ok h hn hl⟩,
    ⟨AttachConnects.short hw.ok hw.short hn, fun h => .of_short hw.ok h hn hl2⟩, fun ops h => ?_⟩
  exact (h.throughout (J := fun s => s.Wf ∧ UniqueNames s.reg) ⟨wf_init, uniqueNames_init⟩
    fun hj hc hs => ⟨hj.1.step hs, hj.2.step hj.1 hc hs⟩).mono fun _ hj => hj.2

def nameD : CString := ⟨[100], by decide⟩

/-- The name of `nameD` in upper case. -/
def upperD : CString := ⟨[68], by decide⟩

theorem threeHandles_connects : CreateConnects threeHandles.reg nameD upperD 7 1 true ∧
    AttachConnects threeHandles.reg nameD upperD 7 1 true :=
  have h := connects_iff_short threeHandles_reachable (show nameD.fold = upperD.fold by decide) (by decide)
  ⟨h.1.mpr (by decide), h.2.1.mpr (by decide)⟩

/-- 64 bytes -/
def longName : CString := ⟨List.replicate 64 97, by decide⟩

/-- The handle allocated for a long name does not have this name. -/
theorem not_connected : ¬ ∀ (s : Sys) (n1 n2 : CString) (f : FilterPtr) (send : SendFn) (malloc : Bool),
    machine.Reachable s → n1.fold = n2.fold → handleLookup s.reg n1 = none →
      CreateConnects s.reg n1 n2 f send malloc ∧ AttachConnects s.reg n1 n2 f send malloc ∧
        UniqueNames s.reg := by
  intro h
  have hc := (h machine.init longName longName 7 1 true .init rfl rfl).1
  exact absurd (hc.short wf_init.ok wf_init.short rfl) (by decide)

end Evfilter.Handle
