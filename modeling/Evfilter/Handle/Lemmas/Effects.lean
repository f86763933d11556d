import Evfilter.Handle.Lemmas.View
import Evfilter.Handle.System

/-!
# One lemma for each call

Every call changes the fields of at most one handle. `Becomes` names that handle, its new fields and the new
list, and `step_cases` says which calls change what.
-/

namespace Evfilter.Handle
open Lib

/-- `r'` has the list `as` and the fields of `r`, except that those of `a` are `v`. -/
structure Becomes (r r' : Registry) (as : List Addr) (a : Addr) (v : Option EvfHandle) : Prop where
  ok : r'.Ok
  addrs : r'.addrs = as
  val : ∀ b, r'.val? b = if b = a then v else r.val? b
  grows : r.heap.size ≤ r'.heap.size
  /-- No other handle is new. -/
  old : ∀ b, b ≠ a → b < r'.heap.size → b < r.heap.size

variable {r r' : Registry} {a b : Addr} {v : EvfHandle} {name : CString} {as : List Addr}
  {o : Option EvfHandle}

theorem Becomes.val_self (h : Becomes r r' as a o) : r'.val? a = o := by rw [h.val, if_pos rfl]

theorem Becomes.val_ne (h : Becomes r r' as a o) (hb : b ≠ a) : r'.val? b = r.val? b := by
  rw [h.val, if_neg hb]

theorem becomes_refl (hr : r.Ok) (hv : r.val? a = o) : Becomes r r r.addrs a o :=
  ⟨hr, rfl, fun b => by split <;> simp_all, Nat.le_refl _, fun _ _ h => h⟩

theorem becomes_setVal (hr : r.Ok) (hv : r.val? a = some v) (f : EvfHandle → EvfHandle) :
    Becomes r { r with heap := r.heap.setVal a f } r.addrs a (some (f v)) := by
  refine ⟨hr.setVal f, addrs_setVal f hr, fun b => ?_, by simp, by simp⟩
  rw [val?_setVal]
  by_cases hb : b = a
  · simp [hb, hv]
  · simp [hb, Ne.symm hb]

theorem becomes_free (hr : r.Ok) (hv : r.val? a = some v) :
    Becomes r (handleFree r a) (unlinked a r.addrs) a (if a ∈ r.addrs.tail then none else some v) := by
  obtain ⟨hok, has, hval⟩ := handleFree_spec (a := a) hr
  refine ⟨hok, has, fun b => ?_, Nat.le_of_eq size_handleFree.symm, by simp [size_handleFree]⟩
  rw [hval]
  by_cases hb : b = a
  · subst hb; simp [hv]
  · simp [hb]

theorem becomes_alloc (hr : r.Ok) (f : EvfHandle → EvfHandle) :
    Becomes r { (handleAlloc r name true).1 with
        heap := (handleAlloc r name true).1.heap.setVal r.heap.size f }
      (r.heap.size :: r.addrs) r.heap.size (some (f (newHandle name))) := by
  have hv : (handleAlloc r name true).1.val? r.heap.size = some (newHandle name) := by
    rw [val?_alloc, if_pos rfl]
  have h := becomes_setVal hr.alloc hv f
  refine ⟨h.ok, h.addrs.trans (addrs_alloc hr), fun b => ?_, by simp [handleAlloc_true], ?_⟩
  · rw [h.val, val?_alloc]
    split <;> rfl
  · intro b hne hlt
    have hlt : b < r.heap.size + 1 := by simpa [handleAlloc_true] using hlt
    exact Nat.lt_of_le_of_ne (Nat.le_of_lt_succ hlt) hne

/-! ## The four calls -/

/-- `evf_handle_create` counts a sender on the handle it finds or allocates. -/
theorem create_cases (hr : r.Ok) (name : CString) (malloc : Bool) :
    (∃ a v r', handleLookup r name = some a ∧ a ∈ r.addrs ∧ r.val? a = some v ∧
      evfHandleCreate r name malloc = (r', some a) ∧
      Becomes r r' r.addrs a (some { v with refcount := v.refcount + 1 })) ∨
    (handleLookup r name = none ∧ malloc = false ∧ evfHandleCreate r name malloc = (r, none)) ∨
    (handleLookup r name = none ∧ malloc = true ∧ ∃ r',
      evfHandleCreate r name malloc = (r', some r.heap.size) ∧
      Becomes r r' (r.heap.size :: r.addrs) r.heap.size
        (some { newHandle name with refcount := 1 })) := by
  cases hl : handleLookup r name with
  | some a =>
      obtain ⟨ha, v, hv, _⟩ := handleLookup_some hr hl
      exact Or.inl ⟨a, v, _, rfl, ha, hv, by simp [evfHandleCreate, hl]; rfl, becomes_setVal hr hv _⟩
  | none =>
      cases malloc with
      | false => exact Or.inr (Or.inl ⟨rfl, rfl, by simp [evfHandleCreate, hl, handleAlloc]⟩)
      | true =>
          exact Or.inr (Or.inr ⟨rfl, rfl, _, by simp only [evfHandleCreate, hl]; rfl,
            becomes_alloc hr fun v => { v with refcount := v.refcount + 1 }⟩)

theorem destroy_cases (hr : r.Ok) (hv : r.val? a = some v) : ∃ r', evfHandleDestroy r a = some r' ∧
    ((1 < v.refcount ∧ Becomes r r' r.addrs a (some { v with refcount := v.refcount - 1 })) ∨
    (v.refcount ≤ 1 ∧ v.filter = none ∧
      Becomes r r' (unlinked a r.addrs) a (if a ∈ r.addrs.tail then none else some v)) ∨
    (v.refcount ≤ 1 ∧ v.filter ≠ none ∧ r' = r)) := by
  by_cases hc : 1 < v.refcount
  · exact ⟨_, by simp [evfHandleDestroy, hv, hc]; rfl, Or.inl ⟨hc, becomes_setVal hr hv _⟩⟩
  · by_cases hf : v.filter = none
    · exact ⟨handleFree r a, by simp [evfHandleDestroy, hv, hc, hf],
        Or.inr (Or.inl ⟨Nat.le_of_not_lt hc, hf, becomes_free hr hv⟩)⟩
    · exact ⟨r, by simp [evfHandleDestroy, hv, hc, hf],
        Or.inr (Or.inr ⟨Nat.le_of_not_lt hc, hf, rfl⟩)⟩

theorem detach_cases (hr : r.Ok) :
    (handleLookup r name = none ∧ evfHandleDetach r name = r) ∨
    (∃ a v, handleLookup r name = some a ∧ a ∈ r.addrs ∧ r.val? a = some v ∧ 0 < v.refcount ∧
      Becomes r (evfHandleDetach r name) r.addrs a (some { v with filter := none })) ∨
    (∃ a v, handleLookup r name = some a ∧ a ∈ r.addrs ∧ r.val? a = some v ∧ v.refcount = 0 ∧
      Becomes r (evfHandleDetach r name) (unlinked a r.addrs) a
        (if a ∈ r.addrs.tail then none else some v)) := by
  cases hl : handleLookup r name with
  | none => exact Or.inl ⟨rfl, by simp [evfHandleDetach, hl]⟩
  | some a =>
      obtain ⟨ha, v, hv, _⟩ := handleLookup_some hr hl
      rcases Nat.eq_zero_or_pos v.refcount with h0 | h0
      · refine Or.inr (Or.inr ⟨a, v, rfl, ha, hv, h0, ?_⟩)
        simpa [evfHandleDetach, hl, hv, h0] using becomes_free hr hv
      · refine Or.inr (Or.inl ⟨a, v, rfl, ha, hv, h0, ?_⟩)
        simpa [evfHandleDetach, hl, hv, h0] using becomes_setVal hr hv _

theorem attach_cases (hr : r.Ok) (name : CString) (f : FilterPtr) (send : SendFn) (malloc : Bool) :
    (handleLookup r name = none ∧ malloc = false ∧ evfHandleAttach r name f send malloc = (r, 1, f)) ∨
    (handleLookup r name = none ∧ malloc = true ∧ ∃ r',
      evfHandleAttach r name f send malloc = (r', 0, f) ∧
      Becomes r r' (r.heap.size :: r.addrs) r.heap.size
        (some { newHandle name with filter := some f, send := some send })) ∨
    (∃ a v r', handleLookup r name = some a ∧ a ∈ r.addrs ∧ r.val? a = some v ∧ v.filter = none ∧
      evfHandleAttach r name f send malloc = (r', 0, f) ∧
      Becomes r r' r.addrs a (some { v with filter := some f, send := some send })) ∨
    (∃ a v g, handleLookup r name = some a ∧ r.val? a = some v ∧ v.filter = some g ∧
      evfHandleAttach r name f send malloc = (r, 2, g)) := by
  cases hl : handleLookup r name with
  | none =>
      cases malloc with
      | false => exact Or.inl ⟨rfl, rfl, by simp [evfHandleAttach, hl, handleAlloc]⟩
      | true =>
          exact Or.inr (Or.inl ⟨rfl, rfl, _, by simp only [evfHandleAttach, hl]; rfl,
            becomes_alloc hr fun v => { v with filter := some f, send := some send }⟩)
  | some a =>
      obtain ⟨ha, v, hv, _⟩ := handleLookup_some hr hl
      cases hf : v.filter with
      | none =>
          exact Or.inr (Or.inr (Or.inl ⟨a, v, setReceiver r a f send, rfl, ha, hv, hf,
            by simp only [evfHandleAttach, hl, hv, Option.bind_some, hf],
            becomes_setVal hr hv fun v => { v with filter := some f, send := some send }⟩))
      | some g => exact Or.inr (Or.inr (Or.inr ⟨a, v, g, rfl, hv, hf, by simp [evfHandleAttach, hl, hv, hf]⟩))

end Evfilter.Handle
