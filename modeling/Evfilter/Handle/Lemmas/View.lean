import Evfilter.Handle.Registry
import Mathlib.Data.List.Find

/-!
# What the registry functions do to the list and to the fields

The list is seen as the addresses in their order (`addrs`) and the fields of the live handles (`val?`). Each
function is specified by its effect on these two, so that nothing above reads the heap.
-/

namespace Evfilter.Handle
open Lib

/-- The pointers from `handles` on form a list. -/
def Registry.Ok (r : Registry) : Prop := ∃ l, r.heap.Chain r.handles l

variable {r : Registry} {a b c : Addr} {v : EvfHandle} {name : CString}

theorem Registry.Ok.chain (hr : r.Ok) : r.heap.Chain r.handles r.members := by
  obtain ⟨l, hl⟩ := hr
  rw [Registry.members, hl.toList]
  exact hl

theorem Registry.Ok.nodup (hr : r.Ok) : r.addrs.Nodup := hr.chain.nodup

theorem Registry.empty_ok : Registry.empty.Ok := ⟨[], rfl⟩

theorem Registry.members_of_chain {l : List (Addr × EvfHandle)} (hl : r.heap.Chain r.handles l) :
    r.members = l := hl.toList

theorem Registry.Ok.mem_members (hr : r.Ok) : (a, v) ∈ r.members ↔ a ∈ r.addrs ∧ r.val? a = some v := by
  constructor
  · intro hx
    obtain ⟨n, hn⟩ := hr.chain.get hx
    exact ⟨List.mem_map_of_mem hx, by simp [val?, hn]⟩
  · rintro ⟨ha, hv⟩
    obtain ⟨w, n, hx, hn⟩ := hr.chain.get_of_addr ha
    simp only [val?, hn, Option.map_some, Option.some.injEq] at hv
    exact hv ▸ hx

theorem Registry.Ok.val (hr : r.Ok) (ha : a ∈ r.addrs) : ∃ v, r.val? a = some v := by
  obtain ⟨w, n, _, hn⟩ := hr.chain.get_of_addr ha
  exact ⟨w, by simp [val?, hn]⟩

theorem Registry.Ok.handles_eq (hr : r.Ok) : r.handles = r.addrs.head? := by
  rw [hr.chain.first_eq, addrs, List.head?_map]

theorem Registry.lt_size (hv : r.val? a = some v) : a < r.heap.size := by
  obtain ⟨c, hc, _⟩ := Option.map_eq_some_iff.mp hv
  exact Heap.lt_size_of_get? hc

/-! ## Lookup -/

/-- The handle at `a` goes by this name. -/
def Registry.Named (r : Registry) (name : CString) (a : Addr) : Bool :=
  (r.val? a).any fun v => v.name.fold == name.fold

theorem handleLookup_eq (hr : r.Ok) : handleLookup r name = r.addrs.find? (r.Named name) := by
  have hc := hr.chain
  have hfold : ∀ v : EvfHandle,
      (CString.strcasecmp v.name name == 0) = (v.name.fold == name.fold) := by
    intro v
    rw [Bool.eq_iff_iff, beq_iff_eq, beq_iff_eq, CString.strcasecmp_eq_zero]
  have hscan := Heap.scan_val (f := fun v : EvfHandle => CString.strcasecmp v.name name == 0) hc
  rw [handleLookup, hscan, Registry.addrs, Heap.addrs, List.find?_map]
  congr 1
  apply List.find?_congr
  rintro ⟨a, v⟩ hx
  simp [Registry.Named, (hr.mem_members.mp hx).2, hfold]

theorem handleLookup_some (hr : r.Ok) (hl : handleLookup r name = some a) :
    a ∈ r.addrs ∧ ∃ v, r.val? a = some v ∧ v.name.fold = name.fold := by
  rw [handleLookup_eq hr] at hl
  have hn := List.find?_some hl
  refine ⟨List.mem_of_find?_eq_some hl, ?_⟩
  cases hv : r.val? a with
  | none => simp [Registry.Named, hv] at hn
  | some v => exact ⟨v, rfl, by simpa [Registry.Named, hv] using hn⟩

theorem handleLookup_none (hr : r.Ok) (hl : handleLookup r name = none) (ha : a ∈ r.addrs)
    (hv : r.val? a = some v) : v.name.fold ≠ name.fold := by
  rw [handleLookup_eq hr] at hl
  simpa [Registry.Named, hv] using List.find?_eq_none.mp hl a ha

/-! ## Writing a field -/

section SetVal

variable (f : EvfHandle → EvfHandle)

theorem Registry.Ok.setVal (hr : r.Ok) : Registry.Ok { r with heap := r.heap.setVal a f } :=
  ⟨_, hr.chain.setVal f⟩

theorem addrs_setVal (hr : r.Ok) : Registry.addrs { r with heap := r.heap.setVal a f } = r.addrs := by
  rw [Registry.addrs, Registry.members_of_chain (hr.chain.setVal f), Registry.addrs, Heap.addrs,
    Heap.addrs, List.map_map]
  apply List.map_congr_left
  intro x _
  simp only [Function.comp_apply]
  split <;> rfl

theorem val?_setVal : Registry.val? { r with heap := r.heap.setVal a f } b =
    if a = b then (r.val? b).map f else r.val? b := by
  simp only [Registry.val?, Heap.get?_setVal]
  split
  · cases r.heap.get? b <;> rfl
  · rfl

end SetVal

/-! ## Allocation -/

/-- A handle as `handle_alloc` leaves it. -/
def newHandle (name : CString) : EvfHandle :=
  { name := storedName name, refcount := 0, filter := none, send := none }

theorem handleAlloc_true : handleAlloc r name true =
    (⟨(r.heap.alloc (newHandle name) r.handles).1, some r.heap.size⟩, some r.heap.size) := rfl

theorem Registry.Ok.alloc (hr : r.Ok) : (handleAlloc r name true).1.Ok := ⟨_, hr.chain.push⟩

theorem addrs_alloc (hr : r.Ok) : (handleAlloc r name true).1.addrs = r.heap.size :: r.addrs := by
  rw [handleAlloc_true, Registry.addrs, Registry.members_of_chain hr.chain.push]
  rfl

theorem val?_alloc : (handleAlloc r name true).1.val? b =
    if b = r.heap.size then some (newHandle name) else r.val? b := by
  rw [handleAlloc_true]
  simp only [Registry.val?]
  split
  · rename_i hb
    rw [hb, Heap.get?_alloc_new]
    rfl
  · rename_i hb
    rw [Heap.get?_alloc_old _ _ hb]

/-! ## Unlinking -/

/-- What `handle_free` leaves of the list. The first handle has no predecessor and stays. The predecessor of
the second is `handles` itself, and the assignment to `handles` drops it. -/
def unlinked (a : Addr) : List Addr → List Addr
  | x :: y :: l => if y = a then l else x :: (y :: l).erase a
  | l => l

theorem unlinked_of_notMem_tail {l : List Addr} (h : a ∉ l.tail) : unlinked a l = l := by
  match l with
  | [] => rfl
  | [_] => rfl
  | x :: y :: l =>
      have hne : y ≠ a := by rintro rfl; simp at h
      rw [unlinked, if_neg hne, List.erase_of_not_mem (l := y :: l) h]

theorem unlinked_second {x : Addr} {l : List Addr} : unlinked a (x :: a :: l) = l := by
  rw [unlinked, if_pos rfl]

theorem unlinked_later (x : Addr) {l₁ : List Addr} (l₂ : List Addr) (hne : l₁ ≠ []) (h : a ∉ l₁) :
    unlinked a (x :: (l₁ ++ a :: l₂)) = x :: (l₁ ++ l₂) := by
  cases l₁ with
  | nil => exact absurd rfl hne
  | cons y l₁ =>
      have hy : y ≠ a := by rintro rfl; simp at h
      rw [List.cons_append, unlinked, if_neg hy, ← List.cons_append, List.erase_append_right _ h,
        List.erase_cons_head]

theorem unlinked_sublist : (l : List Addr) → (unlinked a l).Sublist l
  | [] => List.Sublist.refl _
  | [_] => List.Sublist.refl _
  | x :: y :: l => by
      rw [unlinked]
      split
      · exact (List.sublist_cons_self y l).trans (List.sublist_cons_self x _)
      · exact List.Sublist.cons_cons x List.erase_sublist

/-- Only a handle with a predecessor is found. -/
theorem handleFree_of_notMem_tail (hr : r.Ok) (h : a ∉ r.addrs.tail) : handleFree r a = r := by
  have hscan : r.heap.scan (fun c => c.next == some a) r.handles = none := by
    rw [Heap.scan, Heap.scanPrev_none hr.chain]
    intro b hb c hc
    rcases hr.chain.next hb hc with ⟨d, hd, hn⟩ | hn
    · have hda : d ≠ a := by
        rintro rfl
        exact h (by simpa [Registry.addrs, Heap.addrs, List.map_tail] using hd)
      simp [hn, hda]
    · simp [hn]
  simp [handleFree, hscan]

theorem handleFree_of_pred (hr : r.Ok) {l₁ l₂ : List (Addr × EvfHandle)} {w : EvfHandle}
    {n : Option Addr} (hm : r.members = l₁ ++ (b, w) :: (a, v) :: l₂)
    (ha : r.heap.get? a = some ⟨v, n, true⟩) :
    handleFree r a = if some b = r.handles then ⟨r.heap.free a, n⟩
      else ⟨(r.heap.setNext b n).free a, r.handles⟩ := by
  have hc := hr.chain
  have hnd := hc.nodup
  rw [hm] at hc hnd
  obtain ⟨m, h₁, hb, k, hk, ha', _⟩ := Heap.seg_append.mp hc
  subst ha' hb
  have hscan : r.heap.scan (fun c => c.next == some a) r.handles = some b := by
    rw [Heap.scan, Heap.scanPrev_found hc hk (by simp)]
    intro d hd c hdc
    simp only [Heap.addrs, List.map_append, List.map_cons] at hnd
    rcases h₁.next hd hdc with ⟨e, he, hn⟩ | hn
    · have hea : e ≠ a := by
        rintro rfl
        have he' : e ∈ Heap.addrs l₁ := List.mem_of_mem_tail (by simpa [Heap.addrs, List.map_tail] using he)
        grind
      simp [hn, hea]
    · have hba : b ≠ a := by grind
      simp [hn, hba]
  simp [handleFree, hscan, ha]

theorem val?_unlink {n : Option Addr} {p : Option Addr} :
    Registry.val? ⟨(r.heap.setNext b n).free a, p⟩ c = if c = a then none else r.val? c := by
  simp only [Registry.val?, Heap.get?_free, Heap.get?_setNext]
  by_cases hc : c = a
  · simp [hc]
  · simp only [Ne.symm hc, hc, ↓reduceIte]
    split
    · cases r.heap.get? c <;> rfl
    · rfl

theorem size_handleFree : (handleFree r a).heap.size = r.heap.size := by
  simp only [handleFree]
  split
  · rfl
  · split <;> simp

theorem Registry.Ok.pred (hr : r.Ok) (ha : a ∈ r.addrs.tail) : ∃ l₁ b w v l₂ n,
    r.members = l₁ ++ (b, w) :: (a, v) :: l₂ ∧ r.heap.get? a = some ⟨v, n, true⟩ := by
  obtain ⟨v, hv⟩ := hr.val (List.mem_of_mem_tail ha)
  have hx := hr.mem_members.mpr ⟨List.mem_of_mem_tail ha, hv⟩
  obtain ⟨n, hn⟩ := hr.chain.get hx
  obtain ⟨l₀, l₂, hl⟩ := List.append_of_mem hx
  have hl₀ : l₀ ≠ [] := by
    rintro rfl
    have hnd := hr.nodup
    rw [Registry.addrs, hl] at hnd ha
    simp_all [Heap.addrs]
  obtain ⟨l₁, ⟨b, w⟩, rfl⟩ := List.eq_nil_or_concat l₀ |>.resolve_left hl₀
  exact ⟨l₁, b, w, v, l₂, n, by simpa using hl, hn⟩

theorem handleFree_spec (hr : r.Ok) : (handleFree r a).Ok ∧
    (handleFree r a).addrs = unlinked a r.addrs ∧
    ∀ c, (handleFree r a).val? c = if c = a ∧ a ∈ r.addrs.tail then none else r.val? c := by
  by_cases ha : a ∈ r.addrs.tail
  case neg =>
    rw [handleFree_of_notMem_tail hr ha]
    exact ⟨hr, (unlinked_of_notMem_tail ha).symm, fun c => by simp [ha]⟩
  obtain ⟨l₁, b, w, v, l₂, n, hm, hn⟩ := hr.pred ha
  have hc := hr.chain
  have hnd := hr.nodup
  rw [handleFree_of_pred hr hm hn]
  rw [hm] at hc
  rw [Registry.addrs, hm] at hnd
  simp only [Heap.addrs, List.map_append, List.map_cons] at hnd
  cases l₁ with
  | nil =>
      obtain ⟨hp, m, _, ht⟩ := hc
      have hf := Heap.Chain.unlink_first ht hn
      rw [if_pos hp.symm]
      refine ⟨⟨l₂, hf⟩, ?_, fun c => ?_⟩
      · rw [Registry.addrs, Registry.members_of_chain hf, Registry.addrs, hm]
        exact unlinked_second.symm
      · by_cases hca : c = a
        · simp [Registry.val?, Heap.get?_free, hca, ha]
        · simp [Registry.val?, Heap.get?_free, hca, Ne.symm hca]
  | cons y l₁ =>
      have hf := hc.unlink hn
      have hb : some b ≠ r.handles := by
        rw [hc.first_eq]
        intro h
        have hby : b = y.1 := Option.some.inj h
        simp [hby] at hnd
      rw [if_neg hb]
      refine ⟨⟨_, hf⟩, ?_, fun c => ?_⟩
      · rw [Registry.addrs, Registry.members_of_chain hf, Registry.addrs, hm]
        have ha₁ : a ∉ (y :: l₁).map Prod.fst ++ [b] := by simp only [List.map_cons]; grind
        simp only [Heap.addrs, List.cons_append, List.map_cons, List.map_append]
        have hne : l₁.map Prod.fst ++ [b] ≠ [] := by simp
        have hu := unlinked_later y.1 (l₂.map Prod.fst) hne fun h => ha₁ (List.mem_cons_of_mem _ h)
        simpa using hu.symm
      · rw [val?_unlink]
        simp [ha]

end Evfilter.Handle
