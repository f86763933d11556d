import Evfilter.Line.FilterList

/-!
# Attaching filters to a line

`evf_line_create` puts the filters of the profile, the barrier and the commit filter into one list. Filters are
attached through the cached pointer to the last filter before the barrier.
-/

namespace Evfilter.Line
open Lib Heap

variable {α : Type}

/-- `struct evf_line`, without the device. -/
structure EvfLine where
  beginPtr : Option Addr
  endPtr : Option Addr
deriving DecidableEq

/-- The commit filter and, in front of it, the barrier that was asked for. -/
def allocClosing (h : Heap α) (commit : α) (barrier : UInt32 → α) (useBarriers : UInt32) : Heap α × Addr :=
  let (h, fcommit) := h.alloc commit none
  if useBarriers ≠ 0 then
    let (h, fbarrier) := h.alloc (barrier useBarriers) none
    (h.setNext fbarrier (some fcommit), fbarrier)
  else (h, fcommit)

/-- From the filters of the profile on. The allocations succeed. -/
def evfLineCreate (h : Heap α) (begins : Option Addr) (commit : α) (barrier : UInt32 → α) (useBarriers : UInt32) :
    Heap α × EvfLine :=
  let last := evfFiltersLast h begins
  let (h, fbarrier) := allocClosing h commit barrier useBarriers
  match begins, last with
  | some _, some a => (h.setNext a (some fbarrier), { beginPtr := begins, endPtr := last })
  | some _, none => (h, { beginPtr := begins, endPtr := last })
  | none, _ => (h, { beginPtr := some fbarrier, endPtr := last })

/-- In the second branch `line->end` stays where it is. -/
def evfLineAttachFilter (h : Heap α) (line : EvfLine) (filter : Addr) : Heap α × EvfLine :=
  match line.endPtr with
  | none => (h.setNext filter line.beginPtr, { beginPtr := some filter, endPtr := some filter })
  | some last =>
    match h.get? last with
    | none => (h, line)
    | some c => ((h.setNext filter c.next).setNext last (some filter), line)

def attachAll (h : Heap α) (line : EvfLine) : List Addr → Heap α × EvfLine
  | [] => (h, line)
  | filter :: filters =>
    let after := evfLineAttachFilter h line filter
    attachAll after.1 after.2 filters

/-- The filters have been allocated, each with some `next`. -/
def Stored (h : Heap α) (fs : List (Addr × α)) : Prop := ∀ x ∈ fs, ∃ n, h.get? x.1 = some ⟨x.2, n, true⟩

/-- The barrier, if there is one, and the commit filter. -/
def closing (h : Heap α) (commit : α) (barrier : UInt32 → α) (useBarriers : UInt32) : List (Addr × α) :=
  if useBarriers ≠ 0 then [(h.size + 1, barrier useBarriers), (h.size, commit)] else [(h.size, commit)]

variable {h : Heap α} {line : EvfLine} {begins : Option Addr} {ls l rest fs : List (Addr × α)} {a f : Addr}
  {v w : α} {commit : α} {barrier : UInt32 → α} {useBarriers : UInt32}

/-! ## A new line -/

theorem last_map (hc : h.Chain begins ls) : evfFiltersLast h begins = ls.getLast?.map Prod.fst := by
  rcases List.eq_nil_or_concat ls with rfl | ⟨l, ⟨a, v⟩, rfl⟩
  · cases show begins = none from hc
    exact last_nil
  · rw [List.concat_eq_append] at hc ⊢
    rw [last_chain hc, List.getLast?_concat]
    rfl

theorem closing_fresh (hc : h.Chain begins ls) (commit : α) (barrier : UInt32 → α) (useBarriers : UInt32) :
    ∀ b ∈ addrs ls, b ∉ addrs (closing h commit barrier useBarriers) := by
  intro b hb hmem
  obtain ⟨_, _, _, hg⟩ := hc.get_of_addr hb
  have hlt : b < h.size := lt_size_of_get? hg
  unfold closing at hmem
  split at hmem
  · rcases List.mem_cons.mp hmem with rfl | hmem
    · exact absurd hlt (Nat.not_lt_of_ge (Nat.le_succ _))
    · rw [List.mem_singleton.mp hmem] at hlt
      exact Nat.lt_irrefl _ hlt
  · rw [List.mem_singleton.mp hmem] at hlt
    exact Nat.lt_irrefl _ hlt

theorem allocClosing_chain (hc : h.Chain begins ls) (commit : α) (barrier : UInt32 → α) (useBarriers : UInt32) :
    (allocClosing h commit barrier useBarriers).1.Chain begins ls ∧
      (allocClosing h commit barrier useBarriers).1.Chain (some (allocClosing h commit barrier useBarriers).2)
        (closing h commit barrier useBarriers) := by
  have hcommit : (h.alloc commit none).1.Chain (some h.size) [(h.size, commit)] :=
    Chain.push (show h.Chain none [] from rfl)
  have hfresh := closing_fresh hc commit barrier useBarriers
  unfold allocClosing closing at *
  by_cases hb : useBarriers = 0
  · simp only [hb, ne_eq, not_true_eq_false, ↓reduceIte]
    exact ⟨hc.alloc_frame, hcommit⟩
  · simp only [hb, ne_eq, not_false_eq_true, ↓reduceIte] at hfresh ⊢
    have hsize : (h.alloc commit none).1.cells.length = h.size + 1 := size_alloc h commit none
    have hnew := get?_alloc_new (h.alloc commit none).1 (barrier useBarriers) none
    have hchain : ((h.alloc commit none).1.alloc (barrier useBarriers) none).1.Chain (some h.size)
        [(h.size, commit)] := Seg.alloc_frame hcommit
    have hc' : ((h.alloc commit none).1.alloc (barrier useBarriers) none).1.Chain begins ls :=
      Seg.alloc_frame (Seg.alloc_frame hc)
    rw [size_alloc] at hnew
    change (Heap.setNext _ (h.alloc commit none).1.cells.length _).Chain begins ls ∧
      (Heap.setNext _ (h.alloc commit none).1.cells.length _).Chain (some (h.alloc commit none).1.cells.length) _
    rw [hsize]
    refine ⟨Seg.setNext_frame hc' fun hmem => hfresh _ hmem List.mem_cons_self, ?_⟩
    exact Chain.link_first hchain hnew (by simp)

/-- The list of a new line, and its cached pointer. -/
theorem evfLineCreate_chain (hc : h.Chain begins ls) (commit : α) (barrier : UInt32 → α) (useBarriers : UInt32) :
    let created := evfLineCreate h begins commit barrier useBarriers
    created.1.Chain created.2.beginPtr (ls ++ closing h commit barrier useBarriers) ∧
      created.2.endPtr = ls.getLast?.map Prod.fst := by
  obtain ⟨hls, hclosing⟩ := allocClosing_chain hc commit barrier useBarriers
  have hfresh := closing_fresh hc commit barrier useBarriers
  have hlast := last_map hc
  simp only [evfLineCreate]
  rcases List.eq_nil_or_concat ls with rfl | ⟨l, ⟨a, v⟩, rfl⟩
  · cases show begins = none from hc
    exact ⟨hclosing, hlast⟩
  · rw [List.concat_eq_append] at *
    have hbegins : begins = first (l ++ [(a, v)]) := hc.first_eq
    rw [List.getLast?_concat] at hlast ⊢
    cases begins with
    | none => cases l <;> cases hbegins
    | some b =>
        rw [hlast]
        exact ⟨chain_append hls hclosing hfresh, rfl⟩

/-! ## Attaching -/

theorem Stored.setNext {n : Option Addr} (hs : Stored h fs) : Stored (h.setNext a n) fs := by
  intro x hx
  obtain ⟨m, hm⟩ := hs x hx
  by_cases hax : a = x.1
  · exact ⟨n, by simp [get?_setNext, hax, hm]⟩
  · exact ⟨m, by simp [get?_setNext, hax, hm]⟩

theorem Stored.attach (hs : Stored h fs) : Stored (evfLineAttachFilter h line f).1 fs := by
  unfold evfLineAttachFilter
  split
  · exact Stored.setNext hs
  · split
    · exact hs
    · exact Stored.setNext (Stored.setNext hs)

/-- The filter goes behind the one that the cached pointer points to, and the pointer stays. -/
theorem attach_chain (hc : h.Chain line.beginPtr (l ++ [(a, v)] ++ rest)) (hend : line.endPtr = some a)
    (hf : Stored h [(f, w)]) (hn : f ∉ addrs (l ++ [(a, v)] ++ rest)) :
    (evfLineAttachFilter h line f).1.Chain line.beginPtr (l ++ [(a, v)] ++ (f, w) :: rest) ∧
      (evfLineAttachFilter h line f).2 = line := by
  have hnd := hc.nodup
  simp only [addrs, List.map_append, List.map_cons, List.map_nil] at hnd hn
  have ha : a ∉ addrs l := by grind
  have har : a ∉ addrs rest := by grind
  have hfl : f ∉ addrs (l ++ [(a, v)]) := by
    simp only [addrs, List.map_append, List.map_cons, List.map_nil]
    grind
  have hfr : f ∉ addrs rest := by grind
  have haf : a ≠ f := by grind
  obtain ⟨m, hl, hrest⟩ := seg_append.mp hc
  obtain ⟨_, _, _, k, hk, hkm⟩ := seg_append.mp hl
  cases show k = m from hkm
  obtain ⟨n, hfn⟩ := hf (f, w) List.mem_cons_self
  have hcell : ((h.setNext f m).setNext a (some f)).get? f = some ⟨w, m, true⟩ := by
    rw [get?_setNext, if_neg haf, get?_setNext, if_pos rfl, hfn]
    rfl
  simp only [evfLineAttachFilter, hend, hk]
  refine ⟨seg_append.mpr ⟨some f, (hl.setNext_frame hfl).setNext_last ha, rfl, m, hcell, ?_⟩, trivial⟩
  exact (hrest.setNext_frame hfr).setNext_frame har

variable (line) in
/-- Several filters come to stand behind the cached one in the opposite order. -/
theorem attachAll_chain (hc : h.Chain line.beginPtr (l ++ [(a, v)] ++ rest)) (hend : line.endPtr = some a)
    (hs : Stored h fs) (hnd : (addrs fs).Nodup) (hn : ∀ f ∈ addrs fs, f ∉ addrs (l ++ [(a, v)] ++ rest)) :
    (attachAll h line (addrs fs)).1.Chain (attachAll h line (addrs fs)).2.beginPtr
      (l ++ [(a, v)] ++ (fs.reverse ++ rest)) := by
  induction fs generalizing h rest with
  | nil => exact hc
  | cons x fs ih =>
      obtain ⟨f, w⟩ := x
      obtain ⟨hfs, hnd⟩ := List.nodup_cons.mp hnd
      obtain ⟨hf, hn⟩ := List.forall_mem_cons.mp hn
      obtain ⟨hf', hs⟩ := List.forall_mem_cons.mp hs
      have hone : Stored h [(f, w)] := List.forall_mem_cons.mpr ⟨hf', by simp⟩
      obtain ⟨hc', hline⟩ := attach_chain hc hend hone hf
      have hn' : ∀ g ∈ addrs fs, g ∉ addrs (l ++ [(a, v)] ++ (f, w) :: rest) := by
        intro g hg hmem
        have hgf : g ≠ f := fun h => hfs (h ▸ hg)
        have := hn g hg
        simp only [addrs, List.map_append, List.map_cons, List.map_nil] at hmem this
        grind
      have hrun := ih hc' (Stored.attach hs) hnd hn'
      change (attachAll (evfLineAttachFilter h line f).1 (evfLineAttachFilter h line f).2 (addrs fs)).1.Chain
        (attachAll (evfLineAttachFilter h line f).1 (evfLineAttachFilter h line f).2 (addrs fs)).2.beginPtr _
      rw [hline, List.reverse_cons, List.append_assoc fs.reverse]
      exact hrun

/-- The list after filters have been attached to a line, in general. -/
def attachedOrder : (ls fs : List (Addr × α)) → List (Addr × α)
  | [], [] => []
  | [], f :: fs => f :: fs.reverse
  | l :: ls, fs => l :: ls ++ fs.reverse

theorem attached_chain (hc : h.Chain line.beginPtr (ls ++ rest)) (hend : line.endPtr = ls.getLast?.map Prod.fst)
    (hs : Stored h fs) (hnd : (addrs fs).Nodup) (hn : ∀ f ∈ addrs fs, f ∉ addrs (ls ++ rest)) :
    (attachAll h line (addrs fs)).1.Chain (attachAll h line (addrs fs)).2.beginPtr
      (attachedOrder ls fs ++ rest) := by
  rcases List.eq_nil_or_concat ls with rfl | ⟨l, ⟨a, v⟩, rfl⟩
  · cases fs with
    | nil => exact hc
    | cons x fs =>
        -- The first filter is put in front, and then the pointer stays on it.
        obtain ⟨f, w⟩ := x
        obtain ⟨hfs, hnd⟩ := List.nodup_cons.mp hnd
        obtain ⟨hf, hn⟩ := List.forall_mem_cons.mp hn
        obtain ⟨⟨n, hfn⟩, hs⟩ := List.forall_mem_cons.mp hs
        have hfirst : evfLineAttachFilter h line f =
            (h.setNext f line.beginPtr, { beginPtr := some f, endPtr := some f }) := by
          rw [evfLineAttachFilter, hend]
          rfl
        have hchain : (h.setNext f line.beginPtr).Chain (some f) ([] ++ [(f, w)] ++ rest) :=
          Chain.link_first hc hfn hf
        have hn' : ∀ g ∈ addrs fs, g ∉ addrs ([] ++ [(f, w)] ++ rest) := by
          intro g hg hmem
          have hgf : g ≠ f := fun h => hfs (h ▸ hg)
          exact hn g hg ((List.mem_cons.mp hmem).resolve_left hgf)
        have hrun := attachAll_chain { beginPtr := some f, endPtr := some f } hchain rfl
          (Stored.setNext hs) hnd hn'
        change (attachAll (evfLineAttachFilter h line f).1 (evfLineAttachFilter h line f).2 (addrs fs)).1.Chain
          (attachAll (evfLineAttachFilter h line f).1 (evfLineAttachFilter h line f).2 (addrs fs)).2.beginPtr _
        rw [hfirst]
        exact hrun
  · rw [List.concat_eq_append] at *
    rw [List.getLast?_concat] at hend
    have horder : attachedOrder (l ++ [(a, v)]) fs = l ++ [(a, v)] ++ fs.reverse := by
      cases l <;> rfl
    rw [horder, List.append_assoc]
    exact attachAll_chain line hc hend hs hnd hn

theorem reverse_eq_iff (hnd : (addrs fs).Nodup) : fs.reverse = fs ↔ fs.length ≤ 1 := by
  cases fs with
  | nil => simp
  | cons x fs =>
      rcases List.eq_nil_or_concat fs with rfl | ⟨gs, y, rfl⟩
      · simp
      · refine iff_of_false (fun h => ?_) (by simp)
        rw [List.concat_eq_append, List.reverse_cons, List.reverse_append] at h
        cases (List.cons.inj h).1
        simp [addrs] at hnd

theorem attachedOrder_iff (hnd : (addrs fs).Nodup) :
    attachedOrder ls fs = ls ++ fs ↔ fs.length ≤ 1 ∨ (ls = [] ∧ fs.length ≤ 2) := by
  cases ls with
  | nil =>
      cases fs with
      | nil => simp [attachedOrder]
      | cons f fs =>
          have h := reverse_eq_iff (List.nodup_cons.mp hnd).2
          simp only [attachedOrder, List.nil_append, List.cons.injEq, true_and, h, List.length_cons]
          omega
  | cons l ls =>
      rw [attachedOrder, List.append_cancel_left_eq, reverse_eq_iff hnd]
      simp

/-- A line is created, other memory is allocated and used, and filters `fs` are attached: they stand in this order
behind those of the profile just when there is at most one of them, or two and no profile. -/
theorem attached_in_order_iff (h h₂ : Heap α) (begins : Option Addr) (ls fs : List (Addr × α)) (commit : α)
    (barrier : UInt32 → α) (useBarriers : UInt32) (hprofile : h.Chain begins ls)
    (hkept : ∀ a ∈ addrs (ls ++ closing h commit barrier useBarriers),
      h₂.get? a = (evfLineCreate h begins commit barrier useBarriers).1.get? a)
    (hstored : Stored h₂ fs) (hdistinct : (addrs fs).Nodup)
    (hnew : ∀ f ∈ addrs fs, f ∉ addrs (ls ++ closing h commit barrier useBarriers)) :
    let line := (evfLineCreate h begins commit barrier useBarriers).2
    let attached := attachAll h₂ line (addrs fs)
    attached.1.Chain attached.2.beginPtr (ls ++ fs ++ closing h commit barrier useBarriers) ↔
      fs.length ≤ 1 ∨ (ls = [] ∧ fs.length ≤ 2) := by
  obtain ⟨hcreated, hend⟩ := evfLineCreate_chain hprofile commit barrier useBarriers
  have hattached := attached_chain (hcreated.frame hkept) hend hstored hdistinct hnew
  rw [← attachedOrder_iff hdistinct]
  constructor
  · intro hwanted
    exact (List.append_cancel_right (Chain.unique hwanted hattached)).symm
  · intro horder
    rw [horder] at hattached
    exact hattached

/-- Filters 1, 2 and 3. The first is the profile. -/
def threeFilters : Heap Nat := (((Heap.empty.alloc 1 none).1.alloc 2 none).1.alloc 3 none).1

def threeCreated : Heap Nat × EvfLine := evfLineCreate threeFilters (some 0) 100 (fun _ => 200) 0

theorem attached_one :
    (attachAll threeCreated.1 threeCreated.2 [1]).1.Chain (attachAll threeCreated.1 threeCreated.2 [1]).2.beginPtr
        ([(0, 1)] ++ [(1, 2)] ++ closing threeFilters 100 (fun _ => 200) 0) ↔
      [((1 : Addr), 2)].length ≤ 1 ∨ ([((0 : Addr), 1)] = [] ∧ [((1 : Addr), 2)].length ≤ 2) :=
  attached_in_order_iff threeFilters threeCreated.1 (some 0) [(0, 1)] [(1, 2)] 100 (fun _ => 200) 0
    ⟨rfl, none, rfl, rfl⟩ (fun _ _ => rfl) (List.forall_mem_singleton.mpr ⟨none, rfl⟩) (by decide) (by decide)

/-- Filters 2 and 3 are attached in this order to a line with filter 1. -/
theorem attached_reversed :
    threeFilters.Chain (some 0) [(0, 1)] ∧ Stored threeCreated.1 [(1, 2), (2, 3)] ∧
      (attachAll threeCreated.1 threeCreated.2 [1, 2]).1.toList
        (attachAll threeCreated.1 threeCreated.2 [1, 2]).2.beginPtr = [(0, 1), (2, 3), (1, 2), (3, 100)] ∧
      ¬ (attachAll threeCreated.1 threeCreated.2 [1, 2]).1.Chain
        (attachAll threeCreated.1 threeCreated.2 [1, 2]).2.beginPtr
        ([(0, 1)] ++ [(1, 2), (2, 3)] ++ closing threeFilters 100 (fun _ => 200) 0) := by
  refine ⟨⟨rfl, none, rfl, rfl⟩, ?_, by decide, fun hc => ?_⟩
  · exact List.forall_mem_cons.mpr ⟨⟨none, rfl⟩, List.forall_mem_singleton.mpr ⟨none, rfl⟩⟩
  · exact absurd hc.toList (by decide)

end Evfilter.Line
