import Evfilter.Lib.Chain

/-!
# Lists of filters

`evf_filters_last` and `evf_filters_merge` on filters linked through `next`. What a filter is does not matter
here.
-/

namespace Evfilter.Line
open Lib Heap

variable {α : Type}

/-- `for (tmp = root; tmp->next != NULL; tmp = tmp->next);` -/
def evfFiltersLast (h : Heap α) (root : Option Addr) : Option Addr := h.scan (fun c => c.next.isNone) root

def evfFiltersMerge (h : Heap α) (root filters : Option Addr) : Heap α × Option Addr :=
  match root with
  | none => (h, filters)
  | some _ =>
    match evfFiltersLast h root with
    | none => (h, root)
    | some last => (h.setNext last filters, root)

/-- The list that `evf_load_filters` has built so far, and its last filter. -/
structure Linked (α : Type) where
  heap : Heap α
  filters : Option Addr
  lastFilter : Option Addr

/-- A filter that has been loaded goes to the end of the list. -/
def linkFilter (s : Linked α) (filter : α) : Linked α :=
  let (h, tmp) := s.heap.alloc filter none
  match s.filters, s.lastFilter with
  | some _, some last => { heap := h.setNext last (some tmp), filters := s.filters, lastFilter := some tmp }
  | _, _ => { heap := h, filters := some tmp, lastFilter := some tmp }

def linkFilters (h : Heap α) (filters : List α) : Linked α :=
  filters.foldl linkFilter { heap := h, filters := none, lastFilter := none }

variable {h h' : Heap α} {root p : Option Addr} {l l₁ l₂ : List (Addr × α)} {a : Addr} {v : α}

theorem last_nil : evfFiltersLast h none = none := by
  rw [evfFiltersLast, scan, scanPrev_none (l := []) rfl (by simp)]

/-- Every other cell of the list has a next one. -/
theorem last_chain (hc : h.Chain root (l ++ [(a, v)])) : evfFiltersLast h root = some a := by
  obtain ⟨m, hs, hm, n, hn, hend⟩ := seg_append.mp hc
  cases (show n = none from hend)
  rw [evfFiltersLast, scan, scanPrev_found hc hn rfl]
  intro b hb c hbc
  cases hm
  rcases hs.next hb hbc with ⟨d, _, hd⟩ | hd
  · rw [hd]
    rfl
  · rw [hd]
    rfl

/-- `last->next = filters` -/
theorem chain_append (h₁ : h.Chain root (l ++ [(a, v)])) (h₂ : h.Chain p l₂)
    (hd : ∀ b ∈ addrs (l ++ [(a, v)]), b ∉ addrs l₂) :
    (h.setNext a p).Chain root (l ++ [(a, v)] ++ l₂) := by
  have hnd := h₁.nodup
  have ha : a ∉ addrs l := by
    simp only [addrs, List.map_append, List.map_cons, List.map_nil] at hnd
    exact fun hmem => (List.nodup_append.mp hnd).2.2 a hmem a List.mem_cons_self rfl
  have ha₂ : a ∉ addrs l₂ := hd a (by simp)
  exact seg_append.mpr ⟨p, h₁.setNext_last ha, h₂.setNext_frame ha₂⟩

theorem merge_chain (h₁ : h.Chain root l₁) (h₂ : h.Chain p l₂) (hd : ∀ b ∈ addrs l₁, b ∉ addrs l₂) :
    (evfFiltersMerge h root p).1.Chain (evfFiltersMerge h root p).2 (l₁ ++ l₂) := by
  rcases List.eq_nil_or_concat l₁ with rfl | ⟨l, ⟨a, v⟩, rfl⟩
  · cases show root = none from h₁
    exact h₂
  · rw [List.concat_eq_append] at h₁ hd ⊢
    have hroot : root = first (l ++ [(a, v)]) := h₁.first_eq
    have hlast := last_chain h₁
    cases root with
    | none => cases l <;> cases hroot
    | some b =>
        rw [evfFiltersMerge, hlast]
        exact chain_append h₁ h₂ hd

/-! ## Loaded filters -/

/-- The filters `l` are in the list, all of them new since the heap `h`, which is otherwise as it was. -/
structure LinkedTo (h : Heap α) (s : Linked α) (l : List (Addr × α)) : Prop where
  chain : s.heap.Chain s.filters l
  last : s.lastFilter = l.getLast?.map Prod.fst
  new : ∀ b ∈ addrs l, h.size ≤ b
  frame : ∀ b < h.size, s.heap.get? b = h.get? b
  size : h.size ≤ s.heap.size

theorem linkFilter_linked {s : Linked α} (hs : LinkedTo h s l) (v : α) :
    LinkedTo h (linkFilter s v) (l ++ [(s.heap.size, v)]) := by
  have hchain := hs.chain
  have hlast := hs.last
  have htmp : (s.heap.alloc v none).1.Chain (some s.heap.size) [(s.heap.size, v)] :=
    Chain.push (show s.heap.Chain none [] from rfl)
  have hnew : ∀ b ∈ addrs (l ++ [(s.heap.size, v)]), h.size ≤ b := by
    intro b hb
    rw [addrs, List.map_append, List.mem_append] at hb
    rcases hb with hb | hb
    · exact hs.new b hb
    · rw [List.mem_singleton.mp hb]
      exact hs.size
  have hframe : ∀ b < h.size, (s.heap.alloc v none).1.get? b = h.get? b := fun b hb => by
    rw [get?_alloc_old v none (Nat.ne_of_lt (Nat.lt_of_lt_of_le hb hs.size)), hs.frame b hb]
  have hsize : h.size ≤ (s.heap.alloc v none).1.size := by
    rw [size_alloc]
    exact Nat.le_trans hs.size (Nat.le_succ _)
  have hfresh : ∀ b ∈ addrs l, b ∉ addrs [(s.heap.size, v)] := by
    intro b hb hmem
    obtain ⟨_, _, _, hg⟩ := hchain.get_of_addr hb
    rw [List.mem_singleton.mp hmem] at hg
    exact Nat.lt_irrefl _ (lt_size_of_get? hg)
  rcases List.eq_nil_or_concat l with rfl | ⟨l, ⟨a, w⟩, rfl⟩
  · have hfilters : s.filters = none := hchain
    have heq : linkFilter s v =
        { heap := (s.heap.alloc v none).1, filters := some s.heap.size, lastFilter := some s.heap.size } := by
      rw [linkFilter, hfilters]
      rfl
    rw [heq]
    exact ⟨htmp, rfl, hnew, hframe, hsize⟩
  · rw [List.concat_eq_append] at *
    rw [List.getLast?_concat] at hlast
    have hroot : s.filters = first (l ++ [(a, w)]) := hchain.first_eq
    obtain ⟨b, hb⟩ : ∃ b, s.filters = some b := by cases l <;> exact ⟨_, hroot⟩
    have heq : linkFilter s v =
        { heap := (s.heap.alloc v none).1.setNext a (some s.heap.size), filters := s.filters,
          lastFilter := some s.heap.size } := by
      rw [linkFilter, hlast, hb]
      rfl
    have ha : h.size ≤ a := hs.new a (by simp)
    rw [heq]
    refine ⟨chain_append hchain.alloc_frame htmp hfresh, by simp, hnew, fun b hb => ?_, ?_⟩
    · rw [get?_setNext, if_neg (fun hab : a = b => Nat.not_lt_of_ge ha (hab ▸ hb))]
      exact hframe b hb
    · rw [size_setNext]
      exact hsize

theorem linkFilters_linked (h : Heap α) (vs : List α) :
    ∃ l, LinkedTo h (linkFilters h vs) l ∧ l.map Prod.snd = vs := by
  suffices hmain : ∀ (s : Linked α) (l : List (Addr × α)), LinkedTo h s l →
      ∃ l', LinkedTo h (vs.foldl linkFilter s) l' ∧ l'.map Prod.snd = l.map Prod.snd ++ vs from
    hmain _ [] ⟨rfl, rfl, by simp, fun _ _ => rfl, Nat.le_refl _⟩
  induction vs with
  | nil => exact fun s l hs => ⟨l, hs, (List.append_nil _).symm⟩
  | cons v vs ih =>
      intro s l hs
      obtain ⟨l', hl', hvs⟩ := ih _ _ (linkFilter_linked hs v)
      exact ⟨l', hl', by rw [hvs]; simp⟩

end Evfilter.Line
