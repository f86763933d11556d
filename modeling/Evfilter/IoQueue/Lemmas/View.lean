import Evfilter.IoQueue.Queue
import Mathlib.Data.List.Sort

/-!
# What the functions of the queue do to its list

The heap holds the members of the list and nothing else (`Rep`). Insertion and deletion are those of Mathlib's
`orderedInsert` and `eraseP` on the list of members.
-/

namespace Evfilter.IoQueue
open Lib

/-- The pointers from `root` on form the list `l`, and no other cell is live. -/
structure Rep (h : Heap Memb) (root : Option Addr) (l : List (Addr × Memb)) : Prop where
  chain : h.Chain root l
  owns : ∀ a, h.Live a → a ∈ Heap.addrs l

/-- The order in which `list_insert` looks for the place of a member. -/
abbrev Before (x y : Addr × Memb) : Prop := y.2.fd ≤ x.2.fd

def hasFd (fd : Nat) (x : Addr × Memb) : Bool := x.2.fd == fd

variable {h h' : Heap Memb} {root : Option Addr} {l l₁ l₂ : List (Addr × Memb)} {a b : Addr} {m : Memb}
  {fd : Nat} {x : Addr × Memb}

@[simp] theorem hasFd_iff : hasFd fd x = true ↔ x.2.fd = fd := beq_iff_eq

/-! ## Insertion -/

theorem orderedInsert_split (x : Addr × Memb) (l : List (Addr × Memb)) :
    ∃ l₁ l₂, l = l₁ ++ l₂ ∧ l.orderedInsert Before x = l₁ ++ x :: l₂ ∧
      (∀ y ∈ l₁, ¬ Before x y) ∧ ∀ y ∈ l₂.head?, Before x y := by
  induction l with
  | nil => exact ⟨[], [], rfl, rfl, by simp, by simp⟩
  | cons y l ih =>
      by_cases hxy : Before x y
      · exact ⟨[], y :: l, rfl, List.orderedInsert_cons_of_le _ l hxy, by simp, by simpa using hxy⟩
      · obtain ⟨l₁, l₂, rfl, hi, hl₁, hl₂⟩ := ih
        refine ⟨y :: l₁, l₂, rfl, ?_, List.forall_mem_cons.mpr ⟨hxy, hl₁⟩, hl₂⟩
        rw [List.orderedInsert_of_not_le _ _ hxy, hi]
        rfl

theorem live_alloc {v : Memb} {n : Option Addr} (hl : (h.alloc v n).1.Live a) : a = h.size ∨ h.Live a := by
  by_cases ha : a = h.size
  · exact Or.inl ha
  · obtain ⟨c, hc⟩ := hl
    exact Or.inr ⟨c, by rwa [Heap.get?_alloc_old v n ha] at hc⟩

theorem live_setNext {n : Option Addr} (hl : (h.setNext b n).Live a) : h.Live a := by
  obtain ⟨c, hc⟩ := hl
  rw [Heap.get?_setNext] at hc
  split at hc
  · obtain ⟨d, hd, _⟩ := Option.map_eq_some_iff.mp hc
    exact ⟨d, hd⟩
  · exact ⟨c, hc⟩

theorem live_free (hl : (h.free b).Live a) : a ≠ b ∧ h.Live a := by
  obtain ⟨c, hc⟩ := hl
  rw [Heap.get?_free] at hc
  split at hc
  · cases hc
  · rename_i hba
    exact ⟨Ne.symm hba, c, hc⟩

theorem size_listInsert : (listInsert h root a).1.size = h.size := by
  simp only [listInsert]
  split
  · rfl
  · split <;> simp

theorem listInsert_spec {n : Option Addr} (hc : h.Chain root l) (ha : h.get? a = some ⟨m, n, true⟩)
    (hn : a ∉ Heap.addrs l) :
    (listInsert h root a).1.Chain (listInsert h root a).2 (l.orderedInsert Before (a, m)) ∧
      ∀ b, (listInsert h root a).1.Live b → h.Live b := by
  obtain ⟨l₁, l₂, rfl, hi, hl₁, hl₂⟩ := orderedInsert_split (a, m) l
  rw [hi]
  have hstop : h.scanPrev (fun here => here.val.fd ≤ m.fd) root =
      (l₁.getLast?.map Prod.fst, l₂.head?.map Prod.fst) := by
    have hgo : ∀ b ∈ Heap.addrs l₁, ∀ c, h.get? b = some c →
        (fun here : Cell Memb => decide (here.val.fd ≤ m.fd)) c = false := by
      intro b hb c hbc
      obtain ⟨k, h₁, _⟩ := Heap.seg_append.mp hc
      obtain ⟨w, k, hw, hg⟩ := h₁.get_of_addr hb
      cases hg.symm.trans hbc
      simpa [Before] using hl₁ _ hw
    cases l₂ with
    | nil =>
        rw [List.append_nil] at hc
        exact Heap.scanPrev_none hc hgo
    | cons y l₂ =>
        obtain ⟨k, hk⟩ := hc.get (List.mem_append_right l₁ List.mem_cons_self)
        refine Heap.scanPrev_found hc hk ?_ hgo
        simpa [Before] using hl₂ y rfl
  have heq : listInsert h root a = match l₁.getLast? with
      | none => (h.setNext a root, some a)
      | some p => ((h.setNext p.1 (some a)).setNext a (Heap.first l₂), root) := by
    simp only [listInsert, ha, hstop]
    cases l₁.getLast? <;> rfl
  rcases List.eq_nil_or_concat l₁ with rfl | ⟨l₀, ⟨b, w⟩, rfl⟩
  · rw [heq]
    exact ⟨hc.link_first ha hn, fun b hb => live_setNext hb⟩
  · rw [heq]
    simp only [List.concat_eq_append, List.getLast?_append, List.getLast?_singleton, Option.some_or,
      List.append_assoc, List.cons_append, List.nil_append] at hc hn ⊢
    exact ⟨hc.link ha hn, fun b hb => live_setNext (live_setNext hb)⟩

theorem Rep.insert (hr : Rep h root l) (m : Memb) :
    Rep (listInsert (h.alloc m none).1 root h.size).1 (listInsert (h.alloc m none).1 root h.size).2
      (l.orderedInsert Before (h.size, m)) := by
  have hn : h.size ∉ Heap.addrs l := fun hm => by
    obtain ⟨_, _, _, hg⟩ := hr.chain.get_of_addr hm
    exact Nat.lt_irrefl _ (Heap.lt_size_of_get? hg)
  obtain ⟨hc, hlive⟩ := listInsert_spec (hr.chain.alloc_frame (w := m) (n := none))
    (Heap.get?_alloc_new h m none) hn
  refine ⟨hc, fun b hb => ?_⟩
  have hp := (List.perm_orderedInsert Before (h.size, m) l).map Prod.fst
  rw [hp.mem_iff]
  rcases live_alloc (hlive b hb) with rfl | hb
  · exact List.mem_cons_self
  · exact List.mem_cons_of_mem _ (hr.owns b hb)

/-! ## Deletion -/

theorem size_listDelete : (listDelete h root fd).1.size = h.size := by
  simp only [listDelete]
  split
  · rfl
  · split <;> simp

theorem listDelete_found (hc : h.Chain root (l₁ ++ (a, m) :: l₂)) (hm : m.fd = fd)
    (hl₁ : ∀ y ∈ l₁, y.2.fd ≠ fd) :
    listDelete h root fd = match l₁.getLast? with
      | none => (h.free a, Heap.first l₂)
      | some p => ((h.setNext p.1 (Heap.first l₂)).free a, root) := by
  obtain ⟨_, _, _, k, hk, ht⟩ := Heap.seg_append.mp hc
  have hstop : h.scanPrev (fun here => here.val.fd == fd) root = (l₁.getLast?.map Prod.fst, some a) := by
    refine Heap.scanPrev_found hc hk (by simpa using hm) ?_
    intro b hb c hbc
    obtain ⟨k', h₁, _⟩ := Heap.seg_append.mp hc
    obtain ⟨w, k', hw, hg⟩ := h₁.get_of_addr hb
    cases hg.symm.trans hbc
    simpa using hl₁ _ hw
  have hnext : k = Heap.first l₂ := Heap.Chain.first_eq ht
  simp only [listDelete, hstop, hk, Option.bind_some, hnext]
  cases l₁.getLast? <;> rfl

theorem listDelete_notFound (hc : h.Chain root l) (hl : ∀ y ∈ l, y.2.fd ≠ fd) :
    listDelete h root fd = (h, root) := by
  have hstop : h.scanPrev (fun here => here.val.fd == fd) root = (l.getLast?.map Prod.fst, none) := by
    refine Heap.scanPrev_none hc ?_
    intro b hb c hbc
    obtain ⟨w, k, hw, hg⟩ := hc.get_of_addr hb
    cases hg.symm.trans hbc
    simpa using hl _ hw
  simp only [listDelete, hstop]

theorem Rep.delete (hr : Rep h root l) (fd : Nat) :
    Rep (listDelete h root fd).1 (listDelete h root fd).2 (l.eraseP (hasFd fd)) := by
  rcases List.exists_or_eq_self_of_eraseP (hasFd fd) l with he | ⟨x, l₁, l₂, hl₁, hx, rfl, he⟩
  · have hl : ∀ y ∈ l, y.2.fd ≠ fd := by simpa using he
    rw [he, listDelete_notFound hr.chain hl]
    exact hr
  · obtain ⟨a, m⟩ := x
    have hl₁ : ∀ y ∈ l₁, y.2.fd ≠ fd := fun y hy => by simpa using hl₁ y hy
    have hm : m.fd = fd := by simpa using hx
    obtain ⟨_, _, _, k, hk, ht⟩ := Heap.seg_append.mp hr.chain
    have hnext : k = Heap.first l₂ := Heap.Chain.first_eq ht
    rw [he, listDelete_found hr.chain hm hl₁]
    have howns : ∀ b, h.Live b → b ≠ a → b ∈ Heap.addrs (l₁ ++ l₂) := fun b hb hne => by
      have := hr.owns b hb
      simp only [Heap.addrs, List.map_append, List.map_cons] at this ⊢
      grind
    rcases List.eq_nil_or_concat l₁ with rfl | ⟨l₀, ⟨b, w⟩, rfl⟩
    · refine ⟨?_, fun b hb => howns b (live_free hb).2 (live_free hb).1⟩
      exact hnext ▸ Heap.Chain.unlink_first hr.chain hk
    · simp only [List.concat_eq_append, List.getLast?_append, List.getLast?_singleton, Option.some_or,
        List.append_assoc, List.cons_append, List.nil_append] at hr howns ⊢
      refine ⟨?_, fun b hb => howns b (live_setNext (live_free hb).2) (live_free hb).1⟩
      exact hnext ▸ hr.chain.unlink hk

/-! ## The queue -/

def Queue.Ok (q : Queue) : Prop := ∃ l, Rep q.heap q.root l

variable {q : Queue}

theorem Queue.Ok.rep (hq : q.Ok) : Rep q.heap q.root q.members := by
  obtain ⟨l, hl⟩ := hq
  rw [Queue.members, hl.chain.toList]
  exact hl

theorem members_of_rep (hr : Rep q.heap q.root l) : q.members = l := hr.chain.toList

theorem Queue.empty_ok : Queue.empty.Ok := ⟨[], rfl, fun a ⟨c, hc⟩ => by simp [Queue.empty] at hc⟩

theorem Queue.members_empty : Queue.empty.members = [] := rfl

theorem Queue.Ok.mem (hq : q.Ok) {c : Cell Memb} (hc : q.heap.get? a = some c) : (a, c.val) ∈ q.members := by
  obtain ⟨w, n, hw, hg⟩ := hq.rep.chain.get_of_addr (hq.rep.owns a ⟨c, hc⟩)
  cases hg.symm.trans hc
  exact hw

theorem Queue.Ok.live_iff (hq : q.Ok) : q.heap.Live a ↔ a ∈ Heap.addrs q.members := by
  constructor
  · exact hq.rep.owns a
  · intro ha
    obtain ⟨_, _, _, hg⟩ := hq.rep.chain.get_of_addr ha
    exact ⟨_, hg⟩

theorem evfIoQueueAdd_spec (fd : Nat) (read : ReadFn) (priv : Priv) (hq : q.Ok) :
    (evfIoQueueAdd q fd read priv true).1.Ok ∧ (evfIoQueueAdd q fd read priv true).1.members =
      q.members.orderedInsert Before (q.heap.size, ⟨fd, read, priv⟩) :=
  have hr := hq.rep.insert ⟨fd, read, priv⟩
  ⟨⟨_, hr⟩, members_of_rep hr⟩

theorem listDelete_spec (cnt : UInt32) (rfds : Finset Nat) (fd : Nat) (hq : q.Ok) :
    Queue.Ok ⟨(listDelete q.heap q.root fd).1, cnt, rfds, (listDelete q.heap q.root fd).2⟩ ∧
    Queue.members ⟨(listDelete q.heap q.root fd).1, cnt, rfds, (listDelete q.heap q.root fd).2⟩ =
      q.members.eraseP (hasFd fd) :=
  have hr := hq.rep.delete fd
  ⟨⟨_, hr⟩, members_of_rep hr⟩

theorem evfIoQueueRem_spec (hq : q.Ok) (hfd : fd ∈ q.rfds) :
    (evfIoQueueRem q fd).Ok ∧ (evfIoQueueRem q fd).members = q.members.eraseP (hasFd fd) ∧
      (evfIoQueueRem q fd).rfds = q.rfds.erase fd ∧ (evfIoQueueRem q fd).cnt = q.cnt - 1 := by
  obtain ⟨hok, hm⟩ := listDelete_spec (q.cnt - 1) (q.rfds.erase fd) fd hq
  rw [evfIoQueueRem, if_pos hfd]
  exact ⟨hok, hm, rfl, rfl⟩

end Evfilter.IoQueue
