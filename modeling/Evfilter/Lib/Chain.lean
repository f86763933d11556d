import Evfilter.Lib.Heap
import Mathlib.Data.List.Perm.Subperm

/-!
# Chains of cells

A chain is the list of cells met from a pointer along `next` up to the null pointer. The loops that walk a
chain are two: one that stops at the first cell meeting a test, and the same one keeping the previous cell.
Their results, and the effect of linking and unlinking a cell, are stated on the list.
-/

namespace Lib

namespace Heap

variable {α : Type} {h h' : Heap α} {p q : Option Addr} {l l₁ l₂ : List (Addr × α)} {a b : Addr}
  {v w : α}

/-- The live cells linked from `p` to `q`, with their values. -/
def Seg (h : Heap α) : Option Addr → List (Addr × α) → Option Addr → Prop
  | p, [], q => p = q
  | p, (a, v) :: l, q => p = some a ∧ ∃ n, h.get? a = some ⟨v, n, true⟩ ∧ Seg h n l q

abbrev Chain (h : Heap α) (p : Option Addr) (l : List (Addr × α)) : Prop := h.Seg p l none

abbrev addrs (l : List (Addr × α)) : List Addr := l.map Prod.fst

/-- Pointer to the first cell of a list of cells. -/
abbrev first (l : List (Addr × α)) : Option Addr := l.head?.map Prod.fst

/-! ## Walking -/

def follow (h : Heap α) : Nat → Option Addr → List (Addr × α)
  | 0, _ => []
  | _ + 1, none => []
  | n + 1, some a => match h.get? a with
    | none => []
    | some c => (a, c.val) :: follow h n c.next

def toList (h : Heap α) (p : Option Addr) : List (Addr × α) := h.follow h.size p

/-- `while (here != NULL && !stop(here)) { prev = here; here = here->next; }` -/
def walk (h : Heap α) (stop : Cell α → Bool) :
    Nat → Option Addr → Option Addr → Option Addr × Option Addr
  | 0, prev, here => (prev, here)
  | _ + 1, prev, none => (prev, none)
  | n + 1, prev, some a => match h.get? a with
    | none => (prev, none)
    | some c => if stop c then (prev, some a) else walk h stop n (some a) c.next

def scanPrev (h : Heap α) (stop : Cell α → Bool) (root : Option Addr) : Option Addr × Option Addr :=
  h.walk stop h.size none root

/-- `for (i = root; i != NULL; i = i->next) if (stop(i)) break;` -/
def scan (h : Heap α) (stop : Cell α → Bool) (root : Option Addr) : Option Addr :=
  (h.scanPrev stop root).2

/-! ## Segments -/

theorem seg_append : h.Seg p (l₁ ++ l₂) q ↔ ∃ m, h.Seg p l₁ m ∧ h.Seg m l₂ q := by
  induction l₁ generalizing p with
  | nil => simp [Seg]
  | cons x l₁ ih =>
      obtain ⟨a, v⟩ := x
      simp only [List.cons_append, Seg, ih]
      constructor
      · rintro ⟨hp, n, hn, m, h₁, h₂⟩; exact ⟨m, ⟨hp, n, hn, h₁⟩, h₂⟩
      · rintro ⟨m, ⟨hp, n, hn, h₁⟩, h₂⟩; exact ⟨hp, n, hn, m, h₁, h₂⟩

theorem Chain.first_eq (hc : h.Chain p l) : p = first l := by
  cases l with
  | nil => exact hc
  | cons x l => exact hc.1

theorem Seg.get (hs : h.Seg p l q) (hx : (a, v) ∈ l) : ∃ n, h.get? a = some ⟨v, n, true⟩ := by
  induction l generalizing p with
  | nil => cases hx
  | cons x l ih =>
      obtain ⟨_, n, hn, ht⟩ := hs
      rcases List.mem_cons.mp hx with rfl | hx
      · exact ⟨n, hn⟩
      · exact ih ht hx

theorem Seg.get_of_addr (hs : h.Seg p l q) (ha : a ∈ addrs l) :
    ∃ v n, (a, v) ∈ l ∧ h.get? a = some ⟨v, n, true⟩ := by
  obtain ⟨⟨b, v⟩, hx, rfl⟩ := List.mem_map.mp ha
  obtain ⟨n, hn⟩ := hs.get hx
  exact ⟨v, n, hx, hn⟩

/-- Only the cells of the segment are read. -/
theorem Seg.frame (hs : h.Seg p l q) (hf : ∀ a ∈ addrs l, h'.get? a = h.get? a) : h'.Seg p l q := by
  induction l generalizing p with
  | nil => exact hs
  | cons x l ih =>
      obtain ⟨hp, n, hn, ht⟩ := hs
      exact ⟨hp, n, (hf x.1 (by simp)).trans hn,
        ih ht (fun a ha => hf a (List.mem_cons_of_mem _ ha))⟩

/-- A cell of a segment links to a later cell of it or to its end. -/
theorem Seg.next (hs : h.Seg p l q) (hb : b ∈ addrs l) {c : Cell α} (hc : h.get? b = some c) :
    (∃ a ∈ addrs l.tail, c.next = some a) ∨ c.next = q := by
  induction l generalizing p with
  | nil => cases hb
  | cons x l ih =>
      obtain ⟨_, n, hn, ht⟩ := hs
      rcases List.mem_cons.mp hb with rfl | hb
      · cases hn.symm.trans hc
        cases l with
        | nil => exact Or.inr ht
        | cons y l => exact Or.inl ⟨y.1, by simp, ht.1⟩
      · rcases ih ht hb with ⟨a, ha, h⟩ | h
        · cases l with
          | nil => cases ha
          | cons y l => exact Or.inl ⟨a, List.mem_cons_of_mem _ ha, h⟩
        · exact Or.inr h

theorem Chain.unique (h₁ : h.Chain p l₁) (h₂ : h.Chain p l₂) : l₁ = l₂ := by
  induction l₁ generalizing p l₂ with
  | nil =>
      cases l₂ with
      | nil => rfl
      | cons y l₂ => cases (show p = none from h₁).symm.trans h₂.1
  | cons x l₁ ih =>
      obtain ⟨hp, n, hn, ht⟩ := h₁
      cases l₂ with
      | nil => cases (show p = none from h₂).symm.trans hp
      | cons y l₂ =>
          obtain ⟨hp', n', hn', ht'⟩ := h₂
          obtain ⟨a, v⟩ := x
          obtain ⟨a', v'⟩ := y
          cases hp.symm.trans hp'
          cases hn.symm.trans hn'
          rw [ih ht ht']

/-- A cell met twice would start two suffixes of different lengths. -/
theorem Chain.nodup (hc : h.Chain p l) : (addrs l).Nodup := by
  induction l generalizing p with
  | nil => exact List.nodup_nil
  | cons x l ih =>
      obtain ⟨a, v⟩ := x
      obtain ⟨hp, n, hn, ht⟩ := hc
      refine List.nodup_cons.mpr ⟨fun ha => ?_, ih ht⟩
      obtain ⟨⟨b, w⟩, hx, hb⟩ := List.mem_map.mp ha
      cases show b = a from hb
      obtain ⟨l₁, l₂, rfl⟩ := List.append_of_mem hx
      obtain ⟨m, _, hm, n', hn', ht'⟩ := seg_append.mp ht
      cases hn.symm.trans hn'
      have hlen := congrArg List.length (Chain.unique ht ht')
      simp only [List.length_append, List.length_cons] at hlen
      omega

theorem Chain.length_le_size (hc : h.Chain p l) : l.length ≤ h.size := by
  have hsub : addrs l ⊆ List.range h.size := by
    intro a ha
    obtain ⟨_, _, _, hg⟩ := hc.get_of_addr ha
    exact List.mem_range.mpr (lt_size_of_get? hg)
  simpa using (hc.nodup.subperm hsub).length_le

theorem Chain.val_unique (hc : h.Chain p l) (h₁ : (a, v) ∈ l) (h₂ : (a, w) ∈ l) : v = w := by
  obtain ⟨n, hn⟩ := hc.get h₁
  obtain ⟨m, hm⟩ := hc.get h₂
  cases hn.symm.trans hm
  rfl

/-! ## What the loops find -/

theorem follow_chain {n : Nat} (hc : h.Chain p l) (hn : l.length ≤ n) : h.follow n p = l := by
  induction l generalizing p n with
  | nil =>
      cases show p = none from hc
      cases n <;> rfl
  | cons x l ih =>
      obtain ⟨hp, m, hm, ht⟩ := hc
      cases n with
      | zero => cases hn
      | succ n =>
          subst hp
          simp only [follow, hm]
          rw [ih ht (Nat.le_of_succ_le_succ hn)]

theorem Chain.toList (hc : h.Chain p l) : h.toList p = l := follow_chain hc hc.length_le_size

theorem walk_found {stop : Cell α → Bool} {c : Cell α} {n : Nat} {prev : Option Addr}
    (hs : h.Seg p l (some a)) (ha : h.get? a = some c) (hc : stop c = true)
    (hl : ∀ b ∈ addrs l, ∀ c, h.get? b = some c → stop c = false) (hn : l.length < n) :
    h.walk stop n prev p = ((l.getLast?.map Prod.fst).or prev, some a) := by
  induction l generalizing p n prev with
  | nil =>
      cases show p = some a from hs
      cases n with
      | zero => cases hn
      | succ n => simp [walk, ha, hc]
  | cons x l ih =>
      obtain ⟨hp, m, hm, ht⟩ := hs
      subst hp
      cases n with
      | zero => cases hn
      | succ n =>
          have hx := hl x.1 (by simp) _ hm
          simp only [walk, hm, hx, Bool.false_eq_true, ↓reduceIte]
          rw [ih ht (fun b hb => hl b (List.mem_cons_of_mem _ hb)) (Nat.lt_of_succ_lt_succ hn)]
          cases h : l.getLast? <;> simp [List.getLast?_cons, h]

theorem walk_none {stop : Cell α → Bool} {n : Nat} {prev : Option Addr} (hc : h.Chain p l)
    (hl : ∀ b ∈ addrs l, ∀ c, h.get? b = some c → stop c = false) (hn : l.length ≤ n) :
    h.walk stop n prev p = ((l.getLast?.map Prod.fst).or prev, none) := by
  induction l generalizing p n prev with
  | nil =>
      cases show p = none from hc
      cases n <;> rfl
  | cons x l ih =>
      obtain ⟨hp, m, hm, ht⟩ := hc
      subst hp
      cases n with
      | zero => cases hn
      | succ n =>
          have hx := hl x.1 (by simp) _ hm
          simp only [walk, hm, hx, Bool.false_eq_true, ↓reduceIte]
          rw [ih ht (fun b hb => hl b (List.mem_cons_of_mem _ hb)) (Nat.le_of_succ_le_succ hn)]
          cases h : l.getLast? <;> simp [List.getLast?_cons, h]

theorem scanPrev_found {stop : Cell α → Bool} {n : Option Addr} (hc : h.Chain p (l₁ ++ (a, v) :: l₂))
    (ha : h.get? a = some ⟨v, n, true⟩) (hs : stop ⟨v, n, true⟩ = true)
    (hl : ∀ b ∈ addrs l₁, ∀ c, h.get? b = some c → stop c = false) :
    h.scanPrev stop p = (l₁.getLast?.map Prod.fst, some a) := by
  obtain ⟨m, h₁, hm, _⟩ := seg_append.mp hc
  subst hm
  have hlen := hc.length_le_size
  simp only [List.length_append, List.length_cons] at hlen
  rw [scanPrev, walk_found h₁ ha hs hl (by omega), Option.or_none]

theorem scanPrev_none {stop : Cell α → Bool} (hc : h.Chain p l)
    (hl : ∀ b ∈ addrs l, ∀ c, h.get? b = some c → stop c = false) :
    h.scanPrev stop p = (l.getLast?.map Prod.fst, none) := by
  rw [scanPrev, walk_none hc hl hc.length_le_size, Option.or_none]

theorem scan_val {f : α → Bool} (hc : h.Chain p l) :
    h.scan (fun c => f c.val) p = (l.find? fun x => f x.2).map Prod.fst := by
  cases hf : l.find? fun x => f x.2 with
  | none =>
      have hall := List.find?_eq_none.mp hf
      rw [scan, scanPrev_none hc]
      · rfl
      · intro b hb c hbc
        obtain ⟨v, n, hx, hg⟩ := hc.get_of_addr hb
        cases hg.symm.trans hbc
        simpa using hall _ hx
  | some x =>
      obtain ⟨a, v⟩ := x
      obtain ⟨hv, l₁, l₂, rfl, hl⟩ := List.find?_eq_some_iff_append.mp hf
      obtain ⟨n, hn⟩ := hc.get (List.mem_append_right l₁ List.mem_cons_self)
      rw [scan, scanPrev_found hc hn hv]
      · rfl
      · intro b hb c hbc
        obtain ⟨w, m, hx, hg⟩ := (seg_append.mp hc).choose_spec.1.get_of_addr hb
        cases hg.symm.trans hbc
        simpa using hl _ hx

/-! ## Changing a chain -/

theorem Seg.setVal (f : α → α) (hs : h.Seg p l q) :
    (h.setVal a f).Seg p (l.map fun x => if x.1 = a then (x.1, f x.2) else x) q := by
  induction l generalizing p with
  | nil => exact hs
  | cons x l ih =>
      obtain ⟨b, v⟩ := x
      obtain ⟨hp, n, hn, ht⟩ := hs
      by_cases hb : b = a
      · subst hb
        simp only [List.map_cons, ↓reduceIte]
        exact ⟨hp, n, by simp [get?_setVal, hn], ih ht⟩
      · simp only [List.map_cons, hb, ↓reduceIte]
        exact ⟨hp, n, by simp [get?_setVal, Ne.symm hb, hn], ih ht⟩

theorem Seg.setNext_frame {n : Option Addr} (hs : h.Seg p l q) (ha : a ∉ addrs l) :
    (h.setNext a n).Seg p l q :=
  hs.frame fun b hb => by
    rw [get?_setNext, if_neg]; rintro rfl; exact ha hb

theorem Seg.free_frame (hs : h.Seg p l q) (ha : a ∉ addrs l) : (h.free a).Seg p l q :=
  hs.frame fun b hb => by
    rw [get?_free, if_neg]; rintro rfl; exact ha hb

theorem Seg.alloc_frame {n : Option Addr} (hs : h.Seg p l q) : (h.alloc w n).1.Seg p l q :=
  hs.frame fun b hb => by
    obtain ⟨_, _, _, hg⟩ := hs.get_of_addr hb
    exact get?_alloc_old w n (Nat.ne_of_lt (lt_size_of_get? hg))

/-- The last cell of a segment decides where the segment ends. -/
theorem Seg.setNext_last {n : Option Addr} (hs : h.Seg p (l ++ [(a, v)]) q) (ha : a ∉ addrs l) :
    (h.setNext a n).Seg p (l ++ [(a, v)]) n := by
  obtain ⟨m, h₁, hm, k, hk, _⟩ := seg_append.mp hs
  exact seg_append.mpr ⟨m, h₁.setNext_frame ha, hm, n, by simp [get?_setNext, hk], rfl⟩

theorem Chain.push (hc : h.Chain p l) : (h.alloc v p).1.Chain (some h.size) ((h.size, v) :: l) :=
  ⟨rfl, p, get?_alloc_new h v p, hc.alloc_frame⟩

/-- `root = root->next; free(root)` -/
theorem Chain.unlink_first {n : Option Addr} (hc : h.Chain p ((a, v) :: l))
    (ha : h.get? a = some ⟨v, n, true⟩) : (h.free a).Chain n l := by
  have hnd := List.nodup_cons.mp hc.nodup
  obtain ⟨_, m, hm, ht⟩ := hc
  cases hm.symm.trans ha
  exact ht.free_frame hnd.1

/-- `prev->next = here->next; free(here)` -/
theorem Chain.unlink {n : Option Addr} (hc : h.Chain p (l₁ ++ (b, w) :: (a, v) :: l₂))
    (ha : h.get? a = some ⟨v, n, true⟩) :
    ((h.setNext b n).free a).Chain p (l₁ ++ (b, w) :: l₂) := by
  have hnd := hc.nodup
  rw [show l₁ ++ (b, w) :: (a, v) :: l₂ = (l₁ ++ [(b, w)]) ++ (a, v) :: l₂ by simp] at hc hnd
  simp only [addrs, List.map_append, List.map_cons, List.map_nil] at hnd
  obtain ⟨m, h₁, hm, k, hk, ht⟩ := seg_append.mp hc
  cases ha.symm.trans hk
  have hb : b ∉ addrs l₁ := by grind
  have ha₁ : a ∉ addrs (l₁ ++ [(b, w)]) := by simp only [addrs, List.map_append]; grind
  have ha₂ : a ∉ addrs l₂ := by grind
  have hb₂ : b ∉ addrs l₂ := by grind
  rw [show l₁ ++ (b, w) :: l₂ = (l₁ ++ [(b, w)]) ++ l₂ by simp]
  exact seg_append.mpr
    ⟨n, (h₁.setNext_last hb).free_frame ha₁, (ht.setNext_frame hb₂).free_frame ha₂⟩

/-- `memb->next = root; root = memb` -/
theorem Chain.link_first {n : Option Addr} (hc : h.Chain p l) (ha : h.get? a = some ⟨v, n, true⟩)
    (hn : a ∉ addrs l) : (h.setNext a p).Chain (some a) ((a, v) :: l) :=
  ⟨rfl, p, by simp [get?_setNext, ha], hc.setNext_frame hn⟩

/-- `prev->next = memb; memb->next = here` -/
theorem Chain.link {n : Option Addr} (hc : h.Chain p (l₁ ++ (b, w) :: l₂))
    (ha : h.get? a = some ⟨v, n, true⟩) (hn : a ∉ addrs (l₁ ++ (b, w) :: l₂)) :
    ((h.setNext b (some a)).setNext a (first l₂)).Chain p (l₁ ++ (b, w) :: (a, v) :: l₂) := by
  have hnd := hc.nodup
  rw [show l₁ ++ (b, w) :: l₂ = (l₁ ++ [(b, w)]) ++ l₂ by simp] at hc hnd hn
  rw [show l₁ ++ (b, w) :: (a, v) :: l₂ = (l₁ ++ [(b, w)]) ++ (a, v) :: l₂ by simp]
  simp only [addrs, List.map_append, List.map_cons, List.map_nil] at hnd hn
  obtain ⟨m, h₁, ht⟩ := seg_append.mp hc
  have hm : m = first l₂ := Chain.first_eq ht
  subst hm
  have hb : b ∉ addrs l₁ := by grind
  have hb₂ : b ∉ addrs l₂ := by grind
  have ha₁ : a ∉ addrs (l₁ ++ [(b, w)]) := by simp only [addrs, List.map_append]; grind
  have ha₂ : a ∉ addrs l₂ := by grind
  have hab : b ≠ a := by rintro rfl; simp at hn
  refine seg_append.mpr ⟨some a, (h₁.setNext_last hb).setNext_frame ha₁, rfl, first l₂, ?_,
    (ht.setNext_frame hb₂).setNext_frame ha₂⟩
  simp [get?_setNext, hab, ha]

end Heap

end Lib
