import Mathlib.Data.List.Basic
import Mathlib.Data.Option.Basic

/-!
# A heap of linked cells

Cells of one C structure that is linked through a `next` pointer. `malloc` hands out addresses in order
and never twice, so a pointer to a freed cell is never mistaken for a pointer to a later one. `free` only
marks the cell: its content stays readable through `cell?`, and `get?` reads live cells only.
-/

namespace Lib

abbrev Addr := Nat

structure Cell (α : Type) where
  val : α
  next : Option Addr
  live : Bool
deriving DecidableEq, Repr

structure Heap (α : Type) where
  cells : List (Cell α)
deriving DecidableEq, Repr

namespace Heap

variable {α : Type}

def empty : Heap α := ⟨[]⟩

/-- Number of cells ever allocated, also the address of the next one. -/
def size (h : Heap α) : Nat := h.cells.length

/-- The bytes at `a`, freed or not. -/
def cell? (h : Heap α) (a : Addr) : Option (Cell α) := h.cells[a]?

/-- A read through a pointer that may be used. -/
def get? (h : Heap α) (a : Addr) : Option (Cell α) := (h.cell? a).filter (·.live)

def Live (h : Heap α) (a : Addr) : Prop := ∃ c, h.get? a = some c

instance (h : Heap α) (a : Addr) : Decidable (h.Live a) :=
  decidable_of_iff ((h.get? a).isSome = true) Option.isSome_iff_exists

def alloc (h : Heap α) (v : α) (next : Option Addr) : Heap α × Addr :=
  (⟨h.cells ++ [⟨v, next, true⟩]⟩, h.cells.length)

def modify (h : Heap α) (a : Addr) (f : Cell α → Cell α) : Heap α := ⟨h.cells.modify a f⟩

def setVal (h : Heap α) (a : Addr) (f : α → α) : Heap α :=
  h.modify a fun c => { c with val := f c.val }

def setNext (h : Heap α) (a : Addr) (next : Option Addr) : Heap α :=
  h.modify a fun c => { c with next := next }

def free (h : Heap α) (a : Addr) : Heap α := h.modify a fun c => { c with live := false }

/-! ## Reading after writing -/

theorem get?_eq_some {h : Heap α} {a : Addr} {c : Cell α} :
    h.get? a = some c ↔ h.cell? a = some c ∧ c.live = true := by
  simp [get?, Option.filter_eq_some_iff]

theorem lt_size_of_cell? {h : Heap α} {a : Addr} {c : Cell α} (hc : h.cell? a = some c) : a < h.size :=
  (List.getElem?_eq_some_iff.mp hc).1

theorem lt_size_of_get? {h : Heap α} {a : Addr} {c : Cell α} (hc : h.get? a = some c) : a < h.size :=
  lt_size_of_cell? (get?_eq_some.mp hc).1

@[simp] theorem cell?_empty (a : Addr) : (empty : Heap α).cell? a = none := by simp [cell?, empty]

@[simp] theorem get?_empty (a : Addr) : (empty : Heap α).get? a = none := by simp [get?]

@[simp] theorem size_modify (h : Heap α) (a : Addr) (f : Cell α → Cell α) :
    (h.modify a f).size = h.size := by
  simp [size, modify]

@[simp] theorem size_setVal (h : Heap α) (a : Addr) (f : α → α) : (h.setVal a f).size = h.size :=
  size_modify _ _ _

@[simp] theorem size_setNext (h : Heap α) (a : Addr) (n : Option Addr) :
    (h.setNext a n).size = h.size :=
  size_modify _ _ _

@[simp] theorem size_free (h : Heap α) (a : Addr) : (h.free a).size = h.size := size_modify _ _ _

theorem cell?_modify (h : Heap α) (a b : Addr) (f : Cell α → Cell α) :
    (h.modify a f).cell? b = if a = b then (h.cell? b).map f else h.cell? b := by
  simp only [cell?, modify, List.getElem?_modify]
  split <;> simp_all

theorem cell?_setVal (h : Heap α) (a b : Addr) (f : α → α) :
    (h.setVal a f).cell? b =
      if a = b then (h.cell? b).map fun c => { c with val := f c.val } else h.cell? b :=
  cell?_modify ..

theorem cell?_setNext (h : Heap α) (a b : Addr) (n : Option Addr) :
    (h.setNext a n).cell? b =
      if a = b then (h.cell? b).map fun c => { c with next := n } else h.cell? b :=
  cell?_modify ..

theorem cell?_free (h : Heap α) (a b : Addr) :
    (h.free a).cell? b =
      if a = b then (h.cell? b).map fun c => { c with live := false } else h.cell? b :=
  cell?_modify ..

theorem get?_setVal (h : Heap α) (a b : Addr) (f : α → α) :
    (h.setVal a f).get? b =
      if a = b then (h.get? b).map fun c => { c with val := f c.val } else h.get? b := by
  simp only [get?, cell?_setVal]
  split
  · cases h.cell? b with
    | none => rfl
    | some c => cases hl : c.live <;> simp [Option.filter, hl]
  · rfl

theorem get?_setNext (h : Heap α) (a b : Addr) (n : Option Addr) :
    (h.setNext a n).get? b =
      if a = b then (h.get? b).map fun c => { c with next := n } else h.get? b := by
  simp only [get?, cell?_setNext]
  split
  · cases h.cell? b with
    | none => rfl
    | some c => cases hl : c.live <;> simp [Option.filter, hl]
  · rfl

theorem get?_free (h : Heap α) (a b : Addr) :
    (h.free a).get? b = if a = b then none else h.get? b := by
  simp only [get?, cell?_free]
  split
  · cases h.cell? b <;> simp [Option.filter]
  · rfl

@[simp] theorem size_alloc (h : Heap α) (v : α) (n : Option Addr) :
    (h.alloc v n).1.size = h.size + 1 := by
  simp [alloc, size]

theorem cell?_alloc_new (h : Heap α) (v : α) (n : Option Addr) :
    (h.alloc v n).1.cell? h.size = some ⟨v, n, true⟩ := by
  simp [alloc, cell?, size]

theorem cell?_alloc_old {h : Heap α} (v : α) (n : Option Addr) {a : Addr} (ha : a ≠ h.size) :
    (h.alloc v n).1.cell? a = h.cell? a := by
  simp only [alloc, cell?]
  rcases Nat.lt_or_gt_of_ne ha with hlt | hgt
  · exact List.getElem?_append_left hlt
  · rw [List.getElem?_eq_none (Nat.le_of_lt hgt),
      List.getElem?_eq_none (by rw [List.length_append]; exact hgt)]

theorem get?_alloc_new (h : Heap α) (v : α) (n : Option Addr) :
    (h.alloc v n).1.get? h.size = some ⟨v, n, true⟩ := by
  rw [get?, cell?_alloc_new]; rfl

theorem get?_alloc_old {h : Heap α} (v : α) (n : Option Addr) {a : Addr} (ha : a ≠ h.size) :
    (h.alloc v n).1.get? a = h.get? a := by
  rw [get?, get?, cell?_alloc_old v n ha]

end Heap

end Lib
