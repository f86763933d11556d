import Mathlib.Data.List.Nodup
import Mathlib.Data.List.Perm.Lattice
import Mathlib.Logic.Function.Basic

/-!
# The keys of a table

A table is a partial function. A list that has each of its keys once is kept beside it while keys are inserted and
erased.
-/

namespace Lib

variable {α β : Type} {t t' : α → Option β} {l l' : List α} {a : α}

/-- The list has each key of the table once. -/
structure Keys (t : α → Option β) (l : List α) : Prop where
  nodup : l.Nodup
  mem_iff : ∀ a, a ∈ l ↔ t a ≠ none

namespace Keys

theorem empty : Keys (fun _ : α => (none : Option β)) [] := ⟨List.nodup_nil, by simp⟩

theorem perm (h : Keys t l) (hl : l.Perm l') : Keys t l' :=
  ⟨hl.nodup_iff.mp h.nodup, fun a => hl.mem_iff.symm.trans (h.mem_iff a)⟩

variable [DecidableEq α]

theorem insert (h : Keys t l) (ha : t a = none) (b : β) : Keys (Function.update t a (some b)) (a :: l) where
  nodup := List.nodup_cons.mpr ⟨fun hmem => (h.mem_iff a).mp hmem ha, h.nodup⟩
  mem_iff c := by
    by_cases hc : c = a
    · simp [hc]
    · rw [List.mem_cons, h.mem_iff, Function.update_of_ne hc]
      simp [hc]

theorem erase (h : Keys t (a :: l)) : Keys (Function.update t a none) l where
  nodup := (List.nodup_cons.mp h.nodup).2
  mem_iff c := by
    by_cases hc : c = a
    · rw [hc, Function.update_self]
      exact iff_of_false (List.nodup_cons.mp h.nodup).1 (fun hne => hne rfl)
    · rw [Function.update_of_ne hc, ← h.mem_iff, List.mem_cons]
      simp [hc]

end Keys

end Lib
