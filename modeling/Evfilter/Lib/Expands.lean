import Mathlib.Data.List.Basic

/-!
# Expansions

One list expands to another when each of its elements is replaced, in place, by a list of its own, which may be empty.
Stages that expand what they are given compose to one that does, if the relation composes.
-/

namespace Lib

variable {α β : Type}

inductive Expands (R : α → List β → Prop) : List α → List β → Prop where
  | nil : Expands R [] []
  | cons {a : α} {as : List α} {bs cs : List β} (head : R a bs) (tail : Expands R as cs) :
      Expands R (a :: as) (bs ++ cs)

namespace Expands

variable {γ : Type} {R : α → List β → Prop} {S : β → List γ → Prop} {T : α → List γ → Prop} {a : α} {as as' : List α}
  {bs bs' : List β} {cs : List γ}

theorem single (h : R a bs) : Expands R [a] bs := by
  rw [← List.append_nil bs]
  exact .cons h .nil

theorem append (h : Expands R as bs) (h' : Expands R as' bs') : Expands R (as ++ as') (bs ++ bs') := by
  induction h with
  | nil => exact h'
  | cons head tail ih =>
      rw [List.append_assoc]
      exact .cons head ih

theorem refl {R : α → List α → Prop} (h : ∀ a, R a [a]) (as : List α) : Expands R as as := by
  induction as with
  | nil => exact .nil
  | cons a as ih => exact .cons (h a) ih

theorem mono {R' : α → List β → Prop} (h : Expands R as bs) (hR : ∀ a bs, R a bs → R' a bs) : Expands R' as bs := by
  induction h with
  | nil => exact .nil
  | cons head tail ih => exact .cons (hR _ _ head) ih

/-! ## Composition -/

theorem split (h : Expands S (bs ++ bs') cs) : ∃ ds ds', cs = ds ++ ds' ∧ Expands S bs ds ∧ Expands S bs' ds' := by
  induction bs generalizing cs with
  | nil => exact ⟨[], cs, rfl, .nil, h⟩
  | cons b bs ih =>
      cases h with
      | cons head tail =>
          obtain ⟨ds, ds', rfl, hds, hds'⟩ := ih tail
          exact ⟨_ ++ ds, ds', (List.append_assoc ..).symm, .cons head hds, hds'⟩

theorem trans (h : Expands R as bs) (h' : Expands S bs cs) (hT : ∀ a bs cs, R a bs → Expands S bs cs → T a cs) :
    Expands T as cs := by
  induction h generalizing cs with
  | nil =>
      cases h'
      exact .nil
  | cons head tail ih =>
      obtain ⟨ds, ds', rfl, hds, hds'⟩ := h'.split
      exact .cons (hT _ _ _ head hds) (ih hds')

/-! ## What an expansion keeps -/

theorem of_mem {b : β} (h : Expands R as bs) (hb : b ∈ bs) : ∃ a ∈ as, ∃ ds, R a ds ∧ b ∈ ds := by
  induction h with
  | nil => cases hb
  | cons head tail ih =>
      rcases List.mem_append.mp hb with hb | hb
      · exact ⟨_, List.mem_cons_self, _, head, hb⟩
      · obtain ⟨a, ha, hds⟩ := ih hb
        exact ⟨a, List.mem_cons_of_mem _ ha, hds⟩

/-- What stands for an element that is `r`-before another one is before what stands for that. -/
theorem pairwise {r : α → α → Prop} {q : β → β → Prop} (h : Expands R as bs) (hown : ∀ a ds, R a ds → ds.Pairwise q)
    (hr : ∀ a ds a' ds', R a ds → R a' ds' → r a a' → ∀ b ∈ ds, ∀ b' ∈ ds', q b b') (has : as.Pairwise r) :
    bs.Pairwise q := by
  induction h with
  | nil => exact .nil
  | cons head tail ih =>
      obtain ⟨hbefore, has⟩ := List.pairwise_cons.mp has
      refine List.pairwise_append.mpr ⟨hown _ _ head, ih has, fun b hb b' hb' => ?_⟩
      obtain ⟨a', ha', ds', hds', hb'⟩ := tail.of_mem hb'
      exact hr _ _ _ _ head hds' (hbefore a' ha') b hb b' hb'

/-- A part of the elements that each of them keeps is kept. -/
theorem filter {R : α → List α → Prop} {bs : List α} {p : α → Bool} (h : Expands R as bs)
    (hp : ∀ a ds, R a ds → ds.filter p = [a].filter p) : bs.filter p = as.filter p := by
  induction h with
  | nil => rfl
  | cons head tail ih => rw [List.filter_append, hp _ _ head, ih, ← List.filter_append, List.singleton_append]

end Expands

end Lib
