import Mathlib.Logic.Basic

/-!
# Machines that take one input at a time

A machine steps on an input or refuses it. Runs are lists of inputs. A property of states is followed
along a run (`Throughout`), and so is a condition on the steps taken (`Along`). The rules at the end
derive the one from the other by an invariant.
-/

namespace Lib

/-- `step s i = none` means that `i` is not an input of state `s`. -/
structure Machine (σ ι : Type) where
  init : σ
  step : σ → ι → Option σ

namespace Machine

variable {σ ι : Type} (M : Machine σ ι)

/-! ## Runs -/

/-- The state after all inputs, if every one of them is taken. -/
def run (s : σ) : List ι → Option σ
  | [] => some s
  | i :: is => (M.step s i).bind fun s' => run s' is

inductive Reachable : σ → Prop
  | init : Reachable M.init
  | step {s s' : σ} {i : ι} : Reachable s → M.step s i = some s' → Reachable s'

/-- `P` holds of `s` and of every state that the inputs lead to, up to the first one refused. -/
def Throughout (P : σ → Prop) (s : σ) : List ι → Prop
  | [] => P s
  | i :: is => P s ∧ ∀ s', M.step s i = some s' → Throughout P s' is

/-- Every step taken on the inputs meets `C`. -/
def Along (C : σ → ι → Prop) (s : σ) : List ι → Prop
  | [] => True
  | i :: is => ∀ s', M.step s i = some s' → C s i ∧ Along C s' is

variable {M} {P Q : σ → Prop} {C D : σ → ι → Prop} {s s' : σ} {is : List ι}

theorem run_cons {i : ι} : M.run s (i :: is) = (M.step s i).bind fun s' => M.run s' is := rfl

theorem run_append {js : List ι} :
    M.run s (is ++ js) = (M.run s is).bind fun s' => M.run s' js := by
  induction is generalizing s with
  | nil => rfl
  | cons i is ih =>
      rw [List.cons_append, run_cons, run_cons]
      cases M.step s i with
      | none => rfl
      | some t => exact ih

theorem Reachable.run (h : M.Reachable s) (hr : M.run s is = some s') : M.Reachable s' := by
  induction is generalizing s with
  | nil => cases hr; exact h
  | cons i is ih =>
      obtain ⟨t, ht, hr⟩ := Option.bind_eq_some_iff.mp hr
      exact ih (h.step ht) hr

theorem reachable_iff : M.Reachable s ↔ ∃ is, M.run M.init is = some s := by
  constructor
  · intro h
    induction h with
    | init => exact ⟨[], rfl⟩
    | @step t t' i _ ht ih =>
        obtain ⟨is, hr⟩ := ih
        refine ⟨is ++ [i], ?_⟩
        rw [run_append, hr]
        simp [Machine.run, ht]
  · rintro ⟨is, hr⟩
    exact Reachable.init.run hr

theorem Throughout.head (h : M.Throughout P s is) : P s := by
  cases is with
  | nil => exact h
  | cons i is => exact h.1

theorem Throughout.last (h : M.Throughout P s is) (hr : M.run s is = some s') : P s' := by
  induction is generalizing s with
  | nil => cases hr; exact h
  | cons i is ih =>
      obtain ⟨t, ht, hr⟩ := Option.bind_eq_some_iff.mp hr
      exact ih (h.2 t ht) hr

theorem Throughout.mono (h : M.Throughout P s is) (hPQ : ∀ s, P s → Q s) : M.Throughout Q s is := by
  induction is generalizing s with
  | nil => exact hPQ s h
  | cons i is ih => exact ⟨hPQ s h.1, fun t ht => ih (h.2 t ht)⟩

theorem Along.and (hC : M.Along C s is) (hD : M.Along D s is) :
    M.Along (fun s i => C s i ∧ D s i) s is := by
  induction is generalizing s with
  | nil => trivial
  | cons i is ih => exact fun t ht => ⟨⟨(hC t ht).1, (hD t ht).1⟩, ih (hC t ht).2 (hD t ht).2⟩

theorem Along.append {js : List ι} (h : M.Along C s (is ++ js)) (hr : M.run s is = some s') :
    M.Along C s is ∧ M.Along C s' js := by
  induction is generalizing s with
  | nil =>
      cases hr
      exact ⟨trivial, h⟩
  | cons i is ih =>
      obtain ⟨t, ht, hr⟩ := Option.bind_eq_some_iff.mp hr
      obtain ⟨hc, hrest⟩ := h t ht
      refine ⟨fun t' ht' => ?_, (ih hrest hr).2⟩
      cases ht.symm.trans ht'
      exact ⟨hc, (ih hrest hr).1⟩

/-- Conditions that can be checked step by step can be checked along a run. -/
instance decidableAlong [∀ s, DecidablePred (C s)] : (s : σ) → (is : List ι) → Decidable (M.Along C s is)
  | _, [] => isTrue trivial
  | s, i :: is => match h : M.step s i with
    | none => isTrue fun t ht => by simp [h] at ht
    | some t =>
      have := decidableAlong t is
      decidable_of_iff (C s i ∧ M.Along C t is) (by simp [Along, h])

/-! ## Rules -/

/-- What holds initially and is kept by every step holds of every reachable state. -/
theorem Reachable.invariant {I : σ → Prop} (h : M.Reachable s) (start : I M.init)
    (keep : ∀ {s s' i}, I s → M.step s i = some s' → I s') : I s := by
  induction h with
  | init => exact start
  | step _ ht ih => exact keep ih ht

/-- An invariant that the steps meeting `C` keep holds throughout a run along `C`. -/
theorem Along.throughout {J : σ → Prop} (h : M.Along C s is) (start : J s)
    (keep : ∀ {s s' i}, J s → C s i → M.step s i = some s' → J s') : M.Throughout J s is := by
  induction is generalizing s with
  | nil => exact start
  | cons i is ih => exact ⟨start, fun t ht => ih (h t ht).2 (keep start (h t ht).1 ht)⟩

/-- The converse: as long as `J` holds, a step of a run along `D` can only end in `P` if it meets `C`. -/
theorem Throughout.along {J : σ → Prop} (h : M.Throughout P s is) (hD : M.Along D s is) (start : J s)
    (keep : ∀ {s s' i}, J s → D s i → C s i → M.step s i = some s' → J s')
    (only : ∀ {s s' i}, J s → D s i → M.step s i = some s' → P s' → C s i) : M.Along C s is := by
  induction is generalizing s with
  | nil => trivial
  | cons i is ih =>
      intro t ht
      have hc : C s i := only start (hD t ht).1 ht (h.2 t ht).head
      exact ⟨hc, ih (h.2 t ht) (hD t ht).2 (keep start (hD t ht).1 hc ht)⟩

theorem Along.imp {J : σ → Prop} (h : M.Along C s is) (start : J s)
    (keep : ∀ {s s' i}, J s → C s i → M.step s i = some s' → J s')
    (imp : ∀ {s s' i}, J s → C s i → M.step s i = some s' → D s i) : M.Along D s is := by
  induction is generalizing s with
  | nil => trivial
  | cons i is ih =>
      intro t ht
      obtain ⟨hc, hs⟩ := h t ht
      exact ⟨imp start hc ht, ih hs (keep start hc ht)⟩

/-- Two conditions on steps that agree wherever an invariant holds that they keep in a `D`-run. -/
theorem Along.congr {J : σ → Prop} {E : σ → ι → Prop} (hD : M.Along D s is) (start : J s)
    (keep : ∀ {s s' i}, J s → D s i → C s i → M.step s i = some s' → J s')
    (agree : ∀ {s s' i}, J s → D s i → M.step s i = some s' → (C s i ↔ E s i)) :
    M.Along C s is ↔ M.Along E s is := by
  constructor
  · intro h
    refine (hD.and h).imp start (fun hj hc => keep hj hc.1 hc.2) fun hj hc hs => ?_
    exact (agree hj hc.1 hs).mp hc.2
  · intro h
    refine (hD.and h).imp start (fun hj hc hs => ?_) fun hj hc hs => (agree hj hc.1 hs).mpr hc.2
    exact keep hj hc.1 ((agree hj hc.1 hs).mpr hc.2) hs

theorem along_true : M.Along (fun _ _ => True) s is := by
  induction is generalizing s with
  | nil => trivial
  | cons i is ih => exact fun _ _ => ⟨trivial, ih⟩

end Machine

end Lib
