import Mathlib.Data.List.Induction

/-!
# Transducers

A transducer takes one input at a time and answers it with some outputs. A run is followed by what has been taken and
what has been sent so far. If a transducer does to a part of its inputs and outputs what another one does to all of its
own, the two are compared by a view of the states.
-/

namespace Lib

structure Transducer (σ ι ω : Type) where
  step : σ → ι → σ × List ω

namespace Transducer

variable {σ τ ι κ ω μ : Type} (T : Transducer σ ι ω)

/-! ## Runs -/

def state (s : σ) : List ι → σ
  | [] => s
  | i :: is => state (T.step s i).1 is

def outputs (s : σ) : List ι → List ω
  | [] => []
  | i :: is => (T.step s i).2 ++ outputs (T.step s i).1 is

/-- `C` holds of every input and the state that it meets. -/
def Along (C : σ → ι → Prop) (s : σ) : List ι → Prop
  | [] => True
  | i :: is => C s i ∧ Along C (T.step s i).1 is

/-- Several inputs are taken at once. -/
def batch (inputs : κ → List ι) : Transducer σ κ ω where
  step := fun s k => (T.state s (inputs k), T.outputs s (inputs k))

/-- Sends what it takes. -/
def echo : Transducer Unit ι ι where
  step := fun _ i => ((), [i])

/-- Keeps what it takes. -/
def history : Transducer (List ι) ι Empty where
  step := fun is i => (is ++ [i], [])

variable {T} {U : Transducer τ κ μ} {C D : σ → ι → Prop} {s : σ} {i : ι} {is js : List ι}

theorem state_append : T.state s (is ++ js) = T.state (T.state s is) js := by
  induction is generalizing s with
  | nil => rfl
  | cons i is ih => exact ih

theorem outputs_append : T.outputs s (is ++ js) = T.outputs s is ++ T.outputs (T.state s is) js := by
  induction is generalizing s with
  | nil => rfl
  | cons i is ih => rw [List.cons_append, outputs, ih, outputs, List.append_assoc, state]

theorem state_concat : T.state s (is ++ [i]) = (T.step (T.state s is) i).1 := state_append

theorem outputs_concat : T.outputs s (is ++ [i]) = T.outputs s is ++ (T.step (T.state s is) i).2 := by
  rw [outputs_append, outputs, outputs, List.append_nil]

theorem outputs_echo : (echo (ι := ι)).outputs () is = is := by
  induction is with
  | nil => rfl
  | cons i is ih => exact congrArg (i :: ·) ih

theorem state_history : history.state is js = is ++ js := by
  induction js generalizing is with
  | nil => exact (List.append_nil is).symm
  | cons j js ih => rw [state, ih, history, List.append_assoc, List.singleton_append]

instance decidableAlong [∀ s, DecidablePred (C s)] : (s : σ) → (is : List ι) → Decidable (T.Along C s is)
  | _, [] => isTrue trivial
  | s, i :: is =>
    have := decidableAlong (T.step s i).1 is
    inferInstanceAs (Decidable (C s i ∧ T.Along C (T.step s i).1 is))

/-! ## Rules -/

theorem along_iff : T.Along C s is ↔ ∀ before i after, is = before ++ i :: after → C (T.state s before) i := by
  induction is generalizing s with
  | nil => simp [Along]
  | cons i is ih =>
      rw [Along, ih]
      constructor
      · rintro ⟨hi, his⟩ before j after heq
        cases before with
        | nil =>
            obtain ⟨rfl, rfl⟩ := List.cons.inj heq
            exact hi
        | cons k before =>
            obtain ⟨rfl, hrest⟩ := List.cons.inj heq
            exact his before j after hrest
      · intro h
        exact ⟨h [] i is rfl, fun before j after heq => h (i :: before) j after (heq ▸ rfl)⟩

theorem along_append : T.Along C s (is ++ js) ↔ T.Along C s is ∧ T.Along C (T.state s is) js := by
  induction is generalizing s with
  | nil => simp [Along, state]
  | cons i is ih => rw [List.cons_append, Along, ih, Along, and_assoc, state]

/-- What relates the inputs, the state and the outputs at the start, and is kept by every step that meets `C`. -/
theorem Along.relates (R : List ι → σ → List ω → Prop) (h : T.Along C s is) (start : R [] s [])
    (keep : ∀ is t os i, R is t os → C t i → R (is ++ [i]) (T.step t i).1 (os ++ (T.step t i).2)) :
    R is (T.state s is) (T.outputs s is) := by
  induction is using List.reverseRecOn with
  | nil => exact start
  | append_singleton is i ih =>
      obtain ⟨his, hi, -⟩ := along_append.mp h
      rw [state_concat, outputs_concat]
      exact keep is _ _ i (ih his) hi

theorem along_true : T.Along (fun _ _ => True) s is := along_iff.mpr fun _ _ _ _ => trivial

theorem invariant {J : σ → Prop} (start : J s) (keep : ∀ t i, J t → J (T.step t i).1) : J (T.state s is) :=
  along_true.relates (fun _ t _ => J t) start fun _ t _ i ht _ => keep t i ht

/-- What all outputs of a step have, all outputs of a run have. -/
theorem forall_outputs {P : ω → Prop} (h : ∀ t i, ∀ o ∈ (T.step t i).2, P o) : ∀ o ∈ T.outputs s is, P o :=
  along_true.relates (fun _ _ os => ∀ o ∈ os, P o) (List.forall_mem_nil P) fun _ t _ i hos _ =>
    List.forall_mem_append.mpr ⟨hos, h t i⟩

theorem Along.mono {J : σ → Prop} (h : T.Along C s is) (start : J s) (keep : ∀ t i, J t → J (T.step t i).1)
    (imp : ∀ t i, J t → C t i → D t i) : T.Along D s is :=
  along_iff.mpr fun before i after heq => imp _ i (invariant start keep) (along_iff.mp h before i after heq)

/-- Two conditions that agree wherever an invariant holds. -/
theorem Along.congr {J : σ → Prop} (start : J s) (keep : ∀ t i, J t → J (T.step t i).1)
    (agree : ∀ t i, J t → (C t i ↔ D t i)) : T.Along C s is ↔ T.Along D s is :=
  ⟨fun h => h.mono start keep fun t i ht => (agree t i ht).mp, fun h => h.mono start keep fun t i ht => (agree t i ht).mpr⟩

theorem along_congr (h : ∀ t, ∀ i ∈ is, C t i ↔ D t i) : T.Along C s is ↔ T.Along D s is := by
  rw [along_iff, along_iff]
  exact forall_congr' fun before => forall₃_congr fun i after heq => h _ i (heq ▸ by simp)

theorem along_const {P : ι → Prop} : T.Along (fun _ i => P i) s is ↔ ∀ i ∈ is, P i := by
  induction is generalizing s with
  | nil => simp [Along]
  | cons i is ih => rw [Along, ih, List.forall_mem_cons]

theorem outputs_eq_nil : T.outputs s is = [] ↔ T.Along (fun t i => (T.step t i).2 = []) s is := by
  induction is generalizing s with
  | nil => simp [outputs, Along]
  | cons i is ih => rw [outputs, List.append_eq_nil_iff, ih, Along]

/-- A condition on a part of the state. -/
theorem along_view {U : Transducer τ ι μ} {g : σ → τ} {D : τ → ι → Prop}
    (h : ∀ t i, g (T.step t i).1 = (U.step (g t) i).1) : T.Along (fun t i => D (g t) i) s is ↔ U.Along D (g s) is := by
  induction is generalizing s with
  | nil => exact Iff.rfl
  | cons i is ih => rw [Along, ih, h, Along]

/-- A condition on the state is one on what has been taken since the start. -/
theorem along_history : history.Along (fun is i => C (T.state s is) i) is js ↔ T.Along C (T.state s is) js :=
  along_view fun _ _ => state_concat

theorem batch_along_history {inputs : κ → List ι} {C : σ → κ → Prop} {ks : List κ} :
    (history.batch inputs).Along (fun is k => C (T.state s is) k) is ks ↔
      (T.batch inputs).Along C (T.state s is) ks :=
  along_view fun _ _ => (congrArg (T.state s) state_history).trans state_append

/-- Two runs whose steps answer alike and keep the states related. -/
theorem outputs_related {U : Transducer τ ι ω} {t : τ} (R : σ → τ → Prop)
    (hstep : ∀ s t i, R s t → (T.step s i).2 = (U.step t i).2 ∧ R (T.step s i).1 (U.step t i).1) (h : R s t) :
    T.outputs s is = U.outputs t is := by
  induction is generalizing s t with
  | nil => rfl
  | cons i is ih =>
      obtain ⟨hout, hrel⟩ := hstep s t i h
      rw [outputs, outputs, hout, ih hrel]

/-- Two runs, of which only a part of the outputs is compared, on inputs of a kind. -/
theorem filter_outputs_related {U : Transducer τ ι ω} {t : τ} {p : ω → Bool} {K : ι → Prop} (R : σ → τ → Prop)
    (hstep : ∀ s t i, K i → R s t →
      (T.step s i).2.filter p = (U.step t i).2.filter p ∧ R (T.step s i).1 (U.step t i).1)
    (h : R s t) (his : ∀ i ∈ is, K i) :
    (T.outputs s is).filter p = (U.outputs t is).filter p ∧ R (T.state s is) (U.state t is) := by
  induction is generalizing s t with
  | nil => exact ⟨rfl, h⟩
  | cons i is ih =>
      obtain ⟨hi, his⟩ := List.forall_mem_cons.mp his
      obtain ⟨hout, hrel⟩ := hstep s t i hi h
      obtain ⟨hrest, hend⟩ := ih hrel his
      rw [outputs, outputs, List.filter_append, List.filter_append, hout, hrest]
      exact ⟨rfl, hend⟩

/-- What the first one sends is taken by the second one. -/
def inSeries (T : Transducer σ ι ω) (U : Transducer τ ω μ) : Transducer (σ × τ) ι μ where
  step := fun s i => (((T.step s.1 i).1, U.state s.2 (T.step s.1 i).2), U.outputs s.2 (T.step s.1 i).2)

theorem outputs_inSeries {U : Transducer τ ω μ} {t : τ} :
    (T.inSeries U).outputs (s, t) is = U.outputs t (T.outputs s is) := by
  induction is generalizing s t with
  | nil => rfl
  | cons i is ih =>
      rw [outputs, outputs, outputs_append, ← ih]
      rfl

theorem state_inSeries {U : Transducer τ ω μ} {t : τ} :
    (T.inSeries U).state (s, t) is = (T.state s is, U.state t (T.outputs s is)) := by
  induction is generalizing s t with
  | nil => rfl
  | cons i is ih =>
      rw [outputs, state_append]
      exact ih

/-! ## Simulation -/

/-- On the inputs it takes and the outputs it sees, `U` does what `T` does in the states of an invariant. -/
structure Simulates (T : Transducer σ ι ω) (U : Transducer τ κ μ) (J : σ → Prop) (view : σ → τ)
    (take : ι → Option κ) (see : ω → Option μ) : Prop where
  keep : ∀ s i, J s → J (T.step s i).1
  taken : ∀ s i k, J s → take i = some k →
    view (T.step s i).1 = (U.step (view s) k).1 ∧ (T.step s i).2.filterMap see = (U.step (view s) k).2
  left : ∀ s i, J s → take i = none → view (T.step s i).1 = view s ∧ (T.step s i).2.filterMap see = []

namespace Simulates

variable {J : σ → Prop} {view : σ → τ} {take : ι → Option κ} {see : ω → Option μ}

theorem state (h : T.Simulates U J view take see) (hs : J s) :
    view (T.state s is) = U.state (view s) (is.filterMap take) := by
  induction is generalizing s with
  | nil => rfl
  | cons i is ih =>
      rw [Transducer.state, ih (h.keep s i hs)]
      cases htake : take i with
      | none => rw [List.filterMap_cons_none htake, (h.left s i hs htake).1]
      | some k => rw [List.filterMap_cons_some htake, (h.taken s i k hs htake).1, Transducer.state]

theorem outputs (h : T.Simulates U J view take see) (hs : J s) :
    (T.outputs s is).filterMap see = U.outputs (view s) (is.filterMap take) := by
  induction is generalizing s with
  | nil => rfl
  | cons i is ih =>
      rw [Transducer.outputs, List.filterMap_append, ih (h.keep s i hs)]
      cases htake : take i with
      | none =>
          obtain ⟨hview, hsee⟩ := h.left s i hs htake
          rw [List.filterMap_cons_none htake, hview, hsee, List.nil_append]
      | some k =>
          obtain ⟨hview, hsee⟩ := h.taken s i k hs htake
          rw [List.filterMap_cons_some htake, hview, hsee, Transducer.outputs]

/-- A condition on the steps of `U` is one on the steps of `T`. -/
theorem along_iff {D : τ → κ → Prop} (h : T.Simulates U J view take see) (hs : J s) :
    U.Along D (view s) (is.filterMap take) ↔ T.Along (fun t i => ∀ k, take i = some k → D (view t) k) s is := by
  induction is generalizing s with
  | nil => exact Iff.rfl
  | cons i is ih =>
      rw [Transducer.Along, ← ih (h.keep s i hs)]
      cases htake : take i with
      | none =>
          rw [List.filterMap_cons_none htake, (h.left s i hs htake).1]
          simp
      | some k =>
          rw [List.filterMap_cons_some htake, (h.taken s i k hs htake).1, Transducer.Along]
          simp

/-- What is seen depends only on what is taken. -/
theorem agree (h : T.Simulates U J view take see) (hs : J s) (heq : is.filterMap take = js.filterMap take) :
    view (T.state s is) = view (T.state s js) ∧
      (T.outputs s is).filterMap see = (T.outputs s js).filterMap see := by
  rw [h.state hs, h.state hs, h.outputs hs, h.outputs hs, heq]
  exact ⟨rfl, rfl⟩

end Simulates

/-- A part of what has been taken. -/
theorem history_simulates (take : ι → Option κ) :
    (history (ι := ι)).Simulates history (fun _ => True) (List.filterMap take) take some where
  keep := fun _ _ _ => trivial
  taken := by
    intro is i k _ htake
    exact ⟨by simp [history, htake], rfl⟩
  left := by
    intro is i _ htake
    exact ⟨by simp [history, htake], rfl⟩

end Transducer

end Lib
