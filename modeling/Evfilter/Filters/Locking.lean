import Evfilter.Filters.Stream
import Mathlib.Algebra.Ring.Parity

/-!
# A locked key

KeyLock holds its key down from one press to the next. Releases are dropped, and every second press is sent as a
release. Repeats are sent as they come.
-/

namespace Evfilter.Filters
open Lib

/-- The value of an event of that key. -/
def keyValue (key : Int32) (ev : InputEvent) : Option Int32 :=
  if ev.type = evKey ∧ ev.key = key then some ev.value else none

def keyValues (key : Int32) (evs : List InputEvent) : List Int32 := evs.filterMap (keyValue key)

/-! ## Sequences of values -/

/-- Follows whether a key is down. -/
def keyState : Transducer Bool Int32 Empty where
  step := fun down v => (if v = 1 then true else if v = 0 then false else down, [])

/-- A press of a key that is up, a release or a repeat of one that is down. -/
def Legal (down : Bool) (v : Int32) : Prop := v = 1 ∧ down = false ∨ (v = 0 ∨ v = 2) ∧ down = true

instance (down : Bool) (v : Int32) : Decidable (Legal down v) := inferInstanceAs (Decidable (_ ∨ _))

/-- Presses, each with repeats and a release after it. -/
def WellFormed (vs : List Int32) : Prop := keyState.Along Legal false vs

instance (vs : List Int32) : Decidable (WellFormed vs) := inferInstanceAs (Decidable (keyState.Along _ _ _))

def presses (vs : List Int32) : Nat := vs.count 1

/-- What KeyLock does to the values of its key. -/
def lock : Transducer Int32 Int32 Int32 where
  step := fun state v =>
    if v = 0 then (state, [])
    else if v = 1 then if state = 0 then (1, [1]) else (0, [0])
    else (state, [v])

variable {vs : List Int32} {v : Int32}

/-- The state of the lock, the key as it is seen behind the filter and the number of presses. -/
structure Parity (vs : List Int32) (state : Int32) (sent : List Int32) : Prop where
  bit : state = 0 ∨ state = 1
  down : keyState.state false sent = decide (state = 1)
  odd : state = 1 ↔ Odd (presses vs)

theorem presses_press : presses (vs ++ [1]) = presses vs + 1 := by
  rw [presses, List.count_append, List.count_singleton_self, presses]

theorem presses_other (h : v ≠ 1) : presses (vs ++ [v]) = presses vs := by
  rw [presses, List.count_append, List.count_singleton, if_neg (by simpa using h), Nat.add_zero, presses]

theorem lock_other {state : Int32} (hzero : v ≠ 0) (hone : v ≠ 1) : lock.step state v = (state, [v]) := by
  simp only [lock, if_neg hzero, if_neg hone]

theorem keyState_concat {sent : List Int32} : keyState.state false (sent ++ [v]) =
    if v = 1 then true else if v = 0 then false else keyState.state false sent := Transducer.state_concat

theorem Parity.step {state : Int32} {sent : List Int32} (h : Parity vs state sent) (v : Int32) :
    Parity (vs ++ [v]) (lock.step state v).1 (sent ++ (lock.step state v).2) := by
  obtain ⟨hbit, hdown, hodd⟩ := h
  by_cases hzero : v = 0
  · subst hzero
    have hstep : lock.step state 0 = (state, []) := rfl
    rw [hstep, List.append_nil]
    exact ⟨hbit, hdown, by rw [presses_other (by decide)]; exact hodd⟩
  by_cases hone : v = 1
  · subst hone
    rcases hbit with rfl | rfl
    · have heven : ¬ Odd (presses vs) := fun h => absurd (hodd.mpr h) (by decide)
      have hstep : lock.step 0 1 = (1, [1]) := rfl
      rw [hstep]
      refine ⟨Or.inr rfl, by rw [keyState_concat]; rfl, ?_⟩
      rw [presses_press, Nat.odd_add_one]
      exact iff_of_true rfl heven
    · have hstep : lock.step 1 1 = (0, [0]) := rfl
      rw [hstep]
      refine ⟨Or.inl rfl, by rw [keyState_concat]; rfl, ?_⟩
      rw [presses_press, Nat.odd_add_one]
      exact iff_of_false (by decide) (not_not.mpr (hodd.mp rfl))
  · rw [lock_other hzero hone]
    refine ⟨hbit, ?_, by rw [presses_other hone]; exact hodd⟩
    rw [keyState_concat, if_neg hone, if_neg hzero, hdown]

theorem lock_parity (vs : List Int32) : Parity vs (lock.state 0 vs) (lock.outputs 0 vs) :=
  Transducer.along_true.relates (fun vs state sent => Parity vs state sent) ⟨Or.inl rfl, rfl, by decide⟩
    fun _ _ _ v h _ => h.step v

/-- Every repeat comes after an odd number of presses. -/
def RepeatsWhileHeld (vs : List Int32) : Prop :=
  Transducer.history.Along (fun before v => v = 2 → Odd (presses before)) [] vs

/-- What is sent for one value. -/
theorem legal_sent {state : Int32} {sent : List Int32} (h : Parity vs state sent) (hv : v = 0 ∨ v = 1 ∨ v = 2) :
    keyState.Along Legal (keyState.state false sent) (lock.step state v).2 ↔ (v = 2 → Odd (presses vs)) := by
  rw [h.down]
  rcases hv with rfl | rfl | rfl
  · exact iff_of_true trivial fun h => absurd h (by decide)
  · refine iff_of_true ?_ fun h => absurd h (by decide)
    rcases h.bit with rfl | rfl <;> decide
  · rw [lock_other (by decide) (by decide), ← h.odd]
    rcases h.bit with rfl | rfl <;> decide

theorem lock_wellFormed_iff (h : WellFormed vs) : WellFormed (lock.outputs 0 vs) ↔ RepeatsWhileHeld vs := by
  induction vs using List.reverseRecOn with
  | nil => exact Iff.rfl
  | append_singleton vs v ih =>
      obtain ⟨hvs, hv, -⟩ := Transducer.along_append.mp h
      have hvalue : v = 0 ∨ v = 1 ∨ v = 2 := by
        rcases hv with ⟨rfl, -⟩ | ⟨rfl | rfl, -⟩ <;> decide
      rw [Transducer.outputs_concat, WellFormed, Transducer.along_append, RepeatsWhileHeld, Transducer.along_append]
      refine and_congr (ih hvs) ((legal_sent (lock_parity vs) hvalue).trans ?_)
      rw [Transducer.state_history, List.nil_append]
      exact (and_iff_left trivial).symm

/-! ## The filter -/

variable {key : Int32} {ev : InputEvent} {evs : List InputEvent} {priv : KeyLock}

theorem keyValue_eq_some : keyValue key ev = some v ↔ (ev.type = evKey ∧ ev.key = key) ∧ ev.value = v := by
  simp [keyValue]

theorem keyValue_eq_none : keyValue key ev = none ↔ ¬ (ev.type = evKey ∧ ev.key = key) := by
  simp [keyValue]

namespace KeyLock

/-- The SYN_REPORT that is dropped. -/
def Eats (priv : KeyLock) (ev : InputEvent) : Prop :=
  priv.eatNextSync = true ∧ ev.type = evSyn ∧ ev.code = synReport ∧ ev.value = 0

instance : Decidable (Eats priv ev) := inferInstanceAs (Decidable (_ ∧ _))

theorem step_eaten (h : Eats priv ev) :
    (alone KeyLock.modify).step priv ev = ({ priv with eatNextSync := false }, []) := by
  simp only [alone, KeyLock.modify, if_pos (show priv.eatNextSync ∧ ev.type = 0 ∧ ev.code = 0 ∧ ev.value = 0 from h)]
  rfl

/-- An event of the locked key. -/
theorem step_key (h : keyValue priv.key ev = some v) : (alone KeyLock.modify).step priv ev =
    ({ priv with state := (lock.step priv.state v).1, eatNextSync := v = 0 },
      (lock.step priv.state v).2.map fun value => { ev with value := value }) := by
  obtain ⟨hkey, rfl⟩ := keyValue_eq_some.mp h
  have hnot : ¬ Eats priv ev := fun hsyn => absurd (hkey.1.symm.trans hsyn.2.1) (by decide)
  simp only [alone, KeyLock.modify, lock,
    if_neg (show ¬ (priv.eatNextSync ∧ ev.type = 0 ∧ ev.code = 0 ∧ ev.value = 0) from hnot), if_pos hkey]
  by_cases hzero : ev.value = 0
  · simp only [hzero]
    rfl
  have hrelease : decide (ev.value = 0) = false := decide_eq_false hzero
  by_cases hone : ev.value = 1
  · obtain ⟨time, type, code, value⟩ := ev
    obtain rfl : value = 1 := hone
    by_cases hstate : priv.state = 0
    · simp only [if_neg hzero, if_pos hstate, hrelease]
      rfl
    · simp only [if_neg hzero, if_neg hstate, hrelease]
      rfl
  · simp only [if_neg hzero, if_neg hone, hrelease]
    rfl

theorem step_other (hnot : ¬ Eats priv ev) (h : keyValue priv.key ev = none) :
    (alone KeyLock.modify).step priv ev = ({ priv with eatNextSync := false }, [ev]) := by
  simp only [alone, KeyLock.modify,
    if_neg (show ¬ (priv.eatNextSync ∧ ev.type = 0 ∧ ev.code = 0 ∧ ev.value = 0) from hnot),
    if_neg (keyValue_eq_none.mp h)]
  rfl

/-- The key is locked whatever the other events are. -/
theorem simulates_lock (key : Int32) : (alone KeyLock.modify).Simulates lock (fun priv => priv.key = key) KeyLock.state
    (keyValue key) (keyValue key) where
  keep := by
    rintro priv ev rfl
    by_cases heat : Eats priv ev
    · rw [step_eaten heat]
    · cases h : keyValue priv.key ev with
      | none => rw [step_other heat h]
      | some v => rw [step_key h]
  taken := by
    rintro priv ev v rfl h
    have hkey := (keyValue_eq_some.mp h).1
    have hvalue : keyValue priv.key ∘ (fun value => { ev with value := value }) = some :=
      funext fun _ => keyValue_eq_some.mpr ⟨hkey, rfl⟩
    rw [step_key h, List.filterMap_map, hvalue, List.filterMap_some]
    exact ⟨rfl, rfl⟩
  left := by
    rintro priv ev rfl h
    by_cases heat : Eats priv ev
    · rw [step_eaten heat]
      exact ⟨rfl, rfl⟩
    · rw [step_other heat h, List.filterMap_cons_none h]
      exact ⟨rfl, rfl⟩

end KeyLock

section
variable {β : Type} (next : InputEvent → β → InputEvent × β) (b : β)

/-- Behind the filter the locked key is pressed and released in turn, and it is down after each odd press. -/
structure LocksKey (key : Int32) (evs : List InputEvent) : Prop where
  wellFormed : WellFormed (keyValues key ((driven KeyLock.modify next).outputs (evfKeyLockAlloc key, b) evs))
  down : ∀ before, before <+: evs →
    (keyState.state false (keyValues key ((driven KeyLock.modify next).outputs (evfKeyLockAlloc key, b) before)) ↔
      Odd (presses (keyValues key before)))

/-- KeyLock locks its key just if repeats come after odd presses only. -/
theorem keyLock_locks_iff (h : WellFormed (keyValues key evs)) : LocksKey next b key evs ↔
    Transducer.history.Along (fun received ev => keyValue key ev = some 2 → Odd (presses (keyValues key received)))
      [] evs := by
  have hlock (evs : List InputEvent) : keyValues key ((driven KeyLock.modify next).outputs (evfKeyLockAlloc key, b) evs) =
      lock.outputs 0 (keyValues key evs) :=
    (driven_simulates next KeyLock.sendsLast (KeyLock.simulates_lock key)).outputs rfl
  have hrepeats : RepeatsWhileHeld (keyValues key evs) ↔ Transducer.history.Along
      (fun received ev => keyValue key ev = some 2 → Odd (presses (keyValues key received))) [] evs := by
    have hvalues : RepeatsWhileHeld (keyValues key evs) ↔ _ :=
      (Transducer.history_simulates (keyValue key)).along_iff (s := []) trivial
    refine hvalues.trans (Transducer.along_congr fun received ev _ => ?_)
    exact ⟨fun hodd h => hodd 2 h rfl, fun hodd v hv h => hodd (h ▸ hv)⟩
  rw [← hrepeats, ← lock_wellFormed_iff h, ← hlock evs]
  refine ⟨LocksKey.wellFormed, fun hwf => ⟨hwf, fun before _ => ?_⟩⟩
  obtain ⟨-, hdown, hodd⟩ := lock_parity (keyValues key before)
  rw [hlock, hdown, decide_eq_true_iff, hodd]

end

/-- The events of a key with these values. -/
def keyEvents (values : List Int32) : List InputEvent := values.map fun value => ⟨(0, 0), evKey, 30, value⟩

theorem keyLock_holds : LocksKey (Proc.record id) [] 30 (keyEvents [1, 2, 2, 0, 1, 0, 1, 2]) :=
  (keyLock_locks_iff (Proc.record id) [] (by decide)).mpr (by decide)

/-- The second press is held for so long that it repeats. -/
theorem keyLock_repeats : WellFormed (keyValues 30 (keyEvents [1, 0, 1, 2, 0])) ∧
    ¬ LocksKey (Proc.record id) [] 30 (keyEvents [1, 0, 1, 2, 0]) :=
  ⟨by decide, fun h => absurd h.wellFormed (by decide)⟩

end Evfilter.Filters
