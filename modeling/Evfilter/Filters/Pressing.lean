import Evfilter.Filters.Lemmas.Answers
import Evfilter.Filters.Locking

/-!
# The key of PressureToKey

PressureToKey sends every event as it is. Behind those of pressure it presses and releases its key, so that the key is
down while the pressure meets the threshold.
-/

namespace Evfilter.Filters
open Lib

variable {σ β : Type}

/-- What is sent for each event behind the first one. -/
def added (T : Transducer σ InputEvent InputEvent) : Transducer σ InputEvent InputEvent where
  step := fun s ev => ((T.step s ev).1, (T.step s ev).2.tail)

/-- A press, a release, a press and so on. -/
def Alternates (vs : List Int32) : Prop := keyState.Along (fun down v => v = if down then 0 else 1) false vs

instance (vs : List Int32) : Decidable (Alternates vs) := inferInstanceAs (Decidable (keyState.Along _ _ _))

/-- The key as it is seen behind the filter, by the events that are added. -/
def addedKey (T : Transducer σ InputEvent InputEvent) (s : σ) (evs : List InputEvent) : Bool :=
  keyState.state false (((added T).outputs s evs).map InputEvent.value)

/-- The same by all events that are sent. -/
def seenKey (T : Transducer σ InputEvent InputEvent) (s : σ) (code : UInt16) (evs : List InputEvent) : Bool :=
  keyState.state false (keyValues code.toUInt32.toInt32 (T.outputs s evs))

structure Presses (T : Transducer σ InputEvent InputEvent) (s : σ) (treshold key : Int32)
    (evs : List InputEvent) : Prop where
  /-- Each event is sent first, and at most one is added to it, if it is one of pressure. -/
  forwards : T.Along (fun s ev => ∃ es, (T.step s ev).2 = ev :: es ∧ (es = [] ∨ ev.IsPressure ∧ ∃ e, es = [e])) s evs
  keys : ∀ e ∈ (added T).outputs s evs, e.type = evKey ∧ e.code = toCode key
  alternates : Alternates (((added T).outputs s evs).map InputEvent.value)
  pressed : ∀ before ev after, evs = before ++ ev :: after → ev.IsPressure →
    addedKey T s (before ++ [ev]) = checkTreshold ev.value treshold
  /-- If the device itself sends no events of the key. -/
  seen : ∀ before ev after, evs = before ++ ev :: after → ev.IsPressure →
    keyValues (toCode key).toUInt32.toInt32 before = [] →
      seenKey T s (toCode key) (before ++ [ev]) = checkTreshold ev.value treshold

/-! ## One event -/

variable {next : InputEvent → β → InputEvent × β} {b : β} {p : Pressure} {ev e : InputEvent} {evs sent : List InputEvent}
  {treshold key k : Int32}

namespace Pressure

def adds (p : Pressure) (ev : InputEvent) : List InputEvent := if p.crosses ev then [p.keyEvent ev] else []

def follow (p : Pressure) (ev : InputEvent) : Pressure := if p.crosses ev then { p with pressed := !p.pressed } else p

theorem step_untouched (p : Pressure) (b : β) (ev : InputEvent) (hnext : ∀ ev b, (next ev b).1 = ev) :
    ((driven Pressure.modify next).step (p, b) ev).1.1 = p.follow ev ∧
      ((driven Pressure.modify next).step (p, b) ev).2 = ev :: p.adds ev := by
  simp only [driven, modify_call, Proc.drive_call, Proc.calls_call, hnext, follow, adds]
  split
  · exact ⟨rfl, rfl⟩
  · exact ⟨rfl, rfl⟩

theorem follow_pressed (h : ev.IsPressure) : (p.follow ev).pressed = checkTreshold ev.value p.treshold := by
  cases hp : p.pressed <;> cases hc : checkTreshold ev.value p.treshold <;> simp [follow, crosses, h, hp, hc]

theorem follow_params : (p.follow ev).treshold = p.treshold ∧ (p.follow ev).key = p.key := by
  unfold follow
  split <;> exact ⟨rfl, rfl⟩

theorem isPressure_of_crosses (h : p.crosses ev = true) : ev.IsPressure := by
  rw [crosses, Bool.and_eq_true, decide_eq_true_eq] at h
  exact h.1

theorem mem_adds (h : e ∈ p.adds ev) : p.crosses ev = true ∧ e = p.keyEvent ev := by
  unfold adds at h
  split at h
  · rename_i hc
    exact ⟨hc, List.mem_singleton.mp h⟩
  · cases h

/-- The event that is added turns the key over. -/
theorem adds_along : keyState.Along (fun down v => v = if down then 0 else 1) p.pressed
    ((p.adds ev).map InputEvent.value) := by
  unfold adds
  split
  · exact ⟨rfl, trivial⟩
  · trivial

theorem adds_state : keyState.state p.pressed ((p.adds ev).map InputEvent.value) = (p.follow ev).pressed := by
  unfold adds follow
  split
  · cases hp : p.pressed
    · simp [keyEvent, keyState, Transducer.state, hp]
    · simp [keyEvent, keyState, Transducer.state, hp]
  · rfl

end Pressure

/-! ## Streams -/

/-- What is known of the filter and the events that it has added. -/
structure Follows (treshold key : Int32) (p : Pressure) (sent : List InputEvent) : Prop where
  params : p.treshold = treshold ∧ p.key = key
  keys : ∀ e ∈ sent, e.type = evKey ∧ e.code = toCode key
  alternates : Alternates (sent.map InputEvent.value)
  down : keyState.state false (sent.map InputEvent.value) = p.pressed

theorem Follows.step (h : Follows treshold key p sent) (ev : InputEvent) :
    Follows treshold key (p.follow ev) (sent ++ p.adds ev) where
  params := ⟨p.follow_params.1.trans h.params.1, p.follow_params.2.trans h.params.2⟩
  keys := by
    refine List.forall_mem_append.mpr ⟨h.keys, fun e he => ?_⟩
    obtain ⟨-, rfl⟩ := Pressure.mem_adds he
    exact ⟨rfl, by rw [Pressure.keyEvent, h.params.2]⟩
  alternates := by
    rw [List.map_append, Alternates, Transducer.along_append, h.down]
    exact ⟨h.alternates, Pressure.adds_along⟩
  down := by
    rw [List.map_append, Transducer.state_append, h.down]
    exact Pressure.adds_state

/-- All events that are sent, if the device sends none of the key. -/
theorem seen_step (hk : k = (toCode p.key).toUInt32.toInt32) (h : keyState.state false (keyValues k sent) = p.pressed)
    (hev : keyValue k ev = none) :
    keyState.state false (keyValues k (sent ++ ev :: p.adds ev)) = (p.follow ev).pressed := by
  have hadds : keyValues k (p.adds ev) = (p.adds ev).map InputEvent.value := by
    have hvalue : keyValue k (p.keyEvent ev) = some (p.keyEvent ev).value :=
      keyValue_eq_some.mpr ⟨⟨rfl, hk.symm⟩, rfl⟩
    unfold Pressure.adds
    split
    · exact List.filterMap_cons_some hvalue
    · rfl
  rw [keyValues, List.filterMap_append, List.filterMap_cons_none hev, Transducer.state_append]
  change keyState.state (keyState.state false (keyValues k sent)) (keyValues k (p.adds ev)) = _
  rw [h, hadds, Pressure.adds_state]

variable (b evs treshold key)

theorem follows_run (hnext : ∀ ev b, (next ev b).1 = ev) :
    Follows treshold key ((driven Pressure.modify next).state (evfPressureToKeyAlloc treshold key, b) evs).1
      ((added (driven Pressure.modify next)).outputs (evfPressureToKeyAlloc treshold key, b) evs) := by
  have hstart : Follows treshold key (evfPressureToKeyAlloc treshold key) [] :=
    ⟨⟨rfl, rfl⟩, List.forall_mem_nil _, trivial, rfl⟩
  have hstate : ∀ s, (added (driven Pressure.modify next)).state s evs = (driven Pressure.modify next).state s evs := by
    induction evs with
    | nil => exact fun s => rfl
    | cons ev evs ih => exact fun s => ih _
  rw [← hstate]
  refine (Transducer.along_true (T := added (driven Pressure.modify next))
    (s := (evfPressureToKeyAlloc treshold key, b))).relates
    (fun _ s sent => Follows treshold key s.1 sent) hstart fun _ s sent ev h _ => ?_
  have hstep := Pressure.step_untouched s.1 s.2 ev hnext
  simp only [added, hstep.1, hstep.2, List.tail_cons]
  exact h.step ev

theorem seen_run (hnext : ∀ ev b, (next ev b).1 = ev) (hevs : keyValues (toCode key).toUInt32.toInt32 evs = []) :
    keyState.state false (keyValues (toCode key).toUInt32.toInt32
        ((driven Pressure.modify next).outputs (evfPressureToKeyAlloc treshold key, b) evs)) =
      ((driven Pressure.modify next).state (evfPressureToKeyAlloc treshold key, b) evs).1.pressed := by
  have hnone := List.filterMap_eq_nil_iff.mp hevs
  have hC := Transducer.along_const (T := driven Pressure.modify next)
    (s := (evfPressureToKeyAlloc treshold key, b)).mpr hnone
  refine (hC.relates (fun _ s sent => s.1.key = key ∧
    keyState.state false (keyValues (toCode key).toUInt32.toInt32 sent) = s.1.pressed) ⟨rfl, rfl⟩ ?_).2
  intro _ s sent ev h hev
  have hstep := Pressure.step_untouched s.1 s.2 ev hnext
  rw [hstep.1, hstep.2]
  exact ⟨s.1.follow_params.2.trans h.1, seen_step (by rw [h.1]) h.2 hev⟩

theorem pressed_concat (hnext : ∀ ev b, (next ev b).1 = ev) (hev : ev.IsPressure) :
    ((driven Pressure.modify next).state (evfPressureToKeyAlloc treshold key, b) (evs ++ [ev])).1.pressed =
      checkTreshold ev.value treshold := by
  rw [Transducer.state_concat, (Pressure.step_untouched _ _ _ hnext).1, Pressure.follow_pressed hev,
    (follows_run b evs treshold key hnext).params.1]

/-- PressureToKey in front of filters that leave the event as it is. -/
theorem pressureToKey_presses (hnext : ∀ ev b, (next ev b).1 = ev) :
    Presses (driven Pressure.modify next) (evfPressureToKeyAlloc treshold key, b) treshold key evs where
  forwards := by
    refine Transducer.along_iff.mpr fun before ev after _ => ?_
    generalize (driven Pressure.modify next).state _ before = s
    refine ⟨s.1.adds ev, (Pressure.step_untouched _ _ _ hnext).2, ?_⟩
    unfold Pressure.adds
    split
    · rename_i hc
      exact Or.inr ⟨Pressure.isPressure_of_crosses hc, _, rfl⟩
    · exact Or.inl rfl
  keys := (follows_run b evs treshold key hnext).keys
  alternates := (follows_run b evs treshold key hnext).alternates
  pressed := by
    intro before ev after _ hev
    rw [addedKey, (follows_run b _ treshold key hnext).down, pressed_concat b before treshold key hnext hev]
  seen := by
    intro before ev after _ hev hbefore
    have hnone : keyValue (toCode key).toUInt32.toInt32 ev = none :=
      keyValue_eq_none.mpr fun h => absurd (hev.1.symm.trans h.1) (by decide)
    have hall : keyValues (toCode key).toUInt32.toInt32 (before ++ [ev]) = [] := by
      rw [keyValues, List.filterMap_append, List.filterMap_cons_none hnone]
      exact List.append_eq_nil_iff.mpr ⟨hbefore, rfl⟩
    rw [seenKey, seen_run b _ treshold key hnext hall, pressed_concat b before treshold key hnext hev]

theorem pressureToKey_presses_light : Presses (driven Pressure.modify (Proc.record id))
    (evfPressureToKeyAlloc (-50) 330, []) (-50) 330
    [⟨(0, 0), evAbs, absPressure, 20⟩, ⟨(0, 0), evAbs, absPressure, 60⟩, ⟨(0, 0), evAbs, absPressure, 0⟩] :=
  pressureToKey_presses [] _ (-50) 330 fun _ _ => rfl

end Evfilter.Filters
