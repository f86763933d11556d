import Evfilter.Filters.Strokes

/-!
# Kalman

The estimates of the position and the movement of a pen. The floating point arithmetic is a parameter. Each position is
smoothed by the positions on the same axis that have come since the pen was last up, and by nothing else.
-/

namespace Evfilter.Filters
open Lib

/-- The expressions of the filter that are computed in `float`. -/
structure Arithmetic (F : Type) where
  /-- `kalman->vx = 0` -/
  zero : F
  /-- `kalman->x = ev->value` -/
  ofValue : Int32 → F
  /-- `kalman->x + kalman->vx` -/
  est : F → F → F
  /-- `est_x + kalman->kx * (ev->value - est_x)` -/
  corrected : F → F → Int32 → F
  /-- `kalman->vx/10 - 0.1 * (est_x - ev->value)` -/
  slowed : F → F → Int32 → F
  /-- `(int) new_x` -/
  toValue : F → Int32

/-- The fields of one axis. -/
structure KalmanAxis (F : Type) where
  pos : F
  vel : F
  reset : Int32

structure Kalman (F : Type) where
  kx : F
  ky : F
  x : KalmanAxis F
  y : KalmanAxis F

variable {F β : Type} (A : Arithmetic F)

/-- `case ABS_X` and `case ABS_Y`: the axis and the value of the event. -/
def KalmanAxis.smooth (k : F) (axis : KalmanAxis F) (value : Int32) : KalmanAxis F × Int32 :=
  if axis.reset ≠ 0 then ({ axis with pos := A.ofValue value, reset := 0 }, value)
  else
    let est := A.est axis.pos axis.vel
    let new := A.corrected k est value
    ({ axis with pos := new, vel := A.slowed axis.vel est value }, A.toValue new)

/-- The position stays. -/
def KalmanAxis.penUp (axis : KalmanAxis F) : KalmanAxis F := { axis with vel := A.zero, reset := 1 }

def Kalman.modify (kalman : Kalman F) (ev : InputEvent) : Modify (Kalman F × InputEvent) := do
  if ev.type = evAbs ∧ ev.code = absX then
    let after := kalman.x.smooth A kalman.kx ev.value
    let ev ← emit { ev with value := after.2 }
    return ({ kalman with x := after.1 }, ev)
  else if ev.type = evAbs ∧ ev.code = absY then
    let after := kalman.y.smooth A kalman.ky ev.value
    let ev ← emit { ev with value := after.2 }
    return ({ kalman with y := after.1 }, ev)
  else if ev.type = evAbs ∧ ev.code = absPressure ∧ ev.value = 0 then
    let ev ← emit ev
    return ({ kalman with x := kalman.x.penUp A, y := kalman.y.penUp A }, ev)
  else
    let ev ← emit ev
    return (kalman, ev)

/-- `malloc` leaves something in `x` and `y`. -/
def evfKalmanAlloc (kx ky x y : F) : Kalman F :=
  { kx, ky, x := { pos := x, vel := A.zero, reset := 1 }, y := { pos := y, vel := A.zero, reset := 1 } }

/-! ## What a position is smoothed by -/

/-- Position and movement after the positions of a stroke. -/
def estimates (k : F) (values : List Int32) : Option (F × F) :=
  values.foldl (fun estimated value => some (match estimated with
    | none => (A.ofValue value, A.zero)
    | some (pos, vel) => (A.corrected k (A.est pos vel) value, A.slowed vel (A.est pos vel) value))) none

/-- The first position of a stroke is taken as it is. -/
def smoothed (k : F) (values : List Int32) (value : Int32) : Int32 :=
  match estimates A k values with
  | none => value
  | some (pos, vel) => A.toValue (A.corrected k (A.est pos vel) value)

/-- The event, given the events before it. -/
def smoothedEvent (kx ky : F) (before : List InputEvent) (ev : InputEvent) : InputEvent :=
  if ev.type = evAbs ∧ ev.code = absX then
    { ev with value := smoothed A kx (positions absX (stroke before)) ev.value }
  else if ev.type = evAbs ∧ ev.code = absY then
    { ev with value := smoothed A ky (positions absY (stroke before)) ev.value }
  else ev

/-- The stream, with what has come before. -/
def smoothing (kx ky : F) : Transducer (List InputEvent) InputEvent InputEvent where
  step := fun before ev => (before ++ [ev], [smoothedEvent A kx ky before ev])

variable {A} {k kx ky : F} {axis : KalmanAxis F} {kalman : Kalman F} {values : List Int32} {value : Int32}
  {before : List InputEvent} {ev : InputEvent} {code : UInt16}

/-! ## One axis -/

/-- The fields of the axis after the positions of a stroke. -/
def KalmanAxis.Follows (A : Arithmetic F) (k : F) (axis : KalmanAxis F) (values : List Int32) : Prop :=
  match estimates A k values with
  | none => axis.reset ≠ 0 ∧ axis.vel = A.zero
  | some (pos, vel) => axis.reset = 0 ∧ axis.pos = pos ∧ axis.vel = vel

theorem estimates_concat : estimates A k (values ++ [value]) = some (match estimates A k values with
    | none => (A.ofValue value, A.zero)
    | some (pos, vel) => (A.corrected k (A.est pos vel) value, A.slowed vel (A.est pos vel) value)) := by
  rw [estimates, List.foldl_append]
  rfl

theorem KalmanAxis.follows_penUp : (axis.penUp A).Follows A k [] := ⟨show (1 : Int32) ≠ 0 by decide, rfl⟩

/-- The next position of the stroke. -/
theorem KalmanAxis.Follows.smooth (h : axis.Follows A k values) (value : Int32) :
    (axis.smooth A k value).1.Follows A k (values ++ [value]) ∧
      (axis.smooth A k value).2 = smoothed A k values value := by
  unfold Follows at h ⊢
  rw [estimates_concat, smoothed]
  cases hest : estimates A k values with
  | none =>
      simp only [hest] at h
      rw [KalmanAxis.smooth, if_pos h.1]
      exact ⟨⟨rfl, rfl, h.2⟩, rfl⟩
  | some r =>
      obtain ⟨pos, vel⟩ := r
      simp only [hest] at h
      obtain ⟨hreset, rfl, rfl⟩ := h
      rw [KalmanAxis.smooth, if_neg (not_not.mpr hreset)]
      exact ⟨⟨hreset, rfl, rfl⟩, rfl⟩

/-! ## Streams -/

/-- The fields after some events. -/
structure Kalman.Follows (A : Arithmetic F) (kx ky : F) (kalman : Kalman F) (before : List InputEvent) : Prop where
  gains : kalman.kx = kx ∧ kalman.ky = ky
  x : kalman.x.Follows A kx (positions absX (stroke before))
  y : kalman.y.Follows A ky (positions absY (stroke before))

theorem Kalman.follows_alloc (x y : F) : (evfKalmanAlloc A kx ky x y).Follows A kx ky [] :=
  ⟨⟨rfl, rfl⟩, ⟨show (1 : Int32) ≠ 0 by decide, rfl⟩, ⟨show (1 : Int32) ≠ 0 by decide, rfl⟩⟩

/-- The answer of the next filter is what is in the event in the end, and makes no difference otherwise. -/
theorem Kalman.Follows.modify (h : kalman.Follows A kx ky before) (ev : InputEvent) : ∃ kalman' : Kalman F,
    kalman'.Follows A kx ky (before ++ [ev]) ∧
      kalman.modify A ev = .call (smoothedEvent A kx ky before ev) fun r => .done (kalman', r) := by
  obtain ⟨⟨rfl, rfl⟩, hx, hy⟩ := h
  unfold Kalman.modify smoothedEvent
  by_cases habsX : ev.type = evAbs ∧ ev.code = absX
  · have hup : ¬ ev.IsPenUp := fun hup => absurd (habsX.2.symm.trans hup.2.1) (by decide)
    have habsY : ¬ (ev.type = evAbs ∧ ev.code = absY) := fun habsY => absurd (habsX.2.symm.trans habsY.2) (by decide)
    obtain ⟨hfollows, hvalue⟩ := hx.smooth ev.value
    rw [if_pos habsX, if_pos habsX, ← hvalue]
    refine ⟨{ kalman with x := (kalman.x.smooth A kalman.kx ev.value).1 }, ⟨⟨rfl, rfl⟩, ?_, ?_⟩, rfl⟩
    · rw [positions_stroke, if_neg hup, if_pos habsX]
      exact hfollows
    · rw [positions_stroke, if_neg hup, if_neg habsY, List.append_nil]
      exact hy
  rw [if_neg habsX, if_neg habsX]
  by_cases habsY : ev.type = evAbs ∧ ev.code = absY
  · have hup : ¬ ev.IsPenUp := fun hup => absurd (habsY.2.symm.trans hup.2.1) (by decide)
    obtain ⟨hfollows, hvalue⟩ := hy.smooth ev.value
    rw [if_pos habsY, if_pos habsY, ← hvalue]
    refine ⟨{ kalman with y := (kalman.y.smooth A kalman.ky ev.value).1 }, ⟨⟨rfl, rfl⟩, ?_, ?_⟩, rfl⟩
    · rw [positions_stroke, if_neg hup, if_neg habsX, List.append_nil]
      exact hx
    · rw [positions_stroke, if_neg hup, if_pos habsY]
      exact hfollows
  rw [if_neg habsY, if_neg habsY]
  by_cases hup : ev.IsPenUp
  · refine ⟨{ kalman with x := kalman.x.penUp A, y := kalman.y.penUp A }, ⟨⟨rfl, rfl⟩, ?_, ?_⟩, if_pos hup⟩
    · rw [positions_stroke, if_pos hup]
      exact KalmanAxis.follows_penUp
    · rw [positions_stroke, if_pos hup]
      exact KalmanAxis.follows_penUp
  · refine ⟨kalman, ⟨⟨rfl, rfl⟩, ?_, ?_⟩, if_neg hup⟩
    · rw [positions_stroke, if_neg hup, if_neg habsX, List.append_nil]
      exact hx
    · rw [positions_stroke, if_neg hup, if_neg habsY, List.append_nil]
      exact hy

/-- Each event is handed on once, in order. A position depends on its own axis and its own stroke alone: not on other
strokes, the other axis, other events, what is behind the filter or what `malloc` has left. -/
theorem kalman_smoothing (A : Arithmetic F) (kx ky x y : F) (next : InputEvent → β → InputEvent × β) (b : β)
    (evs : List InputEvent) : (driven (Kalman.modify A) next).outputs (evfKalmanAlloc A kx ky x y, b) evs =
      (smoothing A kx ky).outputs [] evs := by
  refine Transducer.outputs_related (fun s before => s.1.Follows A kx ky before) ?_ (Kalman.follows_alloc x y)
  rintro ⟨kalman, b⟩ before ev h
  obtain ⟨kalman', hfollows, hmodify⟩ := Kalman.Follows.modify h ev
  simp only [driven, hmodify]
  exact ⟨rfl, hfollows⟩

end Evfilter.Filters
