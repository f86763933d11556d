import Evfilter.Filters.Event

/-!
# Filters on movement

`modify` and the alloc functions of Mirror, Rotate, SpeedMod, Rel2Scroll and Abs2Rel. Arithmetic on `int` wraps
around.
-/

namespace Evfilter.Filters
open Lib

def intMax : Int32 := 2147483647

/-- The processor stops the program at such a division, and at such a remainder. -/
def DivisionTraps (x y : Int32) : Prop := y = 0 ∨ x = Int32.minValue ∧ y = -1

instance (x y : Int32) : Decidable (DivisionTraps x y) := inferInstanceAs (Decidable (_ ∨ _))

/-! ## Mirror -/

structure Mirror where
  absX : Bool
  absY : Bool
  relX : Bool
  relY : Bool
deriving DecidableEq

def evfMirrorAlloc (mirRelX mirRelY mirAbsX mirAbsY : Bool) : Mirror :=
  { absX := mirAbsX, absY := mirAbsY, relX := mirRelX, relY := mirRelY }

def Mirror.apply (mirror : Mirror) (ev : InputEvent) : InputEvent :=
  if ev.type = evRel then
    if (ev.code = Filters.relX ∧ mirror.relX) ∨ (ev.code = Filters.relY ∧ mirror.relY) then
      { ev with value := ev.value * -1 }
    else ev
  else if ev.type = evAbs then
    if (ev.code = Filters.absX ∧ mirror.absX) ∨ (ev.code = Filters.absY ∧ mirror.absY) then
      { ev with value := intMax - ev.value }
    else ev
  else ev

def Mirror.modify (mirror : Mirror) (ev : InputEvent) : Modify InputEvent := emit (mirror.apply ev)

/-! ## Rotate -/

structure Rotate where
  absCoords : Bool
  relCoords : Bool
deriving DecidableEq

def evfRotateAlloc (rotateAbsCoords rotateRelCoords : Bool) : Rotate :=
  { absCoords := rotateAbsCoords, relCoords := rotateRelCoords }

/-- The axes have the same codes in both types of events. -/
def exchange (x y : UInt16) (ev : InputEvent) : InputEvent :=
  if ev.code = x then { ev with code := y } else if ev.code = y then { ev with code := x } else ev

def Rotate.apply (rotate : Rotate) (ev : InputEvent) : InputEvent :=
  if ev.type = evRel ∧ rotate.relCoords then exchange relX relY ev
  else if ev.type = evAbs ∧ rotate.absCoords then exchange absX absY ev
  else ev

def Rotate.modify (rotate : Rotate) (ev : InputEvent) : Modify InputEvent := emit (rotate.apply ev)

/-! ## SpeedMod -/

structure Relspeed where
  x : Int32
  y : Int32
  xmod : Int32
  ymod : Int32
  eatNextSyn : Bool
deriving DecidableEq

def evfSpeedModRelAlloc (xmod ymod : Int32) : Relspeed := { x := 0, y := 0, xmod, ymod, eatNextSyn := false }

/-- The remainder of an axis and the value to be sent, if the movement is large enough. Where the division traps there
is neither. -/
def slowDown (sum mod : Int32) : Int32 × Option Int32 :=
  if mod ≤ sum.abs then ((if 0 < sum then 1 else -1) * (sum.abs % mod), some (sum / mod)) else (sum, none)

def Relspeed.modify (relspeed : Relspeed) (ev : InputEvent) : Modify (Relspeed × InputEvent) := do
  if ev.type = evSyn ∧ relspeed.eatNextSyn then
    return ({ relspeed with eatNextSyn := false }, ev)
  if ev.type = evRel ∧ ev.code = relX then
    match slowDown (relspeed.x + ev.value) relspeed.xmod with
    | (x, some value) =>
      let ev ← emit { ev with value := value }
      return ({ relspeed with x := x }, ev)
    | (x, none) => return ({ relspeed with x := x, eatNextSyn := true }, ev)
  if ev.type = evRel ∧ ev.code = relY then
    match slowDown (relspeed.y + ev.value) relspeed.ymod with
    | (y, some value) =>
      let ev ← emit { ev with value := value }
      return ({ relspeed with y := y }, ev)
    | (y, none) => return ({ relspeed with y := y, eatNextSyn := true }, ev)
  let ev ← emit ev
  return (relspeed, ev)

/-- A movement that is large enough is divided. -/
def slowDownTraps (sum mod : Int32) : Prop := mod ≤ sum.abs ∧ DivisionTraps sum mod

instance (sum mod : Int32) : Decidable (slowDownTraps sum mod) := inferInstanceAs (Decidable (_ ∧ _))

def Relspeed.Traps (relspeed : Relspeed) (ev : InputEvent) : Prop :=
  ev.type = evRel ∧
    (ev.code = relX ∧ slowDownTraps (relspeed.x + ev.value) relspeed.xmod ∨
      ev.code = relY ∧ slowDownTraps (relspeed.y + ev.value) relspeed.ymod)

instance (relspeed : Relspeed) (ev : InputEvent) : Decidable (relspeed.Traps ev) := inferInstanceAs (Decidable (_ ∧ _))

/-! ## Rel2Scroll -/

structure Rel2scroll where
  x : Int32
  xmod : Int32
  y : Int32
  ymod : Int32
  triggerBtn : Int32
  triggerOn : Bool
  eatNextSync : Bool
deriving DecidableEq

def evfRel2scrollAlloc (triggerBtn xmod ymod : Int32) : Rel2scroll :=
  { x := 0, xmod, y := 0, ymod, triggerBtn, triggerOn := false, eatNextSync := false }

/-- The remainder of an axis and the value of the wheel event, if it is not 0. Where the division traps there is
neither. -/
def scroll (sum mod : Int32) : Int32 × Option Int32 :=
  if sum / mod ≠ 0 then (sum % mod, some (sum / mod)) else (sum, none)

def Rel2scroll.modify (data : Rel2scroll) (ev : InputEvent) : Modify (Rel2scroll × InputEvent) := do
  if ev.type = evSyn ∧ data.eatNextSync then
    return ({ data with eatNextSync := false }, ev)
  let data := { data with eatNextSync := false }
  if ev.type = evKey ∧ ev.key = data.triggerBtn then
    return ({ data with triggerOn := ev.value ≠ 0, eatNextSync := true }, ev)
  if data.triggerOn ∧ ev.type = evRel ∧ ev.code = relX then
    match scroll (data.x + ev.value) data.xmod with
    | (x, some value) =>
      let ev ← emit { ev with value := value, code := relHwheel }
      return ({ data with x := x }, ev)
    | (x, none) => return ({ data with x := x, eatNextSync := true }, ev)
  if data.triggerOn ∧ ev.type = evRel ∧ ev.code = relY then
    match scroll (data.y + ev.value) data.ymod with
    | (y, some value) =>
      let ev ← emit { ev with value := value, code := relWheel }
      return ({ data with y := y }, ev)
    | (y, none) => return ({ data with y := y, eatNextSync := true }, ev)
  let ev ← emit ev
  return (data, ev)

def Rel2scroll.Traps (data : Rel2scroll) (ev : InputEvent) : Prop :=
  data.triggerOn ∧ ev.type = evRel ∧
    (ev.code = relX ∧ DivisionTraps (data.x + ev.value) data.xmod ∨
      ev.code = relY ∧ DivisionTraps (data.y + ev.value) data.ymod)

instance (data : Rel2scroll) (ev : InputEvent) : Decidable (data.Traps ev) := inferInstanceAs (Decidable (_ ∧ _))

/-! ## Abs2Rel -/

structure Abs2rel where
  xstate : Int32
  ystate : Int32
  relx : Int32
  rely : Int32
  lastAbsx : Int32
  lastAbsy : Int32
deriving DecidableEq

/-- The last four fields are what `malloc` left in them. -/
def evfAbs2relAlloc (relx rely lastAbsx lastAbsy : Int32) : Abs2rel :=
  { xstate := 0, ystate := 0, relx, rely, lastAbsx, lastAbsy }

/-- `INCIF` -/
def incif (x : Int32) : Int32 := if x < 2 then x + 1 else x

/-- What an absolute event does to the data. It is not sent. -/
def Abs2rel.update (data : Abs2rel) (ev : InputEvent) : Abs2rel :=
  if ev.code = absX then
    { data with relx := ev.value - data.lastAbsx, lastAbsx := ev.value, xstate := incif data.xstate }
  else if ev.code = absY then
    { data with rely := ev.value - data.lastAbsy, lastAbsy := ev.value, ystate := incif data.ystate }
  else if ev.code = absPressure ∧ ev.value = 0 then { data with xstate := 0, ystate := 0 }
  else data

/-- `if (state == 2)`, send the movement of an axis. The type of the event stays. -/
def sendMove (state : Int32) (code : UInt16) (value : Int32) (ev : InputEvent) : Modify InputEvent :=
  if state = 2 then emit { ev with code := code, value := value } else pure ev

def Abs2rel.flush (data : Abs2rel) (ev : InputEvent) : Modify InputEvent := do
  let ev ← sendMove data.xstate relX data.relx ev
  let ev ← sendMove data.ystate relY data.rely ev
  emit { ev with type := evSyn, value := 0 }

def Abs2rel.modify (data : Abs2rel) (ev : InputEvent) : Modify (Abs2rel × InputEvent) := do
  let ev ← if ev.type = evSyn then data.flush ev else pure ev
  if ev.type = evAbs then
    return (data.update ev, ev)
  let ev ← emit ev
  return (data, ev)

end Evfilter.Filters
