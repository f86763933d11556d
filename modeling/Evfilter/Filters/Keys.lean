import Evfilter.Filters.Event

/-!
# Filters on keys

`modify` and the alloc functions of NoRepeat, KeyLock, KeySubstitute, PressureToKey and Btn2Rel. Each `modify`
ends with the data of the filter and the content of `*ev`.
-/

namespace Evfilter.Filters
open Lib

/-! ## NoRepeat -/

def noRepeatModify (ev : InputEvent) : Modify InputEvent :=
  if ev.type ≠ evKey ∨ ev.value ≠ 2 then emit ev else pure ev

/-! ## KeyLock -/

structure KeyLock where
  key : Int32
  state : Int32
  eatNextSync : Bool
deriving DecidableEq

def evfKeyLockAlloc (key : Int32) : KeyLock := { key, state := 0, eatNextSync := false }

def KeyLock.modify (priv : KeyLock) (ev : InputEvent) : Modify (KeyLock × InputEvent) := do
  if priv.eatNextSync ∧ ev.type = 0 ∧ ev.code = 0 ∧ ev.value = 0 then
    return ({ priv with eatNextSync := false }, ev)
  let priv := { priv with eatNextSync := false }
  if ev.type = evKey ∧ ev.key = priv.key then
    if ev.value = 0 then
      return ({ priv with eatNextSync := true }, ev)
    if ev.value = 1 then
      if priv.state = 0 then
        let ev ← emit ev
        return ({ priv with state := 1 }, ev)
      let ev ← emit { ev with value := 0 }
      return ({ priv with state := 0 }, ev)
  let ev ← emit ev
  return (priv, ev)

/-! ## KeySubstitute -/

structure KeySubstitute where
  keyFrom : Int32
  keyTo : Int32
deriving DecidableEq

def evfKeySubstituteAlloc (keyFrom keyTo : Int32) : KeySubstitute := { keyFrom, keyTo }

def KeySubstitute.modify (priv : KeySubstitute) (ev : InputEvent) : Modify InputEvent :=
  if ev.type = evKey ∧ ev.key = priv.keyFrom then emit { ev with code := toCode priv.keyTo } else emit ev

/-! ## PressureToKey -/

structure Pressure where
  treshold : Int32
  key : Int32
  pressed : Bool
deriving DecidableEq

def evfPressureToKeyAlloc (treshold key : Int32) : Pressure := { treshold, key, pressed := false }

def checkTreshold (value treshold : Int32) : Bool :=
  if treshold < 0 then
    if value = 0 then false else value < treshold.abs
  else treshold < value

def Pressure.modify (p : Pressure) (ev : InputEvent) : Modify (Pressure × InputEvent) := do
  let ev ← emit ev
  if ev.type = evAbs ∧ ev.code = absPressure then
    if checkTreshold ev.value p.treshold then
      if !p.pressed then
        let ev ← emit { ev with type := evKey, code := toCode p.key, value := 1 }
        return ({ p with pressed := true }, ev)
    else
      if p.pressed then
        let ev ← emit { ev with type := evKey, code := toCode p.key, value := 0 }
        return ({ p with pressed := false }, ev)
  return (p, ev)

/-! ## Btn2Rel -/

structure Btn2rel where
  keyUp : Int32
  keyDown : Int32
  keyLeft : Int32
  keyRight : Int32
  rightBtn : Int32
  middleBtn : Int32
  leftBtn : Int32
  eatNextSyn : Bool
deriving DecidableEq

def evfBtn2relAlloc (keyDown keyUp keyLeft keyRight leftBtn middleBtn rightBtn : Int32) : Btn2rel :=
  { keyUp, keyDown, keyLeft, keyRight, rightBtn, middleBtn, leftBtn, eatNextSyn := false }

/-- The four comparisons with a movement key are made one after the other, each on what the one before left.
`none` is the return after a released key. -/
def moveKey (key : Int32) (code : UInt16) (value : Int32) (ev : InputEvent) : Option InputEvent :=
  if ev.key = key then
    if ev.value = 0 then none else some { ev with type := evRel, code := code, value := value }
  else some ev

/-- `if (ev->code == btn) ev->code = code;` -/
def buttonKey (btn : Int32) (code : UInt16) (ev : InputEvent) : InputEvent :=
  if ev.key = btn then { ev with code := code } else ev

def Btn2rel.translate (data : Btn2rel) (ev : InputEvent) : Option InputEvent := do
  let ev ← moveKey data.keyUp relY 2 ev
  let ev ← moveKey data.keyDown relY (-2) ev
  let ev ← moveKey data.keyLeft relX (-2) ev
  let ev ← moveKey data.keyRight relX 2 ev
  return buttonKey data.rightBtn btnRight
    (buttonKey data.middleBtn btnMiddle (buttonKey data.leftBtn btnLeft ev))

def Btn2rel.modify (data : Btn2rel) (ev : InputEvent) : Modify (Btn2rel × InputEvent) := do
  if ev.type = evSyn ∧ data.eatNextSyn then
    return ({ data with eatNextSyn := false }, ev)
  if ev.type = evKey then
    match data.translate ev with
    | none => return ({ data with eatNextSyn := true }, ev)
    | some ev =>
      let ev ← emit ev
      return (data, ev)
  let ev ← emit ev
  return (data, ev)

end Evfilter.Filters
