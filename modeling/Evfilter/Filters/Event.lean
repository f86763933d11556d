import Evfilter.Lib.Proc

/-!
# Input events

`struct input_event` and the constants of `linux/input.h` that the filters use. A filter gets a pointer to the
event and hands the same pointer on, so a call of the next filter's `modify` answers with what is in the struct
when that call returns.
-/

namespace Evfilter.Filters
open Lib

structure InputEvent where
  /-- Seconds and microseconds. -/
  time : Int × Int
  type : UInt16
  code : UInt16
  value : Int32
deriving DecidableEq

abbrev evSyn : UInt16 := 0
abbrev evKey : UInt16 := 1
abbrev evRel : UInt16 := 2
abbrev evAbs : UInt16 := 3

abbrev synReport : UInt16 := 0

abbrev relX : UInt16 := 0
abbrev relY : UInt16 := 1
abbrev relHwheel : UInt16 := 6
abbrev relWheel : UInt16 := 8

abbrev absX : UInt16 := 0
abbrev absY : UInt16 := 1
abbrev absPressure : UInt16 := 24

abbrev btnLeft : UInt16 := 272
abbrev btnRight : UInt16 := 273
abbrev btnMiddle : UInt16 := 274

/-- An `int` assigned to the code of an event. -/
def toCode (key : Int32) : UInt16 := key.toUInt32.toUInt16

/-- The code of an event where it is compared with an `int`. -/
def InputEvent.key (ev : InputEvent) : Int32 := ev.code.toUInt32.toInt32

/-- A call of `modify`. It calls the next filter's `modify`, and has the content of `*ev` in the end. -/
abbrev Modify (α : Type) := Proc InputEvent InputEvent α

/-- `self->next->modify(self->next, ev)` -/
def emit (ev : InputEvent) : Modify InputEvent := Proc.perform ev

end Evfilter.Filters
