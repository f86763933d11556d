import Evfilter.Filters.Barrier
import Evfilter.Filters.Keys
import Evfilter.Filters.Motion

/-!
# Lines of filters

A line is some filters linked by `next` with a commit filter at the end. `evf_line_process_event` calls the
first one's `modify`, and each of them calls the next one's on the struct it was given.
-/

namespace Evfilter.Filters
open Lib

inductive Filter
  | noRepeat
  | pressureToKey (data : Pressure)
  | speedMod (data : Relspeed)
  | barrier (data : Barrier)
  | mirror (data : Mirror)
  | rotate (data : Rotate)
  | abs2rel (data : Abs2rel)
  | btn2rel (data : Btn2rel)
  | rel2scroll (data : Rel2scroll)
  | keyLock (data : KeyLock)
  | keySubstitute (data : KeySubstitute)
deriving DecidableEq

/-- The parameters of a filter, and what `malloc` left in fields that the alloc function does not assign. -/
inductive Params
  | noRepeat
  | pressureToKey (treshold key : Int32)
  | speedMod (xmod ymod : Int32)
  | barrier (history : UInt32)
  | mirror (mirRelX mirRelY mirAbsX mirAbsY : Bool)
  | rotate (rotateAbsCoords rotateRelCoords : Bool)
  | abs2rel (relx rely lastAbsx lastAbsy : Int32)
  | btn2rel (keyDown keyUp keyLeft keyRight leftBtn middleBtn rightBtn : Int32)
  | rel2scroll (triggerBtn xmod ymod : Int32)
  | keyLock (key : Int32)
  | keySubstitute (keyFrom keyTo : Int32)

def Params.alloc : Params → Filter
  | noRepeat => .noRepeat
  | pressureToKey treshold key => .pressureToKey (evfPressureToKeyAlloc treshold key)
  | speedMod xmod ymod => .speedMod (evfSpeedModRelAlloc xmod ymod)
  | barrier history => .barrier (evfBarrierAlloc history)
  | mirror relX relY absX absY => .mirror (evfMirrorAlloc relX relY absX absY)
  | rotate absCoords relCoords => .rotate (evfRotateAlloc absCoords relCoords)
  | abs2rel relx rely lastAbsx lastAbsy => .abs2rel (evfAbs2relAlloc relx rely lastAbsx lastAbsy)
  | btn2rel down up left right lbtn mbtn rbtn =>
    .btn2rel (evfBtn2relAlloc down up left right lbtn mbtn rbtn)
  | rel2scroll triggerBtn xmod ymod => .rel2scroll (evfRel2scrollAlloc triggerBtn xmod ymod)
  | keyLock key => .keyLock (evfKeyLockAlloc key)
  | keySubstitute keyFrom keyTo => .keySubstitute (evfKeySubstituteAlloc keyFrom keyTo)

/-- `filter->modify(filter, ev)`: the filter after the call and the content of `*ev`. -/
def Filter.modify : Filter → InputEvent → Modify (Filter × InputEvent)
  | noRepeat, ev => do
    let ev ← noRepeatModify ev
    return (noRepeat, ev)
  | pressureToKey data, ev => do
    let (data, ev) ← data.modify ev
    return (pressureToKey data, ev)
  | speedMod data, ev => do
    let (data, ev) ← data.modify ev
    return (speedMod data, ev)
  | barrier data, ev => do
    let (data, ev) ← data.modify ev
    return (barrier data, ev)
  | mirror data, ev => do
    let ev ← data.modify ev
    return (mirror data, ev)
  | rotate data, ev => do
    let ev ← data.modify ev
    return (rotate data, ev)
  | abs2rel data, ev => do
    let (data, ev) ← data.modify ev
    return (abs2rel data, ev)
  | btn2rel data, ev => do
    let (data, ev) ← data.modify ev
    return (btn2rel data, ev)
  | rel2scroll data, ev => do
    let (data, ev) ← data.modify ev
    return (rel2scroll data, ev)
  | keyLock data, ev => do
    let (data, ev) ← data.modify ev
    return (keyLock data, ev)
  | keySubstitute data, ev => do
    let ev ← data.modify ev
    return (keySubstitute data, ev)

/-- The call divides where the processor stops the program. `modify` computes on there, so that what is said of it and of
lines is about the program up to such a call. -/
def Filter.Traps : Filter → InputEvent → Prop
  | speedMod data, ev => data.Traps ev
  | rel2scroll data, ev => data.Traps ev
  | _, _ => False

instance (ev : InputEvent) : (f : Filter) → Decidable (f.Traps ev)
  | .speedMod data => inferInstanceAs (Decidable (data.Traps ev))
  | .rel2scroll data => inferInstanceAs (Decidable (data.Traps ev))
  | .noRepeat | .pressureToKey _ | .barrier _ | .mirror _ | .rotate _ | .abs2rel _ | .btn2rel _ | .keyLock _
  | .keySubstitute _ => isFalse id

/-- Whatever the filter is given, it does not divide where the processor stops the program. -/
def Filter.DivisorsOk : Filter → Prop
  | speedMod data => data.xmod ≠ 0 ∧ data.ymod ≠ 0
  | rel2scroll data => (data.xmod ≠ 0 ∧ data.xmod ≠ -1) ∧ data.ymod ≠ 0 ∧ data.ymod ≠ -1
  | _ => True

instance : DecidablePred Filter.DivisorsOk
  | .speedMod _ => inferInstanceAs (Decidable (_ ∧ _))
  | .rel2scroll _ => inferInstanceAs (Decidable ((_ ∧ _) ∧ _ ∧ _))
  | .noRepeat | .pressureToKey _ | .barrier _ | .mirror _ | .rotate _ | .abs2rel _ | .btn2rel _ | .keyLock _
  | .keySubstitute _ => isTrue trivial

/-- `n` filters and the commit filter, which has committed some events. -/
def Line : Nat → Type
  | 0 => List InputEvent
  | n + 1 => Filter × Line n

/-- `evf_line_process_event` on the line: the content of `*ev` after it and the line. -/
def process : (n : Nat) → InputEvent → Line n → InputEvent × Line n
  | 0, ev, out => (ev, (show List InputEvent from out) ++ [ev])
  | n + 1, ev, (f, line) =>
    let after := (f.modify ev).drive (process n) line
    (after.1.2, (after.1.1, after.2))

/-- A line as it is created, with nothing committed. -/
def allocLine : (ps : List Params) → Line ps.length
  | [] => ([] : List InputEvent)
  | p :: ps => (p.alloc, allocLine ps)

def DivisorsOk : (n : Nat) → Line n → Prop
  | 0, _ => True
  | n + 1, (f, line) => f.DivisorsOk ∧ DivisorsOk n line

def committed : (n : Nat) → Line n → List InputEvent
  | 0, out => out
  | n + 1, (_, line) => committed n line

/-! ## Filters on their own -/

/-- One call of `modify` with a next filter that records a copy of each event and leaves the event as it is. -/
def Filter.alone (f : Filter) (ev : InputEvent) : Filter × List InputEvent :=
  let after := (f.modify ev).drive (Proc.record id) []
  (after.1.1, after.2)

/-- The stream function of a filter. -/
def Filter.stream (f : Filter) : List InputEvent → List InputEvent
  | [] => []
  | ev :: evs => (f.alone ev).2 ++ (f.alone ev).1.stream evs

/-- The stream functions of the filters of a line, one after the other. -/
def compose : (n : Nat) → Line n → List InputEvent → List InputEvent
  | 0, _, evs => evs
  | n + 1, (f, line), evs => compose n line (f.stream evs)

end Evfilter.Filters
