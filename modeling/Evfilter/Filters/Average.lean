import Evfilter.Filters.Event

/-!
# WeightedAverageAbs

The queues of the last values of three axes. The floating point arithmetic of the average is not modelled: which
`int` it comes to is a parameter.
-/

namespace Evfilter.Filters
open Lib

abbrev Axis := Fin 3

structure Average where
  n : Int32
  head : Axis → Int32
  tail : Axis → Int32
  coord : Int32 → Axis → Int32

/-- `head[1]` and `tail[2]` are assigned twice. `tail1` is what `malloc` left in `tail[1]`, `head2` what it left in
`head[2]`, and `coord` what it left in the array. -/
def evfWeightedAverageAbsAlloc (n : UInt32) (tail1 head2 : Int32) (coord : Int32 → Axis → Int32) : Average :=
  { n := n.toInt32
    head := fun c => if c = 2 then head2 else 0
    tail := fun c => if c = 1 then tail1 else 0
    coord }

/-- The first `if` of `add`. -/
def Average.full (av : Average) (c : Axis) : Prop := av.n - 1 ≤ (av.head c - av.tail c).abs

instance (av : Average) (c : Axis) : Decidable (av.full c) :=
  inferInstanceAs (Decidable (av.n - 1 ≤ (av.head c - av.tail c).abs))

def Average.add (av : Average) (c : Axis) (val : Int32) : Average :=
  let tail := if av.full c then (av.tail c + 1) % av.n else av.tail c
  let head := (av.head c + 1) % av.n
  { n := av.n
    head := fun a => if a = c then head else av.head a
    tail := fun a => if a = c then tail else av.tail a
    coord := fun i a => if i = head ∧ a = c then val else av.coord i a }

/-- The variable `i` of `calculate` when its test is made for the time `k`. -/
def Average.index (av : Average) (c : Axis) : Nat → Int32
  | 0 => av.head c
  | k + 1 => (av.index c k + 1) % av.n

/-- The test of the loop has succeeded up to the time `k`, so that its body is run for this time. -/
def Average.Runs (av : Average) (c : Axis) (k : Nat) : Prop := ∀ j ≤ k, av.index c j ≠ av.tail c

/-- `case ABS_PRESSURE` with value 0 -/
def Average.penUp (av : Average) : Average := { av with head := fun _ => 0, tail := fun _ => 0 }

/-- The axis whose average an event asks for. -/
def averaged (ev : InputEvent) : Option Axis :=
  if ev.type = evAbs then
    if ev.code = absX then some 0
    else if ev.code = absY then some 1
    else if ev.code = absPressure ∧ ev.value ≠ 0 then some 2
    else none
  else none

/-- The second parameter is the conversion of the result of `calculate` to `int`. -/
def Average.modify (average : Average) (calculated : Average → Axis → Int32) (ev : InputEvent) :
    Modify (Average × InputEvent) := do
  match averaged ev with
  | some c =>
    let average := average.add c ev.value
    let ev ← emit { ev with value := calculated average c }
    return (average, ev)
  | none =>
    let average := if ev.type = evAbs ∧ ev.code = absPressure then average.penUp else average
    let ev ← emit ev
    return (average, ev)

end Evfilter.Filters
