import Evfilter.Lib.Cursor
import Evfilter.Param.Table

/-!
# The first loop of `evf_load_params`

The names and values are cut out of the string `cfg` in place: each is a pointer into it, and the byte after it
is overwritten with NUL.
-/

namespace Evfilter.Param
open Lib

abbrev equals : UInt8 := 61

abbrev doubleQuote : UInt8 := 34

abbrev singleQuote : UInt8 := 39

def evfEatSpaces (str : Cursor) : Cursor := str.skip isspace

def endsName (c : UInt8) : Bool := isspace c || c == equals

def evfilterGetName (str : Cursor) : Nat × Cursor :=
  let str := evfEatSpaces str
  let name := str.pos
  let str := str.cut endsName
  let str := evfEatSpaces str
  (name, str.accept equals)

/-- `enc`, or 0 -/
def enclosing (str : Cursor) : Option UInt8 :=
  str.rest.head?.filter fun c => c == doubleQuote || c == singleQuote

def evfilterGetValue (str : Cursor) : Nat × Cursor :=
  let str := evfEatSpaces str
  match enclosing str with
  | some enc =>
    let str := str.accept enc
    (str.pos, str.cut fun c => c == enc)
  | none => (str.pos, str.cut isspace)

/-- `none` is -1. -/
def evfilterFindPossition (name : CString) (params : List EvfParam) : Option Nat :=
  params.findIdx? fun p => CString.strcasecmp p.name name == 0

theorem length_evfilterGetName (str : Cursor) (h : str.rest ≠ []) :
    (evfilterGetName str).2.rest.length < str.rest.length := by
  have hpos := List.length_pos_iff.mpr h
  have h₁ := str.length_skip_le isspace
  have h₂ := (evfEatSpaces str).length_cut_le endsName
  have h₃ := ((evfEatSpaces str).cut endsName).length_skip_le isspace
  have h₄ := (evfEatSpaces ((evfEatSpaces str).cut endsName)).length_accept_le equals
  simp only [evfilterGetName, evfEatSpaces] at *
  omega

theorem length_evfilterGetValue (str : Cursor) :
    (evfilterGetValue str).2.rest.length ≤ str.rest.length := by
  have h₁ : (evfEatSpaces str).rest.length ≤ str.rest.length := str.length_skip_le isspace
  simp only [evfilterGetValue]
  split
  · exact (Cursor.length_cut_le _ _).trans ((Nat.sub_le _ _).trans ((Cursor.length_accept_le _ _).trans h₁))
  · exact (Cursor.length_cut_le _ _).trans ((Nat.sub_le _ _).trans h₁)

/-- `while (*cfg != '\0')`: where the pointers of the array `values` point, and the string they point into. -/
def firstLoop (params : List EvfParam) (cfg : Cursor) (values : List (Option Nat)) :
    Except EvfErr (Cursor × List (Option Nat)) :=
  if _h : cfg.rest = [] then .ok (cfg, values)
  else
    let name := evfilterGetName cfg
    match evfilterFindPossition (name.2.string name.1) params with
    | none => .error (.epname (name.2.string name.1))
    | some i =>
      if (values.getD i none).isSome then .error (.eredef (name.2.string name.1))
      else
        let value := evfilterGetValue name.2
        firstLoop params value.2 (values.set i (some value.1))
termination_by cfg.rest.length
decreasing_by exact (length_evfilterGetValue _).trans_lt (length_evfilterGetName _ _h)

/-- The strings in `values` after the first loop. -/
def parsedValues (params : List EvfParam) (cfg : CString) : Except EvfErr (List (Option CString)) := do
  let (cfg, values) ← firstLoop params (Cursor.start cfg.bytes) (params.map fun _ => none)
  return values.map (Option.map cfg.string)

end Evfilter.Param
