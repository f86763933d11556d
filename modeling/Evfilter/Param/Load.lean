import Evfilter.KeyParser.Search
import Evfilter.Lib.Strtol
import Evfilter.Param.Tokens

/-!
# The second loop of `evf_load_params`

The values, or the defaults of parameters without one, are loaded in the order of the table. Floating point numbers,
files and the codes of `linux/input.h` are those of a platform.
-/

namespace Evfilter.Param
open Lib KeyParser

/-- `strtof` answers with the number and where `endptr` points to; `fopen` with a stream or `errno`. -/
structure Platform where
  Float : Type
  strtof : CString → Float × CString
  File : Type
  stdout : File
  stderr : File
  fopen : CString → Except Int32 File
  keyValues : Nat → Int32

/-- What is stored through the pointer that belongs to a parameter. -/
inductive Loaded (P : Platform)
  | int (val : Int32)
  | float (val : P.Float)
  | str (val : CString)
  | file (f : P.File)
  | bool (val : Bool)

variable (P : Platform)

def intMin : Int := -2147483648

def intMax : Int := 2147483647

def evfilterIntLimits : EvfLimInt := { min := Int32.ofInt intMin, max := Int32.ofInt intMax }

def evfilterLoadFloat (str : CString) (param : EvfParam) : Except EvfErr P.Float :=
  let (fval, ptr) := P.strtof str
  if ptr.bytes ≠ [] then .error (.einval param.name str .float) else .ok fval

def evfilterLoadInt (str : CString) (param : EvfParam) : Except EvfErr Int32 :=
  let (lval, ptr) := strtol str
  if ptr.bytes ≠ [] then .error (.einval param.name str .int)
  else if lval > intMax ∨ lval < intMin then .error (.erange param.name (param.lim.getD evfilterIntLimits))
  else
    let ival := Int32.ofInt lval
    match param.lim with
    | none => .ok ival
    | some lim => if ival > lim.max ∨ ival < lim.min then .error (.erange param.name lim) else .ok ival

def evfilterLoadFile (str : CString) : Except EvfErr P.File :=
  if CString.strcasecmp str (CString.literal "stdout") = 0 then .ok P.stdout
  else if CString.strcasecmp str (CString.literal "stderr") = 0 then .ok P.stderr
  else
    match P.fopen str with
    | .ok f => .ok f
    | .error errno => .error (.errno errno)

def evfilterLoadBool (str : CString) (param : EvfParam) : Except EvfErr Bool :=
  if ["True", "Yes", "On"].any fun s => CString.strcasecmp str (CString.literal s) = 0 then .ok true
  else if ["False", "No", "Off"].any fun s => CString.strcasecmp str (CString.literal s) = 0 then .ok false
  else .error (.einval param.name str .bool)

def evfilterLoadKey (str : CString) (param : EvfParam) : Except EvfErr Int32 :=
  let pkey := keyparserGetkey P.keyValues str
  if pkey = -1 then .error (.einval param.name str .key) else .ok pkey

def evtypes : List String := ["EventSyn", "EventKey", "EventRel", "EventAbs", "EventMsc"]

def evfilterLoadEvtype (str : CString) (param : EvfParam) : Except EvfErr Int32 :=
  match evtypes.findIdx? fun s => CString.strcasecmp (CString.literal s) str = 0 with
  | some i => .ok (Int32.ofNat i)
  | none => .error (.einval param.name str .evtype)

/-- `switch (params[i].type)` -/
def loadValue (param : EvfParam) (str : CString) : Except EvfErr (Loaded P) :=
  match param.type with
  | .int => (evfilterLoadInt str param).map .int
  | .evtype => (evfilterLoadEvtype str param).map .int
  | .key => (evfilterLoadKey P str param).map .int
  | .file => (evfilterLoadFile P str).map .file
  | .str => .ok (.str str)
  | .bool => (evfilterLoadBool str param).map .bool
  | .float => (evfilterLoadFloat P str param).map .float

def secondLoop : List EvfParam → List (Option CString) → Except EvfErr (List (Loaded P))
  | [], _ => .ok []
  | param :: params, values =>
    match (values.head?.join).or param.dflt with
    | none => .error (.emissing param.name)
    | some str => do
      let val ← loadValue P param str
      let rest ← secondLoop params values.tail
      return val :: rest

def evfLoadParams (cfg : CString) (params : List EvfParam) : Except EvfErr (List (Loaded P)) := do
  let values ← parsedValues params cfg
  secondLoop P params values

/-! ## Errors -/

variable {P} {params : List EvfParam} {values : List (Option CString)} {name : CString}

theorem loadValue_ne_epname {param : EvfParam} {str : CString} : loadValue P param str ≠ .error (.epname name) := by
  have hmap {α β : Type} {f : α → β} {x : Except EvfErr α} (hx : x ≠ .error (.epname name)) :
      x.map f ≠ .error (.epname name) := by
    cases x with
    | error e => exact fun h => hx (by rw [Except.error.inj h])
    | ok a => exact nofun
  unfold loadValue
  cases param.type with
  | key =>
      refine hmap ?_
      simp only [evfilterLoadKey]
      split <;> exact nofun
  | evtype =>
      refine hmap ?_
      simp only [evfilterLoadEvtype]
      split <;> exact nofun
  | int =>
      refine hmap ?_
      simp only [evfilterLoadInt]
      split
      · exact nofun
      split
      · exact nofun
      split
      · exact nofun
      · split <;> exact nofun
  | float =>
      refine hmap ?_
      simp only [evfilterLoadFloat]
      split <;> exact nofun
  | str => exact nofun
  | file =>
      refine hmap ?_
      simp only [evfilterLoadFile]
      split
      · exact nofun
      split
      · exact nofun
      split <;> exact nofun
  | bool =>
      refine hmap ?_
      simp only [evfilterLoadBool]
      split
      · exact nofun
      · split <;> exact nofun

/-- The name of a parameter is not wrong any more. -/
theorem secondLoop_ne_epname : secondLoop P params values ≠ .error (.epname name) := by
  induction params generalizing values with
  | nil => exact nofun
  | cons param params ih =>
      rw [secondLoop]
      split
      · exact nofun
      · rename_i str _
        cases hval : loadValue P param str with
        | error e =>
            intro h
            obtain rfl : e = .epname name := Except.error.inj h
            exact loadValue_ne_epname hval
        | ok val =>
            cases hrest : secondLoop P params values.tail with
            | error e =>
                intro h
                obtain rfl : e = .epname name := Except.error.inj h
                exact ih hrest
            | ok rest => exact nofun

end Evfilter.Param
