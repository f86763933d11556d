import Evfilter.Param.Outputs

/-!
# Tables as arrays

`evf_load_params` on the array it is given. Each loop reads one entry after the other and stops at the one without a
name; the variables behind the argument list have types. What the loops read behind the table and a pointer of another
type are faults. With a table that ends, and the right pointers, there are none.
-/

namespace Evfilter.Param
open Lib

/-- `struct evf_param` -/
structure Entry where
  name : Option CString
  type : EvfParamT
  lim : Option EvfLimInt
  dflt : Option CString
deriving DecidableEq

inductive Fault
  | table
  | argument
deriving DecidableEq

/-- What a pointer in the argument list points to: `int`, `float`, `char*` or `FILE*`. -/
inductive Kind
  | int
  | float
  | str
  | file
deriving DecidableEq

/-- What `va_arg` takes for a parameter. -/
def EvfParamT.kind : EvfParamT → Kind
  | key => .int
  | evtype => .int
  | int => .int
  | float => .float
  | str => .str
  | file => .file
  | bool => .int

def EvfParam.entry (param : EvfParam) : Entry :=
  { name := some param.name, type := param.type, lim := param.lim, dflt := param.dflt }

/-- `{NULL, 0, NULL, NULL, NULL}` -/
def Entry.last : Entry := { name := none, type := .key, lim := none, dflt := none }

def evfilterCountParams : List Entry → Nat → Except Fault Nat
  | [], _ => .error .table
  | entry :: params, i => if entry.name = none then .ok i else evfilterCountParams params (i + 1)

def evfilterFindPossitionIn (name : CString) : List Entry → Nat → Except Fault (Option Nat)
  | [], _ => .error .table
  | entry :: params, i =>
    match entry.name with
    | none => .ok none
    | some other => if CString.strcasecmp other name = 0 then .ok (some i) else evfilterFindPossitionIn name params (i + 1)

def parseLoop (params : List Entry) (cfg : Cursor) (values : List (Option Nat)) :
    Except Fault (Except EvfErr (Cursor × List (Option Nat))) :=
  if _h : cfg.rest = [] then .ok (.ok (cfg, values))
  else
    let name := evfilterGetName cfg
    match evfilterFindPossitionIn (name.2.string name.1) params 0 with
    | .error fault => .error fault
    | .ok none => .ok (.error (.epname (name.2.string name.1)))
    | .ok (some i) =>
      if (values.getD i none).isSome then .ok (.error (.eredef (name.2.string name.1)))
      else
        let value := evfilterGetValue name.2
        parseLoop params value.2 (values.set i (some value.1))
termination_by cfg.rest.length
decreasing_by exact (length_evfilterGetValue _).trans_lt (length_evfilterGetName _ _h)

variable (P : Platform)

/-- The variables are `outputs`. -/
def loadLoop (outputs : List Kind) : List Entry → List (Option CString) → VaList P →
    Except Fault (Except EvfErr Unit × VaList P)
  | [], _, _ => .error .table
  | entry :: params, values, list =>
    match entry.name with
    | none => .ok (.ok (), list)
    | some name =>
      match (values.head?.join).or entry.dflt with
      | none => .ok (.error (.emissing name), list)
      | some str =>
        if outputs[list.taken]? ≠ some entry.type.kind then .error .argument
        else
          match convert P { name, type := entry.type, lim := entry.lim, dflt := entry.dflt } str list with
          | (.error e, list) => .ok (.error e, list)
          | (.ok (), list) => loadLoop outputs params values.tail list

def evfLoadParamsIn (params : List Entry) (outputs : List Kind) (err : Option EvfErr) (cfg : CString) :
    Except Fault (Call P) :=
  match evfilterCountParams params 0 with
  | .error fault => .error fault
  | .ok n =>
    match parseLoop params (Cursor.start cfg.bytes) (List.replicate n none) with
    | .error fault => .error fault
    | .ok (.error e) => .ok { ret := -1, err := some e, list := VaList.start }
    | .ok (.ok (cfg, values)) =>
      match loadLoop P outputs params (values.map (Option.map cfg.string)) VaList.start with
      | .error fault => .error fault
      | .ok (.error e, list) => .ok { ret := -1, err := some e, list := list }
      | .ok (.ok (), list) => .ok { ret := 0, err := err, list := list }

/-! ## Tables that end -/

/-- The entries before the one without a name, if there is one. -/
def declared : List Entry → Option (List EvfParam)
  | [] => none
  | entry :: params =>
    match entry.name with
    | none => some []
    | some name =>
      (declared params).map fun rest => { name, type := entry.type, lim := entry.lim, dflt := entry.dflt } :: rest

variable {P} {table : List Entry} {params : List EvfParam} {cfg : CString} {outputs : List Kind}

/-- A table that ends has no entry, or a first one with the rest of the table ending. -/
theorem declared_cases {entry : Entry} (h : declared (entry :: table) = some params) :
    (entry.name = none ∧ params = []) ∨
    (∃ name rest, entry.name = some name ∧ declared table = some rest ∧
      params = { name, type := entry.type, lim := entry.lim, dflt := entry.dflt } :: rest) := by
  rw [declared] at h
  cases hname : entry.name with
  | none =>
      rw [hname] at h
      exact Or.inl ⟨rfl, (Option.some.inj h).symm⟩
  | some name =>
      rw [hname] at h
      obtain ⟨rest, hrest, rfl⟩ := Option.map_eq_some_iff.mp h
      exact Or.inr ⟨name, rest, rfl, hrest, rfl⟩

theorem evfilterCountParams_eq (h : declared table = some params) (i : Nat) :
    evfilterCountParams table i = .ok (i + params.length) := by
  induction table generalizing params i with
  | nil => cases h
  | cons entry table ih =>
      rw [evfilterCountParams]
      rcases declared_cases h with ⟨hname, rfl⟩ | ⟨name, rest, hname, hrest, rfl⟩
      · rw [if_pos hname]
        rfl
      · rw [if_neg (by simp [hname]), ih hrest, List.length_cons, Nat.add_right_comm, Nat.add_assoc]

/-- Without an end, the first loop does not stop inside the table. -/
theorem evfilterCountParams_fault (h : declared table = none) (i : Nat) :
    evfilterCountParams table i = .error .table := by
  induction table generalizing i with
  | nil => rfl
  | cons entry table ih =>
      rw [declared] at h
      rw [evfilterCountParams]
      cases hname : entry.name with
      | none => simp [hname] at h
      | some name =>
          rw [hname, Option.map_eq_none_iff] at h
          rw [if_neg (by simp), ih h]

theorem evfilterFindPossitionIn_eq (h : declared table = some params) (name : CString) (i : Nat) :
    evfilterFindPossitionIn name table i = .ok ((evfilterFindPossition name params).map (· + i)) := by
  induction table generalizing params i with
  | nil => cases h
  | cons entry table ih =>
      rw [evfilterFindPossitionIn]
      rcases declared_cases h with ⟨hname, rfl⟩ | ⟨other, rest, hname, hrest, rfl⟩
      · rw [hname]
        rfl
      · simp only [hname, evfilterFindPossition, List.findIdx?_cons, beq_iff_eq]
        split
        · simp
        · rw [ih hrest, evfilterFindPossition, Option.map_map]
          refine congrArg (fun f => Except.ok (Option.map f _)) (funext fun j => ?_)
          exact (Nat.add_right_comm j i 1)

theorem parseLoop_eq (h : declared table = some params) (str : Cursor) (values : List (Option Nat)) :
    parseLoop table str values = .ok (firstLoop params str values) := by
  have hfind (name : CString) : evfilterFindPossitionIn name table 0 = .ok (evfilterFindPossition name params) := by
    rw [evfilterFindPossitionIn_eq h]
    simp
  fun_induction firstLoop params str values with
  | case1 str values hend => rw [parseLoop, dif_pos hend]
  | case2 str values hend name hnone =>
      rw [parseLoop, dif_neg hend]
      simp only [hfind, hnone, name]
  | case3 str values hend name i hsome hset =>
      rw [parseLoop, dif_neg hend]
      simp only [hfind, hsome, hset, ↓reduceIte, name]
  | case4 str values hend name i hsome hset value ih =>
      rw [parseLoop, dif_neg hend]
      simp only [hfind, hsome, hset, Bool.false_eq_true, ↓reduceIte, name]
      exact ih

theorem loadLoop_eq (h : declared table = some params) {list : VaList P} {values : List (Option CString)}
    (hout : outputs.drop list.taken = params.map fun p => p.type.kind) :
    loadLoop P outputs table values list = .ok (convertLoop P params values list) := by
  induction table generalizing params values list with
  | nil => cases h
  | cons entry table ih =>
      rw [loadLoop]
      rcases declared_cases h with ⟨hname, rfl⟩ | ⟨name, rest, hname, hrest, rfl⟩
      · rw [hname]
        rfl
      · have hhead : outputs[list.taken]? = some entry.type.kind := by
          rw [← List.head?_drop, hout]
          rfl
        have htail : outputs.drop (list.taken + 1) = rest.map fun p => p.type.kind := by
          rw [← List.tail_drop, hout]
          rfl
        rw [convertLoop]
        simp only [hname]
        cases hstr : (values.head?.join).or entry.dflt with
        | none => rfl
        | some str =>
            simp only [hhead, ne_eq, not_true_eq_false, ↓reduceIte, convert]
            cases loadValue P { name, type := entry.type, lim := entry.lim, dflt := entry.dflt } str with
            | error e => rfl
            | ok val => exact ih hrest htail

/-- On a table that ends, with the right pointers, the loops on the array are those on the list. -/
theorem evfLoadParamsIn_eq (h : declared table = some params) (hout : outputs = params.map fun p => p.type.kind)
    (err : Option EvfErr) (cfg : CString) :
    evfLoadParamsIn P table outputs err cfg = .ok (evfLoadParamsCall P err cfg params) := by
  have hnone : List.replicate (0 + params.length) (none : Option Nat) = params.map fun _ => none := by
    rw [Nat.zero_add, List.map_const']
  rw [evfLoadParamsIn, evfLoadParamsCall, evfilterCountParams_eq h]
  simp only [parseLoop_eq h, hnone, parsedValues]
  cases firstLoop params (Cursor.start cfg.bytes) (params.map fun _ => none) with
  | error e => rfl
  | ok parsed =>
      have hloop : loadLoop P outputs table (parsed.2.map (Option.map parsed.1.string)) VaList.start = .ok _ :=
        loadLoop_eq h hout
      simp only [hloop]
      cases hconvert : convertLoop P params (parsed.2.map (Option.map parsed.1.string)) VaList.start with
      | mk result list =>
          cases result with
          | error e => simp [bind, Except.bind, pure, Except.pure, hconvert]
          | ok u => simp [bind, Except.bind, pure, Except.pure, hconvert]

theorem evfLoadParamsIn_fault (h : declared table = none) (err : Option EvfErr) (cfg : CString) :
    evfLoadParamsIn P table outputs err cfg = .error .table := by
  rw [evfLoadParamsIn, evfilterCountParams_fault h]

end Evfilter.Param
