import Evfilter.Filters.Average
import Evfilter.Filters.Motion
import Evfilter.Param.Load

/-!
# Creating filters from parameters

The parameter tables and the creat functions of the filters that divide by a parameter. Allocation succeeds.
-/

namespace Evfilter.Filters
open Lib Param

/-- The `int` whose address is passed to `evf_load_params` for the parameter `i`. -/
def intArg {P : Platform} (args : List (Loaded P)) (i : Nat) : Int32 :=
  match args[i]? with
  | some (.int val) => val
  | _ => 0

def intParam (name : String) (lim : Option EvfLimInt) (dflt : Option String) : EvfParam :=
  { name := CString.literal name, type := .int, lim, dflt := dflt.map CString.literal }

def relspeedParams : List EvfParam := [intParam "xmod" none (some "1"), intParam "ymod" none (some "1")]

def rel2scrollParams : List EvfParam := [
  { name := CString.literal "TriggerButton", type := .key, lim := none, dflt := none },
  intParam "Xmod" none (some "1"),
  intParam "Ymod" none (some "1")]

def samplesLim : EvfLimInt := { min := 0, max := 10 }

def averageParams : List EvfParam := [intParam "samples" (some samplesLim) none]

variable (P : Platform)

def evfSpeedModRelCreat (params : CString) : Except EvfErr Relspeed := do
  let args ← evfLoadParams P params relspeedParams
  return evfSpeedModRelAlloc (intArg args 0) (intArg args 1)

def evfRel2scrollCreat (params : CString) : Except EvfErr Rel2scroll := do
  let args ← evfLoadParams P params rel2scrollParams
  return evfRel2scrollAlloc (intArg args 0) (intArg args 1) (intArg args 2)

/-- The last three parameters are what `malloc` left. -/
def evfWeightedAverageAbsCreat (params : CString) (tail1 head2 : Int32) (coord : Int32 → Axis → Int32) :
    Except EvfErr Average := do
  let args ← evfLoadParams P params averageParams
  return evfWeightedAverageAbsAlloc (intArg args 0).toUInt32 tail1 head2 coord

/-- A platform on which BTN_MIDDLE has its code. -/
def middlePlatform : Platform :=
  { Float := Unit
    strtof := fun str => ((), str)
    File := Unit
    stdout := ()
    stderr := ()
    fopen := fun _ => .ok ()
    keyValues := fun j => if j = 29 then 274 else 0 }

/-! ## What is loaded -/

variable {P} {params : List EvfParam} {cfg : CString} {values : List (Option CString)} {args : List (Loaded P)}
  {i : Nat} {param : EvfParam}

/-- The value written for a parameter, or its default. -/
def given (params : List EvfParam) (cfg : CString) (i : Nat) : Option CString :=
  match parsedValues params cfg with
  | .ok values => values[i]?.join.or (params[i]?.bind EvfParam.dflt)
  | .error _ => none

/-- The number given for a parameter. -/
def givenInt (params : List EvfParam) (cfg : CString) (i : Nat) : Int :=
  ((given params cfg i).map fun str => (strtol str).1).getD 0

theorem secondLoop_get (h : secondLoop P params values = .ok args) (hi : params[i]? = some param) :
    ∃ str val, values[i]?.join.or param.dflt = some str ∧ loadValue P param str = .ok val ∧ args[i]? = some val := by
  induction params generalizing i values args with
  | nil => simp at hi
  | cons p params ih =>
      rw [secondLoop] at h
      split at h
      · cases h
      · rename_i str hstr
        obtain ⟨val, hval, h⟩ := bind_eq_ok.mp h
        obtain ⟨rest, hrest, h⟩ := bind_eq_ok.mp h
        obtain rfl : val :: rest = args := Except.ok.inj h
        cases i with
        | zero =>
            obtain rfl : p = param := by simpa using hi
            exact ⟨str, val, by simpa [List.head?_eq_getElem?] using hstr, hval, rfl⟩
        | succ i =>
            obtain ⟨str', val', hstr', hval', hget⟩ := ih hrest (i := i) (by simpa using hi)
            exact ⟨str', val', by simpa using hstr', hval', by simpa using hget⟩

theorem evfLoadParams_get (h : evfLoadParams P cfg params = .ok args) (hi : params[i]? = some param) :
    ∃ str val, given params cfg i = some str ∧ loadValue P param str = .ok val ∧ args[i]? = some val := by
  obtain ⟨values, hvalues, h⟩ := bind_eq_ok.mp h
  obtain ⟨str, val, hstr, hval, hget⟩ := secondLoop_get h hi
  exact ⟨str, val, by simpa [given, hvalues, hi] using hstr, hval, hget⟩

/-- A number that is accepted is stored as it is. -/
theorem evfilterLoadInt_ok {str : CString} {val : Int32} (h : evfilterLoadInt str param = .ok val) :
    val.toInt = (strtol str).1 := by
  simp only [evfilterLoadInt] at h
  split at h
  · cases h
  split at h
  · cases h
  · rename_i hrange
    have hle : -2147483648 ≤ (strtol str).1 ∧ (strtol str).1 < 2147483648 := by
      simp only [Param.intMax, intMin] at hrange
      omega
    have hval : Int32.ofInt (strtol str).1 = val := by
      split at h
      · exact Except.ok.inj h
      · split at h
        · cases h
        · exact Except.ok.inj h
    rw [← hval, Int32.toInt_ofInt_of_le hle.1 hle.2]

theorem evfilterLoadInt_lim {str : CString} {val : Int32} {lim : EvfLimInt}
    (h : evfilterLoadInt str param = .ok val) (hlim : param.lim = some lim) : lim.min ≤ val ∧ val ≤ lim.max := by
  simp only [evfilterLoadInt, hlim] at h
  split at h
  · cases h
  split at h
  · cases h
  split at h
  · cases h
  · rename_i hrange
    rw [← Except.ok.inj h]
    exact ⟨Int32.not_lt.mp fun hlt => hrange (Or.inr hlt), Int32.not_lt.mp fun hlt => hrange (Or.inl hlt)⟩

/-- The number that is accepted for a parameter. -/
theorem intArg_loaded (h : evfLoadParams P cfg params = .ok args) (hi : params[i]? = some param)
    (htype : param.type = .int) : ∃ str, given params cfg i = some str ∧
      evfilterLoadInt str param = .ok (intArg args i) := by
  obtain ⟨str, val, hstr, hval, hget⟩ := evfLoadParams_get h hi
  simp only [loadValue, htype] at hval
  cases hload : evfilterLoadInt str param with
  | error e => simp [hload, Except.map] at hval
  | ok ival =>
      obtain rfl : Loaded.int ival = val := by simpa [hload, Except.map] using hval
      exact ⟨str, hstr, by simp [hload, intArg, hget]⟩

theorem intArg_given (h : evfLoadParams P cfg params = .ok args) (hi : params[i]? = some param)
    (htype : param.type = .int) : (intArg args i).toInt = givenInt params cfg i := by
  obtain ⟨str, hstr, hload⟩ := intArg_loaded h hi htype
  simp [givenInt, hstr, evfilterLoadInt_ok hload]

theorem intArg_lim {lim : EvfLimInt} (h : evfLoadParams P cfg params = .ok args) (hi : params[i]? = some param)
    (htype : param.type = .int) (hlim : param.lim = some lim) : lim.min ≤ intArg args i ∧ intArg args i ≤ lim.max := by
  obtain ⟨str, -, hload⟩ := intArg_loaded h hi htype
  exact evfilterLoadInt_lim hload hlim

theorem getkey_of_ne {keyValues : Nat → Int32} {str : CString} (h : KeyParser.keyparserGetkey keyValues str ≠ -1) :
    ∃ j < KeyParser.keyCount, KeyParser.keyparserGetkey keyValues str = keyValues j := by
  unfold KeyParser.keyparserGetkey at h ⊢
  cases hsearch : KeyParser.search str with
  | none => simp [hsearch] at h
  | some j => exact ⟨j, (KeyParser.search_some hsearch).1, rfl⟩

/-- A key that is accepted has the code of an entry of the table. -/
theorem intArg_key (h : evfLoadParams P cfg params = .ok args) (hi : params[i]? = some param)
    (htype : param.type = .key) : ∃ j < KeyParser.keyCount, intArg args i = P.keyValues j := by
  obtain ⟨str, val, -, hval, hget⟩ := evfLoadParams_get h hi
  simp only [loadValue, htype, evfilterLoadKey] at hval
  split at hval
  · cases hval
  · rename_i hne
    obtain ⟨j, hj, hkey⟩ := getkey_of_ne hne
    obtain rfl := Except.ok.inj hval
    exact ⟨j, hj, by simp [intArg, hget, hkey]⟩

theorem evfWeightedAverageAbsCreat_ok {n tail1 head2 : Int32} {coord : Int32 → Axis → Int32}
    (h : (evfLoadParams P cfg averageParams).map (fun args => intArg args 0) = .ok n) :
    evfWeightedAverageAbsCreat P cfg tail1 head2 coord =
      .ok (evfWeightedAverageAbsAlloc n.toUInt32 tail1 head2 coord) := by
  rw [evfWeightedAverageAbsCreat]
  cases hload : evfLoadParams P cfg averageParams with
  | error e => simp [hload, Except.map] at h
  | ok args =>
      obtain rfl : intArg args 0 = n := by simpa [hload, Except.map] using h
      rfl

end Evfilter.Filters
