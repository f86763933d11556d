import Evfilter.Filters.Event
import Evfilter.KeyParser.Search

/-!
# Names for events

The functions of `evf_input.c` that give names to what is in an event. An access to a table of names gives none outside
the table.
-/

namespace Evfilter.Input
open Lib Filters KeyParser

/-! ## The tables -/

def evKeyNames : List String := ["KEY_UP", "KEY_DOWN", "KEY_REPEAT"]

def evKeyCnt : Int32 := 3

def evRelCnt : Nat := 10

def evRelNames : List String := [
  "REL_X", "REL_Y", "REL_Z", "REL_RX", "REL_RY",
  "REL_RZ", "REL_HWHEEL", "REL_DIAL", "REL_WHEEL", "REL_MISC"]

def evAbsCnt : Nat := 42

def evAbsNames : List String := [
  "ABS_X", "ABS_Y", "ABS_Z", "ABS_RX", "ABS_RY", "ABS_RZ", "ABS_THROTTLE",
  "ABS_RUDDER", "ABS_WHEEL", "ABS_GAS", "ABS_BRAKE", "UNKNOWN", "UNKNOWN",
  "UNKNOWN", "UNKNOWN", "UNKNOWN", "ABS_HAT0X", "ABS_HAT0Y", "ABS_HAT1X",
  "ABS_HAT1Y", "ABS_HAT2X", "ABS_HAT2Y", "ABS_HAT3X", "ABS_HAT3Y", "ABS_PRESSURE",
  "ABS_DISTANCE", "ABS_TILT_X", "ABS_TILT_Y", "ABS_TOOL_WIDTH", "UNKNOWN",
  "UNKNOWN", "UNKNOWN", "ABS_VOLUME", "UNKNOWN", "UNKNOWN", "UNKNOWN", "UNKNOWN",
  "UNKNOWN", "UNKNOWN", "UNKNOWN", "UNKNOWN", "ABS_MISC"]

/-- There are twelve of them. -/
def evTypeNames : List String := [
  "EV_SYN", "EV_KEY", "EV_REL", "EV_ABS", "EV_MSC", "EV_SW",
  "EV_LED", "EV_SND", "EV_REP", "EV_FF", "EV_PWR", "EV_FF_STAT"]

def evUnknown : CString := CString.literal "UNKNOWN"

/-- `table[i]` -/
def access (table : List String) (i : Int) : Option CString :=
  if 0 ≤ i then table[i.toNat]?.map CString.literal else none

/-! ## Printing -/

/-- What a format is made of. NULL is a string, too. -/
inductive Piece
  | text (s : String)
  | str (s : Option CString)
  | int (i : Int)
deriving DecidableEq

/-- What goes to the standard output, and what to the file. -/
structure Printed where
  stdout : List Piece
  file : List Piece
deriving DecidableEq

variable (keyValues : Nat → Int32) (pre : CString)

def printKey (ev : InputEvent) : List Piece :=
  [.str pre, .text "ev->code:  ", .str (keyparserGetname keyValues ev.key), .text " (", .int ev.key.toInt,
    .text ")\n"] ++
  if ev.value = 0 then [.str pre, .text "ev->value: KEY_UP     (0)\n"]
  else if ev.value = 1 then [.str pre, .text "ev->value: KEY_DOWN   (1)\n"]
  else if ev.value = 2 then [.str pre, .text "ev->value: KEY_REPEAT (2)\n"]
  else [.str pre, .text "ev->value: UNKNOWN (", .int ev.value.toInt, .text ")\n"]

/-- The line for a code that is looked up in a table with that limit. -/
def printCode (table : List String) (cnt : Nat) (ev : InputEvent) : Option (List Piece) :=
  if ev.code.toNat < cnt then
    (access table ev.code.toNat).map fun name =>
      [.str pre, .text "ev->code:  ", .str (some name), .text " (", .int ev.code.toNat, .text ")\n"]
  else some [.str pre, .text "ev->code:  UNKNOWN (", .int ev.code.toNat, .text ")\n"]

def printRel (ev : InputEvent) : Option (List Piece) :=
  (printCode pre evRelNames evRelCnt ev).map (· ++ [.str pre, .text "ev->value: ", .int ev.value.toInt, .text "\n"])

def printAbs (ev : InputEvent) : Option (List Piece) := printCode pre evAbsNames evAbsCnt ev

def printType (ev : InputEvent) : Option (List Piece) :=
  if ev.type.toNat < 13 then (access evTypeNames ev.type.toNat).map fun name => [.str (some name), .text "\n"]
  else some [.text "UNKNOWN ", .int ev.type.toNat, .text "\n"]

def printRest (ev : InputEvent) : Option (List Piece) :=
  if ev.type = evKey then some (printKey keyValues pre ev)
  else if ev.type = evRel then printRel pre ev
  else if ev.type = evAbs then printAbs pre ev
  else some []

/-- The beginning of the first line does not go to the file. -/
def evfInputPrint (ev : InputEvent) : Option Printed := do
  let type ← printType ev
  let rest ← printRest keyValues pre ev
  return { stdout := [.str pre, .text "ev->type:  "], file := type ++ rest }

/-! ## Names -/

def evfInputType (ev : InputEvent) : Option CString :=
  if ev.type.toNat < 13 then access evTypeNames ev.type.toNat else some evUnknown

/-- The name of a key may be NULL. -/
def evfInputCode (ev : InputEvent) : Option (Option CString) :=
  if ev.type = evSyn then some (some (CString.literal "0"))
  else if ev.type = evKey then some (keyparserGetname keyValues ev.key)
  else if ev.type = evRel ∧ ev.code.toNat < evRelCnt then (access evRelNames ev.code.toNat).map some
  else if ev.type = evAbs ∧ ev.code.toNat < evAbsCnt then (access evAbsNames ev.code.toNat).map some
  else some (some evUnknown)

/-- Other types have no names for their values. -/
def evfInputValue (ev : InputEvent) : Option (Option CString) :=
  if ev.type = evKey then
    if ev.value < evKeyCnt then (access evKeyNames ev.value.toInt).map some else some (some evUnknown)
  else if ev.type = evSyn then some (some (CString.literal "0"))
  else some none

structure InsideTables (ev : InputEvent) : Prop where
  print : evfInputPrint keyValues pre ev ≠ none
  type : evfInputType ev ≠ none
  code : evfInputCode keyValues ev ≠ none
  value : evfInputValue ev ≠ none

/-! ## Accesses -/

variable {keyValues pre} {table : List String} {i n : Nat} {ev : InputEvent}

theorem access_ne_none : access table i ≠ none ↔ i < table.length := by
  simp [access]

theorem map_access_ne_none {α : Type} {f : CString → α} (h : i < table.length) : (access table i).map f ≠ none := by
  rw [ne_eq, Option.map_eq_none_iff]
  exact access_ne_none.mpr h

theorem printCode_ne_none (hcnt : n ≤ table.length) : printCode pre table n ev ≠ none := by
  unfold printCode
  split
  · rename_i hlt
    exact map_access_ne_none (Nat.lt_of_lt_of_le hlt hcnt)
  · nofun

theorem evfInputType_ne_none : evfInputType ev ≠ none ↔ ev.type ≠ 12 := by
  have htype : ev.type = 12 ↔ ev.type.toNat = 12 := ⟨fun h => by rw [h]; rfl, fun h => UInt16.toNat.inj h⟩
  rw [evfInputType, ne_eq ev.type, htype]
  split
  · rw [access_ne_none]
    change ev.type.toNat < 12 ↔ _
    omega
  · rename_i hge
    exact iff_of_true nofun (by omega)

theorem printType_ne_none (ev : InputEvent) : printType ev ≠ none ↔ ev.type ≠ 12 := by
  rw [← evfInputType_ne_none, printType, evfInputType]
  split
  · rw [ne_eq, Option.map_eq_none_iff]
  · exact iff_of_true nofun nofun

variable (keyValues pre ev) in
theorem printRest_ne_none : printRest keyValues pre ev ≠ none := by
  unfold printRest
  split
  · nofun
  · split
    · rw [printRel, ne_eq, Option.map_eq_none_iff]
      exact printCode_ne_none (by decide)
    · split
      · exact printCode_ne_none (by decide)
      · nofun

theorem evfInputPrint_ne_none : evfInputPrint keyValues pre ev ≠ none ↔ ev.type ≠ 12 := by
  rw [← printType_ne_none ev]
  obtain ⟨rest, hrest⟩ := Option.ne_none_iff_exists'.mp (printRest_ne_none keyValues pre ev)
  rw [evfInputPrint, hrest]
  cases printType ev with
  | none => exact iff_of_false (fun h => h rfl) fun h => h rfl
  | some type => exact iff_of_true nofun nofun

theorem evfInputCode_ne_none : evfInputCode keyValues ev ≠ none := by
  unfold evfInputCode
  split
  · nofun
  · split
    · nofun
    · split
      · rename_i hrel
        exact map_access_ne_none hrel.2
      · split
        · rename_i habs
          exact map_access_ne_none habs.2
        · nofun

theorem evfInputValue_ne_none : evfInputValue ev ≠ none ↔ ¬ (ev.type = evKey ∧ ev.value < 0) := by
  unfold evfInputValue
  split
  · rename_i hkey
    have hcnt : ev.value < evKeyCnt ↔ ev.value.toInt < 3 := Int32.lt_iff_toInt_lt
    have hzero : ev.value < 0 ↔ ev.value.toInt < 0 := Int32.lt_iff_toInt_lt
    rw [and_iff_right hkey, hzero]
    split
    · rename_i hlt
      rw [hcnt] at hlt
      rw [ne_eq, Option.map_eq_none_iff]
      by_cases hneg : ev.value.toInt < 0
      · exact iff_of_false (fun h => h (if_neg (Int.not_le.mpr hneg))) fun h => h hneg
      · obtain ⟨i, hi⟩ := Int.eq_ofNat_of_zero_le (Int.not_lt.mp hneg)
        rw [hi] at hlt hneg ⊢
        exact iff_of_true (access_ne_none.mpr (by change i < 3; omega)) hneg
    · rename_i hge
      rw [hcnt] at hge
      exact iff_of_true nofun (by omega)
  · rename_i hkey
    refine iff_of_true ?_ fun h => hkey h.1
    split <;> nofun

/-- The type 12 has no name but is taken for one that has, and so is a negative value of a key. -/
theorem insideTables_iff (keyValues : Nat → Int32) (pre : CString) (ev : InputEvent) :
    InsideTables keyValues pre ev ↔ ev.type ≠ 12 ∧ ¬ (ev.type = evKey ∧ ev.value < 0) :=
  ⟨fun h => ⟨evfInputType_ne_none.mp h.type, evfInputValue_ne_none.mp h.value⟩,
    fun h => ⟨evfInputPrint_ne_none.mpr h.1, evfInputType_ne_none.mpr h.1, evfInputCode_ne_none,
      evfInputValue_ne_none.mpr h.2⟩⟩

/-- The first type without a name, and a key with the value -1. -/
theorem not_insideTables : evfInputType ⟨(0, 0), 12, 0, 0⟩ = none ∧ evfInputValue ⟨(0, 0), evKey, 30, -1⟩ = none ∧
    ¬ ∀ (keyValues : Nat → Int32) (pre : CString) (ev : InputEvent), InsideTables keyValues pre ev := by
  refine ⟨by decide, by decide, fun h => ?_⟩
  exact evfInputType_ne_none.mp (h (fun _ => 0) (CString.literal "") ⟨(0, 0), 12, 0, 0⟩).type rfl

end Evfilter.Input
