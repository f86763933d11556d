import Evfilter.Param.Load
import Evfilter.Param.RoundTrip

/-!
# Loading one filter

`evf_filter.c`. Each of the functions in `evf_creat` loads its parameters, by its own table, and calls the filter's
alloc function.
-/

namespace Evfilter.Loader
open Lib Param

/-- `evf_filters` -/
def evfFilters : List CString := [
  "Dump", "NoRepeat", "PressureToKey", "SpeedMod", "Barrier", "WeightedAverageAbs", "ScaleAbs", "Mirror", "Rotate",
  "Abs2Rel", "Btn2Rel", "Kalman", "Rel2Scroll", "CopyToHandle", "GetFromHandle", "KeyLock", "FilterToHandle",
  "KeySubstitute"].map CString.literal

/-- `none` is -1. -/
def getfilter (name : CString) : Option Nat := evfFilters.findIdx? fun f => CString.strcasecmp name f = 0

/-- The table and the alloc function of a creat function. If `alloc` fails there is an `errno`. -/
structure Creat (P : Platform) (φ σ : Type) where
  params : List EvfParam
  named : ∀ p ∈ params, p.name.bytes ≠ []
  alloc : List (Loaded P) → σ → Except Int32 φ × σ

variable {P : Platform} {φ σ : Type}

def Creat.create (creat : Creat P φ σ) (params : CString) (s : σ) : Except EvfErr φ × σ :=
  match evfLoadParams P params creat.params with
  | .error err => (.error err, s)
  | .ok args =>
    match creat.alloc args s with
    | (.ok evf, s) => (.ok evf, s)
    | (.error errno, s) => (.error (.errno errno), s)

/-- The first parameter is `evf_creat`. -/
def evfFilterLoad (evfCreat : Nat → Creat P φ σ) (name params : CString) (s : σ) : Except EvfErr φ × σ :=
  match getfilter name with
  | none => (.error (.efname name), s)
  | some i => (evfCreat i).create params s

theorem getfilter_long {name : CString} (h : 18 < name.strlen) : getfilter name = none := by
  rw [getfilter, List.findIdx?_eq_none_iff]
  intro f hf
  have hshort : ∀ f ∈ evfFilters, f.strlen ≤ 18 := by decide
  have hlen : CString.strcasecmp name f ≠ 0 := fun hzero => by
    have := CString.strlen_eq_of_fold (CString.strcasecmp_eq_zero.mp hzero)
    have := hshort f hf
    omega
  simpa using hlen

/-! ## Two strings of parameters -/

variable {creat : Creat P φ σ} {cfg other name value : CString} {s : σ} {pairs : List (CString × CString)}

theorem create_congr (h : tokens cfg = tokens other) : creat.create cfg s = creat.create other s := by
  rw [Creat.create, Creat.create, evfLoadParams, evfLoadParams, parsedValues_eq, parsedValues_eq, h]

theorem create_error {err : EvfErr}
    (h : store creat.params (tokens cfg) (creat.params.map fun _ => none) = .error err) :
    creat.create cfg s = (.error err, s) := by
  have hload : evfLoadParams P cfg creat.params = .error err := by
    rw [evfLoadParams, parsedValues_eq, h]
    rfl
  rw [Creat.create, hload]

theorem create_ne_epname {strings : List (Option CString)}
    (h : store creat.params (tokens cfg) (creat.params.map fun _ => none) = .ok strings) :
    (creat.create cfg s).1 ≠ .error (.epname name) := by
  have hload : evfLoadParams P cfg creat.params = secondLoop P creat.params strings := by
    rw [evfLoadParams, parsedValues_eq, h]
    rfl
  rw [Creat.create, hload]
  cases hsecond : secondLoop P creat.params strings with
  | error err =>
      intro h
      obtain rfl : err = .epname name := Except.error.inj h
      exact secondLoop_ne_epname hsecond
  | ok args =>
      dsimp only
      split <;> exact nofun

/-- A parameter without a name behind the others is an error of its own, unless there is one before it. -/
theorem create_nameless_iff (hcfg : tokens cfg = pairs) (hother : tokens other = pairs ++ [(name, value)])
    (hname : name.bytes = []) : creat.create other s = creat.create cfg s ↔
      ¬ ∃ strings, store creat.params pairs (creat.params.map fun _ => none) = .ok strings := by
  have hundeclared : ¬ Declared creat.params name := by
    rintro ⟨p, hp, hfold⟩
    rw [CString.fold, CString.fold, hname] at hfold
    exact creat.named p hp (List.map_eq_nil_iff.mp hfold)
  have hstore : store creat.params (pairs ++ [(name, value)]) (creat.params.map fun _ => none) = _ :=
    store_undeclared hundeclared
  rw [← hother] at hstore
  cases hpairs : store creat.params pairs (creat.params.map fun _ => none) with
  | error err =>
      rw [hpairs] at hstore
      rw [create_error hstore, create_error (hcfg.symm ▸ hpairs)]
      simp
  | ok strings =>
      rw [hpairs] at hstore
      refine iff_of_false (fun heq => ?_) (not_not.mpr ⟨strings, rfl⟩)
      have hne : (creat.create cfg s).1 ≠ .error (.epname name) := create_ne_epname (hcfg.symm ▸ hpairs)
      rw [← heq, create_error hstore] at hne
      exact hne rfl

end Evfilter.Loader
