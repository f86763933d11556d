import Evfilter.Lib.CString

/-!
# Parameter tables

`struct evf_param`, its limits, and the errors of `union evf_err`. A table is a list; the entry without a name
that ends it in the source is not an element. Descriptions are left out.
-/

namespace Evfilter.Param
open Lib

/-- `enum evf_param_t` -/
inductive EvfParamT
  | key
  | evtype
  | int
  | float
  | str
  | file
  | bool
deriving DecidableEq

structure EvfLimInt where
  min : Int32
  max : Int32
deriving DecidableEq

structure EvfParam where
  name : CString
  type : EvfParamT
  lim : Option EvfLimInt
  dflt : Option CString
deriving DecidableEq

/-- What `err` is filled with: the `errno` of a call, or one of `enum evf_err_par_t` with the fields set for it. -/
inductive EvfErr
  | errno (errNo : Int32)
  | efname (name : CString)
  | epname (name : CString)
  | emissing (name : CString)
  | einval (name value : CString) (ptype : EvfParamT)
  | erange (name : CString) (lim : EvfLimInt)
  | eredef (name : CString)
  | nofname
  | noparams
deriving DecidableEq

variable {ε α β : Type} {x : Except ε α} {f : α → Except ε β} {b : β}

theorem bind_eq_ok : (x >>= f) = .ok b ↔ ∃ a, x = .ok a ∧ f a = .ok b := by
  cases x with
  | error e => simp [bind, Except.bind]
  | ok a => simp [bind, Except.bind]

end Evfilter.Param
