import Evfilter.Lib.Numeral
import Evfilter.Param.Load

/-!
# Integers

`evfilter_load_int` reads the numerals whose value is in range, and the empty string as 0.
-/

namespace Evfilter.Param
open Lib

/-- What a call returns, and what is behind `err` and `val` after it. No error is `evf_ok`. -/
structure IntCall where
  ret : Int32
  err : Option EvfErr
  val : Int32
deriving DecidableEq

/-- `*val = ival` is the last assignment of the function, all others are to `err` before `return -1`. -/
def evfilterLoadIntCall (err : Option EvfErr) (str : CString) (val : Int32) (param : EvfParam) : IntCall :=
  match evfilterLoadInt str param with
  | .ok ival => { ret := 0, err := err, val := ival }
  | .error e => { ret := -1, err := some e, val := val }

/-- The value of an `int` that the limits allow. -/
def InRange (lim : Option EvfLimInt) (n : Int) : Prop :=
  (intMin ≤ n ∧ n ≤ intMax) ∧ ∀ l ∈ lim, l.min.toInt ≤ n ∧ n ≤ l.max.toInt

instance (lim : Option EvfLimInt) (n : Int) : Decidable (InRange lim n) :=
  haveI : Decidable (∀ l ∈ lim, l.min.toInt ≤ n ∧ n ≤ l.max.toInt) := Option.decidableForallMem _
  inferInstanceAs (Decidable ((intMin ≤ n ∧ n ≤ intMax) ∧ ∀ l ∈ lim, l.min.toInt ≤ n ∧ n ≤ l.max.toInt))

/-- The string is the whole of a numeral for `n`. -/
def Denotes (str : CString) (n : Int) : Prop := ∃ m : Numeral, m.text = str.bytes ∧ m.value = n

/-- What the call is for: a numeral in range is stored, for anything else there is an error. -/
structure IntCall.Loads (call : IntCall) (str : CString) (val : Int32) (param : EvfParam) : Prop where
  accepts : call.ret = 0 ↔ ∃ n, Denotes str n ∧ InRange param.lim n
  stores : ∀ n, Denotes str n → InRange param.lim n → call.val.toInt = n
  refuses : ¬ (∃ n, Denotes str n ∧ InRange param.lim n) →
    call.ret = -1 ∧ call.val = val ∧
      (call.err = some (.einval param.name str .int) ∨ ∃ lim, call.err = some (.erange param.name lim))

variable {err : Option EvfErr} {str : CString} {val : Int32} {param : EvfParam} {n : Int}

theorem inRange_clamp : max longMin (min longMax n) > intMax ∨ max longMin (min longMax n) < intMin ↔
    ¬ (intMin ≤ n ∧ n ≤ intMax) := by
  simp only [longMin, longMax, intMin, intMax]
  omega

theorem toInt_ofInt (hn : intMin ≤ n ∧ n ≤ intMax) : (Int32.ofInt n).toInt = n := by
  simp only [intMin, intMax] at hn
  exact Int32.toInt_ofInt_of_le (by simpa using hn.1) (by simpa using Int.lt_add_one_of_le hn.2)

/-- A string that is read to its end. -/
theorem loadInt_of_strtol (param : EvfParam) (hvalue : (strtol str).1 = max longMin (min longMax n))
    (hend : (strtol str).2.bytes = []) :
    (InRange param.lim n → evfilterLoadInt str param = .ok (Int32.ofInt n)) ∧
      (¬ InRange param.lim n → ∃ lim, evfilterLoadInt str param = .error (.erange param.name lim)) := by
  simp only [evfilterLoadInt, hend, ne_eq, not_true_eq_false, ↓reduceIte, hvalue, inRange_clamp]
  by_cases hn : intMin ≤ n ∧ n ≤ intMax
  · have hclamp : max longMin (min longMax n) = n := by
      simp only [longMin, longMax, intMin, intMax] at hn ⊢
      omega
    have hval := toInt_ofInt hn
    rw [if_neg (not_not_intro hn), hclamp]
    unfold InRange
    cases param.lim with
    | none => simp [hn]
    | some lim =>
        simp only [gt_iff_lt, Int32.lt_iff_toInt_lt, hval, hn, Option.mem_some, forall_eq', true_and, and_self]
        constructor
        · rintro ⟨hmin, hmax⟩
          rw [if_neg (by omega)]
        · intro hlim
          rw [if_pos (by omega)]
          exact ⟨lim, rfl⟩
  · rw [if_pos hn]
    exact ⟨fun hin => absurd hin.1 hn, fun _ => ⟨_, rfl⟩⟩

theorem loadInt_einval (h : (strtol str).2.bytes ≠ []) :
    evfilterLoadInt str param = .error (.einval param.name str .int) := by
  simp only [evfilterLoadInt, ne_eq, h, not_false_eq_true, ↓reduceIte]

theorem Denotes.strtol (h : Denotes str n) :
    (strtol str).1 = max longMin (min longMax n) ∧ (Lib.strtol str).2.bytes = [] := by
  obtain ⟨m, htext, rfl⟩ := h
  exact strtol_numeral htext.symm

/-- Nothing is converted, and the end of nothing is the end of the string. -/
theorem strtol_empty (h : str.bytes = []) :
    (strtol str).1 = max longMin (min longMax 0) ∧ (strtol str).2.bytes = [] := by
  have hnil : str = ⟨[], by simp⟩ := CString.ext h
  rw [hnil]
  decide

theorem not_denotes_empty (h : str.bytes = []) : ¬ Denotes str n := by
  rintro ⟨m, htext, -⟩
  exact m.text_ne_nil (htext.trans h)

theorem loads_of_ok {val' : Int32} (h : evfilterLoadInt str param = .ok val') (hn : Denotes str val'.toInt)
    (hr : InRange param.lim val'.toInt) (hval : ∀ n, Denotes str n → InRange param.lim n → val'.toInt = n) :
    (evfilterLoadIntCall err str val param).Loads str val param := by
  rw [evfilterLoadIntCall, h]
  exact ⟨iff_of_true rfl ⟨_, hn, hr⟩, hval, fun hnot => absurd ⟨_, hn, hr⟩ hnot⟩

theorem loads_of_error {e : EvfErr} (h : evfilterLoadInt str param = .error e)
    (hnot : ¬ ∃ n, Denotes str n ∧ InRange param.lim n)
    (he : e = .einval param.name str .int ∨ ∃ lim, e = .erange param.name lim) :
    (evfilterLoadIntCall err str val param).Loads str val param := by
  rw [evfilterLoadIntCall, h]
  have hret : (-1 : Int32) ≠ 0 := by decide
  refine ⟨iff_of_false hret hnot, fun n hn hr => absurd ⟨n, hn, hr⟩ hnot, fun _ => ⟨rfl, rfl, ?_⟩⟩
  rcases he with rfl | ⟨lim, rfl⟩
  · exact Or.inl rfl
  · exact Or.inr ⟨lim, rfl⟩

theorem loads_of_ne_nil (h : str.bytes ≠ []) : (evfilterLoadIntCall err str val param).Loads str val param := by
  by_cases hend : (strtol str).2.bytes = []
  · obtain ⟨m, hm⟩ := numeral_of_strtol hend h
    have hdenotes : Denotes str m.value := ⟨m, hm, rfl⟩
    obtain ⟨hok, herror⟩ := loadInt_of_strtol param hdenotes.strtol.1 hend
    by_cases hr : InRange param.lim m.value
    · have hvalue := toInt_ofInt hr.1
      refine loads_of_ok (hok hr) (by rwa [hvalue]) (by rwa [hvalue]) fun n hn hrn => ?_
      have hagain := (loadInt_of_strtol param hn.strtol.1 hend).1 hrn
      rw [Except.ok.inj ((hok hr).symm.trans hagain), toInt_ofInt hrn.1]
    · obtain ⟨lim, hlim⟩ := herror hr
      refine loads_of_error hlim ?_ (Or.inr ⟨lim, rfl⟩)
      rintro ⟨n, hn, hrn⟩
      have hagain := (loadInt_of_strtol param hn.strtol.1 hend).1 hrn
      rw [hlim] at hagain
      cases hagain
  · refine loads_of_error (loadInt_einval hend) ?_ (Or.inl rfl)
    rintro ⟨n, hn, -⟩
    exact hend hn.strtol.2

/-- The empty string is read as 0, which the limits may rule out. -/
theorem evfilterLoadIntCall_loads_iff (err : Option EvfErr) (str : CString) (val : Int32) (param : EvfParam) :
    (evfilterLoadIntCall err str val param).Loads str val param ↔ str.bytes ≠ [] ∨ ¬ InRange param.lim 0 := by
  by_cases h : str.bytes = []
  · obtain ⟨hvalue, hend⟩ := strtol_empty h
    obtain ⟨hok, herror⟩ := loadInt_of_strtol param hvalue hend
    have hnone : ¬ ∃ n, Denotes str n ∧ InRange param.lim n := fun ⟨n, hn, _⟩ => not_denotes_empty h hn
    by_cases hr : InRange param.lim 0
    · refine iff_of_false (fun hloads => ?_) (by simp [h, hr])
      have hret : (evfilterLoadIntCall err str val param).ret = 0 := by rw [evfilterLoadIntCall, hok hr]
      exact hnone (hloads.accepts.mp hret)
    · obtain ⟨lim, hlim⟩ := herror hr
      exact iff_of_true (loads_of_error hlim hnone (Or.inr ⟨lim, rfl⟩)) (Or.inr hr)
  · exact iff_of_true (loads_of_ne_nil h) (Or.inl h)

/-- `xmod=""` -/
theorem empty_not_loads :
    ¬ (evfilterLoadIntCall none (CString.literal "") 7
      { name := CString.literal "xmod", type := .int, lim := none, dflt := none }).Loads
        (CString.literal "") 7 { name := CString.literal "xmod", type := .int, lim := none, dflt := none } := by
  intro h
  obtain ⟨n, hn, -⟩ := h.accepts.mp (by decide)
  exact not_denotes_empty (by decide) hn

end Evfilter.Param
