import Evfilter.Filters.Motion
import Mathlib.Algebra.Order.Field.Rat
import Mathlib.Data.Rat.Floor
import Mathlib.Tactic.Linarith
import Mathlib.Tactic.NormNum

/-!
# ScaleAbs, and Mirror behind it

The arithmetic of ScaleAbs is taken as exact, with a conversion to `int` in the end. The value is divided by the
maximum and not by the range, so it is between 0 and INT_MAX only if the minimum is 0.
-/

namespace Evfilter.Filters
open Lib

structure Scale where
  maxx : Int32
  maxy : Int32
  maxp : Int32
  minx : Int32
  miny : Int32
  minp : Int32
deriving DecidableEq

def evfScaleAbsAlloc (maxx maxy maxp minx miny minp : Int32) : Scale := { maxx, maxy, maxp, minx, miny, minp }

def truncate (q : ℚ) : Int := if 0 ≤ q then ⌊q⌋ else ⌈q⌉

/-- The conversion to `int` of a number in its range. -/
def toInt32 (q : ℚ) : Option Int32 :=
  if -2147483648 ≤ truncate q ∧ truncate q ≤ 2147483647 then some (Int32.ofInt (truncate q)) else none

/-- `1.00 * INT_MAX * (value - min) / max` -/
def quotient (value min max : Int32) : ℚ := intMax.toInt * (value.toInt - min.toInt) / max.toInt

/-- There is no result of a division by 0. -/
def scaled (value min max : Int32) : Option Int32 := if max = 0 then none else toInt32 (quotient value min max)

/-- The event that is sent. `none` is a conversion that C leaves undefined. -/
def Scale.apply (scale : Scale) (ev : InputEvent) : Option InputEvent :=
  if ev.type = evAbs then
    if ev.code = absX then (scaled ev.value scale.minx scale.maxx).map fun value => { ev with value := value }
    else if ev.code = absY then (scaled ev.value scale.miny scale.maxy).map fun value => { ev with value := value }
    else some ev
  else some ev

def Scale.modify (scale : Scale) (ev : InputEvent) : Option (Modify InputEvent) := (scale.apply ev).map emit

/-- An event of the axis with a value the device may send. -/
structure OfAxis (code : UInt16) (min max : Int32) (ev : InputEvent) : Prop where
  type : ev.type = evAbs
  code : ev.code = code
  low : min ≤ ev.value
  high : ev.value ≤ max

def Normalized (n : Int) : Prop := 0 ≤ n ∧ n ≤ intMax.toInt

/-- What ScaleAbs is for, on one of the axes, and what Mirror makes of it. -/
structure Normalizes (scale : Scale) (code : UInt16) (min max : Int32) : Prop where
  inRange : ∀ ev, OfAxis code min max ev →
    ∃ value, scale.apply ev = some { ev with value := value } ∧ Normalized value.toInt
  monotone : ∀ ev ev' sent sent', OfAxis code min max ev → OfAxis code min max ev' → ev.value ≤ ev'.value →
    scale.apply ev = some sent → scale.apply ev' = some sent' → sent.value ≤ sent'.value
  atMin : ∀ ev, OfAxis code min max ev → ev.value = min → scale.apply ev = some { ev with value := 0 }
  atMax : ∀ ev, OfAxis code min max ev → ev.value = max → scale.apply ev = some { ev with value := intMax }
  mirrored : ∀ (mirror : Mirror) ev sent, mirror.absX → mirror.absY → OfAxis code min max ev →
    scale.apply ev = some sent → mirror.apply sent = { sent with value := intMax - sent.value } ∧
      (intMax - sent.value).toInt = intMax.toInt - sent.value.toInt ∧ Normalized (intMax - sent.value).toInt

variable {q r : ℚ} {n : Int} {v value min max : Int32} {scale : Scale} {code : UInt16} {ev : InputEvent}

/-! ## Truncation -/

theorem truncate_mono (h : q ≤ r) : truncate q ≤ truncate r := by
  unfold truncate
  split
  · rename_i hq
    rw [if_pos (hq.trans h)]
    exact Int.floor_mono h
  · rename_i hq
    split
    · rename_i hr
      exact (Int.ceil_le.mpr (by simpa using (not_le.mp hq).le)).trans (Int.floor_nonneg.mpr hr)
    · exact Int.ceil_mono h

theorem truncate_intCast : truncate (n : ℚ) = n := by
  unfold truncate
  split
  · exact Int.floor_intCast n
  · exact Int.ceil_intCast n

theorem truncate_pos_iff (hn : 0 < n) : truncate q = n ↔ (n : ℚ) ≤ q ∧ q < n + 1 := by
  have hcast : (0 : ℚ) < n := Int.cast_pos.mpr hn
  unfold truncate
  split
  · exact Int.floor_eq_iff
  · rename_i hq
    refine iff_of_false (fun h => ?_) fun h => hq (hcast.le.trans h.1)
    have hceil : ⌈q⌉ ≤ 0 := Int.ceil_le.mpr (by simpa using (not_le.mp hq).le)
    omega

theorem toInt32_eq_some : toInt32 q = some v ↔ truncate q = v.toInt := by
  have hlow := v.le_toInt
  have hhigh := v.toInt_lt
  unfold toInt32
  split
  · rename_i h
    rw [Option.some.injEq]
    have hof : (Int32.ofInt (truncate q)).toInt = truncate q :=
      Int32.toInt_ofInt_of_le (by omega) (by omega)
    exact ⟨fun h => by rw [← h, hof], fun h => Int32.toInt.inj (hof.trans h)⟩
  · rename_i h
    refine iff_of_false nofun fun heq => h ?_
    omega

theorem scaled_eq_some : scaled value min max = some v ↔ max ≠ 0 ∧ truncate (quotient value min max) = v.toInt := by
  unfold scaled
  split
  · rename_i h
    exact iff_of_false nofun fun hv => hv.1 h
  · rename_i h
    rw [toInt32_eq_some]
    exact (and_iff_right h).symm

/-! ## The minimum 0 -/

theorem toInt_pos (h : 0 < max) : 0 < max.toInt := by
  rwa [Int32.lt_iff_toInt_lt, Int32.toInt_zero] at h

theorem quotient_mono (min : Int32) (hmax : 0 < max) (h : v ≤ value) : quotient v min max ≤ quotient value min max := by
  have hpos : (0 : ℚ) ≤ max.toInt := by exact_mod_cast (toInt_pos hmax).le
  have hle : (v.toInt : ℚ) ≤ value.toInt := by exact_mod_cast Int32.le_iff_toInt_le.mp h
  have hint : (0 : ℚ) ≤ intMax.toInt := by exact_mod_cast (by decide : (0 : Int) ≤ intMax.toInt)
  exact div_le_div_of_nonneg_right (mul_le_mul_of_nonneg_left (by linarith) hint) hpos

theorem scaled_min : scaled min min max = if max = 0 then none else some 0 := by
  have hquot : quotient min min max = ((0 : Int) : ℚ) := by simp [quotient]
  unfold scaled
  split
  · rfl
  · rw [toInt32_eq_some, hquot, truncate_intCast]
    rfl

theorem scaled_max (hmax : 0 < max) : scaled max 0 max = some intMax := by
  have hpos : (max.toInt : ℚ) ≠ 0 := by exact_mod_cast (toInt_pos hmax).ne'
  have hquot : quotient max 0 max = ((intMax.toInt : Int) : ℚ) := by
    rw [quotient, Int32.toInt_zero, Int.cast_zero, sub_zero, mul_div_cancel_right₀ _ hpos]
  rw [scaled_eq_some, hquot, truncate_intCast]
  exact ⟨fun h => hpos (by rw [h]; rfl), rfl⟩

theorem scaled_between (hmax : 0 < max) (hlow : 0 ≤ v) (hhigh : v ≤ max) :
    ∃ r, scaled v 0 max = some r ∧ Normalized r.toInt := by
  have hne : max ≠ 0 := fun h => by rw [h] at hmax; exact absurd hmax (by decide)
  have hzero : scaled 0 0 max = some 0 := scaled_min.trans (if_neg hne)
  have hfrom := truncate_mono (quotient_mono 0 hmax hlow)
  have hto := truncate_mono (quotient_mono 0 hmax hhigh)
  rw [(scaled_eq_some.mp hzero).2, Int32.toInt_zero] at hfrom
  rw [(scaled_eq_some.mp (scaled_max hmax)).2] at hto
  have hint : intMax.toInt = 2147483647 := rfl
  have hof : (Int32.ofInt (truncate (quotient v 0 max))).toInt = truncate (quotient v 0 max) :=
    Int32.toInt_ofInt_of_le (by omega) (by omega)
  exact ⟨_, scaled_eq_some.mpr ⟨hne, hof.symm⟩, by rw [hof]; exact ⟨hfrom, hto⟩⟩

/-- Only with the minimum 0 the maximum comes to INT_MAX. -/
theorem min_of_scaled_max (h : min < max) (hscaled : scaled max min max = some intMax) : min = 0 := by
  obtain ⟨hne, htrunc⟩ := scaled_eq_some.mp hscaled
  obtain ⟨hlow, hhigh⟩ := (truncate_pos_iff (by decide)).mp htrunc
  have hint : (intMax.toInt : ℚ) = 2147483647 := by norm_num [show intMax.toInt = 2147483647 from rfl]
  have hlt : (min.toInt : ℚ) < max.toInt := by exact_mod_cast Int32.lt_iff_toInt_lt.mp h
  rw [quotient, hint] at hlow hhigh
  rcases lt_trichotomy max.toInt 0 with hneg | hzero | hpos
  · have hneg' : (max.toInt : ℚ) < 0 := by exact_mod_cast hneg
    have hquot := div_neg_of_pos_of_neg (a := 2147483647 * ((max.toInt : ℚ) - min.toInt)) (by linarith) hneg'
    linarith
  · exact absurd (Int32.toInt.inj hzero) hne
  · have hpos' : (0 : ℚ) < max.toInt := by exact_mod_cast hpos
    rw [le_div_iff₀ hpos'] at hlow
    rw [div_lt_iff₀ hpos'] at hhigh
    have hmin : min.toInt ≤ 0 := by
      have : (min.toInt : ℚ) ≤ 0 := by linarith
      exact_mod_cast this
    have hbound : (max.toInt : ℚ) ≤ 2147483647 := by
      have := max.toInt_lt
      exact_mod_cast (by omega : max.toInt ≤ 2147483647)
    have hmin' : -1 < min.toInt := by
      have : (-1 : ℚ) < min.toInt := by linarith
      exact_mod_cast this
    exact Int32.toInt.inj (show min.toInt = 0 by omega)

/-! ## Axes -/

/-- The filter scales the values of these events, and Mirror turns them around. -/
structure Scales (scale : Scale) (code : UInt16) (min max : Int32) : Prop where
  apply : ∀ ev, ev.type = evAbs → ev.code = code →
    scale.apply ev = (scaled ev.value min max).map fun value => { ev with value := value }
  mirror : ∀ (mirror : Mirror) ev, mirror.absX → mirror.absY → ev.type = evAbs → ev.code = code →
    mirror.apply ev = { ev with value := intMax - ev.value }

theorem scales_x (scale : Scale) : Scales scale absX scale.minx scale.maxx where
  apply := by
    intro ev htype hcode
    rw [Scale.apply, if_pos htype, if_pos hcode]
  mirror := by
    intro mirror ev hx _ htype hcode
    rw [Mirror.apply, if_neg (by rw [htype]; decide), if_pos htype, if_pos (Or.inl ⟨hcode, hx⟩)]

theorem scales_y (scale : Scale) : Scales scale absY scale.miny scale.maxy where
  apply := by
    intro ev htype hcode
    rw [Scale.apply, if_pos htype, if_neg (by rw [hcode]; decide), if_pos hcode]
  mirror := by
    intro mirror ev _ hy htype hcode
    rw [Mirror.apply, if_neg (by rw [htype]; decide), if_pos htype, if_pos (Or.inr ⟨hcode, hy⟩)]

theorem Normalized.mirror (h : Normalized v.toInt) :
    (intMax - v).toInt = intMax.toInt - v.toInt ∧ Normalized (intMax - v).toInt := by
  obtain ⟨hlow, hhigh⟩ := h
  have hint : intMax.toInt = 2147483647 := rfl
  have hsub : (intMax - v).toInt = intMax.toInt - v.toInt := by
    rw [Int32.toInt_sub]
    exact Int.bmod_eq_of_le (by omega) (by omega)
  exact ⟨hsub, by rw [Normalized, hsub]; omega⟩

namespace Scales

theorem apply_eq_some {sent : InputEvent} (h : Scales scale code min max) (hev : OfAxis code min max ev) :
    scale.apply ev = some sent ↔ ∃ value, scaled ev.value min max = some value ∧ { ev with value := value } = sent := by
  rw [h.apply ev hev.type hev.code, Option.map_eq_some_iff]

theorem normalizes (h : Scales scale code 0 max) (hmax : 0 < max) : Normalizes scale code 0 max where
  inRange := by
    intro ev hev
    obtain ⟨value, hscaled, hin⟩ := scaled_between hmax hev.low hev.high
    exact ⟨value, (h.apply_eq_some hev).mpr ⟨value, hscaled, rfl⟩, hin⟩
  monotone := by
    intro ev ev' sent sent' hev hev' hle hsent hsent'
    obtain ⟨value, hscaled, rfl⟩ := (h.apply_eq_some hev).mp hsent
    obtain ⟨value', hscaled', rfl⟩ := (h.apply_eq_some hev').mp hsent'
    rw [scaled_eq_some] at hscaled hscaled'
    rw [Int32.le_iff_toInt_le, ← hscaled.2, ← hscaled'.2]
    exact truncate_mono (quotient_mono _ hmax hle)
  atMin := by
    intro ev hev hval
    have hne : max ≠ 0 := fun h => by rw [h] at hmax; exact absurd hmax (by decide)
    exact (h.apply_eq_some hev).mpr ⟨0, by rw [hval, scaled_min, if_neg hne], rfl⟩
  atMax := by
    intro ev hev hval
    exact (h.apply_eq_some hev).mpr ⟨intMax, by rw [hval, scaled_max hmax], rfl⟩
  mirrored := by
    intro mirror ev sent hx hy hev hsent
    obtain ⟨value, hscaled, rfl⟩ := (h.apply_eq_some hev).mp hsent
    obtain ⟨value', hscaled', hin⟩ := scaled_between hmax hev.low hev.high
    rw [hscaled] at hscaled'
    obtain rfl := Option.some.inj hscaled'
    exact ⟨h.mirror mirror _ hx hy hev.type hev.code, hin.mirror⟩

theorem min_eq_zero (h : Scales scale code min max) (hlt : min < max) (hnorm : Normalizes scale code min max) :
    min = 0 := by
  have hev : OfAxis code min max ⟨(0, 0), evAbs, code, max⟩ := ⟨rfl, rfl, Int32.le_of_lt hlt, Int32.le_refl max⟩
  obtain ⟨value, hscaled, heq⟩ := (h.apply_eq_some hev).mp (hnorm.atMax _ hev rfl)
  rw [InputEvent.mk.injEq] at heq
  rw [heq.2.2.2] at hscaled
  exact min_of_scaled_max hlt hscaled

theorem normalizes_iff (h : Scales scale code min max) (hlt : min < max) : Normalizes scale code min max ↔ min = 0 := by
  constructor
  · exact h.min_eq_zero hlt
  · rintro rfl
    exact h.normalizes hlt

end Scales

/-- On each axis the filter does what it is for just if the minimum is 0. -/
theorem scaleAbs_normalizes_iff (maxx maxy maxp minx miny minp : Int32) (hx : minx < maxx) (hy : miny < maxy) :
    (Normalizes (evfScaleAbsAlloc maxx maxy maxp minx miny minp) absX minx maxx ↔ minx = 0) ∧
      (Normalizes (evfScaleAbsAlloc maxx maxy maxp minx miny minp) absY miny maxy ↔ miny = 0) :=
  ⟨(scales_x _).normalizes_iff hx, (scales_y _).normalizes_iff hy⟩

theorem scaleAbs_tablet :
    (Normalizes (evfScaleAbsAlloc 4095 1000 100 0 1 0) absX 0 4095 ↔ (0 : Int32) = 0) ∧
      (Normalizes (evfScaleAbsAlloc 4095 1000 100 0 1 0) absY 1 1000 ↔ (1 : Int32) = 0) :=
  scaleAbs_normalizes_iff 4095 1000 100 0 1 0 (by decide) (by decide)

/-- The calibration of a test of the loader. The greatest value of the x axis is too large for an `int` after scaling,
and that of the y axis does not come to INT_MAX. -/
theorem not_scaleAbs_normalizes :
    (evfScaleAbsAlloc 100 1000 100 (-1) 1 0).apply ⟨(0, 0), evAbs, absX, 100⟩ = none ∧
      (evfScaleAbsAlloc 100 1000 100 (-1) 1 0).apply ⟨(0, 0), evAbs, absY, 1000⟩ =
        some ⟨(0, 0), evAbs, absY, 2145336163⟩ ∧
      ¬ ∀ maxx maxy maxp minx miny minp : Int32, minx < maxx → miny < maxy →
        Normalizes (evfScaleAbsAlloc maxx maxy maxp minx miny minp) absX minx maxx ∧
          Normalizes (evfScaleAbsAlloc maxx maxy maxp minx miny minp) absY miny maxy := by
  refine ⟨by decide +kernel, by decide +kernel, fun h => ?_⟩
  exact absurd ((scales_x _).min_eq_zero (by decide) (h 100 1000 100 (-1) 1 0 (by decide) (by decide)).1) (by decide)

end Evfilter.Filters
