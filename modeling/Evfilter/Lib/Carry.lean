import Evfilter.Lib.Transducer
import Mathlib.Algebra.BigOperators.Group.List.Basic
import Mathlib.Algebra.Order.Ring.Int
import Mathlib.Algebra.Ring.Int.Defs

/-!
# Division of what comes in pieces

Values are added up and divided by a divisor. A quotient is given out, if there is anything to give, and the remainder
is kept for the next value. Nothing is lost over a run as long as nothing is lost in a step.
-/

namespace Lib

variable {α : Type} [Add α] [Zero α]

/-- `divide` tells what is kept of a sum and what is given out. -/
def carry (divide : α → α × Option α) : Transducer α α α where
  step := fun kept v => ((divide (kept + v)).1, (divide (kept + v)).2.toList)

/-- The sum of what the values stand for. -/
def total (val : α → Int) (vs : List α) : Int := (vs.map val).sum

/-- The sum is taken apart without a loss, and less than the divisor is kept. -/
structure Splits (val : α → Int) (divisor sum : α) (parts : α × Option α) : Prop where
  sum_eq : val sum = val divisor * total val parts.2.toList + val parts.1
  small : (val parts.1).natAbs < (val divisor).natAbs

variable {val : α → Int} {divide : α → α × Option α} {divisor : α} {C : α → α → Prop} {vs ws : List α}

omit [Add α] [Zero α] in
theorem total_append : total val (vs ++ ws) = total val vs + total val ws := by
  rw [total, List.map_append, List.sum_append, total, total]

omit [Add α] [Zero α] in
theorem total_single (v : α) : total val [v] = val v := by simp [total]

/-- If no sum is too large to be represented, and every sum is split. -/
theorem carry_total (hzero : val 0 = 0) (hdivisor : val divisor ≠ 0)
    (hsplits : ∀ kept v, C kept v →
      val (kept + v) = val kept + val v ∧ Splits val divisor (kept + v) (divide (kept + v)))
    (h : (carry divide).Along C 0 vs) :
    total val vs = val divisor * total val ((carry divide).outputs 0 vs) + val ((carry divide).state 0 vs) ∧
      (val ((carry divide).state 0 vs)).natAbs < (val divisor).natAbs := by
  refine h.relates (fun vs kept os => total val vs = val divisor * total val os + val kept ∧
    (val kept).natAbs < (val divisor).natAbs) ?_ ?_
  · rw [hzero]
    refine ⟨by simp [total], ?_⟩
    rw [Int.natAbs_zero]
    exact Int.natAbs_pos.mpr hdivisor
  · rintro vs kept os v ⟨hsum, -⟩ hC
    obtain ⟨hadd, hsplit⟩ := hsplits kept v hC
    refine ⟨?_, hsplit.small⟩
    calc total val (vs ++ [v]) = total val vs + val v := by rw [total_append, total_single]
      _ = val divisor * total val os + val (kept + v) := by rw [hsum, hadd, add_assoc]
      _ = val divisor * total val (os ++ (divide (kept + v)).2.toList) + val (divide (kept + v)).1 := by
        rw [hsplit.sum_eq, total_append, mul_add, add_assoc]

/-- The same for a part of the inputs and outputs of a transducer that is divided. -/
theorem Transducer.Simulates.total {σ ι ω : Type} {T : Transducer σ ι ω} {J : σ → Prop} {view : σ → α}
    {take : ι → Option α} {see : ω → Option α} {s : σ} {is : List ι} {D : σ → ι → Prop}
    (h : T.Simulates (carry divide) J view take see) (hs : J s) (hview : view s = 0) (hzero : val 0 = 0)
    (hdivisor : val divisor ≠ 0)
    (hsplits : ∀ kept v, C kept v →
      val (kept + v) = val kept + val v ∧ Splits val divisor (kept + v) (divide (kept + v)))
    (hcond : ∀ s i v, J s → take i = some v → D s i → C (view s) v) (hD : T.Along D s is) :
    total val (is.filterMap take) =
        val divisor * total val ((T.outputs s is).filterMap see) + val (view (T.state s is)) ∧
      (val (view (T.state s is))).natAbs < (val divisor).natAbs := by
  have halong := (h.along_iff hs).mpr (hD.mono hs h.keep fun t i ht hD v htake => hcond t i v ht htake hD)
  rw [h.outputs hs, h.state hs]
  rw [hview] at halong ⊢
  exact carry_total hzero hdivisor hsplits halong

/-! ## Dividing twice -/

section Twice

variable {a b r s v : Int}

theorem carry_twice_eq (a b r s v : Int) : (r + v).tmod a + a * (s + (r + v).tdiv a).tmod b +
    a * b * (s + (r + v).tdiv a).tdiv b = r + a * s + v := by
  have hfirst := Int.tmod_add_mul_tdiv (r + v) a
  have hsecond := Int.tmod_add_mul_tdiv (s + (r + v).tdiv a) b
  calc _ = (r + v).tmod a + a * ((s + (r + v).tdiv a).tmod b + b * (s + (r + v).tdiv a).tdiv b) := by
        rw [mul_add, mul_assoc, add_assoc]
    _ = (r + v).tmod a + a * (s + (r + v).tdiv a) := by rw [hsecond]
    _ = (r + v).tmod a + a * (r + v).tdiv a + a * s := by rw [mul_add, add_comm (a * s), add_assoc]
    _ = r + a * s + v := by rw [hfirst, add_right_comm]

/-- What is kept of a sum is on its side of 0. -/
theorem carry_twice_nonneg (ha : 0 < a) (hs : s < b) (hsum : 0 ≤ r + a * s + v) :
    0 ≤ (r + v).tmod a + a * (s + (r + v).tdiv a).tmod b := by
  have hfirst := Int.tmod_add_mul_tdiv (r + v) a
  have hlow := Int.lt_tmod_of_pos (r + v) ha
  have hup := Int.tmod_lt_of_pos (r + v) ha
  have htotal : (r + v).tmod a + a * (s + (r + v).tdiv a) = r + a * s + v := by
    rw [mul_add]
    omega
  rcases Int.lt_trichotomy ((s + (r + v).tdiv a).tmod b) 0 with hneg | hzero | hpos
  · have hquot : s + (r + v).tdiv a < 0 := by
      by_contra hge
      exact absurd (Int.tmod_nonneg b (not_lt.mp hge)) (not_le.mpr hneg)
    have hle : a * (s + (r + v).tdiv a) ≤ a * (-1) := Int.mul_le_mul_of_nonneg_left (by omega) ha.le
    omega
  · rw [hzero, mul_zero, add_zero]
    by_contra hr
    -- then nothing that is not negative is handed on, and `s` is too small to be divided
    have hquot : (r + v).tdiv a ≤ 0 := by
      have hneg : r + v < 0 := by
        by_contra hge
        exact hr (Int.tmod_nonneg a (not_lt.mp hge))
      have hopposite : 0 ≤ (-(r + v)).tdiv a := Int.tdiv_nonneg (by omega) ha.le
      rw [Int.neg_tdiv] at hopposite
      omega
    have hpos : 0 < s + (r + v).tdiv a := by
      by_contra hle
      have hprod := Int.mul_le_mul_of_nonneg_left (not_lt.mp hle) ha.le
      omega
    rw [Int.tmod_eq_of_lt hpos.le (by omega)] at hzero
    omega
  · have hle : a * 1 ≤ a * (s + (r + v).tdiv a).tmod b := Int.mul_le_mul_of_nonneg_left (by omega) ha.le
    omega

theorem carry_twice_lt (ha : 0 < a) (hb : 0 < b) : (r + v).tmod a + a * (s + (r + v).tdiv a).tmod b < a * b := by
  have hup := Int.tmod_lt_of_pos (r + v) ha
  have hup' := Int.tmod_lt_of_pos (s + (r + v).tdiv a) hb
  have hle : a * (s + (r + v).tdiv a).tmod b ≤ a * (b - 1) := Int.mul_le_mul_of_nonneg_left (by omega) ha.le
  rw [mul_sub, mul_one] at hle
  omega

/-- To divide by `a` and what comes of that by `b` is to divide by their product: the same is handed on, and the same is
kept. -/
theorem carry_twice (ha : 0 < a) (hb : 0 < b) (hs : -b < s ∧ s < b) :
    (r + a * s + v).tdiv (a * b) = (s + (r + v).tdiv a).tdiv b ∧
      (r + a * s + v).tmod (a * b) = (r + v).tmod a + a * (s + (r + v).tdiv a).tmod b := by
  have hpos : ∀ r s v : Int, s < b → 0 ≤ r + a * s + v → (r + a * s + v).tdiv (a * b) = (s + (r + v).tdiv a).tdiv b ∧
      (r + a * s + v).tmod (a * b) = (r + v).tmod a + a * (s + (r + v).tdiv a).tmod b := by
    intro r s v hs hsum
    have hab := Int.mul_pos ha hb
    refine (Int.tdiv_tmod_unique hsum hab.ne').mpr ⟨carry_twice_eq a b r s v, carry_twice_nonneg ha hs hsum, ?_⟩
    rw [Int.natAbs_of_nonneg hab.le]
    exact carry_twice_lt ha hb
  rcases le_total 0 (r + a * s + v) with hsum | hsum
  · exact hpos r s v hs.2 hsum
  · have hopposite := hpos (-r) (-s) (-v) (by omega) (by rw [mul_neg]; omega)
    have htotal : -r + a * -s + -v = -(r + a * s + v) := by
      rw [mul_neg]
      omega
    have hfirst : -r + -v = -(r + v) := by omega
    have hsecond : -s + -(r + v).tdiv a = -(s + (r + v).tdiv a) := by omega
    rw [htotal, hfirst, Int.neg_tdiv, Int.neg_tmod, Int.neg_tdiv, Int.neg_tmod, hsecond, Int.neg_tdiv, Int.neg_tmod,
      mul_neg] at hopposite
    omega

end Twice

end Lib
