import Evfilter.Filters.Motion
import Evfilter.Filters.Stream
import Evfilter.Lib.Carry

/-!
# Movement that is divided

SpeedMod and Rel2Scroll keep for each axis what is left of a division. In C the quotient is truncated and the remainder
has the sign of what is divided.
-/

namespace Evfilter.Filters
open Lib

/-- The value of a relative event of that code. -/
def moved (code : UInt16) (ev : InputEvent) : Option Int32 :=
  if ev.type = evRel ∧ ev.code = code then some ev.value else none

/-- Tried before the values of the whole type are. -/
instance decidableMoved {o : Option Int32} {P : Int32 → Prop} [DecidablePred P] : Decidable (∀ v ∈ o, P v) :=
  Option.decidableForallMem o

/-- The movement on an axis in these events. -/
def movement (code : UInt16) (evs : List InputEvent) : Int := total Int32.toInt (evs.filterMap (moved code))

variable {sum mod kept v : Int32} {code : UInt16} {ev : InputEvent}

theorem moved_eq_some : moved code ev = some v ↔ (ev.type = evRel ∧ ev.code = code) ∧ ev.value = v := by
  simp [moved]

theorem moved_eq_none : moved code ev = none ↔ ¬ (ev.type = evRel ∧ ev.code = code) := by
  simp [moved]

/-- Relative events of one code with these values. -/
theorem moved_values {f : Int32 → InputEvent} {vs : List Int32}
    (hf : ∀ v, ((f v).type = evRel ∧ (f v).code = code) ∧ (f v).value = v) :
    (vs.map f).filterMap (moved code) = vs := by
  have hsome : moved code ∘ f = some := funext fun v => moved_eq_some.mpr (hf v)
  rw [List.filterMap_map, hsome, List.filterMap_some]

theorem moved_others {f : Int32 → InputEvent} {vs : List Int32}
    (hf : ∀ v, ¬ ((f v).type = evRel ∧ (f v).code = code)) : (vs.map f).filterMap (moved code) = [] :=
  List.filterMap_eq_nil_iff.mpr (List.forall_mem_map.mpr fun v _ => moved_eq_none.mpr (hf v))

/-! ## The two divisions -/

theorem toInt_ne_zero {n : Int32} (h : n ≠ 0) : n.toInt ≠ 0 := fun hzero => h (Int32.toInt.inj hzero)

theorem toInt_add_of_range (hmin : -2147483648 ≤ kept.toInt + v.toInt) (hmax : kept.toInt + v.toInt ≤ 2147483647) :
    (kept + v).toInt = kept.toInt + v.toInt := by
  rw [Int32.toInt_add, Int.bmod_eq_of_le (by omega) (by omega)]

theorem toInt_abs (hsum : sum ≠ Int32.minValue) : sum.abs.toInt = sum.toInt.natAbs := by
  refine (BitVec.toInt_abs_eq_natAbs_of_ne_intMin fun h => hsum ?_)
  exact Int32.toBitVec.inj h

theorem toInt_div (h : ¬ (sum = Int32.minValue ∧ mod = -1)) : (sum / mod).toInt = sum.toInt.tdiv mod.toInt := by
  by_cases hsum : sum = Int32.minValue
  · exact Int32.toInt_div_of_ne_right _ _ fun hmod => h ⟨hsum, hmod⟩
  · exact Int32.toInt_div_of_ne_left _ _ hsum

/-- `sgn(x)*(abs(x) % mod)` is the remainder of `x`. -/
theorem toInt_signed_mod (hsum : sum ≠ Int32.minValue) :
    ((if 0 < sum then 1 else -1) * (sum.abs % mod)).toInt = sum.toInt.tmod mod.toInt := by
  have habs := toInt_abs hsum
  have hlt := sum.toInt_lt
  have hmin := sum.le_toInt
  have hne : sum.toInt ≠ -2147483648 := fun h => hsum (Int32.toInt.inj h)
  have hrem := Int.natAbs_tmod sum.toInt mod.toInt
  have hle := Nat.mod_le sum.toInt.natAbs mod.toInt.natAbs
  rw [Int32.toInt_mul, Int32.toInt_mod, habs]
  by_cases hpos : 0 < sum
  · have hnat : (sum.toInt.natAbs : Int) = sum.toInt := by
      have := Int32.lt_iff_toInt_lt.mp hpos
      rw [Int32.toInt_zero] at this
      omega
    rw [if_pos hpos, hnat, Int32.toInt_one, one_mul]
    exact Int.bmod_eq_of_le (by omega) (by omega)
  · have hnat : (sum.toInt.natAbs : Int) = -sum.toInt := by
      have := mt Int32.lt_iff_toInt_lt.mpr hpos
      rw [Int32.toInt_zero] at this
      omega
    rw [if_neg hpos, hnat, Int.neg_tmod, show (-1 : Int32).toInt = -1 from rfl, neg_one_mul, neg_neg]
    exact Int.bmod_eq_of_le (by omega) (by omega)

/-- What is kept if nothing is given out is small. -/
theorem splits_none (h : sum.toInt.natAbs < mod.toInt.natAbs) : Splits Int32.toInt mod sum (sum, none) :=
  ⟨by simp [total], h⟩

/-- Quotient and remainder. -/
theorem splits_some {rem quot : Int32} (hmod : mod ≠ 0) (hrem : rem.toInt = sum.toInt.tmod mod.toInt)
    (hquot : quot.toInt = sum.toInt.tdiv mod.toInt) : Splits Int32.toInt mod sum (rem, some quot) where
  sum_eq := by
    rw [hrem, Option.toList_some, total_single, hquot]
    exact (Int.mul_tdiv_add_tmod _ _).symm
  small := by
    rw [hrem, Int.natAbs_tmod]
    exact Nat.mod_lt _ (Int.natAbs_pos.mpr fun h => hmod (Int32.toInt.inj h))

theorem slowDown_splits (hmod : mod ≠ 0) (hsum : sum ≠ Int32.minValue) :
    Splits Int32.toInt mod sum (slowDown sum mod) := by
  unfold slowDown
  split
  · exact splits_some hmod (toInt_signed_mod hsum) (toInt_div fun h => hsum h.1)
  · rename_i hsmall
    refine splits_none ?_
    have hlt := mt Int32.le_iff_toInt_le.mpr hsmall
    rw [toInt_abs hsum] at hlt
    omega

theorem scroll_splits (hmod : mod ≠ 0) (h : ¬ (sum = Int32.minValue ∧ mod = -1)) :
    Splits Int32.toInt mod sum (scroll sum mod) := by
  unfold scroll
  split
  · exact splits_some hmod (Int32.toInt_mod _ _) (toInt_div h)
  · rename_i hzero
    have hquot : sum.toInt.tdiv mod.toInt = 0 := by
      rw [← toInt_div h, not_not.mp hzero, Int32.toInt_zero]
    refine splits_none ?_
    have hdiv := Int.natAbs_tdiv sum.toInt mod.toInt
    rw [hquot] at hdiv
    have hne : mod.toInt.natAbs ≠ 0 := fun h => hmod (Int32.toInt.inj (Int.natAbs_eq_zero.mp h))
    exact (Nat.div_eq_zero_iff.mp hdiv.symm).resolve_left hne

/-! ## SpeedMod -/

/-- The sum is an `int`, and more than INT_MIN. -/
def SumInRange (kept v : Int32) : Prop := -2147483647 ≤ kept.toInt + v.toInt ∧ kept.toInt + v.toInt ≤ 2147483647

instance : Decidable (SumInRange kept v) := inferInstanceAs (Decidable (_ ∧ _))

theorem SumInRange.slowDown (hmod : mod ≠ 0) (h : SumInRange kept v) : (kept + v).toInt = kept.toInt + v.toInt ∧
    Splits Int32.toInt mod (kept + v) (slowDown (kept + v) mod) := by
  obtain ⟨hmin, hmax⟩ := h
  have hadd := toInt_add_of_range (by omega) hmax
  refine ⟨hadd, slowDown_splits hmod fun h => ?_⟩
  have hlow : (kept + v).toInt = -2147483648 := by rw [h]; rfl
  omega

namespace Relspeed

variable {data : Relspeed}

theorem step_x (h : ev.type = evRel ∧ ev.code = relX) : (alone Relspeed.modify).step data ev =
    let parts := slowDown (data.x + ev.value) data.xmod
    ({ data with x := parts.1, eatNextSyn := data.eatNextSyn || parts.2.isNone },
      parts.2.toList.map fun value => { ev with value := value }) := by
  have hsyn : ¬ (ev.type = evSyn ∧ data.eatNextSyn) := fun hs => absurd (h.1.symm.trans hs.1) (by decide)
  simp only [alone, Relspeed.modify, if_neg hsyn, if_pos h]
  rcases slowDown (data.x + ev.value) data.xmod with ⟨x, _ | value⟩
  · rw [Option.isNone_none, Bool.or_true]
    rfl
  · rw [Option.isNone_some, Bool.or_false]
    rfl

theorem step_y (h : ev.type = evRel ∧ ev.code = relY) : (alone Relspeed.modify).step data ev =
    let parts := slowDown (data.y + ev.value) data.ymod
    ({ data with y := parts.1, eatNextSyn := data.eatNextSyn || parts.2.isNone },
      parts.2.toList.map fun value => { ev with value := value }) := by
  have hsyn : ¬ (ev.type = evSyn ∧ data.eatNextSyn) := fun hs => absurd (h.1.symm.trans hs.1) (by decide)
  have hx : ¬ (ev.type = evRel ∧ ev.code = relX) := fun hx => absurd (h.2.symm.trans hx.2) (by decide)
  simp only [alone, Relspeed.modify, if_neg hsyn, if_neg hx, if_pos h]
  rcases slowDown (data.y + ev.value) data.ymod with ⟨y, _ | value⟩
  · rw [Option.isNone_none, Bool.or_true]
    rfl
  · rw [Option.isNone_some, Bool.or_false]
    rfl

theorem step_other (hx : ¬ (ev.type = evRel ∧ ev.code = relX)) (hy : ¬ (ev.type = evRel ∧ ev.code = relY)) :
    (alone Relspeed.modify).step data ev =
      if ev.type = evSyn ∧ data.eatNextSyn then ({ data with eatNextSyn := false }, []) else (data, [ev]) := by
  simp only [alone, Relspeed.modify, if_neg hx, if_neg hy]
  split <;> rfl

/-- What an event is for SpeedMod. -/
theorem event_cases (ev : InputEvent) : (ev.type = evRel ∧ ev.code = relX) ∨ (ev.type = evRel ∧ ev.code = relY) ∨
    (¬ (ev.type = evRel ∧ ev.code = relX) ∧ ¬ (ev.type = evRel ∧ ev.code = relY)) := by
  by_cases hx : ev.type = evRel ∧ ev.code = relX
  · exact Or.inl hx
  · by_cases hy : ev.type = evRel ∧ ev.code = relY
    · exact Or.inr (Or.inl hy)
    · exact Or.inr (Or.inr ⟨hx, hy⟩)

theorem step_mods (data : Relspeed) (ev : InputEvent) : ((alone Relspeed.modify).step data ev).1.xmod = data.xmod ∧
    ((alone Relspeed.modify).step data ev).1.ymod = data.ymod := by
  rcases event_cases ev with h | h | ⟨hx, hy⟩
  · rw [step_x h]
    exact ⟨rfl, rfl⟩
  · rw [step_y h]
    exact ⟨rfl, rfl⟩
  · rw [step_other hx hy]
    split <;> exact ⟨rfl, rfl⟩

/-- The movement on the first axis is divided on its own. -/
theorem simulates_x (xmod : Int32) : (alone Relspeed.modify).Simulates (carry fun sum => slowDown sum xmod)
    (fun data => data.xmod = xmod) Relspeed.x (moved relX) (moved relX) where
  keep := fun data ev h => (step_mods data ev).1.trans h
  taken := by
    rintro data ev v rfl htake
    obtain ⟨h, rfl⟩ := moved_eq_some.mp htake
    rw [step_x h]
    exact ⟨rfl, moved_values fun _ => ⟨h, rfl⟩⟩
  left := by
    rintro data ev rfl hleft
    rcases event_cases ev with h | h | ⟨hx, hy⟩
    · exact absurd h (moved_eq_none.mp hleft)
    · rw [step_y h]
      exact ⟨rfl, moved_others fun _ hx => absurd (h.2.symm.trans hx.2) (by decide)⟩
    · rw [step_other hx hy]
      split <;> simp [hleft]

theorem simulates_y (ymod : Int32) : (alone Relspeed.modify).Simulates (carry fun sum => slowDown sum ymod)
    (fun data => data.ymod = ymod) Relspeed.y (moved relY) (moved relY) where
  keep := fun data ev h => (step_mods data ev).2.trans h
  taken := by
    rintro data ev v rfl htake
    obtain ⟨h, rfl⟩ := moved_eq_some.mp htake
    rw [step_y h]
    exact ⟨rfl, moved_values fun _ => ⟨h, rfl⟩⟩
  left := by
    rintro data ev rfl hleft
    rcases event_cases ev with h | h | ⟨hx, hy⟩
    · rw [step_x h]
      exact ⟨rfl, moved_others fun _ hy => absurd (h.2.symm.trans hy.2) (by decide)⟩
    · exact absurd h (moved_eq_none.mp hleft)
    · rw [step_other hx hy]
      split <;> simp [hleft]

/-- The events that SpeedMod has nothing to do with. -/
def other (ev : InputEvent) : Option InputEvent :=
  if ev.type = evSyn ∨ ev.type = evRel ∧ (ev.code = relX ∨ ev.code = relY) then none else some ev

theorem other_rel {code : UInt16} {value : Int32} (hrel : ev.type = evRel) (hcode : code = relX ∨ code = relY) :
    other { ev with code := code, value := value } = none := if_pos (Or.inr ⟨hrel, hcode⟩)

theorem simulates_other : (alone Relspeed.modify).Simulates Transducer.echo (fun _ => True) (fun _ => ()) other other where
  keep := fun _ _ _ => trivial
  taken := by
    intro data ev e _ htake
    have hnot : ¬ (ev.type = evSyn ∨ ev.type = evRel ∧ (ev.code = relX ∨ ev.code = relY)) := fun h => by
      rw [other, if_pos h] at htake
      cases htake
    have hother : other ev = some ev := if_neg hnot
    obtain rfl : ev = e := Option.some.inj (hother.symm.trans htake)
    have hsyn : ¬ (ev.type = evSyn ∧ data.eatNextSyn) := fun h => hnot (Or.inl h.1)
    rw [step_other (fun h => hnot (Or.inr ⟨h.1, Or.inl h.2⟩)) (fun h => hnot (Or.inr ⟨h.1, Or.inr h.2⟩)), if_neg hsyn]
    exact ⟨rfl, by simp [hother, Transducer.echo]⟩
  left := by
    intro data ev _ hleft
    refine ⟨rfl, ?_⟩
    rcases event_cases ev with h | h | ⟨hx, hy⟩
    · rw [step_x h]
      exact List.filterMap_eq_nil_iff.mpr (List.forall_mem_map.mpr fun _ _ => other_rel h.1 (Or.inl h.2))
    · rw [step_y h]
      exact List.filterMap_eq_nil_iff.mpr (List.forall_mem_map.mpr fun _ _ => other_rel h.1 (Or.inr h.2))
    · rw [step_other hx hy]
      split <;> simp [hleft]

/-- `x` or `y` is between -INT_MAX and INT_MAX when the value has been added. -/
def InRange (data : Relspeed) (ev : InputEvent) : Prop :=
  (∀ v ∈ moved relX ev, SumInRange data.x v) ∧ ∀ v ∈ moved relY ev, SumInRange data.y v

instance (data : Relspeed) (ev : InputEvent) : Decidable (data.InRange ev) :=
  inferInstanceAs (Decidable (_ ∧ _))

/-- What has been received is what has been sent, times the divisors, and what is left. -/
structure Conserves (xmod ymod : Int32) (received sent : List InputEvent) (data : Relspeed) : Prop where
  x : movement relX received = xmod.toInt * movement relX sent + data.x.toInt
  y : movement relY received = ymod.toInt * movement relY sent + data.y.toInt
  x_small : data.x.toInt.natAbs < xmod.toInt.natAbs
  y_small : data.y.toInt.natAbs < ymod.toInt.natAbs
  others : sent.filterMap other = received.filterMap other

end Relspeed

/-- What comes of the movement on an axis depends on this movement only. -/
def AxisAlone {σ : Type} (T : Transducer σ InputEvent InputEvent) (s : σ) (axis : σ → Int32) (code : UInt16) : Prop :=
  ∀ evs evs', evs.filterMap (moved code) = evs'.filterMap (moved code) →
    axis (T.state s evs) = axis (T.state s evs') ∧
      (T.outputs s evs).filterMap (moved code) = (T.outputs s evs').filterMap (moved code)

section
variable {β : Type} {xmod ymod : Int32} (next : InputEvent → β → InputEvent × β) (b : β)

theorem Relspeed.conserves (hx : xmod ≠ 0) (hy : ymod ≠ 0) {evs : List InputEvent}
    (hrange : (driven Relspeed.modify next).Along (fun s ev => s.1.InRange ev) (evfSpeedModRelAlloc xmod ymod, b) evs) :
    Conserves xmod ymod evs ((driven Relspeed.modify next).outputs (evfSpeedModRelAlloc xmod ymod, b) evs)
      ((driven Relspeed.modify next).state (evfSpeedModRelAlloc xmod ymod, b) evs).1 := by
  have hX := driven_simulates next sendsLast (simulates_x xmod)
  have hY := driven_simulates next sendsLast (simulates_y ymod)
  have hother := driven_simulates next sendsLast simulates_other
  obtain ⟨hxsum, hxsmall⟩ := hX.total rfl rfl rfl (toInt_ne_zero hx) (fun _ _ => SumInRange.slowDown hx)
    (fun _ _ v _ htake hC => hC.1 v htake) hrange
  obtain ⟨hysum, hysmall⟩ := hY.total rfl rfl rfl (toInt_ne_zero hy) (fun _ _ => SumInRange.slowDown hy)
    (fun _ _ v _ htake hC => hC.2 v htake) hrange
  exact ⟨hxsum, hysum, hxsmall, hysmall, by rw [hother.outputs trivial, Transducer.outputs_echo]⟩

/-- SpeedMod loses no movement while `x` and `y` stay in range, and the axes do not meet. -/
theorem speedMod_conserves (hx : xmod ≠ 0) (hy : ymod ≠ 0) :
    (AxisAlone (driven Relspeed.modify next) (evfSpeedModRelAlloc xmod ymod, b) (fun s => s.1.x) relX ∧
      AxisAlone (driven Relspeed.modify next) (evfSpeedModRelAlloc xmod ymod, b) (fun s => s.1.y) relY) ∧
    ∀ evs, (driven Relspeed.modify next).Along (fun s ev => s.1.InRange ev) (evfSpeedModRelAlloc xmod ymod, b) evs →
      ∀ before, before <+: evs → Relspeed.Conserves xmod ymod before
        ((driven Relspeed.modify next).outputs (evfSpeedModRelAlloc xmod ymod, b) before)
        ((driven Relspeed.modify next).state (evfSpeedModRelAlloc xmod ymod, b) before).1 := by
  have hX := driven_simulates next Relspeed.sendsLast (Relspeed.simulates_x xmod)
  have hY := driven_simulates next Relspeed.sendsLast (Relspeed.simulates_y ymod)
  refine ⟨⟨fun evs evs' h => hX.agree rfl h, fun evs evs' h => hY.agree rfl h⟩, ?_⟩
  rintro evs hrange before ⟨after, rfl⟩
  exact Relspeed.conserves next b hx hy (Transducer.along_append.mp hrange).1

end

/-- Movement to and fro, and a key. -/
def toAndFro : List InputEvent :=
  [⟨(0, 0), evRel, relX, 7⟩, ⟨(0, 0), evRel, relY, 3⟩, ⟨(0, 0), evSyn, synReport, 0⟩, ⟨(0, 1), evKey, 30, 1⟩,
    ⟨(0, 1), evRel, relX, -5⟩, ⟨(0, 1), evSyn, synReport, 0⟩]

theorem speedMod_toAndFro : Relspeed.Conserves 3 (-2) toAndFro
    ((driven Relspeed.modify (Proc.record id)).outputs (evfSpeedModRelAlloc 3 (-2), []) toAndFro)
    ((driven Relspeed.modify (Proc.record id)).state (evfSpeedModRelAlloc 3 (-2), []) toAndFro).1 :=
  (speedMod_conserves (Proc.record id) [] (by decide) (by decide)).2 toAndFro (by decide) toAndFro (List.prefix_refl _)

end Evfilter.Filters
