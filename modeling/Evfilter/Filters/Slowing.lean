import Evfilter.Filters.Remainders

/-!
# SpeedMods in a row

Two SpeedMods, one behind the other, move the pointer as one does that divides by the products of their divisors. Only
the EV_SYNs that are dropped are not the same.
-/

namespace Evfilter.Filters
open Lib

variable {a b c d first second one sum mod v : Int32} {ev : InputEvent} {n : Nat}

/-! ## One axis -/

theorem tdiv_small {sum mod : Int} (h : sum.natAbs < mod) : sum.tdiv mod = 0 := by
  have hquot : (sum.tdiv mod).natAbs = sum.natAbs / mod.natAbs := Int.natAbs_tdiv sum mod
  rw [Nat.div_eq_of_lt (by omega)] at hquot
  exact Int.natAbs_eq_zero.mp hquot

/-- What `slowDown` keeps of a sum and what it hands on, in integers. -/
structure Parts (mod sum : Int32) (value : Int) : Prop where
  kept : (slowDown sum mod).1.toInt = value.tmod mod.toInt
  small : -mod.toInt < (slowDown sum mod).1.toInt ∧ (slowDown sum mod).1.toInt < mod.toInt
  given : (slowDown sum mod).2 = if value.tdiv mod.toInt = 0 then none else some (sum / mod)
  quotient : (sum / mod).toInt = value.tdiv mod.toInt

theorem slowDown_parts {value : Int} (hmod : 0 < mod.toInt) (hsum : sum.toInt = value ∧ sum ≠ Int32.minValue) :
    Parts mod sum value := by
  obtain ⟨rfl, hmin⟩ := hsum
  have habs := toInt_abs hmin
  have hkept : (slowDown sum mod).1.toInt = sum.toInt.tmod mod.toInt := by
    unfold slowDown
    split
    case isTrue => exact toInt_signed_mod hmin
    case isFalse hsmall =>
      have hlt := mt Int32.le_iff_toInt_le.mpr hsmall
      have hsplit := Int.tmod_add_mul_tdiv sum.toInt mod.toInt
      rw [tdiv_small (by omega), mul_zero, add_zero] at hsplit
      exact hsplit.symm
  refine ⟨hkept, ?_, ?_, toInt_div fun h => hmin h.1⟩
  · rw [hkept]
    exact ⟨Int.lt_tmod_of_pos _ hmod, Int.tmod_lt_of_pos _ hmod⟩
  · unfold slowDown
    split
    case isTrue hlarge =>
      have hle := Int32.le_iff_toInt_le.mp hlarge
      have hquot : (sum.toInt.tdiv mod.toInt).natAbs = sum.toInt.natAbs / mod.toInt.natAbs := Int.natAbs_tdiv _ _
      have hpos : 0 < sum.toInt.natAbs / mod.toInt.natAbs := Nat.div_pos (by omega) (by omega)
      rw [if_neg (Int.natAbs_ne_zero.mp (hquot ▸ hpos.ne'))]
    case isFalse hsmall =>
      have hlt := mt Int32.le_iff_toInt_le.mpr hsmall
      rw [if_pos (tdiv_small (by omega))]

/-- Divisors whose product is an `int`. -/
structure Divisors (a b : Int32) : Prop where
  first : 0 < a.toInt
  second : 0 < b.toInt
  range : a.toInt * b.toInt ≤ intMax.toInt

/-- The movement is no larger than what is left of an `int` besides the product of the divisors. -/
def HasRoom (a b v : Int32) : Prop := v.toInt.natAbs + a.toInt * b.toInt ≤ intMax.toInt

/-- What two SpeedMods keep of an axis, and what one keeps instead. -/
structure KeepTogether (a b first second one : Int32) : Prop where
  kept : one.toInt = first.toInt + a.toInt * second.toInt
  first : -a.toInt < first.toInt ∧ first.toInt < a.toInt
  second : -b.toInt < second.toInt ∧ second.toInt < b.toInt

theorem Divisors.mul (h : Divisors a b) : (a * b).toInt = a.toInt * b.toInt := by
  have hpos := Int.mul_pos h.first h.second
  have hrange : a.toInt * b.toInt ≤ 2147483647 := h.range
  rw [Int32.toInt_mul, Int.bmod_eq_of_le (by omega) (by omega)]

/-- One division after the other. -/
abbrev slowDownTwice (a b : Int32) : Transducer (Int32 × Int32) Int32 Int32 :=
  (carry fun sum => slowDown sum a).inSeries (carry fun sum => slowDown sum b)

theorem toInt_sum {kept v : Int32} (h : kept.toInt.natAbs + v.toInt.natAbs ≤ 2147483647) :
    (kept + v).toInt = kept.toInt + v.toInt ∧ kept + v ≠ Int32.minValue := by
  have hadd : (kept + v).toInt = kept.toInt + v.toInt := toInt_add_of_range (by omega) (by omega)
  refine ⟨hadd, fun hmin => ?_⟩
  have hlow : (kept + v).toInt = -2147483648 := by rw [hmin]; rfl
  omega

/-- What is added up by the two and by the one. -/
structure Sums (a b first second one v : Int32) : Prop where
  atFirst : (first + v).toInt = first.toInt + v.toInt ∧ first + v ≠ Int32.minValue
  atSecond : ∀ q : Int32, q.toInt = (first.toInt + v.toInt).tdiv a.toInt →
    (second + q).toInt = second.toInt + q.toInt ∧ second + q ≠ Int32.minValue
  atOne : (one + v).toInt = first.toInt + a.toInt * second.toInt + v.toInt ∧ one + v ≠ Int32.minValue

theorem KeepTogether.sums (h : KeepTogether a b first second one) (hd : Divisors a b) (hv : HasRoom a b v) :
    Sums a b first second one v := by
  obtain ⟨hkept, hfirst, hsecond⟩ := h
  obtain ⟨ha, hb, -⟩ := hd
  have hroom : v.toInt.natAbs + a.toInt * b.toInt ≤ 2147483647 := hv
  have hrest : 0 ≤ (a.toInt - 1) * (b.toInt - 1) := Int.mul_nonneg (by omega) (by omega)
  have hup : a.toInt * second.toInt ≤ a.toInt * (b.toInt - 1) := Int.mul_le_mul_of_nonneg_left (by omega) ha.le
  have hlow : a.toInt * -(b.toInt - 1) ≤ a.toInt * second.toInt := Int.mul_le_mul_of_nonneg_left (by omega) ha.le
  rw [mul_sub, mul_one, sub_mul, one_mul] at hrest
  rw [mul_sub, mul_one] at hup
  rw [mul_neg, mul_sub, mul_one] at hlow
  refine ⟨toInt_sum (by omega), fun q hq => toInt_sum ?_, ?_⟩
  · have hquot : q.toInt.natAbs = (first.toInt + v.toInt).natAbs / a.toInt.natAbs := by
      rw [hq]
      exact Int.natAbs_tdiv _ _
    have hle := Nat.div_le_self (first.toInt + v.toInt).natAbs a.toInt.natAbs
    omega
  · have hsum : (one + v).toInt = one.toInt + v.toInt ∧ one + v ≠ Int32.minValue := toInt_sum (by omega)
    rw [hkept] at hsum
    exact hsum

theorem KeepTogether.step (h : KeepTogether a b first second one) (hd : Divisors a b) (hv : HasRoom a b v) :
    ((slowDownTwice a b).step (first, second) v).2 = ((carry fun sum => slowDown sum (a * b)).step one v).2 ∧
      KeepTogether a b ((slowDownTwice a b).step (first, second) v).1.1 ((slowDownTwice a b).step (first, second) v).1.2
        ((carry fun sum => slowDown sum (a * b)).step one v).1 := by
  have hsums := h.sums hd hv
  have hpos : 0 < (a * b).toInt := hd.mul ▸ Int.mul_pos hd.first hd.second
  obtain ⟨hquot, hrest⟩ := carry_twice (r := first.toInt) (v := v.toInt) hd.first hd.second h.second
  have hfirst := slowDown_parts hd.first hsums.atFirst
  obtain ⟨hkept, -, hgiven, hquotient⟩ := slowDown_parts hpos hsums.atOne
  rw [hd.mul, hrest, ← hfirst.kept] at hkept
  rw [hd.mul, hquot] at hgiven hquotient
  by_cases hzero : (first.toInt + v.toInt).tdiv a.toInt = 0
  · -- nothing gets to the second one
    obtain ⟨hlow, hup⟩ := h.second
    have hsmall : second.toInt.tdiv b.toInt = 0 := tdiv_small (by omega)
    have hsplit := Int.tmod_add_mul_tdiv second.toInt b.toInt
    rw [hsmall, mul_zero, add_zero] at hsplit
    have hnone := hfirst.given
    rw [if_pos hzero] at hnone
    rw [hzero, add_zero, hsmall, if_pos rfl] at hgiven
    rw [hzero, add_zero, hsplit] at hkept
    simp only [slowDownTwice, Transducer.inSeries, carry, hnone, hgiven, Option.toList_none]
    exact ⟨rfl, hkept, hfirst.small, h.second⟩
  · have hsome := hfirst.given
    rw [if_neg hzero] at hsome
    have hsecond := slowDown_parts hd.second (hsums.atSecond _ hfirst.quotient)
    have hvalue : (second + (first + v) / a) / b = (one + v) / (a * b) :=
      Int32.toInt.inj (hsecond.quotient.trans ((hfirst.quotient ▸ hquotient).symm))
    have hsame : (slowDown (second + (first + v) / a) b).2 = (slowDown (one + v) (a * b)).2 := by
      rw [hsecond.given, hgiven, hvalue, hfirst.quotient]
    rw [← hfirst.quotient, ← hsecond.kept] at hkept
    simp only [slowDownTwice, Transducer.inSeries, carry, hsome, Option.toList_some]
    refine ⟨?_, hkept, hfirst.small, hsecond.small⟩
    change (slowDown _ b).2.toList ++ [] = (slowDown _ (a * b)).2.toList
    rw [List.append_nil, hsame]

/-! ## Both axes -/

/-- Divisors of the first SpeedMod, and of the second one. -/
structure Together (a b c d : Int32) (two : Relspeed × Relspeed) (one : Relspeed) : Prop where
  xmods : two.1.xmod = a ∧ two.2.xmod = b ∧ one.xmod = a * b
  ymods : two.1.ymod = c ∧ two.2.ymod = d ∧ one.ymod = c * d
  x : KeepTogether a b two.1.x two.2.x one.x
  y : KeepTogether c d two.1.y two.2.y one.y

/-- Anything but an EV_SYN. -/
def notSyn (ev : InputEvent) : Bool := ev.type ≠ evSyn

namespace Relspeed

variable {data : Relspeed} {two : Relspeed × Relspeed} {single : Relspeed}

abbrev twice : Transducer (Relspeed × Relspeed) InputEvent InputEvent :=
  (alone Relspeed.modify).inSeries (alone Relspeed.modify)

/-- What is handed on of a movement is divided by the next one. -/
theorem given_x (data : Relspeed) (h : ev.type = evRel ∧ ev.code = relX) (given : Option Int32) :
    (alone Relspeed.modify).outputs data (given.toList.map fun value => { ev with value := value }) =
        ((carry fun sum => slowDown sum data.xmod).outputs data.x given.toList).map
          (fun value => { ev with value := value }) ∧
      ∃ eat, (alone Relspeed.modify).state data (given.toList.map fun value => { ev with value := value }) =
        { data with x := (carry fun sum => slowDown sum data.xmod).state data.x given.toList, eatNextSyn := eat } := by
  cases given with
  | none => exact ⟨rfl, data.eatNextSyn, rfl⟩
  | some q =>
      have hq := @step_x { ev with value := q } data h
      simp only [Option.toList_some, List.map_cons, List.map_nil, Transducer.outputs, Transducer.state, hq, carry,
        List.append_nil]
      exact ⟨trivial, _, rfl⟩

theorem given_y (data : Relspeed) (h : ev.type = evRel ∧ ev.code = relY) (given : Option Int32) :
    (alone Relspeed.modify).outputs data (given.toList.map fun value => { ev with value := value }) =
        ((carry fun sum => slowDown sum data.ymod).outputs data.y given.toList).map
          (fun value => { ev with value := value }) ∧
      ∃ eat, (alone Relspeed.modify).state data (given.toList.map fun value => { ev with value := value }) =
        { data with y := (carry fun sum => slowDown sum data.ymod).state data.y given.toList, eatNextSyn := eat } := by
  cases given with
  | none => exact ⟨rfl, data.eatNextSyn, rfl⟩
  | some q =>
      have hq := @step_y { ev with value := q } data h
      simp only [Option.toList_some, List.map_cons, List.map_nil, Transducer.outputs, Transducer.state, hq, carry,
        List.append_nil]
      exact ⟨trivial, _, rfl⟩

/-- The movement of an event leaves room on its axis. -/
structure Moderate (a b c d : Int32) (ev : InputEvent) : Prop where
  x : ∀ v ∈ moved relX ev, HasRoom a b v
  y : ∀ v ∈ moved relY ev, HasRoom c d v

theorem twice_x (h : Together a b c d two single) (hd : Divisors a b) (hev : Moderate a b c d ev)
    (hx : ev.type = evRel ∧ ev.code = relX) : (twice.step two ev).2 = ((alone Relspeed.modify).step single ev).2 ∧
      Together a b c d (twice.step two ev).1 ((alone Relspeed.modify).step single ev).1 := by
  obtain ⟨first, second⟩ := two
  obtain ⟨⟨rfl, rfl, hmod⟩, hymods, hkeepx, hkeepy⟩ := h
  obtain ⟨hout, hkeep⟩ := hkeepx.step hd (hev.x ev.value (moved_eq_some.mpr ⟨hx, rfl⟩))
  obtain ⟨hgiven, eat, hstate⟩ := given_x second hx (slowDown (first.x + ev.value) first.xmod).2
  simp only [twice, Transducer.inSeries, step_x hx, hmod]
  rw [hgiven, hstate]
  exact ⟨congrArg (List.map _) hout, ⟨rfl, rfl, rfl⟩, hymods, hkeep, hkeepy⟩

theorem twice_y (h : Together a b c d two single) (hd : Divisors c d) (hev : Moderate a b c d ev)
    (hy : ev.type = evRel ∧ ev.code = relY) : (twice.step two ev).2 = ((alone Relspeed.modify).step single ev).2 ∧
      Together a b c d (twice.step two ev).1 ((alone Relspeed.modify).step single ev).1 := by
  obtain ⟨first, second⟩ := two
  obtain ⟨hxmods, ⟨rfl, rfl, hmod⟩, hkeepx, hkeepy⟩ := h
  obtain ⟨hout, hkeep⟩ := hkeepy.step hd (hev.y ev.value (moved_eq_some.mpr ⟨hy, rfl⟩))
  obtain ⟨hgiven, eat, hstate⟩ := given_y second hy (slowDown (first.y + ev.value) first.ymod).2
  simp only [twice, Transducer.inSeries, step_y hy, hmod]
  rw [hgiven, hstate]
  exact ⟨congrArg (List.map _) hout, hxmods, ⟨rfl, rfl, rfl⟩, hkeepx, hkeep⟩

/-- An EV_SYN that is dropped or not. -/
theorem step_syn (data : Relspeed) (hsyn : ev.type = evSyn) : ∃ eat sent,
    (alone Relspeed.modify).step data ev = ({ data with eatNextSyn := eat }, sent) ∧ (sent = [] ∨ sent = [ev]) := by
  have hx : ¬ (ev.type = evRel ∧ ev.code = relX) := fun h => absurd (hsyn.symm.trans h.1) (by decide)
  have hy : ¬ (ev.type = evRel ∧ ev.code = relY) := fun h => absurd (hsyn.symm.trans h.1) (by decide)
  rw [step_other hx hy]
  split
  · exact ⟨false, [], rfl, Or.inl rfl⟩
  · exact ⟨data.eatNextSyn, [ev], rfl, Or.inr rfl⟩

theorem twice_syn (h : Together a b c d two single) (hsyn : ev.type = evSyn) :
    (twice.step two ev).2.filter notSyn = ((alone Relspeed.modify).step single ev).2.filter notSyn ∧
      Together a b c d (twice.step two ev).1 ((alone Relspeed.modify).step single ev).1 := by
  obtain ⟨first, second⟩ := two
  obtain ⟨eat, sent, hfirst, hsent⟩ := step_syn first hsyn
  obtain ⟨eat', sent', hsecond, hsent'⟩ := step_syn second hsyn
  obtain ⟨eat'', sent'', hsingle, hsent''⟩ := step_syn single hsyn
  have hnone : ∀ {sent : List InputEvent}, sent = [] ∨ sent = [ev] → sent.filter notSyn = [] := by
    rintro sent (rfl | rfl)
    · rfl
    · simp [notSyn, hsyn]
  simp only [twice, Transducer.inSeries, hfirst, hsingle]
  rw [hnone hsent'']
  rcases hsent with rfl | rfl
  · exact ⟨rfl, h.xmods, h.ymods, h.x, h.y⟩
  · simp only [Transducer.outputs, Transducer.state, hsecond, List.append_nil]
    exact ⟨hnone hsent', h.xmods, h.ymods, h.x, h.y⟩

theorem step_passes (data : Relspeed) (hx : ¬ (ev.type = evRel ∧ ev.code = relX))
    (hy : ¬ (ev.type = evRel ∧ ev.code = relY)) (hsyn : ev.type ≠ evSyn) :
    (alone Relspeed.modify).step data ev = (data, [ev]) := by
  rw [step_other hx hy, if_neg fun h => hsyn h.1]

/-- Two SpeedMods send what one sends, but for the EV_SYNs, and go on together. -/
theorem twice_step (hab : Divisors a b) (hcd : Divisors c d) (hev : Moderate a b c d ev)
    (h : Together a b c d two single) :
    (twice.step two ev).2.filter notSyn = ((alone Relspeed.modify).step single ev).2.filter notSyn ∧
      Together a b c d (twice.step two ev).1 ((alone Relspeed.modify).step single ev).1 := by
  rcases event_cases ev with hx | hy | ⟨hx, hy⟩
  · obtain ⟨hout, hkeep⟩ := twice_x h hab hev hx
    exact ⟨congrArg _ hout, hkeep⟩
  · obtain ⟨hout, hkeep⟩ := twice_y h hcd hev hy
    exact ⟨congrArg _ hout, hkeep⟩
  · by_cases hsyn : ev.type = evSyn
    · exact twice_syn h hsyn
    · simp only [twice, Transducer.inSeries, step_passes _ hx hy hsyn, Transducer.outputs, Transducer.state,
        List.append_nil]
      exact ⟨trivial, h⟩

/-- As they are allocated. -/
theorem together_alloc (hab : Divisors a b) (hcd : Divisors c d) :
    Together a b c d (evfSpeedModRelAlloc a c, evfSpeedModRelAlloc b d) (evfSpeedModRelAlloc (a * b) (c * d)) := by
  have hzero : ∀ {a b : Int32}, Divisors a b → KeepTogether a b 0 0 0 := fun hd => by
    have hfirst := hd.first
    have hsecond := hd.second
    refine ⟨by simp, ?_, ?_⟩ <;> rw [Int32.toInt_zero] <;> omega
  exact ⟨⟨rfl, rfl, rfl⟩, ⟨rfl, rfl, rfl⟩, hzero hab, hzero hcd⟩

end Relspeed

/-! ## Lines -/

theorem process_speedMod (ev : InputEvent) (data : Relspeed) (line : Line n) :
    (process (n + 1) ev (.speedMod data, line)).2 = (.speedMod ((alone Relspeed.modify).step data ev).1,
      Proc.feed (process n) ((alone Relspeed.modify).step data ev).2 line) := by
  obtain ⟨data', ev', -, h | ⟨h, -⟩⟩ := data.sendsLast ev
  · simp only [process, Filter.modify, alone, h]
    rfl
  · simp only [process, Filter.modify, alone, h]
    rfl

theorem feed_speedMod (evs : List InputEvent) (data : Relspeed) (line : Line n) :
    Proc.feed (process (n + 1)) evs (.speedMod data, line) = (.speedMod ((alone Relspeed.modify).state data evs),
      Proc.feed (process n) ((alone Relspeed.modify).outputs data evs) line) := by
  induction evs generalizing data line with
  | nil => rfl
  | cons ev evs ih =>
      change Proc.feed (process (n + 1)) evs (process (n + 1) ev (.speedMod data, line)).2 = _
      rw [process_speedMod, ih, Transducer.outputs, Proc.feed_append]
      rfl

theorem feed_commit (evs : List InputEvent) : Proc.feed (process 0) evs (allocLine []) = evs := by
  have happend (out : List InputEvent) : Proc.feed (process 0) evs out = out ++ evs := by
    induction evs generalizing out with
    | nil => exact (List.append_nil out).symm
    | cons ev evs ih => exact (ih _).trans (List.append_cons ..).symm
  exact happend []

/-- Two SpeedMods in a row do what one with the products of their divisors does, to everything but the EV_SYNs, while no
movement is too large for an `int` with these products. What they have kept makes up what the one has kept. -/
theorem speedMods_multiply (hab : Divisors a b) (hcd : Divisors c d) (evs : List InputEvent)
    (hevs : ∀ ev ∈ evs, Relspeed.Moderate a b c d ev) :
    ∃ first second one : Relspeed, ∃ out out' : List InputEvent,
      Proc.feed (process 2) evs (allocLine [.speedMod a c, .speedMod b d]) = (.speedMod first, .speedMod second, out) ∧
      Proc.feed (process 1) evs (allocLine [.speedMod (a * b) (c * d)]) = (.speedMod one, out') ∧
      out.filter notSyn = out'.filter notSyn ∧ Together a b c d (first, second) one := by
  obtain ⟨hout, hend⟩ := Transducer.filter_outputs_related (Together a b c d)
    (fun _ _ _ hev h => Relspeed.twice_step hab hcd hev h) (Relspeed.together_alloc hab hcd) hevs
  rw [Transducer.outputs_inSeries] at hout
  rw [Transducer.state_inSeries] at hend
  refine ⟨_, _, _, _, _, ?_, ?_, hout, hend⟩
  · refine (feed_speedMod evs (evfSpeedModRelAlloc a c) (allocLine [.speedMod b d])).trans (congrArg (Prod.mk _) ?_)
    exact (feed_speedMod _ (evfSpeedModRelAlloc b d) (allocLine [])).trans (congrArg (Prod.mk _) (feed_commit _))
  · exact (feed_speedMod evs (evfSpeedModRelAlloc (a * b) (c * d)) (allocLine [])).trans
      (congrArg (Prod.mk _) (feed_commit _))

/-- The movement `toAndFro`, divided by 2 and then by 3, and by 6. -/
theorem toAndFro_multiply : ∃ first second one : Relspeed, ∃ out out' : List InputEvent,
    Proc.feed (process 2) toAndFro (allocLine [.speedMod 2 1, .speedMod 3 2]) =
      (.speedMod first, .speedMod second, out) ∧
    Proc.feed (process 1) toAndFro (allocLine [.speedMod (2 * 3) (1 * 2)]) = (.speedMod one, out') ∧
    out.filter notSyn = out'.filter notSyn ∧ Together 2 3 1 2 (first, second) one := by
  have hx : Divisors 2 3 := ⟨by decide, by decide, by decide⟩
  have hy : Divisors 1 2 := ⟨by decide, by decide, by decide⟩
  refine speedMods_multiply hx hy toAndFro fun ev hev => ?_
  have hroom : ∀ ev ∈ toAndFro, (∀ v ∈ moved relX ev, HasRoom 2 3 v) ∧ ∀ v ∈ moved relY ev, HasRoom 1 2 v := by
    unfold HasRoom
    decide
  exact ⟨(hroom ev hev).1, (hroom ev hev).2⟩

end Evfilter.Filters
