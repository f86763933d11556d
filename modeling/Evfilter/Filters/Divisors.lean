import Evfilter.Filters.Create
import Evfilter.Filters.Traps
import Evfilter.Filters.Window

/-!
# Division by zero

What the calls of `modify` divide by, along any stream of events and whatever the next filter does to them.
-/

namespace Evfilter.Filters
open Lib Param

/-- A filter with data `F`, the events for which a call of its `modify` comes to an end, and the divisors of the
divisions and remainders that the call evaluates. -/
structure Divider (F : Type) where
  modify : F → InputEvent → Modify (F × InputEvent)
  returns : F → InputEvent → Prop
  divides : F → InputEvent → Int → Prop

variable {F β : Type}

/-- No call divides by zero. -/
def Divider.Safe (D : Divider F) (next : InputEvent → β → InputEvent × β) : F → β → List InputEvent → Prop
  | _, _, [] => True
  | f, b, ev :: evs =>
    (∀ d, D.divides f ev d → d ≠ 0) ∧
      (D.returns f ev →
        D.Safe next ((D.modify f ev).drive next b).1.1 ((D.modify f ev).drive next b).2 evs)

def Divider.NeverByZero (D : Divider F) (f : F) : Prop :=
  ∀ (β : Type) (next : InputEvent → β → InputEvent × β) (b : β) (evs : List InputEvent), D.Safe next f b evs

theorem Divider.neverByZero_of_invariant {D : Divider F} {f : F} (J : F → Prop) (start : J f)
    (keep : ∀ (f : F) (ev : InputEvent) (β : Type) (next : InputEvent → β → InputEvent × β) (b : β), J f →
      J ((D.modify f ev).drive next b).1.1)
    (nonzero : ∀ f ev d, J f → D.divides f ev d → d ≠ 0) : D.NeverByZero f := by
  intro β next b evs
  induction evs generalizing f b with
  | nil => trivial
  | cons ev evs ih =>
      exact ⟨fun d hd => nonzero f ev d start hd, fun _ => ih (keep f ev β next b start) _⟩

/-! ## SpeedMod -/

/-- The divisor of `/` and of `%` on an axis. -/
def slowDownDivides (sum mod : Int32) (d : Int) : Prop := mod ≤ sum.abs ∧ d = mod.toInt

theorem slowDownDivides_zero : slowDownDivides (0 + 1) 0 0 := ⟨by decide, rfl⟩

def Relspeed.divides (relspeed : Relspeed) (ev : InputEvent) (d : Int) : Prop :=
  ¬ (ev.type = evSyn ∧ relspeed.eatNextSyn) ∧ ev.type = evRel ∧
    (ev.code = relX ∧ slowDownDivides (relspeed.x + ev.value) relspeed.xmod d ∨
      ev.code = relY ∧ slowDownDivides (relspeed.y + ev.value) relspeed.ymod d)

def speedMod : Divider Relspeed :=
  { modify := Relspeed.modify, returns := fun _ _ => True, divides := Relspeed.divides }

theorem speedMod_neverByZero_iff (xmod ymod : Int32) :
    speedMod.NeverByZero (evfSpeedModRelAlloc xmod ymod) ↔ xmod ≠ 0 ∧ ymod ≠ 0 := by
  constructor
  · intro h
    have hmove (code : UInt16) := (h Unit (fun ev b => (ev, b)) () [⟨(0, 0), evRel, code, 1⟩]).1 0
    refine ⟨?_, ?_⟩
    · rintro rfl
      exact hmove relX ⟨fun hsyn => Bool.false_ne_true hsyn.2, rfl, .inl ⟨rfl, slowDownDivides_zero⟩⟩ rfl
    · rintro rfl
      exact hmove relY ⟨fun hsyn => Bool.false_ne_true hsyn.2, rfl, .inr ⟨rfl, slowDownDivides_zero⟩⟩ rfl
  · rintro ⟨hx, hy⟩
    refine Divider.neverByZero_of_invariant (fun f => f.xmod = xmod ∧ f.ymod = ymod) ⟨rfl, rfl⟩ ?_ ?_
    · rintro f ev β next b ⟨rfl, rfl⟩
      exact (f.modify_mods ev).drive next b
    · rintro f ev d ⟨rfl, rfl⟩ ⟨-, -, ⟨-, -, rfl⟩ | ⟨-, -, rfl⟩⟩
      · exact toInt_ne_zero hx
      · exact toInt_ne_zero hy

/-! ## Rel2Scroll -/

def Rel2scroll.divides (data : Rel2scroll) (ev : InputEvent) (d : Int) : Prop :=
  ¬ (ev.type = evSyn ∧ data.eatNextSync) ∧ ¬ (ev.type = evKey ∧ ev.key = data.triggerBtn) ∧
    data.triggerOn ∧ ev.type = evRel ∧
      (ev.code = relX ∧ d = data.xmod.toInt ∨ ev.code = relY ∧ d = data.ymod.toInt)

def rel2scroll : Divider Rel2scroll :=
  { modify := Rel2scroll.modify, returns := fun _ _ => True, divides := Rel2scroll.divides }

theorem Rel2scroll.modify_press {data : Rel2scroll} {ev : InputEvent} (htype : ev.type = evKey)
    (hkey : ev.key = data.triggerBtn) (hvalue : ev.value ≠ 0) :
    data.modify ev = pure ({ data with triggerOn := true, eatNextSync := true }, ev) := by
  simp [Rel2scroll.modify, show evKey ≠ evSyn by decide, htype, hkey, hvalue]

theorem rel2scroll_neverByZero_iff (triggerBtn xmod ymod : Int32)
    (hbtn : ∃ code : UInt16, code.toUInt32.toInt32 = triggerBtn) :
    rel2scroll.NeverByZero (evfRel2scrollAlloc triggerBtn xmod ymod) ↔ xmod ≠ 0 ∧ ymod ≠ 0 := by
  constructor
  · intro h
    obtain ⟨key, hkey⟩ := hbtn
    let next (ev : InputEvent) (b : Unit) := (ev, b)
    let data := evfRel2scrollAlloc triggerBtn xmod ymod
    let press : InputEvent := ⟨(0, 0), evKey, key, 1⟩
    -- The trigger is pressed, and then the mouse is moved.
    have hmove (code : UInt16) :
        rel2scroll.Safe next { data with triggerOn := true, eatNextSync := true } () [⟨(0, 0), evRel, code, 1⟩] := by
      have hsafe := (h Unit next () [press, ⟨(0, 0), evRel, code, 1⟩]).2 trivial
      have hpress : data.modify press = _ := Rel2scroll.modify_press rfl hkey (by decide : (1 : Int32) ≠ 0)
      rw [show rel2scroll.modify data press = _ from hpress] at hsafe
      exact hsafe
    have hsyn (code : UInt16) :
        ¬ (evRel = evSyn ∧ true = true) ∧ ¬ (evRel = evKey ∧ code.toUInt32.toInt32 = triggerBtn) :=
      ⟨fun heq => absurd heq.1 (by decide), fun heq => absurd heq.1 (by decide)⟩
    refine ⟨?_, ?_⟩
    · rintro rfl
      exact (hmove relX).1 0 ⟨(hsyn relX).1, (hsyn relX).2, rfl, rfl, .inl ⟨rfl, rfl⟩⟩ rfl
    · rintro rfl
      exact (hmove relY).1 0 ⟨(hsyn relY).1, (hsyn relY).2, rfl, rfl, .inr ⟨rfl, rfl⟩⟩ rfl
  · rintro ⟨hx, hy⟩
    refine Divider.neverByZero_of_invariant (fun f => f.xmod = xmod ∧ f.ymod = ymod) ⟨rfl, rfl⟩ ?_ ?_
    · rintro f ev β next b ⟨rfl, rfl⟩
      exact (f.modify_mods ev).drive next b
    · rintro f ev d ⟨rfl, rfl⟩ ⟨-, -, -, -, ⟨-, rfl⟩ | ⟨-, rfl⟩⟩
      · exact toInt_ne_zero hx
      · exact toInt_ne_zero hy

/-! ## WeightedAverageAbs -/

/-- `add` divides by `n`. `calculate` divides by its counter, which is `k + 1` at the time `k`, and by `n`. A sample that
is written below the slots may be written to `n` itself, so that after it any number may be the divisor. -/
def Average.divides (average : Average) (ev : InputEvent) (d : Int) : Prop :=
  match averaged ev with
  | some c =>
    d = average.n.toInt ∨
      (∃ k : Nat, (average.add c ev.value).Runs c k ∧ (d = (Int32.ofNat (k + 1)).toInt ∨ d = average.n.toInt)) ∨
      ¬ 0 ≤ (average.add c ev.value).head c
  | none => False

/-- The loop of `calculate` comes to its end. -/
def Average.returns (average : Average) (ev : InputEvent) : Prop :=
  match averaged ev with
  | some c => ∃ k, (average.add c ev.value).index c k = (average.add c ev.value).tail c
  | none => True

def weightedAverageAbs (calculated : Average → Axis → Int32) : Divider Average :=
  { modify := fun average => average.modify calculated, returns := Average.returns, divides := Average.divides }

/-- The first `add` moves the second tail and the third head to slots, from what `malloc` left in them. -/
def Lands (n tail1 head2 : Int32) : Prop :=
  0 ≤ (if n - 1 ≤ (0 - tail1).abs then (tail1 + 1) % n else tail1) ∧ 0 ≤ (head2 + 1) % n

instance (n tail1 head2 : Int32) : Decidable (Lands n tail1 head2) := inferInstanceAs (Decidable (_ ∧ _))

variable {average : Average} {c : Axis} {n : Int32}

theorem toInt_index (h : 0 ≤ average.head c ∧ average.head c < average.n) (k : Nat) :
    (average.index c k).toInt = ((average.head c).toInt + k) % average.n.toInt := by
  have hlow := toInt_nonneg_iff.mp h.1
  have hhigh := Int32.lt_iff_toInt_lt.mp h.2
  induction k with
  | zero =>
      rw [Int.natCast_zero, add_zero]
      exact (Int.emod_eq_of_lt hlow hhigh).symm
  | succ k ih =>
      have hpos := Int.emod_nonneg ((average.head c).toInt + k) (show average.n.toInt ≠ 0 by omega)
      have hlt := Int.emod_lt_of_pos ((average.head c).toInt + k) (show 0 < average.n.toInt by omega)
      rw [Average.index, toInt_up (toInt_nonneg_iff.mpr (ih ▸ hpos)) (Int32.lt_iff_toInt_lt.mpr (ih ▸ hlt)), ih,
        Int.natCast_succ, ← add_assoc, ← Int.emod_add_emod ((average.head c).toInt + k)]
      split
      · rename_i hend
        rw [hend, Int.emod_self]
      · exact (Int.emod_eq_of_lt (by omega) (by omega)).symm

/-- The loop meets the tail before it has come to all slots. -/
theorem Average.Within.runs_lt (h : average.Within c) {k : Nat} (hruns : average.Runs c k) : k < average.n.toInt := by
  obtain ⟨hhead, tlow, thigh⟩ := h
  have htail := toInt_nonneg_iff.mp tlow
  have hlt := Int32.lt_iff_toInt_lt.mp thigh
  -- The way from the head up to the tail.
  obtain ⟨d, hd⟩ := Int.eq_ofNat_of_zero_le
    (Int.emod_nonneg ((average.tail c).toInt - (average.head c).toInt) (show average.n.toInt ≠ 0 by omega))
  have hmeets : average.index c d = average.tail c := by
    refine Int32.toInt.inj ?_
    rw [toInt_index hhead, ← hd, Int.add_emod_emod, add_sub_cancel]
    exact Int.emod_eq_of_lt htail hlt
  have hfew := Int.emod_lt_of_pos ((average.tail c).toInt - (average.head c).toInt) (show 0 < average.n.toInt by omega)
  have hbefore : k < d := not_le.mp fun hle => hruns d hle hmeets
  omega

/-- No slot is below the array. -/
theorem runs_forever (h : 0 ≤ average.head c ∧ average.head c < average.n) (htail : ¬ 0 ≤ average.tail c) (k : Nat) :
    average.Runs c k := by
  intro j _ hmeets
  have hlow := toInt_nonneg_iff.mp h.1
  have hhigh := Int32.lt_iff_toInt_lt.mp h.2
  refine htail (hmeets ▸ toInt_nonneg_iff.mpr ?_)
  rw [toInt_index h]
  exact Int.emod_nonneg _ (by omega)

/-- The next sample finds its slot. -/
def Average.Ready (average : Average) (c : Axis) : Prop := (average.add c 0).Within c

theorem Average.ready_iff (average : Average) (c : Axis) : average.Ready c ↔
    (0 ≤ (average.head c + 1) % average.n ∧ (average.head c + 1) % average.n < average.n) ∧
      0 ≤ (if average.full c then (average.tail c + 1) % average.n else average.tail c) ∧
        (if average.full c then (average.tail c + 1) % average.n else average.tail c) < average.n := by
  simp only [Average.Ready, Average.Within, Average.add, if_true]

theorem Average.Ready.add (h : average.Ready c) (val : Int32) : (average.add c val).Within c := by
  rw [Average.ready_iff] at h
  simpa only [Average.Within, Average.add, if_true] using h

theorem Average.Within.ready (h : average.Within c) : average.Ready c := h.add 0

theorem Average.Ready.modify (h : ∀ c, average.Ready c) (hn : 0 < average.n) (calculated : Average → Axis → Int32)
    (ev : InputEvent) (next : InputEvent → β → InputEvent × β) (b : β) :
    ∀ c, ((average.modify calculated ev).drive next b).1.1.Ready c := by
  intro a
  rw [Average.modify_data]
  cases averaged ev with
  | some c =>
      by_cases ha : a = c
      · subst ha
        exact ((h a).add ev.value).ready
      · -- The other queues are left alone.
        have hother := (average.ready_iff a).mp (h a)
        rw [Average.ready_iff]
        simp only [Average.add, Average.full, if_neg ha]
        convert hother <;> exact Iff.rfl
  | none =>
      by_cases hev : ev.IsPressure
      · simp only [if_pos hev]
        exact Average.Within.ready ⟨⟨Int32.le_refl 0, hn⟩, Int32.le_refl 0, hn⟩
      · simp only [if_neg hev]
        exact h a

theorem toInt_counter {k : Nat} (hk : (k : Int) < n.toInt) : (Int32.ofNat (k + 1)).toInt = k + 1 := by
  have hmax := n.toInt_lt
  exact Int32.toInt_ofNat_of_lt (by omega)

theorem Average.Ready.nonzero (h : ∀ c, average.Ready c) (hn : 0 < average.n) {ev : InputEvent} {d : Int}
    (hd : average.divides ev d) : d ≠ 0 := by
  have hpos : average.n.toInt ≠ 0 := toInt_ne_zero fun hzero => Int32.lt_irrefl (hzero ▸ hn)
  unfold Average.divides at hd
  split at hd
  · rename_i c _
    have hwithin := (h c).add ev.value
    obtain rfl | ⟨k, hruns, rfl | rfl⟩ | hbelow := hd
    · exact hpos
    · rw [toInt_counter (hwithin.runs_lt hruns)]
      omega
    · exact hpos
    · exact absurd hwithin.1.1 hbelow
  · exact hd.elim

theorem mod_lt (hn : 0 < n) (i : Int32) : i % n < n := by
  rw [Int32.lt_iff_toInt_lt, Int32.toInt_zero] at hn
  rw [Int32.lt_iff_toInt_lt, Int32.toInt_mod]
  exact Int.tmod_lt_of_pos _ hn

/-- A tail that is no slot is taken for one of a full queue. -/
theorem lt_of_not_full {tail1 : Int32} (hlow : 0 ≤ tail1) (hfull : ¬ n - 1 ≤ (0 - tail1).abs) (hn : 0 < n) :
    tail1 < n := by
  rw [le_abs_sub_iff hn (Int32.le_refl 0) hlow, Int32.toInt_zero] at hfull
  rw [Int32.lt_iff_toInt_lt]
  omega

theorem lands_iff (hn : 0 < n) (tail1 head2 : Int32) (coord : Int32 → Axis → Int32) :
    Lands n tail1 head2 ↔ ∀ c, (evfWeightedAverageAbsAlloc n.toUInt32 tail1 head2 coord).Ready c := by
  have hslot : 0 ≤ (0 + 1) % n ∧ (0 + 1) % n < n := up_inBounds (Int32.le_refl 0) hn
  simp only [Average.ready_iff]
  constructor
  · rintro ⟨htail, hhead⟩ c
    rw [evfWeightedAverageAbsAlloc, Int32.toInt32_toUInt32]
    match c with
    | 0 =>
        refine ⟨hslot, ?_⟩
        split
        · exact hslot
        · exact ⟨Int32.le_refl 0, hn⟩
    | 1 =>
        refine ⟨hslot, htail, ?_⟩
        split
        · exact mod_lt hn _
        · rename_i hnot
          have hfull : ¬ n - 1 ≤ (0 - tail1).abs := hnot
          rw [if_neg hfull] at htail
          exact lt_of_not_full htail hfull hn
    | 2 =>
        refine ⟨⟨hhead, mod_lt hn _⟩, ?_⟩
        split
        · exact hslot
        · exact ⟨Int32.le_refl 0, hn⟩
  · intro h
    exact ⟨(h 1).2.1, (h 2).1.1⟩

theorem Average.modify_n (average : Average) (calculated : Average → Axis → Int32) (ev : InputEvent)
    (next : InputEvent → β → InputEvent × β) (b : β) :
    ((average.modify calculated ev).drive next b).1.1.n = average.n := by
  unfold Average.modify
  split
  · rfl
  · split <;> rfl

theorem weightedAverageAbs_neverByZero_iff (calculated : Average → Axis → Int32) (hn : 0 ≤ n) (tail1 head2 : Int32)
    (coord : Int32 → Axis → Int32) :
    (weightedAverageAbs calculated).NeverByZero (evfWeightedAverageAbsAlloc n.toUInt32 tail1 head2 coord) ↔
      n ≠ 0 ∧ Lands n tail1 head2 := by
  rw [evfWeightedAverageAbsAlloc, Int32.toInt32_toUInt32]
  constructor
  · intro h
    have hfirst (ev : InputEvent) := (h Unit (fun ev b => (ev, b)) () [ev]).1 0
    have hne : n ≠ 0 := by
      rintro rfl
      exact hfirst ⟨(0, 0), evAbs, absX, 1⟩ (.inl rfl) rfl
    have hpos : 0 < n := Int32.lt_of_le_of_ne hn hne.symm
    have hslot : 0 ≤ (0 + 1) % n ∧ (0 + 1) % n < n := up_inBounds (Int32.le_refl 0) hpos
    refine ⟨hne, ?_, ?_⟩
    · by_contra htail
      -- The counter is 0 when it has been counted up as often as there are numbers.
      obtain ⟨k, hcounter⟩ : ∃ k : Nat, (Int32.ofNat (k + 1)).toInt = 0 := ⟨4294967295, by decide⟩
      refine hfirst ⟨(0, 0), evAbs, absY, 1⟩ (.inr (.inl ⟨k, runs_forever ?_ ?_ k, .inl hcounter.symm⟩)) rfl
      · exact hslot
      · exact htail
    · by_contra hhead
      exact hfirst ⟨(0, 0), evAbs, absPressure, 5⟩ (.inr (.inr hhead)) rfl
  · rintro ⟨hne, hlands⟩
    have hpos : 0 < n := Int32.lt_of_le_of_ne hn hne.symm
    refine Divider.neverByZero_of_invariant (fun f => f.n = n ∧ ∀ c, f.Ready c)
      ⟨rfl, (lands_iff hpos tail1 head2 coord).mp hlands⟩ ?_ ?_
    · rintro f ev β next b ⟨hf, hready⟩
      exact ⟨(f.modify_n calculated ev next b).trans hf, Average.Ready.modify hready (hf ▸ hpos) calculated ev next b⟩
    · rintro f ev d ⟨hf, hready⟩ hd
      exact Average.Ready.nonzero hready (hf ▸ hpos) hd

/-! ## Filters created from parameters -/

theorem toInt_ne_zero_iff {n : Int32} : n ≠ 0 ↔ n.toInt ≠ 0 :=
  ⟨toInt_ne_zero, fun h hzero => h (hzero ▸ rfl)⟩

/-- The codes of `linux/input.h` are numbers of 16 bits. A filter that was created divides by zero on some stream
just if one of the numbers given for its divisors is zero. -/
theorem neverByZero_iff (P : Platform)
    (hkeys : ∀ j < KeyParser.keyCount, ∃ code : UInt16, code.toUInt32.toInt32 = P.keyValues j) (params : CString) :
    (∀ relspeed, evfSpeedModRelCreat P params = .ok relspeed →
      (speedMod.NeverByZero relspeed ↔
        givenInt relspeedParams params 0 ≠ 0 ∧ givenInt relspeedParams params 1 ≠ 0)) ∧
    (∀ data, evfRel2scrollCreat P params = .ok data →
      (rel2scroll.NeverByZero data ↔
        givenInt rel2scrollParams params 1 ≠ 0 ∧ givenInt rel2scrollParams params 2 ≠ 0)) ∧
    ∀ tail1 head2 coord calculated average, evfWeightedAverageAbsCreat P params tail1 head2 coord = .ok average →
      ((weightedAverageAbs calculated).NeverByZero average ↔
        givenInt averageParams params 0 ≠ 0 ∧ Lands (Int32.ofInt (givenInt averageParams params 0)) tail1 head2) := by
  refine ⟨fun relspeed h => ?_, fun data h => ?_, fun tail1 head2 coord calculated average h => ?_⟩
  · obtain ⟨args, hload, hf⟩ := bind_eq_ok.mp h
    obtain rfl := Except.ok.inj hf
    rw [speedMod_neverByZero_iff, toInt_ne_zero_iff, toInt_ne_zero_iff, intArg_given hload rfl rfl,
      intArg_given hload rfl rfl]
  · obtain ⟨args, hload, hf⟩ := bind_eq_ok.mp h
    obtain rfl := Except.ok.inj hf
    obtain ⟨j, hj, hkey⟩ := intArg_key (i := 0) hload rfl rfl
    obtain ⟨code, hcode⟩ := hkeys j hj
    rw [rel2scroll_neverByZero_iff _ _ _ ⟨code, hcode.trans hkey.symm⟩, toInt_ne_zero_iff, toInt_ne_zero_iff,
      intArg_given hload rfl rfl, intArg_given hload rfl rfl]
  · obtain ⟨args, hload, hf⟩ := bind_eq_ok.mp h
    obtain rfl := Except.ok.inj hf
    have hlim : averageParams[0]? = some (intParam "samples" (some samplesLim) none) := rfl
    have hmin : (0 : Int32) ≤ intArg args 0 := (intArg_lim hload hlim rfl rfl).1
    rw [weightedAverageAbs_neverByZero_iff _ hmin, ← intArg_given hload rfl rfl, ← toInt_ne_zero_iff, Int32.ofInt_toInt]

theorem neverByZero_halves :
    speedMod.NeverByZero (evfSpeedModRelAlloc 2 1) ∧ rel2scroll.NeverByZero (evfRel2scrollAlloc 274 (-3) 2) ∧
      ∀ coord calculated, (weightedAverageAbs calculated).NeverByZero (evfWeightedAverageAbsAlloc 5 4 2 coord) := by
  have hkeys : ∀ j < KeyParser.keyCount, ∃ code : UInt16, code.toUInt32.toInt32 = middlePlatform.keyValues j := by
    intro j _
    simp only [middlePlatform]
    split
    · exact ⟨274, by decide⟩
    · exact ⟨0, by decide⟩
  refine ⟨?_, ?_, ?_⟩
  · exact ((neverByZero_iff middlePlatform hkeys (CString.literal "xmod = 2")).1 _ (by decide +kernel)).mpr
      (by decide +kernel)
  · exact ((neverByZero_iff middlePlatform hkeys
      (CString.literal "TriggerButton = Btn_Middle Xmod=-3 Ymod = 0x2")).2.1 _ (by decide +kernel)).mpr
      (by decide +kernel)
  · intro coord calculated
    exact ((neverByZero_iff middlePlatform hkeys (CString.literal "samples = 5")).2.2 4 2 coord calculated _
      (evfWeightedAverageAbsCreat_ok (by decide +kernel))).mpr (by decide +kernel)

/-- The limits of the parameters let zeros through. -/
theorem zeros_accepted :
    (∃ relspeed, evfSpeedModRelCreat middlePlatform (CString.literal "xmod = 0") = .ok relspeed ∧
      ¬ speedMod.NeverByZero relspeed) ∧
    (∃ data, evfRel2scrollCreat middlePlatform (CString.literal "TriggerButton=Btn_Middle Ymod=0") = .ok data ∧
      ¬ rel2scroll.NeverByZero data) ∧
    ∀ tail1 head2 coord calculated, ∃ average,
      evfWeightedAverageAbsCreat middlePlatform (CString.literal "samples = 0") tail1 head2 coord = .ok average ∧
        ¬ (weightedAverageAbs calculated).NeverByZero average := by
  refine ⟨⟨evfSpeedModRelAlloc 0 1, by decide +kernel, fun h => ?_⟩,
    ⟨evfRel2scrollAlloc 274 1 0, by decide +kernel, fun h => ?_⟩, fun tail1 head2 coord calculated =>
    ⟨evfWeightedAverageAbsAlloc 0 tail1 head2 coord, evfWeightedAverageAbsCreat_ok (by decide +kernel), fun h => ?_⟩⟩
  · exact ((speedMod_neverByZero_iff 0 1).mp h).1 rfl
  · exact ((rel2scroll_neverByZero_iff 274 1 0 ⟨274, by decide⟩).mp h).2 rfl
  · exact ((weightedAverageAbs_neverByZero_iff calculated (Int32.le_refl 0) tail1 head2 coord).mp h).1 rfl

end Evfilter.Filters
