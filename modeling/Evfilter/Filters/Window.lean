import Evfilter.Filters.Average
import Evfilter.Filters.Remainders

/-!
# The samples of WeightedAverageAbs

`add` moves the head of a queue up and writes the slot there. `calculate` starts at the head and also goes up, so it
reads the slots above the newest sample, not those below it.
-/

namespace Evfilter.Filters
open Lib

/-- The body of the loop of `calculate` is run for this slot. -/
def Average.Visits (av : Average) (c : Axis) (i : Int32) : Prop := ∃ k, av.Runs c k ∧ av.index c k = i

def Average.Within (av : Average) (c : Axis) : Prop :=
  (0 ≤ av.head c ∧ av.head c < av.n) ∧ 0 ≤ av.tail c ∧ av.tail c < av.n

def Average.InBounds (av : Average) : Prop := ∀ c, av.Within c

/-- The filter, and the slots of each axis that `add` has written since the pen was lifted. -/
structure Window where
  average : Average
  written : Axis → List Int32

/-- What is written after an event that has left the filter like this. -/
def Average.slots (average : Average) (written : Axis → List Int32) (ev : InputEvent) : Axis → List Int32 :=
  match averaged ev with
  | some c => fun a => if a = c then average.head c :: written a else written a
  | none => if ev.IsPressure then fun _ => [] else written

/-- What the loop of `calculate` should do after `add`. -/
structure Window.Averages (w : Window) (c : Axis) : Prop where
  someSlot : ∃ i, w.average.Visits c i
  newest : w.average.Visits c (w.average.head c)
  written : ∀ i, w.average.Visits c i → i ∈ w.written c

variable {β : Type}

/-- The filter with what is behind it. -/
def sampling (calculated : Average → Axis → Int32) (next : InputEvent → β → InputEvent × β) :
    Transducer (Window × β) InputEvent InputEvent where
  step := fun s ev =>
    let after := (s.1.average.modify calculated ev).drive next s.2
    ((⟨after.1.1, after.1.1.slots s.1.written ev⟩, after.2), (s.1.average.modify calculated ev).calls next s.2)

/-- The queues stay in their bounds, and after every `add` the loop does what it should. -/
def Sampled (T : Transducer (Window × β) InputEvent InputEvent) (s : Window × β) (evs : List InputEvent) : Prop :=
  s.1.average.InBounds ∧
    T.Along (fun s ev => (T.step s ev).1.1.average.InBounds ∧ ∀ c ∈ averaged ev, (T.step s ev).1.1.Averages c) s evs

def evfWeightedAverageAbsAlloc.window (n : UInt32) (tail1 head2 : Int32) (coord : Int32 → Axis → Int32) : Window :=
  ⟨evfWeightedAverageAbsAlloc n tail1 head2 coord, fun _ => []⟩

/-- The samples that a queue has got. -/
def asked (c : Axis) (evs : List InputEvent) : Nat := evs.countP fun ev => averaged ev = some c

/-- The first samples of a queue go well if its tail or head happens to be at one of these slots. -/
def luckySamples (n tail1 head2 : Int) (c : Axis) : Nat :=
  if c.val = 1 then (if 4 ≤ n ∧ tail1 = 2 then 1 else 0)
  else if c.val = 2 then (if 3 ≤ n ∧ head2 = n - 1 then 1 else if 3 ≤ n ∧ head2 = n - 2 then 2 else 0)
  else 0

/-- Before the pen has been lifted, the first samples of a queue. -/
def Lucky (n tail1 head2 : Int) (before : List InputEvent) (ev : InputEvent) : Prop :=
  ∀ c ∈ averaged ev, (∀ e ∈ before, ¬ e.IsPenUp) ∧ asked c before < luckySamples n tail1 head2 c

/-! ## One event -/

def Window.add (w : Window) (c : Axis) (val : Int32) : Window :=
  ⟨w.average.add c val, fun a => if a = c then (w.average.add c val).head c :: w.written a else w.written a⟩

def Window.penUp (w : Window) : Window := ⟨w.average.penUp, fun _ => []⟩

def Window.step (w : Window) (ev : InputEvent) : Window :=
  match averaged ev with
  | some c => w.add c ev.value
  | none => if ev.IsPressure then w.penUp else w

variable {calculated : Average → Axis → Int32} {next : InputEvent → β → InputEvent × β} {s : Window × β}
  {w : Window} {av : Average} {ev : InputEvent} {evs : List InputEvent} {c : Axis} {val i n : Int32}

theorem Average.modify_data {b : β} : ((av.modify calculated ev).drive next b).1.1 =
    match averaged ev with
    | some c => av.add c ev.value
    | none => if ev.IsPressure then av.penUp else av := by
  unfold Average.modify
  cases averaged ev with
  | some c => rfl
  | none => rfl

theorem sampling_step : ((sampling calculated next).step s ev).1.1 = s.1.step ev := by
  simp only [sampling, Average.modify_data, Average.slots, Window.step]
  cases averaged ev with
  | some c => rfl
  | none =>
      by_cases h : ev.IsPressure
      · simp only [if_pos h]
        rfl
      · simp only [if_neg h]

/-! ## Slots -/

theorem toInt_nonneg_iff {x : Int32} : 0 ≤ x ↔ 0 ≤ x.toInt := by
  rw [Int32.le_iff_toInt_le, Int32.toInt_zero]

theorem toInt_up (hi : 0 ≤ i) (hn : i < n) :
    ((i + 1) % n).toInt = if i.toInt + 1 = n.toInt then 0 else i.toInt + 1 := by
  have hlow := toInt_nonneg_iff.mp hi
  have hlt := Int32.lt_iff_toInt_lt.mp hn
  have hmax := n.toInt_lt
  have hadd : (i + 1).toInt = i.toInt + 1 := toInt_add_of_range (by rw [Int32.toInt_one]; omega) (by
    rw [Int32.toInt_one]
    omega)
  rw [Int32.toInt_mod, hadd, Int.tmod_eq_emod_of_nonneg (by omega)]
  split
  · rename_i h
    rw [h, Int.emod_self]
  · exact Int.emod_eq_of_lt (by omega) (by omega)

theorem le_abs_sub_iff {head tail : Int32} (hn : 0 < n) (hhead : 0 ≤ head) (htail : 0 ≤ tail) :
    n - 1 ≤ (head - tail).abs ↔ n.toInt - 1 ≤ (head.toInt - tail.toInt).natAbs := by
  rw [toInt_nonneg_iff] at hhead htail
  rw [Int32.lt_iff_toInt_lt, Int32.toInt_zero] at hn
  have hmax := n.toInt_lt
  have hlt := head.toInt_lt
  have hlt' := tail.toInt_lt
  have hsub : (head - tail).toInt = head.toInt - tail.toInt := by
    rw [Int32.toInt_sub]
    exact Int.bmod_eq_of_le (by omega) (by omega)
  have hone : (n - 1).toInt = n.toInt - 1 := by
    rw [Int32.toInt_sub, Int32.toInt_one]
    exact Int.bmod_eq_of_le (by omega) (by omega)
  have hne : head - tail ≠ Int32.minValue := by
    intro h
    rw [h, show Int32.minValue.toInt = -2147483648 from rfl] at hsub
    omega
  rw [Int32.le_iff_toInt_le, hone, toInt_abs hne, hsub]

theorem up_inBounds (hi : 0 ≤ i) (hn : i < n) : 0 ≤ (i + 1) % n ∧ (i + 1) % n < n := by
  have hup := toInt_up hi hn
  have hlow := toInt_nonneg_iff.mp hi
  have hlt := Int32.lt_iff_toInt_lt.mp hn
  rw [toInt_nonneg_iff, Int32.lt_iff_toInt_lt, hup]
  split <;> omega

theorem Average.Within.add (h : av.Within c) (val : Int32) : (av.add c val).Within c := by
  obtain ⟨⟨hlow, hhigh⟩, tlow, thigh⟩ := h
  simp only [Within, Average.add, if_true]
  refine ⟨up_inBounds hlow hhigh, ?_⟩
  split
  · exact up_inBounds tlow thigh
  · exact ⟨tlow, thigh⟩

theorem Average.InBounds.add (h : av.InBounds) (c : Axis) (val : Int32) : (av.add c val).InBounds := by
  intro a
  by_cases ha : a = c
  · subst ha
    exact (h a).add val
  · simp only [Within, Average.add, if_neg ha]
    exact h a

theorem Average.InBounds.penUp (h : av.InBounds) : av.penUp.InBounds := by
  intro a
  obtain ⟨⟨hlow, hhigh⟩, -⟩ := h a
  exact ⟨⟨Int32.le_refl 0, Int32.lt_of_le_of_lt hlow hhigh⟩, Int32.le_refl 0, Int32.lt_of_le_of_lt hlow hhigh⟩

theorem Window.step_inBounds (h : w.average.InBounds) : (w.step ev).average.InBounds := by
  unfold Window.step
  split
  · exact h.add _ _
  · split
    · exact h.penUp
    · exact h

theorem index_one : w.average.index c 1 = (w.average.head c + 1) % w.average.n := rfl

theorem averages_of (hmem : w.average.head c ∈ w.written c) (hne : w.average.head c ≠ w.average.tail c)
    (hnext : w.average.index c 1 = w.average.tail c) : w.Averages c := by
  have hvisits : ∀ i, w.average.Visits c i ↔ i = w.average.head c := by
    intro i
    constructor
    · rintro ⟨k, hruns, hi⟩
      cases k with
      | zero => exact hi.symm
      | succ k => exact absurd hnext (hruns 1 (by omega))
    · rintro rfl
      refine ⟨0, fun j hj => ?_, rfl⟩
      rwa [Nat.le_zero.mp hj]
  refine ⟨⟨_, (hvisits _).mpr rfl⟩, (hvisits _).mpr rfl, fun i hi => ?_⟩
  rwa [(hvisits i).mp hi]

theorem Window.Averages.head_ne (h : w.Averages c) : w.average.head c ≠ w.average.tail c := by
  obtain ⟨k, hruns, -⟩ := h.newest
  exact hruns 0 (Nat.zero_le k)

theorem Window.step_n : (w.step ev).average.n = w.average.n := by
  unfold Window.step
  split
  · rfl
  · split <;> rfl

/-- If the head is the only slot written, the loop has to stop at the next one. -/
theorem Window.Averages.stops (h : w.Averages c) (hin : w.average.InBounds) (hw : w.written c = [w.average.head c]) :
    w.average.index c 1 = w.average.tail c := by
  by_contra hnext
  have hvisits : w.average.Visits c (w.average.index c 1) := by
    refine ⟨1, fun j hj => ?_, rfl⟩
    match j, hj with
    | 0, _ => exact h.head_ne
    | 1, _ => exact hnext
  have hmem := h.written _ hvisits
  rw [hw, List.mem_singleton, index_one] at hmem
  -- There is only one slot.
  obtain ⟨⟨hlow, hhigh⟩, tlow, thigh⟩ := hin c
  have hup := toInt_up hlow hhigh
  rw [hmem] at hup
  have hhead := toInt_nonneg_iff.mp hlow
  have htail := toInt_nonneg_iff.mp tlow
  have hsame := mt Int32.toInt.inj h.head_ne
  have hlt := Int32.lt_iff_toInt_lt.mp thigh
  split at hup <;> omega

/-! ## The first samples -/

theorem add_head : (w.add c val).average.head c = (w.average.head c + 1) % w.average.n := if_pos rfl

theorem add_tail : (w.add c val).average.tail c =
    if w.average.full c then (w.average.tail c + 1) % w.average.n else w.average.tail c := if_pos rfl

theorem add_written : (w.add c val).written c = (w.add c val).average.head c :: w.written c := if_pos rfl

theorem full_iff (hin : w.average.InBounds) : w.average.full c ↔
    w.average.n.toInt - 1 ≤ ((w.average.head c).toInt - (w.average.tail c).toInt).natAbs := by
  obtain ⟨⟨hlow, hhigh⟩, tlow, -⟩ := hin c
  exact le_abs_sub_iff (Int32.lt_of_le_of_lt hlow hhigh) hlow tlow

theorem toInt_add_head (val : Int32) (c : Axis) (hin : w.average.InBounds) : ((w.add c val).average.head c).toInt =
    if (w.average.head c).toInt + 1 = w.average.n.toInt then 0 else (w.average.head c).toInt + 1 := by
  rw [add_head]
  exact toInt_up (hin c).1.1 (hin c).1.2

theorem toInt_add_tail (val : Int32) (c : Axis) (hin : w.average.InBounds) : ((w.add c val).average.tail c).toInt =
    if w.average.n.toInt - 1 ≤ ((w.average.head c).toInt - (w.average.tail c).toInt).natAbs then
      if (w.average.tail c).toInt + 1 = w.average.n.toInt then 0 else (w.average.tail c).toInt + 1
    else (w.average.tail c).toInt := by
  rw [add_tail, ← toInt_up (hin c).2.1 (hin c).2.2]
  by_cases h : w.average.full c
  · rw [if_pos h, if_pos ((full_iff hin).mp h)]
  · rw [if_neg h, if_neg (mt (full_iff hin).mpr h)]

theorem toInt_add_next (val : Int32) (c : Axis) (hin : w.average.InBounds) : ((w.add c val).average.index c 1).toInt =
    if ((w.add c val).average.head c).toInt + 1 = w.average.n.toInt then 0
    else ((w.add c val).average.head c).toInt + 1 :=
  toInt_up (hin.add c val c).1.1 (hin.add c val c).1.2

theorem toInt_bounds (hin : w.average.InBounds) (c : Axis) :
    (0 ≤ (w.average.head c).toInt ∧ (w.average.head c).toInt < w.average.n.toInt) ∧
      0 ≤ (w.average.tail c).toInt ∧ (w.average.tail c).toInt < w.average.n.toInt := by
  obtain ⟨⟨hlow, hhigh⟩, tlow, thigh⟩ := hin c
  exact ⟨⟨toInt_nonneg_iff.mp hlow, Int32.lt_iff_toInt_lt.mp hhigh⟩, toInt_nonneg_iff.mp tlow,
    Int32.lt_iff_toInt_lt.mp thigh⟩

/-- With two slots the tail is always at the other one. -/
theorem averages_two (hin : w.average.InBounds) (hn : w.average.n = 2) : (w.add c val).Averages c := by
  have hbounds := toInt_bounds hin c
  have hhead := toInt_add_head val c hin
  have htail := toInt_add_tail val c hin
  have hnext := toInt_add_next val c hin
  rw [hn, show (2 : Int32).toInt = 2 from rfl] at hbounds hhead htail hnext
  refine averages_of (by simp [add_written]) (fun h => ?_) (Int32.toInt.inj ?_)
  · rw [h] at hhead
    split at hhead <;> split at htail <;> omega
  · rw [hnext, htail]
    split at hhead <;> split <;> omega

theorem not_averages_met (h : ((w.add c val).average.head c).toInt = ((w.add c val).average.tail c).toInt) :
    ¬ (w.add c val).Averages c := fun hgood => hgood.head_ne (Int32.toInt.inj h)

theorem averages_stops (hne : ((w.add c val).average.head c).toInt ≠ ((w.add c val).average.tail c).toInt)
    (hstop : ((w.add c val).average.index c 1).toInt = ((w.add c val).average.tail c).toInt) :
    (w.add c val).Averages c :=
  averages_of (add_written ▸ List.mem_cons_self) (fun h => hne (congrArg Int32.toInt h)) (Int32.toInt.inj hstop)

/-- The first sample of an axis has to be the only one in the queue. -/
theorem averages_once (hin : w.average.InBounds) (hw : w.written c = []) : (w.add c val).Averages c ↔
    ((w.add c val).average.head c).toInt ≠ ((w.add c val).average.tail c).toInt ∧
      ((w.add c val).average.index c 1).toInt = ((w.add c val).average.tail c).toInt := by
  have hone : (w.add c val).written c = [(w.add c val).average.head c] := by rw [add_written, hw]
  constructor
  · exact fun h => ⟨mt Int32.toInt.inj h.head_ne, congrArg Int32.toInt (h.stops (hin.add c val) hone)⟩
  · exact fun h => averages_stops h.1 h.2

/-- No sample has been added since head and tail were set to 0. -/
theorem not_averages_zero (hin : w.average.InBounds) (hn : w.average.n.toInt ≠ 2) (hhead : w.average.head c = 0)
    (htail : w.average.tail c = 0) (hw : w.written c = []) : ¬ (w.add c val).Averages c := by
  have hbounds := toInt_bounds hin c
  have hup := toInt_add_head val c hin
  have hkept := toInt_add_tail val c hin
  have hnext := toInt_add_next val c hin
  rw [hhead, Int32.toInt_zero] at hbounds hup hkept
  rw [htail, Int32.toInt_zero] at hkept
  rw [averages_once hin hw]
  rintro ⟨hne, hstop⟩
  split at hup <;> split at hkept <;> split at hnext <;> omega

/-! ## Samples that go well by luck -/

/-- Head and tail of a queue after its first samples. -/
inductive Reaches (n tail1 head2 : Int) : Axis → Nat → Int → Int → Prop
  | x : Reaches n tail1 head2 0 0 0 0
  | y : Reaches n tail1 head2 1 0 0 tail1
  | yOne (hn : 4 ≤ n) (htail : tail1 = 2) : Reaches n tail1 head2 1 1 1 2
  | pressure : Reaches n tail1 head2 2 0 head2 0
  | pressureOne (hn : 3 ≤ n) (hhead : head2 = n - 2) : Reaches n tail1 head2 2 1 (n - 1) 0
  | pressureLast {k : Nat} (hn : 3 ≤ n) (hhead : head2 = n - 1 ∧ k = 1 ∨ head2 = n - 2 ∧ k = 2) :
      Reaches n tail1 head2 2 k 0 1

theorem luckySamples_y {m tail1 head2 : Int} :
    luckySamples m tail1 head2 1 = if 4 ≤ m ∧ tail1 = 2 then 1 else 0 := rfl

theorem luckySamples_pressure {m tail1 head2 : Int} : luckySamples m tail1 head2 2 =
    if 3 ≤ m ∧ head2 = m - 1 then 1 else if 3 ≤ m ∧ head2 = m - 2 then 2 else 0 := rfl

/-- The next sample goes well if it is one of the lucky ones. -/
theorem Reaches.add {m tail1 head2 : Int} {k : Nat} (val : Int32) (hin : w.average.InBounds)
    (hm : w.average.n.toInt = m) (hn : m ≠ 2)
    (h : Reaches m tail1 head2 c k (w.average.head c).toInt (w.average.tail c).toInt) (hw : k = 0 → w.written c = []) :
    ((w.add c val).Averages c ↔ k < luckySamples m tail1 head2 c) ∧ (k < luckySamples m tail1 head2 c →
      Reaches m tail1 head2 c (k + 1) ((w.add c val).average.head c).toInt ((w.add c val).average.tail c).toInt) := by
  have hbounds := toInt_bounds hin c
  have hup := toInt_add_head val c hin
  have hkept := toInt_add_tail val c hin
  have hnext := toInt_add_next val c hin
  rw [hm] at hbounds hup hkept hnext
  generalize hH : (w.average.head c).toInt = head at h hbounds hup hkept
  generalize hT : (w.average.tail c).toInt = tail at h hbounds hup hkept
  cases h with
  | x =>
      refine ⟨iff_of_false ?_ (Nat.not_lt_zero 0), fun h => absurd h (Nat.not_lt_zero 0)⟩
      exact not_averages_zero hin (hm ▸ hn) (Int32.toInt.inj hH) (Int32.toInt.inj hT) (hw rfl)
  | y =>
      rw [luckySamples_y, averages_once hin (hw rfl)]
      split
      case isTrue h =>
        obtain ⟨hfour, rfl⟩ := h
        rw [if_neg (by omega)] at hup hkept
        rw [hup, hkept, hnext, hup, if_neg (by omega)]
        exact ⟨iff_of_true (by decide) (by decide), fun _ => .yOne hfour rfl⟩
      case isFalse h =>
        refine ⟨iff_of_false ?_ (Nat.not_lt_zero 0), fun h => absurd h (Nat.not_lt_zero 0)⟩
        rintro ⟨hne, hstop⟩
        split at hup <;> split at hkept <;> split at hnext <;> omega
  | yOne hfour htail =>
      rw [luckySamples_y, if_pos ⟨hfour, htail⟩]
      refine ⟨iff_of_false (not_averages_met ?_) (Nat.lt_irrefl 1), fun h => absurd h (Nat.lt_irrefl 1)⟩
      rw [hup, hkept, if_neg (by omega), if_neg (by omega)]
      rfl
  | pressure =>
      rw [luckySamples_pressure, averages_once hin (hw rfl)]
      split
      case isTrue h =>
        obtain ⟨hthree, rfl⟩ := h
        rw [if_pos (by omega)] at hup
        rw [if_pos (by omega), if_neg (by omega)] at hkept
        rw [hup, hkept, hnext, hup, if_neg (by omega)]
        exact ⟨iff_of_true (by decide) (by decide), fun _ => .pressureLast hthree (Or.inl ⟨rfl, rfl⟩)⟩
      case isFalse hlast =>
        split
        case isTrue h =>
          obtain ⟨hthree, rfl⟩ := h
          rw [if_neg (by omega)] at hup hkept
          rw [hup, hkept, hnext, hup, if_pos (by omega), show m - 2 + 1 = m - 1 by omega]
          exact ⟨iff_of_true ⟨by omega, rfl⟩ (by decide), fun _ => .pressureOne hthree rfl⟩
        case isFalse h =>
          refine ⟨iff_of_false ?_ (Nat.not_lt_zero 0), fun h => absurd h (Nat.not_lt_zero 0)⟩
          rintro ⟨hne, hstop⟩
          split at hup <;> split at hkept <;> split at hnext <;> omega
  | pressureOne hthree hhead =>
      rw [luckySamples_pressure, if_neg (by omega), if_pos ⟨hthree, hhead⟩]
      rw [if_pos (by omega)] at hup
      rw [if_pos (by omega), if_neg (by omega)] at hkept
      rw [hup, if_neg (by omega)] at hnext
      refine ⟨iff_of_true (averages_stops ?_ ?_) (by decide), fun _ => ?_⟩
      · rw [hup, hkept]
        decide
      · rw [hnext, hkept]
      · rw [hup, hkept]
        exact .pressureLast hthree (Or.inr ⟨hhead, rfl⟩)
  | pressureLast hthree hhead =>
      have hlucky : luckySamples m tail1 head2 2 = k := by
        rcases hhead with ⟨hhead, rfl⟩ | ⟨hhead, rfl⟩
        · rw [luckySamples_pressure, if_pos ⟨hthree, hhead⟩]
        · rw [luckySamples_pressure, if_neg (by omega), if_pos ⟨hthree, hhead⟩]
      rw [hlucky]
      refine ⟨iff_of_false (not_averages_met ?_) (Nat.lt_irrefl k), fun h => absurd h (Nat.lt_irrefl k)⟩
      rw [hup, hkept, if_neg (by omega), if_neg (by omega)]
      rfl

/-- What has come of the events so far. -/
structure Window.After (n tail1 head2 : Int) (before : List InputEvent) (w : Window) : Prop where
  inBounds : w.average.InBounds
  size : w.average.n.toInt = n
  unlifted : (∀ e ∈ before, ¬ e.IsPenUp) → ∀ c,
    Reaches n tail1 head2 c (asked c before) (w.average.head c).toInt (w.average.tail c).toInt ∧
      (asked c before = 0 → w.written c = [])
  lifted : (∃ e ∈ before, e.IsPenUp) → ∀ c, w.average.head c = 0 ∧ w.average.tail c = 0 ∧ w.written c = []

/-! ## Streams -/

namespace Window

/-- The windows without what is behind the filter. -/
def run : Transducer Window InputEvent Empty where
  step := fun w ev => (w.step ev, [])

def Good (w : Window) (ev : InputEvent) : Prop := ∀ c ∈ averaged ev, (w.step ev).Averages c

theorem step_none (h : averaged ev = none) : w.step ev = if ev.IsPressure then w.penUp else w := by
  rw [step, h]

theorem step_some (h : averaged ev = some c) : w.step ev = w.add c ev.value := by
  rw [step, h]

theorem good_some (h : averaged ev = some c) : w.Good ev ↔ (w.add c ev.value).Averages c := by
  rw [Good, h, step_some h]
  simp

end Window

theorem averaged_penUp (h : ev.IsPenUp) : averaged ev = none := by
  have hcodes : absPressure ≠ absX ∧ absPressure ≠ absY := by decide
  simp [averaged, h.1, h.2.1, h.2.2, hcodes]

theorem penUp_iff (h : averaged ev = none) : ev.IsPressure ↔ ev.IsPenUp := by
  refine ⟨fun hp => ⟨hp.1, hp.2, by_contra fun hvalue => ?_⟩, fun hup => ⟨hup.1, hup.2.1⟩⟩
  have hcodes : absPressure ≠ absX ∧ absPressure ≠ absY := by decide
  simp [averaged, hp.1, hp.2, hvalue, hcodes] at h

theorem asked_concat {before : List InputEvent} :
    asked c (before ++ [ev]) = asked c before + if averaged ev = some c then 1 else 0 := by
  simp [asked, List.countP_append, List.countP_singleton]

namespace Window.After

variable {m tail1 head2 : Int} {before : List InputEvent}

theorem good_iff (h : w.After m tail1 head2 before) (hn : m ≠ 2) : w.Good ev ↔ Lucky m tail1 head2 before ev := by
  cases hev : averaged ev with
  | none => exact iff_of_true (by simp [Good, hev]) (by simp [Lucky, hev])
  | some c =>
      rw [good_some hev, Lucky, hev]
      simp only [Option.mem_some_iff, forall_eq']
      by_cases hup : ∀ e ∈ before, ¬ e.IsPenUp
      · obtain ⟨hreaches, hw⟩ := h.unlifted hup c
        rw [and_iff_right hup]
        exact (hreaches.add ev.value h.inBounds h.size hn hw).1
      · push Not at hup
        obtain ⟨hhead, htail, hw⟩ := h.lifted hup c
        refine iff_of_false (not_averages_zero h.inBounds (h.size ▸ hn) hhead htail hw) ?_
        rintro ⟨hnone, -⟩
        obtain ⟨e, he, hlift⟩ := hup
        exact hnone e he hlift

theorem lift (h : w.After m tail1 head2 before) (hup : ev.IsPenUp) : w.penUp.After m tail1 head2 (before ++ [ev]) where
  inBounds := h.inBounds.penUp
  size := h.size
  unlifted hnone := absurd hup (hnone ev (by simp))
  lifted _ _ := ⟨rfl, rfl, rfl⟩

theorem idle (h : w.After m tail1 head2 before) (hev : averaged ev = none) (hup : ¬ ev.IsPenUp) :
    w.After m tail1 head2 (before ++ [ev]) where
  inBounds := h.inBounds
  size := h.size
  unlifted hnone c := by
    simpa [asked_concat, hev] using h.unlifted (fun e he => hnone e (List.mem_append_left _ he)) c
  lifted hsome := by
    obtain ⟨e, he, hlift⟩ := hsome
    rcases List.mem_append.mp he with he | he
    · exact h.lifted ⟨e, he, hlift⟩
    · exact absurd (List.mem_singleton.mp he ▸ hlift) hup

theorem add (h : w.After m tail1 head2 before) (hn : m ≠ 2) (hev : averaged ev = some c)
    (hlucky : Lucky m tail1 head2 before ev) : (w.add c ev.value).After m tail1 head2 (before ++ [ev]) := by
  obtain ⟨hnone, hlt⟩ := hlucky c hev
  refine ⟨h.inBounds.add c ev.value, h.size, fun _ a => ?_, fun hsome => ?_⟩
  · obtain ⟨hreaches, hw⟩ := h.unlifted hnone a
    rw [asked_concat, hev]
    by_cases ha : a = c
    · subst ha
      simp only [if_true]
      exact ⟨(hreaches.add ev.value h.inBounds h.size hn hw).2 hlt, fun hzero => absurd hzero (Nat.succ_ne_zero _)⟩
    · have hca : ¬ some c = some a := fun heq => ha (Option.some.inj heq).symm
      simp only [if_neg hca, Nat.add_zero, Window.add, Average.add, if_neg ha]
      exact ⟨hreaches, hw⟩
  · obtain ⟨e, he, hlift⟩ := hsome
    rcases List.mem_append.mp he with he | he
    · exact absurd hlift (hnone e he)
    · rw [List.mem_singleton.mp he] at hlift
      cases hev.symm.trans (averaged_penUp hlift)

theorem step (h : w.After m tail1 head2 before) (hn : m ≠ 2) (hgood : w.Good ev) :
    (w.step ev).After m tail1 head2 (before ++ [ev]) := by
  cases hev : averaged ev with
  | some c =>
      rw [step_some hev]
      exact h.add hn hev ((h.good_iff hn).mp hgood)
  | none =>
      rw [step_none hev]
      by_cases hup : ev.IsPenUp
      · rw [if_pos ((penUp_iff hev).mpr hup)]
        exact h.lift hup
      · rw [if_neg (mt (penUp_iff hev).mp hup)]
        exact h.idle hev hup

end Window.After

/-- All that goes well without two slots. -/
theorem along_lucky {m tail1 head2 : Int} (hw : w.After m tail1 head2 []) (hn : m ≠ 2) :
    Window.run.Along Window.Good w evs ↔
      ∀ before ev after, evs = before ++ ev :: after → Lucky m tail1 head2 before ev := by
  have hhistory : Window.run.Along Window.Good w evs ↔ Transducer.history.Along (Lucky m tail1 head2) [] evs := by
    induction evs using List.reverseRecOn with
    | nil => exact Iff.rfl
    | append_singleton evs ev ih =>
        rw [Transducer.along_append, Transducer.along_append, ← ih, Transducer.state_history]
        refine and_congr_right fun h => ?_
        have hafter := h.relates (fun before (w : Window) _ => w.After m tail1 head2 before) hw
          fun _ _ _ _ hw hgood => hw.step hn hgood
        exact and_congr_left fun _ => hafter.good_iff hn
  rw [hhistory, Transducer.along_iff]
  simp only [Transducer.state_history, List.nil_append]

/-! ## New filters -/

theorem after_alloc {n tail1 head2 : Int32} (coord : Int32 → Axis → Int32) (hn : 0 < n)
    (htail : 0 ≤ tail1 ∧ tail1 < n) (hhead : 0 ≤ head2 ∧ head2 < n) :
    (evfWeightedAverageAbsAlloc.window n.toUInt32 tail1 head2 coord).After n.toInt tail1.toInt head2.toInt [] := by
  have hzero : (0 : Int32) ≤ 0 ∧ 0 < n := ⟨Int32.le_refl 0, hn⟩
  have hsize : (evfWeightedAverageAbsAlloc.window n.toUInt32 tail1 head2 coord).average.n = n :=
    Int32.toInt32_toUInt32 n
  refine ⟨fun c => ?_, congrArg Int32.toInt hsize, fun _ c => ⟨?_, fun _ => rfl⟩, fun hsome => by simp at hsome⟩
  · rw [Average.Within, hsize]
    match c with
    | 0 => exact ⟨hzero, hzero⟩
    | 1 => exact ⟨hzero, htail⟩
    | 2 => exact ⟨hhead, hzero⟩
  · match c with
    | 0 => exact .x
    | 1 => exact .y
    | 2 => exact .pressure

theorem sampled_run : Sampled (sampling calculated next) s evs ↔
    s.1.average.InBounds ∧ Window.run.Along Window.Good s.1 evs := by
  refine and_congr_right fun hin => ?_
  rw [← Transducer.along_view (g := Prod.fst) (T := sampling calculated next) fun s ev => sampling_step]
  refine Transducer.Along.congr (J := fun s => s.1.average.InBounds) hin (fun s ev h => ?_) fun s ev h => ?_
  · rw [sampling_step]
    exact Window.step_inBounds h
  · rw [sampling_step]
    exact and_iff_right (Window.step_inBounds h)

/-- With one slot the loop visits none, and with three or more it visits slots that have not been written. What
`malloc` left in the second tail or in the third head may make up for it, once or twice. -/
theorem sampled_iff (calculated : Average → Axis → Int32) (next : InputEvent → β → InputEvent × β) (b : β) (n : Int32)
    (hn : 0 < n) (tail1 head2 : Int32) (coord : Int32 → Axis → Int32) (evs : List InputEvent) :
    Sampled (sampling calculated next) (evfWeightedAverageAbsAlloc.window n.toUInt32 tail1 head2 coord, b) evs ↔
      ((0 ≤ tail1 ∧ tail1 < n) ∧ 0 ≤ head2 ∧ head2 < n) ∧ (n = 2 ∨
        ∀ before ev after, evs = before ++ ev :: after → Lucky n.toInt tail1.toInt head2.toInt before ev) := by
  rw [sampled_run]
  have hsize : (evfWeightedAverageAbsAlloc.window n.toUInt32 tail1 head2 coord).average.n = n :=
    Int32.toInt32_toUInt32 n
  by_cases hbytes : (0 ≤ tail1 ∧ tail1 < n) ∧ 0 ≤ head2 ∧ head2 < n
  · have hafter := after_alloc coord hn hbytes.1 hbytes.2
    refine (and_iff_right hafter.inBounds).trans (Iff.trans ?_ (and_iff_right hbytes).symm)
    by_cases htwo : n = 2
    · refine iff_of_true (Transducer.along_true.mono (J := fun w => w.average.InBounds ∧ w.average.n = n)
        ⟨hafter.inBounds, hsize⟩ (fun w ev h => ?_) fun w ev h _ c hc => ?_) (Or.inl htwo)
      · exact ⟨Window.step_inBounds h.1, Window.step_n.trans h.2⟩
      · rw [Window.step_some hc]
        exact averages_two h.1 (h.2.trans htwo)
    · rw [or_iff_right htwo]
      exact along_lucky hafter fun h => htwo (Int32.toInt.inj h)
  · refine iff_of_false (fun h => hbytes ⟨?_, ?_⟩) fun h => hbytes h.1
    · have hin := (h.1 1).2
      rwa [hsize] at hin
    · have hin := (h.1 2).1
      rwa [hsize] at hin

theorem sampled_two : Sampled (sampling (fun _ _ => 0) (Proc.record id))
      (evfWeightedAverageAbsAlloc.window (2 : Int32).toUInt32 1 0 fun _ _ => 7, [])
      [⟨(0, 0), evAbs, absX, 5⟩, ⟨(0, 0), evAbs, absY, 9⟩] ↔
    (((0 : Int32) ≤ 1 ∧ (1 : Int32) < 2) ∧ (0 : Int32) ≤ 0 ∧ (0 : Int32) < 2) ∧ ((2 : Int32) = 2 ∨
      ∀ before ev after, [⟨(0, 0), evAbs, absX, 5⟩, ⟨(0, 0), evAbs, absY, 9⟩] = before ++ ev :: after →
        Lucky (2 : Int32).toInt (1 : Int32).toInt (0 : Int32).toInt before ev) :=
  sampled_iff _ _ [] 2 (by decide) 1 0 _ _

/-- One movement on the x axis. The loop goes on to the slot above, which has what `malloc` left in it. -/
theorem not_sampled : ¬ ∀ (n : Int32) (tail1 head2 : Int32) (coord : Int32 → Axis → Int32) (evs : List InputEvent),
    0 < n → n ≤ 10 → Sampled (sampling (fun _ _ => 0) (Proc.record id))
      (evfWeightedAverageAbsAlloc.window n.toUInt32 tail1 head2 coord, []) evs := by
  intro h
  have hrun := h 3 0 0 (fun _ _ => 7) [⟨(0, 0), evAbs, absX, 5⟩] (by decide) (by decide)
  have hafter := @after_alloc 3 0 0 (fun _ _ => 7) (by decide) (by decide) (by decide)
  rw [sampled_run] at hrun
  have hev : averaged ⟨(0, 0), evAbs, absX, 5⟩ = some 0 := by decide
  have hgood := (Window.good_some hev).mp hrun.2.1
  exact not_averages_zero hafter.inBounds (by decide) rfl rfl rfl hgood

end Evfilter.Filters
