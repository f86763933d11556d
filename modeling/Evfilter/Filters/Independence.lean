import Evfilter.Filters.Lemmas.Lines

/-!
# What a filter emits

PressureToKey compares with its threshold what is in the struct after the filters behind it have had the event.
If one of them is a PressureToKey that has just turned the event into a key event, it sees no pressure. Every
other filter emits what it would emit on its own.
-/

namespace Evfilter.Filters
open Lib

variable {n : Nat} {ev : InputEvent} {evs : List InputEvent} {f : Filter} {line : Line n}

/-! ## The calls of a run -/

/-- What the first filter of the line emits. -/
def emitted (f : Filter) (line : Line n) (ev : InputEvent) : List InputEvent :=
  (f.modify ev).calls (process n) line

/-- `P` of the call of every filter's `modify`, while the line processes one event. -/
def EveryCall (P : {n : Nat} → Filter → Line n → InputEvent → Prop) : (n : Nat) → Line n → InputEvent → Prop
  | 0, _, _ => True
  | n + 1, (f, line), ev => P f line ev ∧ Proc.Each (process n) (EveryCall P n) line (emitted f line ev)

/-- The filter emits what it emits on its own. -/
def OwnOutput (f : Filter) (line : Line n) (ev : InputEvent) : Prop := emitted f line ev = (f.alone ev).2

def Filter.crosses : Filter → InputEvent → Bool
  | pressureToKey p, ev => p.crosses ev
  | _, _ => false

/-- The event does not cross the threshold of the filter and that of another one it gets to. -/
def NoClash (f : Filter) (line : Line n) (ev : InputEvent) : Prop :=
  f.crosses ev → crossesBehind n line ev = false

/-! ## One call -/

/-- The calls are known whatever the answers are. -/
theorem emits_alike {B : InputEvent → InputEvent → Prop} {Q : Filter × InputEvent → Prop} {I : Line n → Prop}
    {cs : List InputEvent} (hm : (f.modify ev).Makes B Q cs) (hrefl : ∀ e, B e e)
    (hn : ∀ c ∈ cs, ∀ l, I l → B c (process n c l).1 ∧ I (process n c l).2) (hl : I line)
    (hQ : ∀ x y, Q x → Q y → x.1 = y.1) :
    OwnOutput f line ev ∧ (process (n + 1) ev (f, line)).2.1 = (f.alone ev).1 := by
  obtain ⟨hcs, hq, _⟩ := hm.run (process n) hn hl
  obtain ⟨hcs', hq', _⟩ := hm.run (Proc.record id) (I := fun _ => True) (b := [])
    (fun c _ _ _ => ⟨hrefl c, trivial⟩) trivial
  refine ⟨?_, hQ _ _ hq hq'⟩
  rw [OwnOutput, emitted, hcs, Filter.alone, Proc.drive_record, List.nil_append, hcs']

theorem Pressure.crosses_eq_false {p : Pressure} (h : ¬ ev.IsPressure) : p.crosses ev = false := by
  simp [Pressure.crosses, h]

theorem pressure_emitted {p : Pressure} : emitted (.pressureToKey p) line ev =
    ev :: if p.crosses (process n ev line).1 then [p.keyEvent (process n ev line).1] else [] := by
  rw [emitted, Pressure.modify_eq, Proc.calls_call]
  split <;> rfl

theorem pressure_alone {p : Pressure} : (Filter.pressureToKey p).alone ev =
    if p.crosses ev then (.pressureToKey { p with pressed := !p.pressed }, [ev, p.keyEvent ev])
    else (.pressureToKey p, [ev]) := by
  have hr : (Proc.record id ev []).1 = ev := rfl
  rw [Filter.alone, Pressure.modify_eq, Proc.drive_call, hr]
  split <;> rfl

/-- The struct comes back as it was, or neither before nor after there is anything to do. -/
theorem pressure_own {p : Pressure} (h : (process n ev line).1 = ev ∨
      p.crosses ev = false ∧ p.crosses (process n ev line).1 = false) : OwnOutput (.pressureToKey p) line ev ∧
      (process (n + 1) ev (Filter.pressureToKey p, line)).2.1 = ((Filter.pressureToKey p).alone ev).1 := by
  rw [OwnOutput, pressure_emitted, pressure_alone, process_pressure]
  rcases h with h | ⟨h, hr⟩
  · rw [h]
    split <;> exact ⟨rfl, rfl⟩
  · rw [h, hr]
    exact ⟨rfl, rfl⟩

theorem NoClash.of_not (h : f.crosses ev = false) : NoClash f line ev :=
  fun hc => absurd (h.symm.trans hc) Bool.false_ne_true

theorem ownOutput_iff_of (h : OwnOutput f line ev ∧ (process (n + 1) ev (f, line)).2.1 = (f.alone ev).1)
    (hn : NoClash f line ev) : (OwnOutput f line ev ↔ NoClash f line ev) ∧
      (NoClash f line ev → (process (n + 1) ev (f, line)).2.1 = (f.alone ev).1) :=
  ⟨iff_of_true h.1 hn, fun _ => h.2⟩

theorem pressure_ownOutput_iff {p : Pressure} (hw : Wf n line) :
    (OwnOutput (.pressureToKey p) line ev ↔ NoClash (.pressureToKey p) line ev) ∧
      (NoClash (.pressureToKey p) line ev →
        (process (n + 1) ev (Filter.pressureToKey p, line)).2.1 = ((Filter.pressureToKey p).alone ev).1) := by
  by_cases hp : ev.IsPressure
  · have hl := hw.pressure hp
    cases hb : crossesBehind n line ev with
    | false =>
        rw [hb, if_neg Bool.false_ne_true] at hl
        exact ownOutput_iff_of (pressure_own (Or.inl hl)) fun _ => hb
    | true =>
        -- the filters behind have made a key event of it
        rw [hb, if_pos rfl] at hl
        have hr := Pressure.crosses_eq_false (p := p) hl
        cases hx : p.crosses ev with
        | false => exact ownOutput_iff_of (pressure_own (Or.inr ⟨hx, hr⟩)) (.of_not hx)
        | true =>
            have hn : ¬ NoClash (.pressureToKey p) line ev := fun h =>
              absurd (hb.symm.trans (h hx)) Bool.false_ne_true.symm
            refine ⟨iff_of_false ?_ hn, fun h => absurd h hn⟩
            rw [OwnOutput, pressure_emitted, pressure_alone, hr, hx]
            exact fun h => nomatch h
  · have hx := Pressure.crosses_eq_false (p := p) hp
    have hr := Pressure.crosses_eq_false (p := p) (hw.notPressure hp)
    exact ownOutput_iff_of (pressure_own (Or.inr ⟨hx, hr⟩)) (.of_not hx)

theorem Filter.Direct.crosses (hf : f.Direct) : f.crosses ev = false := by
  cases f with
  | pressureToKey p => exact hf.elim
  | _ => rfl

/-- A filter emits its own output just when there is no clash, and then its state too is its own. -/
theorem ownOutput_iff (ev : InputEvent) (hw : Wf (n + 1) (f, line)) :
    (OwnOutput f line ev ↔ NoClash f line ev) ∧
      (NoClash f line ev → (process (n + 1) ev (f, line)).2.1 = (f.alone ev).1) := by
  rcases f.kind with hf | ⟨p, rfl⟩ | ⟨b, rfl⟩ | ⟨data, rfl⟩
  · obtain ⟨f', ev', cs, _, _, _, hm⟩ := hf.makes ev (B := fun _ _ => True) fun _ => trivial
    refine ownOutput_iff_of (emits_alike (I := fun _ => True) hm (fun _ => trivial) ?_ trivial ?_)
      (.of_not hf.crosses)
    · exact fun _ _ _ _ => ⟨trivial, trivial⟩
    · exact fun x y hx hy => hx.1.trans hy.1.symm
  · exact pressure_ownOutput_iff hw.2
  · have hm := b.makes ev (B := fun _ _ => True) fun _ => trivial
    refine ownOutput_iff_of (emits_alike (I := fun _ => True) hm (fun _ => trivial) ?_ trivial ?_)
      (.of_not rfl)
    · exact fun _ _ _ _ => ⟨trivial, trivial⟩
    · exact fun x y hx hy => hx.1.trans hy.1.symm
  · refine ownOutput_iff_of (emits_alike (data.makes ev) (fun _ => .refl) ?_ (hw.1 ⟨data, rfl⟩) ?_)
      (.of_not rfl)
    · exact fun c hc _ hb => NoAbs.process hb (data.sent_noAbs c hc)
    · exact fun x y hx hy => hx.1.trans hy.1.symm

/-! ## Runs of a line -/

theorem everyCall_iff (hw : Wf n line) : EveryCall OwnOutput n line ev ↔ EveryCall NoClash n line ev := by
  induction n generalizing ev with
  | zero => exact Iff.rfl
  | succ n ih =>
      obtain ⟨f, line⟩ := line
      exact and_congr (ownOutput_iff ev hw).1
        (Proc.Each.congr (I := Wf n) hw.2 (fun hb _ => hb.process) fun hb _ => ih hb)

theorem feed_stream {line : Line (n + 1)} (hw : Wf (n + 1) line)
    (h : Proc.Each (process (n + 1)) (EveryCall NoClash (n + 1)) line evs) :
    (Proc.feed (process (n + 1)) evs line).2 = Proc.feed (process n) (line.1.stream evs) line.2 ∧
      Proc.Each (process n) (EveryCall NoClash n) line.2 (line.1.stream evs) := by
  induction evs generalizing line with
  | nil => exact ⟨rfl, trivial⟩
  | cons ev evs ih =>
      obtain ⟨f, line⟩ := line
      obtain ⟨⟨hc, hcs⟩, hrest⟩ := h
      obtain ⟨howns, hstate⟩ := ownOutput_iff ev hw
      have hout : emitted f line ev = (f.alone ev).2 := howns.mpr hc
      have hline : (process (n + 1) ev (f, line)).2.2 = Proc.feed (process n) (f.alone ev).2 line := by
        rw [← hout]
        exact (Proc.drive_snd : ((f.modify ev).drive (process n) line).2 = _)
      obtain ⟨hfeed, heach⟩ := ih hw.process hrest
      rw [hstate hc, hline] at hfeed heach
      rw [hout] at hcs
      exact ⟨hfeed.trans Proc.feed_append.symm, Proc.each_append.mpr ⟨hcs, heach⟩⟩

theorem committed_compose (hw : Wf n line) (h : Proc.Each (process n) (EveryCall NoClash n) line evs) :
    committed n (Proc.feed (process n) evs line) = committed n line ++ compose n line evs := by
  induction n generalizing evs with
  | zero =>
      induction evs generalizing line with
      | nil => exact (List.append_nil _).symm
      | cons ev evs ih => exact (ih trivial h.2).trans (List.append_assoc _ [ev] evs)
  | succ n ih =>
      obtain ⟨hfeed, heach⟩ := feed_stream hw h
      change committed n (Proc.feed (process (n + 1)) evs line).2 = _
      rw [hfeed]
      exact ih hw.2 heach

theorem committed_alloc (ps : List Params) : committed ps.length (allocLine ps) = [] := by
  induction ps with
  | nil => rfl
  | cons p ps ih => exact ih

/-- Each filter emits what it emits on its own just when no event crosses the thresholds of two PressureToKeys
that it gets to, and then the composition of the stream functions is committed. -/
theorem emits_own_iff (ps : List Params) (evs : List InputEvent) :
    (Proc.Each (process ps.length) (EveryCall OwnOutput ps.length) (allocLine ps) evs ↔
      Proc.Each (process ps.length) (EveryCall NoClash ps.length) (allocLine ps) evs) ∧
    (Proc.Each (process ps.length) (EveryCall NoClash ps.length) (allocLine ps) evs →
      committed ps.length (Proc.feed (process ps.length) evs (allocLine ps)) =
        compose ps.length (allocLine ps) evs) := by
  refine ⟨Proc.Each.congr (I := Wf ps.length) (wf_alloc ps) (fun hb _ => hb.process)
    fun hb _ => everyCall_iff hb, fun h => ?_⟩
  rw [committed_compose (wf_alloc ps) h, committed_alloc, List.nil_append]

/-- A pressure of 20 with two PressureToKeys of threshold 10. -/
theorem not_compose :
    let ps := [Params.pressureToKey 10 272, Params.pressureToKey 10 273]
    let evs : List InputEvent := [⟨(0, 0), evAbs, absPressure, 20⟩, ⟨(0, 1), evSyn, synReport, 0⟩]
    committed ps.length (Proc.feed (process ps.length) evs (allocLine ps)) ≠
      compose ps.length (allocLine ps) evs := by
  decide

end Evfilter.Filters
