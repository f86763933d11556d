import Evfilter.Filters.Lemmas.Direct

/-!
# What is in the struct when `modify` returns

PressureToKey and Abs2Rel look at the event again after they have sent it. What they find there depends on the
filters behind them.
-/

namespace Evfilter.Filters
open Lib

variable {ev ev' r : InputEvent} {f f' : Filter} {n : Nat} {line : Line n} {cs : List InputEvent}
  {B : InputEvent → InputEvent → Prop}

/-! ## The calls of one filter -/

theorem Filter.Direct.makes (hf : f.Direct) (ev : InputEvent) (hB : ∀ e, B e e) : ∃ f' ev' cs, f'.Direct ∧
    Passes ev ev' ∧ (∀ c ∈ cs, c = ev') ∧ (f.modify ev).Makes B (fun x => x.1 = f' ∧ B ev' x.2) cs := by
  obtain ⟨f', ev', hf', hp, h | ⟨h, _⟩⟩ := direct_modify hf ev
  · refine ⟨f', ev', [ev'], hf', hp, by simp, ?_⟩
    rw [h]
    exact Proc.makes_call fun r hr => Proc.makes_done ⟨rfl, hr⟩
  · refine ⟨f', ev', [], hf', hp, by simp, ?_⟩
    rw [h]
    exact Proc.makes_done ⟨rfl, hB ev'⟩

theorem flushQueue_makes {queue : List InputEvent} :
    (flushQueue queue).Makes B (fun _ => True) queue := by
  induction queue with
  | nil => exact Proc.makes_done trivial
  | cons ev queue ih => exact Proc.makes_call fun _ _ => ih

def Barrier.sent (barrier : Barrier) (ev : InputEvent) : List InputEvent :=
  if ev.type = evSyn ∧ ev.code = synReport then barrier.queue ++ [ev] else []

def Barrier.next (barrier : Barrier) (ev : InputEvent) : Barrier :=
  if ev.type = evSyn ∧ ev.code = synReport then barrier.emptied else insertQueue barrier ev

theorem Barrier.makes (barrier : Barrier) (ev : InputEvent) (hB : ∀ e, B e e) :
    ((Filter.barrier barrier).modify ev).Makes B (fun x => x.1 = .barrier (barrier.next ev) ∧ B ev x.2)
      (barrier.sent ev) := by
  simp only [Filter.modify, Barrier.modify, Barrier.sent, Barrier.next]
  split
  · rw [← List.append_nil (_ ++ _)]
    refine Proc.Makes.bind (Proc.Makes.bind (flushQueue_makes.mono fun _ _ => ?_))
    exact Proc.makes_call fun r hr => Proc.makes_done (Proc.makes_done ⟨rfl, hr⟩)
  · exact Proc.makes_done ⟨rfl, hB ev⟩

/-- The event crosses the threshold of the filter. -/
def Pressure.crosses (p : Pressure) (ev : InputEvent) : Bool :=
  ev.IsPressure && checkTreshold ev.value p.treshold != p.pressed

def Pressure.keyEvent (p : Pressure) (ev : InputEvent) : InputEvent :=
  { ev with type := evKey, code := toCode p.key, value := if p.pressed then 0 else 1 }

theorem Pressure.modify_call (p : Pressure) (ev : InputEvent) : p.modify ev =
    .call ev fun r => if p.crosses r then
      .call (p.keyEvent r) fun r => .done ({ p with pressed := !p.pressed }, r)
    else .done (p, r) := by
  obtain ⟨treshold, key, pressed⟩ := p
  simp only [Pressure.modify, emit, Proc.perform, Proc.bind_call, Proc.bind_done]
  congr 1
  funext r
  by_cases hp : r.IsPressure
  · have hp' : r.type = evAbs ∧ r.code = absPressure := hp
    cases hc : checkTreshold r.value treshold <;> cases pressed <;>
      simp [Pressure.crosses, Pressure.keyEvent, hp, hp', hc]
  · have hp' : ¬ (r.type = evAbs ∧ r.code = absPressure) := hp
    simp [Pressure.crosses, hp, hp']

theorem Pressure.modify_eq (p : Pressure) (ev : InputEvent) : (Filter.pressureToKey p).modify ev =
    .call ev fun r => if p.crosses r then
      .call (p.keyEvent r) fun r => .done (.pressureToKey { p with pressed := !p.pressed }, r)
    else .done (.pressureToKey p, r) := by
  rw [Filter.modify, Pressure.modify_call, Proc.bind_call]
  congr 1
  funext r
  cases p.crosses r with
  | true => rfl
  | false => rfl

/-! ## Abs2Rel -/

/-- How filters behind an Abs2Rel leave an event that is not absolute. -/
structure QuietAnswer (ev r : InputEvent) : Prop where
  noAbs : ev.type ≠ evAbs → r.type ≠ evAbs
  syn : ev.type = evSyn → r = ev ∨ r = { ev with value := 0 }

theorem QuietAnswer.refl : QuietAnswer ev ev := ⟨id, fun _ => Or.inl rfl⟩

def moveCode (state : Int32) (code : UInt16) (ev : InputEvent) : InputEvent :=
  if state = 2 then { ev with code := code } else ev

def move (state : Int32) (code : UInt16) (value : Int32) (ev : InputEvent) : List InputEvent :=
  if state = 2 then [{ ev with code := code, value := value }] else []

/-- The EV_SYN as Abs2Rel sends it after the movement. -/
def Abs2rel.last (data : Abs2rel) (ev : InputEvent) : InputEvent :=
  { moveCode data.ystate relY (moveCode data.xstate relX ev) with value := 0 }

def Abs2rel.sent (data : Abs2rel) (ev : InputEvent) : List InputEvent :=
  if ev.type = evSyn then
    move data.xstate relX data.relx ev ++ (move data.ystate relY data.rely ev ++ [data.last ev]) ++
      [data.last ev]
  else if ev.type = evAbs then [] else [ev]

def Abs2rel.next (data : Abs2rel) (ev : InputEvent) : Abs2rel :=
  if ev.type = evAbs then data.update ev else data

theorem moveCode_type {state : Int32} {code : UInt16} : (moveCode state code ev).type = ev.type := by
  unfold moveCode
  split <;> rfl

theorem Abs2rel.last_type (data : Abs2rel) : (data.last ev).type = ev.type :=
  moveCode_type.trans moveCode_type

theorem sendMove_makes {state : Int32} {code : UInt16} {value v : Int32} (hs : ev.type = evSyn) :
    (sendMove state code value { ev with value := v }).Makes QuietAnswer
      (fun r => ∃ v, r = { moveCode state code ev with value := v }) (move state code value ev) := by
  unfold sendMove moveCode move
  split
  · refine Proc.makes_call fun r hr => Proc.makes_done ?_
    rcases hr.syn hs with rfl | rfl
    · exact ⟨value, rfl⟩
    · exact ⟨0, rfl⟩
  · exact Proc.makes_done ⟨v, rfl⟩

theorem Abs2rel.flush_makes (data : Abs2rel) (hs : ev.type = evSyn) :
    (data.flush ev).Makes QuietAnswer (fun r => r = data.last ev)
      (move data.xstate relX data.relx ev ++ (move data.ystate relY data.rely ev ++ [data.last ev])) := by
  unfold Abs2rel.flush
  refine Proc.Makes.bind ((sendMove_makes (v := ev.value) hs).mono ?_)
  rintro _ ⟨v, rfl⟩
  have hs' : (moveCode data.xstate relX ev).type = evSyn := moveCode_type.trans hs
  have hmove : move data.ystate relY data.rely ev =
      move data.ystate relY data.rely (moveCode data.xstate relX ev) := by
    unfold move moveCode
    split
    · split <;> rfl
    · rfl
  rw [hmove]
  refine Proc.Makes.bind ((sendMove_makes hs').mono ?_)
  rintro _ ⟨w, rfl⟩
  have hlast : ({ moveCode data.ystate relY (moveCode data.xstate relX ev) with type := evSyn, value := 0 } :
      InputEvent) = data.last ev := by
    rw [Abs2rel.last, ← hs, ← data.last_type]
    rfl
  refine ⟨[], ?_, fun r hr => ⟨rfl, ?_⟩⟩
  · exact congrArg (· :: []) hlast.symm
  · rcases hr.syn rfl with rfl | rfl <;> exact hlast

theorem Abs2rel.modify_makes (data : Abs2rel) (ev : InputEvent) :
    (data.modify ev).Makes QuietAnswer
      (fun x => x.1 = data.next ev ∧ QuietAnswer (if ev.type = evSyn then data.last ev else ev) x.2)
      (data.sent ev) := by
  by_cases hs : ev.type = evSyn
  · have ha : ev.type ≠ evAbs := by rw [hs]; decide
    simp only [Abs2rel.modify, Abs2rel.sent, Abs2rel.next, if_pos hs, if_neg ha]
    refine Proc.Makes.bind ((data.flush_makes hs).mono ?_)
    rintro _ rfl
    rw [data.last_type, if_neg ha]
    exact Proc.makes_call fun r hr => Proc.makes_done ⟨rfl, hr⟩
  · simp only [Abs2rel.modify, Abs2rel.sent, Abs2rel.next, if_neg hs, Proc.pure_eq, Proc.bind_done]
    split
    · exact Proc.makes_done ⟨rfl, .refl⟩
    · exact Proc.makes_call fun r hr => Proc.makes_done ⟨rfl, hr⟩

/-- The events that Abs2Rel sends do not depend on what quiet filters behind it do to them. -/
theorem Abs2rel.makes (data : Abs2rel) (ev : InputEvent) :
    ((Filter.abs2rel data).modify ev).Makes QuietAnswer
      (fun x => x.1 = .abs2rel (data.next ev) ∧
        QuietAnswer (if ev.type = evSyn then data.last ev else ev) x.2) (data.sent ev) := by
  rw [← List.append_nil (data.sent ev)]
  exact Proc.Makes.bind ((data.modify_makes ev).mono fun x hx =>
    Proc.makes_done ⟨congrArg Filter.abs2rel hx.1, hx.2⟩)

theorem Abs2rel.sent_type (data : Abs2rel) : ∀ c ∈ data.sent ev, c.type = ev.type := by
  have hmove : ∀ {state code value}, ∀ c ∈ move state code value ev, c.type = ev.type := by
    intro state code value c hc
    unfold move at hc
    split at hc
    · rw [List.mem_singleton.mp hc]
    · cases hc
  unfold Abs2rel.sent
  intro c hc
  split at hc
  case isTrue =>
    simp only [List.mem_append, List.mem_singleton] at hc
    rcases hc with (hc | hc | rfl) | rfl
    · exact hmove c hc
    · exact hmove c hc
    · exact data.last_type
    · exact data.last_type
  case isFalse =>
    split at hc
    · cases hc
    · rw [List.mem_singleton.mp hc]

theorem Abs2rel.sent_noAbs (data : Abs2rel) : ∀ c ∈ data.sent ev, c.type ≠ evAbs := by
  intro c hc habs
  have hev : ev.type = evAbs := (data.sent_type c hc).symm.trans habs
  have hsyn : ev.type ≠ evSyn := by rw [hev]; decide
  rw [Abs2rel.sent, if_neg hsyn, if_pos hev] at hc
  cases hc

/-! ## Quiet filters -/

/-- An Abs2Rel that has seen no movement, and a Barrier that holds no absolute events. -/
def Filter.Quiet : Filter → Prop
  | abs2rel data => data.xstate ≠ 2 ∧ data.ystate ≠ 2
  | barrier data => ∀ ev ∈ data.queue, ev.type ≠ evAbs
  | _ => True

theorem Filter.Direct.quiet (hf : f.Direct) : f.Quiet := by
  cases f <;> trivial

theorem Barrier.next_queue {barrier : Barrier} (hq : ∀ ev ∈ barrier.queue, ev.type ≠ evAbs)
    (ha : ev.type ≠ evAbs) : ∀ c ∈ (barrier.next ev).queue, c.type ≠ evAbs := by
  unfold Barrier.next insertQueue
  intro c hc
  split at hc
  · cases hc
  · split at hc
    · exact hq c hc
    · rcases List.mem_append.mp hc with hc | hc
      · exact hq c hc
      · rw [List.mem_singleton.mp hc]
        exact ha

theorem Pressure.quiet_makes (p : Pressure) (ha : ev.type ≠ evAbs) :
    ((Filter.pressureToKey p).modify ev).Makes QuietAnswer (fun x => x.1.Quiet ∧ QuietAnswer ev x.2) [ev] := by
  rw [Pressure.modify_eq]
  refine Proc.makes_call fun r hr => ?_
  have hp : p.crosses r = false := by simp [Pressure.crosses, InputEvent.IsPressure, hr.noAbs ha]
  simp only [hp, Bool.false_eq_true, ↓reduceIte]
  exact Proc.makes_done ⟨trivial, hr⟩

theorem Barrier.sent_noAbs {barrier : Barrier} (hq : ∀ ev ∈ barrier.queue, ev.type ≠ evAbs)
    (ha : ev.type ≠ evAbs) : ∀ c ∈ barrier.sent ev, c.type ≠ evAbs := by
  unfold Barrier.sent
  intro c hc
  split at hc
  · rcases List.mem_append.mp hc with hc | hc
    · exact hq c hc
    · rw [List.mem_singleton.mp hc]
      exact ha
  · cases hc

theorem Abs2rel.quiet_makes {data : Abs2rel} (hq : (Filter.abs2rel data).Quiet) (ha : ev.type ≠ evAbs) :
    ((Filter.abs2rel data).modify ev).Makes QuietAnswer (fun x => x.1.Quiet ∧ QuietAnswer ev x.2)
      (data.sent ev) := by
  refine (data.makes ev).mono ?_
  rintro ⟨f', r⟩ ⟨rfl, hr⟩
  have hnext : data.next ev = data := by rw [Abs2rel.next, if_neg ha]
  refine ⟨by rw [hnext]; exact hq, ?_⟩
  have hlast : data.last ev = { ev with value := 0 } := by
    rw [Abs2rel.last, moveCode, if_neg hq.2, moveCode, if_neg hq.1]
  split at hr
  case isTrue hs =>
    rw [hlast] at hr
    refine ⟨fun _ => hr.noAbs ha, fun _ => Or.inr ?_⟩
    rcases hr.syn hs with rfl | rfl <;> rfl
  case isFalse => exact hr

theorem Passes.quietAnswer (hp : Passes ev ev') (hr : QuietAnswer ev' r) : QuietAnswer ev r :=
  ⟨fun h => hr.noAbs (hp.noAbs h), fun h => hp.syn h ▸ hr.syn (hp.syn h ▸ h)⟩

/-- Quiet filters stay quiet while they get no absolute events, and send none. -/
theorem Filter.Quiet.makes (hq : f.Quiet) (ha : ev.type ≠ evAbs) : ∃ cs, (∀ c ∈ cs, c.type ≠ evAbs) ∧
    (f.modify ev).Makes QuietAnswer (fun x => x.1.Quiet ∧ QuietAnswer ev x.2) cs := by
  rcases f.kind with hf | ⟨p, rfl⟩ | ⟨b, rfl⟩ | ⟨data, rfl⟩
  · obtain ⟨f', ev', cs, hf', hp, hcs, hm⟩ := hf.makes ev (B := QuietAnswer) fun _ => .refl
    refine ⟨cs, fun c hc => hcs c hc ▸ hp.noAbs ha, hm.mono ?_⟩
    rintro ⟨_, r⟩ ⟨rfl, hr⟩
    exact ⟨hf'.quiet, hp.quietAnswer hr⟩
  · exact ⟨[ev], by simpa using ha, p.quiet_makes ha⟩
  · refine ⟨b.sent ev, Barrier.sent_noAbs hq ha, (b.makes ev fun _ => .refl).mono ?_⟩
    rintro ⟨f', r⟩ ⟨rfl, hr⟩
    exact ⟨Barrier.next_queue hq ha, hr⟩
  · exact ⟨data.sent ev, data.sent_noAbs, Abs2rel.quiet_makes hq ha⟩

end Evfilter.Filters
