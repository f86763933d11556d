import Evfilter.Filters.Lemmas.Answers

/-!
# Invariants of lines

No absolute event gets past an Abs2Rel, so the filters behind one stay quiet, and a pressure event comes back
either as it was or as something that is not pressure.
-/

namespace Evfilter.Filters
open Lib

variable {ev ev' r : InputEvent} {f f' : Filter} {n : Nat} {line : Line n} {cs : List InputEvent}

def NoAbs : (n : Nat) → Line n → Prop
  | 0, _ => True
  | n + 1, (f, line) => f.Quiet ∧ NoAbs n line

/-- The filters behind an Abs2Rel are quiet. -/
def Wf : (n : Nat) → Line n → Prop
  | 0, _ => True
  | n + 1, (f, line) => ((∃ data, f = .abs2rel data) → NoAbs n line) ∧ Wf n line

/-! ## Created lines -/

theorem Params.quiet (p : Params) : p.alloc.Quiet := by
  cases p with
  | barrier history => exact fun _ h => nomatch h
  | abs2rel relx rely lastAbsx lastAbsy => exact ⟨show (0 : Int32) ≠ 2 by decide, show (0 : Int32) ≠ 2 by decide⟩
  | _ => trivial

theorem noAbs_alloc (ps : List Params) : NoAbs ps.length (allocLine ps) := by
  induction ps with
  | nil => trivial
  | cons p ps ih => exact ⟨p.quiet, ih⟩

theorem wf_alloc (ps : List Params) : Wf ps.length (allocLine ps) := by
  induction ps with
  | nil => trivial
  | cons p ps ih => exact ⟨fun _ => noAbs_alloc ps, ih⟩

/-! ## Quiet lines -/

theorem NoAbs.process (hl : NoAbs n line) (ha : ev.type ≠ evAbs) :
    QuietAnswer ev (process n ev line).1 ∧ NoAbs n (process n ev line).2 := by
  induction n generalizing ev with
  | zero => exact ⟨.refl, trivial⟩
  | succ n ih =>
      obtain ⟨f, line⟩ := line
      obtain ⟨cs, hcs, hm⟩ := hl.1.makes ha
      obtain ⟨_, ⟨hq, hr⟩, hl'⟩ := hm.run (process n) (I := NoAbs n) (fun c hc _ hb => ih hb (hcs c hc)) hl.2
      exact ⟨hr, hq, hl'⟩

theorem abs2rel_abs {data : Abs2rel} (ha : ev.type = evAbs) :
    (Filter.abs2rel data).modify ev = .done (.abs2rel (data.update ev), ev) := by
  have hs : ev.type ≠ evSyn := by rw [ha]; decide
  simp only [Filter.modify, Abs2rel.modify, if_neg hs, if_pos ha, Proc.pure_eq, Proc.bind_done]

theorem Abs2rel.run {data : Abs2rel} (hl : NoAbs n line) :
    ((Filter.abs2rel data).modify ev).calls (process n) line = data.sent ev ∧
      (process (n + 1) ev (Filter.abs2rel data, line)).2.1 = .abs2rel (data.next ev) ∧
      NoAbs n (process (n + 1) ev (Filter.abs2rel data, line)).2.2 := by
  obtain ⟨hcs, hq, hl'⟩ := (data.makes ev).run (process n) (I := NoAbs n)
    (fun c hc _ hb => hb.process (data.sent_noAbs c hc)) hl
  exact ⟨hcs, hq.1, hl'⟩

/-! ## All lines -/

theorem process_abs2rel {data : Abs2rel}
    (h : (process (n + 1) ev (f, line)).2.1 = .abs2rel data) : ∃ data, f = .abs2rel data := by
  have any : ∀ {cs Q}, (f.modify ev).Makes (fun _ _ => True) Q cs →
      Q ((f.modify ev).drive (process n) line).1 := fun hm =>
    (hm.run (process n) (I := fun _ => True) (fun _ _ _ _ => ⟨trivial, trivial⟩) trivial).2.1
  rcases f.kind with hf | ⟨p, rfl⟩ | ⟨b, rfl⟩ | ⟨d, rfl⟩
  · obtain ⟨f', ev', cs, hf', _, _, hm⟩ := hf.makes ev (B := fun _ _ => True) fun _ => trivial
    have hf₁ := (any hm).1
    change ((f.modify ev).drive (process n) line).1.1 = .abs2rel data at h
    rw [← hf₁, h] at hf'
    exact hf'.elim
  · rw [process, Pressure.modify_eq, Proc.drive_call] at h
    split at h <;> cases h
  · have hb := (any (b.makes ev fun _ => trivial)).1
    change (((Filter.barrier b).modify ev).drive (process n) line).1.1 = .abs2rel data at h
    rw [hb] at h
    cases h
  · exact ⟨d, rfl⟩

theorem Wf.process (hw : Wf n line) : Wf n (process n ev line).2 := by
  induction n generalizing ev with
  | zero => trivial
  | succ n ih =>
      obtain ⟨f, line⟩ := line
      refine ⟨?_, ?_⟩
      · rintro ⟨data, h⟩
        obtain ⟨d, rfl⟩ := process_abs2rel h
        exact (Abs2rel.run (hw.1 ⟨d, rfl⟩)).2.2
      · rw [Proc.drive_snd]
        exact Proc.feed_invariant hw.2 fun hb _ => ih hb

theorem process_pressure {p : Pressure} : process (n + 1) ev (Filter.pressureToKey p, line) =
    if p.crosses (process n ev line).1 then
      let after := process n (p.keyEvent (process n ev line).1) (process n ev line).2
      (after.1, (.pressureToKey { p with pressed := !p.pressed }, after.2))
    else ((process n ev line).1, (.pressureToKey p, (process n ev line).2)) := by
  rw [process, Pressure.modify_eq, Proc.drive_call]
  split <;> rfl

theorem keyEvent_notPressure {p : Pressure} : ¬ (p.keyEvent ev).IsPressure :=
  fun h => absurd h.1 (show evKey ≠ evAbs by decide)

/-- Pressure is not made out of anything else. -/
theorem Wf.notPressure (hw : Wf n line) (hp : ¬ ev.IsPressure) : ¬ (Filters.process n ev line).1.IsPressure := by
  induction n generalizing ev with
  | zero => exact hp
  | succ n ih =>
      obtain ⟨f, line⟩ := line
      have run : ∀ {cs Q}, (f.modify ev).Makes (fun c r => ¬ c.IsPressure → ¬ r.IsPressure) Q cs →
          Q ((f.modify ev).drive (Filters.process n) line).1 := fun hm =>
        (hm.run (Filters.process n) (I := Wf n) (fun _ _ _ hb => ⟨ih hb, hb.process⟩) hw.2).2.1
      rcases f.kind with hf | ⟨p, rfl⟩ | ⟨b, rfl⟩ | ⟨data, rfl⟩
      · obtain ⟨f', ev', cs, _, hpass, _, hm⟩ := hf.makes ev
          (B := fun c r => ¬ c.IsPressure → ¬ r.IsPressure) fun _ => id
        exact (run hm).2 (hpass.other hp)
      · have hr := ih hw.2 hp
        have hc : p.crosses (Filters.process n ev line).1 = false := by simp [Pressure.crosses, hr]
        rw [process_pressure, hc]
        exact hr
      · exact (run (b.makes ev fun _ => id)).2 hp
      · by_cases ha : ev.type = evAbs
        · change ¬ (((Filter.abs2rel data).modify ev).drive (Filters.process n) line).1.2.IsPressure
          rw [abs2rel_abs ha]
          exact hp
        · obtain ⟨_, ⟨_, hr⟩, _⟩ := (data.makes ev).run (Filters.process n) (I := NoAbs n)
            (fun c hc _ hb => hb.process (data.sent_noAbs c hc)) (hw.1 ⟨data, rfl⟩)
          refine fun h => hr.noAbs ?_ h.1
          split
          · rw [data.last_type]
            exact ha
          · exact ha

/-- A PressureToKey that the event gets to turns it into a key event. -/
def crossesBehind : (n : Nat) → Line n → InputEvent → Bool
  | 0, _, _ => false
  | n + 1, (.pressureToKey p, line), ev => p.crosses ev || crossesBehind n line ev
  | _ + 1, (.barrier _, _), _ | _ + 1, (.abs2rel _, _), _ => false
  | n + 1, (_, line), ev => crossesBehind n line ev

theorem Filter.Direct.crossesBehind (hf : f.Direct) :
    crossesBehind (n + 1) (f, line) ev = crossesBehind n line ev := by
  cases f with
  | pressureToKey p => exact hf.elim
  | barrier b => exact hf.elim
  | abs2rel data => exact hf.elim
  | _ => rfl

/-- What is left in the struct of a pressure event. -/
theorem Wf.pressure (hw : Wf n line) (hp : ev.IsPressure) :
    if crossesBehind n line ev then ¬ (Filters.process n ev line).1.IsPressure
    else (Filters.process n ev line).1 = ev := by
  induction n generalizing ev with
  | zero => rfl
  | succ n ih =>
      obtain ⟨f, line⟩ := line
      have hl := ih hw.2 hp
      rcases f.kind with hf | ⟨p, rfl⟩ | ⟨b, rfl⟩ | ⟨data, rfl⟩
      · obtain ⟨f', ev', _, hpass, h | ⟨_, hn⟩⟩ := direct_modify hf ev
        · have hr : (Filters.process (n + 1) ev (f, line)).1 = (Filters.process n ev line).1 := by
            rw [Filters.process, h, hpass.pressure hp]
            rfl
          rw [hf.crossesBehind, hr]
          exact hl
        · exact absurd hp hn
      · rw [process_pressure, crossesBehind]
        cases hb : crossesBehind n line ev with
        | true =>
            rw [hb, if_pos rfl] at hl
            have hc : p.crosses (Filters.process n ev line).1 = false := by simp [Pressure.crosses, hl]
            rw [hc, Bool.or_true, if_pos rfl]
            exact hl
        | false =>
            rw [hb, if_neg Bool.false_ne_true] at hl
            rw [Bool.or_false, hl]
            cases hc : p.crosses ev with
            | true =>
                rw [if_pos rfl, if_pos rfl]
                exact hw.2.process.notPressure keyEvent_notPressure
            | false => rfl
      · have hs : ¬ (ev.type = evSyn ∧ ev.code = synReport) := fun h => by
          rw [hp.1] at h
          exact absurd h.1 (by decide)
        change (((Filter.barrier b).modify ev).drive (Filters.process n) line).1.2 = ev
        simp only [Filter.modify, Barrier.modify, if_neg hs, Proc.pure_eq, Proc.bind_done, Proc.drive_done]
      · change (((Filter.abs2rel data).modify ev).drive (Filters.process n) line).1.2 = ev
        rw [abs2rel_abs hp.1]
        rfl

end Evfilter.Filters
