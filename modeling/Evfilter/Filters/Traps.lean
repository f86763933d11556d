import Evfilter.Filters.Independence
import Evfilter.Lib.Objects

/-!
# Divisions that stop the program

A filter keeps its divisors. If they are not 0, and not -1 where INT_MIN may be divided by them, no call of its `modify`
stops the program, whatever it is given and whatever the filters behind it do.
-/

namespace Evfilter.Filters
open Lib

variable {n : Nat} {ev : InputEvent} {f : Filter} {line : Line n}

/-! ## One filter -/

theorem Relspeed.modify_mods (relspeed : Relspeed) (ev : InputEvent) :
    (relspeed.modify ev).Obeys (fun _ => True) fun x => x.1.xmod = relspeed.xmod ∧ x.1.ymod = relspeed.ymod := by
  unfold Relspeed.modify
  split
  · exact ⟨rfl, rfl⟩
  split
  · split
    · exact ⟨trivial, fun _ => ⟨rfl, rfl⟩⟩
    · exact ⟨rfl, rfl⟩
  split
  · split
    · exact ⟨trivial, fun _ => ⟨rfl, rfl⟩⟩
    · exact ⟨rfl, rfl⟩
  · exact ⟨trivial, fun _ => ⟨rfl, rfl⟩⟩

theorem Rel2scroll.modify_mods (data : Rel2scroll) (ev : InputEvent) :
    (data.modify ev).Obeys (fun _ => True) fun x => x.1.xmod = data.xmod ∧ x.1.ymod = data.ymod := by
  simp only [Rel2scroll.modify]
  split
  · exact ⟨rfl, rfl⟩
  split
  · exact ⟨rfl, rfl⟩
  split
  · split
    · exact ⟨trivial, fun _ => ⟨rfl, rfl⟩⟩
    · exact ⟨rfl, rfl⟩
  split
  · split
    · exact ⟨trivial, fun _ => ⟨rfl, rfl⟩⟩
    · exact ⟨rfl, rfl⟩
  · exact ⟨trivial, fun _ => ⟨rfl, rfl⟩⟩

theorem Filter.modify_divisorsOk (f : Filter) (ev : InputEvent) :
    (f.modify ev).Obeys (fun _ => True) fun x => x.1.DivisorsOk ↔ f.DivisorsOk := by
  cases f with
  | speedMod data =>
      refine (data.modify_mods ev).bind fun x hx => ?_
      simp only [Proc.pure_eq, Proc.Obeys, DivisorsOk, hx.1, hx.2]
  | rel2scroll data =>
      refine (data.modify_mods ev).bind fun x hx => ?_
      simp only [Proc.pure_eq, Proc.Obeys, DivisorsOk, hx.1, hx.2]
  | _ => exact (Proc.obeys_calls _).bind fun _ _ => Iff.rfl

/-- SpeedMod does not divide INT_MIN, as its `abs` is not large enough. -/
theorem slowDownTraps_zero {sum mod : Int32} (h : slowDownTraps sum mod) : mod = 0 := by
  obtain ⟨hlarge, hzero | ⟨rfl, rfl⟩⟩ := h
  · exact hzero
  · exact absurd hlarge (by decide)

theorem Filter.DivisorsOk.not_traps (h : f.DivisorsOk) (ev : InputEvent) : ¬ f.Traps ev := by
  cases f with
  | speedMod data =>
      rintro ⟨-, ⟨-, hx⟩ | ⟨-, hy⟩⟩
      · exact h.1 (slowDownTraps_zero hx)
      · exact h.2 (slowDownTraps_zero hy)
  | rel2scroll data =>
      rintro ⟨-, -, ⟨-, hx⟩ | ⟨-, hy⟩⟩
      · exact hx.elim h.1.1 fun hmin => h.1.2 hmin.2
      · exact hy.elim h.2.1 fun hmin => h.2.2 hmin.2
  | _ => exact id

/-! ## Lines -/

theorem DivisorsOk.process (h : DivisorsOk n line) (ev : InputEvent) : DivisorsOk n (process n ev line).2 := by
  induction n generalizing ev with
  | zero => trivial
  | succ n ih =>
      obtain ⟨f, line⟩ := line
      refine ⟨((f.modify_divisorsOk ev).drive (Filters.process n) line).mpr h.1, ?_⟩
      rw [Proc.drive_snd]
      exact Proc.feed_invariant h.2 fun hb _ => ih hb _

theorem DivisorsOk.everyCall (h : DivisorsOk n line) (ev : InputEvent) :
    EveryCall (fun f _ ev => ¬ f.Traps ev) n line ev := by
  induction n generalizing ev with
  | zero => trivial
  | succ n ih =>
      obtain ⟨f, line⟩ := line
      refine ⟨h.1.not_traps ev, ?_⟩
      exact Proc.each_invariant h.2 (fun hb _ => hb.process _) fun hb _ => ih hb _

/-- No call stops the program. -/
theorem DivisorsOk.never_traps (h : DivisorsOk n line) (evs : List InputEvent) :
    Proc.Each (Filters.process n) (EveryCall (fun f _ ev => ¬ f.Traps ev) n) line evs :=
  Proc.each_invariant h (fun hb _ => hb.process _) fun hb _ => hb.everyCall _

end Evfilter.Filters
