import Evfilter.Filters.Line

/-!
# Filters in front of anything

The filters of a line in front of a callee of any kind: what is left of the line, a commit function, another line behind
a handle. Callees that answer alike cannot be told apart from the filters in front of them.
-/

namespace Evfilter.Filters
open Lib

/-- `n` filters, without what is behind them. -/
def Front : Nat → Type
  | 0 => Unit
  | n + 1 => Filter × Front n

def Front.ofList : (fs : List Filter) → Front fs.length
  | [] => ()
  | f :: fs => (f, ofList fs)

variable {β β' : Type}

/-- `modify` of the first of the filters, with the callee behind the last one. -/
def processOn (next : InputEvent → β → InputEvent × β) :
    (n : Nat) → InputEvent → Front n × β → InputEvent × (Front n × β)
  | 0, ev, (_, b) => ((next ev b).1, ((), (next ev b).2))
  | n + 1, ev, ((f, fs), b) =>
    let after := (f.modify ev).drive (processOn next n) (fs, b)
    (after.1.2, ((after.1.1, after.2.1), after.2.2))

/-- No filter divides where the processor stops the program, while they process an event. -/
def Untrapped (next : InputEvent → β → InputEvent × β) : (n : Nat) → Front n × β → InputEvent → Prop
  | 0, _, _ => True
  | n + 1, ((f, fs), b), ev => ¬ f.Traps ev ∧
    Proc.Each (processOn next n) (Untrapped next n) (fs, b) ((f.modify ev).calls (processOn next n) (fs, b))

instance decidableUntrapped (next : InputEvent → β → InputEvent × β) :
    (n : Nat) → (s : Front n × β) → (ev : InputEvent) → Decidable (Untrapped next n s ev)
  | 0, _, _ => isTrue trivial
  | n + 1, ((f, fs), b), ev =>
    have := decidableUntrapped next n
    inferInstanceAs (Decidable (¬ f.Traps ev ∧ Proc.Each _ (Untrapped next n) (fs, b) _))

/-- The line with a commit filter behind the last filter. -/
def Front.line : (n : Nat) → Front n → List InputEvent → Line n
  | 0, _, out => out
  | n + 1, (f, fs), out => (f, line n fs out)

variable {next : InputEvent → β → InputEvent × β} {next' : InputEvent → β' → InputEvent × β'} {n : Nat}
  {fs : Front n} {b : β} {b' : β'} {out : List InputEvent} {R : β → β' → Prop}

/-- Callees that answer alike and stay related. -/
def AnswerAlike (R : β → β' → Prop) (next : InputEvent → β → InputEvent × β)
    (next' : InputEvent → β' → InputEvent × β') : Prop :=
  ∀ ev b b', R b b' → (next ev b).1 = (next' ev b').1 ∧ R (next ev b).2 (next' ev b').2

/-- With the same filters in front of them. -/
def SameFront (R : β → β' → Prop) (s : Front n × β) (s' : Front n × β') : Prop := s.1 = s'.1 ∧ R s.2 s'.2

/-- The filters in front of callees that answer alike answer alike. -/
theorem AnswerAlike.behind (h : AnswerAlike R next next') (n : Nat) :
    AnswerAlike (SameFront (n := n) R) (processOn next n) (processOn next' n) := by
  induction n with
  | zero =>
      rintro ev ⟨_, b⟩ ⟨_, b'⟩ ⟨-, hb⟩
      exact ⟨(h ev b b' hb).1, rfl, (h ev b b' hb).2⟩
  | succ n ih =>
      rintro ev ⟨⟨f, fs⟩, b⟩ ⟨⟨f', fs'⟩, b'⟩ ⟨hfs, hb⟩
      obtain ⟨rfl, rfl⟩ := Prod.mk.inj hfs
      have hbehind : SameFront R (fs, b) (fs, b') := ⟨rfl, hb⟩
      obtain ⟨hend, hfs', hb'⟩ := Proc.drive_related ih (f.modify ev) hbehind
      simp only [processOn]
      exact ⟨congrArg Prod.snd hend, congrArg₂ Prod.mk (congrArg Prod.fst hend) hfs', hb'⟩

/-- A stream through the filters. -/
theorem AnswerAlike.feed (h : AnswerAlike R next next') (evs : List InputEvent) (hb : R b b') :
    R (Proc.feed next evs b) (Proc.feed next' evs b') := by
  induction evs generalizing b b' with
  | nil => exact hb
  | cons ev evs ih => exact ih (h ev b b' hb).2

/-! ## A commit filter behind -/

theorem committed_line : committed n (Front.line n fs out) = out := by
  induction n with
  | zero => rfl
  | succ n ih => exact ih

/-- `process` is the case of a callee that keeps what it gets. -/
theorem process_alike (n : Nat) : AnswerAlike (fun (s : Front n × List InputEvent) line => line = Front.line n s.1 s.2)
    (processOn (Proc.record id) n) (process n) := by
  induction n with
  | zero =>
      rintro ev ⟨_, out⟩ line rfl
      exact ⟨rfl, rfl⟩
  | succ n ih =>
      rintro ev ⟨⟨f, fs⟩, out⟩ line rfl
      obtain ⟨hend, hline⟩ := Proc.drive_related ih (f.modify ev) (b := (fs, out)) rfl
      refine ⟨congrArg Prod.snd hend, ?_⟩
      change (((f.modify ev).drive (process n) (Front.line n fs out)).1.1, _) = (_, _)
      rw [← hend, hline]
      rfl

end Evfilter.Filters
