import Evfilter.Filters.Lemmas.Direct
import Evfilter.Lib.Transducer

/-!
# Filters as transducers

A filter answers each event with the calls of the next filter's `modify`. Those that do nothing after such a call can be
looked at on their own, whatever is behind them.
-/

namespace Evfilter.Filters
open Lib

variable {F β : Type}

/-- A filter, and what is behind it. -/
def driven (modify : F → InputEvent → Modify (F × InputEvent)) (next : InputEvent → β → InputEvent × β) :
    Transducer (F × β) InputEvent InputEvent where
  step := fun s ev =>
    let after := (modify s.1 ev).drive next s.2
    ((after.1.1, after.2), (modify s.1 ev).calls next s.2)

/-- In front of a filter that records the events and leaves them as they are. -/
def alone (modify : F → InputEvent → Modify (F × InputEvent)) : Transducer F InputEvent InputEvent where
  step := fun f ev =>
    let after := (modify f ev).drive (Proc.record id) []
    (after.1.1, after.2)

variable {modify : F → InputEvent → Modify (F × InputEvent)} {next : InputEvent → β → InputEvent × β} {f : F} {b : β}
  {ev : InputEvent} {evs : List InputEvent}

theorem driven_step (hlast : SendsLast ev (modify f ev)) :
    ((driven modify next).step (f, b) ev).1.1 = ((alone modify).step f ev).1 ∧
      ((driven modify next).step (f, b) ev).2 = ((alone modify).step f ev).2 := by
  obtain ⟨d, ev', -, h | ⟨h, -⟩⟩ := hlast
  · simp only [driven, alone, h]
    exact ⟨rfl, rfl⟩
  · simp only [driven, alone, h]
    exact ⟨rfl, rfl⟩

variable (next) in
/-- What is behind the filter makes no difference. -/
theorem driven_simulates {τ κ μ : Type} {U : Transducer τ κ μ} {J : F → Prop} {view : F → τ}
    {take : InputEvent → Option κ} {see : InputEvent → Option μ} (hlast : ∀ f ev, SendsLast ev (modify f ev))
    (h : (alone modify).Simulates U J view take see) :
    (driven modify next).Simulates U (fun s => J s.1) (fun s => view s.1) take see where
  keep := by
    rintro ⟨f, b⟩ ev hf
    rw [(driven_step (hlast f ev)).1]
    exact h.keep f ev hf
  taken := by
    rintro ⟨f, b⟩ ev k hf htake
    rw [(driven_step (hlast f ev)).1, (driven_step (hlast f ev)).2]
    exact h.taken f ev k hf htake
  left := by
    rintro ⟨f, b⟩ ev hf hleft
    rw [(driven_step (hlast f ev)).1, (driven_step (hlast f ev)).2]
    exact h.left f ev hf hleft

theorem simulates_self {σ ι ω : Type} (T : Transducer σ ι ω) : T.Simulates T (fun _ => True) id some some where
  keep := fun _ _ _ => trivial
  taken := by
    rintro s i _ - ⟨⟩
    exact ⟨rfl, List.filterMap_some⟩
  left := by simp

variable (next) in
theorem driven_self (hlast : ∀ f ev, SendsLast ev (modify f ev)) :
    (driven modify next).Simulates (alone modify) (fun _ => True) Prod.fst some some :=
  driven_simulates next hlast (simulates_self (alone modify))

theorem driven_state (hlast : ∀ f ev, SendsLast ev (modify f ev)) :
    ((driven modify next).state (f, b) evs).1 = (alone modify).state f evs := by
  rw [(driven_self next hlast).state trivial, List.filterMap_some]

theorem driven_outputs (hlast : ∀ f ev, SendsLast ev (modify f ev)) :
    (driven modify next).outputs (f, b) evs = (alone modify).outputs f evs := by
  have h : ((driven modify next).outputs (f, b) evs).filterMap some = _ := (driven_self next hlast).outputs trivial
  rwa [List.filterMap_some, List.filterMap_some] at h

/-- What is sent for the next event. -/
theorem driven_answer (hlast : ∀ f ev, SendsLast ev (modify f ev)) :
    ((driven modify next).step ((driven modify next).state (f, b) evs) ev).2 =
      ((alone modify).step ((alone modify).state f evs) ev).2 := by
  rw [← driven_state hlast]
  exact (driven_step (hlast _ ev)).2

theorem driven_along {C : F → InputEvent → Prop} (hlast : ∀ f ev, SendsLast ev (modify f ev)) :
    (driven modify next).Along (fun s ev => C s.1 ev) (f, b) evs ↔ (alone modify).Along C f evs :=
  Transducer.along_view fun s ev => (driven_step (hlast s.1 ev)).1

end Evfilter.Filters
