import Evfilter.Filters.Stream

/-!
# Flags for dropping a SYN_REPORT

A filter that drops events has a flag for dropping the SYN_REPORT that comes after them. Either an event that is sent
clears the flag, or it stays on until the report.
-/

namespace Evfilter.Filters
open Lib

/-- Events, and the SYN_REPORT that ends them. -/
structure EventPacket where
  events : List InputEvent
  report : InputEvent
  noSyn : ∀ ev ∈ events, ev.type ≠ evSyn
  isReport : report.type = evSyn ∧ report.code = synReport

def EventPacket.all (p : EventPacket) : List InputEvent := p.events ++ [p.report]

section
variable {σ : Type} (T : Transducer σ InputEvent InputEvent)

def dropped (s : σ) (ev : InputEvent) : Prop := (T.step s ev).2 = []

/-- What is sent for the report of a packet that is taken in this state. -/
def reportAnswer (s : σ) (p : EventPacket) : List InputEvent := (T.step (T.state s p.events) p.report).2

/-- The report is sent if an event of the packet was, and dropped if the packet had events and all of them were. -/
def Syncs (s : σ) (p : EventPacket) : Prop :=
  (T.outputs s p.events ≠ [] → reportAnswer T s p = [p.report]) ∧
    (p.events ≠ [] → T.outputs s p.events = [] → reportAnswer T s p = [])

/-- The report is dropped only with all the events of the packet. -/
def KeepsReport (s : σ) (p : EventPacket) : Prop :=
  reportAnswer T s p = [p.report] ∨ reportAnswer T s p = [] ∧ p.events ≠ [] ∧ T.outputs s p.events = []

instance (s : σ) (p : EventPacket) : Decidable (Syncs T s p) := inferInstanceAs (Decidable (_ ∧ _))

instance (s : σ) (p : EventPacket) : Decidable (KeepsReport T s p) := inferInstanceAs (Decidable (_ ∨ _))

/-- In a state with the flag, reports that are `eaten` are dropped. No report leaves the flag on. -/
structure Flags (flag : σ → Bool) (eaten : InputEvent → Bool) : Prop where
  cleared : ∀ s ev, ev.type = evSyn ∧ ev.code = synReport → flag (T.step s ev).1 = false
  answer : ∀ s ev, ev.type = evSyn ∧ ev.code = synReport → (T.step s ev).2 = if flag s && eaten ev then [] else [ev]

/-- The flag is put on by an event that is dropped, and stays on. -/
structure Sticky (flag : σ → Bool) : Prop extends Flags T flag fun _ => true where
  mark : ∀ s ev, ev.type ≠ evSyn → flag (T.step s ev).1 = (flag s || (T.step s ev).2.isEmpty)

/-- The flag tells whether the last event was dropped. -/
structure Momentary (flag : σ → Bool) (eaten : InputEvent → Bool) : Prop extends Flags T flag eaten where
  mark : ∀ s ev, ev.type ≠ evSyn → flag (T.step s ev).1 = (T.step s ev).2.isEmpty

end

/-! ## Conditions on packets -/

/-- Either all of these events are `R`, or none is. -/
def AllOrNone (R : List InputEvent → InputEvent → Prop) (received evs : List InputEvent) : Prop :=
  Transducer.history.Along R received evs ∨ Transducer.history.Along (fun received ev => ¬ R received ev) received evs

/-- If the last of these events is `R`, all of them are. -/
def AllIfLast (R : List InputEvent → InputEvent → Prop) (received evs : List InputEvent) : Prop :=
  ∀ before ev, evs = before ++ [ev] → R (received ++ before) ev → Transducer.history.Along R received before

section
variable {σ : Type} {T : Transducer σ InputEvent InputEvent} {flag : σ → Bool} {eaten : InputEvent → Bool} {s : σ}
  {p : EventPacket} {ps : List EventPacket} {evs received : List InputEvent}
  {R : List InputEvent → InputEvent → Prop}

theorem Flags.report (h : Flags T flag eaten) :
    reportAnswer T s p = if flag (T.state s p.events) && eaten p.report then [] else [p.report] :=
  h.answer _ _ p.isReport

theorem Flags.packet (h : Flags T flag eaten) : flag ((T.batch EventPacket.all).step s p).1 = false := by
  have hstate : ((T.batch EventPacket.all).step s p).1 = (T.step (T.state s p.events) p.report).1 :=
    Transducer.state_concat
  rw [hstate]
  exact h.cleared _ _ p.isReport

/-- Packets meet a state without the flag. -/
theorem Flags.along_congr {C D : σ → EventPacket → Prop} (h : Flags T flag eaten) (hs : flag s = false)
    (hagree : ∀ t p, flag t = false → (C t p ↔ D t p)) :
    (T.batch EventPacket.all).Along C s ps ↔ (T.batch EventPacket.all).Along D s ps :=
  Transducer.Along.congr hs (fun _ _ _ => h.packet) hagree

theorem Sticky.flag_state (h : Sticky T flag) (hevs : ∀ ev ∈ evs, ev.type ≠ evSyn) :
    flag (T.state s evs) = true ↔ flag s = true ∨ ¬ T.Along (fun t ev => ¬ dropped T t ev) s evs := by
  induction evs generalizing s with
  | nil => simp [Transducer.state, Transducer.Along]
  | cons ev evs ih =>
      obtain ⟨hev, hevs⟩ := List.forall_mem_cons.mp hevs
      rw [Transducer.state, ih hevs, h.mark s ev hev, Bool.or_eq_true, List.isEmpty_iff, Transducer.Along, or_assoc]
      refine or_congr_right ?_
      rw [not_and_or, not_not]
      rfl

theorem Momentary.flag_state (h : Momentary T flag eaten) (hs : flag s = false) (hevs : ∀ ev ∈ evs, ev.type ≠ evSyn) :
    flag (T.state s evs) = true ↔ ∃ before ev, evs = before ++ [ev] ∧ dropped T (T.state s before) ev := by
  rcases List.eq_nil_or_concat evs with rfl | ⟨before, ev, rfl⟩
  · simp [Transducer.state, hs]
  · rw [List.concat_eq_append] at hevs ⊢
    rw [Transducer.state_concat, h.mark _ ev (hevs ev (by simp)), List.isEmpty_iff]
    constructor
    · exact fun hdrop => ⟨before, ev, rfl, hdrop⟩
    · rintro ⟨before', ev', heq, hdrop⟩
      obtain ⟨rfl, rfl⟩ := List.concat_inj.mp (by simpa using heq)
      exact hdrop

theorem dropped_all : T.outputs s evs = [] ↔ T.Along (dropped T) s evs := Transducer.outputs_eq_nil

/-- Both hold of no events only. -/
theorem dropped_all_none (hall : T.Along (dropped T) s evs) (hnone : T.Along (fun t ev => ¬ dropped T t ev) s evs) :
    evs = [] := by
  cases evs with
  | nil => rfl
  | cons ev evs => exact absurd hall.1 hnone.1

/-- Whether the report of the packet is dropped. -/
def onReport (T : Transducer σ InputEvent InputEvent) (flag : σ → Bool) (eaten : InputEvent → Bool) (s : σ)
    (p : EventPacket) : Prop := flag (T.state s p.events) = true ∧ eaten p.report = true

theorem Flags.report_dropped (h : Flags T flag eaten) (hon : onReport T flag eaten s p) : reportAnswer T s p = [] := by
  rw [h.report, hon.1, hon.2]
  rfl

theorem Flags.report_sent (h : Flags T flag eaten) (hoff : ¬ onReport T flag eaten s p) :
    reportAnswer T s p = [p.report] := by
  rw [h.report, if_neg fun hon => hoff (Bool.and_eq_true_iff.mp hon)]

theorem Flags.syncs_iff (h : Flags T flag eaten)
    (hall : p.events ≠ [] → T.Along (dropped T) s p.events → onReport T flag eaten s p) :
    Syncs T s p ↔ (onReport T flag eaten s p → T.Along (dropped T) s p.events) := by
  rw [Syncs, dropped_all]
  constructor
  · rintro ⟨hsent, -⟩ hon
    by_contra hsome
    exact List.cons_ne_nil _ _ ((hsent (mt dropped_all.mp hsome)).symm.trans (h.report_dropped hon))
  · intro hon
    refine ⟨fun hsome => h.report_sent fun h => hsome (dropped_all.mpr (hon h)), fun hne hdrop => ?_⟩
    exact h.report_dropped (hall hne hdrop)

theorem Flags.keepsReport_iff (h : Flags T flag eaten) (hs : flag s = false) :
    KeepsReport T s p ↔ (onReport T flag eaten s p → T.Along (dropped T) s p.events) := by
  rw [KeepsReport, dropped_all]
  constructor
  · rintro (hsent | ⟨-, -, hall⟩) hon
    · exact absurd (hsent.symm.trans (h.report_dropped hon)) (List.cons_ne_nil _ _)
    · exact hall
  · intro hall
    by_cases hon : onReport T flag eaten s p
    · refine Or.inr ⟨h.report_dropped hon, fun hnil => ?_, hall hon⟩
      -- the flag is off before the packet
      have hflag := hon.1
      rw [hnil, Transducer.state, hs] at hflag
      exact Bool.false_ne_true hflag
    · exact Or.inl (h.report_sent hon)

/-- What a sticky flag comes to: all events of the packet were dropped, or none. -/
theorem Sticky.onReport_iff (h : Sticky T flag) (hs : flag s = false) : onReport T flag (fun _ => true) s p ↔
    ¬ T.Along (fun t ev => ¬ dropped T t ev) s p.events := by
  rw [onReport, h.flag_state p.noSyn, hs]
  simp

theorem Sticky.syncs_iff (h : Sticky T flag) (hs : flag s = false) : Syncs T s p ↔
    T.Along (dropped T) s p.events ∨ T.Along (fun t ev => ¬ dropped T t ev) s p.events := by
  have hon := h.onReport_iff (p := p) hs
  rw [h.toFlags.syncs_iff fun hne hall => hon.mpr fun hnone => hne (dropped_all_none hall hnone), hon]
  exact or_iff_not_imp_right.symm

theorem Sticky.keepsReport_iff (h : Sticky T flag) (hs : flag s = false) : KeepsReport T s p ↔
    T.Along (dropped T) s p.events ∨ T.Along (fun t ev => ¬ dropped T t ev) s p.events := by
  rw [h.toFlags.keepsReport_iff hs, h.onReport_iff hs]
  exact or_iff_not_imp_right.symm

theorem Momentary.onReport_iff (h : Momentary T flag eaten) (hs : flag s = false) :
    onReport T flag eaten s p ↔
      (∃ before ev, p.events = before ++ [ev] ∧ dropped T (T.state s before) ev) ∧ eaten p.report = true := by
  rw [onReport, h.flag_state hs p.noSyn]

/-- The last event was dropped, and so were those before it. -/
theorem all_if_last {P : Prop} :
    ((∃ before ev, evs = before ++ [ev] ∧ dropped T (T.state s before) ev) ∧ P → T.Along (dropped T) s evs) ↔
      (P → ∀ before ev, evs = before ++ [ev] → dropped T (T.state s before) ev → T.Along (dropped T) s before) := by
  constructor
  · rintro hall hP before ev rfl hlast
    exact (Transducer.along_append.mp (hall ⟨⟨before, ev, rfl, hlast⟩, hP⟩)).1
  · rintro hall ⟨⟨before, ev, rfl, hlast⟩, hP⟩
    exact Transducer.along_append.mpr ⟨hall hP before ev rfl hlast, hlast, trivial⟩

theorem Momentary.syncs_iff (h : Momentary T flag fun _ => true) (hs : flag s = false) : Syncs T s p ↔
    ∀ before ev, p.events = before ++ [ev] → dropped T (T.state s before) ev → T.Along (dropped T) s before := by
  have hon := h.onReport_iff (p := p) hs
  have hlast : p.events ≠ [] → T.Along (dropped T) s p.events → onReport T flag (fun _ => true) s p := by
    intro hne hall
    obtain ⟨before, ev, heq⟩ := (List.eq_nil_or_concat p.events).resolve_left hne
    rw [hon, heq]
    rw [heq, List.concat_eq_append] at hall
    exact ⟨⟨before, ev, List.concat_eq_append, (Transducer.along_append.mp hall).2.1⟩, rfl⟩
  rw [h.toFlags.syncs_iff hlast, hon, all_if_last]
  exact forall_prop_of_true rfl

theorem Momentary.keepsReport_iff (h : Momentary T flag eaten) (hs : flag s = false) : KeepsReport T s p ↔
    (eaten p.report = true → ∀ before ev, p.events = before ++ [ev] → dropped T (T.state s before) ev →
      T.Along (dropped T) s before) := by
  rw [h.toFlags.keepsReport_iff hs, h.onReport_iff hs, all_if_last]

/-! ## Runs -/

/-- What is dropped is known from what has been received. -/
def Drops (T : Transducer σ InputEvent InputEvent) (s : σ) (R : List InputEvent → InputEvent → Prop) : Prop :=
  ∀ received ev, ev.type ≠ evSyn → (dropped T (T.state s received) ev ↔ R received ev)

theorem Drops.along (h : Drops T s R) (hevs : ∀ ev ∈ evs, ev.type ≠ evSyn) :
    T.Along (dropped T) (T.state s received) evs ↔ Transducer.history.Along R received evs := by
  rw [← Transducer.along_history]
  exact Transducer.along_congr fun received ev hev => h received ev (hevs ev hev)

theorem Drops.along_not (h : Drops T s R) (hevs : ∀ ev ∈ evs, ev.type ≠ evSyn) :
    T.Along (fun t ev => ¬ dropped T t ev) (T.state s received) evs ↔
      Transducer.history.Along (fun received ev => ¬ R received ev) received evs := by
  rw [← Transducer.along_history]
  exact Transducer.along_congr fun received ev hev => not_congr (h received ev (hevs ev hev))

theorem Drops.allOrNone (h : Drops T s R) : T.Along (dropped T) (T.state s received) p.events ∨
    T.Along (fun t ev => ¬ dropped T t ev) (T.state s received) p.events ↔ AllOrNone R received p.events :=
  or_congr (h.along p.noSyn) (h.along_not p.noSyn)

theorem Drops.allIfLast (h : Drops T s R) :
    (∀ before ev, p.events = before ++ [ev] → dropped T (T.state (T.state s received) before) ev →
      T.Along (dropped T) (T.state s received) before) ↔ AllIfLast R received p.events := by
  refine forall₃_congr fun before ev heq => ?_
  have hsyn := p.noSyn
  rw [heq, List.forall_mem_append, List.forall_mem_singleton] at hsyn
  rw [← Transducer.state_append, h _ ev hsyn.2, h.along hsyn.1]

/-- From packets in a state without the flag to all packets of a run. -/
theorem Flags.run_iff {C D : σ → EventPacket → Prop} {Q : List InputEvent → EventPacket → Prop}
    (h : Flags T flag eaten) (hs : flag s = false) (hC : ∀ t p, flag t = false → (C t p ↔ D t p))
    (hD : ∀ received p, D (T.state s received) p ↔ Q received p) :
    (T.batch EventPacket.all).Along C s ps ↔ (Transducer.history.batch EventPacket.all).Along Q [] ps := by
  rw [h.along_congr hs hC]
  have hseen : (Transducer.history.batch EventPacket.all).Along (fun received p => D (T.state s received) p) [] ps ↔
      (T.batch EventPacket.all).Along D s ps := Transducer.batch_along_history
  exact hseen.symm.trans (Transducer.along_congr fun _ _ _ => hD _ _)

end

section
variable {F β : Type} {modify : F → InputEvent → Modify (F × InputEvent)} {next : InputEvent → β → InputEvent × β}
  {flag : F → Bool} {eaten : InputEvent → Bool} {f : F} {b : β} {R : List InputEvent → InputEvent → Prop}

theorem Flags.driven (hlast : ∀ f ev, SendsLast ev (modify f ev)) (h : Flags (alone modify) flag eaten) :
    Flags (driven modify next) (fun s => flag s.1) eaten where
  cleared := fun s ev hev => by
    rw [(driven_step (hlast s.1 ev)).1]
    exact h.cleared s.1 ev hev
  answer := fun s ev hev => by
    rw [(driven_step (hlast s.1 ev)).2]
    exact h.answer s.1 ev hev

variable (next) in
theorem Sticky.driven (hlast : ∀ f ev, SendsLast ev (modify f ev)) (h : Sticky (alone modify) flag) :
    Sticky (driven modify next) fun s => flag s.1 where
  toFlags := h.toFlags.driven hlast
  mark := fun s ev hev => by
    rw [(driven_step (hlast s.1 ev)).1, (driven_step (hlast s.1 ev)).2]
    exact h.mark s.1 ev hev

variable (next) in
theorem Momentary.driven (hlast : ∀ f ev, SendsLast ev (modify f ev)) (h : Momentary (alone modify) flag eaten) :
    Momentary (driven modify next) (fun s => flag s.1) eaten where
  toFlags := h.toFlags.driven hlast
  mark := fun s ev hev => by
    rw [(driven_step (hlast s.1 ev)).1, (driven_step (hlast s.1 ev)).2]
    exact h.mark s.1 ev hev

theorem Drops.driven (hlast : ∀ f ev, SendsLast ev (modify f ev)) (h : Drops (alone modify) f R) :
    Drops (driven modify next) (f, b) R := by
  intro received ev hev
  rw [dropped, driven_answer hlast]
  exact h received ev hev

end

theorem isEmpty_sent {f : Int32 → InputEvent} {o : Option Int32} : (o.toList.map f).isEmpty = o.isNone := by
  cases o <;> rfl

end Evfilter.Filters
