import Evfilter.Filters.Lemmas.Lines
import Evfilter.Filters.Packets
import Evfilter.Filters.Remainders

/-!
# Strokes

Abs2Rel turns the positions of a pen into movement. It sends the movement in the EV_SYN that it has got, and that event
once more than there is movement.
-/

namespace Evfilter.Filters
open Lib

/-! ## What is behind the filter -/

/-- Filters that are quiet behind an Abs2Rel. -/
structure Behind where
  State : Type
  next : InputEvent → State → InputEvent × State
  Quiet : State → Prop
  answers : ∀ ev b, ev.type ≠ evAbs → Quiet b → QuietAnswer ev (next ev b).1 ∧ Quiet (next ev b).2

def Behind.line (n : Nat) : Behind where
  State := Line n
  next := process n
  Quiet := NoAbs n
  answers := fun _ _ hev hb => hb.process hev

/-! ## A reference for the conversion -/

/-- A stroke can begin after these events. -/
def EndsPenUp (before : List InputEvent) : Prop := ∀ ev ∈ before.getLast?, ev.IsPenUp

instance (before : List InputEvent) : Decidable (EndsPenUp before) := inferInstanceAs (Decidable (∀ _ ∈ _, _))

/-- The positions on an axis. -/
def positions (code : UInt16) (evs : List InputEvent) : List Int32 :=
  evs.filterMap fun ev => if ev.type = evAbs ∧ ev.code = code then some ev.value else none

/-- From the first position to the last one. -/
def distance (code : UInt16) (evs : List InputEvent) : Int :=
  match (positions code evs).head?, (positions code evs).getLast? with
  | some first, some last => last.toInt - first.toInt
  | _, _ => 0

/-- At each SYN_REPORT the movement is sent before one SYN_REPORT, and it adds up to the distance in the stroke. Movement
is what an EV_SYN sends in front of what it sends at the start. -/
structure Converts {σ : Type} (T : Transducer σ InputEvent InputEvent) (s : σ) (evs : List InputEvent) : Prop where
  packets : ∀ before syn after, evs = before ++ syn :: after → syn.isReport → ∃ moves report,
    (T.step (T.state s before) syn).2 = moves ++ [report] ∧ (∀ e ∈ moves, e.type = evRel) ∧ report.isReport
  moves : ∀ before syn after, evs = before ++ syn :: after → syn.type = evSyn → ∃ moves,
    (T.step (T.state s before) syn).2 = moves ++ (T.step s syn).2 ∧ ∀ e ∈ moves, e.type = evRel
  distances : ∀ before drawn syn after, evs = before ++ drawn ++ syn :: after → EndsPenUp before →
    (∀ ev ∈ drawn, ¬ ev.IsPenUp) → syn.isReport →
    movement relX (T.outputs (T.state s before) (drawn ++ [syn])) = distance absX drawn ∧
      movement relY (T.outputs (T.state s before) (drawn ++ [syn])) = distance absY drawn

/-- The events since the pen was last up. -/
def stroke (before : List InputEvent) : List InputEvent :=
  (before.reverse.takeWhile fun ev => ¬ ev.IsPenUp).reverse

/-- No axis has had two positions since the pen was up. -/
def Still (before : List InputEvent) : Prop :=
  (positions absX (stroke before)).length < 2 ∧ (positions absY (stroke before)).length < 2

variable {B : Behind} {data : Abs2rel} {ev : InputEvent} {evs before : List InputEvent} {code : UInt16}

theorem stroke_concat : stroke (before ++ [ev]) = if ev.IsPenUp then [] else stroke before ++ [ev] := by
  unfold stroke
  by_cases h : ev.IsPenUp <;> simp [h]

theorem positions_concat {evs : List InputEvent} :
    positions code (evs ++ [ev]) = positions code evs ++ if ev.type = evAbs ∧ ev.code = code then [ev.value] else [] := by
  rw [positions, List.filterMap_append]
  congr 1
  by_cases h : ev.type = evAbs ∧ ev.code = code <;> simp [h]

theorem positions_stroke : positions code (stroke (before ++ [ev])) = if ev.IsPenUp then [] else
    positions code (stroke before) ++ if ev.type = evAbs ∧ ev.code = code then [ev.value] else [] := by
  rw [stroke_concat]
  split
  · rfl
  · exact positions_concat

/-! ## Runs -/

theorem Abs2rel.driven_step {b : B.State} (hb : B.Quiet b) :
    ((driven Abs2rel.modify B.next).step (data, b) ev).2 = data.sent ev ∧
    ((driven Abs2rel.modify B.next).step (data, b) ev).1.1 = data.next ev ∧
      B.Quiet ((driven Abs2rel.modify B.next).step (data, b) ev).1.2 := by
  obtain ⟨hcalls, hnext, hquiet⟩ := (data.modify_makes ev).run B.next (I := B.Quiet)
    (fun c hc b hb => B.answers c b (data.sent_noAbs c hc) hb) hb
  exact ⟨hcalls, hnext.1, hquiet⟩

theorem Abs2rel.quiet_state {b : B.State} (hb : B.Quiet b) :
    B.Quiet ((driven Abs2rel.modify B.next).state (data, b) evs).2 :=
  Transducer.invariant (J := fun s : Abs2rel × B.State => B.Quiet s.2) hb fun _ _ ht => (driven_step ht).2.2

/-- The positions of an axis in the stroke are counted up to two. -/
def countPositions (code : UInt16) (before : List InputEvent) : Int32 :=
  Int32.ofNat (min 2 (positions code (stroke before)).length)

theorem countPositions_two : countPositions code before = 2 ↔ ¬ (positions code (stroke before)).length < 2 := by
  unfold countPositions
  have hcases : min 2 (positions code (stroke before)).length = 0 ∨ min 2 (positions code (stroke before)).length = 1 ∨
    min 2 (positions code (stroke before)).length = 2 := by omega
  rcases hcases with h | h | h <;> rw [h]
  · exact iff_of_false (by decide) (by omega)
  · exact iff_of_false (by decide) (by omega)
  · exact iff_of_true rfl (by omega)

theorem incif_count (n : Nat) : incif (Int32.ofNat (min 2 n)) = Int32.ofNat (min 2 (n + 1)) := by
  have hcases : n = 0 ∨ n = 1 ∨ min 2 n = 2 ∧ min 2 (n + 1) = 2 := by omega
  rcases hcases with rfl | rfl | ⟨h, h'⟩
  · rfl
  · rfl
  · rw [h, h']
    rfl

theorem countPositions_concat : countPositions code (before ++ [ev]) = if ev.IsPenUp then 0 else
    if ev.type = evAbs ∧ ev.code = code then incif (countPositions code before) else countPositions code before := by
  unfold countPositions
  rw [positions_stroke]
  split
  · rfl
  · split
    · rw [List.length_append, incif_count]
      rfl
    · rw [List.append_nil]

/-- What the states of the axes are. -/
structure Abs2rel.Counts (data : Abs2rel) (before : List InputEvent) : Prop where
  x : data.xstate = countPositions absX before
  y : data.ystate = countPositions absY before

theorem Abs2rel.next_states (data : Abs2rel) (ev : InputEvent) :
    (data.next ev).xstate = (if ev.IsPenUp then 0 else
      if ev.type = evAbs ∧ ev.code = absX then incif data.xstate else data.xstate) ∧
    (data.next ev).ystate = (if ev.IsPenUp then 0 else
      if ev.type = evAbs ∧ ev.code = absY then incif data.ystate else data.ystate) := by
  have hcodes : absX ≠ absY ∧ absX ≠ absPressure ∧ absY ≠ absPressure := by decide
  have hpressure : absPressure ≠ absX ∧ absPressure ≠ absY := by decide
  unfold Abs2rel.next Abs2rel.update InputEvent.IsPenUp
  by_cases htype : ev.type = evAbs
  · by_cases hx : ev.code = absX
    · simp [htype, hx, hcodes]
    · by_cases hy : ev.code = absY
      · simp [htype, hy, hcodes, hcodes.1.symm]
      · by_cases hup : ev.code = absPressure ∧ ev.value = 0 <;> simp [htype, hx, hy, hup, hpressure]
  · simp [htype]

theorem Abs2rel.Counts.next (h : data.Counts before) (ev : InputEvent) : (data.next ev).Counts (before ++ [ev]) where
  x := by rw [(data.next_states ev).1, countPositions_concat, h.x]
  y := by rw [(data.next_states ev).2, countPositions_concat, h.y]

theorem Abs2rel.counts_state {b : B.State} (hb : B.Quiet b) (relx rely lastAbsx lastAbsy : Int32)
    (before : List InputEvent) :
    ((driven Abs2rel.modify B.next).state (evfAbs2relAlloc relx rely lastAbsx lastAbsy, b) before).1.Counts before :=
  (Transducer.along_true.relates
    (fun before (s : Abs2rel × B.State) _ => B.Quiet s.2 ∧ s.1.Counts before) ⟨hb, rfl, rfl⟩ fun _ s _ ev hs _ => by
      exact ⟨(Abs2rel.driven_step hs.1).2.2, (Abs2rel.driven_step hs.1).2.1 ▸ hs.2.next ev⟩).2

/-- The event is sent at least twice, and the last two times as EV_SYN. -/
theorem Abs2rel.sent_syn (data : Abs2rel) (h : ev.type = evSyn) :
    ∃ moves, data.sent ev = moves ++ [data.last ev] ++ [data.last ev] ∧ (data.last ev).type = evSyn := by
  refine ⟨move data.xstate relX data.relx ev ++ move data.ystate relY data.rely ev, ?_, data.last_type.trans h⟩
  rw [Abs2rel.sent, if_pos h]
  simp only [List.append_assoc]

theorem length_move {state value : Int32} : (move state code value ev).length = if state = 2 then 1 else 0 := by
  unfold move
  split <;> rfl

theorem Abs2rel.sent_still (hs : ev.type = evSyn) (hx : data.xstate ≠ 2) (hy : data.ystate ≠ 2) :
    data.sent ev = [{ ev with value := 0 }, { ev with value := 0 }] := by
  simp [Abs2rel.sent, hs, move, Abs2rel.last, moveCode, hx, hy]

/-- Movement is sent as EV_SYN, so there must be none. -/
theorem Abs2rel.moves_iff {fresh : Abs2rel} (hs : ev.type = evSyn) (hx : fresh.xstate ≠ 2) (hy : fresh.ystate ≠ 2) :
    (∃ moves, data.sent ev = moves ++ fresh.sent ev ∧ ∀ e ∈ moves, e.type = evRel) ↔
      data.xstate ≠ 2 ∧ data.ystate ≠ 2 := by
  rw [fresh.sent_still hs hx hy]
  constructor
  · rintro ⟨moves, hsent, hmoves⟩
    have hnone : moves = [] := List.eq_nil_iff_forall_not_mem.mpr fun e he => by
      have hsyn := (data.sent_type e (hsent ▸ List.mem_append_left _ he)).trans hs
      exact absurd (hsyn.symm.trans (hmoves e he)) (by decide)
    have hlength := congrArg List.length hsent
    rw [hnone, Abs2rel.sent, if_pos hs] at hlength
    simp only [List.length_append, length_move, List.length_cons, List.length_nil] at hlength
    constructor
    · intro h
      rw [if_pos h] at hlength
      omega
    · intro h
      rw [if_pos h] at hlength
      omega
  · rintro ⟨hx, hy⟩
    exact ⟨[], data.sent_still hs hx hy, List.forall_mem_nil _⟩

/-- Whether an EV_SYN finds movement to be sent. -/
theorem abs2rel_moves_iff {b : B.State} (hb : B.Quiet b) (relx rely lastAbsx lastAbsy : Int32) (hs : ev.type = evSyn) :
    (∃ moves, ((driven Abs2rel.modify B.next).step
      ((driven Abs2rel.modify B.next).state (evfAbs2relAlloc relx rely lastAbsx lastAbsy, b) before) ev).2 =
        moves ++ ((driven Abs2rel.modify B.next).step (evfAbs2relAlloc relx rely lastAbsx lastAbsy, b) ev).2 ∧
          ∀ e ∈ moves, e.type = evRel) ↔ Still before := by
  have hcounts := Abs2rel.counts_state hb relx rely lastAbsx lastAbsy before
  have hzero : (0 : Int32) ≠ 2 := by decide
  rw [(Abs2rel.driven_step (Abs2rel.quiet_state hb)).1, (Abs2rel.driven_step hb).1,
    Abs2rel.moves_iff hs hzero hzero, hcounts.x, hcounts.y, Ne, Ne, countPositions_two, countPositions_two, not_not,
    not_not]
  exact Iff.rfl

/-- Abs2Rel converts a stream just if there is nothing to be sent at any EV_SYN, and none of them is a SYN_REPORT. -/
theorem abs2rel_converts_iff (B : Behind) (b : { b : B.State // B.Quiet b }) (relx rely lastAbsx lastAbsy : Int32)
    (evs : List InputEvent) :
    Converts (driven Abs2rel.modify B.next) (evfAbs2relAlloc relx rely lastAbsx lastAbsy, b.1) evs ↔
      ∀ before syn after, evs = before ++ syn :: after → syn.type = evSyn → ¬ syn.isReport ∧ Still before := by
  constructor
  · intro h before syn after heq hsyn
    refine ⟨fun hreport => ?_, (abs2rel_moves_iff b.2 _ _ _ _ hsyn).mp (h.moves before syn after heq hsyn)⟩
    obtain ⟨moves, report, hsent, hmoves, -⟩ := h.packets before syn after heq hreport
    rw [(Abs2rel.driven_step (Abs2rel.quiet_state b.2)).1] at hsent
    obtain ⟨moves', hsent', hlast⟩ := Abs2rel.sent_syn _ hsyn
    obtain ⟨rfl, -⟩ := List.append_inj' (hsent.symm.trans hsent') rfl
    exact absurd (hlast.symm.trans (hmoves _ (by simp))) (by decide)
  · intro h
    refine ⟨fun before syn after heq hreport => ?_, fun before syn after heq hsyn => ?_,
      fun before drawn syn after heq _ _ hreport => ?_⟩
    · exact absurd hreport (h before syn after heq (isReport_iff.mp hreport).1).1
    · exact (abs2rel_moves_iff b.2 _ _ _ _ hsyn).mpr (h before syn after heq hsyn).2
    · exact absurd hreport (h (before ++ drawn) syn after heq (isReport_iff.mp hreport).1).1

/-- A pen is moved by 5. -/
def penMove : List InputEvent :=
  [⟨(0, 0), evAbs, absX, 10⟩, ⟨(0, 0), evSyn, synReport, 0⟩, ⟨(0, 1), evAbs, absX, 15⟩, ⟨(0, 1), evSyn, synReport, 0⟩]

theorem abs2rel_penMove : ¬ Converts (driven Abs2rel.modify (Behind.line 0).next)
    (evfAbs2relAlloc 0 0 0 0, ([] : List InputEvent))
    penMove := by
  intro h
  have hx := (h.distances [] (penMove.take 3) ⟨(0, 1), evSyn, synReport, 0⟩ [] rfl (by decide) (by decide) (by decide)).1
  exact absurd hx (by decide)

end Evfilter.Filters
