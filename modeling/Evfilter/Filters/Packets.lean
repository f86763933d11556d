import Evfilter.Filters.Lemmas.Answers
import Mathlib.Data.List.DropRight
import Mathlib.Logic.Function.Basic

/-!
# Lines with barriers in front of one sink

Each line ends in its own Barrier and a commit filter, and all commit filters append to one sink. Events reach the
barriers in any order.
-/

namespace Evfilter.Filters
open Lib

variable {ι : Type} [DecidableEq ι]

structure Lines (ι : Type) where
  barriers : ι → Barrier
  sink : List InputEvent

/-- An event reaches the barrier of line `i`. The commit function appends to the sink and leaves `answer` behind
in the struct. -/
def deliver (answer : InputEvent → InputEvent) (lines : Lines ι) (delivery : ι × InputEvent) : Lines ι :=
  let after := ((lines.barriers delivery.1).modify delivery.2).drive (Proc.record answer) lines.sink
  { barriers := Function.update lines.barriers delivery.1 after.1.1, sink := after.2 }

def deliverAll (answer : InputEvent → InputEvent) (history : ι → UInt32) (deliveries : List (ι × InputEvent)) :
    Lines ι :=
  deliveries.foldl (deliver answer) { barriers := fun i => evfBarrierAlloc (history i), sink := [] }

/-! ## Packets -/

def InputEvent.isReport (ev : InputEvent) : Bool := ev.type = evSyn ∧ ev.code = synReport

/-- What line `i` has got of the deliveries. -/
def ofLine (i : ι) (deliveries : List (ι × InputEvent)) : List InputEvent :=
  (deliveries.filter fun d => d.1 = i).map Prod.snd

/-- What line `i` has got since its last SYN_REPORT. -/
def pending (i : ι) (deliveries : List (ι × InputEvent)) : List InputEvent :=
  (ofLine i deliveries).rtakeWhile fun ev => !ev.isReport

/-- A SYN_REPORT of a line, and the events of the line that it ends. -/
structure Packet (ι : Type) where
  line : ι
  events : List InputEvent
  report : InputEvent

/-- The packets that the deliveries after `before` complete. -/
def packets (before : List (ι × InputEvent)) : List (ι × InputEvent) → List (Packet ι)
  | [] => []
  | d :: deliveries =>
    let later := packets (before ++ [d]) deliveries
    if d.2.isReport then ⟨d.1, pending d.1 before, d.2⟩ :: later else later

/-- What comes through a queue of this size. -/
def Packet.group (history : ι → UInt32) (p : Packet ι) : List InputEvent :=
  p.events.take (history p.line).toNat ++ [p.report]

def Packet.whole (p : Packet ι) : List InputEvent := p.events ++ [p.report]

variable {answer : InputEvent → InputEvent} {history : ι → UInt32} {before deliveries : List (ι × InputEvent)}
  {lines : Lines ι} {i : ι} {d : ι × InputEvent}

theorem pending_concat (before : List (ι × InputEvent)) (d : ι × InputEvent) (i : ι) :
    pending i (before ++ [d]) =
      if d.1 = i then (if d.2.isReport then [] else pending i before ++ [d.2]) else pending i before := by
  unfold pending ofLine
  rw [List.filter_append, List.map_append]
  by_cases hi : d.1 = i
  · simp only [hi, List.filter_cons, decide_true, ↓reduceIte, List.filter_nil, List.map_cons, List.map_nil,
      List.rtakeWhile_concat]
    cases d.2.isReport <;> rfl
  · simp [hi]

/-- Each queue holds the first of the events that its line has got since its last SYN_REPORT. -/
structure Holds (history : ι → UInt32) (before : List (ι × InputEvent)) (lines : Lines ι) : Prop where
  size : ∀ i, (lines.barriers i).queueSize = history i
  queue : ∀ i, (lines.barriers i).queue = (pending i before).take (history i).toNat

theorem take_concat {n : Nat} {l : List InputEvent} {ev : InputEvent} :
    (l ++ [ev]).take n = if n ≤ (l.take n).length then l.take n else l.take n ++ [ev] := by
  rw [List.length_take]
  split
  · rename_i h
    rw [List.take_append_of_le_length (by omega)]
  · rename_i h
    rw [List.take_of_length_le (by simp; omega), List.take_of_length_le (by omega)]

/-! ## Steps -/

variable (answer) in
theorem Barrier.modify_drive (barrier : Barrier) (ev : InputEvent) (sink : List InputEvent) :
    ((barrier.modify ev).drive (Proc.record answer) sink).1.1 = barrier.next ev ∧
      ((barrier.modify ev).drive (Proc.record answer) sink).2 = sink ++ barrier.sent ev := by
  have hmakes : (barrier.modify ev).Makes (fun _ _ => True) (fun x => x.1 = barrier.next ev) (barrier.sent ev) := by
    unfold Barrier.modify Barrier.sent Barrier.next
    split
    · refine Proc.Makes.bind (flushQueue_makes.mono fun _ _ => ?_)
      exact Proc.makes_call fun _ _ => Proc.makes_done rfl
    · exact Proc.makes_done rfl
  obtain ⟨hcalls, hnext, _⟩ := hmakes.run (I := fun _ => True) (Proc.record answer)
    (fun _ _ _ _ => ⟨trivial, trivial⟩) (b := sink) trivial
  exact ⟨hnext, by rw [Proc.drive_record, hcalls]⟩

theorem isReport_iff {ev : InputEvent} : ev.isReport = true ↔ ev.type = evSyn ∧ ev.code = synReport := by
  simp [InputEvent.isReport]

theorem insertQueue_queue (barrier : Barrier) (ev : InputEvent) :
    (insertQueue barrier ev).queueSize = barrier.queueSize ∧
      (insertQueue barrier ev).queue =
        if barrier.queueSize.toNat ≤ barrier.queue.length then barrier.queue else barrier.queue ++ [ev] := by
  unfold insertQueue Barrier.queueIndex
  split
  · exact ⟨rfl, rfl⟩
  · exact ⟨rfl, rfl⟩

theorem holds_step (h : Holds history before lines) (d : ι × InputEvent) :
    Holds history (before ++ [d]) (deliver answer lines d) := by
  obtain ⟨hnext, _⟩ := (lines.barriers d.1).modify_drive answer d.2 lines.sink
  have hbarriers : (deliver answer lines d).barriers =
      Function.update lines.barriers d.1 ((lines.barriers d.1).next d.2) := by
    rw [← hnext]
    rfl
  constructor
  · intro i
    rw [hbarriers]
    by_cases hi : i = d.1
    · subst hi
      rw [Function.update_self, Barrier.next]
      split
      · exact h.size d.1
      · rw [(insertQueue_queue _ _).1, h.size]
    · rw [Function.update_of_ne hi, h.size]
  · intro i
    rw [hbarriers, pending_concat]
    by_cases hi : i = d.1
    · subst hi
      rw [Function.update_self, if_pos rfl, Barrier.next]
      by_cases hr : d.2.isReport
      · rw [if_pos (isReport_iff.mp hr), if_pos hr, List.take_nil]
        rfl
      · rw [if_neg (mt isReport_iff.mpr hr), if_neg hr, (insertQueue_queue _ _).2, h.size, h.queue, ← take_concat]
    · rw [Function.update_of_ne hi, if_neg (Ne.symm hi), h.queue]

theorem sink_step (h : Holds history before lines) (d : ι × InputEvent) :
    (deliver answer lines d).sink = lines.sink ++
      if d.2.isReport then (pending d.1 before).take (history d.1).toNat ++ [d.2] else [] := by
  obtain ⟨_, hsent⟩ := (lines.barriers d.1).modify_drive answer d.2 lines.sink
  have hsink : (deliver answer lines d).sink = lines.sink ++ (lines.barriers d.1).sent d.2 := hsent
  rw [hsink, Barrier.sent]
  by_cases hr : d.2.isReport
  · rw [if_pos (isReport_iff.mp hr), if_pos hr, h.queue]
  · rw [if_neg (mt isReport_iff.mpr hr), if_neg hr]

theorem sink_run (h : Holds history before lines) (deliveries : List (ι × InputEvent)) :
    (deliveries.foldl (deliver answer) lines).sink =
      lines.sink ++ (packets before deliveries).flatMap (Packet.group history) := by
  induction deliveries generalizing before lines with
  | nil => exact (List.append_nil _).symm
  | cons d deliveries ih =>
      rw [List.foldl_cons, ih (holds_step h d), sink_step h d, List.append_assoc, packets]
      cases d.2.isReport with
      | true => rfl
      | false => rfl

theorem group_whole {κ : Type} {history : κ → UInt32} {p : Packet κ}
    (h : p.events.length ≤ (history p.line).toNat) : p.group history = p.whole := by
  rw [Packet.group, List.take_of_length_le h, Packet.whole]

/-- Whatever the order of the deliveries, the sink gets the packets one after the other, each cut down to the queue
of its line. Packets that fit come whole. -/
theorem sink_packets (answer : InputEvent → InputEvent) (history : ι → UInt32)
    (deliveries : List (ι × InputEvent)) :
    (deliverAll answer history deliveries).sink = (packets [] deliveries).flatMap (Packet.group history) ∧
      ((∀ p ∈ packets [] deliveries, p.events.length ≤ (history p.line).toNat) →
        (deliverAll answer history deliveries).sink = (packets [] deliveries).flatMap Packet.whole) := by
  have hsink : (deliverAll answer history deliveries).sink =
      (packets [] deliveries).flatMap (Packet.group history) := by
    have hstart : Holds history [] (Lines.mk (fun i => evfBarrierAlloc (history i)) []) :=
      ⟨fun _ => rfl, fun _ => List.take_nil.symm⟩
    exact sink_run hstart deliveries
  refine ⟨hsink, fun hfit => ?_⟩
  rw [hsink, List.flatMap_def, List.flatMap_def, List.map_congr_left fun p hp => group_whole (hfit p hp)]

/-- The packets of two lines, the one inside the other. -/
def nested : List (Bool × InputEvent) :=
  [(false, ⟨(0, 0), evRel, relX, 5⟩), (true, ⟨(0, 1), evKey, btnLeft, 1⟩), (true, ⟨(0, 1), evSyn, synReport, 0⟩),
    (false, ⟨(0, 2), evSyn, synReport, 0⟩)]

theorem sink_nested :
    (deliverAll id (fun _ => 1) nested).sink = (packets [] nested).flatMap (Packet.group fun _ => 1) ∧
      (deliverAll id (fun _ => 1) nested).sink = (packets [] nested).flatMap Packet.whole :=
  ⟨(sink_packets id (fun _ => 1) nested).1, (sink_packets id (fun _ => 1) nested).2 (by decide)⟩

end Evfilter.Filters
