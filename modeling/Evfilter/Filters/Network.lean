import Evfilter.Filters.CopyToHandle
import Evfilter.Filters.FilterToHandle
import Evfilter.Filters.Traps

/-!
# Filters linked by pointers and handles

The filters of all lines in memory, each with its `next`, and the handles that lead from one line to another. A
call of `modify` goes from filter to filter until it comes to the functions that commit or print the events. Every call
returns if no filter can be reached from itself.
-/

namespace Evfilter.Filters
open Lib Handle Relation

/-- What is called: the `modify` of the filter at an address, NULL included, or the `commit` or `fprintf` that takes
the event out of the filters. A division that traps counts as a call from which nothing returns. -/
inductive Ref
  | filter (p : Option FilterPtr)
  | sink (data : Nat)
  | sigfpe
deriving DecidableEq

/-- The private data of a filter, and which `modify` it has. WeightedAverageAbs, ScaleAbs and Kalman are left out. -/
inductive AnyFilter
  | inner (f : Filter)
  | dump (file : Nat)
  | copyToHandle (priv : CopyToHandle)
  | filterToHandle (priv : FilterToHandle)
  | getFromHandle
  | commit (data : Nat)
deriving DecidableEq

/-- A `struct evf_filter`, or what a sink has been given. -/
inductive Cell
  | filter (self : AnyFilter) (next : Option FilterPtr)
  | sink (events : List InputEvent)
deriving DecidableEq

/-- The filter behind a handle is called with the `modify` of GetFromHandle, which is its own. -/
def Callee.ref (next : Option FilterPtr) : Callee → Ref
  | .receiver _ filter => .filter (some filter)
  | .next => .filter next

/-- Where the calls of FilterToHandle go. -/
def Dest.send (r : Registry) (next : Option FilterPtr) : Dest × InputEvent → Proc (Ref × InputEvent) InputEvent InputEvent
  | (.handle self, ev) => (handleSend r self ev).through fun c => Proc.perform (c.1.ref next, c.2)
  | (.next, ev) => Proc.perform (.filter next, ev)

/-- `modify` of Dump and Commit: the event is printed or committed, and a next filter need not be there. -/
def sinkModify (data : Nat) (next : Option FilterPtr) (ev : InputEvent) :
    Proc (Ref × InputEvent) InputEvent InputEvent := do
  let ev ← Proc.perform (.sink data, ev)
  if next ≠ none then Proc.perform (.filter next, ev) else pure ev

def AnyFilter.modify (r : Registry) (next : Option FilterPtr) :
    AnyFilter → InputEvent → Proc (Ref × InputEvent) InputEvent (AnyFilter × InputEvent)
  | inner f, ev => do
    if f.Traps ev then
      let ev ← Proc.perform (.sigfpe, ev)
      return (inner f, ev)
    let (f, ev) ← (f.modify ev).through fun ev => Proc.perform (.filter next, ev)
    return (inner f, ev)
  | dump file, ev => do
    let ev ← sinkModify file next ev
    return (dump file, ev)
  | copyToHandle priv, ev => do
    let ev ← (priv.modify r ev).through fun c => Proc.perform (c.1.ref next, c.2)
    return (copyToHandle priv, ev)
  | filterToHandle priv, ev => do
    let (priv, ev) ← ((priv.modify ev).answered ev).through (Dest.send r next)
    return (filterToHandle priv, ev)
  | getFromHandle, ev => do
    let ev ← (getFromHandleModify ev).through fun ev => Proc.perform (.filter next, ev)
    return (getFromHandle, ev)
  | commit data, ev => do
    let ev ← sinkModify data next ev
    return (commit data, ev)

/-- A sink leaves the event as it is. -/
def Cell.call (r : Registry) : Cell → InputEvent → Proc (Ref × InputEvent) InputEvent (Cell × InputEvent)
  | filter self next, ev => do
    let (self, ev) ← self.modify r next ev
    return (filter self next, ev)
  | sink events, ev => return (sink (events ++ [ev]), ev)

/-- The handle that a filter sends to. -/
def AnyFilter.handle : AnyFilter → Option Addr
  | copyToHandle priv => some priv.handle
  | filterToHandle priv => some priv.handle
  | _ => none

/-! ## Which filters a filter calls -/

/-- Behind the handle. -/
def receivers (r : Registry) (self : Addr) : Set Ref :=
  { i | ∃ send filter, evfHandleSend r self = some (send, filter) ∧ i = .filter (some filter) }

def AnyFilter.targets (r : Registry) (next : Option FilterPtr) : AnyFilter → Set Ref
  | inner f => insert (.filter next) { i | ¬ f.DivisorsOk ∧ i = .sigfpe }
  | getFromHandle => {.filter next}
  | copyToHandle priv => insert (.filter next) (receivers r priv.handle)
  | filterToHandle priv => insert (.filter next) (receivers r priv.handle)
  | dump data | commit data => insert (.sink data) { i | next ≠ none ∧ i = .filter next }

def Cell.targets (r : Registry) : Cell → Set Ref
  | filter self next => self.targets r next
  | sink _ => ∅

def AnyFilter.DivisorsOk : AnyFilter → Prop
  | inner f => f.DivisorsOk
  | _ => True

def Cell.DivisorsOk : Cell → Prop
  | filter self _ => self.DivisorsOk
  | sink _ => True

/-- Filters of the line that hand on every event before anything else. -/
def Filter.Forwards : Filter → Prop
  | mirror _ | rotate _ | keySubstitute _ | pressureToKey _ => True
  | _ => False

def AnyFilter.Forwards : AnyFilter → Prop
  | inner f => f.Forwards
  | filterToHandle _ => False
  | _ => True

def Cell.Forwards : Cell → Prop
  | filter self _ => self.Forwards
  | sink _ => True

variable {r : Registry} {next : Option FilterPtr} {ev : InputEvent} {f : Filter} {self : AnyFilter} {α : Type}

/-! ## The graph -/

theorem modify_kind (f : Filter) (ev : InputEvent) :
    (f.modify ev).Obeys (fun _ => True) fun x => x.1.Forwards = f.Forwards := by
  cases f <;> exact (Proc.obeys_calls _).bind fun _ _ => rfl

theorem Filter.Forwards.divisorsOk (h : f.Forwards) : f.DivisorsOk := by
  cases f with
  | speedMod data => exact h.elim
  | rel2scroll data => exact h.elim
  | _ => trivial

/-- The kind of a filter, and its divisors. -/
theorem modify_keeps (f : Filter) (ev : InputEvent) : (f.modify ev).Obeys (fun _ => True) fun x =>
    (AnyFilter.inner x.1).targets r next = (AnyFilter.inner f).targets r next ∧ x.1.Forwards = f.Forwards := by
  refine ((f.modify_divisorsOk ev).and (modify_kind f ev)).mono (fun _ => And.left) fun x hx => ⟨?_, hx.2⟩
  simp only [AnyFilter.targets, hx.1]

theorem modify_forwards (h : f.Forwards) (ev : InputEvent) : (f.modify ev).Must fun _ => True := by
  cases f with
  | mirror data => exact Or.inl trivial
  | rotate data => exact Or.inl trivial
  | keySubstitute data =>
      simp only [Filter.modify, KeySubstitute.modify]
      split <;> exact Or.inl trivial
  | pressureToKey data => exact Or.inl trivial
  | _ => exact h.elim

theorem sinkModify_eq (data : Nat) (next : Option FilterPtr) (ev : InputEvent) : sinkModify data next ev =
    .call (.sink data, ev) fun ev => if next ≠ none then Proc.perform (.filter next, ev) else .done ev := rfl

theorem sinkModify_obeys (data : Nat) (next : Option FilterPtr) (ev : InputEvent) :
    (sinkModify data next ev).Obeys (fun d => d.1 ∈ (AnyFilter.commit data).targets r next) fun _ => True := by
  rw [sinkModify_eq]
  refine ⟨Set.mem_insert _ _, fun ev => ?_⟩
  split
  case isTrue h => exact Proc.obeys_perform (Set.mem_insert_of_mem _ ⟨h, rfl⟩)
  case isFalse => trivial

theorem sinkModify_must (data : Nat) (next : Option FilterPtr) (ev : InputEvent) {i : Ref}
    (hi : i ∈ (AnyFilter.commit data).targets r next) : (sinkModify data next ev).Must fun d => d.1 = i := by
  rw [sinkModify_eq]
  rcases hi with rfl | ⟨h, rfl⟩
  · exact Or.inl rfl
  · refine Or.inr fun ev => ?_
    simp only [if_pos h]
    exact Proc.must_perform rfl

/-- `evf_handle_send` calls what is behind the handle, and nothing else. -/
theorem send_obeys (self : Addr) (ev : InputEvent) :
    ((handleSend r self ev).through fun c => Proc.perform (c.1.ref next, c.2)).Obeys (fun d => d.1 ∈ receivers r self)
      fun _ => True := by
  unfold handleSend
  split
  · trivial
  · rename_i send filter h
    exact Proc.obeys_perform ⟨send, filter, h, rfl⟩

theorem send_must (self : Addr) (ev : InputEvent) {i : Ref} (hi : i ∈ receivers r self) :
    ((handleSend r self ev).through fun c => Proc.perform (c.1.ref next, c.2)).Must fun d => d.1 = i := by
  obtain ⟨send, filter, h, rfl⟩ := hi
  rw [handleSend, h]
  exact Proc.must_perform rfl

theorem copyToHandle_through (priv : CopyToHandle) (ev : InputEvent) :
    ((priv.modify r ev).through fun c => Proc.perform (c.1.ref next, c.2)) =
      ((handleSend r priv.handle ev).through fun c => Proc.perform (c.1.ref next, c.2)) >>= fun ev =>
        Proc.perform (.filter next, ev) := by
  unfold CopyToHandle.modify handleSend
  split <;> rfl

theorem filterToHandle_obeys (priv : FilterToHandle) (ev : InputEvent) :
    (priv.modify ev).Obeys (fun d => d.1 = .handle priv.handle ∨ d.1 = .next) fun x => x.handle = priv.handle := by
  unfold FilterToHandle.modify
  split
  · refine ⟨Or.inl rfl, fun ev => ?_⟩
    split
    · exact ⟨Or.inr rfl, fun _ => rfl⟩
    · rfl
  · split
    · exact ⟨Or.inl rfl, fun _ => rfl⟩
    · exact ⟨Or.inr rfl, fun _ => rfl⟩

theorem AnyFilter.modify_obeys (self : AnyFilter) (ev : InputEvent) :
    (self.modify r next ev).Obeys (fun d => d.1 ∈ self.targets r next)
      fun x => x.1.targets r next = self.targets r next ∧ x.1.Forwards = self.Forwards := by
  cases self with
  | inner f =>
      rw [modify]
      split
      case isTrue htraps =>
        have hbad : ¬ f.DivisorsOk := fun hok => hok.not_traps ev htraps
        exact ⟨Set.mem_insert_of_mem _ ⟨hbad, rfl⟩, fun _ => ⟨rfl, rfl⟩⟩
      case isFalse =>
        refine Proc.Obeys.bind ((modify_keeps f ev).through fun ev _ => ?_) fun x hx => hx
        exact Proc.obeys_perform (Set.mem_insert _ _)
  | dump file => exact (sinkModify_obeys (r := r) file next ev).bind fun _ _ => ⟨rfl, rfl⟩
  | copyToHandle priv =>
      rw [modify, copyToHandle_through]
      refine Proc.Obeys.bind (Q := fun _ => True) ?_ fun _ _ => ⟨rfl, rfl⟩
      refine ((send_obeys priv.handle ev).mono (fun c hc => Set.mem_insert_of_mem _ hc) fun _ => id).bind ?_
      exact fun ev _ => Proc.obeys_perform (Set.mem_insert _ _)
  | filterToHandle priv =>
      refine ((filterToHandle_obeys priv ev).answered.through ?_).bind fun x (hx : x.1.handle = priv.handle) => ?_
      · rintro ⟨dest, ev⟩ (rfl | rfl)
        · exact (send_obeys priv.handle ev).mono (fun c hc => Set.mem_insert_of_mem _ hc) fun _ => id
        · exact Proc.obeys_perform (Set.mem_insert _ _)
      · exact ⟨congrArg (fun self => insert (Ref.filter next) (receivers r self)) hx, rfl⟩
  | getFromHandle => exact ⟨rfl, fun _ => ⟨rfl, rfl⟩⟩
  | commit data => exact (sinkModify_obeys data next ev).bind fun _ _ => ⟨rfl, rfl⟩

theorem AnyFilter.modify_must (h : self.Forwards) (ev : InputEvent) {i : Ref} (hi : i ∈ self.targets r next) :
    (self.modify r next ev).Must fun d => d.1 = i := by
  cases self with
  | inner f =>
      have hok : f.DivisorsOk := Filter.Forwards.divisorsOk h
      obtain rfl | ⟨hbad, -⟩ := hi
      · rw [modify, if_neg (hok.not_traps ev)]
        refine Proc.Must.bind ((modify_forwards h ev).through fun ev _ => ?_)
        exact Proc.must_perform rfl
      · exact absurd hok hbad
  | dump file => exact (sinkModify_must (r := r) file next ev hi).bind
  | copyToHandle priv =>
      rw [modify, copyToHandle_through]
      rcases hi with rfl | hi
      · refine Proc.Must.bind (Proc.Must.bind_right fun ev => ?_)
        exact Proc.must_perform rfl
      · exact (send_must priv.handle ev hi).bind.bind
  | filterToHandle priv => exact h.elim
  | getFromHandle => exact Or.inl hi.symm
  | commit data => exact (sinkModify_must data next ev hi).bind

theorem sigfpe_mem_targets (cell : Cell) : .sigfpe ∈ cell.targets r ↔ ¬ cell.DivisorsOk := by
  cases cell with
  | filter self next =>
      cases self <;> simp [Cell.targets, AnyFilter.targets, Cell.DivisorsOk, AnyFilter.DivisorsOk, receivers]
  | sink events => exact iff_of_false id (not_not_intro trivial)

/-- The filters of all lines, with the handles of a registry between them. -/
def filters (r : Registry) : Objects Ref Cell InputEvent InputEvent where
  body := Cell.call r
  targets := Cell.targets r
  always := Cell.Forwards
  obeys := by
    intro cell ev
    cases cell with
    | filter self next => exact (self.modify_obeys ev).bind fun x hx => ⟨hx.1, hx.2⟩
    | sink events => exact ⟨rfl, rfl⟩
  must := by
    intro cell ev h i hi
    cases cell with
    | filter self next => exact (AnyFilter.modify_must h ev hi).bind
    | sink events => exact hi.elim

/-! ## Loops -/

variable {w w' : Ref → Option Cell} {i j : Ref} {S : Set Ref} {cell : Cell}

/-- An event handed to `i` may get to `j`. -/
def GetsTo (r : Registry) (w : Ref → Option Cell) : Ref → Ref → Prop := ReflTransGen ((filters r).Calls w)

/-- No filter that an event handed to `i` may get to is on a loop of `next` pointers and handles. -/
def NoLoop (r : Registry) (w : Ref → Option Cell) (i : Ref) : Prop :=
  ∀ j, GetsTo r w i j → ¬ TransGen ((filters r).Calls w) j j

theorem calls_iff (h : w i = some cell) : (filters r).Calls w i j ↔ j ∈ cell.targets r := by
  constructor
  · rintro ⟨cell', hcell', hj⟩
    cases h.symm.trans hcell'
    exact hj
  · exact fun hj => ⟨cell, h, hj⟩

/-- Filters in memory, with what they call in memory as well. Their divisors are such that none of them traps. -/
structure Linked (r : Registry) (w : Ref → Option Cell) (S : Set Ref) : Prop where
  finite : S.Finite
  there : ∀ i ∈ S, ∃ cell, w i = some cell ∧ cell.targets r ⊆ S
  running : .sigfpe ∉ S

theorem Linked.closed (h : Linked r w S) : (filters r).Closed w S := by
  rintro i hi j ⟨cell, hcell, hj⟩
  obtain ⟨cell', hcell', hsub⟩ := h.there i hi
  cases hcell.symm.trans hcell'
  exact hsub hj

theorem Linked.getsTo (h : Linked r w S) (hi : i ∈ S) (hj : GetsTo r w i j) : j ∈ S := by
  induction hj with
  | refl => exact hi
  | tail _ hjk ih => exact h.closed _ ih _ hjk

theorem Linked.acc_iff (h : Linked r w S) (hi : i ∈ S) :
    Acc (fun j i => (filters r).Calls w i j) i ↔ NoLoop r w i := acc_iff_no_loop h.finite h.closed hi

theorem Linked.safe (h : Linked r w S) (hi : i ∈ S) : ((filters r).send (i, ev) w).Safe := by
  intro j hj
  obtain ⟨hjS, hnone⟩ := Objects.send_fault h.closed hi hj
  obtain ⟨cell, hcell, -⟩ := h.there j hjS
  cases hnone.symm.trans hcell

theorem getsTo_closed (i : Ref) : (filters r).Closed w { j | GetsTo r w i j } := fun _ hj _ hk => hj.tail hk

theorem send_outside {ret : InputEvent} (h : ((filters r).send (i, ev) w).Yields (.ok (ret, w'))) :
    (filters r).wiring w' = (filters r).wiring w ∧ ∀ j, ¬ GetsTo r w i j → w' j = w j :=
  Objects.send_frame (d := (i, ev)) (getsTo_closed i) .refl h

/-- Where an event gets to no loop, its call comes to an end. -/
theorem Linked.returns (h : Linked r w S) (hi : i ∈ S) (hloop : NoLoop r w i) (ev : InputEvent) :
    ((filters r).send (i, ev) w).Returns fun x =>
      (filters r).wiring x.2 = (filters r).wiring w ∧ ∀ j, ¬ GetsTo r w i j → x.2 j = w j := by
  obtain ⟨o, ho⟩ := Objects.send_stops (c := ev) ((h.acc_iff hi).mpr hloop) rfl
  cases o with
  | error j => exact (h.safe hi j ho).elim
  | ok x => exact ⟨x, ho, send_outside ho⟩

/-- Two lines of one filter each. -/
def twoLines : Ref → Option Cell
  | .filter (some 0) => some (.filter (.inner (.mirror ⟨false, false, true, false⟩)) (some 1))
  | .filter (some 1) => some (.filter (.commit 4) none)
  | .filter (some 2) => some (.filter (.inner (.keyLock ⟨30, 0, false⟩)) (some 3))
  | .filter (some 3) => some (.filter (.commit 5) none)
  | .sink 4 => some (.sink [])
  | .sink 5 => some (.sink [])
  | _ => none

/-- A step to the right. -/
def stepRight : InputEvent := ⟨⟨0, 0⟩, evRel, relX, 1⟩

/-- `evf_line_process_event` for events of several lines, as they come. -/
def processEvents {κ : Type} (r : Registry) (root : κ → Ref) (evs : List (κ × InputEvent)) :
    (Ref → Option Cell) → Comp Ref (Ref → Option Cell) :=
  (filters r).sendAll (evs.map fun e => (root e.1, e.2))

/-- The events of one of the lines. -/
def eventsOf {κ : Type} [DecidableEq κ] (k : κ) (evs : List (κ × InputEvent)) : List InputEvent :=
  (evs.filter fun e => e.1 = k).map Prod.snd

variable {κ : Type} [DecidableEq κ] {root : κ → Ref} {evs : List (κ × InputEvent)} {k l : κ}

theorem eventsOf_cons_self : eventsOf k ((k, ev) :: evs) = ev :: eventsOf k evs := by simp [eventsOf]

theorem eventsOf_cons_ne (h : l ≠ k) : eventsOf k ((l, ev) :: evs) = eventsOf k evs := by simp [eventsOf, h]

theorem getsTo_wiring (hw : (filters r).wiring w' = (filters r).wiring w) : GetsTo r w' = GetsTo r w := by
  have hcalls : (filters r).Calls w' = (filters r).Calls w := funext₂ fun _ _ => propext (Objects.calls_wiring hw)
  rw [GetsTo, GetsTo, hcalls]

theorem NoLoop.congr (h : NoLoop r w i) (hw : (filters r).wiring w' = (filters r).wiring w) : NoLoop r w' i := by
  have hcalls : (filters r).Calls w' = (filters r).Calls w := funext₂ fun _ _ => propext (Objects.calls_wiring hw)
  rw [NoLoop, getsTo_wiring hw, hcalls]
  exact h

def AllDivisorsOk (w : Ref → Option Cell) : Prop := ∀ i cell, w i = some cell → cell.DivisorsOk

/-- No filter changes its divisors. -/
theorem AllDivisorsOk.congr (h : AllDivisorsOk w) (hw : (filters r).wiring w' = (filters r).wiring w) :
    AllDivisorsOk w' := by
  intro i cell hcell
  by_contra hbad
  have hcalls : (filters r).Calls w i .sigfpe :=
    (Objects.calls_wiring hw).mp ⟨cell, hcell, (sigfpe_mem_targets cell).mpr hbad⟩
  obtain ⟨cell', hcell', hj⟩ := hcalls
  exact (sigfpe_mem_targets cell').mp hj (h i cell' hcell')

theorem Linked.congr (h : Linked r w S) (hw : (filters r).wiring w' = (filters r).wiring w) : Linked r w' S where
  finite := h.finite
  there := by
    intro i hi
    obtain ⟨cell, hcell, hsub⟩ := h.there i hi
    have hshape := congrFun hw i
    unfold Objects.wiring at hshape
    rw [hcell] at hshape
    obtain ⟨cell', hcell', heq⟩ := Option.map_eq_some_iff.mp hshape
    have htargets : cell'.targets r = cell.targets r := (Prod.mk.inj heq).1
    exact ⟨cell', hcell', htargets.symm ▸ hsub⟩
  running := h.running

/-- Events of both lines in turns. -/
def inTurns : List (Bool × InputEvent) := [(false, stepRight), (true, ⟨⟨0, 0⟩, evKey, 30, 1⟩), (false, stepRight)]

end Evfilter.Filters
