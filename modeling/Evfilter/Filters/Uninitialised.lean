import Evfilter.Filters.FilterToHandle
import Evfilter.Filters.Motion
import Evfilter.Filters.Stream

/-!
# What `malloc` leaves

Abs2Rel and FilterToHandle do not initialise all of their data. The other fields tell when these may be read, so two
filters that differ in them only do the same.
-/

namespace Evfilter.Filters
open Lib

variable {β ω : Type} {ev : InputEvent} {b : β}

/-! ## Abs2Rel -/

namespace Abs2rel

/-- A position is read in the states 1 and 2, a movement in the state 2. -/
structure SameAxis (state state' rel rel' last last' : Int32) : Prop where
  states : state = state'
  steps : state = 0 ∨ state = 1 ∨ state = 2
  lasts : state ≠ 0 → last = last'
  rels : state = 2 → rel = rel'

/-- All that is read of the two is the same. -/
structure Same (data data' : Abs2rel) : Prop where
  x : SameAxis data.xstate data'.xstate data.relx data'.relx data.lastAbsx data'.lastAbsx
  y : SameAxis data.ystate data'.ystate data.rely data'.rely data.lastAbsy data'.lastAbsy

variable {data data' : Abs2rel} {state state' rel rel' last last' : Int32}

theorem SameAxis.start : SameAxis 0 0 rel rel' last last' :=
  ⟨rfl, Or.inl rfl, fun h => absurd rfl h, fun h => absurd h (by decide)⟩

/-- A new position, whatever the old one was in the state 0. -/
theorem SameAxis.update (h : SameAxis state state' rel rel' last last') (value : Int32) :
    SameAxis (incif state) (incif state') (value - last) (value - last') value value := by
  obtain ⟨rfl, hsteps, hlast, -⟩ := h
  rcases hsteps with rfl | rfl | rfl
  · exact ⟨rfl, Or.inr (Or.inl rfl), fun _ => rfl, fun h => absurd h (by decide)⟩
  · exact ⟨rfl, Or.inr (Or.inr rfl), fun _ => rfl, fun _ => by rw [hlast (by decide)]⟩
  · exact ⟨rfl, Or.inr (Or.inr rfl), fun _ => rfl, fun _ => by rw [hlast (by decide)]⟩

theorem SameAxis.sendMove (h : SameAxis state state' rel rel' last last') (code : UInt16) :
    Filters.sendMove state code rel = Filters.sendMove state' code rel' := by
  obtain ⟨rfl, -, -, hrel⟩ := h
  funext ev
  unfold Filters.sendMove
  split
  · rename_i htwo
    rw [hrel htwo]
  · rfl

theorem Same.update (h : Same data data') (ev : InputEvent) : Same (data.update ev) (data'.update ev) := by
  unfold Abs2rel.update
  split
  · exact ⟨h.x.update ev.value, h.y⟩
  · split
    · exact ⟨h.x, h.y.update ev.value⟩
    · split
      · exact ⟨.start, .start⟩
      · exact h

theorem Same.flush (h : Same data data') (ev : InputEvent) : data.flush ev = data'.flush ev := by
  rw [Abs2rel.flush, Abs2rel.flush, h.x.sendMove, h.y.sendMove]

theorem Same.modify (h : Same data data') (ev : InputEvent) :
    (data.modify ev).Alike (fun r r' => Same r.1 r'.1 ∧ r.2 = r'.2) (data'.modify ev) := by
  have hrest (ev : InputEvent) :
      (if ev.type = evAbs then pure (data.update ev, ev) else emit ev >>= fun ev => pure (data, ev) :
        Modify (Abs2rel × InputEvent)).Alike (fun r r' => Same r.1 r'.1 ∧ r.2 = r'.2)
      (if ev.type = evAbs then pure (data'.update ev, ev) else emit ev >>= fun ev => pure (data', ev)) := by
    split
    · exact ⟨h.update ev, rfl⟩
    · exact Proc.Alike.bind (Proc.alike_refl _) fun _ _ heq => ⟨h, heq⟩
  unfold Abs2rel.modify
  rw [h.flush]
  dsimp only
  split
  · refine Proc.Alike.bind (Proc.alike_refl _) fun ev _ heq => ?_
    subst heq
    exact hrest ev
  · exact hrest ev

end Abs2rel

/-! ## FilterToHandle -/

namespace FilterToHandle

/-- Both flags are set together. -/
structure Same (priv priv' : FilterToHandle) : Prop where
  type : priv.type = priv'.type
  code : priv.code = priv'.code
  handle : priv.handle = priv'.handle
  syncFlag : priv.syncFlag = priv'.syncFlag
  evFlag : priv.syncFlag = true → priv.evFlag = priv'.evFlag

variable {priv priv' : FilterToHandle}

theorem Same.redirects (h : Same priv priv') : priv.Redirects ev ↔ priv'.Redirects ev := by
  rw [Redirects, Redirects, h.type, h.code]

theorem Same.modify (h : Same priv priv') (ev : InputEvent) : (priv.modify ev).Alike Same (priv'.modify ev) := by
  unfold FilterToHandle.modify
  rw [← h.syncFlag, ← h.handle]
  split
  · rename_i hsyn
    rw [← h.evFlag hsyn.2.2.2]
    refine Proc.Alike.bind (Proc.alike_refl _) fun ev _ heq => ?_
    subst heq
    split
    · exact Proc.Alike.bind (Proc.alike_refl _) fun _ _ _ => h
    · exact h
  · by_cases hred : priv.Redirects ev
    · rw [if_pos hred, if_pos (h.redirects.mp hred)]
      refine Proc.Alike.bind (Proc.alike_refl _) fun _ _ _ => ?_
      exact ⟨h.type, h.code, rfl, rfl, fun _ => rfl⟩
    · rw [if_neg hred, if_neg (mt h.redirects.mpr hred)]
      refine Proc.Alike.bind (Proc.alike_refl _) fun _ _ _ => ?_
      exact ⟨h.type, h.code, rfl, rfl, fun _ => rfl⟩

end FilterToHandle

/-! ## Streams -/

/-- FilterToHandle with both destinations. -/
def redirecting (callee : Dest × InputEvent → ω → InputEvent × ω) :
    Transducer (FilterToHandle × ω) InputEvent (Dest × InputEvent) where
  step := fun s ev => (FilterToHandle.process callee s ev, (s.1.modify ev).calls callee s.2)

theorem sentFor_eq {callee : Dest × InputEvent → ω → InputEvent × ω} {s : FilterToHandle × ω} {evs : List InputEvent} :
    sentFor callee s evs = (redirecting callee).outputs s evs := by
  induction evs generalizing s with
  | nil => rfl
  | cons ev evs ih => exact congrArg ((s.1.modify ev).calls callee s.2 ++ ·) ih

theorem Abs2rel.Same.outputs {data data' : Abs2rel} (h : Same data data')
    (next : InputEvent → β → InputEvent × β) (b : β) (evs : List InputEvent) :
    (driven Abs2rel.modify next).outputs (data, b) evs = (driven Abs2rel.modify next).outputs (data', b) evs := by
  refine Transducer.outputs_related (fun s t => Same s.1 t.1 ∧ s.2 = t.2) ?_ ⟨h, rfl⟩
  rintro ⟨data, b⟩ ⟨data', _⟩ ev ⟨h, rfl⟩
  obtain ⟨hcalls, hends, hcallee⟩ := (h.modify ev).run next b
  exact ⟨hcalls, hends.1, hcallee⟩

theorem FilterToHandle.Same.sentFor {priv priv' : FilterToHandle} (h : Same priv priv')
    (callee : Dest × InputEvent → ω → InputEvent × ω) (w : ω) (evs : List InputEvent) :
    Filters.sentFor callee (priv, w) evs = Filters.sentFor callee (priv', w) evs := by
  rw [sentFor_eq, sentFor_eq]
  refine Transducer.outputs_related (fun s t => Same s.1 t.1 ∧ s.2 = t.2) ?_ ⟨h, rfl⟩
  rintro ⟨priv, w⟩ ⟨priv', _⟩ ev ⟨h, rfl⟩
  obtain ⟨hcalls, hends, hcallee⟩ := (h.modify ev).run callee w
  exact ⟨hcalls, hends, hcallee⟩

/-- What `malloc` has left in the two filters is never sent. -/
theorem unassigned_unseen :
    (∀ {β : Type} (next : InputEvent → β → InputEvent × β) (b : β) (evs : List InputEvent)
        (relx relx' rely rely' lastAbsx lastAbsx' lastAbsy lastAbsy' : Int32),
      (driven Abs2rel.modify next).outputs (evfAbs2relAlloc relx rely lastAbsx lastAbsy, b) evs =
        (driven Abs2rel.modify next).outputs (evfAbs2relAlloc relx' rely' lastAbsx' lastAbsy', b) evs) ∧
    ∀ {ω : Type} (callee : Dest × InputEvent → ω → InputEvent × ω) (w : ω) (evs : List InputEvent) (handle : Addr)
        (type code : Int32) (evFlag evFlag' : Bool),
      sentFor callee (evfFilterToHandleAlloc handle type code evFlag, w) evs =
        sentFor callee (evfFilterToHandleAlloc handle type code evFlag', w) evs := by
  constructor
  · intro β next b evs relx relx' rely rely' lastAbsx lastAbsx' lastAbsy lastAbsy'
    have hsame : Abs2rel.Same (evfAbs2relAlloc relx rely lastAbsx lastAbsy)
        (evfAbs2relAlloc relx' rely' lastAbsx' lastAbsy') := ⟨.start, .start⟩
    exact hsame.outputs next b evs
  · intro ω callee w evs handle type code evFlag evFlag'
    have hsame : FilterToHandle.Same (evfFilterToHandleAlloc handle type code evFlag)
        (evfFilterToHandleAlloc handle type code evFlag') := ⟨rfl, rfl, rfl, rfl, fun h => by cases h⟩
    exact hsame.sentFor callee w evs

end Evfilter.Filters
