import Evfilter.Filters.Line
import Evfilter.Handle.Registry

/-!
# CopyToHandle

One call of `modify` sends the event to the handle and then to the next filter, with the same struct. The
filters behind the handle come in between, so the next filter gets what they have left.
-/

namespace Evfilter.Filters
open Lib Handle

/-- Where a call goes: through the `send` of a handle, or to the next filter. -/
inductive Callee
  | receiver (send : Option SendFn) (filter : FilterPtr)
  | next
deriving DecidableEq

/-- `evf_handle_send`. The answer is the content of `*ev` after it. -/
def handleSend (r : Registry) (self : Addr) (ev : InputEvent) : Proc (Callee × InputEvent) InputEvent InputEvent :=
  match evfHandleSend r self with
  | none => pure ev
  | some (send, filter) => Proc.perform (.receiver send filter, ev)

structure CopyToHandle where
  handle : Addr
deriving DecidableEq

def CopyToHandle.modify (priv : CopyToHandle) (r : Registry) (ev : InputEvent) :
    Proc (Callee × InputEvent) InputEvent InputEvent := do
  let ev ← handleSend r priv.handle ev
  Proc.perform (.next, ev)

/-- `modify` of GetFromHandle, which is also the `send` that it attaches. -/
def getFromHandleModify (ev : InputEvent) : Modify InputEvent := emit ev

/-- What a CopyToHandle works with: the registry, the functions at the end of `send` pointers, and the next
filter, all with one state. -/
structure Surroundings (ω : Type) where
  registry : ω → Registry
  receive : Option SendFn → FilterPtr → InputEvent → ω → InputEvent × ω
  next : InputEvent → ω → InputEvent × ω

variable {ω : Type} (env : Surroundings ω) (priv : CopyToHandle)

def Surroundings.callee : Callee × InputEvent → ω → InputEvent × ω
  | (.receiver send filter, ev), w => env.receive send filter ev w
  | (.next, ev), w => env.next ev w

def CopyToHandle.process (ev : InputEvent) (w : ω) : InputEvent × ω :=
  (priv.modify (env.registry w) ev).drive env.callee w

/-- The calls made for a stream of events. -/
def CopyToHandle.trace : List InputEvent → ω → List (Callee × InputEvent)
  | [], _ => []
  | ev :: evs, w => (priv.modify (env.registry w) ev).calls env.callee w ++ trace evs (priv.process env ev w).2

/-- The events for the next filter. -/
def forwarded (calls : List (Callee × InputEvent)) : List InputEvent :=
  calls.filterMap fun
    | (.next, ev) => some ev
    | (.receiver _ _, _) => none

/-- The events for the filter of the handle. -/
def delivered (calls : List (Callee × InputEvent)) : List InputEvent :=
  calls.filterMap fun
    | (.next, _) => none
    | (.receiver _ _, ev) => some ev

/-- The handle has a filter, and it leaves the event as it was. -/
def LeavesEvent (w : ω) (ev : InputEvent) : Prop :=
  ∃ send filter, evfHandleSend (env.registry w) priv.handle = some (send, filter) ∧
    (env.receive send filter ev w).1 = ev

variable {env priv} {ev : InputEvent} {evs : List InputEvent} {w : ω} {cs ds : List (Callee × InputEvent)}

/-! ## Calls -/

theorem forwarded_append : forwarded (cs ++ ds) = forwarded cs ++ forwarded ds := List.filterMap_append

theorem delivered_append : delivered (cs ++ ds) = delivered cs ++ delivered ds := List.filterMap_append

theorem calls_none (h : evfHandleSend (env.registry w) priv.handle = none) :
    (priv.modify (env.registry w) ev).calls env.callee w = [(.next, ev)] := by
  rw [CopyToHandle.modify, handleSend, h]
  rfl

theorem calls_some {send : Option SendFn} {filter : FilterPtr}
    (h : evfHandleSend (env.registry w) priv.handle = some (send, filter)) :
    (priv.modify (env.registry w) ev).calls env.callee w =
      [(.receiver send filter, ev), (.next, (env.receive send filter ev w).1)] := by
  rw [CopyToHandle.modify, handleSend, h]
  rfl

theorem delivered_length (env : Surroundings ω) (priv : CopyToHandle) (evs : List InputEvent) (w : ω) :
    (delivered (priv.trace env evs w)).length ≤ evs.length := by
  induction evs generalizing w with
  | nil => exact Nat.le_refl 0
  | cons ev evs ih =>
      have hd := ih (priv.process env ev w).2
      rw [CopyToHandle.trace, delivered_append, List.length_append]
      cases h : evfHandleSend (env.registry w) priv.handle with
      | none =>
          rw [calls_none h]
          exact (Nat.zero_add _).le.trans (hd.trans (Nat.le_succ _))
      | some target =>
          rw [calls_some h]
          exact (Nat.add_comm 1 _).le.trans (Nat.succ_le_succ hd)

/-! ## The two branches -/

theorem leavesEvent_iff {send : Option SendFn} {filter : FilterPtr}
    (h : evfHandleSend (env.registry w) priv.handle = some (send, filter)) :
    LeavesEvent env priv w ev ↔ (env.receive send filter ev w).1 = ev := by
  constructor
  · rintro ⟨s, f, hs, hr⟩
    cases h.symm.trans hs
    exact hr
  · intro hr
    exact ⟨send, filter, h, hr⟩

/-- Both the next filter and the filter of the handle get the stream as it came, just when the filters behind
the handle change nothing. -/
theorem branches_iff (env : Surroundings ω) (priv : CopyToHandle) (evs : List InputEvent) (w : ω) :
    forwarded (priv.trace env evs w) = evs ∧ delivered (priv.trace env evs w) = evs ↔
      Proc.Each (priv.process env) (LeavesEvent env priv) w evs := by
  induction evs generalizing w with
  | nil => exact iff_of_true ⟨rfl, rfl⟩ trivial
  | cons ev evs ih =>
      rw [Proc.Each, ← ih, CopyToHandle.trace, forwarded_append, delivered_append]
      cases h : evfHandleSend (env.registry w) priv.handle with
      | none =>
          rw [calls_none h]
          refine iff_of_false ?_ ?_
          · intro hboth
            have hd : delivered (priv.trace env evs (priv.process env ev w).2) = ev :: evs := hboth.2
            have hlen := delivered_length env priv evs (priv.process env ev w).2
            rw [hd] at hlen
            exact absurd hlen (Nat.not_succ_le_self _)
          · rintro ⟨⟨send, filter, hs, _⟩, _⟩
            cases h.symm.trans hs
      | some target =>
          rw [calls_some h, leavesEvent_iff h]
          change (_ :: forwarded _ = _ ∧ ev :: delivered _ = _) ↔ _
          rw [List.cons.injEq, List.cons.injEq, and_assoc, eq_self, true_and]

/-- A GetFromHandle and the filters behind it on every handle, and the events that the CopyToHandle's own line
has committed. -/
def throughHandle (n : Nat) (r : Registry) : Surroundings (Line n × List InputEvent) where
  registry _ := r
  receive _ _ ev w :=
    let after := (getFromHandleModify ev).drive (process n) w.1
    (after.1, (after.2, w.2))
  next ev w := (ev, (w.1, w.2 ++ [ev]))

/-- The registry with one handle, of a CopyToHandle and a GetFromHandle. -/
def oneHandle : Registry :=
  let name : CString := ⟨[112, 101, 110], by decide⟩
  (evfHandleAttach (evfHandleCreate Registry.empty name true).1 name 7 1 true).1

/-- With a Mirror behind the handle a movement of 5 is forwarded as one of -5. -/
theorem not_forwarded :
    let evs : List InputEvent := [⟨(0, 0), evRel, relX, 5⟩]
    let line := allocLine [.mirror true false false false]
    evfHandleSend oneHandle 0 = some (some 1, 7) ∧
      forwarded (CopyToHandle.trace (throughHandle 1 oneHandle) ⟨0⟩ evs (line, [])) ≠ evs := by
  decide

end Evfilter.Filters
