import Evfilter.Filters.Flags
import Evfilter.Filters.Locking
import Evfilter.Filters.Roles
import Evfilter.Filters.Scrolling

/-!
# SYN_REPORTs that are dropped

SpeedMod, Rel2Scroll, KeyLock and Btn2Rel drop SYN_REPORTs after events that they have dropped. An event that is sent
clears the flag of Rel2Scroll and KeyLock. That of the other two stays as it is.
-/

namespace Evfilter.Filters
open Lib

/-! ## SpeedMod -/

namespace Relspeed

variable {data : Relspeed} {ev : InputEvent} {received : List InputEvent} {xmod ymod : Int32}

theorem sticky : Sticky (alone Relspeed.modify) Relspeed.eatNextSyn where
  cleared := by
    rintro data ev ⟨hsyn, -⟩
    have hrel : ev.type ≠ evRel := hsyn ▸ by decide
    rw [step_other (fun hx => hrel hx.1) fun hy => hrel hy.1]
    split
    · rfl
    · rename_i hflag
      exact Bool.eq_false_iff.mpr fun hon => hflag ⟨hsyn, hon⟩
  answer := by
    rintro data ev ⟨hsyn, -⟩
    have hrel : ev.type ≠ evRel := hsyn ▸ by decide
    rw [step_other (fun hx => hrel hx.1) fun hy => hrel hy.1, Bool.and_true]
    cases hon : data.eatNextSyn <;> simp [hsyn]
  mark := by
    intro data ev hsyn
    rcases event_cases ev with h | h | ⟨hx, hy⟩
    · rw [step_x h]
      exact congrArg (data.eatNextSyn || ·) isEmpty_sent.symm
    · rw [step_y h]
      exact congrArg (data.eatNextSyn || ·) isEmpty_sent.symm
    · rw [step_other hx hy, if_neg fun h => hsyn h.1]
      exact (Bool.or_false _).symm

/-- What is kept of the movement on an axis. -/
def keptMove (mod : Int32) (code : UInt16) (received : List InputEvent) : Int32 :=
  (carry fun sum => slowDown sum mod).state 0 (received.filterMap (moved code))

/-- A movement that leaves less than the divisor on its axis. -/
def TooSmall (xmod ymod : Int32) (received : List InputEvent) (ev : InputEvent) : Prop :=
  ev.type = evRel ∧ (ev.code = relX ∧ (keptMove xmod relX received + ev.value).abs < xmod ∨
    ev.code = relY ∧ (keptMove ymod relY received + ev.value).abs < ymod)

instance : Decidable (TooSmall xmod ymod received ev) := inferInstanceAs (Decidable (_ ∧ _))

theorem slowDown_none {sum mod : Int32} : (slowDown sum mod).2.toList = [] ↔ sum.abs < mod := by
  unfold slowDown
  split
  · rename_i h
    exact iff_of_false (List.cons_ne_nil _ _) (Int32.not_lt.mpr h)
  · rename_i h
    exact iff_of_true rfl (Int32.not_le.mp h)

/-- The divisors stay, and `x` and `y` are what is kept. -/
theorem state_eq (xmod ymod : Int32) (received : List InputEvent) :
    let data := (alone Relspeed.modify).state (evfSpeedModRelAlloc xmod ymod) received
    (data.xmod = xmod ∧ data.ymod = ymod) ∧ data.x = keptMove xmod relX received ∧
      data.y = keptMove ymod relY received := by
  intro data
  refine ⟨?_, (simulates_x xmod).state rfl, (simulates_y ymod).state rfl⟩
  exact Transducer.invariant (J := fun data : Relspeed => data.xmod = xmod ∧ data.ymod = ymod) ⟨rfl, rfl⟩
    fun data ev h => ⟨(step_mods data ev).1.trans h.1, (step_mods data ev).2.trans h.2⟩

theorem drops : Drops (alone Relspeed.modify) (evfSpeedModRelAlloc xmod ymod) (TooSmall xmod ymod) := by
  intro received ev hsyn
  obtain ⟨⟨hxmod, hymod⟩, hkx, hky⟩ := state_eq xmod ymod received
  rw [dropped, TooSmall]
  rcases event_cases ev with h | h | ⟨hx, hy⟩
  · rw [step_x h, hxmod, hkx, List.map_eq_nil_iff, slowDown_none]
    simp [h, show relX ≠ relY by decide]
  · rw [step_y h, hymod, hky, List.map_eq_nil_iff, slowDown_none]
    simp [h, show relY ≠ relX by decide]
  · rw [step_other hx hy, if_neg fun h => hsyn h.1]
    refine iff_of_false (List.cons_ne_nil _ _) ?_
    rintro ⟨hrel, ⟨hcode, -⟩ | ⟨hcode, -⟩⟩
    · exact hx ⟨hrel, hcode⟩
    · exact hy ⟨hrel, hcode⟩

end Relspeed

section
variable {β : Type} (next : InputEvent → β → InputEvent × β) (b : β) (xmod ymod : Int32) (ps : List EventPacket)

/-- SpeedMod keeps events and SYN_REPORTs together just if the events of each packet are all too small, or none is. -/
theorem speedMod_syncs_iff : ((driven Relspeed.modify next).batch EventPacket.all).Along
      (Syncs (driven Relspeed.modify next)) (evfSpeedModRelAlloc xmod ymod, b) ps ↔
    (Transducer.history.batch EventPacket.all).Along
      (fun received p => AllOrNone (Relspeed.TooSmall xmod ymod) received p.events) [] ps := by
  have hsticky := Relspeed.sticky.driven next Relspeed.sendsLast
  exact hsticky.toFlags.run_iff rfl (fun _ _ => hsticky.syncs_iff)
    fun _ _ => (Relspeed.drops.driven Relspeed.sendsLast).allOrNone

end

/-- One movement is too small and the other is not. -/
def unequal : EventPacket where
  events := [⟨(0, 0), evRel, relX, 1⟩, ⟨(0, 0), evRel, relY, 5⟩]
  report := ⟨(0, 0), evSyn, synReport, 0⟩
  noSyn := by decide
  isReport := by decide

theorem speedMod_unequal : ¬ ((driven Relspeed.modify (Proc.record id)).batch EventPacket.all).Along
    (Syncs (driven Relspeed.modify (Proc.record id))) (evfSpeedModRelAlloc 2 2, []) [unequal] := by decide

/-! ## Rel2Scroll -/

namespace Rel2scroll

variable {data : Rel2scroll} {ev : InputEvent} {received : List InputEvent} {btn xmod ymod : Int32}

theorem step_report (h : ev.type = evSyn) : (alone Rel2scroll.modify).step data ev =
    ({ data with eatNextSync := false }, if data.eatNextSync then [] else [ev]) := by
  by_cases hon : data.eatNextSync
  · rw [step_dropped ⟨h, hon⟩, if_pos hon]
  · have hrel : ev.type ≠ evRel := h ▸ by decide
    have hkey : ev.type ≠ evKey := h ▸ by decide
    rw [step_passed (fun hs => hon hs.2) (fun ht => hkey ht.1) (fun hx => hrel hx.2.1) fun hy => hrel hy.2.1, if_neg hon]

theorem momentary : Momentary (alone Rel2scroll.modify) Rel2scroll.eatNextSync fun _ => true where
  cleared := by
    rintro data ev ⟨hsyn, -⟩
    rw [step_report hsyn]
  answer := by
    rintro data ev ⟨hsyn, -⟩
    rw [step_report hsyn, Bool.and_true]
  mark := by
    intro data ev hsyn
    rcases branch data ev with h | htrigger | ⟨hon, hx⟩ | ⟨hon, hy⟩ | ⟨hnot, htrigger, hx, hy⟩
    · exact absurd h.1 hsyn
    · rw [step_trigger htrigger]
      rfl
    · rw [step_x hon hx]
      exact isEmpty_sent.symm
    · rw [step_y hon hy]
      exact isEmpty_sent.symm
    · rw [step_passed hnot htrigger hx hy]
      rfl

/-- What is kept of the movement on an axis. -/
def keptScroll (btn mod : Int32) (code : UInt16) (received : List InputEvent) : Int32 :=
  (carry fun sum => scroll sum mod).state 0 (heldMoves btn code received)

/-- An event of the trigger key, or a movement that gives no wheel event while the trigger is on. -/
def Swallowed (btn xmod ymod : Int32) (received : List InputEvent) (ev : InputEvent) : Prop :=
  IsTrigger btn ev ∨ triggered btn received = true ∧ ev.type = evRel ∧
    (ev.code = relX ∧ (keptScroll btn xmod relX received + ev.value) / xmod = 0 ∨
      ev.code = relY ∧ (keptScroll btn ymod relY received + ev.value) / ymod = 0)

instance : Decidable (Swallowed btn xmod ymod received ev) := inferInstanceAs (Decidable (_ ∨ _))

theorem scroll_none {sum mod : Int32} : (scroll sum mod).2.toList = [] ↔ sum / mod = 0 := by
  unfold scroll
  split
  · rename_i h
    exact iff_of_false (List.cons_ne_nil _ _) h
  · rename_i h
    exact iff_of_true rfl (not_not.mp h)

theorem drops : Drops (alone Rel2scroll.modify) (evfRel2scrollAlloc btn xmod ymod) (Swallowed btn xmod ymod) := by
  intro received ev hsyn
  have htracks := tracks_state btn xmod ymod received
  rw [dropped, Swallowed, keptScroll, keptScroll, ← htracks.x, ← htracks.y, ← htracks.on]
  rcases branch ((alone Rel2scroll.modify).state (evfRel2scrollAlloc btn xmod ymod) received) ev with
    h | htrigger | ⟨hon, hx⟩ | ⟨hon, hy⟩ | ⟨hnot, htrigger, hx, hy⟩
  · exact absurd h.1 hsyn
  · rw [step_trigger htrigger]
    exact iff_of_true rfl (Or.inl (htracks.btn_eq ▸ htrigger))
  · rw [step_x hon hx, htracks.xmod_eq, List.map_eq_nil_iff, scroll_none]
    simp [hon, hx, not_trigger hx.1, show relX ≠ relY by decide]
  · rw [step_y hon hy, htracks.ymod_eq, List.map_eq_nil_iff, scroll_none]
    simp [hon, hy, not_trigger hy.1, show relY ≠ relX by decide]
  · rw [step_passed hnot htrigger hx hy]
    rw [htracks.btn_eq] at htrigger
    refine iff_of_false (List.cons_ne_nil _ _) ?_
    rintro (h | ⟨hon, hrel, ⟨hcode, -⟩ | ⟨hcode, -⟩⟩)
    · exact htrigger h
    · exact hx ⟨hon, hrel, hcode⟩
    · exact hy ⟨hon, hrel, hcode⟩

end Rel2scroll

section
variable {β : Type} (next : InputEvent → β → InputEvent × β) (b : β) (btn xmod ymod : Int32) (ps : List EventPacket)

/-- Rel2Scroll keeps events and SYN_REPORTs together just if no packet has other events before a last one that is
swallowed. -/
theorem rel2scroll_syncs_iff : ((driven Rel2scroll.modify next).batch EventPacket.all).Along
      (Syncs (driven Rel2scroll.modify next)) (evfRel2scrollAlloc btn xmod ymod, b) ps ↔
    (Transducer.history.batch EventPacket.all).Along
      (fun received p => AllIfLast (Rel2scroll.Swallowed btn xmod ymod) received p.events) [] ps := by
  have hmomentary := Rel2scroll.momentary.driven next Rel2scroll.sendsLast
  exact hmomentary.toFlags.run_iff rfl (fun _ _ => hmomentary.syncs_iff)
    fun _ _ => (Rel2scroll.drops.driven Rel2scroll.sendsLast).allIfLast

end

/-- An event of a key, and its scan code before it. -/
def scanned (key : UInt16) (value : Int32) : EventPacket where
  events := [⟨(0, 0), 4, 4, 458792⟩, ⟨(0, 0), evKey, key, value⟩]
  report := ⟨(0, 0), evSyn, synReport, 0⟩
  noSyn := by simp [evSyn, evKey]
  isReport := by decide

theorem rel2scroll_scanned : ¬ ((driven Rel2scroll.modify (Proc.record id)).batch EventPacket.all).Along
    (Syncs (driven Rel2scroll.modify (Proc.record id))) (evfRel2scrollAlloc 274 1 1, []) [scanned 274 1] := by decide

/-! ## KeyLock -/

def IsRelease (key : Int32) (ev : InputEvent) : Prop := ev.type = evKey ∧ ev.key = key ∧ ev.value = 0

instance {key : Int32} {ev : InputEvent} : Decidable (IsRelease key ev) := inferInstanceAs (Decidable (_ ∧ _))

namespace KeyLock

variable {priv : KeyLock} {ev : InputEvent} {key v : Int32}

theorem lock_sent {state : Int32} : (lock.step state v).2.isEmpty = decide (v = 0) := by
  by_cases hzero : v = 0
  · subst hzero
    rfl
  by_cases hone : v = 1
  · subst hone
    by_cases hstate : state = 0 <;> simp [lock, hstate]
  · rw [lock_other hzero hone, decide_eq_false hzero]
    rfl

theorem not_key (h : ev.type = evSyn) : keyValue key ev = none :=
  keyValue_eq_none.mpr fun hkey => absurd (h.symm.trans hkey.1) (by decide)

theorem not_eats (h : ev.type ≠ evSyn) : ¬ Eats priv ev := fun heat => h heat.2.1

theorem momentary : Momentary (alone KeyLock.modify) KeyLock.eatNextSync fun ev => ev.value = 0 where
  cleared := by
    rintro priv ev ⟨hsyn, -⟩
    by_cases heat : Eats priv ev
    · rw [step_eaten heat]
    · rw [step_other heat (not_key hsyn)]
  answer := by
    rintro priv ev ⟨hsyn, hcode⟩
    by_cases heat : Eats priv ev
    · rw [step_eaten heat, heat.1, heat.2.2.2]
      rfl
    · rw [step_other heat (not_key hsyn), if_neg fun hon => heat ?_]
      rw [Bool.and_eq_true_iff, decide_eq_true_iff] at hon
      exact ⟨hon.1, hsyn, hcode, hon.2⟩
  mark := by
    intro priv ev hsyn
    cases h : keyValue priv.key ev with
    | none =>
        rw [step_other (not_eats hsyn) h]
        rfl
    | some v =>
        rw [step_key h, List.isEmpty_map, lock_sent]

theorem drops (key : Int32) :
    Drops (alone KeyLock.modify) (evfKeyLockAlloc key) fun _ ev => IsRelease key ev := by
  intro received ev hsyn
  have hkey : ((alone KeyLock.modify).state (evfKeyLockAlloc key) received).key = key :=
    Transducer.invariant (J := fun priv : KeyLock => priv.key = key) rfl (simulates_lock key).keep
  change dropped (alone KeyLock.modify) _ ev ↔ IsRelease key ev
  rw [dropped]
  cases h : keyValue key ev with
  | none =>
      rw [step_other (not_eats hsyn) (by rw [hkey]; exact h)]
      exact iff_of_false (List.cons_ne_nil _ _) fun hrel => keyValue_eq_none.mp h ⟨hrel.1, hrel.2.1⟩
  | some v =>
      obtain ⟨⟨htype, hcode⟩, rfl⟩ := keyValue_eq_some.mp h
      rw [step_key (by rw [hkey]; exact h), ← List.isEmpty_iff, List.isEmpty_map, lock_sent, decide_eq_true_iff]
      exact ⟨fun hzero => ⟨htype, hcode, hzero⟩, fun hrel => hrel.2.2⟩

end KeyLock

/-! ## Btn2Rel -/

namespace Btn2rel

theorem sent_eq_none {data : Btn2rel} {ev : InputEvent} : data.sent ev = none ↔ data.MoveRelease ev := by
  rw [sent, MoveRelease]
  by_cases hkey : ev.type = evKey
  · rw [if_pos hkey, translate_eq_none, and_iff_right hkey]
  · rw [if_neg hkey]
    exact iff_of_false (Option.some_ne_none ev) fun h => hkey h.1

theorem sticky : Sticky (alone Btn2rel.modify) Btn2rel.eatNextSyn where
  cleared := by
    rintro data ev ⟨hsyn, -⟩
    rw [step_syn hsyn]
  answer := by
    rintro data ev ⟨hsyn, -⟩
    rw [step_syn hsyn, Bool.and_true]
  mark := by
    intro data ev hsyn
    rw [step_sent hsyn]
    cases data.sent ev <;> rfl

theorem drops (data : Btn2rel) : Drops (alone Btn2rel.modify) data fun _ ev => data.MoveRelease ev := by
  intro received ev hsyn
  obtain ⟨flag, hstate⟩ := state_eq data received
  change dropped (alone Btn2rel.modify) _ ev ↔ data.MoveRelease ev
  rw [dropped, hstate, step_sent hsyn, Option.toList_eq_nil_iff]
  exact sent_eq_none

end Btn2rel

section
variable {β : Type} (next : InputEvent → β → InputEvent × β) (b : β) (ps : List EventPacket)

theorem keyLock_keepsReport_iff (key : Int32) :
    ((driven KeyLock.modify next).batch EventPacket.all).Along (KeepsReport (driven KeyLock.modify next))
        (evfKeyLockAlloc key, b) ps ↔
      ∀ p ∈ ps, p.report.value = 0 → ∀ before ev, p.events = before ++ [ev] → IsRelease key ev →
        ∀ e ∈ before, IsRelease key e := by
  have hmomentary := KeyLock.momentary.driven next KeyLock.sendsLast
  rw [← Transducer.along_const]
  refine hmomentary.toFlags.run_iff rfl (fun _ _ => hmomentary.keepsReport_iff) fun received p => ?_
  rw [decide_eq_true_iff]
  refine imp_congr_right fun _ => ((KeyLock.drops key).driven KeyLock.sendsLast).allIfLast.trans ?_
  exact forall₄_congr fun _ _ _ _ => Transducer.along_const

theorem btn2rel_keepsReport_iff (k : BtnKeys) :
    ((driven Btn2rel.modify next).batch EventPacket.all).Along (KeepsReport (driven Btn2rel.modify next))
        (k.filter, b) ps ↔
      ∀ p ∈ ps, (∀ ev ∈ p.events, k.filter.MoveRelease ev) ∨ ∀ ev ∈ p.events, ¬ k.filter.MoveRelease ev := by
  have hsticky := Btn2rel.sticky.driven next Btn2rel.sendsLast
  rw [← Transducer.along_const]
  refine hsticky.toFlags.run_iff rfl (fun _ _ => hsticky.keepsReport_iff) fun received p => ?_
  exact ((Btn2rel.drops k.filter).driven Btn2rel.sendsLast).allOrNone.trans
    (or_congr Transducer.along_const Transducer.along_const)

/-- KeyLock keeps the reports of other events just if no packet with another event ends in a release of its key, and
Btn2Rel just if no packet has both a release of a movement key and another event. -/
theorem keepsReports_iff (key : Int32) (k : BtnKeys) :
    (((driven KeyLock.modify next).batch EventPacket.all).Along (KeepsReport (driven KeyLock.modify next))
        (evfKeyLockAlloc key, b) ps ↔
      ∀ p ∈ ps, p.report.value = 0 → ∀ before ev, p.events = before ++ [ev] → IsRelease key ev →
        ∀ e ∈ before, IsRelease key e) ∧
    (((driven Btn2rel.modify next).batch EventPacket.all).Along (KeepsReport (driven Btn2rel.modify next))
        (k.filter, b) ps ↔
      ∀ p ∈ ps, (∀ ev ∈ p.events, k.filter.MoveRelease ev) ∨ ∀ ev ∈ p.events, ¬ k.filter.MoveRelease ev) :=
  ⟨keyLock_keepsReport_iff next b ps key, btn2rel_keepsReport_iff next b ps k⟩

end

/-- A release of the locked key, and one of the key for moving up. -/
theorem keepsReports_scanned :
    ¬ ((driven KeyLock.modify (Proc.record id)).batch EventPacket.all).Along
        (KeepsReport (driven KeyLock.modify (Proc.record id))) (evfKeyLockAlloc 58, []) [scanned 58 1, scanned 58 0] ∧
      ¬ ((driven Btn2rel.modify (Proc.record id)).batch EventPacket.all).Along
        (KeepsReport (driven Btn2rel.modify (Proc.record id))) ((BtnKeys.mk 103 0 0 0 0 0 0).filter, [])
        [scanned 103 1, scanned 103 0] := by decide

end Evfilter.Filters
