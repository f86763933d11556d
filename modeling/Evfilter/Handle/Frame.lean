import Evfilter.Handle.Lemmas.Invariants
import Mathlib.Data.List.Nodup

/-!
# Destroy and detach leave the other handles alone

Both calls end in `handle_free` when nothing keeps the handle. For the second handle of the list the search of
`handle_free` stops at the first one and takes it for the head, so that the first handle is lost with it.
-/

namespace Evfilter.Handle
open Lib

/-- The handle that a destroy or a detach is about. -/
def concerned (s : Sys) : Op → Option Addr
  | .destroy a => some a
  | .detach f => (s.receivers.find? (·.filter == f)).bind fun r => handleLookup s.reg r.name
  | _ => none

/-- The handle that the call passes to `handle_free`. -/
def freeing (s : Sys) : Op → Option Addr
  | .destroy a => (s.reg.val? a).bind fun v => if v.refcount ≤ 1 ∧ v.filter = none then some a else none
  | .detach f => (concerned s (.detach f)).bind fun a =>
      (s.reg.val? a).bind fun v => if v.refcount = 0 then some a else none
  | _ => none

/-- The handles other than `a` are in the list as before, in the same order and with the same fields, and
every name that is not the one of `a` leads to the same handle. -/
def OthersKept (r r' : Registry) (a : Addr) : Prop :=
  r'.addrs.filter (· ≠ a) = r.addrs.filter (· ≠ a) ∧ (∀ b, b ≠ a → r'.val? b = r.val? b) ∧
  ∀ name, r.Named name a = false → handleLookup r' name = handleLookup r name

variable {s s' : Sys} {a b : Addr} {v : EvfHandle} {op : Op} {r r' : Registry} {as : List Addr}
  {o : Option EvfHandle}

theorem concerned_becomes (hw : s.Wf) (h : step s op = some s') (hc : concerned s op = some a) :
    ∃ v o, s.reg.val? a = some v ∧ (∀ w, o = some w → w.name = v.name) ∧
      ((freeing s op = none ∧ Becomes s.reg s'.reg s.reg.addrs a o) ∨
        (freeing s op = some a ∧ Becomes s.reg s'.reg (unlinked a s.reg.addrs) a o)) := by
  cases op with
  | create name malloc => cases hc
  | attach name f send malloc => cases hc
  | destroy self =>
      cases hc
      obtain ⟨_, _, _, v, hv, ⟨h1, hb⟩ | ⟨h1, hf, hb⟩ | ⟨h1, hf, he⟩⟩ := step_destroy hw h
      · refine ⟨v, _, hv, ?_, Or.inl ⟨?_, hb⟩⟩
        · rintro w ⟨⟩; rfl
        · simp [freeing, hv, Nat.not_le_of_lt h1]
      · refine ⟨v, _, hv, ?_, Or.inr ⟨by simp [freeing, hv, h1, hf], hb⟩⟩
        intro w hw'
        split at hw' <;> cases hw'
        rfl
      · refine ⟨v, some v, hv, ?_, Or.inl ⟨by simp [freeing, hv, hf], ?_⟩⟩
        · rintro w ⟨⟩; rfl
        · rw [he]; exact becomes_refl hw.ok hv
  | detach f =>
      obtain ⟨r, _, hr, _, _, _, ⟨hl, _⟩ | ⟨i, v, hl, _, hv, h0, hb⟩ | ⟨i, v, hl, _, hv, h0, hb⟩⟩ :=
        step_detach hw.ok h
      · simp [concerned, hr, hl] at hc
      · have hi : i = a := by simpa [concerned, hr, hl] using hc
        subst hi
        refine ⟨v, _, hv, ?_, Or.inl ⟨?_, hb⟩⟩
        · rintro w ⟨⟩; rfl
        · simp [freeing, concerned, hr, hl, hv, Nat.pos_iff_ne_zero.mp h0]
      · have hi : i = a := by simpa [concerned, hr, hl] using hc
        subst hi
        refine ⟨v, _, hv, ?_, Or.inr ⟨by simp [freeing, concerned, hr, hl, hv, h0], hb⟩⟩
        intro w hw'
        split at hw' <;> cases hw'
        rfl

/-- A name that is not the one of `a` is looked up among the other handles. -/
theorem handleLookup_others {name : CString} (hr : r.Ok) (hn : r.Named name a = false) :
    handleLookup r name = (r.addrs.filter (· ≠ a)).find? (r.Named name) := by
  rw [handleLookup_eq hr, List.find?_filter]
  apply List.find?_congr
  intro b _
  by_cases hb : b = a
  · simp [hb, hn]
  · simp [hb]

theorem othersKept_of_becomes (hr : r.Ok) (hv : r.val? a = some v) (hb : Becomes r r' as a o)
    (hname : ∀ w, o = some w → w.name = v.name)
    (has : as.filter (· ≠ a) = r.addrs.filter (· ≠ a)) : OthersKept r r' a := by
  refine ⟨hb.addrs ▸ has, fun b hne => hb.val_ne hne, fun name hn => ?_⟩
  have hn' : r'.Named name a = false := by
    simp only [Registry.Named, hb.val_self, hv, Option.any_some] at hn ⊢
    cases o with
    | none => rfl
    | some w => rw [Option.any_some, hname w rfl]; exact hn
  rw [handleLookup_others hb.ok hn', handleLookup_others hr hn, hb.addrs, has]
  apply List.find?_congr
  intro b hb'
  have hne : b ≠ a := by simpa using (List.mem_filter.mp hb').2
  simp [Registry.Named, hb.val_ne hne]

theorem filter_ne_erase {l : List Addr} (hl : l.Nodup) :
    (l.erase a).filter (· ≠ a) = l.filter (· ≠ a) := by
  rw [hl.erase_eq_filter, List.filter_filter]
  exact List.filter_congr fun x _ => by simp

/-- Unlinking drops another handle exactly when it unlinks the second one. -/
theorem unlinked_filter {l : List Addr} (hl : l.Nodup) :
    (unlinked a l).filter (· ≠ a) = l.filter (· ≠ a) ↔ l[1]? ≠ some a := by
  match l with
  | [] => simp [unlinked]
  | [x] => simp [unlinked]
  | x :: y :: l =>
      by_cases hy : y = a
      · subst hy
        have hx : x ≠ y := by rintro rfl; simp at hl
        have hlen : ∀ m : List Addr, m ≠ x :: m := fun m h => by
          simpa using congrArg List.length h
        simp [unlinked, hx, hlen]
      · rw [unlinked, if_neg hy, List.filter_cons, List.filter_cons,
          filter_ne_erase (List.nodup_cons.mp hl).2]
        simp [hy]

/-- Which calls of `evf_handle_destroy` and `evf_handle_detach` leave all other handles alone. -/
theorem others_kept_iff (hs : machine.Reachable s) (h : step s op = some s')
    (hc : concerned s op = some a) :
    OthersKept s.reg s'.reg a ↔ ¬ (freeing s op = some a ∧ s.reg.addrs[1]? = some a) := by
  have hw := wf_reachable hs
  obtain ⟨v, o, hv, hname, ⟨hf, hb⟩ | ⟨hf, hb⟩⟩ := concerned_becomes hw h hc
  · simp only [hf, reduceCtorEq, false_and, not_false_eq_true, iff_true]
    exact othersKept_of_becomes hw.ok hv hb hname rfl
  · simp only [hf, true_and]
    rw [← ne_eq, ← unlinked_filter hw.ok.nodup]
    constructor
    · exact fun hk => hb.addrs ▸ hk.1
    · exact othersKept_of_becomes hw.ok hv hb hname

/-! ## A run that loses a handle -/

def nameA : CString := ⟨[97], by decide⟩

def nameB : CString := ⟨[98], by decide⟩

def nameC : CString := ⟨[99], by decide⟩

/-- Three senders with a handle each; the list is that of the handles 2, 1 and 0. -/
def threeHandles : Sys :=
  (machine.run machine.init [.create nameA true, .create nameB true, .create nameC true]).getD
    machine.init

theorem threeHandles_reachable : machine.Reachable threeHandles :=
  Machine.reachable_iff.mpr
    ⟨[.create nameA true, .create nameB true, .create nameC true], by decide⟩

theorem others_kept_destroy_last : ∃ s', step threeHandles (.destroy 0) = some s' ∧
    OthersKept threeHandles.reg s'.reg 0 := by
  have h : step threeHandles (.destroy 0) =
      some ((step threeHandles (.destroy 0)).getD threeHandles) := by decide
  exact ⟨_, h, (others_kept_iff threeHandles_reachable h rfl).mpr (by decide)⟩

/-- Destroying handle 1 takes handle 2 out of the list. -/
theorem others_not_kept : ¬ ∀ (s s' : Sys) (op : Op) (a : Addr), machine.Reachable s →
    step s op = some s' → concerned s op = some a → OthersKept s.reg s'.reg a := by
  intro h
  have hk := h threeHandles _ (.destroy 1) 1 threeHandles_reachable rfl rfl
  exact absurd hk.1 (by decide)

end Evfilter.Handle
