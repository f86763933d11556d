import Evfilter.Filters.Event
import Evfilter.Lib.Heap

/-!
# FilterToHandle

Events of one type and code go to the handle, the others to the next filter. Packets end with a SYN, and two flags
decide which of the two gets it.
-/

namespace Evfilter.Filters
open Lib

/-- The argument of `evf_handle_send`, or the next filter. -/
inductive Dest
  | handle (self : Addr)
  | next
deriving DecidableEq

structure FilterToHandle where
  type : Int32
  code : Int32
  syncFlag : Bool
  evFlag : Bool
  handle : Addr
deriving DecidableEq

/-- `evFlag` is what `malloc` left in the field. -/
def evfFilterToHandleAlloc (handle : Addr) (type code : Int32) (evFlag : Bool) : FilterToHandle :=
  { type, code, syncFlag := false, evFlag, handle }

/-- The event is of the type and code of the filter. -/
def FilterToHandle.Redirects (priv : FilterToHandle) (ev : InputEvent) : Prop :=
  ev.type.toUInt32.toInt32 = priv.type ∧ ev.key = priv.code

instance (priv : FilterToHandle) (ev : InputEvent) : Decidable (priv.Redirects ev) :=
  inferInstanceAs (Decidable (ev.type.toUInt32.toInt32 = priv.type ∧ ev.key = priv.code))

def FilterToHandle.modify (priv : FilterToHandle) (ev : InputEvent) :
    Proc (Dest × InputEvent) InputEvent FilterToHandle := do
  if ev.type = 0 ∧ ev.code = 0 ∧ ev.value = 0 ∧ priv.syncFlag then
    let ev ← Proc.perform (.handle priv.handle, ev)
    if priv.evFlag then
      let _ ← Proc.perform (.next, ev)
    return priv
  if priv.Redirects ev then
    let _ ← Proc.perform (.handle priv.handle, ev)
    return { priv with syncFlag := true, evFlag := false }
  else
    let _ ← Proc.perform (.next, ev)
    return { priv with evFlag := true }

/-! ## Streams -/

variable {ω : Type} (callee : Dest × InputEvent → ω → InputEvent × ω)

/-- One call of `modify`: the filter and what is behind it. -/
def FilterToHandle.process (s : FilterToHandle × ω) (ev : InputEvent) : FilterToHandle × ω :=
  (s.1.modify ev).drive callee s.2

def processAll (s : FilterToHandle × ω) (evs : List InputEvent) : FilterToHandle × ω :=
  evs.foldl (FilterToHandle.process callee) s

/-- What each of the destinations gets. -/
def sentFor : FilterToHandle × ω → List InputEvent → List (Dest × InputEvent)
  | _, [] => []
  | s, ev :: evs => (s.1.modify ev).calls callee s.2 ++ sentFor (FilterToHandle.process callee s ev) evs

/-- Events and the SYN that ends them. -/
structure SynPacket where
  events : List InputEvent
  syn : InputEvent
  events_type : ∀ ev ∈ events, ev.type ≠ evSyn
  syn_eq : syn.type = evSyn ∧ syn.code = synReport ∧ syn.value = 0

def SynPacket.all (p : SynPacket) : List InputEvent := p.events ++ [p.syn]

def processPackets (s : FilterToHandle × ω) (ps : List SynPacket) : FilterToHandle × ω :=
  ps.foldl (fun s p => processAll callee s p.all) s

/-- A destination gets the SYN of the packet just when it gets one of the events. -/
def EndsFor (s : FilterToHandle × ω) (p : SynPacket) (dest : Dest) : Prop :=
  (dest, p.syn) ∈ sentFor callee (processAll callee s p.events) [p.syn] ↔
    ∃ ev, (dest, ev) ∈ sentFor callee s p.events

def Ends (s : FilterToHandle × ω) (p : SynPacket) : Prop :=
  EndsFor callee s p (.handle s.1.handle) ∧ EndsFor callee s p .next

/-! ## One event -/

def FilterToHandle.dest (priv : FilterToHandle) (ev : InputEvent) : Dest :=
  if priv.Redirects ev then .handle priv.handle else .next

/-- The flags after an event that is no SYN. -/
def FilterToHandle.mark (priv : FilterToHandle) (ev : InputEvent) : FilterToHandle :=
  { priv with syncFlag := priv.syncFlag || decide (priv.Redirects ev), evFlag := !decide (priv.Redirects ev) }

variable {callee} {s : FilterToHandle × ω} {priv : FilterToHandle} {ev syn : InputEvent} {evs : List InputEvent}
  {w : ω} {p : SynPacket} {ps : List SynPacket}

/-- The branches behind the first `if`. -/
theorem modify_direct (h : ¬ (ev.type = 0 ∧ ev.code = 0 ∧ ev.value = 0 ∧ priv.syncFlag)) :
    priv.modify ev = Proc.call (priv.dest ev, ev) fun _ => Proc.done (priv.mark ev) := by
  unfold FilterToHandle.modify FilterToHandle.dest FilterToHandle.mark
  by_cases hr : priv.Redirects ev
  · simp [h, hr, Proc.perform]
  · simp [h, hr, Proc.perform]

variable (callee w) in
theorem calls_direct (h : ¬ (ev.type = 0 ∧ ev.code = 0 ∧ ev.value = 0 ∧ priv.syncFlag)) :
    (priv.modify ev).calls callee w = [(priv.dest ev, ev)] ∧
      ((priv.modify ev).drive callee w).1 = priv.mark ev := by
  rw [modify_direct h]
  exact ⟨rfl, rfl⟩

variable (callee w) in
theorem calls_syn (hsyn : syn.type = evSyn ∧ syn.code = synReport ∧ syn.value = 0) (h : priv.syncFlag = true) :
    (priv.modify syn).calls callee w = (.handle priv.handle, syn) ::
        (if priv.evFlag then [(.next, (callee (.handle priv.handle, syn) w).1)] else []) ∧
      ((priv.modify syn).drive callee w).1 = priv := by
  have hif : syn.type = 0 ∧ syn.code = 0 ∧ syn.value = 0 ∧ priv.syncFlag = true :=
    ⟨hsyn.1, hsyn.2.1, hsyn.2.2, h⟩
  unfold FilterToHandle.modify
  cases he : priv.evFlag with
  | true =>
      simp only [if_pos hif, ↓reduceIte]
      exact ⟨rfl, rfl⟩
  | false =>
      simp only [if_pos hif, Bool.false_eq_true, ↓reduceIte]
      exact ⟨rfl, rfl⟩

/-! ## The events of a packet -/

theorem mark_dest (priv : FilterToHandle) (ev : InputEvent) : (priv.mark ev).dest = priv.dest := rfl

/-- Whether the last event has not been redirected. -/
def FilterToHandle.lastSent (priv : FilterToHandle) (evs : List InputEvent) (evFlag : Bool) : Bool :=
  match evs.getLast? with
  | none => evFlag
  | some ev => !decide (priv.Redirects ev)

variable (callee s) in
theorem process_events (hevs : ∀ ev ∈ evs, ev.type ≠ evSyn) :
    sentFor callee s evs = evs.map (fun ev => (s.1.dest ev, ev)) ∧
      (processAll callee s evs).1 = { s.1 with
        syncFlag := s.1.syncFlag || evs.any fun ev => decide (s.1.Redirects ev)
        evFlag := s.1.lastSent evs s.1.evFlag } := by
  induction evs generalizing s with
  | nil => exact ⟨rfl, by simp [processAll, FilterToHandle.lastSent]⟩
  | cons ev evs ih =>
      obtain ⟨hev, hevs⟩ := List.forall_mem_cons.mp hevs
      have hdirect : ¬ (ev.type = 0 ∧ ev.code = 0 ∧ ev.value = 0 ∧ s.1.syncFlag) := fun h => hev h.1
      obtain ⟨hcalls, hstate⟩ := calls_direct callee s.2 hdirect
      have hmark : (FilterToHandle.process callee s ev).1 = s.1.mark ev := hstate
      obtain ⟨hsent, hrun⟩ := ih (s := FilterToHandle.process callee s ev) hevs
      rw [hmark, mark_dest] at hsent
      rw [hmark] at hrun
      refine ⟨?_, ?_⟩
      · rw [sentFor, hcalls, hsent]
        rfl
      · change (processAll callee (FilterToHandle.process callee s ev) evs).1 = _
        rw [hrun]
        simp only [FilterToHandle.mark, FilterToHandle.lastSent, List.any_cons, Bool.or_assoc]
        cases evs with
        | nil => rfl
        | cons ev' evs =>
            rw [List.getLast?_cons_cons]
            rfl

/-! ## The SYN -/

theorem dest_eq_handle : priv.dest ev = .handle priv.handle ↔ priv.Redirects ev := by
  unfold FilterToHandle.dest
  split <;> simp [*]

theorem dest_eq_next : priv.dest ev = .next ↔ ¬ priv.Redirects ev := by
  unfold FilterToHandle.dest
  split <;> simp [*]

theorem got_iff (dest : Dest) (hevs : ∀ ev ∈ p.events, ev.type ≠ evSyn) :
    (∃ ev, (dest, ev) ∈ sentFor callee s p.events) ↔ ∃ ev ∈ p.events, s.1.dest ev = dest := by
  rw [(process_events callee s hevs).1]
  constructor
  · rintro ⟨ev, hev⟩
    obtain ⟨ev', hmem, heq⟩ := List.mem_map.mp hev
    exact ⟨ev', hmem, (Prod.mk.inj heq).1⟩
  · rintro ⟨ev, hev, rfl⟩
    exact ⟨ev, List.mem_map.mpr ⟨ev, hev, rfl⟩⟩

theorem lastSent_iff (evFlag : Bool) (hne : evs ≠ []) :
    priv.lastSent evs evFlag = true ↔ ∀ ev ∈ evs.getLast?, ¬ priv.Redirects ev := by
  unfold FilterToHandle.lastSent
  cases h : evs.getLast? with
  | none => exact absurd (List.getLast?_eq_none_iff.mp h) hne
  | some ev => simp

/-- The handle gets the SYN, and the next filter if the last event was for it. -/
theorem ends_synced (hne : p.events ≠ [])
    (hsync : s.1.syncFlag = true ∨ ∃ ev ∈ p.events, s.1.Redirects ev) :
    Ends callee s p ↔ (∃ ev ∈ p.events, s.1.Redirects ev) ∧
      ((∃ ev ∈ p.events, ¬ s.1.Redirects ev) → (∀ ev ∈ p.events.getLast?, ¬ s.1.Redirects ev) ∧
        (callee (.handle s.1.handle, p.syn) (processAll callee s p.events).2).1 = p.syn) := by
  have hstate := (process_events callee s p.events_type).2
  have hflag : (processAll callee s p.events).1.syncFlag = true := by
    rw [hstate]
    simpa using hsync
  have hhandle : (processAll callee s p.events).1.handle = s.1.handle := by rw [hstate]
  have hev : (processAll callee s p.events).1.evFlag = s.1.lastSent p.events s.1.evFlag := by rw [hstate]
  have hcalls := (calls_syn callee (processAll callee s p.events).2 p.syn_eq hflag).1
  rw [hhandle, hev] at hcalls
  have hsent : sentFor callee (processAll callee s p.events) [p.syn] = _ := (List.append_nil _).trans hcalls
  unfold Ends EndsFor
  rw [got_iff _ p.events_type, got_iff _ p.events_type, hsent, ← lastSent_iff s.1.evFlag hne]
  simp only [dest_eq_handle, dest_eq_next]
  have hlast : s.1.lastSent p.events s.1.evFlag = true → ∃ ev ∈ p.events, ¬ s.1.Redirects ev := by
    intro h
    obtain ⟨l, ev, hl⟩ : ∃ l ev, p.events = l ++ [ev] :=
      ⟨_, _, (List.dropLast_append_getLast hne).symm⟩
    refine ⟨ev, by simp [hl], (lastSent_iff _ hne).mp h ev ?_⟩
    rw [hl, List.getLast?_concat]
    rfl
  cases hl : s.1.lastSent p.events s.1.evFlag with
  | true =>
      have hn := hlast hl
      simp [hn, eq_comm]
  | false => simp

/-- No event was redirected, in this packet or before. -/
theorem ends_unsynced (hne : p.events ≠ []) (hsync : s.1.syncFlag = false)
    (hnone : ∀ ev ∈ p.events, ¬ s.1.Redirects ev) : Ends callee s p ↔ ¬ s.1.Redirects p.syn := by
  have hstate := (process_events callee s p.events_type).2
  have hany : (p.events.any fun ev => decide (s.1.Redirects ev)) = false := by simpa using hnone
  have hflag : (processAll callee s p.events).1.syncFlag = false := by
    rw [hstate, hsync, hany]
    rfl
  have hdest : (processAll callee s p.events).1.dest = s.1.dest := by rw [hstate]; rfl
  have hdirect : ¬ (p.syn.type = 0 ∧ p.syn.code = 0 ∧ p.syn.value = 0 ∧
      (processAll callee s p.events).1.syncFlag = true) := by simp [hflag]
  have hcalls := (calls_direct callee (processAll callee s p.events).2 hdirect).1
  rw [hdest] at hcalls
  have hsent : sentFor callee (processAll callee s p.events) [p.syn] = _ := (List.append_nil _).trans hcalls
  obtain ⟨ev, hev⟩ := List.exists_mem_of_ne_nil _ hne
  unfold Ends EndsFor
  rw [got_iff _ p.events_type, got_iff _ p.events_type, hsent]
  simp only [dest_eq_handle, dest_eq_next]
  rw [FilterToHandle.dest]
  have hhandle : ¬ ∃ ev ∈ p.events, s.1.Redirects ev := fun ⟨ev, hmem, hr⟩ => hnone ev hmem hr
  have hnext : ∃ ev ∈ p.events, ¬ s.1.Redirects ev := ⟨ev, hev, hnone ev hev⟩
  by_cases hr : s.1.Redirects p.syn
  · rw [if_pos hr]
    exact iff_of_false (fun h => hhandle (h.1.mp List.mem_cons_self)) (not_not_intro hr)
  · rw [if_neg hr]
    exact iff_of_true ⟨iff_of_false (by simp) hhandle, iff_of_true List.mem_cons_self hnext⟩ hr

/-! ## Earlier packets -/

/-- What the filter is made with. -/
def FilterToHandle.Like (priv priv' : FilterToHandle) : Prop :=
  priv.type = priv'.type ∧ priv.code = priv'.code ∧ priv.handle = priv'.handle

theorem redirects_syn (hsyn : syn.type = evSyn ∧ syn.code = synReport ∧ syn.value = 0) :
    priv.Redirects syn ↔ priv.type = 0 ∧ priv.code = 0 := by
  rw [FilterToHandle.Redirects, InputEvent.key, hsyn.1, hsyn.2.1]
  exact and_congr eq_comm eq_comm

theorem FilterToHandle.Like.redirects {priv' : FilterToHandle} (h : priv.Like priv') :
    priv.Redirects = priv'.Redirects := by
  funext ev
  rw [FilterToHandle.Redirects, FilterToHandle.Redirects, h.1, h.2.1]

theorem FilterToHandle.Like.trans {a b c : FilterToHandle} (h₁ : a.Like b) (h₂ : b.Like c) : a.Like c :=
  ⟨h₁.1.trans h₂.1, h₁.2.1.trans h₂.2.1, h₁.2.2.trans h₂.2.2⟩

variable (callee) in
theorem process_like (s : FilterToHandle × ω) (ev : InputEvent) :
    (FilterToHandle.process callee s ev).1.Like s.1 := by
  by_cases h : ev.type = 0 ∧ ev.code = 0 ∧ ev.value = 0 ∧ s.1.syncFlag = true
  · have hsame : (FilterToHandle.process callee s ev).1 = s.1 :=
      (calls_syn callee s.2 ⟨h.1, h.2.1, h.2.2.1⟩ h.2.2.2).2
    rw [hsame]
    exact ⟨rfl, rfl, rfl⟩
  · have hmark : (FilterToHandle.process callee s ev).1 = s.1.mark ev :=
      (calls_direct callee s.2 h).2
    rw [hmark]
    exact ⟨rfl, rfl, rfl⟩

variable (callee) in
theorem processAll_like (s : FilterToHandle × ω) (evs : List InputEvent) :
    (processAll callee s evs).1.Like s.1 := by
  induction evs generalizing s with
  | nil => exact ⟨rfl, rfl, rfl⟩
  | cons ev evs ih => exact (ih _).trans (process_like callee s ev)

variable (callee) in
theorem processPackets_like (s : FilterToHandle × ω) (ps : List SynPacket) :
    (processPackets callee s ps).1.Like s.1 := by
  induction ps generalizing s with
  | nil => exact ⟨rfl, rfl, rfl⟩
  | cons p ps ih => exact (ih _).trans (processAll_like callee s p.all)

/-- The first flag tells whether an event has been redirected. -/
theorem packet_flag (h : ¬ (s.1.type = 0 ∧ s.1.code = 0)) (p : SynPacket) :
    (processAll callee s p.all).1.syncFlag = true ↔
      s.1.syncFlag = true ∨ ∃ ev ∈ p.events, s.1.Redirects ev := by
  have hstate := (process_events callee s p.events_type).2
  have hflag : (processAll callee s p.events).1.syncFlag = true ↔
      s.1.syncFlag = true ∨ ∃ ev ∈ p.events, s.1.Redirects ev := by
    rw [hstate]
    simp
  have hall : processAll callee s p.all =
      FilterToHandle.process callee (processAll callee s p.events) p.syn := by
    rw [processAll, SynPacket.all, List.foldl_append]
    rfl
  rw [hall, ← hflag]
  by_cases hsync : (processAll callee s p.events).1.syncFlag = true
  · have hsame : (FilterToHandle.process callee (processAll callee s p.events) p.syn).1 =
        (processAll callee s p.events).1 :=
      (calls_syn callee (processAll callee s p.events).2 p.syn_eq hsync).2
    rw [hsame]
  · have hmark : (FilterToHandle.process callee (processAll callee s p.events) p.syn).1 =
        (processAll callee s p.events).1.mark p.syn :=
      (calls_direct callee (processAll callee s p.events).2 fun h => hsync h.2.2.2).2
    have hred : ¬ (processAll callee s p.events).1.Redirects p.syn := by
      rw [(processAll_like callee s p.events).redirects, redirects_syn p.syn_eq]
      exact h
    rw [hmark]
    simp [FilterToHandle.mark, hred]

variable (callee s) in
theorem packets_flag (h : ¬ (s.1.type = 0 ∧ s.1.code = 0)) (ps : List SynPacket) :
    (processPackets callee s ps).1.syncFlag = true ↔
      s.1.syncFlag = true ∨ ∃ p ∈ ps, ∃ ev ∈ p.events, s.1.Redirects ev := by
  induction ps generalizing s with
  | nil => simp [processPackets]
  | cons p ps ih =>
      have hlike := processAll_like callee s p.all
      have hrest := ih (s := processAll callee s p.all) (by rw [hlike.1, hlike.2.1]; exact h)
      change (processPackets callee (processAll callee s p.all) ps).1.syncFlag = true ↔ _
      rw [hrest, packet_flag h, hlike.redirects]
      simp only [List.mem_cons, exists_eq_or_imp, or_assoc]

/-- What is behind the filter leaves the SYN as it was when it comes through the handle. -/
def LeavesSyn (callee : Dest × InputEvent → ω → InputEvent × ω) (s : FilterToHandle × ω) (p : SynPacket) : Prop :=
  (callee (.handle s.1.handle, p.syn) (processAll callee s p.events).2).1 = p.syn

/-- A packet with events ends right in two cases. Either one of its events is redirected, and if another is not, then
the last one is not, and the SYN comes back unchanged from the handle. Or no event has ever been redirected, and
the filter is not for SYNs. -/
theorem ends_iff (callee : Dest × InputEvent → ω → InputEvent × ω) (handle : Addr) (type code : Int32)
    (evFlag : Bool) (w : ω) (earlier : List SynPacket) (p : SynPacket) (hne : p.events ≠ []) :
    let priv := evfFilterToHandleAlloc handle type code evFlag
    let s := processPackets callee (priv, w) earlier
    Ends callee s p ↔
      ((∃ ev ∈ p.events, priv.Redirects ev) ∧ ((∃ ev ∈ p.events, ¬ priv.Redirects ev) →
          (∀ ev ∈ p.events.getLast?, ¬ priv.Redirects ev) ∧ LeavesSyn callee s p)) ∨
        ((∀ q ∈ p :: earlier, ∀ ev ∈ q.events, ¬ priv.Redirects ev) ∧ ¬ (type = 0 ∧ code = 0)) := by
  intro priv s
  have hlike : s.1.Like priv := processPackets_like callee (priv, w) earlier
  have hred : s.1.Redirects = priv.Redirects := hlike.redirects
  have hsyn : s.1.Redirects p.syn ↔ type = 0 ∧ code = 0 := by rw [redirects_syn p.syn_eq, hlike.1, hlike.2.1]; rfl
  by_cases hR : ∃ ev ∈ p.events, priv.Redirects ev
  · have hends : Ends callee s p ↔ _ := ends_synced hne (Or.inr (by rwa [hred]))
    rw [hends, hred]
    obtain ⟨ev, hev, hr⟩ := hR
    have hlater : ¬ ((∀ q ∈ p :: earlier, ∀ ev ∈ q.events, ¬ priv.Redirects ev) ∧ ¬ (type = 0 ∧ code = 0)) :=
      fun h => h.1 p List.mem_cons_self ev hev hr
    rw [or_iff_left hlater]
    rfl
  · have hnone : ∀ ev ∈ p.events, ¬ s.1.Redirects ev := by
      rw [hred]
      exact fun ev hev hr => hR ⟨ev, hev, hr⟩
    rw [or_iff_right fun h => hR h.1]
    cases hflag : s.1.syncFlag with
    | true =>
        have hends : Ends callee s p ↔ _ := ends_synced hne (Or.inl hflag)
        rw [hends, hred]
        refine iff_of_false (fun h => hR h.1) fun ⟨hnever, hcode⟩ => ?_
        have hearlier := (packets_flag callee (priv, w) hcode earlier).mp hflag
        rcases hearlier with h | ⟨q, hq, ev, hev, hr⟩
        · cases h
        · exact hnever q (List.mem_cons_of_mem _ hq) ev hev hr
    | false =>
        have hends : Ends callee s p ↔ _ := ends_unsynced hne hflag hnone
        rw [hends, hsyn]
        refine ⟨fun hcode => ⟨fun q hq ev hev hr => ?_, hcode⟩, fun h => h.2⟩
        rcases List.mem_cons.mp hq with rfl | hq
        · exact hR ⟨ev, hev, hr⟩
        · have := (packets_flag callee (priv, w) hcode earlier).mpr (Or.inr ⟨q, hq, ev, hev, hr⟩)
          exact absurd (hflag.symm.trans this) Bool.false_ne_true

/-- A movement in each direction, the one along the x axis last. -/
def twoMoves : SynPacket where
  events := [⟨(0, 0), evRel, relY, 1⟩, ⟨(0, 0), evRel, relX, 5⟩]
  syn := ⟨(0, 0), evSyn, synReport, 0⟩
  events_type := by decide
  syn_eq := by decide

theorem ends_two_moves :
    let priv := evfFilterToHandleAlloc 0 2 1 false
    Ends (Proc.record Prod.snd) (priv, []) twoMoves ↔
      ((∃ ev ∈ twoMoves.events, priv.Redirects ev) ∧ ((∃ ev ∈ twoMoves.events, ¬ priv.Redirects ev) →
          (∀ ev ∈ twoMoves.events.getLast?, ¬ priv.Redirects ev) ∧
            LeavesSyn (Proc.record Prod.snd) (priv, []) twoMoves)) ∨
        ((∀ q ∈ twoMoves :: [], ∀ ev ∈ q.events, ¬ priv.Redirects ev) ∧ ¬ ((2 : Int32) = 0 ∧ (1 : Int32) = 0)) :=
  ends_iff (Proc.record Prod.snd) 0 2 1 false [] [] twoMoves (by decide)

/-- The x axis goes to the handle, and the next filter gets a movement without the SYN. -/
theorem syn_missing :
    sentFor (Proc.record Prod.snd) (evfFilterToHandleAlloc 0 2 0 false, []) twoMoves.all =
        [(.next, ⟨(0, 0), evRel, relY, 1⟩), (.handle 0, ⟨(0, 0), evRel, relX, 5⟩), (.handle 0, twoMoves.syn)] ∧
      ¬ Ends (Proc.record Prod.snd) (evfFilterToHandleAlloc 0 2 0 false, []) twoMoves := by
  refine ⟨by decide, fun h => ?_⟩
  have hgot := h.2.mpr ⟨⟨(0, 0), evRel, relY, 1⟩, by decide⟩
  exact absurd hgot (by decide)

end Evfilter.Filters
