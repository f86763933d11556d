import Evfilter.Filters.Traps
import Evfilter.Lib.Expands

/-!
# What a line leaves of its events

Each event that comes out of a line stands for one that went in, and carries its time. The events of a type that no
filter of the line touches come out as they went in.
-/

namespace Evfilter.Filters
open Lib

/-- The types of the events that a filter may change, add or drop. -/
def Filter.Touches : Filter → UInt16 → Prop
  | noRepeat, t | pressureToKey _, t | keySubstitute _, t => t = evKey
  | mirror _, t | rotate _, t => t = evRel ∨ t = evAbs
  | speedMod _, t => t = evRel ∨ t = evSyn
  | abs2rel _, t => t = evAbs ∨ t = evSyn
  | keyLock _, t => t = evKey ∨ t = evSyn
  | btn2rel _, t | rel2scroll _, t => t = evKey ∨ t = evRel ∨ t = evSyn
  | barrier _, _ => True

/-- The events that a filter holds back. -/
def Filter.held : Filter → List InputEvent
  | barrier data => data.queue
  | _ => []

/-- What is sent for one event. -/
structure StandsFor (touched : UInt16 → Prop) (ev : InputEvent) (sent : List InputEvent) : Prop where
  time : ∀ e ∈ sent, e.time = ev.time
  untouched : ∀ t, ¬ touched t → sent.filter (·.type = t) = [ev].filter (·.type = t)

/-- What a callee leaves in the event. -/
structure Kept (ev r : InputEvent) : Prop where
  time : r.time = ev.time
  syn : ev.type = evSyn → r.type = evSyn

/-- A call of a filter that holds nothing back. -/
def Hands {α : Type} (touched : UInt16 → Prop) (ev : InputEvent) (p : Modify (α × InputEvent)) : Prop :=
  p.Through Kept fun sent x => Kept ev x.2 ∧ StandsFor touched ev sent

variable {ev ev' r : InputEvent} {f : Filter} {touched : UInt16 → Prop} {sent : List InputEvent} {α : Type} {d : α}
  {n : Nat} {line : Line n}

/-! ## One event -/

theorem Kept.refl : Kept ev ev := ⟨rfl, id⟩

theorem StandsFor.same : StandsFor touched ev [ev] := ⟨by simp, fun _ _ => rfl⟩

/-- Events of types that are touched. -/
theorem StandsFor.of_touched (h : touched ev.type) (hsent : ∀ e ∈ sent, e.time = ev.time ∧ touched e.type) :
    StandsFor touched ev sent where
  time e he := (hsent e he).1
  untouched t ht := by
    have hne : ∀ e ∈ sent, ¬ decide (e.type = t) := fun e he => by
      have h' : e.type ≠ t := fun heq => ht (heq ▸ (hsent e he).2)
      simpa using h'
    have hev : ev.type ≠ t := fun heq => ht (heq ▸ h)
    rw [List.filter_eq_nil_iff.mpr hne]
    simp [hev]

theorem StandsFor.dropped (h : touched ev.type) : StandsFor touched ev [] := .of_touched h (by simp)

theorem StandsFor.changed (htime : ev'.time = ev.time) (h : touched ev.type) (h' : touched ev'.type) :
    StandsFor touched ev [ev'] := .of_touched h (by simp [htime, h'])

/-- One more event of a type that is touched. -/
theorem StandsFor.concat (h : StandsFor touched ev sent) (htime : ev'.time = ev.time) (ht : touched ev'.type) :
    StandsFor touched ev (sent ++ [ev']) where
  time e he := by
    rcases List.mem_append.mp he with he | he
    · exact h.time e he
    · rw [List.mem_singleton.mp he, htime]
  untouched t hn := by
    have hne : ev'.type ≠ t := fun heq => hn (heq ▸ ht)
    rw [List.filter_append, h.untouched t hn]
    simp [hne]

/-- What stands for what is sent for an event stands for the event. -/
theorem StandsFor.expand {bs cs : List InputEvent} (h : StandsFor touched ev bs)
    (hbs : Expands (StandsFor touched) bs cs) : StandsFor touched ev cs where
  time e he := by
    obtain ⟨b, hb, ds, hds, he⟩ := hbs.of_mem he
    exact (hds.time e he).trans (h.time b hb)
  untouched t ht := (hbs.filter fun b ds hds => hds.untouched t ht).trans (h.untouched t ht)

theorem StandsFor.mono {touched' : UInt16 → Prop} (h : StandsFor touched ev sent) (ht : ∀ t, touched t → touched' t) :
    StandsFor touched' ev sent := ⟨h.time, fun t hn => h.untouched t fun h' => hn (ht t h')⟩

/-! ## One call -/

theorem Hands.same : Hands touched ev (.call ev fun r => .done (d, r)) := fun _ hr => ⟨hr, .same⟩

theorem Hands.changed (htime : ev'.time = ev.time) (hs : ev.type ≠ evSyn) (h : touched ev.type)
    (h' : touched ev'.type) : Hands touched ev (.call ev' fun r => .done (d, r)) :=
  fun _ hr => ⟨⟨hr.time.trans htime, fun hsyn => absurd hsyn hs⟩, .changed htime h h'⟩

theorem Hands.dropped (h : touched ev.type) : Hands touched ev (.done (d, ev)) := ⟨.refl, .dropped h⟩

theorem Mirror.hands (mirror : Mirror) (ev : InputEvent) :
    Hands (Filter.mirror mirror).Touches ev (mirror.modify ev >>= fun r => pure ((), r)) := by
  unfold Mirror.modify Mirror.apply
  split
  case isTrue hrel =>
    split
    · exact .changed rfl (by rw [hrel]; decide) (Or.inl hrel) (Or.inl hrel)
    · exact .same
  case isFalse =>
    split
    case isFalse => exact .same
    case isTrue habs =>
      split
      · exact .changed rfl (by rw [habs]; decide) (Or.inr habs) (Or.inr habs)
      · exact .same

theorem exchange_time {x y : UInt16} : (exchange x y ev).time = ev.time := by
  unfold exchange
  split
  · rfl
  · split <;> rfl

theorem Rotate.hands (rotate : Rotate) (ev : InputEvent) :
    Hands (Filter.rotate rotate).Touches ev (rotate.modify ev >>= fun r => pure ((), r)) := by
  unfold Rotate.modify Rotate.apply
  split
  case isTrue h =>
    exact .changed exchange_time (by rw [h.1]; decide) (Or.inl h.1) (Or.inl (exchange_type.trans h.1))
  case isFalse =>
    split
    case isTrue h =>
      exact .changed exchange_time (by rw [h.1]; decide) (Or.inr h.1) (Or.inr (exchange_type.trans h.1))
    case isFalse => exact .same

theorem Relspeed.hands (data : Relspeed) (ev : InputEvent) :
    Hands (Filter.speedMod data).Touches ev (data.modify ev) := by
  unfold Relspeed.modify
  split
  case isTrue h => exact .dropped (Or.inr h.1)
  case isFalse =>
    split
    case isTrue h =>
      split
      · exact .changed rfl (by rw [h.1]; decide) (Or.inl h.1) (Or.inl h.1)
      · exact .dropped (Or.inl h.1)
    case isFalse =>
      split
      case isTrue h =>
        split
        · exact .changed rfl (by rw [h.1]; decide) (Or.inl h.1) (Or.inl h.1)
        · exact .dropped (Or.inl h.1)
      case isFalse => exact .same

theorem Rel2scroll.hands (data : Rel2scroll) (ev : InputEvent) :
    Hands (Filter.rel2scroll data).Touches ev (data.modify ev) := by
  simp only [Rel2scroll.modify]
  split
  case isTrue h => exact .dropped (Or.inr (Or.inr h.1))
  case isFalse =>
    split
    case isTrue h => exact .dropped (Or.inl h.1)
    case isFalse =>
      split
      case isTrue h =>
        have hrel : (Filter.rel2scroll data).Touches ev.type := Or.inr (Or.inl h.2.1)
        split
        · exact .changed rfl (by rw [h.2.1]; decide) hrel hrel
        · exact .dropped hrel
      case isFalse =>
        split
        case isTrue h =>
          have hrel : (Filter.rel2scroll data).Touches ev.type := Or.inr (Or.inl h.2.1)
          split
          · exact .changed rfl (by rw [h.2.1]; decide) hrel hrel
          · exact .dropped hrel
        case isFalse => exact .same

theorem KeyLock.hands (data : KeyLock) (ev : InputEvent) : Hands (Filter.keyLock data).Touches ev (data.modify ev) := by
  simp only [KeyLock.modify]
  split
  case isTrue h => exact .dropped (Or.inr h.2.1)
  case isFalse =>
    split
    case isFalse => exact .same
    case isTrue hk =>
      have hkey : (Filter.keyLock data).Touches ev.type := Or.inl hk.1
      split
      · exact .dropped hkey
      · split
        · split
          · exact .same
          · exact .changed rfl (by rw [hk.1]; decide) hkey hkey
        · exact .same

theorem KeySubstitute.hands (data : KeySubstitute) (ev : InputEvent) :
    Hands (Filter.keySubstitute data).Touches ev (data.modify ev >>= fun r => pure ((), r)) := by
  unfold KeySubstitute.modify
  split
  case isTrue h => exact .changed rfl (by rw [h.1]; decide) h.1 h.1
  case isFalse => exact .same

theorem noRepeat_hands (ev : InputEvent) :
    Hands Filter.noRepeat.Touches ev (noRepeatModify ev >>= fun r => pure ((), r)) := by
  unfold noRepeatModify
  split
  case isTrue => exact .same
  case isFalse h =>
    have hkey : ev.type = evKey := Decidable.not_not.mp (not_or.mp h).1
    exact .dropped hkey

/-! ## Btn2Rel -/

theorem moveKey_some {key value : Int32} {code : UInt16} (h : moveKey key code value ev = some ev') :
    ev'.time = ev.time ∧ (ev' = ev ∨ ev'.type = evRel) := by
  unfold moveKey at h
  split at h
  · split at h
    · cases h
    · cases h
      exact ⟨rfl, Or.inr rfl⟩
  · cases h
    exact ⟨rfl, Or.inl rfl⟩

theorem buttonKey_time {btn : Int32} {code : UInt16} : (buttonKey btn code ev).time = ev.time := by
  unfold buttonKey
  split <;> rfl

theorem Btn2rel.translate_some {data : Btn2rel} (h : data.translate ev = some ev') (hk : ev.type = evKey) :
    ev'.time = ev.time ∧ (Filter.btn2rel data).Touches ev'.type := by
  simp only [Btn2rel.translate, Option.bind_eq_bind, Option.bind_eq_some_iff, Option.pure_def, Option.some.injEq] at h
  obtain ⟨e₁, h₁, e₂, h₂, e₃, h₃, e₄, h₄, rfl⟩ := h
  have hmoved : ∀ {e e' : InputEvent} {key value : Int32} {code : UInt16}, moveKey key code value e = some e' →
      e.time = ev.time ∧ (e.type = evKey ∨ e.type = evRel) →
        e'.time = ev.time ∧ (e'.type = evKey ∨ e'.type = evRel) := by
    intro e e' key value code he hev
    obtain ⟨htime, rfl | hrel⟩ := moveKey_some he
    · exact hev
    · exact ⟨htime.trans hev.1, Or.inr hrel⟩
  obtain ⟨htime, htype⟩ := hmoved h₄ (hmoved h₃ (hmoved h₂ (hmoved h₁ ⟨rfl, Or.inl hk⟩)))
  simp only [buttonKey_time, buttonKey_type]
  exact ⟨htime, htype.imp_right Or.inl⟩

theorem Btn2rel.hands (data : Btn2rel) (ev : InputEvent) : Hands (Filter.btn2rel data).Touches ev (data.modify ev) := by
  unfold Btn2rel.modify
  split
  case isTrue h => exact .dropped (Or.inr (Or.inr h.1))
  case isFalse =>
    split
    case isFalse => exact .same
    case isTrue hk =>
      have hkey : (Filter.btn2rel data).Touches ev.type := Or.inl hk
      split
      case h_1 => exact .dropped hkey
      case h_2 e he =>
        obtain ⟨htime, htype⟩ := Btn2rel.translate_some he hk
        exact .changed htime (by rw [hk]; decide) hkey htype

/-! ## PressureToKey and Abs2Rel -/

theorem Pressure.hands (data : Pressure) (ev : InputEvent) :
    Hands (Filter.pressureToKey data).Touches ev (data.modify ev) := by
  rw [Pressure.modify_call]
  intro r hr
  simp only
  split
  case isFalse => exact ⟨hr, .same⟩
  case isTrue hc =>
    refine fun r' hr' => ⟨⟨hr'.time.trans hr.time, fun hs => ?_⟩, StandsFor.same.concat hr.time rfl⟩
    -- an EV_SYN comes back as one, and does not cross the threshold
    have hpressure : r.IsPressure := of_decide_eq_true (Bool.and_eq_true_iff.mp hc).1
    exact absurd ((hr.syn hs).symm.trans hpressure.1) (by decide)

/-- What has been sent for an EV_SYN, and what is in the struct. -/
structure SyncsOnly (time : Int × Int) (sent : List InputEvent) (ev : InputEvent) : Prop where
  sent : ∀ e ∈ sent, e.time = time ∧ e.type = evSyn
  time : ev.time = time
  type : ev.type = evSyn

variable {time : Int × Int}

theorem emit_syncs (h : SyncsOnly time sent ev) :
    (emit ev).Through Kept fun sent' r => SyncsOnly time (sent ++ sent') r := by
  refine fun r hr => ⟨fun e he => ?_, hr.time.trans h.time, hr.syn h.type⟩
  rcases List.mem_append.mp he with he | he
  · exact h.sent e he
  · cases List.mem_singleton.mp he
    exact ⟨h.time, h.type⟩

theorem sendMove_syncs {state value : Int32} {code : UInt16} (h : SyncsOnly time sent ev) :
    (sendMove state code value ev).Through Kept fun sent' r => SyncsOnly time (sent ++ sent') r := by
  unfold sendMove
  split
  · exact emit_syncs ⟨h.sent, h.time, h.type⟩
  · change SyncsOnly time (sent ++ []) ev
    rw [List.append_nil]
    exact h

theorem Abs2rel.flush_syncs (data : Abs2rel) (hs : ev.type = evSyn) :
    (data.flush ev).Through Kept fun sent r => SyncsOnly ev.time sent r := by
  have hstart : SyncsOnly ev.time [] ev := ⟨by simp, rfl, hs⟩
  refine Proc.through_bind.mpr ((sendMove_syncs hstart).mono fun sent r h => ?_)
  refine Proc.through_bind.mpr ((sendMove_syncs h).mono fun sent' r' h' => ?_)
  have hlast : SyncsOnly ev.time (sent ++ sent') { r' with type := evSyn, value := 0 } := ⟨h'.sent, h'.time, rfl⟩
  refine (emit_syncs hlast).mono fun sent'' r'' h'' => ?_
  rw [← List.append_assoc]
  exact h''

theorem SyncsOnly.standsFor (h : SyncsOnly ev.time sent r) (hs : ev.type = evSyn) (ht : touched evSyn) :
    StandsFor touched ev sent :=
  .of_touched (hs ▸ ht) fun e he => ⟨(h.sent e he).1, (h.sent e he).2 ▸ ht⟩

theorem Abs2rel.hands (data : Abs2rel) (ev : InputEvent) : Hands (Filter.abs2rel data).Touches ev (data.modify ev) := by
  unfold Abs2rel.modify
  split
  case isTrue hs =>
    refine Proc.through_bind.mpr ((data.flush_syncs hs).mono fun sent r h => ?_)
    have habs : r.type ≠ evAbs := by rw [h.type]; decide
    simp only [if_neg habs]
    refine Proc.through_bind.mpr ((emit_syncs h).mono fun sent' r' h' => ?_)
    have hsent : sent ++ (sent' ++ []) = sent ++ sent' := by rw [List.append_nil]
    exact ⟨⟨h'.time, fun _ => h'.type⟩, hsent ▸ h'.standsFor hs (Or.inr rfl)⟩
  case isFalse =>
    simp only [Proc.pure_eq, Proc.bind_done]
    split
    case isTrue habs => exact .dropped (Or.inl habs)
    case isFalse => exact .same

/-! ## One filter -/

/-- What a filter has held back and gets, it sends or goes on holding back. -/
structure Filter.Sends (f : Filter) (ev : InputEvent) (sent : List InputEvent) (x : Filter × InputEvent) : Prop where
  kept : Kept ev x.2
  touches : x.1.Touches = f.Touches
  expands : Expands (StandsFor f.Touches) (f.held ++ [ev]) (sent ++ x.1.held)

theorem Hands.filter {p : Modify (α × InputEvent)} (w : α → Filter) (h : Hands f.Touches ev p) (hf : f.held = [])
    (hw : ∀ d, (w d).Touches = f.Touches ∧ (w d).held = []) :
    (p >>= fun x => pure (w x.1, x.2)).Through Kept (Filter.Sends f ev) := by
  refine Proc.through_bind.mpr (h.mono fun sent x hx => ?_)
  change Filter.Sends f ev (sent ++ []) (w x.1, x.2)
  rw [List.append_nil]
  refine ⟨hx.1, (hw x.1).1, ?_⟩
  rw [hf, (hw x.1).2, List.append_nil, List.nil_append]
  exact .single hx.2

/-- A filter without data that change. -/
theorem Hands.stateless {p : Modify InputEvent} (h : Hands f.Touches ev (p >>= fun r => pure ((), r)))
    (hf : f.held = []) : (p >>= fun r => pure (f, r)).Through Kept (Filter.Sends f ev) := by
  refine Proc.through_bind.mpr ((Proc.through_bind.mp h).mono fun sent r hr => ?_)
  have hsent : Kept ev r ∧ StandsFor f.Touches ev (sent ++ []) := hr
  refine ⟨hsent.1, rfl, ?_⟩
  rw [hf, List.append_nil, List.nil_append]
  exact .single hsent.2

theorem Barrier.modify_sends (data : Barrier) (ev : InputEvent) :
    ((Filter.barrier data).modify ev).Through Kept (Filter.Sends (.barrier data) ev) := by
  refine (data.makes ev fun _ => .refl).through.mono ?_
  rintro _ ⟨_, r⟩ ⟨rfl, rfl, hr⟩
  have hsame : ∀ e, StandsFor (Filter.barrier data).Touches e [e] := fun _ => .same
  refine ⟨hr, rfl, ?_⟩
  change Expands _ (data.queue ++ [ev]) (data.sent ev ++ (data.next ev).queue)
  unfold Barrier.sent Barrier.next
  split
  · change Expands _ (data.queue ++ [ev]) (data.queue ++ [ev] ++ [])
    rw [List.append_nil]
    exact .refl hsame _
  · unfold insertQueue
    split
    · have hdropped := (Expands.refl hsame data.queue).append (.single (StandsFor.dropped trivial : StandsFor _ ev []))
      rwa [List.append_nil] at hdropped
    · exact .refl hsame _

theorem Filter.modify_sends (f : Filter) (ev : InputEvent) : (f.modify ev).Through Kept (Filter.Sends f ev) := by
  cases f with
  | noRepeat => exact (noRepeat_hands ev).stateless rfl
  | pressureToKey data => exact (data.hands ev).filter .pressureToKey rfl fun _ => ⟨rfl, rfl⟩
  | speedMod data => exact (data.hands ev).filter .speedMod rfl fun _ => ⟨rfl, rfl⟩
  | barrier data => exact data.modify_sends ev
  | mirror data => exact (data.hands ev).stateless rfl
  | rotate data => exact (data.hands ev).stateless rfl
  | abs2rel data => exact (data.hands ev).filter .abs2rel rfl fun _ => ⟨rfl, rfl⟩
  | btn2rel data => exact (data.hands ev).filter .btn2rel rfl fun _ => ⟨rfl, rfl⟩
  | rel2scroll data => exact (data.hands ev).filter .rel2scroll rfl fun _ => ⟨rfl, rfl⟩
  | keyLock data => exact (data.hands ev).filter .keyLock rfl fun _ => ⟨rfl, rfl⟩
  | keySubstitute data => exact (data.hands ev).stateless rfl

/-! ## Lines -/

/-- The types that some filter of the line touches. -/
def TouchedBy : (n : Nat) → Line n → UInt16 → Prop
  | 0, _, _ => False
  | n + 1, (f, line), t => f.Touches t ∨ TouchedBy n line t

/-- What the filters of the line hold back, the last one first. -/
def held : (n : Nat) → Line n → List InputEvent
  | 0, _ => []
  | n + 1, (f, line) => held n line ++ f.held

theorem process_kept (n : Nat) (ev : InputEvent) (line : Line n) : Kept ev (process n ev line).1 := by
  induction n generalizing ev with
  | zero => exact .refl
  | succ n ih =>
      obtain ⟨f, line⟩ := line
      exact ((f.modify_sends ev).run (process n) ih line).kept

theorem process_touchedBy (ev : InputEvent) (line : Line n) :
    TouchedBy n (process n ev line).2 = TouchedBy n line := by
  induction n generalizing ev with
  | zero => rfl
  | succ n ih =>
      obtain ⟨f, line⟩ := line
      have hf : ((f.modify ev).drive (process n) line).1.1.Touches = f.Touches :=
        ((f.modify_sends ev).run (process n) (process_kept n) line).touches
      have hline : TouchedBy n ((f.modify ev).drive (process n) line).2 = TouchedBy n line := by
        rw [Proc.drive_snd]
        exact Proc.feed_invariant (I := fun line' => TouchedBy n line' = TouchedBy n line) rfl
          fun hb _ => (ih _ _).trans hb
      funext t
      change (Filter.Touches _ t ∨ TouchedBy n _ t) = _
      rw [hf, hline]
      rfl

/-- What comes of the events. -/
def ComesTo (n : Nat) (line : Line n) (evs : List InputEvent) (after : Line n) : Prop :=
  ∃ sent, committed n after = committed n line ++ sent ∧
    Expands (StandsFor (TouchedBy n line)) (held n line ++ evs) (sent ++ held n after)

theorem ComesTo.feed (hstep : ∀ ev line, ComesTo n line [ev] (process n ev line).2) (evs : List InputEvent)
    (line : Line n) : ComesTo n line evs (Proc.feed (process n) evs line) := by
  have hsame : ∀ line e, StandsFor (TouchedBy n line) e [e] := fun _ _ => .same
  induction evs generalizing line with
  | nil =>
      refine ⟨[], (List.append_nil _).symm, ?_⟩
      rw [List.append_nil, List.nil_append]
      exact .refl (hsame line) _
  | cons ev evs ih =>
      obtain ⟨sent, hsent, hexpands⟩ := hstep ev line
      obtain ⟨sent', hsent', hexpands'⟩ := ih (process n ev line).2
      rw [process_touchedBy] at hexpands'
      refine ⟨sent ++ sent', by rw [Proc.feed, hsent', hsent, List.append_assoc], ?_⟩
      have hfirst := hexpands.append (Expands.refl (hsame line) evs)
      have hsecond := (Expands.refl (hsame line) sent).append hexpands'
      simp only [List.append_assoc, List.singleton_append] at hfirst hsecond ⊢
      exact hfirst.trans hsecond fun _ _ _ => StandsFor.expand

theorem process_comesTo (n : Nat) (ev : InputEvent) (line : Line n) : ComesTo n line [ev] (process n ev line).2 := by
  induction n generalizing ev with
  | zero => exact ⟨[ev], rfl, .single .same⟩
  | succ n ih =>
      obtain ⟨f, line⟩ := line
      have hf := (f.modify_sends ev).run (process n) (process_kept n) line
      obtain ⟨sent, hsent, hline⟩ := ComesTo.feed ih ((f.modify ev).calls (process n) line) line
      rw [← Proc.drive_snd] at hsent hline
      have hsame : ∀ e, StandsFor (TouchedBy (n + 1) (f, line)) e [e] := fun _ => .same
      have hown : ∀ t, f.Touches t → TouchedBy (n + 1) (f, line) t := fun _ => Or.inl
      have hrest : ∀ t, TouchedBy n line t → TouchedBy (n + 1) (f, line) t := fun _ => Or.inr
      have hfront := hf.expands.mono fun _ _ h => h.mono hown
      have hback := hline.mono fun _ _ h => h.mono hrest
      refine ⟨sent, hsent, ?_⟩
      have hfirst := (Expands.refl hsame (held n line)).append hfront
      have hsecond := hback.append (Expands.refl hsame ((f.modify ev).drive (process n) line).1.1.held)
      rw [← List.append_assoc, ← List.append_assoc] at hfirst
      rw [List.append_assoc sent] at hsecond
      exact hfirst.trans hsecond fun _ _ _ => StandsFor.expand

theorem feed_comesTo (evs : List InputEvent) (line : Line n) : ComesTo n line evs (Proc.feed (process n) evs line) :=
  .feed (process_comesTo n) evs line

theorem feed_touchedBy (evs : List InputEvent) (line : Line n) :
    TouchedBy n (Proc.feed (process n) evs line) = TouchedBy n line :=
  Proc.feed_invariant (I := fun line' => TouchedBy n line' = TouchedBy n line) rfl
    fun hb _ => (process_touchedBy _ _).trans hb

theorem held_alloc (ps : List Params) : held ps.length (allocLine ps) = [] := by
  induction ps with
  | nil => rfl
  | cons p ps ih =>
      have hp : p.alloc.held = [] := by cases p <;> rfl
      change held ps.length (allocLine ps) ++ p.alloc.held = []
      rw [ih, hp, List.append_nil]

/-- A Barrier touches all types. -/
theorem held_untouched {t : UInt16} (h : ¬ TouchedBy n line t) : held n line = [] := by
  induction n with
  | zero => rfl
  | succ n ih =>
      obtain ⟨f, line⟩ := line
      obtain ⟨hf, hline⟩ := not_or.mp h
      have hheld : f.held = [] := by
        cases f with
        | barrier data => exact absurd trivial hf
        | _ => rfl
      change held n line ++ f.held = []
      rw [ih hline, hheld, List.append_nil]

/-- The events that any line commits have times of events that it got. In whatever way these are in order, the committed
ones are. -/
theorem committed_times (ps : List Params) (evs : List InputEvent) (r : Int × Int → Int × Int → Prop) (hr : ∀ t, r t t)
    (hevs : evs.Pairwise fun a b => r a.time b.time) :
    (committed ps.length (Proc.feed (process ps.length) evs (allocLine ps))).Pairwise (fun a b => r a.time b.time) ∧
      ∀ e ∈ committed ps.length (Proc.feed (process ps.length) evs (allocLine ps)), ∃ ev ∈ evs, e.time = ev.time := by
  obtain ⟨sent, hsent, hexpands⟩ := feed_comesTo evs (allocLine ps)
  rw [held_alloc, List.nil_append] at hexpands
  rw [hsent, committed_alloc, List.nil_append]
  constructor
  · refine (List.pairwise_append.mp (hexpands.pairwise (fun ev ds hds => ?_) ?_ hevs)).1
    · refine List.pairwise_of_forall_mem_list fun a ha b hb => ?_
      rw [hds.time a ha, hds.time b hb]
      exact hr _
    · intro ev ds ev' ds' hds hds' hbefore a ha b hb
      rw [hds.time a ha, hds'.time b hb]
      exact hbefore
  · intro e he
    obtain ⟨ev, hev, ds, hds, he⟩ := hexpands.of_mem (List.mem_append_left _ he)
    exact ⟨ev, hev, hds.time e he⟩

/-- A tap, with the times of its events. -/
def tap : List InputEvent :=
  [⟨(0, 5), evAbs, absX, 7⟩, ⟨(0, 5), evAbs, absPressure, 90⟩, ⟨(0, 5), evSyn, synReport, 0⟩,
    ⟨(0, 9), evAbs, absPressure, 0⟩]

theorem tap_times : (committed 2 (Proc.feed (process 2) tap
      (allocLine [.pressureToKey 50 272, .barrier 8]))).Pairwise (fun a b => a.time.2 ≤ b.time.2) ∧
    ∀ e ∈ committed 2 (Proc.feed (process 2) tap (allocLine [.pressureToKey 50 272, .barrier 8])),
      ∃ ev ∈ tap, e.time = ev.time :=
  committed_times [.pressureToKey 50 272, .barrier 8] tap (fun a b => a.2 ≤ b.2) (fun _ => Int.le_refl _) (by decide)

/-- Events of a type that no filter of the line touches are committed as they come, whatever becomes of the others. -/
theorem committed_untouched (line : Line n) (hok : DivisorsOk n line) {t : UInt16} (ht : ¬ TouchedBy n line t)
    (evs : List InputEvent) :
    Proc.Each (process n) (EveryCall (fun f _ ev => ¬ f.Traps ev) n) line evs ∧
      (committed n (Proc.feed (process n) evs line)).filter (·.type = t) =
        (committed n line ++ evs).filter (·.type = t) := by
  refine ⟨hok.never_traps evs, ?_⟩
  have hafter : ¬ TouchedBy n (Proc.feed (process n) evs line) t := by
    rw [feed_touchedBy]
    exact ht
  obtain ⟨sent, hsent, hexpands⟩ := feed_comesTo evs line
  rw [held_untouched ht, held_untouched hafter, List.nil_append, List.append_nil] at hexpands
  rw [hsent, List.filter_append, List.filter_append, hexpands.filter fun _ _ hds => hds.untouched t ht]

theorem tap_untouched : Proc.Each (process 2) (EveryCall (fun f _ ev => ¬ f.Traps ev) 2)
      (allocLine [.pressureToKey 50 272, .speedMod 2 2]) tap ∧
    (committed 2 (Proc.feed (process 2) tap
        (allocLine [.pressureToKey 50 272, .speedMod 2 2]))).filter (·.type = evAbs) =
      (committed 2 (allocLine [.pressureToKey 50 272, .speedMod 2 2]) ++ tap).filter (·.type = evAbs) := by
  have hok : DivisorsOk 2 (allocLine [.pressureToKey 50 272, .speedMod 2 2]) :=
    ⟨trivial, by decide, trivial⟩
  have ht : ¬ TouchedBy 2 (allocLine [.pressureToKey 50 272, .speedMod 2 2]) evAbs := by
    simp only [TouchedBy, allocLine, Params.alloc, Filter.Touches]
    decide
  exact committed_untouched _ hok ht tap

end Evfilter.Filters
