import Evfilter.Filters.Remainders

/-!
# Scrolling

Rel2Scroll turns movement into wheel events while its trigger key is held down. What is left of the divisions is kept
while it is not.
-/

namespace Evfilter.Filters
open Lib

/-! ## The trigger -/

def IsTrigger (btn : Int32) (ev : InputEvent) : Prop := ev.type = evKey ∧ ev.key = btn

instance (btn : Int32) (ev : InputEvent) : Decidable (IsTrigger btn ev) := inferInstanceAs (Decidable (_ ∧ _))

/-- The last event of the trigger key had a value that is not 0. -/
def triggered (btn : Int32) (received : List InputEvent) : Bool :=
  (received.reverse.find? fun ev => decide (IsTrigger btn ev)).any fun ev => decide (ev.value ≠ 0)

/-- The events received while the trigger was on. -/
def whileTriggered (btn : Int32) (received : List InputEvent) : List InputEvent :=
  (received.zipIdx.filter fun e => triggered btn (received.take e.2)).map Prod.fst

/-- The movement among them. -/
def heldMoves (btn : Int32) (code : UInt16) (received : List InputEvent) : List Int32 :=
  (whileTriggered btn received).filterMap (moved code)

variable {btn : Int32} {code : UInt16} {ev : InputEvent} {received : List InputEvent} {data : Rel2scroll}

theorem triggered_concat : triggered btn (received ++ [ev]) =
    if IsTrigger btn ev then decide (ev.value ≠ 0) else triggered btn received := by
  rw [triggered, List.reverse_append, List.reverse_singleton, List.singleton_append, List.find?_cons]
  by_cases h : IsTrigger btn ev
  · simp [h]
  · simp [h, triggered]

theorem whileTriggered_concat : whileTriggered btn (received ++ [ev]) =
    whileTriggered btn received ++ if triggered btn received then [ev] else [] := by
  have hbefore : (received.zipIdx.filter fun e => triggered btn ((received ++ [ev]).take e.2)) =
      received.zipIdx.filter fun e => triggered btn (received.take e.2) := by
    refine List.filter_congr fun e he => ?_
    have hlt := (List.mem_zipIdx he).2.1
    rw [List.take_append_of_le_length (by omega)]
  rw [whileTriggered, List.zipIdx_append, List.filter_append, List.map_append, hbefore, whileTriggered]
  congr 1
  simp only [Nat.zero_add, List.zipIdx_singleton, List.filter_singleton, List.take_left]
  cases triggered btn received <;> rfl

theorem heldMoves_concat : heldMoves btn code (received ++ [ev]) =
    heldMoves btn code received ++ if triggered btn received then (moved code ev).toList else [] := by
  rw [heldMoves, whileTriggered_concat, List.filterMap_append, heldMoves]
  congr 1
  split
  · cases h : moved code ev <;> simp [h]
  · rfl

/-! ## One event -/

namespace Rel2scroll

theorem step_dropped (h : ev.type = evSyn ∧ data.eatNextSync) :
    (alone Rel2scroll.modify).step data ev = ({ data with eatNextSync := false }, []) := by
  simp only [alone, Rel2scroll.modify, if_pos h]
  rfl

theorem step_trigger (h : IsTrigger data.triggerBtn ev) : (alone Rel2scroll.modify).step data ev =
    ({ data with triggerOn := ev.value ≠ 0, eatNextSync := true }, []) := by
  have hsyn : ¬ (ev.type = evSyn ∧ data.eatNextSync) := fun hs => absurd (h.1.symm.trans hs.1) (by decide)
  simp only [alone, Rel2scroll.modify, if_neg hsyn, if_pos (show ev.type = evKey ∧ ev.key = data.triggerBtn from h)]
  rfl

theorem not_trigger (h : ev.type = evRel) : ¬ IsTrigger btn ev :=
  fun hkey => absurd (h.symm.trans hkey.1) (by decide)

theorem step_x (hon : data.triggerOn = true) (h : ev.type = evRel ∧ ev.code = relX) :
    (alone Rel2scroll.modify).step data ev =
      let parts := scroll (data.x + ev.value) data.xmod
      ({ data with x := parts.1, eatNextSync := parts.2.isNone },
        parts.2.toList.map fun value => { ev with value := value, code := relHwheel }) := by
  have hsyn : ¬ (ev.type = evSyn ∧ data.eatNextSync) := fun hs => absurd (h.1.symm.trans hs.1) (by decide)
  have htrigger : ¬ (ev.type = evKey ∧ ev.key = data.triggerBtn) := not_trigger h.1
  simp only [alone, Rel2scroll.modify, if_neg hsyn, if_neg htrigger, if_pos (And.intro hon h)]
  rcases scroll (data.x + ev.value) data.xmod with ⟨x, _ | value⟩ <;> rfl

theorem step_y (hon : data.triggerOn = true) (h : ev.type = evRel ∧ ev.code = relY) :
    (alone Rel2scroll.modify).step data ev =
      let parts := scroll (data.y + ev.value) data.ymod
      ({ data with y := parts.1, eatNextSync := parts.2.isNone },
        parts.2.toList.map fun value => { ev with value := value, code := relWheel }) := by
  have hsyn : ¬ (ev.type = evSyn ∧ data.eatNextSync) := fun hs => absurd (h.1.symm.trans hs.1) (by decide)
  have htrigger : ¬ (ev.type = evKey ∧ ev.key = data.triggerBtn) := not_trigger h.1
  have hx : ¬ (data.triggerOn = true ∧ ev.type = evRel ∧ ev.code = relX) :=
    fun hx => absurd (h.2.symm.trans hx.2.2) (by decide)
  simp only [alone, Rel2scroll.modify, if_neg hsyn, if_neg htrigger, if_neg hx, if_pos (And.intro hon h)]
  rcases scroll (data.y + ev.value) data.ymod with ⟨y, _ | value⟩ <;> rfl

theorem step_passed (hsyn : ¬ (ev.type = evSyn ∧ data.eatNextSync)) (htrigger : ¬ IsTrigger data.triggerBtn ev)
    (hx : ¬ (data.triggerOn ∧ ev.type = evRel ∧ ev.code = relX))
    (hy : ¬ (data.triggerOn ∧ ev.type = evRel ∧ ev.code = relY)) :
    (alone Rel2scroll.modify).step data ev = ({ data with eatNextSync := false }, [ev]) := by
  have htrigger : ¬ (ev.type = evKey ∧ ev.key = data.triggerBtn) := htrigger
  simp only [alone, Rel2scroll.modify, if_neg hsyn, if_neg htrigger, if_neg hx, if_neg hy]
  rfl

/-- The branches of `modify`. -/
inductive Branch (data : Rel2scroll) (ev : InputEvent) : Prop
  | dropped (h : ev.type = evSyn ∧ data.eatNextSync)
  | trigger (h : IsTrigger data.triggerBtn ev)
  | x (hon : data.triggerOn = true) (h : ev.type = evRel ∧ ev.code = relX)
  | y (hon : data.triggerOn = true) (h : ev.type = evRel ∧ ev.code = relY)
  | passed (hsyn : ¬ (ev.type = evSyn ∧ data.eatNextSync)) (htrigger : ¬ IsTrigger data.triggerBtn ev)
      (hx : ¬ (data.triggerOn ∧ ev.type = evRel ∧ ev.code = relX))
      (hy : ¬ (data.triggerOn ∧ ev.type = evRel ∧ ev.code = relY))

theorem branch (data : Rel2scroll) (ev : InputEvent) : Branch data ev := by
  by_cases hsyn : ev.type = evSyn ∧ data.eatNextSync
  · exact .dropped hsyn
  by_cases htrigger : IsTrigger data.triggerBtn ev
  · exact .trigger htrigger
  by_cases hx : data.triggerOn ∧ ev.type = evRel ∧ ev.code = relX
  · exact .x hx.1 hx.2
  by_cases hy : data.triggerOn ∧ ev.type = evRel ∧ ev.code = relY
  · exact .y hy.1 hy.2
  · exact .passed hsyn htrigger hx hy

end Rel2scroll

theorem heldMoves_skip (h : ¬ (triggered btn received = true ∧ ev.type = evRel ∧ ev.code = code)) :
    heldMoves btn code (received ++ [ev]) = heldMoves btn code received := by
  rw [heldMoves_concat]
  split
  · rename_i hon
    have hnone : moved code ev = none := moved_eq_none.mpr fun hmove => h ⟨hon, hmove⟩
    rw [hnone, Option.toList_none, List.append_nil]
  · exact List.append_nil _

theorem heldMoves_take (hon : triggered btn received = true) (h : ev.type = evRel ∧ ev.code = code) :
    heldMoves btn code (received ++ [ev]) = heldMoves btn code received ++ [ev.value] := by
  have hsome : moved code ev = some ev.value := moved_eq_some.mpr ⟨h, rfl⟩
  rw [heldMoves_concat, if_pos hon, hsome, Option.toList_some]

/-! ## What is kept -/

namespace Rel2scroll

variable {xmod ymod : Int32}

/-- The data of the filter after these events. -/
structure Tracks (btn xmod ymod : Int32) (received : List InputEvent) (data : Rel2scroll) : Prop where
  btn_eq : data.triggerBtn = btn
  xmod_eq : data.xmod = xmod
  ymod_eq : data.ymod = ymod
  on : data.triggerOn = triggered btn received
  x : data.x = (carry fun sum => scroll sum xmod).state 0 (heldMoves btn relX received)
  y : data.y = (carry fun sum => scroll sum ymod).state 0 (heldMoves btn relY received)

theorem Tracks.start : Tracks btn xmod ymod [] (evfRel2scrollAlloc btn xmod ymod) := ⟨rfl, rfl, rfl, rfl, rfl, rfl⟩

/-- An event that moves nothing. -/
theorem Tracks.skip {data' : Rel2scroll} (h : Tracks btn xmod ymod received data)
    (hx : ¬ (data.triggerOn ∧ ev.type = evRel ∧ ev.code = relX))
    (hy : ¬ (data.triggerOn ∧ ev.type = evRel ∧ ev.code = relY))
    (hon : data'.triggerOn = if IsTrigger btn ev then decide (ev.value ≠ 0) else data.triggerOn)
    (hbtn : data'.triggerBtn = data.triggerBtn) (hkept : data'.x = data.x ∧ data'.y = data.y)
    (hmods : data'.xmod = data.xmod ∧ data'.ymod = data.ymod) : Tracks btn xmod ymod (received ++ [ev]) data' where
  btn_eq := hbtn.trans h.btn_eq
  xmod_eq := hmods.1.trans h.xmod_eq
  ymod_eq := hmods.2.trans h.ymod_eq
  on := by rw [triggered_concat, hon, h.on]
  x := by rw [heldMoves_skip (h.on ▸ hx), hkept.1, h.x]
  y := by rw [heldMoves_skip (h.on ▸ hy), hkept.2, h.y]

theorem Tracks.step (h : Tracks btn xmod ymod received data) (ev : InputEvent) :
    Tracks btn xmod ymod (received ++ [ev]) ((alone Rel2scroll.modify).step data ev).1 := by
  rcases branch data ev with hsyn | htrigger | ⟨hon, hx⟩ | ⟨hon, hy⟩ | ⟨hsyn, htrigger, hx, hy⟩
  · have hnot : ¬ IsTrigger btn ev := fun hkey => absurd (hsyn.1.symm.trans hkey.1) (by decide)
    have hrel : ev.type ≠ evRel := hsyn.1 ▸ by decide
    rw [step_dropped hsyn]
    exact h.skip (fun hx => hrel hx.2.1) (fun hy => hrel hy.2.1) (by rw [if_neg hnot]) rfl ⟨rfl, rfl⟩ ⟨rfl, rfl⟩
  · have hrel : ev.type ≠ evRel := htrigger.1 ▸ by decide
    rw [step_trigger htrigger]
    rw [h.btn_eq] at htrigger
    exact h.skip (fun hx => hrel hx.2.1) (fun hy => hrel hy.2.1) (by rw [if_pos htrigger]) rfl ⟨rfl, rfl⟩ ⟨rfl, rfl⟩
  · have hheld := heldMoves_take (h.on ▸ hon) hx
    have hskip : heldMoves btn relY (received ++ [ev]) = heldMoves btn relY received :=
      heldMoves_skip fun hy => absurd (hx.2.symm.trans hy.2.2) (by decide)
    have htriggered : triggered btn (received ++ [ev]) = data.triggerOn := by
      rw [triggered_concat, if_neg (not_trigger hx.1), h.on]
    have hstate : (scroll (data.x + ev.value) data.xmod).1 =
        (carry fun sum => scroll sum xmod).state 0 (heldMoves btn relX (received ++ [ev])) := by
      rw [hheld, Transducer.state_concat, ← h.x, h.xmod_eq]
      rfl
    rw [step_x hon hx]
    exact ⟨h.btn_eq, h.xmod_eq, h.ymod_eq, htriggered.symm, hstate, hskip ▸ h.y⟩
  · have hheld := heldMoves_take (h.on ▸ hon) hy
    have hskip : heldMoves btn relX (received ++ [ev]) = heldMoves btn relX received :=
      heldMoves_skip fun hx => absurd (hy.2.symm.trans hx.2.2) (by decide)
    have htriggered : triggered btn (received ++ [ev]) = data.triggerOn := by
      rw [triggered_concat, if_neg (not_trigger hy.1), h.on]
    have hstate : (scroll (data.y + ev.value) data.ymod).1 =
        (carry fun sum => scroll sum ymod).state 0 (heldMoves btn relY (received ++ [ev])) := by
      rw [hheld, Transducer.state_concat, ← h.y, h.ymod_eq]
      rfl
    rw [step_y hon hy]
    exact ⟨h.btn_eq, h.xmod_eq, h.ymod_eq, htriggered.symm, hskip ▸ h.x, hstate⟩
  · rw [step_passed hsyn htrigger hx hy]
    rw [h.btn_eq] at htrigger
    exact h.skip hx hy (by rw [if_neg htrigger]) rfl ⟨rfl, rfl⟩ ⟨rfl, rfl⟩

end Rel2scroll

/-! ## What the wheels get -/

/-- The sum is an `int`, and it is not INT_MIN that is divided by -1. -/
def Fits (mod kept v : Int32) : Prop := -2147483648 ≤ kept.toInt + v.toInt ∧ kept.toInt + v.toInt ≤ 2147483647 ∧
  ¬ (kept.toInt + v.toInt = -2147483648 ∧ mod = -1)

instance {mod kept v : Int32} : Decidable (Fits mod kept v) := inferInstanceAs (Decidable (_ ∧ _))

theorem Fits.scroll {mod kept v : Int32} (hmod : mod ≠ 0) (h : Fits mod kept v) :
    (kept + v).toInt = kept.toInt + v.toInt ∧ Splits Int32.toInt mod (kept + v) (scroll (kept + v) mod) := by
  obtain ⟨hmin, hmax, hdiv⟩ := h
  have hadd := toInt_add_of_range hmin hmax
  refine ⟨hadd, scroll_splits hmod fun h => hdiv ⟨?_, h.2⟩⟩
  rw [← hadd, h.1]
  rfl

theorem scroll_ne_zero {sum mod v : Int32} (h : v ∈ (scroll sum mod).2.toList) : v ≠ 0 := by
  unfold scroll at h
  split at h
  · rename_i hzero
    obtain rfl := List.mem_singleton.mp h
    exact hzero
  · exact absurd h List.not_mem_nil

/-- What has been sent on a wheel is what comes of dividing the movement on an axis. -/
structure Wheel (btn mod : Int32) (move wheel : UInt16) (received sent : List InputEvent) : Prop where
  sent_eq : sent.filterMap (moved wheel) = (carry fun sum => scroll sum mod).outputs 0 (heldMoves btn move received)
  fits : (carry fun sum => scroll sum mod).Along (Fits mod) 0 (heldMoves btn move received)

namespace Wheel

variable {mod kept : Int32} {move wheel : UInt16} {sent os : List InputEvent}

theorem start : Wheel btn mod move wheel [] [] := ⟨rfl, trivial⟩

theorem skip (h : Wheel btn mod move wheel received sent)
    (hmove : ¬ (triggered btn received = true ∧ ev.type = evRel ∧ ev.code = move))
    (hos : os.filterMap (moved wheel) = []) : Wheel btn mod move wheel (received ++ [ev]) (sent ++ os) := by
  constructor
  · rw [List.filterMap_append, hos, List.append_nil, heldMoves_skip hmove, h.sent_eq]
  · rw [heldMoves_skip hmove]
    exact h.fits

theorem take (h : Wheel btn mod move wheel received sent) (hon : triggered btn received = true)
    (hmove : ev.type = evRel ∧ ev.code = move)
    (hkept : kept = (carry fun sum => scroll sum mod).state 0 (heldMoves btn move received))
    (hfits : Fits mod kept ev.value) : Wheel btn mod move wheel (received ++ [ev])
      (sent ++ (scroll (kept + ev.value) mod).2.toList.map fun value => { ev with value := value, code := wheel }) := by
  subst hkept
  have hos (vs : List Int32) :
      (vs.map fun value => { ev with value := value, code := wheel }).filterMap (moved wheel) = vs :=
    moved_values fun _ => ⟨⟨hmove.1, rfl⟩, rfl⟩
  constructor
  · rw [List.filterMap_append, hos, heldMoves_take hon hmove, Transducer.outputs_concat, h.sent_eq]
    rfl
  · rw [heldMoves_take hon hmove]
    exact Transducer.along_append.mpr ⟨h.fits, hfits, trivial⟩

theorem conserves (h : Wheel btn mod move wheel received sent) (hmod : mod ≠ 0)
    (hkept : kept = (carry fun sum => scroll sum mod).state 0 (heldMoves btn move received)) :
    total Int32.toInt (heldMoves btn move received) = mod.toInt * movement wheel sent + kept.toInt ∧
      kept.toInt.natAbs < mod.toInt.natAbs := by
  rw [movement, h.sent_eq, hkept]
  exact carry_total rfl (toInt_ne_zero hmod) (fun _ _ => Fits.scroll hmod) h.fits

theorem ne_zero (h : Wheel btn mod move wheel received sent) (hsent : ev ∈ sent)
    (hwheel : ev.type = evRel ∧ ev.code = wheel) : ev.value ≠ 0 := by
  have hmem : ev.value ∈ sent.filterMap (moved wheel) :=
    List.mem_filterMap.mpr ⟨ev, hsent, moved_eq_some.mpr ⟨hwheel, rfl⟩⟩
  have hall : ∀ v ∈ (carry fun sum => scroll sum mod).outputs 0 (heldMoves btn move received), v ≠ 0 :=
    Transducer.forall_outputs fun _ _ _ => scroll_ne_zero
  exact hall _ (h.sent_eq ▸ hmem)

end Wheel

def IsWheel (ev : InputEvent) : Prop := ev.type = evRel ∧ (ev.code = relHwheel ∨ ev.code = relWheel)

instance (ev : InputEvent) : Decidable (IsWheel ev) := inferInstanceAs (Decidable (_ ∧ _))

/-! ## Runs -/

namespace Rel2scroll

variable {xmod ymod : Int32} {sent : List InputEvent}

/-- An event added to `x` or `y` leaves an `int` that can be divided. -/
def InRange (data : Rel2scroll) (ev : InputEvent) : Prop :=
  data.triggerOn → (∀ v ∈ moved relX ev, Fits data.xmod data.x v) ∧ ∀ v ∈ moved relY ev, Fits data.ymod data.y v

instance (data : Rel2scroll) (ev : InputEvent) : Decidable (data.InRange ev) :=
  inferInstanceAs (Decidable (_ → _ ∧ _))

/-- The trigger, and the movement of both axes while it was on. -/
structure Scrolls (btn xmod ymod : Int32) (received sent : List InputEvent) (data : Rel2scroll) : Prop where
  on : data.triggerOn = triggered btn received
  x : total Int32.toInt (heldMoves btn relX received) = xmod.toInt * movement relHwheel sent + data.x.toInt
  y : total Int32.toInt (heldMoves btn relY received) = ymod.toInt * movement relWheel sent + data.y.toInt
  x_small : data.x.toInt.natAbs < xmod.toInt.natAbs
  y_small : data.y.toInt.natAbs < ymod.toInt.natAbs
  nonzero : ∀ ev ∈ sent, IsWheel ev → ev.value ≠ 0

/-- What is sent for an event after these. -/
structure Answers (btn : Int32) (received : List InputEvent) (ev : InputEvent) (data : Rel2scroll)
    (sent : List InputEvent) : Prop where
  on : triggered btn received = true → ∀ e ∈ sent, ¬ (e.type = evRel ∧ (e.code = relX ∨ e.code = relY))
  off : triggered btn received = false → ¬ IsTrigger btn ev →
    sent = [ev] ∨ (ev.type = evSyn ∧ data.eatNextSync) ∧ sent = []

/-- The wheels after one more event. -/
theorem wheels_step (h : Tracks btn xmod ymod received data) (hX : Wheel btn xmod relX relHwheel received sent)
    (hY : Wheel btn ymod relY relWheel received sent) (hrange : data.InRange ev) (hnative : ¬ IsWheel ev) :
    Wheel btn xmod relX relHwheel (received ++ [ev]) (sent ++ ((alone Rel2scroll.modify).step data ev).2) ∧
      Wheel btn ymod relY relWheel (received ++ [ev]) (sent ++ ((alone Rel2scroll.modify).step data ev).2) := by
  rcases branch data ev with hsyn | htrigger | ⟨hon, hx⟩ | ⟨hon, hy⟩ | ⟨hsyn, htrigger, hx, hy⟩
  · have hrel : ev.type ≠ evRel := hsyn.1 ▸ by decide
    rw [step_dropped hsyn]
    exact ⟨hX.skip (fun hx => hrel hx.2.1) rfl, hY.skip (fun hy => hrel hy.2.1) rfl⟩
  · have hrel : ev.type ≠ evRel := htrigger.1 ▸ by decide
    rw [step_trigger htrigger]
    exact ⟨hX.skip (fun hx => hrel hx.2.1) rfl, hY.skip (fun hy => hrel hy.2.1) rfl⟩
  · have hfits : Fits xmod data.x ev.value := h.xmod_eq ▸ (hrange hon).1 _ (moved_eq_some.mpr ⟨hx, rfl⟩)
    rw [step_x hon hx, h.xmod_eq]
    refine ⟨hX.take (h.on ▸ hon) hx h.x hfits, hY.skip (fun hy => ?_) (moved_others fun _ hwheel => ?_)⟩
    · exact absurd (hx.2.symm.trans hy.2.2) (by decide)
    · exact absurd (show relHwheel = relWheel from hwheel.2) (by decide)
  · have hfits : Fits ymod data.y ev.value := h.ymod_eq ▸ (hrange hon).2 _ (moved_eq_some.mpr ⟨hy, rfl⟩)
    rw [step_y hon hy, h.ymod_eq]
    refine ⟨hX.skip (fun hx => ?_) (moved_others fun _ hwheel => ?_), hY.take (h.on ▸ hon) hy h.y hfits⟩
    · exact absurd (hy.2.symm.trans hx.2.2) (by decide)
    · exact absurd (show relWheel = relHwheel from hwheel.2) (by decide)
  · have hpassed {wheel : UInt16} (hcode : wheel = relHwheel ∨ wheel = relWheel) :
        [ev].filterMap (moved wheel) = [] := by
      have hnone : moved wheel ev = none := moved_eq_none.mpr fun hmove => hnative ⟨hmove.1, hmove.2 ▸ hcode⟩
      rw [List.filterMap_cons_none hnone, List.filterMap_nil]
    rw [step_passed hsyn htrigger hx hy]
    exact ⟨hX.skip (h.on ▸ hx) (hpassed (Or.inl rfl)), hY.skip (h.on ▸ hy) (hpassed (Or.inr rfl))⟩

theorem answers_step (h : Tracks btn xmod ymod received data) (ev : InputEvent) :
    Answers btn received ev data ((alone Rel2scroll.modify).step data ev).2 := by
  rcases branch data ev with hsyn | htrigger | ⟨hon, hx⟩ | ⟨hon, hy⟩ | ⟨hsyn, htrigger, hx, hy⟩
  · rw [step_dropped hsyn]
    exact ⟨fun _ => List.forall_mem_nil _, fun _ _ => Or.inr ⟨hsyn, rfl⟩⟩
  · rw [step_trigger htrigger]
    exact ⟨fun _ => List.forall_mem_nil _, fun _ hnot => absurd (h.btn_eq ▸ htrigger) hnot⟩
  · have hon' : triggered btn received = true := h.on ▸ hon
    rw [step_x hon hx]
    refine ⟨fun _ => List.forall_mem_map.mpr fun _ _ hmove => ?_, fun hoff => absurd (hon'.symm.trans hoff) (by decide)⟩
    exact absurd (show relHwheel = relX ∨ relHwheel = relY from hmove.2) (by decide)
  · have hon' : triggered btn received = true := h.on ▸ hon
    rw [step_y hon hy]
    refine ⟨fun _ => List.forall_mem_map.mpr fun _ _ hmove => ?_, fun hoff => absurd (hon'.symm.trans hoff) (by decide)⟩
    exact absurd (show relWheel = relX ∨ relWheel = relY from hmove.2) (by decide)
  · rw [step_passed hsyn htrigger hx hy]
    refine ⟨fun hon => List.forall_mem_singleton.mpr ?_, fun _ _ => Or.inl rfl⟩
    rintro ⟨hrel, hcode | hcode⟩
    · exact hx ⟨h.on.trans hon, hrel, hcode⟩
    · exact hy ⟨h.on.trans hon, hrel, hcode⟩

end Rel2scroll

section
variable {β : Type} {next : InputEvent → β → InputEvent × β} {b : β} {xmod ymod : Int32} {evs : List InputEvent}

theorem Rel2scroll.tracks_state (btn xmod ymod : Int32) (evs : List InputEvent) :
    Tracks btn xmod ymod evs ((alone Rel2scroll.modify).state (evfRel2scrollAlloc btn xmod ymod) evs) :=
  Transducer.along_true.relates (fun received data _ => Tracks btn xmod ymod received data) .start
    fun _ _ _ ev h _ => h.step ev

theorem Rel2scroll.scrolls (hx : xmod ≠ 0) (hy : ymod ≠ 0)
    (hrange : (alone Rel2scroll.modify).Along Rel2scroll.InRange (evfRel2scrollAlloc btn xmod ymod) evs)
    (hnative : ∀ ev ∈ evs, ¬ IsWheel ev) : Scrolls btn xmod ymod evs
      ((alone Rel2scroll.modify).outputs (evfRel2scrollAlloc btn xmod ymod) evs)
      ((alone Rel2scroll.modify).state (evfRel2scrollAlloc btn xmod ymod) evs) := by
  have halong : (alone Rel2scroll.modify).Along (fun data ev => data.InRange ev ∧ ¬ IsWheel ev)
      (evfRel2scrollAlloc btn xmod ymod) evs :=
    Transducer.along_iff.mpr fun before ev after heq =>
      ⟨Transducer.along_iff.mp hrange before ev after heq, hnative ev (heq ▸ by simp)⟩
  obtain ⟨h, hX, hY⟩ := halong.relates (fun received data sent => Tracks btn xmod ymod received data ∧
      Wheel btn xmod relX relHwheel received sent ∧ Wheel btn ymod relY relWheel received sent)
    ⟨.start, .start, .start⟩ fun _ _ _ ev h hev => ⟨h.1.step ev, wheels_step h.1 h.2.1 h.2.2 hev.1 hev.2⟩
  obtain ⟨hxsum, hxsmall⟩ := hX.conserves hx h.x
  obtain ⟨hysum, hysmall⟩ := hY.conserves hy h.y
  refine ⟨h.on, hxsum, hysum, hxsmall, hysmall, fun ev hev hwheel => ?_⟩
  rcases hwheel with ⟨hrel, hcode | hcode⟩
  · exact hX.ne_zero hev ⟨hrel, hcode⟩
  · exact hY.ne_zero hev ⟨hrel, hcode⟩

/-- Rel2Scroll turns the movement into wheel events and loses none of it while the trigger is off. -/
theorem rel2scroll_scrolls (hx : xmod ≠ 0) (hy : ymod ≠ 0) (hnative : ∀ ev ∈ evs, ¬ IsWheel ev)
    (hrange : (driven Rel2scroll.modify next).Along (fun s ev => s.1.InRange ev)
      (evfRel2scrollAlloc btn xmod ymod, b) evs) :
    (∀ before, before <+: evs → Rel2scroll.Scrolls btn xmod ymod before
      ((driven Rel2scroll.modify next).outputs (evfRel2scrollAlloc btn xmod ymod, b) before)
      ((driven Rel2scroll.modify next).state (evfRel2scrollAlloc btn xmod ymod, b) before).1) ∧
    ∀ before ev after, evs = before ++ ev :: after →
      let s := (driven Rel2scroll.modify next).state (evfRel2scrollAlloc btn xmod ymod, b) before
      Rel2scroll.Answers btn before ev s.1 ((driven Rel2scroll.modify next).step s ev).2 := by
  have halong := (driven_along Rel2scroll.sendsLast).mp hrange
  constructor
  · rintro before ⟨after, rfl⟩
    rw [driven_outputs Rel2scroll.sendsLast, driven_state Rel2scroll.sendsLast]
    exact Rel2scroll.scrolls hx hy (Transducer.along_append.mp halong).1
      fun ev hev => hnative ev (List.mem_append_left _ hev)
  · intro before ev after _ s
    have hstate : s.1 = (alone Rel2scroll.modify).state (evfRel2scrollAlloc btn xmod ymod) before :=
      driven_state Rel2scroll.sendsLast
    rw [driven_answer Rel2scroll.sendsLast, hstate]
    exact Rel2scroll.answers_step (Rel2scroll.tracks_state _ _ _ _) ev

end

/-- The trigger is pressed, released and pressed again while the mouse is moved. -/
def twoHolds : List InputEvent :=
  [⟨(0, 0), evKey, 274, 1⟩, ⟨(0, 0), evSyn, synReport, 0⟩, ⟨(0, 1), evRel, relX, 5⟩, ⟨(0, 1), evRel, relY, -1⟩,
    ⟨(0, 2), evKey, 274, 0⟩, ⟨(0, 3), evRel, relX, 7⟩, ⟨(0, 4), evKey, 274, 1⟩, ⟨(0, 5), evRel, relX, 1⟩]

theorem rel2scroll_twoHolds : Rel2scroll.Scrolls 274 3 (-2) twoHolds
    ((driven Rel2scroll.modify (Proc.record id)).outputs (evfRel2scrollAlloc 274 3 (-2), []) twoHolds)
    ((driven Rel2scroll.modify (Proc.record id)).state (evfRel2scrollAlloc 274 3 (-2), []) twoHolds).1 :=
  (rel2scroll_scrolls (by decide) (by decide) (by decide) (by decide)).1 twoHolds (List.prefix_refl _)

end Evfilter.Filters
