import Evfilter.Filters.Front

/-!
# Filters on coordinates

Mirror, Rotate and NoRepeat keep nothing between events. However many of them follow each other, they do what one
NoRepeat, one Mirror and one Rotate do, wherever in a line they stand.
-/

namespace Evfilter.Filters
open Lib

/-! ## What Mirror and Rotate do to an event -/

/-- A flag for each of the two axes. The codes of the axes are those of movement and of position. -/
def onAxis (x y : Bool) (code : UInt16) : Bool := if code = 0 then x else if code = 1 then y else false

/-- The value is turned over. -/
def Mirror.turns (mirror : Mirror) (type code : UInt16) : Bool :=
  if type = evRel then onAxis mirror.relX mirror.relY code
  else if type = evAbs then onAxis mirror.absX mirror.absY code
  else false

def overturned (type : UInt16) (value : Int32) : Int32 := if type = evRel then value * -1 else intMax - value

def Rotate.turns (rotate : Rotate) (type : UInt16) : Bool :=
  if type = evRel then rotate.relCoords else if type = evAbs then rotate.absCoords else false

/-- The code of the other axis. -/
def otherAxis (code : UInt16) : UInt16 := if code = 0 then 1 else if code = 1 then 0 else code

/-- Two mirrors, one behind the other. -/
def Mirror.xor (m m' : Mirror) : Mirror :=
  { absX := m.absX ^^ m'.absX, absY := m.absY ^^ m'.absY, relX := m.relX ^^ m'.relX, relY := m.relY ^^ m'.relY }

def Rotate.xor (t t' : Rotate) : Rotate :=
  { absCoords := t.absCoords ^^ t'.absCoords, relCoords := t.relCoords ^^ t'.relCoords }

/-- The mirror for coordinates that are yet to be exchanged. -/
def Mirror.turned (m : Mirror) (t : Rotate) : Mirror where
  absX := if t.absCoords then m.absY else m.absX
  absY := if t.absCoords then m.absX else m.absY
  relX := if t.relCoords then m.relY else m.relX
  relY := if t.relCoords then m.relX else m.relY

variable {m m' : Mirror} {t t' : Rotate} {ev : InputEvent} {type code : UInt16} {value : Int32}

theorem onAxis_iff {x y : Bool} : onAxis x y code = true ↔ (code = 0 ∧ x = true) ∨ (code = 1 ∧ y = true) := by
  unfold onAxis
  by_cases hx : code = 0
  · simp [hx]
  · by_cases hy : code = 1 <;> simp [hx, hy]

theorem onAxis_xor {x y x' y' : Bool} : onAxis (x ^^ x') (y ^^ y') code = (onAxis x y code ^^ onAxis x' y' code) := by
  unfold onAxis
  split
  · rfl
  · split <;> rfl

theorem onAxis_otherAxis {x y : Bool} : onAxis x y (otherAxis code) = onAxis y x code := by
  unfold onAxis otherAxis
  by_cases hx : code = 0
  · simp [hx]
  · by_cases hy : code = 1 <;> simp [hx, hy]

theorem otherAxis_twice : otherAxis (otherAxis code) = code := by
  unfold otherAxis
  by_cases hx : code = 0
  · simp [hx]
  · by_cases hy : code = 1 <;> simp [hx, hy]

theorem Mirror.apply_eq : m.apply ev =
    { ev with value := if m.turns ev.type ev.code then overturned ev.type ev.value else ev.value } := by
  unfold apply turns overturned
  split
  · simp only [onAxis_iff]
    split <;> rfl
  · split
    · simp only [onAxis_iff]
      split <;> rfl
    · rfl

theorem exchange_eq : exchange 0 1 ev = { ev with code := otherAxis ev.code } := by
  unfold exchange otherAxis
  split
  · rfl
  · split <;> rfl

theorem Rotate.apply_eq : t.apply ev =
    { ev with code := if t.turns ev.type then otherAxis ev.code else ev.code } := by
  obtain ⟨time, type, code, value⟩ := ev
  have hne : (evRel : UInt16) ≠ evAbs := by decide
  unfold apply turns
  simp only [exchange_eq]
  by_cases hr : type = evRel
  · cases t.relCoords <;> simp [hr, hne]
  · by_cases ha : type = evAbs
    · cases t.absCoords <;> simp [ha, hne.symm]
    · simp [hr, ha]

theorem overturned_twice : overturned type (overturned type value) = value := by
  unfold overturned
  split
  · grind
  · grind

theorem Mirror.turns_xor : (m.xor m').turns type code = (m.turns type code ^^ m'.turns type code) := by
  unfold turns xor
  split
  · exact onAxis_xor
  · split
    · exact onAxis_xor
    · rfl

theorem Rotate.turns_xor : (t.xor t').turns type = (t.turns type ^^ t'.turns type) := by
  unfold turns xor
  split
  · rfl
  · split <;> rfl

theorem Mirror.turns_turned : (m.turned t).turns type code =
    m.turns type (if t.turns type then otherAxis code else code) := by
  unfold turns turned Rotate.turns
  split
  · cases t.relCoords <;> simp [onAxis_otherAxis]
  · split
    · cases t.absCoords <;> simp [onAxis_otherAxis]
    · rfl

theorem mirror_mirror : m'.apply (m.apply ev) = (m.xor m').apply ev := by
  simp only [Mirror.apply_eq, Mirror.turns_xor]
  cases m.turns ev.type ev.code <;> cases m'.turns ev.type ev.code <;> simp [overturned_twice]

theorem rotate_rotate : t'.apply (t.apply ev) = (t.xor t').apply ev := by
  simp only [Rotate.apply_eq, Rotate.turns_xor]
  cases t.turns ev.type <;> cases t'.turns ev.type <;> simp [otherAxis_twice]

/-- A Mirror goes in front of a Rotate. -/
theorem mirror_rotate : m.apply (t.apply ev) = t.apply ((m.turned t).apply ev) := by
  simp only [Mirror.apply_eq, Rotate.apply_eq, Mirror.turns_turned]

/-! ## Several of the filters -/

def Filter.Coordinate : Filter → Prop
  | mirror _ | rotate _ | noRepeat => True
  | _ => False

/-- What the filter does to an event that it hands on. -/
def Filter.moves : Filter → InputEvent → InputEvent
  | mirror m, ev => m.apply ev
  | rotate t, ev => t.apply ev
  | _, ev => ev

def movesAll (fs : List Filter) (ev : InputEvent) : InputEvent := fs.foldl (fun ev f => f.moves ev) ev

def InputEvent.Repeat (ev : InputEvent) : Prop := ev.type = evKey ∧ ev.value = 2

instance (ev : InputEvent) : Decidable ev.Repeat := inferInstanceAs (Decidable (_ ∧ _))

/-- One Mirror and one Rotate for all of them. -/
def summary : List Filter → Mirror × Rotate
  | [] => (⟨false, false, false, false⟩, ⟨false, false⟩)
  | .mirror m :: fs => (m.xor (summary fs).1, (summary fs).2)
  | .rotate t :: fs => ((summary fs).1.turned t, t.xor (summary fs).2)
  | _ :: fs => summary fs

/-- As few filters as will do. -/
def shortened (fs : List Filter) : List Filter :=
  (if .noRepeat ∈ fs then [.noRepeat] else []) ++ [.mirror (summary fs).1, .rotate (summary fs).2]

variable {β : Type} {next : InputEvent → β → InputEvent × β} {fs : List Filter} {f : Filter} {b : β}

theorem moves_repeat (h : ev.Repeat) : f.moves ev = ev := by
  have hr : ev.type ≠ evRel := by rw [h.1]; decide
  have ha : ev.type ≠ evAbs := by rw [h.1]; decide
  cases f with
  | mirror m => simp [Filter.moves, Mirror.apply, hr, ha]
  | rotate t => simp [Filter.moves, Rotate.apply, hr, ha]
  | _ => rfl

theorem moves_type : (f.moves ev).type = ev.type := by
  cases f with
  | mirror m => rw [Filter.moves, Mirror.apply_eq]
  | rotate t => rw [Filter.moves, Rotate.apply_eq]
  | _ => rfl

theorem repeat_moves : (f.moves ev).Repeat ↔ ev.Repeat := by
  constructor
  · intro h
    have hkey : ev.type = evKey := moves_type.symm.trans h.1
    have hr : ev.type ≠ evRel := by rw [hkey]; decide
    have ha : ev.type ≠ evAbs := by rw [hkey]; decide
    cases f with
    | mirror m => simpa [Filter.moves, Mirror.apply, hr, ha] using h
    | rotate t => simpa [Filter.moves, Rotate.apply, hr, ha] using h
    | _ => exact h
  · intro h
    rwa [moves_repeat h]

theorem coordinate_modify (h : f.Coordinate) (hdrop : ¬ (f = .noRepeat ∧ ev.Repeat)) :
    f.modify ev = .call (f.moves ev) fun r => .done (f, r) := by
  cases f with
  | mirror m => rfl
  | rotate t => rfl
  | noRepeat =>
      have hpass : ev.type ≠ evKey ∨ ev.value ≠ 2 := not_and_or.mp fun hrep => hdrop ⟨rfl, hrep⟩
      rw [Filter.modify, noRepeatModify, if_pos hpass]
      rfl
  | _ => exact h.elim

theorem noRepeat_drops (h : ev.Repeat) : Filter.noRepeat.modify ev = .done (.noRepeat, ev) := by
  have hdrop : ¬ (ev.type ≠ evKey ∨ ev.value ≠ 2) := by
    rintro (ht | hv)
    · exact ht h.1
    · exact hv h.2
  rw [Filter.modify, noRepeatModify, if_neg hdrop]
  rfl

/-- What the filters do in front of a callee. -/
theorem processOn_coordinates (h : ∀ f ∈ fs, f.Coordinate) (ev : InputEvent) (b : β) :
    processOn next fs.length ev (Front.ofList fs, b) =
      if .noRepeat ∈ fs ∧ ev.Repeat then (ev, (Front.ofList fs, b))
      else ((next (movesAll fs ev) b).1, (Front.ofList fs, (next (movesAll fs ev) b).2)) := by
  induction fs generalizing ev with
  | nil => rfl
  | cons f fs ih =>
      obtain ⟨hf, hfs⟩ := List.forall_mem_cons.mp h
      change (((f.modify ev).drive (processOn next fs.length) (Front.ofList fs, b)).1.2,
        ((_, _), _)) = _
      by_cases hdrop : f = .noRepeat ∧ ev.Repeat
      · obtain ⟨rfl, hrep⟩ := hdrop
        rw [noRepeat_drops hrep, if_pos ⟨List.mem_cons_self, hrep⟩]
        rfl
      · have hmem : (.noRepeat ∈ f :: fs ∧ ev.Repeat) ↔ (.noRepeat ∈ fs ∧ (f.moves ev).Repeat) := by
          rw [repeat_moves, List.mem_cons]
          constructor
          · rintro ⟨rfl | hmem, hrep⟩
            · exact absurd ⟨rfl, hrep⟩ hdrop
            · exact ⟨hmem, hrep⟩
          · exact fun hmem => ⟨Or.inr hmem.1, hmem.2⟩
        rw [coordinate_modify hf hdrop, Proc.drive_call, ih hfs]
        by_cases hrep : .noRepeat ∈ fs ∧ (f.moves ev).Repeat
        · rw [if_pos hrep, if_pos (hmem.mpr hrep), moves_repeat (repeat_moves.mp hrep.2)]
          rfl
        · rw [if_neg hrep, if_neg (fun h => hrep (hmem.mp h))]
          rfl

/-- A Mirror in front of the Rotate of the rest, and so on. -/
theorem movesAll_summary (fs : List Filter) (ev : InputEvent) :
    movesAll fs ev = (summary fs).2.apply ((summary fs).1.apply ev) := by
  induction fs generalizing ev with
  | nil => simp [movesAll, summary, Rotate.apply, Mirror.apply]
  | cons f fs ih =>
      change movesAll fs (f.moves ev) = _
      rw [ih]
      cases f with
      | mirror m => exact congrArg _ mirror_mirror
      | rotate t =>
          rw [Filter.moves, mirror_rotate, rotate_rotate]
          rfl
      | _ => rfl

theorem movesAll_shortened (fs : List Filter) (ev : InputEvent) : movesAll (shortened fs) ev = movesAll fs ev := by
  rw [movesAll_summary fs, shortened, movesAll, List.foldl_append]
  split <;> rfl

theorem coordinate_shortened : ∀ f ∈ shortened fs, f.Coordinate := by
  unfold shortened
  split <;> simp [Filter.Coordinate]

theorem noRepeat_shortened : .noRepeat ∈ shortened fs ↔ .noRepeat ∈ fs := by
  unfold shortened
  split <;> simp [*]

/-- The state after a stream, with any other filters in front of these. -/
def streamed (next : InputEvent → β → InputEvent × β) {n : Nat} (front : Front n) (fs : List Filter) (b : β)
    (evs : List InputEvent) : Front n × (Front fs.length × β) :=
  Proc.feed (processOn (processOn next fs.length) n) evs (front, (Front.ofList fs, b))

/-- In front of the same callee. -/
def SameBehind (fs fs' : List Filter) (s : Front fs.length × β) (s' : Front fs'.length × β) : Prop :=
  s.1 = Front.ofList fs ∧ s'.1 = Front.ofList fs' ∧ s.2 = s'.2

theorem shortened_alike (h : ∀ f ∈ fs, f.Coordinate) :
    AnswerAlike (SameBehind fs (shortened fs)) (processOn next fs.length) (processOn next (shortened fs).length) := by
  rintro ev ⟨_, b⟩ ⟨_, _⟩ ⟨rfl, rfl, rfl⟩
  rw [processOn_coordinates h, processOn_coordinates coordinate_shortened, movesAll_shortened]
  simp only [noRepeat_shortened]
  split
  · exact ⟨rfl, rfl, rfl, rfl⟩
  · exact ⟨rfl, rfl, rfl, rfl⟩

/-- Any number of these filters does what at most one NoRepeat, one Mirror and one Rotate do, whatever is behind them,
whatever other filters are in front of them, and for every stream. -/
theorem coordinates_shortened (fs : List Filter) (h : ∀ f ∈ fs, f.Coordinate)
    (next : InputEvent → β → InputEvent × β) {n : Nat} (front : Front n) (b : β) (evs : List InputEvent)
    (ev : InputEvent) :
    (streamed next front fs b evs).1 = (streamed next front (shortened fs) b evs).1 ∧
      (streamed next front fs b evs).2.2 = (streamed next front (shortened fs) b evs).2.2 ∧
      (processOn (processOn next fs.length) n ev (streamed next front fs b evs)).1 =
        (processOn (processOn next (shortened fs).length) n ev (streamed next front (shortened fs) b evs)).1 := by
  have halike : AnswerAlike _ (processOn (processOn next fs.length) n)
      (processOn (processOn next (shortened fs).length) n) := (shortened_alike h).behind n
  have hrel : SameFront (SameBehind fs (shortened fs)) (streamed next front fs b evs)
      (streamed next front (shortened fs) b evs) := halike.feed evs ⟨rfl, rfl, rfl, rfl⟩
  exact ⟨hrel.1, hrel.2.2.2, (halike ev _ _ hrel).1⟩

/-- A mirror, a rotation and the same mirror again, in front of the commit function. -/
def mirrorBothSides : List Filter :=
  [.mirror ⟨false, false, true, false⟩, .rotate ⟨false, true⟩, .mirror ⟨false, false, true, false⟩]

theorem mirrorBothSides_shortened :
    (streamed (Proc.record id) (n := 0) (() : Unit) mirrorBothSides [] [⟨⟨0, 0⟩, evRel, 0, 5⟩]).2.2 =
      (streamed (Proc.record id) (n := 0) (() : Unit) (shortened mirrorBothSides) [] [⟨⟨0, 0⟩, evRel, 0, 5⟩]).2.2 :=
  (coordinates_shortened mirrorBothSides (by simp [mirrorBothSides, Filter.Coordinate]) (Proc.record id) (n := 0) (() : Unit) []
    [⟨⟨0, 0⟩, evRel, 0, 5⟩] ⟨⟨0, 0⟩, evRel, 0, 5⟩).2.1

end Evfilter.Filters
