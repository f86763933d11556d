import Evfilter.Filters.Line

/-!
# Filters that send last

All filters but PressureToKey, Abs2Rel and Barrier send at most one event in a call, and do nothing after it.
-/

namespace Evfilter.Filters
open Lib

def InputEvent.IsPressure (ev : InputEvent) : Prop := ev.type = evAbs ∧ ev.code = absPressure

instance (ev : InputEvent) : Decidable ev.IsPressure := inferInstanceAs (Decidable (_ ∧ _))

def InputEvent.IsPenUp (ev : InputEvent) : Prop := ev.type = evAbs ∧ ev.code = absPressure ∧ ev.value = 0

instance (ev : InputEvent) : Decidable ev.IsPenUp := inferInstanceAs (Decidable (_ ∧ _))

/-- What these filters may do to an event. -/
structure Passes (ev ev' : InputEvent) : Prop where
  noAbs : ev.type ≠ evAbs → ev'.type ≠ evAbs
  syn : ev.type = evSyn → ev' = ev
  pressure : ev.IsPressure → ev' = ev
  other : ¬ ev.IsPressure → ¬ ev'.IsPressure

def Filter.Direct : Filter → Prop
  | pressureToKey _ | abs2rel _ | barrier _ => False
  | _ => True

/-- A call that sends `ev'` and ends in `d`, or drops an event that is not one of pressure. -/
def SendsLast {α : Type} (ev : InputEvent) (p : Modify (α × InputEvent)) : Prop :=
  ∃ d ev', Passes ev ev' ∧
    (p = .call ev' (fun ev => .done (d, ev)) ∨ p = .done (d, ev') ∧ ¬ ev.IsPressure)

variable {ev ev' : InputEvent} {f : Filter} {α : Type} {d : α}
  {p : Modify (α × InputEvent)}

/-! ## Passing -/

theorem Passes.refl : Passes ev ev := ⟨id, fun _ => rfl, fun _ => rfl, id⟩

/-- Events of keys and of relative movement are changed freely. -/
theorem Passes.of_type (hs : ev.type ≠ evSyn) (ha : ev.type ≠ evAbs) (h : ev'.type ≠ evAbs) : Passes ev ev' :=
  ⟨fun _ => h, fun h => absurd h hs, fun hp => absurd hp.1 ha, fun _ hp => h hp.1⟩

theorem Passes.of_key (hk : ev.type = evKey) (h : ev'.type = ev.type) : Passes ev ev' :=
  of_type (by rw [hk]; decide) (by rw [hk]; decide) (by rw [h, hk]; decide)

theorem Passes.of_rel (hr : ev.type = evRel) (h : ev'.type = ev.type) : Passes ev ev' :=
  of_type (by rw [hr]; decide) (by rw [hr]; decide) (by rw [h, hr]; decide)

theorem Passes.of_abs (ha : ev.type = evAbs) (hc : ev.code ≠ absPressure) (hc' : ev'.code ≠ absPressure) :
    Passes ev ev' :=
  ⟨fun h => absurd ha h, fun h => absurd (h.symm.trans ha) (by decide), fun hp => absurd hp.2 hc,
    fun _ hp => hc' hp.2⟩

theorem SendsLast.emit (hp : p = .call ev' fun ev => .done (d, ev)) (h : Passes ev ev') : SendsLast ev p :=
  ⟨d, ev', h, Or.inl hp⟩

theorem SendsLast.drop (hp : p = .done (d, ev)) (h : ev.type ≠ evAbs) : SendsLast ev p :=
  ⟨d, ev, .refl, Or.inr ⟨hp, fun hp => h hp.1⟩⟩

theorem SendsLast.filter (w : α → Filter) (h : SendsLast ev p) :
    ∃ d ev', Passes ev ev' ∧
      ((p >>= fun x => pure (w x.1, x.2)) = .call ev' (fun ev => .done (w d, ev)) ∨
      (p >>= fun x => pure (w x.1, x.2)) = .done (w d, ev') ∧ ¬ ev.IsPressure) := by
  obtain ⟨d, ev', hp, rfl | ⟨rfl, hn⟩⟩ := h
  · exact ⟨d, ev', hp, Or.inl rfl⟩
  · exact ⟨d, ev', hp, Or.inr ⟨rfl, hn⟩⟩

/-! ## The filters -/

theorem Mirror.passes (mirror : Mirror) : Passes ev (mirror.apply ev) := by
  unfold Mirror.apply
  split
  case isTrue hr =>
    split
    · exact .of_rel hr rfl
    · exact .refl
  case isFalse =>
    split
    case isFalse => exact .refl
    case isTrue ha =>
      split
      case isTrue hc => rcases hc with ⟨h, _⟩ | ⟨h, _⟩ <;> exact .of_abs ha (by rw [h]; decide) (by rw [h]; decide)
      case isFalse => exact .refl

theorem exchange_type {x y : UInt16} : (exchange x y ev).type = ev.type := by
  unfold exchange
  split
  · rfl
  · split <;> rfl

theorem Rotate.passes (rotate : Rotate) : Passes ev (rotate.apply ev) := by
  unfold Rotate.apply
  split
  case isTrue hr => exact .of_rel hr.1 exchange_type
  case isFalse =>
    split
    case isFalse => exact .refl
    case isTrue ha =>
      unfold exchange
      split
      case isTrue hx => exact .of_abs ha.1 (by rw [hx]; decide) (show absY ≠ absPressure by decide)
      case isFalse =>
        split
        case isTrue hy => exact .of_abs ha.1 (by rw [hy]; decide) (show absX ≠ absPressure by decide)
        case isFalse => exact .refl

theorem Relspeed.sendsLast (data : Relspeed) (ev : InputEvent) : SendsLast ev (data.modify ev) := by
  unfold Relspeed.modify
  split
  case isTrue h => exact .drop rfl (by rw [h.1]; decide)
  case isFalse =>
    split
    case isTrue h =>
      split
      · exact .emit rfl (.of_rel h.1 rfl)
      · exact .drop rfl (by rw [h.1]; decide)
    case isFalse =>
      split
      case isTrue h =>
        split
        · exact .emit rfl (.of_rel h.1 rfl)
        · exact .drop rfl (by rw [h.1]; decide)
      case isFalse => exact .emit rfl .refl

theorem Rel2scroll.sendsLast (data : Rel2scroll) (ev : InputEvent) : SendsLast ev (data.modify ev) := by
  simp only [Rel2scroll.modify]
  split
  case isTrue h => exact .drop rfl (by rw [h.1]; decide)
  case isFalse =>
    split
    case isTrue h => exact .drop rfl (by rw [h.1]; decide)
    case isFalse =>
      split
      case isTrue h =>
        split
        · exact .emit rfl (.of_rel h.2.1 rfl)
        · exact .drop rfl (by rw [h.2.1]; decide)
      case isFalse =>
        split
        case isTrue h =>
          split
          · exact .emit rfl (.of_rel h.2.1 rfl)
          · exact .drop rfl (by rw [h.2.1]; decide)
        case isFalse => exact .emit rfl .refl

theorem KeyLock.sendsLast (data : KeyLock) (ev : InputEvent) : SendsLast ev (data.modify ev) := by
  simp only [KeyLock.modify]
  split
  case isTrue h => exact .drop rfl (by rw [h.2.1]; decide)
  case isFalse =>
    split
    case isFalse => exact .emit rfl .refl
    case isTrue hk =>
      split
      · exact .drop rfl (by rw [hk.1]; decide)
      · split
        · split
          · exact .emit rfl .refl
          · exact .emit rfl (.of_key hk.1 rfl)
        · exact .emit rfl .refl

theorem moveKey_type {key : Int32} {code : UInt16} {value : Int32} (h : moveKey key code value ev = some ev')
    (ha : ev.type ≠ evAbs) : ev'.type ≠ evAbs := by
  unfold moveKey at h
  split at h
  · split at h <;> cases h
    exact (show evRel ≠ evAbs by decide)
  · cases h
    exact ha

theorem buttonKey_type {btn : Int32} {code : UInt16} : (buttonKey btn code ev).type = ev.type := by
  unfold buttonKey
  split <;> rfl

theorem Btn2rel.translate_type {data : Btn2rel} (h : data.translate ev = some ev') (ha : ev.type ≠ evAbs) :
    ev'.type ≠ evAbs := by
  simp only [Btn2rel.translate, Option.bind_eq_bind, Option.bind_eq_some_iff, Option.pure_def,
    Option.some.injEq] at h
  obtain ⟨e₁, h₁, e₂, h₂, e₃, h₃, e₄, h₄, rfl⟩ := h
  simp only [buttonKey_type]
  exact moveKey_type h₄ (moveKey_type h₃ (moveKey_type h₂ (moveKey_type h₁ ha)))

theorem Btn2rel.sendsLast (data : Btn2rel) (ev : InputEvent) : SendsLast ev (data.modify ev) := by
  unfold Btn2rel.modify
  split
  case isTrue h => exact .drop rfl (by rw [h.1]; decide)
  case isFalse =>
    split
    case isFalse => exact .emit rfl .refl
    case isTrue hk =>
      have ha : ev.type ≠ evAbs := by rw [hk]; decide
      split
      case h_1 => exact .drop rfl ha
      case h_2 e he => exact .emit rfl (.of_type (by rw [hk]; decide) ha (Btn2rel.translate_type he ha))

/-- The filters by what they do after sending. -/
theorem Filter.kind (f : Filter) : f.Direct ∨ (∃ p, f = pressureToKey p) ∨ (∃ b, f = barrier b) ∨
    ∃ d, f = abs2rel d := by
  cases f with
  | pressureToKey p => exact Or.inr (Or.inl ⟨p, rfl⟩)
  | barrier b => exact Or.inr (Or.inr (Or.inl ⟨b, rfl⟩))
  | abs2rel d => exact Or.inr (Or.inr (Or.inr ⟨d, rfl⟩))
  | _ => exact Or.inl trivial

theorem direct_modify (hf : f.Direct) (ev : InputEvent) : ∃ f' ev', f'.Direct ∧ Passes ev ev' ∧
    (f.modify ev = .call ev' (fun ev => .done (f', ev)) ∨ f.modify ev = .done (f', ev') ∧ ¬ ev.IsPressure) := by
  cases f with
  | noRepeat =>
      simp only [Filter.modify, noRepeatModify]
      split
      · exact ⟨.noRepeat, ev, trivial, .refl, Or.inl rfl⟩
      · rename_i h
        have hk : ev.type = evKey := Decidable.not_not.mp (not_or.mp h).1
        exact ⟨.noRepeat, ev, trivial, .refl, Or.inr ⟨rfl, fun hp => absurd (hk.symm.trans hp.1) (by decide)⟩⟩
  | pressureToKey data => exact hf.elim
  | barrier data => exact hf.elim
  | abs2rel data => exact hf.elim
  | mirror data => exact ⟨.mirror data, data.apply ev, trivial, data.passes, Or.inl rfl⟩
  | rotate data => exact ⟨.rotate data, data.apply ev, trivial, data.passes, Or.inl rfl⟩
  | keySubstitute data =>
      simp only [Filter.modify, KeySubstitute.modify]
      split
      · rename_i hk
        exact ⟨.keySubstitute data, { ev with code := toCode data.keyTo }, trivial, .of_key hk.1 rfl, Or.inl rfl⟩
      · exact ⟨.keySubstitute data, ev, trivial, .refl, Or.inl rfl⟩
  | speedMod data =>
      obtain ⟨d, ev', h⟩ := (data.sendsLast ev).filter .speedMod
      exact ⟨.speedMod d, ev', trivial, h⟩
  | btn2rel data =>
      obtain ⟨d, ev', h⟩ := (data.sendsLast ev).filter .btn2rel
      exact ⟨.btn2rel d, ev', trivial, h⟩
  | rel2scroll data =>
      obtain ⟨d, ev', h⟩ := (data.sendsLast ev).filter .rel2scroll
      exact ⟨.rel2scroll d, ev', trivial, h⟩
  | keyLock data =>
      obtain ⟨d, ev', h⟩ := (data.sendsLast ev).filter .keyLock
      exact ⟨.keyLock d, ev', trivial, h⟩

end Evfilter.Filters
