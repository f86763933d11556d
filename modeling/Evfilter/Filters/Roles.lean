import Evfilter.Filters.Stream
import Evfilter.Filters.Tables
import Evfilter.Lib.Rules

/-!
# The keys of Btn2Rel

Btn2Rel compares the code of a key event with seven keys in a row and goes on with the new code where it has put one
in. REL_X is the code of a key that is not given, and REL_Y is that of KEY_ESC.
-/

namespace Evfilter.Filters
open Lib Param

/-- A movement key. A release is dropped. -/
def moveRule (key : Int32) (code : UInt16) (value : Int32) : Rule Int32 InputEvent where
  key := key
  result := fun ev => if ev.value = 0 then none else some { ev with type := evRel, code := code, value := value }

def buttonRule (btn : Int32) (code : UInt16) : Rule Int32 InputEvent where
  key := btn
  result := fun ev => some { ev with code := code }

namespace Btn2rel

/-- The keys in the order in which they are compared. -/
def rules (data : Btn2rel) : List (Rule Int32 InputEvent) := [
  moveRule data.keyUp relY 2,
  moveRule data.keyDown relY (-2),
  moveRule data.keyLeft relX (-2),
  moveRule data.keyRight relX 2,
  buttonRule data.leftBtn btnLeft,
  buttonRule data.middleBtn btnMiddle,
  buttonRule data.rightBtn btnRight]

variable {data : Btn2rel} {ev : InputEvent}

theorem chain_move {key value : Int32} {code : UInt16} {rs : List (Rule Int32 InputEvent)} :
    Rule.chain InputEvent.key (moveRule key code value :: rs) ev =
      (moveKey key code value ev).bind (Rule.chain InputEvent.key rs) := rfl

theorem chain_button {btn : Int32} {code : UInt16} {rs : List (Rule Int32 InputEvent)} :
    Rule.chain InputEvent.key (buttonRule btn code :: rs) ev = Rule.chain InputEvent.key rs (buttonKey btn code ev) := by
  by_cases h : ev.key = btn
  · rw [buttonKey, if_pos h, Rule.chain_apply (by exact h)]
    rfl
  · rw [buttonKey, if_neg h, Rule.chain_skip (by exact h)]

theorem translate_eq : data.translate ev = Rule.chain InputEvent.key data.rules ev := by
  rw [rules, chain_move]
  refine Option.bind_congr fun ev _ => ?_
  rw [chain_move]
  refine Option.bind_congr fun ev _ => ?_
  rw [chain_move]
  refine Option.bind_congr fun ev _ => ?_
  rw [chain_move]
  refine Option.bind_congr fun ev _ => ?_
  rw [chain_button, chain_button, chain_button]
  rfl

theorem results_differ : data.rules.Pairwise fun r later => ∀ a b, ∀ c ∈ r.result a, c ∉ later.result b := by
  simp [rules, moveRule, buttonRule, relX, relY, btnLeft, btnMiddle, btnRight]

/-! ## What is dropped -/

/-- A release of a movement key. -/
def MoveRelease (data : Btn2rel) (ev : InputEvent) : Prop := ev.type = evKey ∧ ev.value = 0 ∧
  (ev.key = data.keyUp ∨ ev.key = data.keyDown ∨ ev.key = data.keyLeft ∨ ev.key = data.keyRight)

instance : Decidable (MoveRelease data ev) := inferInstanceAs (Decidable (_ ∧ _))

theorem chain_press (h : ev.value ≠ 0) : ∃ e, Rule.chain InputEvent.key data.rules ev = some e := by
  refine Rule.chain_isSome (P := fun ev => ev.value ≠ 0) ?_ h
  have hmove {key value : Int32} {code : UInt16} (hvalue : value ≠ 0) (ev : InputEvent) (h : ev.value ≠ 0) :
      ∃ e, (moveRule key code value).result ev = some e ∧ e.value ≠ 0 := ⟨_, if_neg h, hvalue⟩
  have hbutton {btn : Int32} {code : UInt16} (ev : InputEvent) (h : ev.value ≠ 0) :
      ∃ e, (buttonRule btn code).result ev = some e ∧ e.value ≠ 0 := ⟨_, rfl, h⟩
  simp only [rules, List.forall_mem_cons]
  exact ⟨hmove (by decide), hmove (by decide), hmove (by decide), hmove (by decide), hbutton, hbutton, hbutton,
    List.forall_mem_nil _⟩

theorem chain_release {key value : Int32} {code : UInt16} {rs : List (Rule Int32 InputEvent)} (h : ev.value = 0) :
    Rule.chain InputEvent.key (moveRule key code value :: rs) ev = none ↔
      ev.key = key ∨ Rule.chain InputEvent.key rs ev = none := by
  by_cases hkey : ev.key = key
  · rw [Rule.chain_apply (by exact hkey)]
    exact iff_of_true (by simp [moveRule, h]) (Or.inl hkey)
  · rw [Rule.chain_skip (by exact hkey), or_iff_right hkey]

theorem translate_eq_none : data.translate ev = none ↔ ev.value = 0 ∧
    (ev.key = data.keyUp ∨ ev.key = data.keyDown ∨ ev.key = data.keyLeft ∨ ev.key = data.keyRight) := by
  rw [translate_eq]
  by_cases h : ev.value = 0
  · rw [rules, chain_release h, chain_release h, chain_release h, chain_release h, chain_button, chain_button,
      chain_button]
    simp [h, Rule.chain]
  · obtain ⟨e, he⟩ : ∃ e, Rule.chain InputEvent.key data.rules ev = some e := chain_press h
    rw [he]
    exact iff_of_false (Option.some_ne_none e) fun hrelease => h hrelease.1

/-! ## One event -/

/-- What is sent for an event other than EV_SYN. -/
def sent (data : Btn2rel) (ev : InputEvent) : Option InputEvent :=
  if ev.type = evKey then data.translate ev else some ev

theorem step_syn (h : ev.type = evSyn) : (alone Btn2rel.modify).step data ev =
    ({ data with eatNextSyn := false }, if data.eatNextSyn then [] else [ev]) := by
  have hkey : ev.type ≠ evKey := h ▸ by decide
  by_cases hon : data.eatNextSyn
  · simp only [alone, Btn2rel.modify, if_pos (And.intro h hon), if_pos hon]
    rfl
  · have hnot : ¬ (ev.type = evSyn ∧ data.eatNextSyn = true) := fun hsyn => hon hsyn.2
    obtain ⟨up, down, left, right, rbtn, mbtn, lbtn, flag⟩ := data
    obtain rfl : flag = false := Bool.eq_false_iff.mpr hon
    simp only [alone, Btn2rel.modify, if_neg hnot, if_neg hkey]
    rfl

theorem step_sent (h : ev.type ≠ evSyn) : (alone Btn2rel.modify).step data ev =
    ({ data with eatNextSyn := data.eatNextSyn || (data.sent ev).isNone }, (data.sent ev).toList) := by
  have hsyn : ¬ (ev.type = evSyn ∧ data.eatNextSyn = true) := fun hsyn => h hsyn.1
  by_cases hkey : ev.type = evKey
  · simp only [alone, Btn2rel.modify, if_neg hsyn, if_pos hkey, sent]
    cases data.translate ev with
    | none =>
        rw [Option.isNone_none, Bool.or_true]
        rfl
    | some e =>
        rw [Option.isNone_some, Bool.or_false]
        rfl
  · simp only [alone, Btn2rel.modify, if_neg hsyn, if_neg hkey, sent]
    rw [Option.isNone_some, Bool.or_false]
    rfl

/-- The keys stay. -/
theorem state_eq (data : Btn2rel) (evs : List InputEvent) : ∃ flag,
    (alone Btn2rel.modify).state data evs = { data with eatNextSyn := flag } := by
  refine Transducer.invariant (J := fun after : Btn2rel => ∃ flag, after = { data with eatNextSyn := flag })
    ⟨data.eatNextSyn, rfl⟩ ?_
  rintro _ ev ⟨flag, rfl⟩
  by_cases hsyn : ev.type = evSyn
  · exact ⟨_, by rw [step_syn hsyn]⟩
  · exact ⟨_, by rw [step_sent hsyn]⟩

end Btn2rel

/-! ## Configurations -/

/-- The keys of a configuration under the names that they have in it. -/
structure BtnKeys where
  up : Int32
  down : Int32
  left : Int32
  right : Int32
  leftBtn : Int32
  middleBtn : Int32
  rightBtn : Int32
deriving DecidableEq

/-- The key given for a parameter. -/
def givenKey (P : Platform) (params : List EvfParam) (cfg : CString) (i : Nat) : Int32 :=
  ((given params cfg i).map (KeyParser.keyparserGetkey P.keyValues)).getD 0

def BtnKeys.given (P : Platform) (cfg : CString) : BtnKeys :=
  { up := givenKey P Tables.btn2relParams cfg 0
    down := givenKey P Tables.btn2relParams cfg 1
    left := givenKey P Tables.btn2relParams cfg 2
    right := givenKey P Tables.btn2relParams cfg 3
    leftBtn := givenKey P Tables.btn2relParams cfg 4
    middleBtn := givenKey P Tables.btn2relParams cfg 5
    rightBtn := givenKey P Tables.btn2relParams cfg 6 }

def evfBtn2relCreat (P : Platform) (params : CString) : Except EvfErr Btn2rel := do
  let args ← evfLoadParams P params Tables.btn2relParams
  let keyUp := intArg args 0
  let keyDown := intArg args 1
  let keyLeft := intArg args 2
  let keyRight := intArg args 3
  let leftBtn := intArg args 4
  let middleBtn := intArg args 5
  let rightBtn := intArg args 6
  return evfBtn2relAlloc keyUp keyDown keyLeft keyRight leftBtn middleBtn rightBtn

namespace BtnKeys

/-- No two of the keys are the same, but for those that are not given. -/
def Distinct (k : BtnKeys) : Prop :=
  [k.down, k.up, k.left, k.right, k.leftBtn, k.middleBtn, k.rightBtn].Pairwise fun a b => a = b → a = 0

instance (k : BtnKeys) : Decidable k.Distinct := inferInstanceAs (Decidable (List.Pairwise _ _))

/-- A press or repeat of a movement key becomes a movement. -/
def move (code : UInt16) (value : Int32) (ev : InputEvent) : List InputEvent :=
  if ev.value = 0 then [] else [{ ev with type := evRel, code := code, value := value }]

/-- What a key event is meant to become. -/
def meant (k : BtnKeys) (ev : InputEvent) : List InputEvent :=
  if ev.key = k.up then move relY (-2) ev
  else if ev.key = k.down then move relY 2 ev
  else if ev.key = k.left then move relX (-2) ev
  else if ev.key = k.right then move relX 2 ev
  else if ev.key = k.leftBtn then [{ ev with code := btnLeft }]
  else if ev.key = k.middleBtn then [{ ev with code := btnMiddle }]
  else if ev.key = k.rightBtn then [{ ev with code := btnRight }]
  else [ev]

/-- The code of a movement or of a button is none of the keys that the event is compared with after its own. -/
structure Apart (k : BtnKeys) (ev : InputEvent) : Prop where
  down : ev.value ≠ 0 → ev.key = k.down → 1 ∉ [k.up, k.left, k.right, k.leftBtn, k.middleBtn, k.rightBtn]
  up : ev.value ≠ 0 → ev.key = k.up → 1 ∉ [k.left, k.right, k.leftBtn, k.middleBtn, k.rightBtn]
  left : ev.value ≠ 0 → ev.key = k.left → 0 ∉ [k.right, k.leftBtn, k.middleBtn, k.rightBtn]
  right : ev.value ≠ 0 → ev.key = k.right → 0 ∉ [k.leftBtn, k.middleBtn, k.rightBtn]
  leftBtn : ev.key = k.leftBtn → 272 ∉ [k.middleBtn, k.rightBtn]
  middleBtn : ev.key = k.middleBtn → 274 ∉ [k.rightBtn]

/-- The filter that is created has the first two keys in each other's place. -/
def filter (k : BtnKeys) : Btn2rel := evfBtn2relAlloc k.up k.down k.left k.right k.leftBtn k.middleBtn k.rightBtn

variable {k : BtnKeys} {ev : InputEvent}

theorem moveRule_apart {key value : Int32} {code : UInt16} {later : List (Rule Int32 InputEvent)} :
    (∀ r ∈ later, ev.key = key → ∀ c ∈ (moveRule key code value).result ev, c.key ≠ r.key) ↔
      (ev.value ≠ 0 → ev.key = key → code.toUInt32.toInt32 ∉ later.map Rule.key) := by
  by_cases hvalue : ev.value = 0
  · have hnone : (moveRule key code value).result ev = none := if_pos hvalue
    rw [hnone]
    exact iff_of_true (fun _ _ _ c hc => absurd hc (Option.not_mem_none c)) fun h => absurd hvalue h
  · have hsome : (moveRule key code value).result ev = some _ := if_neg hvalue
    rw [hsome, forall_prop_of_true hvalue]
    constructor
    · rintro h hkey hmem
      obtain ⟨r, hr, heq⟩ := List.mem_map.mp hmem
      exact h r hr hkey _ rfl heq.symm
    · rintro h r hr hkey c hc heq
      obtain rfl := Option.some.inj hc
      exact h hkey (List.mem_map.mpr ⟨r, hr, heq.symm⟩)

theorem buttonRule_apart {btn : Int32} {code : UInt16} {later : List (Rule Int32 InputEvent)} :
    (∀ r ∈ later, ev.key = btn → ∀ c ∈ (buttonRule btn code).result ev, c.key ≠ r.key) ↔
      (ev.key = btn → code.toUInt32.toInt32 ∉ later.map Rule.key) := by
  constructor
  · rintro h hkey hmem
    obtain ⟨r, hr, heq⟩ := List.mem_map.mp hmem
    exact h r hr hkey _ rfl heq.symm
  · rintro h r hr hkey c hc heq
    obtain rfl := Option.some.inj hc
    exact h hkey (List.mem_map.mpr ⟨r, hr, heq.symm⟩)

theorem settled_iff_apart : Rule.Settled InputEvent.key k.filter.rules ev ↔ k.Apart ev := by
  simp only [Rule.Settled, Btn2rel.rules, List.pairwise_cons]
  constructor
  · rintro ⟨hdown, hup, hleft, hright, hleftBtn, hmiddleBtn, -⟩
    exact ⟨moveRule_apart.mp hdown, moveRule_apart.mp hup, moveRule_apart.mp hleft, moveRule_apart.mp hright,
      buttonRule_apart.mp hleftBtn, buttonRule_apart.mp hmiddleBtn⟩
  · rintro ⟨hdown, hup, hleft, hright, hleftBtn, hmiddleBtn⟩
    exact ⟨moveRule_apart.mpr hdown, moveRule_apart.mpr hup, moveRule_apart.mpr hleft, moveRule_apart.mpr hright,
      buttonRule_apart.mpr hleftBtn, buttonRule_apart.mpr hmiddleBtn, fun _ h => absurd h List.not_mem_nil, .nil⟩

theorem first_move {key value : Int32} {code : UInt16} {rs : List (Rule Int32 InputEvent)} :
    (Rule.first InputEvent.key (moveRule key code value :: rs) ev).toList =
      if ev.key = key then move code value ev else (Rule.first InputEvent.key rs ev).toList := by
  by_cases hkey : ev.key = key
  · rw [Rule.first_apply (by exact hkey), if_pos hkey]
    simp only [moveRule, move]
    split <;> rfl
  · rw [Rule.first_skip (by exact hkey), if_neg hkey]

theorem first_button {btn : Int32} {code : UInt16} {rs : List (Rule Int32 InputEvent)} :
    (Rule.first InputEvent.key (buttonRule btn code :: rs) ev).toList =
      if ev.key = btn then [{ ev with code := code }] else (Rule.first InputEvent.key rs ev).toList := by
  by_cases hkey : ev.key = btn
  · rw [Rule.first_apply (by exact hkey), if_pos hkey]
    rfl
  · rw [Rule.first_skip (by exact hkey), if_neg hkey]

/-- What is meant is what the first rule for the key makes of the event. -/
theorem meant_eq (hkeys : k.Distinct) (hev : ev.key ≠ 0) :
    (Rule.first InputEvent.key k.filter.rules ev).toList = k.meant ev := by
  rw [Btn2rel.rules, first_move, first_move, first_move, first_move, first_button, first_button, first_button, meant]
  by_cases hup : ev.key = k.up
  · have hdown : ev.key ≠ k.down := by
      intro hdown
      have hzero := (List.pairwise_cons.mp hkeys).1 k.up (by simp) (hdown.symm.trans hup)
      exact hev (hdown.trans hzero)
    rw [if_neg (show ev.key ≠ k.filter.keyUp from hdown), if_pos (show ev.key = k.filter.keyDown from hup), if_pos hup]
  · rw [if_neg (show ev.key ≠ k.filter.keyDown from hup), if_neg hup]
    rfl

theorem keys_differ (hkeys : k.Distinct) (hev : ev.key ≠ 0) :
    k.filter.rules.Pairwise fun r later => ev.key = r.key → ev.key ≠ later.key := by
  have hmap : (k.filter.rules.map Rule.key).Pairwise fun a b => a = b → a = 0 := hkeys
  rw [List.pairwise_map] at hmap
  exact hmap.imp fun h hr hlater => hev (hr.trans (h (hr.symm.trans hlater)))

end BtnKeys

/-! ## The filter that is created -/

section
variable {P : Platform} {cfg : CString} {params : List EvfParam} {args : List (Loaded P)} {i : Nat} {param : EvfParam}
  {data : Btn2rel} {ev : InputEvent} {β : Type}

theorem intArg_givenKey (h : evfLoadParams P cfg params = .ok args) (hi : params[i]? = some param)
    (htype : param.type = .key) : intArg args i = givenKey P params cfg i := by
  obtain ⟨str, val, hstr, hval, hget⟩ := evfLoadParams_get h hi
  obtain rfl := Tables.loadValue_key htype hval
  simp [intArg, hget, givenKey, hstr]

theorem evfBtn2relCreat_eq (h : evfBtn2relCreat P cfg = .ok data) : data = (BtnKeys.given P cfg).filter := by
  obtain ⟨args, hload, hdata⟩ := bind_eq_ok.mp h
  obtain rfl := Except.ok.inj hdata
  simp only [BtnKeys.filter, BtnKeys.given]
  congr 1 <;> exact intArg_givenKey hload rfl rfl

theorem toList_eq_iff {α : Type} {o o' : Option α} : o.toList = o'.toList ↔ o = o' := by
  cases o <;> cases o' <;> simp

theorem key_ne_zero (h : ev.code ≠ 0) : ev.key ≠ 0 := by
  intro hkey
  have hword : ev.code.toUInt32 = (0 : UInt16).toUInt32 := congrArg Int32.toUInt32 hkey
  exact h (UInt16.toUInt32_inj.mp hword)

/-- Btn2Rel translates a key event as is meant just if the code that it puts in is apart from the keys that are compared
after it. -/
theorem btn2rel_translates_iff (next : InputEvent → β → InputEvent × β) (b : β) (evs : List InputEvent)
    (hcreat : evfBtn2relCreat P cfg = .ok data) (hkeys : (BtnKeys.given P cfg).Distinct) (htype : ev.type = evKey)
    (hcode : ev.code ≠ 0) :
    ((driven Btn2rel.modify next).step ((driven Btn2rel.modify next).state (data, b) evs) ev).2 =
        (BtnKeys.given P cfg).meant ev ↔
      (BtnKeys.given P cfg).Apart ev := by
  obtain rfl := evfBtn2relCreat_eq hcreat
  have hev := key_ne_zero hcode
  obtain ⟨flag, hstate⟩ := Btn2rel.state_eq (BtnKeys.given P cfg).filter evs
  rw [driven_answer Btn2rel.sendsLast, hstate, Btn2rel.step_sent (by rw [htype]; decide), ← BtnKeys.meant_eq hkeys hev,
    ← BtnKeys.settled_iff_apart, ← Rule.chain_eq_first_iff Btn2rel.results_differ (BtnKeys.keys_differ hkeys hev),
    ← Btn2rel.translate_eq]
  simp only [Btn2rel.sent, if_pos htype]
  exact toList_eq_iff

end

/-- A platform on which KEY_A has its code. -/
def letterPlatform : Platform := { middlePlatform with keyValues := fun j => if j = 78 then 30 else 0 }

theorem given_keyup : BtnKeys.given letterPlatform (CString.literal "keyup=Key_A") = ⟨30, 0, 0, 0, 0, 0, 0⟩ := by
  decide +kernel

/-- With `keyup = Key_A`, in a state that drops a SYN_REPORT. -/
theorem btn2rel_keyup : ((driven Btn2rel.modify (Proc.record id)).step
      ((driven Btn2rel.modify (Proc.record id)).state (evfBtn2relAlloc 30 0 0 0 0 0 0, []) [⟨(0, 0), evKey, 30, 0⟩])
      ⟨(0, 1), evKey, 30, 1⟩).2 =
    (BtnKeys.given letterPlatform (CString.literal "keyup=Key_A")).meant ⟨(0, 1), evKey, 30, 1⟩ :=
  (btn2rel_translates_iff (Proc.record id) [] [⟨(0, 0), evKey, 30, 0⟩]
    (show evfBtn2relCreat letterPlatform (CString.literal "keyup=Key_A") = .ok _ by decide +kernel)
    (by rw [given_keyup]; decide) rfl (by decide)).mpr (by
      rw [given_keyup]
      exact ⟨by decide, by decide, by decide, by decide, by decide, by decide⟩)

/-- With `keyleft = Key_A` the movement to the left is taken for the key to the right, and for the left button. -/
theorem btn2rel_keyleft :
    let k := BtnKeys.given letterPlatform (CString.literal "keyleft=Key_A")
    let sent := ((driven Btn2rel.modify (Proc.record id)).step (k.filter, []) ⟨(0, 0), evKey, 30, 1⟩).2
    evfBtn2relCreat letterPlatform (CString.literal "keyleft=Key_A") = .ok k.filter ∧ k.Distinct ∧
      k.meant ⟨(0, 0), evKey, 30, 1⟩ = [⟨(0, 0), evRel, relX, -2⟩] ∧ sent = [⟨(0, 0), evRel, btnLeft, 2⟩] ∧
      sent ≠ k.meant ⟨(0, 0), evKey, 30, 1⟩ := by
  refine ⟨?_, ?_, ?_, ?_, ?_⟩ <;> decide +kernel

end Evfilter.Filters
