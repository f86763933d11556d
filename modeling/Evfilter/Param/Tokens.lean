import Evfilter.Param.Parse

/-!
# What the first loop means

The string is cut into pairs of a name and a value, and the pairs are stored one after the other. `parsedValues_eq`
is that the loop on pointers does just this.
-/

namespace Evfilter.Param
open Lib

/-- The name at the start of the string, and what is left after the separator. -/
def splitName (cfg : CString) : CString × CString :=
  let cfg := cfg.dropWhile isspace
  (cfg.takeWhile fun c => !endsName c,
    (((cfg.dropWhile fun c => !endsName c).drop 1).dropWhile isspace).accept equals)

/-- A word that ends before the first byte passing the test, and what is left after that byte. -/
def splitWord (stop : UInt8 → Bool) (cfg : CString) : CString × CString :=
  (cfg.takeWhile fun c => !stop c, (cfg.dropWhile fun c => !stop c).drop 1)

def splitValue (cfg : CString) : CString × CString :=
  let cfg := cfg.dropWhile isspace
  match cfg.bytes.head?.filter fun c => c == doubleQuote || c == singleQuote with
  | some enc => splitWord (fun c => c == enc) (cfg.drop 1)
  | none => splitWord isspace cfg

/-- Moving on from `str` to `t`, the loop on pointers cuts out at `p` the first of the parts and leaves the second. -/
structure Split (str : Cursor) (p : Nat) (t : Cursor) (parts : CString × CString) : Prop where
  settled : Cursor.Settled t p parts.1
  left : t.rest = parts.2.bytes
  leads : Cursor.Leads str t

theorem split_cut {str : Cursor} {cfg : CString} (stop : UInt8 → Bool) (h : str.rest = cfg.bytes) :
    Split str str.pos (str.cut stop) (splitWord stop cfg) where
  settled := Cursor.settled_cut (by rw [h]; rfl)
  left := by
    rw [Cursor.cut_rest, h, ← List.drop_one]
    rfl
  leads := Cursor.leads_cut

theorem evfilterGetName_split (str : Cursor) {cfg : CString} (h : str.rest = cfg.bytes) :
    Split str (evfilterGetName str).1 (evfilterGetName str).2 (splitName cfg) := by
  have hskip : (evfEatSpaces str).rest = (cfg.dropWhile isspace).bytes := by
    rw [evfEatSpaces, Cursor.skip_rest, h]
    rfl
  obtain ⟨hs, hl, hm⟩ := split_cut endsName hskip
  have hon : Cursor.Leads ((evfEatSpaces str).cut endsName) (evfilterGetName str).2 :=
    Cursor.leads_skip.trans Cursor.leads_accept
  refine ⟨hs.leads hon, ?_, (Cursor.leads_skip.trans hm).trans hon⟩
  have hrest : (evfEatSpaces ((evfEatSpaces str).cut endsName)).rest =
      ((splitWord endsName (cfg.dropWhile isspace)).2.dropWhile isspace).bytes := by
    rw [evfEatSpaces, Cursor.skip_rest, hl]
    rfl
  change (Cursor.accept equals (evfEatSpaces ((evfEatSpaces str).cut endsName))).rest = _
  rw [Cursor.accept_rest, hrest]
  exact (CString.bytes_accept _ _).symm

theorem evfilterGetValue_split {str : Cursor} {cfg : CString} (h : str.rest = cfg.bytes) :
    Split str (evfilterGetValue str).1 (evfilterGetValue str).2 (splitValue cfg) := by
  have hskip : (evfEatSpaces str).rest = (cfg.dropWhile isspace).bytes := by
    rw [evfEatSpaces, Cursor.skip_rest, h]
    rfl
  have hon : Cursor.Leads str (evfEatSpaces str) := Cursor.leads_skip
  simp only [evfilterGetValue, enclosing, splitValue, hskip]
  cases henc : (cfg.dropWhile isspace).bytes.head?.filter fun c => c == doubleQuote || c == singleQuote with
  | none =>
      obtain ⟨hs, hl, hm⟩ := split_cut isspace hskip
      exact ⟨hs, hl, hon.trans hm⟩
  | some enc =>
      have hhead : (cfg.dropWhile isspace).bytes.head? = some enc := (Option.filter_eq_some_iff.mp henc).1
      have haccept : ((evfEatSpaces str).accept enc).rest = ((cfg.dropWhile isspace).drop 1).bytes := by
        rw [Cursor.accept_rest, hskip, if_pos hhead, ← List.drop_one]
        rfl
      obtain ⟨hs, hl, hm⟩ := split_cut (fun c => c == enc) haccept
      exact ⟨hs, hl, (hon.trans Cursor.leads_accept).trans hm⟩

/-- What is left after the name and the value is shorter. -/
theorem strlen_split {cfg : CString} (h : cfg.bytes ≠ []) :
    (splitValue (splitName cfg).2).2.strlen < cfg.strlen := by
  let str : Cursor := ⟨[], cfg.bytes⟩
  have hname := evfilterGetName_split str rfl
  have hvalue := evfilterGetValue_split hname.left
  have hshort := length_evfilterGetName str h
  have hle := length_evfilterGetValue (evfilterGetName str).2
  rw [hvalue.left] at hle
  exact hle.trans_lt hshort

/-- All pairs of a name and a value, in order. -/
def tokens (cfg : CString) : List (CString × CString) :=
  if _h : cfg.bytes = [] then []
  else ((splitName cfg).1, (splitValue (splitName cfg).2).1) :: tokens (splitValue (splitName cfg).2).2
termination_by cfg.strlen
decreasing_by exact strlen_split _h

def store (params : List EvfParam) : List (CString × CString) → List (Option CString) →
    Except EvfErr (List (Option CString))
  | [], values => .ok values
  | (name, value) :: pairs, values =>
    match evfilterFindPossition name params with
    | none => .error (.epname name)
    | some i =>
      if (values.getD i none).isSome then .error (.eredef name)
      else store params pairs (values.set i (some value))

/-! ## The loop -/

/-- The pointers point to these strings, and will go on to do so. -/
def Points (cfg : Cursor) : List (Option Nat) → List (Option CString) → Prop :=
  List.Forall₂ (Option.Rel cfg.Settled)

variable {params : List EvfParam} {str t : Cursor} {values : List (Option Nat)} {strings : List (Option CString)}

theorem Points.leads (h : Points str values strings) (hl : Cursor.Leads str t) : Points t values strings := by
  refine List.Forall₂.imp (fun p v hp => ?_) h
  cases hp with
  | none => exact Option.Rel.none
  | some hp => exact Option.Rel.some (hp.leads hl)

theorem Points.isSome (h : Points str values strings) (i : Nat) :
    (values.getD i none).isSome = (strings.getD i none).isSome := by
  induction h generalizing i with
  | nil => rfl
  | cons hp _ ih =>
      cases i with
      | zero => cases hp <;> rfl
      | succ i => exact ih i

theorem Points.set {p : Nat} {v : CString} (h : Points str values strings) (hp : str.Settled p v) (i : Nat) :
    Points str (values.set i (some p)) (strings.set i (some v)) := by
  induction h generalizing i with
  | nil => exact List.Forall₂.nil
  | cons hq h ih =>
      cases i with
      | zero => exact List.Forall₂.cons (Option.Rel.some hp) h
      | succ i => exact List.Forall₂.cons hq (ih i)

theorem Points.read (h : Points str values strings) : values.map (Option.map str.string) = strings := by
  induction h with
  | nil => rfl
  | cons hp _ ih =>
      rw [List.map_cons, ih]
      cases hp with
      | none => rfl
      | some hp => rw [Option.map_some, hp.string]

theorem tokens_nil {cfg : CString} (h : cfg.bytes = []) : tokens cfg = [] := by
  rw [tokens, dif_pos h]

theorem tokens_cons {cfg : CString} (h : cfg.bytes ≠ []) :
    tokens cfg =
      ((splitName cfg).1, (splitValue (splitName cfg).2).1) :: tokens (splitValue (splitName cfg).2).2 := by
  rw [tokens, dif_neg h]

theorem firstLoop_eq (str : Cursor) (values : List (Option Nat)) {cfg : CString} (hcfg : str.rest = cfg.bytes)
    (h : Points str values strings) :
    (firstLoop params str values).map (fun (cfg, values) => values.map (Option.map cfg.string)) =
      store params (tokens cfg) strings := by
  fun_induction firstLoop params str values generalizing cfg strings with
  | case1 str values hend =>
      rw [tokens_nil (hcfg.symm.trans hend)]
      exact congrArg Except.ok h.read
  | case2 str values hend name =>
      rename_i hnone
      have hname := evfilterGetName_split _ hcfg
      rw [tokens_cons (hcfg ▸ hend), store, ← hname.settled.string, hnone]
      rfl
  | case3 str values hend name i hsome =>
      rename_i hset
      have hname := evfilterGetName_split _ hcfg
      rw [tokens_cons (hcfg ▸ hend), store, ← hname.settled.string, hsome]
      simp only [← h.isSome, hset, ↓reduceIte]
      rfl
  | case4 str values hend name i hsome hset =>
      rename_i value ih
      have hname := evfilterGetName_split _ hcfg
      have hvalue := evfilterGetValue_split hname.left
      rw [tokens_cons (hcfg ▸ hend), store, ← hname.settled.string, hsome]
      simp only [← h.isSome, hset]
      exact ih hvalue.left ((h.leads (hname.leads.trans hvalue.leads)).set hvalue.settled i)

theorem parsedValues_eq (params : List EvfParam) (cfg : CString) :
    parsedValues params cfg = store params (tokens cfg) (params.map fun _ => none) := by
  rw [← firstLoop_eq (Cursor.start cfg.bytes) (params.map fun _ => none) rfl]
  · unfold parsedValues
    cases firstLoop params (Cursor.start cfg.bytes) (params.map fun _ => none) with
    | error e => rfl
    | ok r => rfl
  · induction params with
    | nil => exact List.Forall₂.nil
    | cons p params ih => exact List.Forall₂.cons Option.Rel.none ih

end Evfilter.Param
