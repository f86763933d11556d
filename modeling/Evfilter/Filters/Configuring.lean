import Evfilter.Filters.Line
import Evfilter.Filters.Tables
import Evfilter.Loader.Documents
import Evfilter.Loader.Params
import Evfilter.Param.Int
import Mathlib.Algebra.Order.BigOperators.Group.List

/-!
# Lines and their configuration files

Which lines of filters can be configured: for which there is a file that `evf_load_filters` reads as the calls of just
their alloc functions, with their parameters.
-/

namespace Evfilter.Filters
open Lib Param Loader KeyParser Tables

variable {P : Platform} {σ : Type}

variable (P) in
/-- A call of an alloc function: the filter it belongs to, and the arguments in order. -/
structure AllocCall where
  filter : Nat
  args : List (Option (Loaded P))

/-- A creat function with its table. Allocation succeeds. -/
def calling (i : Nat) (arguments : List Nat) (params : List EvfParam) (named : ∀ p ∈ params, p.name.bytes ≠ []) :
    Creat P (AllocCall P) σ :=
  { params, named, alloc := fun args s => (.ok ⟨i, arguments.map fun a => args[a]?⟩, s) }

/-- `evf_creat`. What comes of Barrier, whose table has no end, is left open. -/
def creatFunctions (barrier : Creat P (List (Option (Loaded P))) σ) (i : Nat) : Creat P (AllocCall P) σ :=
  match (evfCreat[i]?).bind fun creat => (declared creat.params).map fun params => (creat.arguments, params) with
  | some (arguments, params) =>
    if named : ∀ p ∈ params, p.name.bytes ≠ [] then calling i arguments params named else unended
  | none => unended
where
  unended : Creat P (AllocCall P) σ :=
    { barrier with
      alloc := fun args s => ((barrier.alloc args s).1.map fun args => ⟨i, args⟩, (barrier.alloc args s).2) }

/-- The place of the creat function in `evf_creat`. -/
def Params.place : Params → Nat
  | noRepeat => 1
  | pressureToKey .. => 2
  | speedMod .. => 3
  | barrier .. => 4
  | mirror .. => 7
  | rotate .. => 8
  | abs2rel .. => 9
  | btn2rel .. => 10
  | rel2scroll .. => 12
  | keyLock .. => 15
  | keySubstitute .. => 17

/-- The arguments of the alloc function. -/
def Params.arguments : Params → List (Loaded P)
  | noRepeat => []
  | pressureToKey treshold key => [.int treshold, .int key]
  | speedMod xmod ymod => [.int xmod, .int ymod]
  | barrier history => [.int history.toInt32]
  | mirror relX relY absX absY => [.bool relX, .bool relY, .bool absX, .bool absY]
  | rotate absCoords relCoords => [.bool absCoords, .bool relCoords]
  | abs2rel .. => []
  | btn2rel down up left right lbtn mbtn rbtn =>
    -- The first two are configured as keyup and keydown.
    [.int down, .int up, .int left, .int right, .int lbtn, .int mbtn, .int rbtn]
  | rel2scroll triggerBtn xmod ymod => [.int triggerBtn, .int xmod, .int ymod]
  | keyLock key => [.int key]
  | keySubstitute keyFrom keyTo => [.int keyFrom, .int keyTo]

/-- The table of the filter. Barrier's has no end. -/
def Params.table : Params → List EvfParam
  | noRepeat => []
  | pressureToKey .. => pressureToKeyParams
  | speedMod .. => relspeedParams
  | barrier .. => []
  | mirror .. => mirrorParams
  | rotate .. => rotateParams
  | abs2rel .. => []
  | btn2rel .. => btn2relParams
  | rel2scroll .. => rel2scrollParams
  | keyLock .. => keyLockParams
  | keySubstitute .. => keySubstituteParams

def Params.call (p : Params) : AllocCall P := ⟨p.place, p.arguments.map some⟩

def Params.keys : Params → List Int32
  | pressureToKey _ key => [key]
  | btn2rel down up left right lbtn mbtn rbtn => [down, up, left, right, lbtn, mbtn, rbtn]
  | rel2scroll triggerBtn _ _ => [triggerBtn]
  | keyLock key => [key]
  | keySubstitute keyFrom keyTo => [keyFrom, keyTo]
  | _ => []

variable (P) in
/-- The key has an entry in the table of names, and one that the search finds. -/
def Nameable (key : Int32) : Prop := ∃ j < keyCount, j ∉ lost ∧ P.keyValues j = key ∧ key ≠ -1

/-! ## Values and how they are written -/

variable (P) in
/-- A parameter with its value, and a text for it. -/
structure Setting where
  param : EvfParam
  val : Loaded P
  text : CString
  name_word : Word param.name
  name_start : param.name.bytes.head? ≠ some hash
  bare : Writable text none
  short : param.name.strlen + text.strlen ≤ 500
  loads : loadValue P param text = .ok val

theorem spaces_tab : Spaces [9] := by decide

theorem spaces_newline : Spaces [newline] := by decide

theorem head_newline : ∀ c ∈ [newline].head?, c = newline := fun _ hc => (Option.mem_some.mp hc).symm

namespace Setting

def assignment (st : Setting P) : Assignment :=
  { name := st.param.name, value := st.text, before := [space], sign := true, after := [space], quote := none,
    name_word := st.name_word, before_spaces := by decide, after_spaces := by decide, separated := .inl rfl,
    value_writable := st.bare }

theorem mem_text {st : Setting P} {c : UInt8} (h : c ∈ st.assignment.text) :
    c ∈ st.param.name.bytes ∨ c ∈ [space, equals, space] ∨ c ∈ st.text.bytes := by
  obtain hname | hrest := List.mem_append.mp h
  · exact .inl hname
  · exact .inr (List.mem_append.mp hrest)

def line (st : Setting P) : CString :=
  ⟨st.assignment.text, fun h0 => by
    rcases mem_text h0 with h | h | h
    · exact st.param.name.nulFree h
    · exact absurd h (by decide)
    · exact st.text.nulFree h⟩

theorem newline_notMem (st : Setting P) : newline ∉ st.line.bytes := fun h => by
  rcases mem_text h with h | h | h
  · exact absurd (st.name_word.2 _ h) (by decide)
  · exact absurd h (by decide)
  · exact absurd (st.bare.1.2 _ h) (by decide)

theorem strlen_line (st : Setting P) : st.line.strlen = st.param.name.strlen + st.text.strlen + 3 := by
  change (st.param.name.bytes ++ ([space, equals, space] ++ st.text.bytes)).length = _
  simp only [List.length_append, List.length_cons, List.length_nil, CString.strlen]
  omega

def paramLine (st : Setting P) : ParamLine :=
  { line := st.line, rendering := [([], st.assignment)], trail := [],
    line_eq := by simp [Rendering.text, line], trail_spaces := no_spaces,
    spaced := ⟨List.forall_mem_singleton.mpr no_spaces, List.forall_mem_nil _⟩,
    starts := ⟨st.assignment, [], rfl, st.name_start⟩ }

def blockLine (st : Setting P) : BlockLine :=
  { lead := [9], content := .params st.paramLine, lead_spaces := spaces_tab,
    one_line := fun h => st.newline_notMem ((List.mem_cons.mp h).resolve_left (by decide)) }

end Setting

/-- The name can stand in a block. -/
def Plain (name : CString) : Prop := newline ∉ name.bytes ∧ name.Fresh ∧ name.strlen ≤ 255

instance (name : CString) : Decidable (Plain name) :=
  inferInstanceAs (Decidable (newline ∉ name.bytes ∧ name.Fresh ∧ name.strlen ≤ 255))

/-- A block with a line for each parameter. -/
def written (name : CString) (hname : Plain name) (sts : List (Setting P)) : Block :=
  { name, lines := sts.map Setting.blockLine, tail := [newline], name_line := hname.1, name_fresh := hname.2.1,
    tail_spaces := spaces_newline, tail_newline := head_newline }

section Written

variable {name : CString} {hname : Plain name} {sts : List (Setting P)}

theorem paramLines_written : (written name hname sts).paramLines = sts.map Setting.paramLine := by
  rw [Block.paramLines, written, List.filterMap_map]
  exact congrFun List.filterMap_eq_map' _

theorem comments_written : (written name hname sts).comments = [] := by
  rw [Block.comments, written, List.filterMap_map]
  exact List.filterMap_eq_nil_iff.mpr fun st _ => rfl

theorem pairs_written : (written name hname sts).pairs = sts.map fun st => (st.param.name, st.text) := by
  rw [Block.pairs, paramLines_written, List.flatMap_map]
  exact List.flatMap_pure_eq_map _ _

theorem endsBare_written : (written name hname sts).EndsBare := by
  rw [Block.EndsBare, paramLines_written]
  intro p hp
  obtain ⟨st, -, rfl⟩ := List.mem_map.mp (List.mem_of_getLast? hp)
  refine ⟨rfl, fun w hw => ?_⟩
  obtain rfl : ([], st.assignment) = w := Option.some.inj hw
  rfl

theorem lines_written : (written name hname sts).paramLines.map ParamLine.line = sts.map Setting.line := by
  rw [paramLines_written, List.map_map]
  rfl

theorem needed_written (h : sts.length ≤ 8) : needed (sts.map Setting.line) ≤ 4094 := by
  have hline : ∀ st ∈ sts, st.line.strlen + 1 ≤ 504 := fun st _ => by
    have hshort := st.short
    rw [st.strlen_line]
    omega
  have hsum : (sts.map fun st => st.line.strlen + 1).sum ≤ (sts.map fun st => st.line.strlen + 1).length * 504 :=
    List.sum_le_card_nsmul _ _ (List.forall_mem_map.mpr hline)
  rw [List.length_map] at hsum
  rw [needed, List.map_map]
  exact hsum.trans (by omega)

theorem short_written : (written name hname sts).Short := by
  refine ⟨(Nat.add_le_add_left hname.2.2 13).trans_lt (by decide), fun e he => ?_⟩
  obtain ⟨p, hp, rfl⟩ | ⟨hc, -⟩ := Block.mem_entries he
  · rw [paramLines_written] at hp
    obtain ⟨st, -, rfl⟩ := List.mem_map.mp hp
    have hshort := st.short
    have hlen : st.paramLine.line.strlen = st.param.name.strlen + st.text.strlen + 3 := st.strlen_line
    have hbuf : bufLen = 4096 := rfl
    omega
  · rw [comments_written] at hc
    exact absurd hc List.not_mem_nil

/-- What is collected of the block reads as the parameters. -/
theorem tokens_written (h : sts.length ≤ 8) :
    tokens (written name hname sts).source.2 = sts.map fun st => (st.param.name, st.text) := by
  have hroom : needed ((written name hname sts).paramLines.map ParamLine.line) ≤ 4094 := by
    rw [lines_written]
    exact needed_written h
  have hbytes := collected_iff.mpr hroom
  rw [List.flatMap_map] at hbytes
  obtain ⟨-, htokens⟩ | ⟨hnot, -⟩ := Block.tokens_collected (b := written name hname sts) hbytes
  · exact htokens.trans pairs_written
  · exact absurd endsBare_written hnot

theorem valueIn_settings (hd : Distinct (sts.map Setting.param)) :
    ∀ st ∈ sts, valueIn (sts.map fun st => (st.param.name, st.text)) st.param = some st.text := by
  induction sts with
  | nil => exact List.forall_mem_nil _
  | cons first sts ih =>
      obtain ⟨hfirst, hd⟩ := List.pairwise_cons.mp hd
      refine List.forall_mem_cons.mpr ⟨?_, fun st hst => ?_⟩
      · rw [List.map_cons, valueIn_cons, if_pos rfl]
      · rw [List.map_cons, valueIn_cons, if_neg (hfirst _ (List.mem_map_of_mem hst))]
        exact ih hd st hst

theorem secondLoop_settings {g : EvfParam → Option CString} (h : ∀ st ∈ sts, g st.param = some st.text) :
    secondLoop P (sts.map Setting.param) ((sts.map Setting.param).map g) = .ok (sts.map Setting.val) := by
  induction sts with
  | nil => rfl
  | cons st sts ih =>
      obtain ⟨hst, hrest⟩ := List.forall_mem_cons.mp h
      rw [List.map_cons, List.map_cons, secondLoop, List.head?_cons, List.tail_cons, Option.join_some, hst,
        Option.some_or, ih hrest]
      dsimp only
      rw [st.loads]
      rfl

theorem evfLoadParams_settings {cfg : CString} (hd : Distinct (sts.map Setting.param))
    (h : tokens cfg = sts.map fun st => (st.param.name, st.text)) :
    evfLoadParams P cfg (sts.map Setting.param) = .ok (sts.map Setting.val) := by
  have hdecl : ∀ pair ∈ tokens cfg, Declared (sts.map Setting.param) pair.1 := by
    rw [h]
    exact List.forall_mem_map.mpr fun st hst => ⟨st.param, List.mem_map_of_mem hst, rfl⟩
  have honce : (tokens cfg).Pairwise fun x y => x.1.fold ≠ y.1.fold := by
    have hparams := List.pairwise_map.mp (show (sts.map Setting.param).Pairwise _ from hd)
    rw [h, List.pairwise_map]
    exact hparams
  rw [evfLoadParams, parsedValues_eq, store_declared hd hdecl honce fun _ _ _ _ _ => rfl]
  simp only [Option.or_none]
  refine secondLoop_settings fun st hst => ?_
  rw [h]
  exact valueIn_settings hd st hst

end Written

/-! ## The tables -/

/-- Barrier is left out: no parameters are declared by a table without an end. -/
theorem tables_regular : ∀ c ∈ evfCreat.zipIdx, ∀ params ∈ declared c.1.params, Distinct params ∧ params.length ≤ 8 ∧
    c.1.arguments = List.range params.length ∧
      ∀ q ∈ params, Word q.name ∧ q.name.bytes.head? ≠ some hash ∧ q.name.strlen ≤ 16 := by
  decide +kernel

theorem names_regular : ∀ n ∈ evfFilters.zipIdx, Plain n.1 ∧ getfilter n.1 = some n.2 := by decide +kernel

variable {barrier : Creat P (List (Option (Loaded P))) σ} {i : Nat} {creat : CreatFunction} {params : List EvfParam}
  {name cfg : CString} {s s' : σ} {sts : List (Setting P)} {call : AllocCall P}

theorem creatFunctions_eq (barrier : Creat P (List (Option (Loaded P))) σ) (hcreat : evfCreat[i]? = some creat)
    (hparams : declared creat.params = some params) :
    ∃ named, creatFunctions barrier i = calling i (List.range params.length) params named := by
  obtain ⟨-, -, hargs, hnames⟩ := tables_regular (creat, i) (List.mem_zipIdx_iff_getElem?.mpr hcreat) params hparams
  have hnamed : ∀ p ∈ params, p.name.bytes ≠ [] := fun p hp => (hnames p hp).1.1
  refine ⟨hnamed, ?_⟩
  rw [creatFunctions, hcreat, Option.bind_some, hparams, Option.map_some]
  dsimp only
  rw [dif_pos hnamed, hargs]

theorem create_ok {φ : Type} {creat : Creat P φ σ} {f : φ} (h : creat.create cfg s = (.ok f, s')) :
    ∃ args, evfLoadParams P cfg creat.params = .ok args ∧ creat.alloc args s = (.ok f, s') := by
  rw [Creat.create] at h
  cases hload : evfLoadParams P cfg creat.params with
  | error err =>
      rw [hload] at h
      cases h
  | ok args =>
      rw [hload] at h
      dsimp only at h
      refine ⟨args, rfl, ?_⟩
      cases halloc : creat.alloc args s with
      | mk r t =>
          rw [halloc] at h
          cases r with
          | error errno => cases h
          | ok evf =>
              cases h
              rfl

/-- Any creat function calls the alloc function of its own filter. -/
theorem filter_of_create (h : (creatFunctions barrier i).create cfg s = (.ok call, s')) : call.filter = i := by
  have hunended : (creatFunctions.unended barrier i).create cfg s = (.ok call, s') → call.filter = i := fun h => by
    obtain ⟨args, -, halloc⟩ := create_ok h
    obtain ⟨hok, -⟩ := Prod.mk.inj halloc
    cases hargs : (barrier.alloc args s).1 with
    | error errno =>
        rw [hargs] at hok
        cases hok
    | ok args' =>
        rw [hargs] at hok
        cases hok
        rfl
  unfold creatFunctions at h
  split at h
  · split at h
    · obtain ⟨args, -, halloc⟩ := create_ok h
      cases halloc
      rfl
    · exact hunended h
  · exact hunended h

theorem map_range_get {α : Type} (l : List α) : (List.range l.length).map (fun i => l[i]?) = l.map some := by
  refine List.ext_getElem (by simp) fun j h₁ h₂ => ?_
  rw [List.getElem_map, List.getElem_map, List.getElem_range]
  exact List.getElem?_eq_getElem _

/-- A filter is loaded from its block with the values of the parameters. -/
theorem load_written (hcreat : evfCreat[i]? = some creat)
    (hparams : declared creat.params = some (sts.map Setting.param)) (hi : evfFilters[i]? = some name)
    (hname : Plain name) (s : σ) :
    Loader.evfFilterLoad (creatFunctions barrier) (written name hname sts).source.1
        (written name hname sts).source.2 s =
      (.ok ⟨i, (sts.map Setting.val).map some⟩, s) := by
  obtain ⟨hd, hlen, -, -⟩ := tables_regular (creat, i) (List.mem_zipIdx_iff_getElem?.mpr hcreat) _ hparams
  obtain ⟨named, heq⟩ := creatFunctions_eq barrier hcreat hparams
  have hget : getfilter name = some i := (names_regular (name, i) (List.mem_zipIdx_iff_getElem?.mpr hi)).2
  have hload : evfLoadParams P (written name hname sts).source.2 (sts.map Setting.param) = .ok (sts.map Setting.val) :=
    evfLoadParams_settings hd (tokens_written (by rwa [List.length_map] at hlen))
  have htrunc : (written name hname sts).source.1 = name := CString.trunc_of_le hname.2.2
  rw [Loader.evfFilterLoad, htrunc, hget]
  dsimp only
  rw [heq, Creat.create, calling]
  dsimp only
  rw [hload]
  dsimp only
  rw [← map_range_get, List.length_map, List.length_map]

/-! ## The lines of filters -/

/-- A value of one of these kinds has a text for the parameter. -/
inductive Writes : EvfParam → Loaded P → Prop
  | int {param : EvfParam} (n : Int32) : param.type = .int → param.lim = none → Writes param (.int n)
  | bool {param : EvfParam} (b : Bool) : param.type = .bool → Writes param (.bool b)
  | key {param : EvfParam} (key : Int32) : param.type = .key → Nameable P key → Writes param (.int key)

/-- A decimal number has no bytes that mean something to the parser. -/
theorem plain_decimal {n : Int} {c : UInt8} (h : c ∈ (Numeral.decimal n).text) :
    isspace c = false ∧ c ≠ 0 ∧ c ≠ equals ∧ c ≠ doubleQuote ∧ c ≠ singleQuote := by
  rcases Numeral.mem_text_decimal h with rfl | ⟨hlow, hhigh⟩
  · decide
  · have hall : ∀ m < 58, 48 ≤ m → isspace (UInt8.ofNat m) = false ∧ UInt8.ofNat m ≠ 0 ∧ UInt8.ofNat m ≠ equals ∧
        UInt8.ofNat m ≠ doubleQuote ∧ UInt8.ofNat m ≠ singleQuote := by decide
    have hc := hall c.toNat (by omega) hlow
    rwa [UInt8.ofNat_toNat] at hc

theorem exists_int_text (n : Int32) {param : EvfParam} (hlim : param.lim = none) :
    ∃ text : CString, Writable text none ∧ text.strlen ≤ 40 ∧ evfilterLoadInt text param = .ok n := by
  have hlower : -2147483648 ≤ n.toInt := n.le_toInt
  have hupper : n.toInt < 2147483648 := n.toInt_lt
  let text : CString := ⟨(Numeral.decimal n.toInt).text, fun h0 => (plain_decimal h0).2.1 rfl⟩
  have hdenotes : Denotes text n.toInt := ⟨Numeral.decimal n.toInt, rfl, Numeral.value_decimal _⟩
  have hrange : InRange param.lim n.toInt := by
    rw [hlim]
    refine ⟨?_, fun l hl => nomatch hl⟩
    simp only [intMin, Param.intMax]
    omega
  refine ⟨text, ⟨⟨Numeral.text_ne_nil _, fun c hc => (plain_decimal hc).1⟩,
    fun c hc => (plain_decimal (List.mem_of_head? hc)).2.2⟩, ?_, ?_⟩
  · have hlen : text.strlen ≤ 10 + 2 := Numeral.length_text_decimal (by omega)
    omega
  · rw [(loadInt_of_strtol param hdenotes.strtol.1 hdenotes.strtol.2).1 hrange, Int32.ofInt_toInt]

theorem literals_bare : ∀ n ∈ keyNameLiterals, Writable (CString.literal n) none ∧ (CString.literal n).strlen ≤ 40 := by
  decide +kernel

theorem keyName_bare {j : Nat} (hj : j < keyCount) : Writable (keyName j) none ∧ (keyName j).strlen ≤ 40 := by
  have hcount : keyNames.length = keyCount := by decide +kernel
  have hlen : j < keyNames.length := hcount ▸ hj
  rw [keyName, List.getD_eq_getElem?_getD, List.getElem?_eq_getElem hlen, Option.getD_some]
  obtain ⟨n, hn, heq⟩ := List.mem_map.mp (List.getElem_mem hlen)
  rw [← heq]
  exact literals_bare n hn

theorem exists_key_text {key : Int32} (h : Nameable P key) (param : EvfParam) :
    ∃ text : CString, Writable text none ∧ text.strlen ≤ 40 ∧ evfilterLoadKey P text param = .ok key := by
  obtain ⟨j, hj, hfound, rfl, hne⟩ := h
  obtain ⟨hbare, hlen⟩ := keyName_bare hj
  have hkey : keyparserGetkey P.keyValues (keyName j) = P.keyValues j := by
    rw [keyparserGetkey, search_entry hj rfl, if_neg hfound]
  refine ⟨keyName j, hbare, hlen, ?_⟩
  simp only [evfilterLoadKey, hkey, if_neg hne]

theorem exists_bool_text (b : Bool) (param : EvfParam) :
    ∃ text : CString, Writable text none ∧ text.strlen ≤ 40 ∧ evfilterLoadBool text param = .ok b := by
  cases b with
  | true => exact ⟨CString.literal "True", by decide, by decide, if_pos (by decide)⟩
  | false => exact ⟨CString.literal "False", by decide, by decide, (if_neg (by decide)).trans (if_pos (by decide))⟩

theorem Writes.exists_setting {param : EvfParam} {val : Loaded P} (h : Writes param val)
    (hname : Word param.name ∧ param.name.bytes.head? ≠ some hash ∧ param.name.strlen ≤ 16) :
    ∃ st : Setting P, st.param = param ∧ st.val = val := by
  obtain ⟨text, hbare, hlen, hloads⟩ : ∃ text : CString, Writable text none ∧ text.strlen ≤ 40 ∧
      loadValue P param text = .ok val := by
    cases h with
    | int n htype hlim =>
        obtain ⟨text, hbare, hlen, hload⟩ := exists_int_text n hlim
        exact ⟨text, hbare, hlen, by simp [loadValue, htype, hload, Except.map]⟩
    | bool b htype =>
        obtain ⟨text, hbare, hlen, hload⟩ := exists_bool_text b param
        exact ⟨text, hbare, hlen, by simp [loadValue, htype, hload, Except.map]⟩
    | key key htype hkey =>
        obtain ⟨text, hbare, hlen, hload⟩ := exists_key_text hkey param
        exact ⟨text, hbare, hlen, by simp [loadValue, htype, hload, Except.map]⟩
  exact ⟨⟨param, val, text, hname.1, hname.2.1, hbare, by omega, hloads⟩, rfl, rfl⟩

theorem exists_settings {vals : List (Loaded P)} (h : List.Forall₂ Writes params vals)
    (hnames : ∀ q ∈ params, Word q.name ∧ q.name.bytes.head? ≠ some hash ∧ q.name.strlen ≤ 16) :
    ∃ sts : List (Setting P), sts.map Setting.param = params ∧ sts.map Setting.val = vals := by
  induction h with
  | nil => exact ⟨[], rfl, rfl⟩
  | cons hwrites _ ih =>
      obtain ⟨hname, hrest⟩ := List.forall_mem_cons.mp hnames
      obtain ⟨st, rfl, rfl⟩ := hwrites.exists_setting hname
      obtain ⟨sts, rfl, rfl⟩ := ih hrest
      exact ⟨st :: sts, rfl, rfl⟩

theorem Params.table_eq {p : Params} (hp : ∀ history, p ≠ .barrier history) :
    ∃ creat name, evfCreat[p.place]? = some creat ∧ declared creat.params = some p.table ∧
      evfFilters[p.place]? = some name := by
  cases p with
  | barrier history => exact absurd rfl (hp history)
  | _ => exact ⟨_, _, rfl, declared_ended _, rfl⟩

theorem Params.writes {p : Params} (hp : ∀ history, p ≠ .barrier history) (hkeys : ∀ key ∈ p.keys, Nameable P key) :
    List.Forall₂ Writes p.table (p.arguments : List (Loaded P)) := by
  cases p with
  | barrier history => exact absurd rfl (hp history)
  | noRepeat => exact .nil
  | pressureToKey treshold key => exact .cons (.int _ rfl rfl) (.cons (.key _ rfl (hkeys _ (by simp [keys]))) .nil)
  | speedMod xmod ymod => exact .cons (.int _ rfl rfl) (.cons (.int _ rfl rfl) .nil)
  | mirror relX relY absX absY =>
      exact .cons (.bool _ rfl) (.cons (.bool _ rfl) (.cons (.bool _ rfl) (.cons (.bool _ rfl) .nil)))
  | rotate absCoords relCoords => exact .cons (.bool _ rfl) (.cons (.bool _ rfl) .nil)
  | abs2rel relx rely lastAbsx lastAbsy => exact .nil
  | btn2rel down up left right lbtn mbtn rbtn =>
      simp only [keys, List.forall_mem_cons] at hkeys
      obtain ⟨hdown, hup, hleft, hright, hlbtn, hmbtn, hrbtn, -⟩ := hkeys
      exact .cons (.key _ rfl hdown) (.cons (.key _ rfl hup) (.cons (.key _ rfl hleft) (.cons (.key _ rfl hright)
        (.cons (.key _ rfl hlbtn) (.cons (.key _ rfl hmbtn) (.cons (.key _ rfl hrbtn) .nil))))))
  | rel2scroll triggerBtn xmod ymod =>
      exact .cons (.key _ rfl (hkeys _ (by simp [keys]))) (.cons (.int _ rfl rfl) (.cons (.int _ rfl rfl) .nil))
  | keyLock key => exact .cons (.key _ rfl (hkeys _ (by simp [keys]))) .nil
  | keySubstitute keyFrom keyTo =>
      exact .cons (.key _ rfl (hkeys _ (by simp [keys]))) (.cons (.key _ rfl (hkeys _ (by simp [keys]))) .nil)

/-- The keys are the values of parameters of type key. -/
theorem Params.keys_placed {p : Params} {key : Int32} (h : key ∈ p.keys) :
    ∃ (j : Nat) (param : EvfParam), p.table[j]? = some param ∧ param.type = .key ∧
      (p.arguments : List (Loaded P))[j]? = some (.int key) := by
  cases p with
  | pressureToKey treshold k =>
      obtain rfl := List.mem_singleton.mp h
      exact ⟨1, _, rfl, rfl, rfl⟩
  | btn2rel down up left right lbtn mbtn rbtn =>
      simp only [keys, List.mem_cons, List.not_mem_nil, or_false] at h
      rcases h with rfl | rfl | rfl | rfl | rfl | rfl | rfl
      exacts [⟨0, _, rfl, rfl, rfl⟩, ⟨1, _, rfl, rfl, rfl⟩, ⟨2, _, rfl, rfl, rfl⟩, ⟨3, _, rfl, rfl, rfl⟩,
        ⟨4, _, rfl, rfl, rfl⟩, ⟨5, _, rfl, rfl, rfl⟩, ⟨6, _, rfl, rfl, rfl⟩]
  | rel2scroll triggerBtn xmod ymod =>
      obtain rfl := List.mem_singleton.mp h
      exact ⟨0, _, rfl, rfl, rfl⟩
  | keyLock k =>
      obtain rfl := List.mem_singleton.mp h
      exact ⟨0, _, rfl, rfl, rfl⟩
  | keySubstitute keyFrom keyTo =>
      simp only [keys, List.mem_cons, List.not_mem_nil, or_false] at h
      rcases h with rfl | rfl
      exacts [⟨0, _, rfl, rfl, rfl⟩, ⟨1, _, rfl, rfl, rfl⟩]
  | _ => exact absurd h List.not_mem_nil

/-! ## Which lines can be configured -/

theorem nameable_getkey {str : CString} (h : keyparserGetkey P.keyValues str ≠ -1) :
    Nameable P (keyparserGetkey P.keyValues str) := by
  unfold keyparserGetkey at h ⊢
  cases hsearch : search str with
  | none => simp [hsearch] at h
  | some j =>
      rw [hsearch] at h
      obtain ⟨hj, hfold⟩ := search_some hsearch
      refine ⟨j, hj, fun hlost => ?_, rfl, h⟩
      rw [search_entry hj hfold, if_pos hlost] at hsearch
      cases hsearch

theorem nameable_of_load {p : Params} (hp : ∀ history, p ≠ .barrier history)
    (h : Loader.evfFilterLoad (creatFunctions barrier) name cfg s = (.ok p.call, s')) :
    ∀ key ∈ p.keys, Nameable P key := by
  intro key hkey
  rw [Loader.evfFilterLoad] at h
  cases hi : getfilter name with
  | none =>
      rw [hi] at h
      cases h
  | some i =>
      rw [hi] at h
      dsimp only at h
      obtain rfl : p.place = i := filter_of_create h
      obtain ⟨creat, -, hcreat, hparams, -⟩ := Params.table_eq hp
      obtain ⟨named, heq⟩ := creatFunctions_eq barrier hcreat hparams
      rw [heq] at h
      obtain ⟨args, hload, halloc⟩ := create_ok h
      obtain ⟨hcall, -⟩ := Prod.mk.inj halloc
      have hargs : (List.range p.table.length).map (fun a => args[a]?) = p.arguments.map some :=
        congrArg AllocCall.args (Except.ok.inj hcall)
      obtain ⟨j, param, hparam, htype, hvalue⟩ := Params.keys_placed (P := P) hkey
      have harg : args[j]? = some (.int key) := by
        have hj : j < p.table.length := (List.getElem?_eq_some_iff.mp hparam).1
        have hget := congrArg (fun l => l[j]?) hargs
        simpa [hj, hvalue] using hget
      obtain ⟨str, val, -, hval, hget⟩ := evfLoadParams_get hload hparam
      obtain rfl := Option.some.inj (hget.symm.trans harg)
      simp only [loadValue, htype, evfilterLoadKey] at hval
      split at hval
      · cases hval
      · rename_i hne
        cases hval
        exact nameable_getkey hne

/-- The block of a filter. -/
theorem exists_block {p : Params} (hp : ∀ history, p ≠ .barrier history) (hkeys : ∀ key ∈ p.keys, Nameable P key)
    (barrier : Creat P (List (Option (Loaded P))) σ) :
    ∃ b : Block, b.Short ∧ b.tail ≠ [] ∧ ∀ s,
      Loader.evfFilterLoad (creatFunctions barrier) b.source.1 b.source.2 s = (.ok p.call, s) := by
  obtain ⟨creat, name, hcreat, hparams, hname⟩ := Params.table_eq hp
  obtain ⟨-, -, -, hnames⟩ := tables_regular (creat, _) (List.mem_zipIdx_iff_getElem?.mpr hcreat) _ hparams
  have hplain : Plain name := (names_regular (name, _) (List.mem_zipIdx_iff_getElem?.mpr hname)).1
  obtain ⟨sts, htable, hvals⟩ := exists_settings (Params.writes hp hkeys) hnames
  refine ⟨written name hplain sts, short_written, List.cons_ne_nil _ _, fun s => ?_⟩
  rw [load_written hcreat (htable.symm ▸ hparams) hname hplain s, hvals]
  rfl

/-- There is a file from which these filters are made. -/
def Configurable (barrier : Creat P (List (Option (Loaded P))) σ) (ps : List Params) (s : σ) : Prop :=
  ∃ text, evfLoadFilters (Loader.evfFilterLoad (creatFunctions barrier)) (.ok text) s =
    .done (.ok (ps.map Params.call), s)

theorem exists_blocks {ps : List Params} (hps : ∀ history, .barrier history ∉ ps)
    (hkeys : ∀ p ∈ ps, ∀ key ∈ p.keys, Nameable P key) (barrier : Creat P (List (Option (Loaded P))) σ) :
    ∃ bs : List Block, (∀ b ∈ bs, b.Short ∧ b.tail ≠ []) ∧
      List.Forall₂ (fun (b : Block) f => ∀ s,
        Loader.evfFilterLoad (creatFunctions barrier) b.source.1 b.source.2 s = (.ok f, s)) bs
        (ps.map Params.call) := by
  induction ps with
  | nil => exact ⟨[], List.forall_mem_nil _, .nil⟩
  | cons p ps ih =>
      obtain ⟨hp, hkeys⟩ := List.forall_mem_cons.mp hkeys
      obtain ⟨b, hshort, htail, hload⟩ :=
        exists_block (fun history h => hps history (h ▸ List.mem_cons_self)) hp barrier
      obtain ⟨bs, hbs, hloads⟩ := ih (fun history h => hps history (List.mem_cons_of_mem _ h)) hkeys
      exact ⟨b :: bs, List.forall_mem_cons.mpr ⟨⟨hshort, htail⟩, hbs⟩, .cons hload hloads⟩

/-- Numbers and flags can always be configured, keys if the search finds a name for them. -/
theorem configurable_iff (barrier : Creat P (List (Option (Loaded P))) σ) (ps : List Params)
    (hps : ∀ history, .barrier history ∉ ps) (s : σ) :
    Configurable barrier ps s ↔ ∀ p ∈ ps, ∀ key ∈ p.keys, Nameable P key := by
  constructor
  · rintro ⟨text, hload⟩ p hp
    obtain ⟨name, cfg, t, t', hmade⟩ := evfLoadFilters_made hload p.call (List.mem_map_of_mem hp)
    exact nameable_of_load (fun history h => hps history (h ▸ hp)) hmade
  · intro hkeys
    obtain ⟨bs, hbs, hloads⟩ := exists_blocks hps hkeys barrier
    refine ⟨⟨document bs, nulFree_document bs⟩, ?_⟩
    rw [evfLoadFilters_document rfl (fun b hb => (hbs b (List.mem_of_mem_dropLast hb)).2) fun b hb => (hbs b hb).1,
      loadBlocks_ok hloads]

/-- The table of Barrier, if there were nothing behind it. -/
def endedBarrier : Creat middlePlatform (List (Option (Loaded middlePlatform))) Unit :=
  { params := [intParam "history" (some historyLimit) (some "50")], named := by decide
    alloc := fun args s => (.ok (args.map some), s) }

/-- BTN_MIDDLE has a name. A code above KEY_MAX has none. -/
theorem configurable_middle :
    Configurable endedBarrier [.keyLock 274, .noRepeat, .speedMod (-3) 2] () ∧
      ¬ Configurable endedBarrier [.mirror true false true false, .keyLock 1000] () := by
  have hmiddle : Nameable middlePlatform 274 := ⟨29, by decide, by decide, by decide, by decide⟩
  have hother : ¬ Nameable middlePlatform 1000 := by
    rintro ⟨j, -, -, hj, -⟩
    simp only [middlePlatform] at hj
    split at hj <;> exact absurd hj (by decide)
  constructor
  · refine (configurable_iff endedBarrier _ (by simp) ()).mpr ?_
    simpa [Params.keys] using hmiddle
  · rw [configurable_iff endedBarrier _ (by simp) ()]
    simpa [Params.keys] using hother

end Evfilter.Filters
