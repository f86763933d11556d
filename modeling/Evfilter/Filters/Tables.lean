import Evfilter.Filters.Create
import Evfilter.Loader.Filter
import Evfilter.Param.Entries

/-!
# The tables of the filters

What each creat function hands to `evf_load_params` and to the alloc function of its filter: its table as it stands in
the source, the types of the variables for the values, the parameters of the alloc function and which of the variables
is passed for each. The variables are numbered as they are listed behind the table.
-/

namespace Evfilter.Filters.Tables
open Lib Param

/-- The parameters of the alloc functions. -/
inductive AllocParam
  | dumpPrefix
  | dumpFile
  | treshold
  | key
  | xmod
  | ymod
  | history
  | samples
  | maxx
  | maxy
  | maxp
  | minx
  | miny
  | minp
  | mirRelX
  | mirRelY
  | mirAbsX
  | mirAbsY
  | rotateAbsCoords
  | rotateRelCoords
  | keyDown
  | keyUp
  | keyLeft
  | keyRight
  | leftBtn
  | middleBtn
  | rightBtn
  | kx
  | ky
  | triggerBtn
  | handleName
  | eventType
  | eventCode
  | keyFrom
  | keyTo
deriving DecidableEq

/-- The name under which the value is configured. -/
def AllocParam.configured : AllocParam → String
  | dumpPrefix => "prefix"
  | dumpFile => "file"
  | treshold => "treshold"
  | key => "key"
  | xmod => "xmod"
  | ymod => "ymod"
  | history => "history"
  | samples => "samples"
  | maxx => "maxx"
  | maxy => "maxy"
  | maxp => "maxp"
  | minx => "minx"
  | miny => "miny"
  | minp => "minp"
  | mirRelX => "MirrorRelX"
  | mirRelY => "MirrorRelY"
  | mirAbsX => "MirrorAbsX"
  | mirAbsY => "MirrorAbsY"
  | rotateAbsCoords => "RotateAbs"
  | rotateRelCoords => "RotateRel"
  | keyDown => "keydown"
  | keyUp => "keyup"
  | keyLeft => "keyleft"
  | keyRight => "keyright"
  | leftBtn => "leftbtn"
  | middleBtn => "middlebtn"
  | rightBtn => "rightbtn"
  | kx => "kx"
  | ky => "ky"
  | triggerBtn => "TriggerButton"
  | handleName => "HandleName"
  | eventType => "EventType"
  | eventCode => "EventCode"
  | keyFrom => "KeyFrom"
  | keyTo => "KeyTo"

structure CreatFunction where
  params : List Entry
  outputs : List Kind
  allocParams : List AllocParam
  arguments : List Nat

def param (name : String) (type : EvfParamT) (dflt : Option String) : EvfParam :=
  { name := CString.literal name, type, lim := none, dflt := dflt.map CString.literal }

/-- The entries and the one that ends them. -/
def ended (params : List EvfParam) : List Entry := params.map EvfParam.entry ++ [Entry.last]

def dumpParams : List EvfParam := [param "prefix" .str (some ""), param "file" .file (some "stdout")]

def evfDumpCreat : CreatFunction :=
  { params := ended dumpParams
    outputs := [.str, .file]
    allocParams := [.dumpPrefix, .dumpFile]
    arguments := [0, 1] }

def evfNoRepeatCreat : CreatFunction :=
  { params := ended []
    outputs := []
    allocParams := []
    arguments := [] }

def pressureToKeyParams : List EvfParam := [param "treshold" .int none, param "key" .key none]

def evfPressureToKeyCreat : CreatFunction :=
  { params := ended pressureToKeyParams
    outputs := [.int, .int]
    allocParams := [.treshold, .key]
    arguments := [0, 1] }

def evfSpeedModRelCreat : CreatFunction :=
  { params := ended relspeedParams
    outputs := [.int, .int]
    allocParams := [.xmod, .ymod]
    arguments := [0, 1] }

def historyLimit : EvfLimInt := { min := 0, max := 100 }

/-- Nothing ends this one. -/
def barrierParams : List Entry := [(intParam "history" (some historyLimit) (some "50")).entry]

def evfBarrierCreat : CreatFunction :=
  { params := barrierParams
    outputs := [.int]
    allocParams := [.history]
    arguments := [0] }

def evfWeightedAverageAbsCreat : CreatFunction :=
  { params := ended averageParams
    outputs := [.int]
    allocParams := [.samples]
    arguments := [0] }

def scaleParams : List EvfParam := [
  param "maxx" .int none,
  param "maxy" .int none,
  param "maxp" .int (some "32767"),
  param "minx" .int (some "0"),
  param "miny" .int (some "0"),
  param "minp" .int (some "32767")]

def evfScaleAbsCreat : CreatFunction :=
  { params := ended scaleParams
    outputs := [.int, .int, .int, .int, .int, .int]
    allocParams := [.maxx, .maxy, .maxp, .minx, .miny, .minp]
    arguments := [0, 1, 2, 3, 4, 5] }

def mirrorParams : List EvfParam := [
  param "MirrorRelX" .bool (some "false"),
  param "MirrorRelY" .bool (some "false"),
  param "MirrorAbsX" .bool (some "false"),
  param "MirrorAbsY" .bool (some "false")]

def evfMirrorCreat : CreatFunction :=
  { params := ended mirrorParams
    outputs := [.int, .int, .int, .int]
    allocParams := [.mirRelX, .mirRelY, .mirAbsX, .mirAbsY]
    arguments := [0, 1, 2, 3] }

def rotateParams : List EvfParam := [param "RotateAbs" .bool (some "true"), param "RotateRel" .bool (some "true")]

def evfRotateCreat : CreatFunction :=
  { params := ended rotateParams
    outputs := [.int, .int]
    allocParams := [.rotateAbsCoords, .rotateRelCoords]
    arguments := [0, 1] }

def evfAbs2relCreat : CreatFunction :=
  { params := ended []
    outputs := []
    allocParams := []
    arguments := [] }

def btn2relParams : List EvfParam := [
  param "keyup" .key (some "NO_KEY"),
  param "keydown" .key (some "NO_KEY"),
  param "keyleft" .key (some "NO_KEY"),
  param "keyright" .key (some "NO_KEY"),
  param "leftbtn" .key (some "NO_KEY"),
  param "middlebtn" .key (some "NO_KEY"),
  param "rightbtn" .key (some "NO_KEY")]

/-- `evf_btn2rel_alloc(key_up, key_down, …)` of `evf_btn2rel_alloc(int key_down, int key_up, …)` -/
def evfBtn2relCreat : CreatFunction :=
  { params := ended btn2relParams
    outputs := [.int, .int, .int, .int, .int, .int, .int]
    allocParams := [.keyDown, .keyUp, .keyLeft, .keyRight, .leftBtn, .middleBtn, .rightBtn]
    arguments := [0, 1, 2, 3, 4, 5, 6] }

def kalmanParams : List EvfParam := [param "kx" .float none, param "ky" .float none]

def evfKalmanCreat : CreatFunction :=
  { params := ended kalmanParams
    outputs := [.float, .float]
    allocParams := [.kx, .ky]
    arguments := [0, 1] }

def evfRel2scrollCreat : CreatFunction :=
  { params := ended rel2scrollParams
    outputs := [.int, .int, .int]
    allocParams := [.triggerBtn, .xmod, .ymod]
    arguments := [0, 1, 2] }

/-- `filter_params` of copy_to_handle.c and get_from_handle.c -/
def handleNameParams : List EvfParam := [param "HandleName" .str none]

def evfCopyToHandleCreat : CreatFunction :=
  { params := ended handleNameParams
    outputs := [.str]
    allocParams := [.handleName]
    arguments := [0] }

def evfGetFromHandleCreat : CreatFunction :=
  { params := ended handleNameParams
    outputs := [.str]
    allocParams := [.handleName]
    arguments := [0] }

def keyLockParams : List EvfParam := [param "Key" .key none]

def evfKeyLockCreat : CreatFunction :=
  { params := ended keyLockParams
    outputs := [.int]
    allocParams := [.key]
    arguments := [0] }

def filterToHandleParams : List EvfParam := [
  param "HandleName" .str none,
  param "EventType" .evtype none,
  param "EventCode" .int none]

def evfFilterToHandleCreat : CreatFunction :=
  { params := ended filterToHandleParams
    outputs := [.str, .int, .int]
    allocParams := [.handleName, .eventType, .eventCode]
    arguments := [0, 1, 2] }

def keySubstituteParams : List EvfParam := [param "KeyFrom" .key none, param "KeyTo" .key none]

def evfKeySubstituteCreat : CreatFunction :=
  { params := ended keySubstituteParams
    outputs := [.int, .int]
    allocParams := [.keyFrom, .keyTo]
    arguments := [0, 1] }

/-- `evf_creat` -/
def evfCreat : List CreatFunction := [
  evfDumpCreat,
  evfNoRepeatCreat,
  evfPressureToKeyCreat,
  evfSpeedModRelCreat,
  evfBarrierCreat,
  evfWeightedAverageAbsCreat,
  evfScaleAbsCreat,
  evfMirrorCreat,
  evfRotateCreat,
  evfAbs2relCreat,
  evfBtn2relCreat,
  evfKalmanCreat,
  evfRel2scrollCreat,
  evfCopyToHandleCreat,
  evfGetFromHandleCreat,
  evfKeyLockCreat,
  evfFilterToHandleCreat,
  evfKeySubstituteCreat]

theorem declared_ended (params : List EvfParam) : declared (ended params) = some params := by
  induction params with
  | nil => rfl
  | cons param params ih =>
      change (declared (ended params)).map _ = _
      rw [ih]
      rfl

/-! ## Loading a filter -/

/-- What comes of a creat function, up to the call of its alloc function. -/
inductive Outcome (P : Platform)
  | fault (fault : Fault)
  | refused (err : Option EvfErr)
  | alloc (args : List (AllocParam × Option (Stored P)))

variable (P : Platform)

/-- What was stored last in the variable. -/
def content {P : Platform} (list : VaList P) (i : Nat) : Option (Stored P) := (list.storedIn i).getLast?

/-- Two of the functions test for any value but 0, the others for -1. -/
def CreatFunction.create (creat : CreatFunction) (params : CString) (err : Option EvfErr) : Outcome P :=
  match evfLoadParamsIn P creat.params creat.outputs err params with
  | .error fault => .fault fault
  | .ok call =>
    if call.ret = -1 then .refused call.err
    else .alloc ((creat.allocParams.zip creat.arguments).map fun a => (a.1, content call.list a.2))

def evfFilterLoad (name params : CString) (err : Option EvfErr) : Outcome P :=
  match Loader.getfilter name with
  | none => .refused (some (.efname name))
  | some i =>
    match evfCreat[i]? with
    | none => .fault .table
    | some creat => creat.create P params err

/-- Every value that is loaded from the string or a default is passed for the parameter it is configured for. -/
def Reaches (params : List EvfParam) (cfg : CString) (args : List (AllocParam × Option (Stored P))) : Prop :=
  ∀ param str val, (param, some str) ∈ slots params (tokens cfg) → loadValue P param str = .ok val →
    ∃ a : AllocParam, (CString.literal a.configured).fold = param.name.fold ∧ (a, some (.loaded val)) ∈ args

/-- Nothing is read behind the table; there is one variable for each parameter, and of its type; all values arrive. -/
structure Sound (name cfg : CString) (err : Option EvfErr) : Prop where
  inside : evfFilterLoad P name cfg err ≠ .fault .table
  arrives : ∀ args, evfFilterLoad P name cfg err = .alloc args → ∃ i creat params,
    Loader.getfilter name = some i ∧ evfCreat[i]? = some creat ∧ declared creat.params = some params ∧
      creat.outputs = params.map (fun p => p.type.kind) ∧ Reaches P params cfg args

variable {P} {creat : CreatFunction} {params : List EvfParam} {cfg name : CString} {err : Option EvfErr}

/-! ## Tables, variables and arguments in step -/

/-- The variable of every parameter is passed for it. -/
def Wired (creat : CreatFunction) (params : List EvfParam) : Prop :=
  creat.outputs = params.map (fun p => p.type.kind) ∧
    ∀ p ∈ params.zipIdx, ∃ a ∈ creat.allocParams.zip creat.arguments,
      (CString.literal a.1.configured).fold = p.1.name.fold ∧ a.2 = p.2

instance (creat : CreatFunction) (params : List EvfParam) : Decidable (Wired creat params) :=
  inferInstanceAs (Decidable (creat.outputs = params.map (fun p => p.type.kind) ∧
    ∀ p ∈ params.zipIdx, ∃ a ∈ creat.allocParams.zip creat.arguments,
      (CString.literal a.1.configured).fold = p.1.name.fold ∧ a.2 = p.2))

/-- The variables hold the values of the parameters, in order. -/
def Holds (list : VaList P) (params : List EvfParam) (cfg : CString) : Prop :=
  ∀ i s, (slots params (tokens cfg))[i]? = some s →
    ∃ str val, s.2 = some str ∧ loadValue P s.1 str = .ok val ∧ content list i = some (.loaded val)

theorem create_cases (h : declared creat.params = some params)
    (hout : creat.outputs = params.map fun p => p.type.kind) (cfg : CString) (err : Option EvfErr) :
    (¬ Acceptable P params (tokens cfg) ∧ ∃ e, creat.create P cfg err = .refused e) ∨
    (Acceptable P params (tokens cfg) ∧ ∃ list : VaList P,
      creat.create P cfg err =
        .alloc ((creat.allocParams.zip creat.arguments).map fun a => (a.1, content list a.2)) ∧
      Holds list params cfg) := by
  rw [CreatFunction.create, evfLoadParamsIn_eq h hout]
  by_cases haccept : Acceptable P params (tokens cfg)
  · have hzero : (evfLoadParamsCall P err cfg params).ret = 0 := ret_eq_zero_iff.mpr haccept
    refine Or.inr ⟨haccept, (evfLoadParamsCall P err cfg params).list, ?_, fun i s hs => ?_⟩
    · simp only [hzero]
      rfl
    · obtain ⟨str, val, hstr, hval, hstored⟩ := (stored_of_acceptable haccept).2 i s hs
      refine ⟨str, val, hstr, hval, ?_⟩
      rw [content, hstored]
      rfl
  · have hne : (evfLoadParamsCall P err cfg params).ret = -1 := (refused_of_not_acceptable haccept).1
    refine Or.inl ⟨haccept, (evfLoadParamsCall P err cfg params).err, ?_⟩
    simp only [hne, ↓reduceIte]

theorem slots_get {i : Nat} {param : EvfParam} {value : Option CString} {pairs : List (CString × CString)}
    (h : (slots params pairs)[i]? = some (param, value)) : params[i]? = some param := by
  rw [slots, List.getElem?_mapIdx, Option.map_eq_some_iff] at h
  obtain ⟨p, hp, heq⟩ := h
  rw [hp, (Prod.mk.inj heq).1]

theorem reaches_of_holds {list : VaList P} (hholds : Holds list params cfg)
    (hargs : ∀ p ∈ params.zipIdx, ∃ a ∈ creat.allocParams.zip creat.arguments,
      (CString.literal a.1.configured).fold = p.1.name.fold ∧ content list a.2 = content list p.2) :
    Reaches P params cfg ((creat.allocParams.zip creat.arguments).map fun a => (a.1, content list a.2)) := by
  intro param str val hmem hval
  obtain ⟨i, hi⟩ := List.mem_iff_getElem?.mp hmem
  obtain ⟨a, ha, hname, hvar⟩ := hargs (param, i) (List.mem_zipIdx_iff_getElem?.mpr (slots_get hi))
  obtain ⟨str', val', hstr, hval', hcontent⟩ := hholds i _ hi
  obtain rfl : str = str' := Option.some.inj hstr
  obtain rfl : val = val' := Except.ok.inj (hval.symm.trans hval')
  refine ⟨a.1, hname, List.mem_map.mpr ⟨a, ha, ?_⟩⟩
  rw [hvar, hcontent]

/-! ## The filters by name -/

theorem getfilter_iff {i : Nat} (hi : i < Loader.evfFilters.length) :
    Loader.getfilter name = some i ↔ name.fold = Loader.evfFilters[i].fold := by
  have hdistinct : Loader.evfFilters.Pairwise fun f g => f.fold ≠ g.fold := by decide +kernel
  have hp (j : Nat) (hj : j < Loader.evfFilters.length) :
      decide (CString.strcasecmp name Loader.evfFilters[j] = 0) = true ↔ name.fold = Loader.evfFilters[j].fold := by
    rw [decide_eq_true_iff, CString.strcasecmp_eq_zero]
  rw [Loader.getfilter, List.findIdx?_eq_some_iff_getElem]
  constructor
  · rintro ⟨h, heq, -⟩
    exact (hp i h).mp heq
  · refine fun heq => ⟨hi, (hp i hi).mpr heq, fun j hji hj => ?_⟩
    have hjlt := hji.trans hi
    exact List.pairwise_iff_getElem.mp hdistinct j i hjlt hi hji (((hp j hjlt).mp hj).symm.trans heq)

theorem getfilter_barrier :
    Loader.getfilter name = some 4 ↔ CString.strcasecmp name (CString.literal "Barrier") = 0 := by
  rw [getfilter_iff (by decide), CString.strcasecmp_eq_zero]
  rfl

theorem getfilter_btn2rel :
    Loader.getfilter name = some 10 ↔ CString.strcasecmp name (CString.literal "Btn2Rel") = 0 := by
  rw [getfilter_iff (by decide), CString.strcasecmp_eq_zero]
  rfl

/-- All tables but one end, and all filters but two have everything in step. -/
theorem wired_of_ne {i : Nat} (hcreat : evfCreat[i]? = some creat) (hbarrier : i ≠ 4) (hbtn : i ≠ 10) :
    ∃ params ∈ declared creat.params, Wired creat params := by
  have hall : ∀ p ∈ evfCreat.zipIdx, p.2 ≠ 4 → p.2 ≠ 10 → ∃ params ∈ declared p.1.params, Wired p.1 params := by
    decide +kernel
  exact hall (creat, i) (List.mem_zipIdx_iff_getElem?.mpr hcreat) hbarrier hbtn

theorem sound_of_wired {i : Nat} (hname : Loader.getfilter name = some i) (hcreat : evfCreat[i]? = some creat)
    (hparams : declared creat.params = some params) (hwired : Wired creat params) : Sound P name cfg err := by
  have hload : evfFilterLoad P name cfg err = creat.create P cfg err := by
    simp only [evfFilterLoad, hname, hcreat]
  rcases create_cases (P := P) hparams hwired.1 cfg err with ⟨-, e, hrefused⟩ | ⟨-, list, halloc, hholds⟩
  · exact ⟨by simp [hload, hrefused], fun args hargs => by simp [hload, hrefused] at hargs⟩
  · refine ⟨by simp [hload, halloc], fun args hargs => ⟨i, creat, params, hname, hcreat, hparams, hwired.1, ?_⟩⟩
    rw [hload, halloc] at hargs
    obtain rfl := Outcome.alloc.inj hargs
    refine reaches_of_holds hholds fun p hp => ?_
    obtain ⟨a, ha, hfold, hvar⟩ := hwired.2 p hp
    exact ⟨a, ha, hfold, by rw [hvar]⟩

/-! ## Barrier and Btn2Rel -/

theorem not_sound_barrier (h : Loader.getfilter name = some 4) : ¬ Sound P name cfg err := by
  intro hsound
  have hnone : declared barrierParams = none := rfl
  have hcreat : evfCreat[4]? = some evfBarrierCreat := rfl
  refine hsound.inside ?_
  simp only [evfFilterLoad, h, hcreat, CreatFunction.create]
  rw [show evfBarrierCreat.params = barrierParams from rfl, evfLoadParamsIn_fault hnone]

/-- `keyup` and `keydown` are given, or left to be, one key. -/
def OneKey (P : Platform) (cfg : CString) : Prop :=
  ∀ up down, (slots btn2relParams (tokens cfg))[0]?.bind Prod.snd = some up →
    (slots btn2relParams (tokens cfg))[1]?.bind Prod.snd = some down →
    KeyParser.keyparserGetkey P.keyValues up = KeyParser.keyparserGetkey P.keyValues down

theorem loadValue_key {param : EvfParam} {str : CString} {val : Loaded P} (htype : param.type = .key)
    (h : loadValue P param str = .ok val) : val = .int (KeyParser.keyparserGetkey P.keyValues str) := by
  simp only [loadValue, htype, evfilterLoadKey] at h
  split at h
  · cases h
  · exact (Except.ok.inj h).symm

theorem slot_btn2rel {i : Nat} {p : EvfParam} (hi : btn2relParams[i]? = some p) (htype : p.type = .key)
    {list : VaList P} (hholds : Holds list btn2relParams cfg) :
    ∃ str, (slots btn2relParams (tokens cfg))[i]? = some (p, some str) ∧
      loadValue P p str = .ok (.int (KeyParser.keyparserGetkey P.keyValues str)) ∧
      content list i = some (.loaded (.int (KeyParser.keyparserGetkey P.keyValues str))) := by
  have hslot : (slots btn2relParams (tokens cfg))[i]? = some (p, (valueAt btn2relParams (tokens cfg) i).or p.dflt) := by
    rw [slots, List.getElem?_mapIdx, hi]
    rfl
  obtain ⟨str, val, hstr, hval, hcontent⟩ := hholds i _ hslot
  simp only at hstr hval
  obtain rfl := loadValue_key htype hval
  exact ⟨str, by rw [hslot, hstr], hval, hcontent⟩

theorem configured_keyup {a : AllocParam}
    (h : (CString.literal a.configured).fold = (CString.literal "keyup").fold) : a = .keyUp := by
  revert h
  cases a <;> decide +kernel

/-- The two arguments are passed the wrong way round. -/
theorem btn2rel_reaches_iff {list : VaList P} (hholds : Holds list btn2relParams cfg) :
    Reaches P btn2relParams cfg
      ((evfBtn2relCreat.allocParams.zip evfBtn2relCreat.arguments).map fun a => (a.1, content list a.2)) ↔
      OneKey P cfg := by
  obtain ⟨up, hup, hupval, hupcontent⟩ := slot_btn2rel (i := 0) rfl rfl hholds
  obtain ⟨down, hdown, -, hdowncontent⟩ := slot_btn2rel (i := 1) rfl rfl hholds
  have hone : OneKey P cfg ↔ content list 0 = content list 1 := by
    rw [OneKey, hup, hdown, hupcontent, hdowncontent]
    simp
  rw [hone]
  constructor
  · intro hreaches
    obtain ⟨a, ha, hmem⟩ := hreaches _ up _ (List.mem_of_getElem? hup) hupval
    obtain rfl := configured_keyup ha
    rw [← hupcontent] at hmem
    simpa [evfBtn2relCreat] using hmem
  · intro hequal
    refine reaches_of_holds hholds fun p hp => ?_
    -- The first two values are in each other's place, the others in their own.
    have hall : ∀ p ∈ btn2relParams.zipIdx, ∃ a ∈ evfBtn2relCreat.allocParams.zip evfBtn2relCreat.arguments,
        (CString.literal a.1.configured).fold = p.1.name.fold ∧
          (a.2 = p.2 ∨ (a.2 = 1 ∧ p.2 = 0) ∨ (a.2 = 0 ∧ p.2 = 1)) := by decide +kernel
    obtain ⟨a, ha, hfold, hvar⟩ := hall p hp
    refine ⟨a, ha, hfold, ?_⟩
    rcases hvar with hvar | ⟨hvar, hp⟩ | ⟨hvar, hp⟩
    · rw [hvar]
    · rw [hvar, hp, hequal]
    · rw [hvar, hp, hequal]

theorem sound_btn2rel_iff (h : Loader.getfilter name = some 10) :
    Sound P name cfg err ↔ (Acceptable P btn2relParams (tokens cfg) → OneKey P cfg) := by
  have hparams : declared evfBtn2relCreat.params = some btn2relParams := declared_ended btn2relParams
  have hout : evfBtn2relCreat.outputs = btn2relParams.map fun p => p.type.kind := rfl
  have hcreat : evfCreat[10]? = some evfBtn2relCreat := rfl
  have hload : evfFilterLoad P name cfg err = evfBtn2relCreat.create P cfg err := by
    simp only [evfFilterLoad, h, hcreat]
  rcases create_cases (P := P) hparams hout cfg err with ⟨hnot, e, hrefused⟩ | ⟨haccept, list, halloc, hholds⟩
  · refine iff_of_true ⟨by simp [hload, hrefused], fun args hargs => ?_⟩ fun haccept => absurd haccept hnot
    simp [hload, hrefused] at hargs
  · rw [← btn2rel_reaches_iff hholds]
    constructor
    · intro hsound _
      obtain ⟨i, creat, params, hi, hcreat', hparams', -, hreaches⟩ :=
        hsound.arrives _ (hload.trans halloc)
      obtain rfl : i = 10 := Option.some.inj (hi.symm.trans h)
      obtain rfl := Option.some.inj (hcreat'.symm.trans hcreat)
      obtain rfl := Option.some.inj (hparams'.symm.trans hparams)
      exact hreaches
    · intro hreaches
      refine ⟨by simp [hload, halloc], fun args hargs => ⟨10, _, _, h, hcreat, hparams, hout, ?_⟩⟩
      rw [hload, halloc] at hargs
      obtain rfl := Outcome.alloc.inj hargs
      exact hreaches haccept

/-- All filters but two; Btn2Rel where the two arguments are equal. -/
theorem sound_iff (P : Platform) (name cfg : CString) (err : Option EvfErr) :
    Sound P name cfg err ↔ CString.strcasecmp name (CString.literal "Barrier") ≠ 0 ∧
      (CString.strcasecmp name (CString.literal "Btn2Rel") = 0 →
        Acceptable P btn2relParams (tokens cfg) → OneKey P cfg) := by
  rw [Ne, ← getfilter_barrier, ← getfilter_btn2rel]
  cases hname : Loader.getfilter name with
  | none =>
      have hload : evfFilterLoad P name cfg err = .refused (some (.efname name)) := by
        simp only [evfFilterLoad, hname]
      refine iff_of_true ⟨by simp [hload], fun args hargs => ?_⟩ (by simp)
      simp [hload] at hargs
  | some i =>
      by_cases hbarrier : i = 4
      · subst hbarrier
        exact iff_of_false (not_sound_barrier hname) (by simp)
      by_cases hbtn : i = 10
      · subst hbtn
        rw [sound_btn2rel_iff hname]
        simp
      · have hi : i < evfCreat.length := (List.findIdx?_eq_some_iff_getElem.mp hname).1
        have hcreat : evfCreat[i]? = some evfCreat[i] := List.getElem?_eq_getElem hi
        obtain ⟨params, hparams, hwired⟩ := wired_of_ne hcreat hbarrier hbtn
        exact iff_of_true (sound_of_wired hname hcreat hparams hwired) (by simp [hbarrier, hbtn])

/-- `history=10` for a Barrier -/
theorem barrier_not_sound :
    ¬ Sound middlePlatform (CString.literal "Barrier") (CString.literal "history=10") none :=
  not_sound_barrier (by decide +kernel)

end Evfilter.Filters.Tables
