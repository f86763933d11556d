import Evfilter.Param.Load
import Evfilter.Param.RoundTrip

/-!
# What `evf_load_params` leaves behind

The variables behind its argument list are numbered. They are taken one after the other, and what is stored in them
is written down in order. With it come the two conditions on a call: what it accepts, and which offence it reports.
-/

namespace Evfilter.Param
open Lib

variable (P : Platform)

/-- A value, or the `NULL` that `*f = fopen(str, "rw")` stores before the test. -/
inductive Stored
  | loaded (val : Loaded P)
  | null

/-- `va_list list`: how many pointers have been taken from it, and what was stored through them. -/
structure VaList where
  taken : Nat
  stores : List (Nat × Stored P)

namespace VaList

variable {P}

def start : VaList P := ⟨0, []⟩

/-- `*va_arg(list, …) = …` -/
def store (list : VaList P) (val : Stored P) : VaList P :=
  ⟨list.taken + 1, list.stores ++ [(list.taken, val)]⟩

/-- `va_arg(list, …)` for a loader that stores nothing. -/
def pass (list : VaList P) : VaList P := ⟨list.taken + 1, list.stores⟩

/-- What has been stored in a variable, in order. -/
def storedIn (list : VaList P) (i : Nat) : List (Stored P) := (list.stores.filter fun w => w.1 = i).map Prod.snd

end VaList

structure Call where
  ret : Int32
  err : Option EvfErr
  list : VaList P

/-- One round of the loop over the table: every case takes a pointer, and stores what its loader has read. -/
def convert (param : EvfParam) (str : CString) (list : VaList P) : Except EvfErr Unit × VaList P :=
  match loadValue P param str with
  | .ok val => (.ok (), list.store (.loaded val))
  | .error e => (.error e, if param.type = .file then list.store .null else list.pass)

def convertLoop : List EvfParam → List (Option CString) → VaList P → Except EvfErr Unit × VaList P
  | [], _, list => (.ok (), list)
  | param :: params, values, list =>
    match (values.head?.join).or param.dflt with
    | none => (.error (.emissing param.name), list)
    | some str =>
      match convert P param str list with
      | (.error e, list) => (.error e, list)
      | (.ok (), list) => convertLoop params values.tail list

def evfLoadParamsCall (err : Option EvfErr) (cfg : CString) (params : List EvfParam) : Call P :=
  match parsedValues params cfg with
  | .error e => { ret := -1, err := some e, list := VaList.start }
  | .ok values =>
    match convertLoop P params values VaList.start with
    | (.error e, list) => { ret := -1, err := some e, list := list }
    | (.ok (), list) => { ret := 0, err := err, list := list }

/-! ## Offences -/

/-- The value given for the parameter at a position, which is the value of the first token with its name. -/
def valueAt (params : List EvfParam) (pairs : List (CString × CString)) (i : Nat) : Option CString :=
  (pairs.find? fun pair => evfilterFindPossition pair.1 params = some i).map Prod.snd

/-- The parameters, each with the value it is given or with its default. -/
def slots (params : List EvfParam) (pairs : List (CString × CString)) : List (EvfParam × Option CString) :=
  params.mapIdx fun i param => (param, (valueAt params pairs i).or param.dflt)

def Accepts (param : EvfParam) (str : CString) : Prop := ∃ val, loadValue P param str = .ok val

inductive Offence
  | unknown (name : CString)
  | repeated (name : CString)
  | missing (param : EvfParam)
  | invalid (param : EvfParam) (str : CString)
deriving DecidableEq

/-- What `err` says about an offence. -/
def Offence.Described (e : EvfErr) : Offence → Prop
  | unknown name => e = .epname name
  | repeated name => e = .eredef name
  | missing param => e = .emissing param.name
  | invalid param str => e = .einval param.name str param.type ∨
      (param.type = .int ∧ ∃ lim, e = .erange param.name lim) ∨
      (param.type = .file ∧ ∃ errno, P.fopen str = .error errno ∧ e = .errno errno)

def nameOffence (params : List EvfParam) (earlier : List (CString × CString)) (name : CString) : Option Offence :=
  if evfilterFindPossition name params = none then some (.unknown name)
  else if ∃ pair ∈ earlier, pair.1.fold = name.fold then some (.repeated name)
  else none

/-- The offences of the names, in the order they are in. -/
def nameOffences (params : List EvfParam) : List (CString × CString) → List (CString × CString) → List Offence
  | _, [] => []
  | earlier, pair :: pairs =>
    (nameOffence params earlier pair.1).toList ++ nameOffences params (earlier ++ [pair]) pairs

def valueOffence : EvfParam × Option CString → Option Offence
  | (param, none) => some (.missing param)
  | (param, some str) =>
    match loadValue P param str with
    | .ok _ => none
    | .error _ => some (.invalid param str)

/-- All offences: those of the names come first, then those of the values in the order of the table. -/
def offences (params : List EvfParam) (pairs : List (CString × CString)) : List Offence :=
  nameOffences params [] pairs ++ (slots params pairs).filterMap (valueOffence P)

/-- Every name is declared, none is given twice, and every parameter has a value that its loader accepts. -/
structure Acceptable (params : List EvfParam) (pairs : List (CString × CString)) : Prop where
  declared : ∀ pair ∈ pairs, Declared params pair.1
  once : pairs.Pairwise fun x y => x.1.fold ≠ y.1.fold
  values : ∀ s ∈ slots params pairs, ∃ str, s.2 = some str ∧ Accepts P s.1 str

variable {P} {params : List EvfParam} {pairs earlier : List (CString × CString)}
  {values strings : List (Option CString)} {name value : CString} {param : EvfParam} {str cfg : CString} {e : EvfErr}

/-! ## The names -/

/-- A name is found where an earlier one was, if and only if it is the same. -/
theorem find_eq_iff {other : CString} {i : Nat} (h : evfilterFindPossition name params = some i) :
    evfilterFindPossition other params = some i ↔ other.fold = name.fold := by
  constructor
  · intro hother
    obtain ⟨_, hname⟩ := find_some h
    obtain ⟨_, hoth⟩ := find_some hother
    exact hoth.symm.trans hname
  · intro hfold
    rw [find_congr hfold, h]

/-- The places of the names stored so far are taken, and no other. -/
def Taken (params : List EvfParam) (earlier : List (CString × CString)) (values : List (Option CString)) : Prop :=
  ∀ j, (values.getD j none).isSome ↔ ∃ pair ∈ earlier, evfilterFindPossition pair.1 params = some j

theorem Taken.isSome_iff {i : Nat} (h : Taken params earlier values)
    (hi : evfilterFindPossition name params = some i) :
    (values.getD i none).isSome ↔ ∃ pair ∈ earlier, pair.1.fold = name.fold := by
  rw [h i]
  exact exists_congr fun pair => and_congr_right fun _ => find_eq_iff hi

theorem Taken.set {i : Nat} (h : Taken params earlier values) (hlen : values.length = params.length)
    (hi : evfilterFindPossition name params = some i) :
    Taken params (earlier ++ [(name, value)]) (values.set i (some value)) := by
  obtain ⟨hlt, -⟩ := find_some hi
  intro j
  rw [List.getD_eq_getElem?_getD]
  by_cases hij : i = j
  · subst hij
    rw [List.getElem?_set_self (by rw [hlen]; exact hlt)]
    exact iff_of_true rfl ⟨(name, value), by simp, hi⟩
  · rw [List.getElem?_set_ne hij, ← List.getD_eq_getElem?_getD, h j]
    simp only [List.mem_append, List.mem_singleton, or_and_right, exists_or, exists_eq_left, hi, Option.some.injEq,
      hij, or_false]

theorem store_offence (pairs : List (CString × CString)) (hlen : values.length = params.length)
    (ht : Taken params earlier values) :
    match store params pairs values with
    | .ok _ => nameOffences params earlier pairs = []
    | .error e => ∃ o l, nameOffences params earlier pairs = o :: l ∧ o.Described P e := by
  induction pairs generalizing earlier values with
  | nil => rfl
  | cons pair pairs ih =>
      obtain ⟨name, value⟩ := pair
      rw [store, nameOffences, nameOffence]
      cases hi : evfilterFindPossition name params with
      | none => exact ⟨.unknown name, _, rfl, rfl⟩
      | some i =>
          simp only [reduceCtorEq, ↓reduceIte, ht.isSome_iff hi]
          by_cases hagain : ∃ pair ∈ earlier, pair.1.fold = name.fold
          · rw [if_pos hagain, if_pos hagain]
            exact ⟨.repeated name, _, rfl, rfl⟩
          · rw [if_neg hagain, if_neg hagain]
            exact ih (by rw [List.length_set, hlen]) (ht.set hlen hi)

/-- What stands in the places after storing: what was there, or the value of the first token that belongs there. -/
theorem store_values (hlen : values.length = params.length) (h : store params pairs values = .ok strings) :
    strings.length = params.length ∧
      ∀ j, strings.getD j none = (values.getD j none).or (valueAt params pairs j) := by
  induction pairs generalizing values with
  | nil =>
      obtain rfl : values = strings := Except.ok.inj h
      exact ⟨hlen, fun j => by simp [valueAt]⟩
  | cons pair pairs ih =>
      obtain ⟨name, value⟩ := pair
      rw [store] at h
      cases hi : evfilterFindPossition name params with
      | none => simp [hi] at h
      | some i =>
          simp only [hi] at h
          obtain ⟨hlt, -⟩ := find_some hi
          split at h
          · cases h
          · rename_i hfree
            obtain ⟨hlen', hall⟩ := ih (by rw [List.length_set, hlen]) h
            refine ⟨hlen', fun j => ?_⟩
            rw [hall j, List.getD_eq_getElem?_getD]
            by_cases hij : i = j
            · subst hij
              rw [List.getElem?_set_self (by rw [hlen]; exact hlt), Option.not_isSome_iff_eq_none.mp hfree]
              simp [valueAt, hi]
            · rw [List.getElem?_set_ne hij, ← List.getD_eq_getElem?_getD]
              simp [valueAt, hi, hij]

/-! ## The values -/

theorem map_eq_error {ε α β : Type} {f : α → β} {x : Except ε α} {e : ε} (h : x.map f = .error e) : x = .error e := by
  cases x with
  | error e' => exact congrArg Except.error (Except.error.inj h)
  | ok a => cases h

theorem loadInt_error (h : evfilterLoadInt str param = .error e) :
    e = .einval param.name str .int ∨ ∃ lim, e = .erange param.name lim := by
  simp only [evfilterLoadInt] at h
  split at h
  · exact Or.inl (Except.error.inj h).symm
  split at h
  · exact Or.inr ⟨_, (Except.error.inj h).symm⟩
  split at h
  · cases h
  split at h
  · exact Or.inr ⟨_, (Except.error.inj h).symm⟩
  · cases h

theorem loadFile_error (h : evfilterLoadFile P str = .error e) :
    ∃ errno, P.fopen str = .error errno ∧ e = .errno errno := by
  simp only [evfilterLoadFile] at h
  split at h
  · cases h
  split at h
  · cases h
  split at h
  · cases h
  · rename_i errno hopen
    exact ⟨errno, hopen, (Except.error.inj h).symm⟩

/-- Every error of a loader names its parameter, apart from the one of `fopen`. -/
theorem loadValue_described (h : loadValue P param str = .error e) : (Offence.invalid param str).Described P e := by
  rw [loadValue] at h
  rw [Offence.Described]
  cases htype : param.type with
  | int =>
      rw [htype] at h
      rcases loadInt_error (map_eq_error h) with he | he
      · exact Or.inl he
      · exact Or.inr (Or.inl ⟨rfl, he⟩)
  | file =>
      rw [htype] at h
      exact Or.inr (Or.inr ⟨rfl, loadFile_error (map_eq_error h)⟩)
  | evtype =>
      rw [htype] at h
      replace h := map_eq_error h
      rw [evfilterLoadEvtype] at h
      split at h
      · cases h
      · exact Or.inl (Except.error.inj h).symm
  | key =>
      rw [htype] at h
      replace h := map_eq_error h
      simp only [evfilterLoadKey] at h
      split at h
      · exact Or.inl (Except.error.inj h).symm
      · cases h
  | str =>
      rw [htype] at h
      cases h
  | bool =>
      rw [htype] at h
      replace h := map_eq_error h
      rw [evfilterLoadBool] at h
      split at h
      · cases h
      split at h
      · cases h
      · exact Or.inl (Except.error.inj h).symm
  | float =>
      rw [htype] at h
      replace h := map_eq_error h
      simp only [evfilterLoadFloat] at h
      split at h
      · exact Or.inl (Except.error.inj h).symm
      · cases h

/-- The table beside the strings of the first loop, or the defaults where it has found none. -/
def filled (params : List EvfParam) (values : List (Option CString)) : List (EvfParam × Option CString) :=
  List.zipWith (fun param value => (param, value.or param.dflt)) params values

theorem filled_eq_slots (hlen : strings.length = params.length)
    (h : ∀ j, strings.getD j none = valueAt params pairs j) : filled params strings = slots params pairs := by
  refine List.ext_getElem (by simp [filled, slots, hlen]) fun j h₁ h₂ => ?_
  have hj : j < strings.length := by simpa [filled, hlen] using h₁
  have hget := h j
  rw [List.getD_eq_getElem?_getD, List.getElem?_eq_getElem hj, Option.getD_some] at hget
  simp [filled, slots, hget]

theorem secondLoop_cons (params : List EvfParam) (values : List (Option CString)) :
    secondLoop P (param :: params) values =
      match (values.head?.join).or param.dflt with
      | none => .error (.emissing param.name)
      | some str => (loadValue P param str).bind fun val => (secondLoop P params values.tail).map (val :: ·) := by
  rw [secondLoop]
  cases (values.head?.join).or param.dflt with
  | none => rfl
  | some str =>
      simp only
      cases loadValue P param str with
      | error e => rfl
      | ok val => cases secondLoop P params values.tail <;> rfl

theorem secondLoop_offence (hlen : values.length = params.length) :
    match secondLoop P params values with
    | .ok vals => List.Forall₂ (fun s val => ∃ str, s.2 = some str ∧ loadValue P s.1 str = .ok val)
        (filled params values) vals
    | .error e => ∃ o l, (filled params values).filterMap (valueOffence P) = o :: l ∧ o.Described P e := by
  induction params generalizing values with
  | nil => simp [secondLoop, filled]
  | cons param params ih =>
      obtain ⟨value, values, rfl⟩ := List.exists_cons_of_length_eq_add_one hlen
      have hfilled : filled (param :: params) (value :: values) =
          (param, value.or param.dflt) :: filled params values := rfl
      rw [secondLoop_cons, List.head?_cons, Option.join_some, hfilled, List.tail_cons]
      cases hstr : value.or param.dflt with
      | none => exact ⟨.missing param, _, rfl, rfl⟩
      | some str =>
          simp only
          cases hval : loadValue P param str with
          | error e =>
              refine ⟨.invalid param str, (filled params values).filterMap (valueOffence P), ?_,
                loadValue_described hval⟩
              rw [List.filterMap_cons_some]
              simp only [valueOffence, hval]
          | ok val =>
              have hnone : valueOffence P (param, some str) = none := by simp only [valueOffence, hval]
              have hrest := ih (Nat.succ.inj hlen)
              simp only [Except.bind, List.filterMap_cons_none hnone]
              cases hvals : secondLoop P params values with
              | error e =>
                  rw [hvals] at hrest
                  exact hrest
              | ok vals =>
                  rw [hvals] at hrest
                  exact List.Forall₂.cons ⟨str, rfl, hval⟩ hrest

/-! ## The variables -/

/-- The values, stored in one variable after the other. -/
def numbered (i : Nat) (vals : List (Loaded P)) : List (Nat × Stored P) :=
  (vals.zipIdx i).map fun w => (w.2, .loaded w.1)

theorem convertLoop_eq (params : List EvfParam) (values : List (Option CString)) (list : VaList P) :
    match secondLoop P params values with
    | .ok vals => convertLoop P params values list =
        (.ok (), ⟨list.taken + vals.length, list.stores ++ numbered list.taken vals⟩)
    | .error e => (convertLoop P params values list).1 = .error e := by
  induction params generalizing values list with
  | nil => simp [secondLoop, convertLoop, numbered]
  | cons param params ih =>
      rw [secondLoop_cons, convertLoop]
      cases (values.head?.join).or param.dflt with
      | none => rfl
      | some str =>
          simp only [convert]
          cases hval : loadValue P param str with
          | error e => rfl
          | ok val =>
              have hrest := ih values.tail (list.store (.loaded val))
              simp only [Except.bind]
              cases hvals : secondLoop P params values.tail with
              | error e =>
                  rw [hvals] at hrest
                  exact hrest
              | ok vals =>
                  rw [hvals] at hrest
                  refine hrest.trans ?_
                  simp [VaList.store, numbered, Nat.add_assoc, Nat.add_comm 1]

theorem filter_numbered {vals : List (Loaded P)} {i k : Nat} {val : Loaded P} (h : vals[i]? = some val) :
    (numbered k vals).filter (fun w => w.1 = k + i) = [(k + i, .loaded val)] := by
  induction vals generalizing i k with
  | nil => cases h
  | cons v vals ih =>
      rw [numbered, List.zipIdx_cons, List.map_cons, ← numbered]
      cases i with
      | zero =>
          obtain rfl : v = val := Option.some.inj h
          rw [List.filter_cons_of_pos (by simp), List.cons_eq_cons]
          refine ⟨rfl, List.filter_eq_nil_iff.mpr fun w hw => ?_⟩
          obtain ⟨x, hx, rfl⟩ := List.mem_map.mp hw
          have hle := (List.mem_zipIdx hx).1
          simpa using Nat.ne_of_gt hle
      | succ i =>
          rw [List.filter_cons_of_neg (by simp)]
          have hrest := ih (k := k + 1) h
          rwa [Nat.add_right_comm k 1 i] at hrest

/-! ## The call -/

theorem taken_start (params : List EvfParam) : Taken params [] (params.map fun _ => none) := by
  intro j
  rw [List.getD_eq_getElem?_getD, List.getElem?_map]
  cases params[j]? with
  | none => simp
  | some param => simp

theorem parsedValues_offence (params : List EvfParam) (cfg : CString) :
    match parsedValues params cfg with
    | .ok strings => nameOffences params [] (tokens cfg) = [] ∧ strings.length = params.length ∧
        filled params strings = slots params (tokens cfg)
    | .error e => ∃ o l, nameOffences params [] (tokens cfg) = o :: l ∧ o.Described P e := by
  have hlen : (params.map fun _ => (none : Option CString)).length = params.length := List.length_map _
  have hstore := store_offence (P := P) (tokens cfg) hlen (taken_start params)
  rw [parsedValues_eq]
  cases hs : store params (tokens cfg) (params.map fun _ => none) with
  | error e =>
      rw [hs] at hstore
      exact hstore
  | ok strings =>
      rw [hs] at hstore
      obtain ⟨hlen', hvalues⟩ := store_values hlen hs
      refine ⟨hstore, hlen', filled_eq_slots hlen' fun j => ?_⟩
      rw [hvalues j, List.getD_eq_getElem?_getD, List.getElem?_map]
      cases params[j]? <;> rfl

theorem acceptable_iff : Acceptable P params pairs ↔ offences P params pairs = [] := by
  have hnames : nameOffences params [] pairs = [] ↔
      (∀ pair ∈ pairs, Declared params pair.1) ∧ pairs.Pairwise fun x y => x.1.fold ≠ y.1.fold := by
    have hstore := store_offence (P := P) pairs (List.length_map _) (taken_start params)
    rw [← store_start_iff]
    cases hs : store params pairs (params.map fun _ => none) with
    | error e =>
        rw [hs] at hstore
        obtain ⟨o, l, ho, -⟩ := hstore
        simp [ho]
    | ok strings =>
        rw [hs] at hstore
        exact iff_of_true hstore ⟨strings, rfl⟩
  have hvalue (s : EvfParam × Option CString) :
      valueOffence P s = none ↔ ∃ str, s.2 = some str ∧ Accepts P s.1 str := by
    obtain ⟨param, str⟩ := s
    cases str with
    | none => simp [valueOffence]
    | some str =>
        cases hval : loadValue P param str <;> simp [valueOffence, Accepts, hval]
  rw [offences, List.append_eq_nil_iff, List.filterMap_eq_nil_iff, hnames]
  simp only [hvalue]
  constructor
  · rintro ⟨hdeclared, honce, hvalues⟩
    exact ⟨⟨hdeclared, honce⟩, hvalues⟩
  · rintro ⟨⟨hdeclared, honce⟩, hvalues⟩
    exact ⟨hdeclared, honce, hvalues⟩

theorem forall₂_getElem? {α β : Type} {R : α → β → Prop} {l : List α} {m : List β} {i : Nat} {a : α}
    (h : List.Forall₂ R l m) (ha : l[i]? = some a) : ∃ b, m[i]? = some b ∧ R a b := by
  induction h generalizing i with
  | nil => cases ha
  | cons hab _ ih =>
      cases i with
      | zero =>
          cases ha
          exact ⟨_, rfl, hab⟩
      | succ i => exact ih ha

theorem valueOffences_nil {slots : List (EvfParam × Option CString)} {vals : List (Loaded P)}
    (h : List.Forall₂ (fun s val => ∃ str, s.2 = some str ∧ loadValue P s.1 str = .ok val) slots vals) :
    slots.filterMap (valueOffence P) = [] := by
  induction h with
  | nil => rfl
  | cons hs _ ih =>
      rename_i s val slots vals _
      obtain ⟨param, value⟩ := s
      obtain ⟨str, rfl, hload⟩ := hs
      rw [List.filterMap_cons_none, ih]
      simp only [valueOffence, hload]

theorem evfLoadParamsCall_cases (err : Option EvfErr) (cfg : CString) (params : List EvfParam) :
    (offences P params (tokens cfg) = [] ∧ ∃ vals,
      evfLoadParamsCall P err cfg params = ⟨0, err, ⟨vals.length, numbered 0 vals⟩⟩ ∧
        List.Forall₂ (fun s val => ∃ str, s.2 = some str ∧ loadValue P s.1 str = .ok val)
          (slots params (tokens cfg)) vals) ∨
    (∃ o l, offences P params (tokens cfg) = o :: l ∧ ∃ e list,
      evfLoadParamsCall P err cfg params = ⟨-1, some e, list⟩ ∧ o.Described P e) := by
  have hparsed := parsedValues_offence (P := P) params cfg
  rw [evfLoadParamsCall]
  cases hp : parsedValues params cfg with
  | error e =>
      rw [hp] at hparsed
      obtain ⟨o, l, ho, hdescribed⟩ := hparsed
      exact Or.inr ⟨o, _, by rw [offences, ho, List.cons_append], e, _, rfl, hdescribed⟩
  | ok strings =>
      rw [hp] at hparsed
      obtain ⟨hnames, hlen, hfilled⟩ := hparsed
      have hloop := convertLoop_eq params strings (VaList.start (P := P))
      have hvalues := secondLoop_offence (P := P) hlen
      rw [hfilled] at hvalues
      rw [offences, hnames, List.nil_append]
      cases hs : secondLoop P params strings with
      | error e =>
          rw [hs] at hloop hvalues
          obtain ⟨o, l, ho, hdescribed⟩ := hvalues
          refine Or.inr ⟨o, l, ho, e, (convertLoop P params strings VaList.start).2, ?_, hdescribed⟩
          have hpair : convertLoop P params strings VaList.start =
              (.error e, (convertLoop P params strings VaList.start).2) := Prod.ext hloop rfl
          simp only
          rw [hpair]
      | ok vals =>
          rw [hs] at hloop hvalues
          refine Or.inl ⟨valueOffences_nil hvalues, vals, ?_, hvalues⟩
          replace hloop : convertLoop P params strings VaList.start = (.ok (), ⟨0 + vals.length, [] ++ numbered 0 vals⟩) :=
            hloop
          simp only [hloop, Nat.zero_add, List.nil_append]

variable {err : Option EvfErr}

theorem ret_eq_zero_iff : (evfLoadParamsCall P err cfg params).ret = 0 ↔ Acceptable P params (tokens cfg) := by
  rw [acceptable_iff]
  rcases evfLoadParamsCall_cases (P := P) err cfg params with
    ⟨hnil, vals, hcall, -⟩ | ⟨o, l, ho, e, list, hcall, -⟩
  · rw [hcall]
    exact iff_of_true rfl hnil
  · have hne : (-1 : Int32) ≠ 0 := by decide
    rw [hcall]
    exact iff_of_false hne (by rw [ho]; simp)

theorem stored_of_acceptable (h : Acceptable P params (tokens cfg)) :
    (evfLoadParamsCall P err cfg params).list.taken = params.length ∧
      ∀ i s, (slots params (tokens cfg))[i]? = some s →
        ∃ str val, s.2 = some str ∧ loadValue P s.1 str = .ok val ∧
          (evfLoadParamsCall P err cfg params).list.storedIn i = [.loaded val] := by
  rw [acceptable_iff] at h
  rcases evfLoadParamsCall_cases (P := P) err cfg params with
    ⟨-, vals, hcall, hvals⟩ | ⟨o, l, ho, -⟩
  · rw [hcall]
    refine ⟨by simpa [slots] using hvals.length_eq.symm, fun i s hs => ?_⟩
    obtain ⟨val, hval, str, hstr, hload⟩ := forall₂_getElem? hvals hs
    refine ⟨str, val, hstr, hload, ?_⟩
    have hfilter := filter_numbered (k := 0) hval
    rw [Nat.zero_add] at hfilter
    rw [VaList.storedIn, hfilter]
    rfl
  · rw [ho] at h
    cases h

theorem refused_of_not_acceptable (h : ¬ Acceptable P params (tokens cfg)) :
    (evfLoadParamsCall P err cfg params).ret = -1 ∧ ∃ o l e, offences P params (tokens cfg) = o :: l ∧
      (evfLoadParamsCall P err cfg params).err = some e ∧ o.Described P e := by
  rw [acceptable_iff] at h
  rcases evfLoadParamsCall_cases (P := P) err cfg params with
    ⟨hnil, -⟩ | ⟨o, l, ho, e, list, hcall, hdescribed⟩
  · exact absurd hnil h
  · rw [hcall]
    exact ⟨rfl, o, l, e, ho, rfl, hdescribed⟩

/-- The first offence is reported; without one every variable is written once, with the value that is its own. -/
theorem evfLoadParamsCall_spec (P : Platform) (err : Option EvfErr) (cfg : CString) (params : List EvfParam) :
    ((evfLoadParamsCall P err cfg params).ret = 0 ↔ Acceptable P params (tokens cfg)) ∧
    ((evfLoadParamsCall P err cfg params).ret = 0 →
      (evfLoadParamsCall P err cfg params).list.taken = params.length ∧
        ∀ i s, (slots params (tokens cfg))[i]? = some s →
          ∃ str val, s.2 = some str ∧ loadValue P s.1 str = .ok val ∧
            (evfLoadParamsCall P err cfg params).list.storedIn i = [.loaded val]) ∧
    ((evfLoadParamsCall P err cfg params).ret ≠ 0 →
      (evfLoadParamsCall P err cfg params).ret = -1 ∧ ∃ o l e,
        offences P params (tokens cfg) = o :: l ∧ (evfLoadParamsCall P err cfg params).err = some e ∧
          o.Described P e) := by
  refine ⟨ret_eq_zero_iff, fun h => stored_of_acceptable (ret_eq_zero_iff.mp h), fun h => ?_⟩
  exact refused_of_not_acceptable fun haccept => h (ret_eq_zero_iff.mpr haccept)

end Evfilter.Param
