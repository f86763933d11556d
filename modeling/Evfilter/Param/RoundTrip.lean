import Evfilter.Param.Syntax

/-!
# Reading parameters back

The first loop on a rendering ends with each value where its name stands in the table.
-/

namespace Evfilter.Param
open Lib

/-- Ignoring case, no two parameters of the table have one name. -/
def Distinct (params : List EvfParam) : Prop := params.Pairwise fun p q => p.name.fold ≠ q.name.fold

def Declared (params : List EvfParam) (name : CString) : Prop := ∃ p ∈ params, p.name.fold = name.fold

instance (params : List EvfParam) : Decidable (Distinct params) :=
  inferInstanceAs (Decidable (params.Pairwise fun p q => p.name.fold ≠ q.name.fold))

instance (params : List EvfParam) (name : CString) : Decidable (Declared params name) :=
  inferInstanceAs (Decidable (∃ p ∈ params, p.name.fold = name.fold))

/-- The value that the pairs give to a parameter. -/
def valueIn (pairs : List (CString × CString)) (p : EvfParam) : Option CString :=
  (pairs.find? fun pair => pair.1.fold = p.name.fold).map Prod.snd

variable {params : List EvfParam} {name value : CString} {i : Nat}

/-! ## Positions -/

theorem find_some (h : evfilterFindPossition name params = some i) :
    ∃ hi : i < params.length, params[i].name.fold = name.fold := by
  obtain ⟨hi, heq, _⟩ := List.findIdx?_eq_some_iff_getElem.mp h
  exact ⟨hi, CString.strcasecmp_eq_zero.mp (by simpa using heq)⟩

theorem find_eq_none : evfilterFindPossition name params = none ↔ ¬ Declared params name := by
  rw [evfilterFindPossition, List.findIdx?_eq_none_iff]
  simp [Declared, CString.strcasecmp_eq_zero]

theorem set_declared {g : EvfParam → Option CString} (hd : Distinct params) (hi : i < params.length)
    (hname : params[i].name.fold = name.fold) (v : Option CString) :
    (params.map g).set i v = params.map fun p => if p.name.fold = name.fold then v else g p := by
  refine List.ext_getElem (by simp) fun j h₁ h₂ => ?_
  have hj : j < params.length := by simpa using h₂
  rw [List.getElem_set, List.getElem_map, List.getElem_map]
  by_cases hij : i = j
  · subst hij
    rw [if_pos rfl, if_pos hname]
  · rw [if_neg hij, if_neg]
    intro hjname
    have := List.pairwise_iff_getElem.mp hd
    rcases Nat.lt_or_gt_of_ne hij with hlt | hgt
    · exact this i j hi hj hlt (hname.trans hjname.symm)
    · exact this j i hj hi hgt (hjname.trans hname.symm)

/-! ## Storing -/

theorem valueIn_cons {pairs : List (CString × CString)} {p : EvfParam} :
    valueIn ((name, value) :: pairs) p = if name.fold = p.name.fold then some value else valueIn pairs p := by
  simp only [valueIn, List.find?_cons]
  split <;> simp_all

theorem store_declared {pairs : List (CString × CString)} {g : EvfParam → Option CString} (hd : Distinct params)
    (hdecl : ∀ pair ∈ pairs, Declared params pair.1) (hpairs : pairs.Pairwise fun x y => x.1.fold ≠ y.1.fold)
    (hfree : ∀ pair ∈ pairs, ∀ p ∈ params, p.name.fold = pair.1.fold → g p = none) :
    store params pairs (params.map g) = .ok (params.map fun p => (valueIn pairs p).or (g p)) := by
  induction pairs generalizing g with
  | nil => simp [store, valueIn]
  | cons pair pairs ih =>
      obtain ⟨name, value⟩ := pair
      obtain ⟨hname, hdecl⟩ := List.forall_mem_cons.mp hdecl
      obtain ⟨hfirst, hpairs⟩ := List.pairwise_cons.mp hpairs
      obtain ⟨hnone, hfree⟩ := List.forall_mem_cons.mp hfree
      cases hi : evfilterFindPossition name params with
      | none => exact absurd hname (find_eq_none.mp hi)
      | some i =>
          obtain ⟨hlt, hfold⟩ := find_some hi
          have hget : (params.map g).getD i none = none := by
            simpa [hlt] using hnone _ (List.getElem_mem hlt) hfold
          rw [store, hi]
          simp only [hget, Option.isSome_none, Bool.false_eq_true, ↓reduceIte]
          rw [set_declared hd hlt hfold, ih hdecl hpairs]
          · refine congrArg Except.ok (List.map_congr_left fun p _ => ?_)
            by_cases hp : p.name.fold = name.fold
            · have hlater : valueIn pairs p = none := by
                rw [valueIn, Option.map_eq_none_iff, List.find?_eq_none]
                intro x hx
                simpa using fun h : x.1.fold = p.name.fold => hfirst x hx (hp.symm.trans h.symm)
              rw [valueIn_cons, if_pos hp.symm, if_pos hp, hlater]
              rfl
            · rw [valueIn_cons, if_neg (Ne.symm hp), if_neg hp]
          · intro x hx p hp hpx
            rw [if_neg fun h => hfirst x hx (h.symm.trans hpx)]
            exact hfree x hx p hp hpx

theorem find_congr {other : CString} (h : name.fold = other.fold) :
    evfilterFindPossition name params = evfilterFindPossition other params := by
  rw [evfilterFindPossition, evfilterFindPossition]
  refine congrFun (congrArg List.findIdx? (funext fun p => ?_)) params
  rw [Bool.eq_iff_iff, beq_iff_eq, beq_iff_eq, CString.strcasecmp_eq_zero, CString.strcasecmp_eq_zero, h]

/-- A place that is free after another name has been stored. -/
theorem free_set_iff {values : List (Option CString)} {other : CString} (hlen : values.length = params.length)
    (hi : evfilterFindPossition name params = some i) :
    (∃ j, evfilterFindPossition other params = some j ∧ (values.set i (some value)).getD j none = none) ↔
      (∃ j, evfilterFindPossition other params = some j ∧ values.getD j none = none) ∧ name.fold ≠ other.fold := by
  obtain ⟨hlt, hname⟩ := find_some hi
  constructor
  · rintro ⟨j, hj, hfree⟩
    have hne : i ≠ j := by
      rintro rfl
      simp [hlen, hlt] at hfree
    rw [List.getD_eq_getElem?_getD, List.getElem?_set_ne hne, ← List.getD_eq_getElem?_getD] at hfree
    refine ⟨⟨j, hj, hfree⟩, fun hfold => hne ?_⟩
    rw [← find_congr hfold, hi] at hj
    exact Option.some.inj hj
  · rintro ⟨⟨j, hj, hfree⟩, hfold⟩
    obtain ⟨hlt', hother⟩ := find_some hj
    have hne : i ≠ j := by
      rintro rfl
      exact hfold (hname.symm.trans hother)
    refine ⟨j, hj, ?_⟩
    rw [List.getD_eq_getElem?_getD, List.getElem?_set_ne hne, ← List.getD_eq_getElem?_getD]
    exact hfree

/-- Whatever is stored already, pairs can be stored if their names are declared, are not stored and differ. -/
theorem store_ok_iff {pairs : List (CString × CString)} {values : List (Option CString)}
    (hlen : values.length = params.length) :
    (∃ strings, store params pairs values = .ok strings) ↔
      (∀ pair ∈ pairs, ∃ j, evfilterFindPossition pair.1 params = some j ∧ values.getD j none = none) ∧
        pairs.Pairwise fun x y => x.1.fold ≠ y.1.fold := by
  induction pairs generalizing values with
  | nil => simp [store]
  | cons pair pairs ih =>
      obtain ⟨name, value⟩ := pair
      rw [List.forall_mem_cons, List.pairwise_cons]
      cases hi : evfilterFindPossition name params with
      | none => simp [store, hi]
      | some i =>
          cases hget : values.getD i none with
          | some v =>
              rw [store, hi]
              simp only [hget, Option.isSome_some, ↓reduceIte]
              refine iff_of_false ?_ ?_
              · rintro ⟨strings, hstrings⟩
                cases hstrings
              · rintro ⟨⟨⟨j, hj, hfree⟩, -⟩, -⟩
                rw [← Option.some.inj hj, hget] at hfree
                cases hfree
          | none =>
              rw [store, hi]
              simp only [hget, Option.isSome_none, Bool.false_eq_true, ↓reduceIte]
              rw [ih (by rw [List.length_set, hlen])]
              simp only [free_set_iff hlen hi]
              constructor
              · rintro ⟨hpairs, hdiffer⟩
                exact ⟨⟨⟨i, rfl, hget⟩, fun pair h => (hpairs pair h).1⟩, fun pair h => (hpairs pair h).2, hdiffer⟩
              · rintro ⟨⟨-, hpairs⟩, hname, hdiffer⟩
                exact ⟨fun pair h => ⟨hpairs pair h, hname pair h⟩, hdiffer⟩

theorem store_start_iff {pairs : List (CString × CString)} :
    (∃ strings, store params pairs (params.map fun _ => none) = .ok strings) ↔
      (∀ pair ∈ pairs, Declared params pair.1) ∧ pairs.Pairwise fun x y => x.1.fold ≠ y.1.fold := by
  rw [store_ok_iff (List.length_map _)]
  refine and_congr_left fun _ => forall₂_congr fun pair _ => ?_
  have hnone (j : Nat) : (params.map fun _ => (none : Option CString)).getD j none = none := by
    rw [List.getD_eq_getElem?_getD, List.getElem?_map]
    cases params[j]? <;> rfl
  simp only [hnone, and_true]
  rw [← not_iff_not, ← find_eq_none, ← Option.isSome_iff_exists, Option.not_isSome_iff_eq_none]

/-- One pair more, whose name is not declared. -/
theorem store_undeclared {pairs : List (CString × CString)} {values : List (Option CString)}
    (h : ¬ Declared params name) : store params (pairs ++ [(name, value)]) values =
      (store params pairs values).bind fun _ => .error (.epname name) := by
  induction pairs generalizing values with
  | nil => simp [store, find_eq_none.mpr h, Except.bind]
  | cons pair pairs ih =>
      rw [List.cons_append, store, store]
      split
      · rfl
      · split
        · rfl
        · exact ih

/-- Every rendering of parameters that the table declares, none of them twice, is read back. -/
theorem parsed_rendering (params : List EvfParam) (r : Rendering) (cfg : CString) (hd : Distinct params)
    (hr : r.Spaced) (hcfg : cfg.bytes = r.text) (hdecl : ∀ w ∈ r, Declared params w.2.name)
    (honce : r.Pairwise fun v w => v.2.name.fold ≠ w.2.name.fold) :
    parsedValues params cfg = .ok (params.map (valueIn r.pairs)) := by
  rw [parsedValues_eq, tokens_rendering hr hcfg, store_declared hd]
  · simp
  · intro pair hpair
    obtain ⟨w, hw, rfl⟩ := List.mem_map.mp hpair
    exact hdecl w hw
  · exact List.pairwise_map.mpr honce
  · exact fun _ _ _ _ _ => rfl

/-- `ymod='1 2'`, a tab, `XMOD = 3` -/
def twoParameters : Rendering :=
  [([], { name := CString.literal "ymod", value := CString.literal "1 2", before := [], sign := true, after := [],
          quote := some singleQuote, name_word := by decide, before_spaces := by decide,
          after_spaces := by decide, separated := by decide, value_writable := by decide }),
    ([9], { name := CString.literal "XMOD", value := CString.literal "3", before := [32], sign := true,
            after := [32], quote := none, name_word := by decide, before_spaces := by decide,
            after_spaces := by decide, separated := by decide, value_writable := by decide })]

def threeParams : List EvfParam :=
  ["Xmod", "Ymod", "Samples"].map fun name => ⟨CString.literal name, .int, none, none⟩

theorem parsed_two_parameters :
    parsedValues threeParams (CString.literal "ymod='1 2'\tXMOD = 3") =
      .ok (threeParams.map (valueIn twoParameters.pairs)) :=
  parsed_rendering threeParams twoParameters _ (by decide) ⟨by decide, by decide⟩ (by decide) (by decide) (by decide)

/-- The third parameter is left for its default. -/
example : threeParams.map (valueIn twoParameters.pairs) =
    [some (CString.literal "3"), some (CString.literal "1 2"), none] := by decide

end Evfilter.Param
