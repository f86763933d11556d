import Evfilter.KeyParser.Table

/-!
# Looking up keys by name and by value

`key_parser.c`. The search takes the table for sorted by `strcasecmp`. It is, up to ten entries, and so the
comparisons made for an entry are those of the places where the entries belong.
-/

namespace Evfilter.KeyParser
open Lib

/-- `do { … } while (left != oleft || right != oright);`, where the sign of `cmp i` says on which side of the entry
`i` to go on. -/
def bisect (cmp : Nat → Int) (left right : Nat) : Option Nat :=
  if cmp ((left + right) / 2) = 0 then some ((left + right) / 2)
  else if 0 < cmp ((left + right) / 2) then
    if (left + right) / 2 = left then none else bisect cmp ((left + right) / 2) right
  else
    if (left + right) / 2 = right then none else bisect cmp left ((left + right) / 2)
termination_by (right - left) + (left - right)

def search (name : CString) : Option Nat := bisect (fun i => CString.strcasecmp name (keyName i)) 0 keyCount

/-- The parameter is `key_values`. -/
def keyparserGetkey (keyValues : Nat → Int32) (name : CString) : Int32 :=
  match search name with
  | some i => keyValues i
  | none => -1

def keyparserGetname (keyValues : Nat → Int32) (i : Int32) : Option CString :=
  ((List.range keyCount).find? fun j => keyValues j = i).map keyName

/-! ## The search -/

variable {cmp cmp' : Nat → Int} {left right n i : Nat}

theorem bisect_some (h : bisect cmp left right = some i) : cmp i = 0 := by
  fun_induction bisect cmp left right with
  | case1 left right hzero => exact Option.some.inj h ▸ hzero
  | case2 => cases h
  | case3 left right hne hpos hmid ih => exact ih h
  | case4 => cases h
  | case5 left right hne hpos hmid ih => exact ih h

theorem bisect_lt (h : bisect cmp left right = some i) (hl : left < n) (hr : right ≤ n) : i < n := by
  fun_induction bisect cmp left right with
  | case1 left right hzero =>
      have := Option.some.inj h
      omega
  | case2 => cases h
  | case3 left right hne hpos hmid ih => exact ih h (by omega) hr
  | case4 => cases h
  | case5 left right hne hpos hmid ih => exact ih h hl (by omega)

/-- Only the signs of the comparisons matter. -/
theorem bisect_congr (hl : left < n) (hr : right ≤ n)
    (hcmp : ∀ i < n, (cmp i = 0 ↔ cmp' i = 0) ∧ (0 < cmp i ↔ 0 < cmp' i)) :
    bisect cmp left right = bisect cmp' left right := by
  fun_induction bisect cmp left right with
  | case1 left right hzero =>
      rw [bisect, if_pos ((hcmp _ (by omega)).1.mp hzero)]
  | case2 left right hne hpos hmid =>
      obtain ⟨h₀, h₁⟩ := hcmp ((left + right) / 2) (by omega)
      rw [bisect, if_neg (mt h₀.mpr hne), if_pos (h₁.mp hpos), if_pos hmid]
  | case3 left right hne hpos hmid ih =>
      obtain ⟨h₀, h₁⟩ := hcmp ((left + right) / 2) (by omega)
      rw [ih (by omega) hr, bisect.eq_def cmp' left right, if_neg (mt h₀.mpr hne), if_pos (h₁.mp hpos),
        if_neg hmid]
  | case4 left right hne hpos hmid =>
      obtain ⟨h₀, h₁⟩ := hcmp ((left + right) / 2) (by omega)
      rw [bisect, if_neg (mt h₀.mpr hne), if_neg (mt h₁.mpr hpos), if_pos hmid]
  | case5 left right hne hpos hmid ih =>
      obtain ⟨h₀, h₁⟩ := hcmp ((left + right) / 2) (by omega)
      rw [ih hl (by omega), bisect.eq_def cmp' left right, if_neg (mt h₀.mpr hne), if_neg (mt h₁.mpr hpos),
        if_neg hmid]

/-! ## The order of the table -/

/-- Where an entry would stand if the table were sorted by `strcasecmp`. -/
def place (i : Nat) : Nat :=
  if i ∈ [99, 100, 139, 140, 235, 396] then i + 1
  else if i ∈ [236, 397] then i - 1
  else if i ∈ [101, 141] then i - 2
  else i

/-- The entry that would stand there. -/
def entryAt (p : Nat) : Nat :=
  if p ∈ [100, 101, 140, 141, 236, 397] then p - 1
  else if p ∈ [235, 396] then p + 1
  else if p ∈ [99, 139] then p + 2
  else p

def sortedNames : List (List UInt8) := (List.range keyCount).map fun p => (keyName (entryAt p)).fold

theorem sortedNames_chain : sortedNames.IsChain (· < ·) := by decide +kernel

theorem entryAt_place (i : Nat) : entryAt (place i) = i := by
  simp only [entryAt, place, List.mem_cons, List.not_mem_nil, or_false]
  split_ifs <;> omega

theorem place_lt (hi : i < keyCount) : place i < keyCount := by
  change i < 418 at hi
  change _ < 418
  simp only [place, List.mem_cons, List.not_mem_nil, or_false]
  split_ifs <;> omega

theorem fold_lt {i j : Nat} (hj : j < keyCount) (h : place i < place j) :
    (keyName i).fold < (keyName j).fold := by
  have hpairs := List.isChain_iff_pairwise.mp sortedNames_chain
  have hlen : sortedNames.length = keyCount := by rw [sortedNames, List.length_map, List.length_range]
  have hp : place j < sortedNames.length := by rw [hlen]; exact place_lt hj
  have hlt := List.pairwise_iff_getElem.mp hpairs _ _ (h.trans hp) hp h
  simpa only [sortedNames, List.getElem_map, List.getElem_range, entryAt_place] using hlt

theorem strcasecmp_keyName {i j : Nat} (hj : j < keyCount) (hi : i < keyCount) :
    (CString.strcasecmp (keyName j) (keyName i) = 0 ↔ (place j : Int) - place i = 0) ∧
      (0 < CString.strcasecmp (keyName j) (keyName i) ↔ 0 < (place j : Int) - place i) := by
  rcases Nat.lt_trichotomy (place i) (place j) with h | h | h
  · have := CString.strcasecmp_pos.mpr (fold_lt hj h)
    omega
  · have hij : i = j := by rw [← entryAt_place i, ← entryAt_place j, h]
    subst hij
    have := CString.strcasecmp_eq_zero.mpr (rfl : (keyName i).fold = (keyName i).fold)
    omega
  · have := CString.strcasecmp_neg.mpr (fold_lt hi h)
    omega

/-- The entries that the search does not find. -/
abbrev lost : List Nat := [101, 140, 141, 236, 396]

theorem bisect_place : ∀ j < keyCount,
    bisect (fun i => place j - place i) 0 keyCount = if j ∈ lost then none else some j := by
  decide +kernel

/-! ## Keys by name -/

variable {name : CString} {j : Nat}

theorem search_some (h : search name = some i) : i < keyCount ∧ (keyName i).fold = name.fold :=
  ⟨bisect_lt h (by decide) (Nat.le_refl _), (CString.strcasecmp_eq_zero.mp (bisect_some h)).symm⟩

theorem search_entry (hj : j < keyCount) (h : (keyName j).fold = name.fold) :
    search name = if j ∈ lost then none else some j := by
  rw [← bisect_place j hj]
  refine bisect_congr (by decide) (Nat.le_refl _) fun i hi => ?_
  have hcmp := strcasecmp_keyName hj hi
  have hneg : CString.strcasecmp name (keyName i) < 0 ↔ CString.strcasecmp (keyName j) (keyName i) < 0 := by
    rw [CString.strcasecmp_neg, CString.strcasecmp_neg, h]
  have hpos : 0 < CString.strcasecmp name (keyName i) ↔ 0 < CString.strcasecmp (keyName j) (keyName i) := by
    rw [CString.strcasecmp_pos, CString.strcasecmp_pos, h]
  omega

theorem keyName_injective {i : Nat} (hi : i < keyCount) (hj : j < keyCount)
    (h : (keyName i).fold = (keyName j).fold) : i = j := by
  have hplace := (strcasecmp_keyName hj hi).1.mp (CString.strcasecmp_eq_zero.mpr h.symm)
  rw [← entryAt_place i, ← entryAt_place j]
  congr 1
  omega

/-- The name is, ignoring case, that of a key that is not found. -/
def Lost (name : CString) : Prop :=
  ∃ n ∈ ["Key_Brightness_Zero", "Key_Deletefile", "Key_Del_Line", "Key_Ins_Line", "Key_Videophone"],
    (CString.literal n).fold = name.fold

theorem lost_literals : lost.map keyName =
    ["Key_Brightness_Zero", "Key_Deletefile", "Key_Del_Line", "Key_Ins_Line", "Key_Videophone"].map
      CString.literal := by
  decide +kernel

theorem lost_iff_exists : Lost name ↔ ∃ i ∈ lost, (keyName i).fold = name.fold := by
  constructor
  · rintro ⟨n, hn, h⟩
    have hmem := List.mem_map_of_mem (f := CString.literal) hn
    rw [← lost_literals] at hmem
    obtain ⟨i, hi, hname⟩ := List.mem_map.mp hmem
    exact ⟨i, hi, by rw [hname, h]⟩
  · rintro ⟨i, hi, h⟩
    have hmem := List.mem_map_of_mem (f := keyName) hi
    rw [lost_literals] at hmem
    obtain ⟨n, hn, hname⟩ := List.mem_map.mp hmem
    exact ⟨n, hn, by rw [hname, h]⟩

theorem lost_iff (hj : j < keyCount) (h : (keyName j).fold = name.fold) : Lost name ↔ j ∈ lost := by
  rw [lost_iff_exists]
  constructor
  · rintro ⟨i, hi, hname⟩
    have hlt : ∀ i ∈ lost, i < keyCount := by decide
    rwa [← keyName_injective (hlt i hi) hj (hname.trans h.symm)]
  · exact fun hj => ⟨j, hj, h⟩

theorem search_eq_none (h : ∀ j < keyCount, (keyName j).fold ≠ name.fold) : search name = none := by
  cases hs : search name with
  | none => rfl
  | some i =>
      obtain ⟨hi, hfold⟩ := search_some hs
      exact absurd hfold (h i hi)

/-- The search agrees with a linear search over the table. -/
def Agrees (keyValues : Nat → Int32) (name : CString) : Prop :=
  (∀ j < keyCount, (keyName j).fold = name.fold → keyparserGetkey keyValues name = keyValues j) ∧
    ((∀ j < keyCount, (keyName j).fold ≠ name.fold) → keyparserGetkey keyValues name = -1)

variable {keyValues : Nat → Int32} {c : Int32}

/-- An entry's value is returned for its name, unless it is lost. -/
theorem getkey_entry (hvalues : ∀ j < keyCount, 0 ≤ keyValues j) (hj : j < keyCount)
    (h : (keyName j).fold = name.fold) : keyparserGetkey keyValues name = keyValues j ↔ ¬ Lost name := by
  rw [keyparserGetkey, search_entry hj h, lost_iff hj h]
  by_cases hl : j ∈ lost
  · rw [if_pos hl]
    refine iff_of_false (fun heq => ?_) (fun hn => hn hl)
    have hneg : (0 : Int32) ≤ -1 := by
      have := hvalues j hj
      rwa [← heq] at this
    exact absurd hneg (by decide)
  · rw [if_neg hl]
    exact iff_of_true rfl hl

theorem agrees_iff (hvalues : ∀ j < keyCount, 0 ≤ keyValues j) : Agrees keyValues name ↔ ¬ Lost name := by
  by_cases h : ∃ j < keyCount, (keyName j).fold = name.fold
  · obtain ⟨j, hj, hname⟩ := h
    rw [← getkey_entry hvalues hj hname]
    constructor
    · exact fun hagrees => hagrees.1 j hj hname
    · intro hkey
      refine ⟨fun i hi hiname => ?_, fun hnone => absurd hname (hnone j hj)⟩
      rw [keyName_injective hi hj (hiname.trans hname.symm), hkey]
  · have hnone : ∀ j < keyCount, (keyName j).fold ≠ name.fold := fun j hj hname => h ⟨j, hj, hname⟩
    refine iff_of_true ⟨fun j hj hname => absurd hname (hnone j hj), fun _ => ?_⟩ ?_
    · rw [keyparserGetkey, search_eq_none hnone]
    · rw [lost_iff_exists]
      rintro ⟨i, hi, hname⟩
      have hlt : ∀ i ∈ lost, i < keyCount := by decide
      exact hnone i (hlt i hi) hname

theorem getkey_getname (hvalues : ∀ j < keyCount, 0 ≤ keyValues j) (h : keyparserGetname keyValues c = some name) :
    keyparserGetkey keyValues name = c ↔ ¬ Lost name := by
  obtain ⟨j, hfind, rfl⟩ := Option.map_eq_some_iff.mp h
  have hj : j < keyCount := List.mem_range.mp (List.mem_of_find?_eq_some hfind)
  have hvalue : keyValues j = c := by simpa using List.find?_some hfind
  rw [← hvalue]
  exact getkey_entry hvalues hj rfl

/-- With the codes of `linux/input.h`, which are not negative, just the lost names are looked up wrong. -/
theorem keys_found_iff (keyValues : Nat → Int32) (hvalues : ∀ j < keyCount, 0 ≤ keyValues j) :
    (∀ name, Agrees keyValues name ↔ ¬ Lost name) ∧
      ∀ c name, keyparserGetname keyValues c = some name →
        (keyparserGetkey keyValues name = c ↔ ¬ Lost name) :=
  ⟨fun _ => agrees_iff hvalues, fun _ _ h => getkey_getname hvalues h⟩

/-- The value of KEY_INS_LINE, where its name stands in the table. -/
def insLineValue (j : Nat) : Int32 := if j = 236 then 450 else 0

theorem keys_found_ins_line :
    (∀ name, Agrees insLineValue name ↔ ¬ Lost name) ∧
      ∀ c name, keyparserGetname insLineValue c = some name →
        (keyparserGetkey insLineValue name = c ↔ ¬ Lost name) :=
  keys_found_iff insLineValue fun j _ => by
    unfold insLineValue
    split <;> decide

/-- KEY_INS_LINE has a name in the table, but the name has no key. -/
theorem ins_line_lost :
    ¬ Agrees insLineValue (CString.literal "Key_Ins_Line") ∧
      keyparserGetname insLineValue 450 = some (CString.literal "Key_Ins_Line") ∧
      keyparserGetkey insLineValue (CString.literal "Key_Ins_Line") = -1 := by
  have hkey : keyparserGetkey insLineValue (CString.literal "Key_Ins_Line") = -1 := by decide +kernel
  refine ⟨fun h => ?_, by decide +kernel, hkey⟩
  have hentry := h.1 236 (by decide) (by decide +kernel)
  rw [hkey] at hentry
  exact absurd hentry (by decide)

end Evfilter.KeyParser
