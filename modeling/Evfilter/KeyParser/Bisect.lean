import Evfilter.KeyParser.Search
import Evfilter.Lib.Comp

/-!
# The search on any table

The loop of `keyparser_getkey` with every access to the table checked. It moves a bound to the middle and not past it,
so it is over when neither bound moves. The sums of the bounds are less than twice the number of names, which an `int`
is wide enough for in tables of up to 2^30 names. In a longer table the search for a name behind all others goes
outside.
-/

namespace Evfilter.KeyParser
open Lib Comp

/-- `key_names`, `key_values` and `key_count`. Nothing may be read from `count` on. -/
structure NameTable where
  count : Nat
  names : Nat → CString
  values : Nat → Int32

inductive Fault
  | outside (i : Int)

namespace NameTable

def read {α : Type} (T : NameTable) (array : Nat → α) (i : Int) : Except Fault α :=
  if 0 ≤ i ∧ i < T.count then .ok (array i.toNat) else .error (.outside i)

/-- Each name comes before the next ones, ignoring case. -/
def Increasing (T : NameTable) : Prop :=
  ∀ i j, i < j → j < T.count → CString.strcasecmp (T.names i) (T.names j) < 0

/-- The result of a linear search. -/
def Finds (T : NameTable) (name : CString) (value : Int32) : Prop :=
  (∀ i < T.count, (T.names i).fold = name.fold → value = T.values i) ∧
    ((∀ i < T.count, (T.names i).fold ≠ name.fold) → value = -1)

end NameTable

/-- `(left+right)/2` -/
def middle (left right : Int32) : Int32 := (left + right) / 2

section Loop

variable (T : NameTable) (name : CString)

/-- The body of the loop and its condition. -/
def getkeyTurn (s : Int32 × Int32) : Except Fault ((Int32 × Int32) ⊕ Int32) := do
  let entry ← T.read T.names (middle s.1 s.2).toInt
  if CString.strcasecmp name entry = 0 then
    let value ← T.read T.values (middle s.1 s.2).toInt
    .ok (.inr value)
  else
    let moved := if 0 < CString.strcasecmp name entry then (middle s.1 s.2, s.2) else (s.1, middle s.1 s.2)
    if moved.1 ≠ s.1 ∨ moved.2 ≠ s.2 then .ok (.inl moved) else .ok (.inr (-1))

def getkey : Comp Fault Int32 := loop (fun s => done (getkeyTurn T name s)) (0, Int32.ofNat T.count)

end Loop

variable {T : NameTable} {name : CString} {left right : Int32} {l r i : Nat}

/-! ## The middle -/

theorem middle_exact (hl : left.toInt = l) (hr : right.toInt = r) (hsum : l + r < 2 ^ 31) :
    (middle left right).toInt = ((l + r) / 2 : Nat) := by
  have hadd : (left + right).toInt = left.toInt + right.toInt := by
    rw [Int32.toInt_add]
    exact Int.bmod_eq_of_le (by omega) (by omega)
  rw [middle, Int32.toInt_div_of_ne_right _ _ (by decide), hadd, hl, hr]
  exact (Int.tdiv_eq_ediv_of_nonneg (by omega)).trans (by change ((l : Int) + r) / 2 = _; omega)

/-- Half of a sum that does not fit is negative. -/
theorem middle_wraps (hl : left.toInt = l) (hr : right.toInt = r) (hsum : 2 ^ 31 ≤ l + r) (hlt : l + r + 2 < 2 ^ 32) :
    (middle left right).toInt < 0 := by
  have hadd : (left + right).toInt = left.toInt + right.toInt - 2 ^ 32 := by
    rw [Int32.toInt_add, hl, hr, ← Int.sub_bmod_right]
    exact Int.bmod_eq_of_le (by omega) (by omega)
  rw [middle, Int32.toInt_div_of_ne_right _ _ (by decide), hadd, hl, hr]
  have hneg : (l : Int) + r - 2 ^ 32 = -((2 : Int) ^ 32 - l - r) := by omega
  change ((l : Int) + r - 2 ^ 32).tdiv 2 < 0
  rw [hneg, Int.neg_tdiv, Int.tdiv_eq_ediv_of_nonneg (by omega)]
  omega

/-! ## The loop and the recursion -/

theorem read_middle {α : Type} {array : Nat → α} {j : Int} (hj : j = (i : Nat)) (hi : i < T.count) :
    T.read array j = .ok (array i) := by
  subst hj
  rw [NameTable.read, if_pos ⟨by omega, by omega⟩, Int.toNat_natCast]

variable (name) in
theorem getkeyTurn_eq (hl : left.toInt = l) (hr : right.toInt = r) (hsum : l + r < 2 ^ 31) (hlt : l < T.count)
    (hle : r ≤ T.count) : getkeyTurn T name (left, right) =
      if CString.strcasecmp name (T.names ((l + r) / 2)) = 0 then .ok (.inr (T.values ((l + r) / 2)))
      else if 0 < CString.strcasecmp name (T.names ((l + r) / 2)) then
        if (l + r) / 2 = l then .ok (.inr (-1)) else .ok (.inl (middle left right, right))
      else if (l + r) / 2 = r then .ok (.inr (-1)) else .ok (.inl (left, middle left right)) := by
  have hmiddle := middle_exact hl hr hsum
  have hin : (l + r) / 2 < T.count := by omega
  have hleft : middle left right ≠ left ↔ ¬ (l + r) / 2 = l :=
    not_congr ⟨fun h => by rw [h, hl] at hmiddle; omega, fun h => Int32.toInt.inj (by rw [hmiddle, hl, h])⟩
  have hright : middle left right ≠ right ↔ ¬ (l + r) / 2 = r :=
    not_congr ⟨fun h => by rw [h, hr] at hmiddle; omega, fun h => Int32.toInt.inj (by rw [hmiddle, hr, h])⟩
  simp only [getkeyTurn, read_middle hmiddle hin, ok_bind]
  split
  · rfl
  · split
    · by_cases h : (l + r) / 2 = l
      · rw [if_pos h, if_neg (by simpa [h] using hleft)]
      · rw [if_neg h, if_pos (Or.inl (hleft.mpr h))]
    · by_cases h : (l + r) / 2 = r
      · rw [if_pos h, if_neg (by simpa [h] using hright)]
      · rw [if_neg h, if_pos (Or.inr (hright.mpr h))]

/-- What the loop comes to for the index that has been found. -/
def NameTable.result (T : NameTable) (found : Option Nat) : Int32 := (found.map T.values).getD (-1)

theorem loop_bisect (hcount : T.count ≤ 2 ^ 30) (hl : left.toInt = l) (hr : right.toInt = r) (hlt : l < T.count)
    (hle : r ≤ T.count) : (loop (fun s => done (getkeyTurn T name s)) (left, right)).Yields
      (.ok (T.result (bisect (fun i => CString.strcasecmp name (T.names i)) l r))) := by
  fun_induction bisect (fun i => CString.strcasecmp name (T.names i)) l r generalizing left right with
  | case1 l r hzero =>
      have hturn := getkeyTurn_eq name hl hr (by omega) hlt hle
      rw [if_pos hzero] at hturn
      exact (same_loop_inr (congrArg done hturn) _).mpr (yields_pure.mpr rfl)
  | case2 l r hne hpos hmid =>
      have hturn := getkeyTurn_eq name hl hr (by omega) hlt hle
      rw [if_neg hne, if_pos hpos, if_pos hmid] at hturn
      exact (same_loop_inr (congrArg done hturn) _).mpr (yields_pure.mpr rfl)
  | case3 l r hne hpos hmid ih =>
      have hturn := getkeyTurn_eq name hl hr (by omega) hlt hle
      rw [if_neg hne, if_pos hpos, if_neg hmid] at hturn
      exact (same_loop_inl (congrArg done hturn) _).mpr (ih (middle_exact hl hr (by omega)) hr (by omega) hle)
  | case4 l r hne hpos hmid =>
      have hturn := getkeyTurn_eq name hl hr (by omega) hlt hle
      rw [if_neg hne, if_neg hpos, if_pos hmid] at hturn
      exact (same_loop_inr (congrArg done hturn) _).mpr (yields_pure.mpr rfl)
  | case5 l r hne hpos hmid ih =>
      have hturn := getkeyTurn_eq name hl hr (by omega) hlt hle
      rw [if_neg hne, if_neg hpos, if_neg hmid] at hturn
      exact (same_loop_inl (congrArg done hturn) _).mpr (ih hl (middle_exact hl hr (by omega)) hlt (by omega))

theorem toInt_ofNat {n : Nat} (hn : n < 2 ^ 31) : (Int32.ofNat n).toInt = n := Int32.toInt_ofNat_of_lt hn

variable (name) in
theorem getkey_bisect (hpos : 1 ≤ T.count) (hcount : T.count ≤ 2 ^ 30) : (getkey T name).Yields
    (.ok (T.result (bisect (fun i => CString.strcasecmp name (T.names i)) 0 T.count))) :=
  loop_bisect hcount rfl (toInt_ofNat (by omega)) hpos (Nat.le_refl _)

/-! ## Tables that are too long -/

/-- The left bound goes up until the sum of the bounds does not fit. -/
theorem loop_outside (hname : ∀ i < T.count, 0 < CString.strcasecmp name (T.names i)) (hlong : 2 ^ 30 < T.count)
    (hmax : T.count < 2 ^ 31) (hl : left.toInt = l) (hr : right.toInt = T.count) (hlt : l < T.count) :
    ∃ i < 0, (loop (fun s => done (getkeyTurn T name s)) (left, right)).Yields (.error (.outside i)) := by
  induction hk : T.count - l using Nat.strong_induction_on generalizing l left with | _ k ih =>
  by_cases hsum : 2 ^ 31 ≤ l + T.count
  · have hneg := middle_wraps hl hr hsum (by omega)
    refine ⟨_, hneg, (same_loop_error (congrArg done ?_) _).mpr (yields_fault.mpr rfl)⟩
    simp only [getkeyTurn, NameTable.read]
    rw [if_neg fun h => absurd h.1 (by omega)]
    rfl
  · have hturn := getkeyTurn_eq name hl hr (by omega) hlt (Nat.le_refl _)
    have hpos := hname ((l + T.count) / 2) (by omega)
    rw [if_neg (Int.ne_of_gt hpos), if_pos hpos, if_neg (by omega)] at hturn
    obtain ⟨i, hi, hyields⟩ := ih (T.count - (l + T.count) / 2) (by omega) (middle_exact hl hr (by omega)) (by omega) rfl
    exact ⟨i, hi, (same_loop_inl (congrArg done hturn) _).mpr hyields⟩

theorem lt_append {s t : List UInt8} (ht : [] < t) : s < s ++ t := by
  have hlt : s ++ [] < s ++ t := List.append_left_lt ht
  rwa [List.append_nil] at hlt

/-- A name behind all names of the table. -/
def NameTable.behind (T : NameTable) : CString := (T.names (T.count - 1)).append (CString.literal "a")

theorem behind_pos (hpos : 1 ≤ T.count) (hsorted : T.Increasing) :
    ∀ i < T.count, 0 < CString.strcasecmp T.behind (T.names i) := by
  intro i hi
  have hlast : (T.names (T.count - 1)).fold < T.behind.fold := by
    have hfold : T.behind.fold = (T.names (T.count - 1)).fold ++ (CString.literal "a").fold := List.map_append
    rw [hfold]
    exact lt_append (by decide)
  refine CString.strcasecmp_pos.mpr ?_
  rcases Nat.lt_or_eq_of_le (Nat.le_sub_one_of_lt hi) with hlt | rfl
  · exact List.lt_trans (CString.strcasecmp_neg.mp (hsorted i _ hlt (by omega))) hlast
  · exact hlast

theorem getkey_outside (hpos : 1 ≤ T.count) (hsorted : T.Increasing) (hlong : 2 ^ 30 < T.count)
    (hmax : T.count < 2 ^ 31) : ∃ i < 0, (getkey T T.behind).Yields (.error (.outside i)) :=
  loop_outside (behind_pos hpos hsorted) hlong hmax rfl (toInt_ofNat hmax) hpos

/-! ## Names in order -/

/-- The index that is sought stays between the bounds. -/
theorem bisect_found (cmp : Nat → Int) (hzero : cmp i = 0) (hbelow : ∀ j < i, 0 < cmp j)
    (habove : ∀ j, i < j → j < T.count → cmp j < 0) (hl : l ≤ i) (hr : i < r) (hle : r ≤ T.count) :
    bisect cmp l r = some i := by
  have hside : ∀ j < T.count, (cmp j = 0 → j = i) ∧ (0 < cmp j → j < i) ∧ (cmp j < 0 → i < j) := by
    intro j hj
    rcases Nat.lt_trichotomy j i with h | rfl | h
    · have := hbelow j h
      omega
    · omega
    · have := habove j h hj
      omega
  fun_induction bisect cmp l r with
  | case1 l r hmid => exact congrArg some ((hside _ (by omega)).1 hmid)
  | case2 l r hne hpos hmid =>
      have := (hside _ (by omega)).2.1 hpos
      omega
  | case3 l r hne hpos hmid ih =>
      have := (hside _ (by omega)).2.1 hpos
      exact ih (by omega) hr hle
  | case4 l r hne hpos hmid => omega
  | case5 l r hne hpos hmid ih =>
      have := (hside ((l + r) / 2) (by omega)).2.2 (by omega)
      exact ih hl this (by omega)

theorem result_finds (hcount : 1 ≤ T.count) (hsorted : T.Increasing) :
    T.Finds name (T.result (bisect (fun i => CString.strcasecmp name (T.names i)) 0 T.count)) := by
  constructor
  · intro i hi hname
    have hless : ∀ {j k}, j < k → k < T.count → (T.names j).fold < (T.names k).fold :=
      fun hjk hk => CString.strcasecmp_neg.mp (hsorted _ _ hjk hk)
    have hfound := bisect_found (T := T) (fun i => CString.strcasecmp name (T.names i))
      (CString.strcasecmp_eq_zero.mpr hname.symm)
      (fun j hj => CString.strcasecmp_pos.mpr (hname ▸ hless hj hi))
      (fun j hij hj => CString.strcasecmp_neg.mpr (hname ▸ hless hij hj)) (Nat.zero_le i) hi (Nat.le_refl _)
    rw [hfound]
    rfl
  · intro hnone
    cases hsearch : bisect (fun i => CString.strcasecmp name (T.names i)) 0 T.count with
    | none => rfl
    | some i =>
        have hi := bisect_lt hsearch hcount (Nat.le_refl _)
        exact absurd (CString.strcasecmp_eq_zero.mp (bisect_some hsearch)).symm (hnone i hi)

/-- The loop ends, reads only inside the table, and does what a linear search does. -/
theorem getkey_finds (hpos : 1 ≤ T.count) (hcount : T.count ≤ 2 ^ 30) (hsorted : T.Increasing) (name : CString) :
    (getkey T name).Returns (T.Finds name) :=
  ⟨_, getkey_bisect name hpos hcount, result_finds hpos hsorted⟩

/-- It does so for every name just if the table has no more than 2^30 names. -/
theorem getkey_finds_iff (T : NameTable) (hpos : 1 ≤ T.count) (hmax : T.count < 2 ^ 31) (hsorted : T.Increasing) :
    (∀ name, (getkey T name).Returns (T.Finds name)) ↔ T.count ≤ 2 ^ 30 := by
  constructor
  · intro h
    by_contra hlong
    obtain ⟨i, -, hfault⟩ := getkey_outside hpos hsorted (Nat.lt_of_not_le hlong) hmax
    obtain ⟨value, hvalue, -⟩ := h T.behind
    cases hfault.unique hvalue
  · exact fun hcount name => getkey_finds hpos hcount hsorted name

def threeNames : NameTable where
  count := 3
  names := fun i => CString.literal (if i = 0 then "Btn_A" else if i = 1 then "KEY_A" else "key_b")
  values := fun i => if i = 0 then 304 else if i = 1 then 30 else 48

theorem getkey_threeNames :
    (∀ name, (getkey threeNames name).Returns (threeNames.Finds name)) ↔ threeNames.count ≤ 2 ^ 30 := by
  have hpairs : ∀ j < 3, ∀ i < j, CString.strcasecmp (threeNames.names i) (threeNames.names j) < 0 := by decide
  exact getkey_finds_iff threeNames (by decide) (by decide) fun i j hij hj => hpairs j hj i hij

/-- As many names as an `int` can count. The name at `i` is `i` letters, so that each is the end of the next one. -/
def longTable : NameTable where
  count := 2 ^ 31 - 1
  names := fun i => ⟨List.replicate i 97, fun h => absurd (List.eq_of_mem_replicate h) (by decide)⟩
  values := fun _ => 0

theorem longTable_increasing : longTable.Increasing := by
  intro i j hij _
  have hfold : ∀ k, (longTable.names k).fold = List.replicate k 97 := fun k => List.map_replicate
  rw [CString.strcasecmp_neg, hfold, hfold]
  obtain ⟨k, rfl⟩ := Nat.exists_eq_add_of_lt hij
  rw [Nat.add_assoc, ← List.replicate_append_replicate]
  exact lt_append (List.nil_lt_cons ..)

/-- The second sum is `INT_MAX / 2 + INT_MAX`. -/
theorem not_getkey_finds : ¬ ∀ T : NameTable, 1 ≤ T.count → T.count < 2 ^ 31 → T.Increasing →
    ∀ name, (getkey T name).Returns (T.Finds name) := by
  intro h
  obtain ⟨i, -, hfault⟩ := getkey_outside (T := longTable) (by decide) longTable_increasing (by decide) (by decide)
  obtain ⟨value, hvalue, -⟩ := h longTable (by decide) (by decide) longTable_increasing longTable.behind
  cases hfault.unique hvalue

/-- The table of the library, which is not quite in order. -/
def keyTable (keyValues : Nat → Int32) : NameTable := ⟨keyCount, keyName, keyValues⟩

theorem getkey_keyTable (keyValues : Nat → Int32) (name : CString) :
    (getkey (keyTable keyValues) name).Yields (.ok (keyparserGetkey keyValues name)) := by
  have hyields := getkey_bisect name (T := keyTable keyValues) (show 1 ≤ keyCount by decide)
    (show keyCount ≤ 2 ^ 30 by decide)
  have hresult : (keyTable keyValues).result (search name) = keyparserGetkey keyValues name := by
    unfold keyparserGetkey NameTable.result
    cases search name <;> rfl
  rw [← hresult]
  exact hyields

end Evfilter.KeyParser
