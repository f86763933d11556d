import Mathlib.Data.List.TakeWhile
import Mathlib.Data.UInt

/-!
# Strings of C

The bytes before the terminating NUL. Functions of `<string.h>` and `<strings.h>` are those of the "C"
locale.
-/

namespace Lib

structure CString where
  bytes : List UInt8
  nulFree : 0 ∉ bytes
deriving DecidableEq

namespace CString

/-- The string that a literal is read as. -/
def literal (s : String) : CString :=
  ⟨s.toUTF8.data.toList.takeWhile (· != 0), fun h => by
    simpa using List.mem_takeWhile_imp h⟩

def strlen (s : CString) : Nat := s.bytes.length

/-- What `strncpy(buf, s, n + 1); buf[n] = '\0';` leaves in `buf`. -/
def trunc (n : Nat) (s : CString) : CString :=
  ⟨s.bytes.take n, fun h => s.nulFree (List.mem_of_mem_take h)⟩

/-- The string that a pointer moved over some bytes of another one points to. -/
def drop (n : Nat) (s : CString) : CString :=
  ⟨s.bytes.drop n, fun h => s.nulFree (List.mem_of_mem_drop h)⟩

def takeWhile (test : UInt8 → Bool) (s : CString) : CString :=
  ⟨s.bytes.takeWhile test, fun h => s.nulFree (List.takeWhile_sublist _ |>.subset h)⟩

def dropWhile (test : UInt8 → Bool) (s : CString) : CString :=
  ⟨s.bytes.dropWhile test, fun h => s.nulFree (List.dropWhile_sublist _ |>.subset h)⟩

/-- `if (*s == c) s++;` -/
def accept (c : UInt8) (s : CString) : CString := if s.bytes.head? = some c then s.drop 1 else s

def tolower (c : UInt8) : UInt8 := if 65 ≤ c ∧ c ≤ 90 then c + 32 else c

/-- The terminating NUL compares as 0. -/
def casecmp : List UInt8 → List UInt8 → Int
  | [], [] => 0
  | [], b :: _ => -(tolower b).toNat
  | a :: _, [] => (tolower a).toNat
  | a :: s, b :: t =>
    if tolower a = tolower b then casecmp s t else (tolower a).toNat - (tolower b).toNat

def strcasecmp (s t : CString) : Int := casecmp s.bytes t.bytes

def strncasecmp (s t : CString) (n : Nat) : Int := strcasecmp (s.trunc n) (t.trunc n)

/-- `strcat` -/
def append (s t : CString) : CString :=
  ⟨s.bytes ++ t.bytes, fun h => (List.mem_append.mp h).elim s.nulFree t.nulFree⟩

/-- The string as `strcasecmp` sees it. -/
def fold (s : CString) : List UInt8 := s.bytes.map tolower

theorem ext {s t : CString} (h : s.bytes = t.bytes) : s = t := by
  cases s
  cases t
  cases h
  rfl

theorem strlen_append (s t : CString) : (s.append t).strlen = s.strlen + t.strlen := List.length_append

@[simp] theorem bytes_drop (n : Nat) (s : CString) : (s.drop n).bytes = s.bytes.drop n := rfl

@[simp] theorem bytes_takeWhile (test : UInt8 → Bool) (s : CString) :
    (s.takeWhile test).bytes = s.bytes.takeWhile test := rfl

@[simp] theorem bytes_dropWhile (test : UInt8 → Bool) (s : CString) :
    (s.dropWhile test).bytes = s.bytes.dropWhile test := rfl

theorem bytes_accept (c : UInt8) (s : CString) :
    (s.accept c).bytes = if s.bytes.head? = some c then s.bytes.tail else s.bytes := by
  unfold accept
  split
  · exact List.drop_one
  · rfl

theorem tolower_ne_zero {c : UInt8} (h : c ≠ 0) : tolower c ≠ 0 := by
  unfold tolower
  split
  · rename_i hc
    intro h0
    have h65 := UInt8.le_iff_toNat_le.mp hc.1
    have h90 := UInt8.le_iff_toNat_le.mp hc.2
    have := congrArg UInt8.toNat h0
    simp only [UInt8.toNat_add, UInt8.reduceToNat] at h65 h90 this
    omega
  · exact h

theorem toNat_pos {c : UInt8} (h : c ≠ 0) : 0 < c.toNat := by
  rcases Nat.eq_zero_or_pos c.toNat with h0 | h0
  · exact absurd (UInt8.toNat_inj.mp h0) h
  · exact h0

theorem casecmp_eq_zero {s t : List UInt8} (hs : 0 ∉ s) (ht : 0 ∉ t) :
    casecmp s t = 0 ↔ s.map tolower = t.map tolower := by
  induction s generalizing t with
  | nil =>
      cases t with
      | nil => simp [casecmp]
      | cons b t =>
          have hb := toNat_pos (tolower_ne_zero (c := b) (by rintro rfl; simp at ht))
          simp only [casecmp, List.map_nil, List.map_cons, reduceCtorEq, iff_false]
          omega
  | cons a s ih =>
      cases t with
      | nil =>
          have ha := toNat_pos (tolower_ne_zero (c := a) (by rintro rfl; simp at hs))
          simp only [casecmp, List.map_nil, List.map_cons, reduceCtorEq, iff_false]
          omega
      | cons b t =>
          simp only [casecmp, List.map_cons, List.cons.injEq]
          by_cases hab : tolower a = tolower b
          · simp only [hab, ↓reduceIte, true_and]
            exact ih (fun h => hs (List.mem_cons_of_mem _ h)) (fun h => ht (List.mem_cons_of_mem _ h))
          · simp only [hab, ↓reduceIte, false_and, iff_false]
            intro h0
            exact hab (UInt8.toNat_inj.mp (by omega))

/-- The order of `strcasecmp` is that of the folded strings. -/
theorem casecmp_neg {s t : List UInt8} (hs : 0 ∉ s) (ht : 0 ∉ t) :
    casecmp s t < 0 ↔ s.map tolower < t.map tolower := by
  induction s generalizing t with
  | nil =>
      cases t with
      | nil => simp [casecmp]
      | cons b t =>
          have hb := toNat_pos (tolower_ne_zero (c := b) (by rintro rfl; simp at ht))
          simp only [casecmp, List.map_nil, List.map_cons, List.nil_lt_cons, iff_true]
          omega
  | cons a s ih =>
      cases t with
      | nil =>
          simp only [casecmp, List.map_nil, List.map_cons, List.not_lt_nil, iff_false]
          omega
      | cons b t =>
          simp only [casecmp, List.map_cons, List.cons_lt_cons_iff]
          by_cases hab : tolower a = tolower b
          · simp only [hab, ↓reduceIte, true_and, UInt8.lt_irrefl, false_or]
            exact ih (fun h => hs (List.mem_cons_of_mem _ h)) (fun h => ht (List.mem_cons_of_mem _ h))
          · simp only [hab, ↓reduceIte, false_and, or_false, UInt8.lt_iff_toNat_lt]
            omega

theorem casecmp_swap (s t : List UInt8) : casecmp t s = -casecmp s t := by
  induction s generalizing t with
  | nil =>
      cases t with
      | nil => rfl
      | cons b t => simp [casecmp]
  | cons a s ih =>
      cases t with
      | nil => rfl
      | cons b t =>
          simp only [casecmp]
          by_cases hab : tolower a = tolower b
          · simp only [hab, ↓reduceIte]
            exact ih t
          · rw [if_neg hab, if_neg (Ne.symm hab)]
            omega

theorem strcasecmp_neg {s t : CString} : strcasecmp s t < 0 ↔ s.fold < t.fold :=
  casecmp_neg s.nulFree t.nulFree

theorem strcasecmp_pos {s t : CString} : 0 < strcasecmp s t ↔ t.fold < s.fold := by
  have h : strcasecmp t s = -strcasecmp s t := casecmp_swap s.bytes t.bytes
  rw [← strcasecmp_neg, h, Int.neg_neg_iff_pos]

theorem strcasecmp_eq_zero {s t : CString} : strcasecmp s t = 0 ↔ s.fold = t.fold :=
  casecmp_eq_zero s.nulFree t.nulFree

theorem strlen_trunc (n : Nat) (s : CString) : (s.trunc n).strlen = min n s.strlen :=
  List.length_take

theorem trunc_of_le {n : Nat} {s : CString} (h : s.strlen ≤ n) : s.trunc n = s := by
  obtain ⟨bytes, hb⟩ := s
  simp only [trunc, CString.mk.injEq]
  exact List.take_of_length_le h

theorem strlen_eq_of_fold {s t : CString} (h : s.fold = t.fold) : s.strlen = t.strlen := by
  simpa [fold, strlen] using congrArg List.length h

end CString

end Lib
