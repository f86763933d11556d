import Evfilter.Lib.Strtol
import Mathlib.Data.Nat.Digits.Lemmas

/-!
# Integer numerals

How a number is written for `strtol` with base 0. It reads the numerals, each as a whole, and of the strings that
it reads to their end only the empty one is not a numeral.
-/

namespace Lib

inductive Radix
  | decimal
  | octal
  | hexadecimal (x : UInt8)
deriving DecidableEq

namespace Radix

def base : Radix → Nat
  | decimal => 10
  | octal => 8
  | hexadecimal _ => 16

def lead : Radix → List UInt8
  | decimal => []
  | octal => []
  | hexadecimal x => [48, x]

/-- A 0 at the start makes a number octal, and 0 alone is one. -/
def Proper : Radix → List UInt8 → Prop
  | decimal, digits => digits ≠ [] ∧ digits.head? ≠ some 48
  | octal, digits => digits.head? = some 48
  | hexadecimal x, digits => (x = 120 ∨ x = 88) ∧ digits ≠ []

instance : (radix : Radix) → (digits : List UInt8) → Decidable (radix.Proper digits)
  | decimal, digits => inferInstanceAs (Decidable (digits ≠ [] ∧ digits.head? ≠ some 48))
  | octal, digits => inferInstanceAs (Decidable (digits.head? = some 48))
  | hexadecimal x, digits => inferInstanceAs (Decidable ((x = 120 ∨ x = 88) ∧ digits ≠ []))

end Radix

structure Numeral where
  spaces : List UInt8
  sign : Option UInt8
  radix : Radix
  digits : List UInt8
  isspace_spaces : ∀ c ∈ spaces, isspace c = true
  sign_eq : sign = none ∨ sign = some 43 ∨ sign = some 45
  isDigit_digits : ∀ c ∈ digits, isDigit radix.base c = true
  proper : radix.Proper digits

namespace Numeral

def text (n : Numeral) : List UInt8 := n.spaces ++ (n.sign.toList ++ (n.radix.lead ++ n.digits))

def signValue (sign : Option UInt8) : Int := if sign = some 45 then -1 else 1

def value (n : Numeral) : Int := signValue n.sign * digitsValue n.radix.base n.digits

end Numeral

variable {s : CString} {radix : Radix} {digits : List UInt8} {c : UInt8}

/-! ## The parts of a number -/

theorem Radix.Proper.ne_nil (h : radix.Proper digits) : digits ≠ [] := by
  cases radix with
  | decimal => exact h.1
  | octal =>
      rintro rfl
      cases h
  | hexadecimal x => exact h.2

theorem digitValue_lt_of_le {base : Nat} (h : isDigit base c = true) (hb : base ≤ 16) : isDigit 16 c = true := by
  rw [isDigit, decide_eq_true_eq] at h ⊢
  omega

theorem toNat_of_isspace (h : isspace c = true) : c.toNat ≤ 32 := by
  rcases Bool.or_eq_true_iff.mp h with h | h
  · have hle : c.toNat ≤ 13 := UInt8.le_iff_toNat_le.mp (of_decide_eq_true (Bool.and_eq_true_iff.mp h).2)
    omega
  · rw [beq_iff_eq.mp h]
    decide

theorem toNat_of_isDigit (h : isDigit 16 c = true) : 48 ≤ c.toNat := by
  rw [isDigit, decide_eq_true_eq, digitValue] at h
  simp only [UInt8.le_iff_toNat_le, UInt8.reduceToNat] at h
  split at h
  · omega
  split at h
  · omega
  split at h
  · omega
  · omega

/-- A number starts with a digit, so with neither whitespace nor a sign. -/
theorem start_of_isDigit (h : isDigit 16 c = true) : isspace c = false ∧ c ≠ 43 ∧ c ≠ 45 := by
  have hge := toNat_of_isDigit h
  refine ⟨Bool.eq_false_iff.mpr fun hs => ?_, ?_, ?_⟩
  · have hle := toNat_of_isspace hs
    omega
  · rintro rfl
    exact absurd hge (by decide)
  · rintro rfl
    exact absurd hge (by decide)

theorem head_lead (hd : ∀ c ∈ digits, isDigit radix.base c = true) (hp : radix.Proper digits) :
    ∃ c l, radix.lead ++ digits = c :: l ∧ isDigit 16 c = true := by
  obtain ⟨d, l, rfl⟩ := List.exists_cons_of_ne_nil hp.ne_nil
  have hdigit := hd d List.mem_cons_self
  cases radix with
  | decimal => exact ⟨d, l, rfl, digitValue_lt_of_le hdigit (by decide)⟩
  | octal => exact ⟨d, l, rfl, digitValue_lt_of_le hdigit (by decide)⟩
  | hexadecimal x => exact ⟨48, x :: d :: l, rfl, by decide⟩

theorem splitSign_text {sign : Option UInt8} {l : List UInt8} (hs : sign = none ∨ sign = some 43 ∨ sign = some 45)
    (hl : ∀ b ∈ l.head?, b ≠ 43 ∧ b ≠ 45) (h : s.bytes = sign.toList ++ l) :
    (splitSign s).1 = Numeral.signValue sign ∧ (splitSign s).2.bytes = l := by
  rcases hs with rfl | rfl | rfl
  · rw [Option.toList_none, List.nil_append] at h
    have hplus : s.bytes.head? ≠ some 43 := fun hb => (hl 43 (h ▸ hb)).1 rfl
    have hminus : s.bytes.head? ≠ some 45 := fun hb => (hl 45 (h ▸ hb)).2 rfl
    rw [splitSign, if_neg hminus, CString.bytes_accept, if_neg hplus]
    exact ⟨rfl, h⟩
  · have hplus : s.bytes.head? = some 43 := by rw [h]; rfl
    have hminus : s.bytes.head? ≠ some 45 := by rw [hplus]; decide
    rw [splitSign, if_neg hminus, CString.bytes_accept, if_pos hplus, h]
    exact ⟨rfl, rfl⟩
  · have hminus : s.bytes.head? = some 45 := by rw [h]; rfl
    rw [splitSign, if_pos hminus, CString.bytes_drop, h]
    exact ⟨rfl, rfl⟩

theorem splitSign_spec (s : CString) :
    ∃ sign : Option UInt8, (sign = none ∨ sign = some 43 ∨ sign = some 45) ∧
      s.bytes = sign.toList ++ (splitSign s).2.bytes ∧ (splitSign s).1 = Numeral.signValue sign := by
  unfold splitSign
  split
  · rename_i hminus
    obtain ⟨l, hl⟩ := List.head?_eq_some_iff.mp hminus
    exact ⟨some 45, by simp, by simp [hl], rfl⟩
  · rw [CString.bytes_accept]
    split
    · rename_i hplus
      obtain ⟨l, hl⟩ := List.head?_eq_some_iff.mp hplus
      exact ⟨some 43, by simp, by simp [hl], rfl⟩
    · exact ⟨none, by simp, rfl, rfl⟩

/-- The three ways of `splitBase`. -/
theorem splitBase_cases (s : CString) :
    (∃ x d l, s.bytes = 48 :: x :: d :: l ∧ (x = 120 ∨ x = 88) ∧ isDigit 16 d = true ∧
      splitBase s = (16, s.drop 2)) ∨
    (s.bytes.head? = some 48 ∧ splitBase s = (8, s) ∧
      ∀ x d l, s.bytes = 48 :: x :: d :: l → ¬((x = 120 ∨ x = 88) ∧ isDigit 16 d = true)) ∨
    (s.bytes.head? ≠ some 48 ∧ splitBase s = (10, s)) := by
  unfold splitBase
  split
  · rename_i x d l hs
    split
    · rename_i hx
      exact Or.inl ⟨x, d, l, hs, hx.1, hx.2, rfl⟩
    · rename_i hx
      refine Or.inr (Or.inl ⟨by rw [hs]; rfl, rfl, fun x' d' l' hs' => ?_⟩)
      rw [hs] at hs'
      cases hs'
      exact hx
  · rename_i hshort hs
    refine Or.inr (Or.inl ⟨by rw [hs]; rfl, rfl, fun x d l h => ?_⟩)
    rw [hs] at h
    exact absurd (List.cons.inj h).2 (hshort x d l)
  · rename_i hs
    refine Or.inr (Or.inr ⟨fun hhead => ?_, rfl⟩)
    obtain ⟨l, hl⟩ := List.head?_eq_some_iff.mp hhead
    exact hs l hl

theorem splitBase_text (hd : ∀ c ∈ digits, isDigit radix.base c = true) (hp : radix.Proper digits)
    (h : s.bytes = radix.lead ++ digits) :
    (splitBase s).1 = radix.base ∧ (splitBase s).2.bytes = digits := by
  rcases splitBase_cases s with ⟨x, d, l, hs, hx, hdigit, heq⟩ | ⟨hs, heq, hlong⟩ | ⟨hs, heq⟩
  · rw [heq]
    rw [hs] at h
    cases radix with
    | decimal =>
        obtain rfl : 48 :: x :: d :: l = digits := h
        exact absurd rfl hp.2
    | octal =>
        obtain rfl : 48 :: x :: d :: l = digits := h
        have hx8 := hd x (by simp)
        rcases hx with rfl | rfl
        · exact absurd hx8 (by decide)
        · exact absurd hx8 (by decide)
    | hexadecimal y =>
        refine ⟨rfl, ?_⟩
        rw [CString.bytes_drop, hs]
        exact (List.cons.inj (List.cons.inj h).2).2
  · rw [heq]
    cases radix with
    | decimal =>
        obtain rfl : s.bytes = digits := h
        exact absurd hs hp.2
    | octal => exact ⟨rfl, h⟩
    | hexadecimal x =>
        obtain ⟨d, l, rfl⟩ := List.exists_cons_of_ne_nil hp.2
        exact absurd ⟨hp.1, hd d List.mem_cons_self⟩ (hlong x d l h)
  · rw [heq]
    cases radix with
    | decimal => exact ⟨rfl, h⟩
    | octal =>
        obtain rfl : s.bytes = digits := h
        exact absurd hp hs
    | hexadecimal x => exact absurd (by rw [h]; rfl) hs

theorem splitBase_spec (s : CString) :
    ∃ radix : Radix, s.bytes = radix.lead ++ (splitBase s).2.bytes ∧ (splitBase s).1 = radix.base ∧
      ((splitBase s).2.bytes ≠ [] → radix.Proper (splitBase s).2.bytes) := by
  rcases splitBase_cases s with ⟨x, d, l, hs, hx, hdigit, heq⟩ | ⟨hs, heq, -⟩ | ⟨hs, heq⟩
  · rw [heq, CString.bytes_drop, hs]
    exact ⟨.hexadecimal x, rfl, rfl, fun hne => ⟨hx, hne⟩⟩
  · rw [heq]
    exact ⟨.octal, rfl, rfl, fun _ => hs⟩
  · rw [heq]
    exact ⟨.decimal, rfl, rfl, fun hne => ⟨hne, hs⟩⟩

/-! ## Reading a number -/

theorem takeWhile_all {test : UInt8 → Bool} (h : ∀ c ∈ digits, test c = true) :
    digits.takeWhile test = digits ∧ digits.dropWhile test = [] :=
  ⟨List.takeWhile_eq_self_iff.mpr h, List.dropWhile_eq_nil_iff.mpr h⟩

/-- A numeral is read to its end, and cut to the nearest `long`. -/
theorem strtol_numeral {n : Numeral} (h : s.bytes = n.text) :
    (strtol s).1 = max longMin (min longMax n.value) ∧ (strtol s).2.bytes = [] := by
  obtain ⟨c, l, hstart, hc⟩ := head_lead n.isDigit_digits n.proper
  have hc := start_of_isDigit hc
  have hspace : (s.dropWhile isspace).bytes = n.sign.toList ++ (n.radix.lead ++ n.digits) := by
    rw [CString.bytes_dropWhile, h, Numeral.text, List.dropWhile_append_of_pos n.isspace_spaces]
    have hhead : ∀ b ∈ (n.sign.toList ++ (n.radix.lead ++ n.digits)).head?, isspace b = false := by
      rcases n.sign_eq with hs | hs | hs
      · simp [hs, hstart, hc.1]
      · simp [hs, show isspace 43 = false by decide]
      · simp [hs, show isspace 45 = false by decide]
    cases hrest : n.sign.toList ++ (n.radix.lead ++ n.digits) with
    | nil => rfl
    | cons b m => rw [List.dropWhile_cons, hhead b (by rw [hrest]; rfl), if_neg Bool.false_ne_true]
  obtain ⟨hsign, hbehind⟩ :=
    splitSign_text n.sign_eq (fun b hb => by rw [hstart] at hb; cases hb; exact hc.2) hspace
  obtain ⟨hbase, hdigits⟩ := splitBase_text n.isDigit_digits n.proper hbehind
  obtain ⟨htake, hdrop⟩ := takeWhile_all n.isDigit_digits
  have hne : n.digits ≠ [] := n.proper.ne_nil
  simp only [strtol, CString.bytes_takeWhile, CString.bytes_dropWhile, hbase, hdigits, htake, hne, ↓reduceIte,
    hsign, hdrop, and_true]
  rfl

/-- The other strings that are read to the end. -/
theorem numeral_of_strtol (hend : (strtol s).2.bytes = []) (hne : s.bytes ≠ []) : ∃ n : Numeral, n.text = s.bytes := by
  obtain ⟨sign, hsign, hsplit, -⟩ := splitSign_spec (s.dropWhile isspace)
  obtain ⟨radix, hlead, hbase, hproper⟩ := splitBase_spec (splitSign (s.dropWhile isspace)).2
  simp only [strtol, CString.bytes_takeWhile] at hend
  by_cases hdigits : (splitBase (splitSign (s.dropWhile isspace)).2).2.bytes.takeWhile
      (isDigit (splitBase (splitSign (s.dropWhile isspace)).2).1) = []
  · simp only [hdigits, ↓reduceIte] at hend
    exact absurd hend hne
  · simp only [hdigits, ↓reduceIte] at hend
    have hall := List.dropWhile_eq_nil_iff.mp hend
    rw [hbase] at hall
    have hbehind : (splitBase (splitSign (s.dropWhile isspace)).2).2.bytes ≠ [] := by
      intro hnil
      rw [hnil] at hdigits
      exact hdigits rfl
    refine ⟨{ spaces := s.bytes.takeWhile isspace, sign := sign, radix := radix, digits := _,
              isspace_spaces := fun c hc => List.mem_takeWhile_imp hc, sign_eq := hsign,
              isDigit_digits := hall, proper := hproper hbehind }, ?_⟩
    rw [Numeral.text, ← hlead, ← hsplit]
    exact List.takeWhile_append_dropWhile

theorem Numeral.text_ne_nil (n : Numeral) : n.text ≠ [] := by
  obtain ⟨c, l, hstart, -⟩ := head_lead n.isDigit_digits n.proper
  rw [text, hstart]
  simp

/-! ## Writing a number -/

def decimalDigit (d : Nat) : UInt8 := UInt8.ofNat (48 + d)

def decimalDigits (n : Nat) : List UInt8 := (Nat.digits 10 n).reverse.map decimalDigit

theorem decimalDigit_spec {d : Nat} (h : d < 10) :
    (decimalDigit d).toNat = 48 + d ∧ digitValue (decimalDigit d) = d ∧ (decimalDigit d = 48 ↔ d = 0) := by
  have hall : ∀ d < 10, (decimalDigit d).toNat = 48 + d ∧ digitValue (decimalDigit d) = d ∧
      (decimalDigit d = 48 ↔ d = 0) := by
    decide
  exact hall d h

theorem mem_decimalDigits {n : Nat} {c : UInt8} (h : c ∈ decimalDigits n) : ∃ d < 10, c = decimalDigit d := by
  obtain ⟨d, hd, rfl⟩ := List.mem_map.mp h
  exact ⟨d, Nat.digits_lt_base (by decide) (List.mem_reverse.mp hd), rfl⟩

theorem digitsValue_decimalDigits (n : Nat) : digitsValue 10 (decimalDigits n) = n := by
  have hvalue : ∀ d ∈ Nat.digits 10 n, digitValue (decimalDigit d) = d := fun d hd =>
    (decimalDigit_spec (Nat.digits_lt_base (by decide) hd)).2.1
  calc digitsValue 10 (decimalDigits n)
      = (Nat.digits 10 n).foldr (fun d m => digitValue (decimalDigit d) + 10 * m) 0 := by
        rw [digitsValue, decimalDigits, List.foldl_map, List.foldl_reverse]
        simp only [Nat.add_comm]
    _ = (Nat.digits 10 n).foldr (fun d m => d + 10 * m) 0 := by
        refine List.foldr_ext _ _ _ fun d hd m => ?_
        rw [hvalue d hd]
    _ = Nat.ofDigits 10 (Nat.digits 10 n) := (Nat.ofDigits_eq_foldr 10 _).symm
    _ = n := Nat.ofDigits_digits 10 n

theorem length_decimalDigits {n k : Nat} (h : n < 10 ^ k) : (decimalDigits n).length ≤ k := by
  rw [decimalDigits, List.length_map, List.length_reverse]
  exact (Nat.digits_length_le_iff (by decide) n).mpr h

theorem proper_decimalDigits {n : Nat} (h : n ≠ 0) : Radix.decimal.Proper (decimalDigits n) := by
  have hne : Nat.digits 10 n ≠ [] := Nat.digits_ne_nil_iff_ne_zero.mpr h
  refine ⟨by simpa [decimalDigits] using hne, ?_⟩
  have hlast := Nat.getLast_digit_ne_zero 10 h
  have hlt : (Nat.digits 10 n).getLast hne < 10 := Nat.digits_lt_base (by decide) (List.getLast_mem hne)
  rw [decimalDigits, List.head?_map, List.head?_reverse, List.getLast?_eq_some_getLast hne]
  exact fun heq => hlast ((decimalDigit_spec hlt).2.2.mp (Option.some.inj heq))

theorem no_spaces : ∀ c ∈ ([] : List UInt8), isspace c = true := List.forall_mem_nil _

/-- The numeral that `%i` stands for. -/
def Numeral.decimal (n : Int) : Numeral :=
  { spaces := []
    sign := if n < 0 then some 45 else none
    radix := if n = 0 then .octal else .decimal
    digits := if n = 0 then [48] else decimalDigits n.natAbs
    isspace_spaces := no_spaces
    sign_eq := by split <;> simp
    isDigit_digits := by
      split
      · intro c hc
        obtain rfl := List.mem_singleton.mp hc
        rfl
      · intro c hc
        obtain ⟨d, hd, rfl⟩ := mem_decimalDigits hc
        rw [isDigit, (decimalDigit_spec hd).2.1]
        exact decide_eq_true hd
    proper := by
      split
      · exact rfl
      · rename_i hn
        exact proper_decimalDigits (Int.natAbs_ne_zero.mpr hn) }

namespace Numeral

theorem value_decimal (n : Int) : (decimal n).value = n := by
  by_cases h0 : n = 0
  · subst h0
    rfl
  · have hvalue : (decimal n).value = signValue (if n < 0 then some 45 else none) * n.natAbs := by
      simp only [value, decimal, if_neg h0]
      rw [show Radix.decimal.base = 10 from rfl, digitsValue_decimalDigits]
    rw [hvalue]
    by_cases hneg : n < 0
    · rw [if_pos hneg, signValue, if_pos rfl]
      omega
    · rw [if_neg hneg, signValue, if_neg (by simp)]
      omega

/-- A sign and digits. -/
theorem mem_text_decimal {n : Int} {c : UInt8} (h : c ∈ (decimal n).text) : c = 45 ∨ 48 ≤ c.toNat ∧ c.toNat ≤ 57 := by
  rcases List.mem_append.mp h with hc | hc
  · exact absurd hc List.not_mem_nil
  rcases List.mem_append.mp hc with hc | hc
  · refine .inl ?_
    simp only [decimal] at hc
    split at hc
    · simpa using hc
    · simp at hc
  refine .inr ?_
  rcases List.mem_append.mp hc with hc | hc
  · simp only [decimal] at hc
    split at hc <;> exact absurd hc List.not_mem_nil
  · simp only [decimal] at hc
    split at hc
    · obtain rfl := List.mem_singleton.mp hc
      decide
    · obtain ⟨d, hd, rfl⟩ := mem_decimalDigits hc
      rw [(decimalDigit_spec hd).1]
      omega

theorem length_text_decimal {n : Int} {k : Nat} (h : n.natAbs < 10 ^ k) : (decimal n).text.length ≤ k + 2 := by
  have hdigits : (decimal n).digits.length ≤ k + 1 := by
    simp only [decimal]
    split
    · simp
    · exact (length_decimalDigits h).trans (Nat.le_succ k)
  have hsign : (decimal n).sign.toList.length ≤ 1 := by
    simp only [decimal]
    split <;> simp
  have hlead : (decimal n).radix.lead = [] := by
    simp only [decimal]
    split <;> rfl
  rw [text, hlead]
  simp only [List.nil_append, List.length_append]
  have hspaces : (decimal n).spaces.length = 0 := rfl
  omega

end Numeral

example : (Numeral.decimal (-120)).text = (CString.literal "-120").bytes := by decide +kernel

end Lib
