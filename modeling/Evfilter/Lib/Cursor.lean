import Evfilter.Lib.CString
import Mathlib.Data.List.TakeWhile

/-!
# A pointer that moves through a string

What a function works on that takes a `char **str`: it moves the pointer towards the end of the string and may
overwrite the bytes it passes. Pointers it hands out are positions in the buffer; `Settled` says that what such a
pointer points to will not change any more.
-/

namespace Lib

def isspace (c : UInt8) : Bool := (9 ≤ c && c ≤ 13) || c == 32

/-- The bytes before the pointer, the last one first, and those from it up to the terminating NUL. -/
structure Cursor where
  passed : List UInt8
  rest : List UInt8
deriving DecidableEq

namespace Cursor

def start (bytes : List UInt8) : Cursor := ⟨[], bytes⟩

def pos (s : Cursor) : Nat := s.passed.length

/-- The string that a pointer into the buffer points to. -/
def string (s : Cursor) (p : Nat) : CString :=
  ⟨((s.passed.reverse ++ s.rest).drop p).takeWhile (· != 0), fun h => by
    simpa using List.mem_takeWhile_imp h⟩

/-- `if (**str == c) (*str)++;` -/
def accept (c : UInt8) : Cursor → Cursor
  | ⟨passed, []⟩ => ⟨passed, []⟩
  | ⟨passed, b :: rest⟩ => if b = c then ⟨b :: passed, rest⟩ else ⟨passed, b :: rest⟩

/-- `while (test(**str)) (*str)++;` -/
def skip (test : UInt8 → Bool) (s : Cursor) : Cursor := go s.passed s.rest
where
  go (passed : List UInt8) : List UInt8 → Cursor
    | [] => ⟨passed, []⟩
    | b :: rest => if test b then go (b :: passed) rest else ⟨passed, b :: rest⟩

/-- `for (; **str != '\0'; (*str)++) if (stop(**str)) { **str = '\0'; (*str)++; break; }` -/
def cut (stop : UInt8 → Bool) (s : Cursor) : Cursor := go s.passed s.rest
where
  go (passed : List UInt8) : List UInt8 → Cursor
    | [] => ⟨passed, []⟩
    | b :: rest => if stop b then ⟨0 :: passed, rest⟩ else go (b :: passed) rest

variable {s t u : Cursor} {test stop : UInt8 → Bool} {c : UInt8} {p : Nat} {v : CString} {a : List UInt8}

/-! ## The bytes left -/

theorem accept_rest : (s.accept c).rest = if s.rest.head? = some c then s.rest.tail else s.rest := by
  obtain ⟨passed, rest⟩ := s
  cases rest with
  | nil => simp [accept]
  | cons b rest =>
      by_cases hb : b = c
      · simp [accept, hb]
      · simp [accept, hb]

theorem skip_rest : (s.skip test).rest = s.rest.dropWhile test := by
  obtain ⟨passed, rest⟩ := s
  change (skip.go test passed rest).rest = rest.dropWhile test
  induction rest generalizing passed with
  | nil => rfl
  | cons b rest ih =>
      rw [skip.go, List.dropWhile_cons]
      split
      · exact ih (b :: passed)
      · rfl

theorem cut_eq : s.cut stop =
    match s.rest.dropWhile fun b => !stop b with
    | [] => ⟨(s.rest.takeWhile fun b => !stop b).reverse ++ s.passed, []⟩
    | _ :: rest => ⟨0 :: ((s.rest.takeWhile fun b => !stop b).reverse ++ s.passed), rest⟩ := by
  obtain ⟨passed, rest⟩ := s
  change cut.go stop passed rest = _
  induction rest generalizing passed with
  | nil => rfl
  | cons b rest ih =>
      rw [cut.go, List.dropWhile_cons, List.takeWhile_cons]
      cases hb : stop b with
      | true => rfl
      | false =>
          simp only [Bool.false_eq_true, ↓reduceIte, Bool.not_false, List.reverse_cons, List.append_assoc,
            List.cons_append, List.nil_append]
          exact ih (b :: passed)

theorem cut_rest : (s.cut stop).rest = (s.rest.dropWhile fun b => !stop b).tail := by
  rw [cut_eq]
  cases s.rest.dropWhile fun b => !stop b with
  | nil => rfl
  | cons b rest => rfl

theorem length_accept_le (s : Cursor) (c : UInt8) : (s.accept c).rest.length ≤ s.rest.length := by
  rw [accept_rest]
  split
  · simp
  · exact Nat.le_refl _

theorem length_skip_le (s : Cursor) (test : UInt8 → Bool) : (s.skip test).rest.length ≤ s.rest.length := by
  rw [skip_rest]
  exact (List.dropWhile_suffix _).length_le

theorem length_cut_le (s : Cursor) (stop : UInt8 → Bool) : (s.cut stop).rest.length ≤ s.rest.length - 1 := by
  rw [cut_rest, List.length_tail]
  exact Nat.sub_le_sub_right (List.dropWhile_suffix _).length_le 1

/-! ## Moving on -/

/-- `t` is met from `s` by moving the pointer on. At the end of the string nothing moves. -/
structure Leads (s t : Cursor) : Prop where
  passed : s.passed <:+ t.passed
  stay : s.rest = [] → t = s

theorem Leads.refl : Leads s s := ⟨List.suffix_rfl, fun _ => rfl⟩

theorem Leads.trans (h₁ : Leads s t) (h₂ : Leads t u) : Leads s u where
  passed := h₁.passed.trans h₂.passed
  stay h := by
    have ht := h₁.stay h
    rw [h₂.stay (by rw [ht, h]), ht]

theorem leads_accept : Leads s (s.accept c) := by
  obtain ⟨passed, rest⟩ := s
  cases rest with
  | nil => exact Leads.refl
  | cons b rest =>
      rw [accept]
      split
      · exact ⟨List.suffix_cons b passed, by simp⟩
      · exact Leads.refl

theorem leads_skip : Leads s (s.skip test) := by
  obtain ⟨passed, rest⟩ := s
  change Leads ⟨passed, rest⟩ (skip.go test passed rest)
  induction rest generalizing passed with
  | nil => exact Leads.refl
  | cons b rest ih =>
      rw [skip.go]
      split
      · exact ⟨(List.suffix_cons b passed).trans (ih (b :: passed)).passed, by simp⟩
      · exact Leads.refl

theorem leads_cut : Leads s (s.cut stop) := by
  obtain ⟨passed, rest⟩ := s
  change Leads ⟨passed, rest⟩ (cut.go stop passed rest)
  induction rest generalizing passed with
  | nil => exact Leads.refl
  | cons b rest ih =>
      rw [cut.go]
      split
      · exact ⟨List.suffix_cons 0 passed, by simp⟩
      · exact ⟨(List.suffix_cons b passed).trans (ih (b :: passed)).passed, by simp⟩

/-! ## Strings handed out -/

/-- The string at `p` is `v`, and it ends before the pointer or there is nothing left to overwrite. -/
structure Settled (s : Cursor) (p : Nat) (v : CString) : Prop where
  string : s.string p = v
  ended : s.rest = [] ∨ 0 ∈ s.passed.reverse.drop p

theorem takeWhile_append_of_mem {l m : List UInt8} (h : 0 ∈ l) :
    (l ++ m).takeWhile (· != 0) = l.takeWhile (· != 0) := by
  induction l with
  | nil => cases h
  | cons b l ih =>
      rw [List.cons_append, List.takeWhile_cons, List.takeWhile_cons]
      by_cases hb : b = 0
      · simp [hb]
      · rw [ih ((List.mem_cons.mp h).resolve_left (Ne.symm hb))]

theorem string_eq (h : 0 ∈ s.passed.reverse.drop p) :
    (s.string p).bytes = (s.passed.reverse.drop p).takeWhile (· != 0) := by
  have hp : p ≤ s.passed.reverse.length := by
    rcases Nat.le_total p s.passed.reverse.length with hp | hp
    · exact hp
    · rw [List.drop_eq_nil_of_le hp] at h
      cases h
  change ((s.passed.reverse ++ s.rest).drop p).takeWhile (· != 0) = _
  rw [List.drop_append_of_le_length hp, takeWhile_append_of_mem h]

theorem Settled.leads (h : Settled s p v) (hl : Leads s t) : Settled t p v := by
  rcases h.ended with hn | h0
  · rw [hl.stay hn]
    exact h
  · obtain ⟨w, hw⟩ := hl.passed
    have hrev : t.passed.reverse = s.passed.reverse ++ w.reverse := by rw [← hw, List.reverse_append]
    have hp : p ≤ s.passed.reverse.length := by
      rcases Nat.le_total p s.passed.reverse.length with hp | hp
      · exact hp
      · rw [List.drop_eq_nil_of_le hp] at h0
        cases h0
    have hdrop : t.passed.reverse.drop p = s.passed.reverse.drop p ++ w.reverse := by
      rw [hrev, List.drop_append_of_le_length hp]
    have h0' : 0 ∈ t.passed.reverse.drop p := by
      rw [hdrop]
      exact List.mem_append_left _ h0
    refine ⟨CString.ext ?_, Or.inr h0'⟩
    rw [string_eq h0', hdrop, takeWhile_append_of_mem h0, ← string_eq h0, h.string]

/-- The word that `cut` ends with a NUL, or that ends with the string. -/
theorem settled_cut (hv : v.bytes = s.rest.takeWhile fun b => !stop b) :
    Settled (s.cut stop) s.pos v := by
  have h0 : 0 ∉ v.bytes := v.nulFree
  have hlen : s.pos = s.passed.reverse.length := by simp [pos]
  have hword : v.bytes.takeWhile (· != 0) = v.bytes := by
    rw [List.takeWhile_eq_self_iff]
    intro b hb
    simpa using fun h : b = 0 => h0 (h ▸ hb)
  rw [cut_eq, ← hv]
  cases s.rest.dropWhile fun b => !stop b with
  | nil =>
      refine ⟨CString.ext ?_, Or.inl rfl⟩
      simp [string, hlen, hword]
  | cons b rest =>
      have hmem : 0 ∈ (0 :: (v.bytes.reverse ++ s.passed)).reverse.drop s.pos := by simp [hlen]
      refine ⟨CString.ext ?_, Or.inr hmem⟩
      rw [string_eq hmem]
      simp [hlen, List.takeWhile_append, hword]

end Cursor

end Lib
