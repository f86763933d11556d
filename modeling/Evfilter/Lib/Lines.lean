import Evfilter.Lib.Cursor
import Mathlib.Data.List.DropRight

/-!
# Lines of a text

The entries of a text are its lines without the whitespace in front of them, apart from those with nothing else in
them.
-/

namespace Lib

abbrev newline : UInt8 := 10

namespace CString

def line (s : CString) : CString := s.takeWhile (· != newline)

/-- What comes after the first newline. -/
def below (s : CString) : CString := (s.dropWhile (· != newline)).drop 1

theorem strlen_below_lt {s : CString} (h : s.bytes ≠ []) : s.below.strlen < s.strlen := by
  have hle : (s.bytes.dropWhile (· != newline)).length ≤ s.bytes.length := (List.dropWhile_suffix _).length_le
  have hpos := List.length_pos_iff.mpr h
  simp only [below, strlen, bytes_drop, bytes_dropWhile, List.length_drop]
  omega

def lines (s : CString) : List CString :=
  if _h : s.bytes = [] then [] else s.line :: s.below.lines
termination_by s.strlen
decreasing_by exact strlen_below_lt _h

def entries (s : CString) : List CString :=
  (s.lines.map fun l => l.dropWhile isspace).filter fun l => l.bytes ≠ []

variable {s t : CString} {c : UInt8} {a : List UInt8}

theorem lines_nil (h : s.bytes = []) : s.lines = [] := by rw [lines, dif_pos h]

theorem lines_cons (h : s.bytes ≠ []) : s.lines = s.line :: s.below.lines := by rw [lines, dif_neg h]

theorem lines_append (ha : newline ∉ a) (h : s.bytes = a ++ newline :: t.bytes) :
    ∃ l, l.bytes = a ∧ s.lines = l :: t.lines := by
  have hne : ∀ b ∈ a, (b != newline) = true := fun b hb => by simpa using fun hn : b = newline => ha (hn ▸ hb)
  refine ⟨s.line, ?_, ?_⟩
  · change s.bytes.takeWhile _ = a
    rw [h, List.takeWhile_append_of_pos hne]
    simp
  · have hbelow : s.below = t := by
      refine CString.ext ?_
      change (s.bytes.dropWhile _).drop 1 = t.bytes
      rw [h, List.dropWhile_append_of_pos hne]
      simp
    rw [lines_cons (by rw [h]; simp), hbelow]

theorem lines_last (ha : newline ∉ s.bytes) (hne : s.bytes ≠ []) : s.lines = [s] := by
  have hb : ∀ b ∈ s.bytes, (b != newline) = true := fun b hb => by simpa using fun hn : b = newline => ha (hn ▸ hb)
  have hline : s.line = s := CString.ext (List.takeWhile_eq_self_iff.mpr hb)
  have hbelow : s.below.bytes = [] := by
    change (s.bytes.dropWhile _).drop 1 = []
    rw [List.dropWhile_eq_nil_iff.mpr hb]
    rfl
  rw [lines_cons hne, hline, lines_nil hbelow]

/-! ## Entries -/

theorem entries_of_lines {l : CString} {ls : List CString} (h : s.lines = l :: ls) (ht : t.lines = ls) :
    s.entries =
      if (l.dropWhile isspace).bytes = [] then t.entries else l.dropWhile isspace :: t.entries := by
  rw [entries, h, List.map_cons, List.filter_cons, entries, ht]
  split <;> simp_all

theorem entries_nil (h : s.bytes = []) : s.entries = [] := by rw [entries, lines_nil h]; rfl

theorem entries_drop_one (hs : s.bytes.head? = some c) (hc : isspace c = true) : s.entries = (s.drop 1).entries := by
  obtain ⟨bytes, hb⟩ : ∃ bytes, s.bytes = c :: bytes := ⟨s.bytes.tail, List.eq_cons_of_mem_head? hs⟩
  have hdrop : (s.drop 1).bytes = bytes := by rw [bytes_drop, hb]; rfl
  have hne : s.bytes ≠ [] := by rw [hb]; exact List.cons_ne_nil _ _
  by_cases hn : c = newline
  · -- An empty line is left out.
    have hline : s.line.bytes = [] := by simp [line, hb, hn]
    have hbelow : s.below = s.drop 1 := CString.ext (by simp [below, hb, hn])
    rw [entries_of_lines (lines_cons hne) rfl, if_pos (by rw [bytes_dropWhile, hline]; rfl), hbelow]
  · have hline : s.line.bytes = c :: (s.drop 1).line.bytes := by
      simp [line, hb, hn]
    have hbelow : s.below = (s.drop 1).below := CString.ext (by simp [below, hb, hn])
    have htrim : s.line.dropWhile isspace = (s.drop 1).line.dropWhile isspace :=
      CString.ext (by rw [bytes_dropWhile, hline, List.dropWhile_cons, if_pos hc, bytes_dropWhile])
    rw [entries_of_lines (lines_cons hne) rfl, htrim]
    by_cases hnil : (s.drop 1).bytes = []
    · have hlast : (s.drop 1).line.bytes = [] := by rw [line, bytes_takeWhile, hnil]; rfl
      have hend : s.below.bytes = [] := by rw [hbelow, below, bytes_drop, bytes_dropWhile, hnil]; rfl
      rw [if_pos (by rw [bytes_dropWhile, hlast]; rfl), entries_nil hend, entries_nil hnil]
    · rw [entries_of_lines (lines_cons hnil) rfl, hbelow]

/-- Whitespace at the start, newlines among it, makes no difference. -/
theorem entries_dropWhile (s : CString) : (s.dropWhile isspace).entries = s.entries := by
  obtain ⟨n, hn⟩ : ∃ n, s.strlen = n := ⟨_, rfl⟩
  induction n generalizing s with
  | zero =>
      have hnil : s.bytes = [] := List.length_eq_zero_iff.mp hn
      rw [entries_nil hnil, entries_nil (by rw [bytes_dropWhile, hnil]; rfl)]
  | succ n ih =>
      obtain ⟨c, bytes, hb⟩ := List.exists_cons_of_length_eq_add_one hn
      by_cases hc : isspace c = true
      · have hdrop : s.dropWhile isspace = (s.drop 1).dropWhile isspace := CString.ext (by
          rw [bytes_dropWhile, hb, List.dropWhile_cons, if_pos hc, bytes_dropWhile, bytes_drop, hb]
          rfl)
        rw [hdrop, entries_drop_one (c := c) (s := s) (by rw [hb]; rfl) hc]
        refine ih _ ?_
        have hlen : s.bytes.length = n + 1 := hn
        rw [strlen, bytes_drop, List.length_drop, hlen, Nat.add_sub_cancel]
      · have hdrop : s.dropWhile isspace = s := CString.ext (by
          rw [bytes_dropWhile, hb, List.dropWhile_cons, if_neg hc])
        rw [hdrop]

/-- The text starts with a line that has something in it, if with any. -/
def Fresh (s : CString) : Prop := ∀ c ∈ s.bytes.head?, isspace c = false

instance (s : CString) : Decidable s.Fresh := Option.decidableForallMem _

theorem Fresh.dropWhile_eq (h : s.Fresh) : s.dropWhile isspace = s := by
  refine CString.ext ?_
  cases hb : s.bytes with
  | nil => rw [bytes_dropWhile, hb]; rfl
  | cons c bytes =>
      have hc : isspace c = false := h c (by rw [hb]; rfl)
      rw [bytes_dropWhile, hb, List.dropWhile_cons, hc, if_neg Bool.false_ne_true]

theorem fresh_dropWhile (s : CString) : (s.dropWhile isspace).Fresh := by
  intro c hc
  have hhead := List.head?_dropWhile_not isspace s.bytes
  rw [show (s.bytes.dropWhile isspace).head? = some c from hc] at hhead
  exact hhead

/-- Where the next entry starts. -/
def next (s : CString) : CString := (s.dropWhile (· != newline)).dropWhile isspace

theorem fresh_next (s : CString) : s.next.Fresh := fresh_dropWhile _

theorem Fresh.line_dropWhile (h : s.Fresh) : s.line.dropWhile isspace = s.line := by
  refine CString.ext ?_
  change (s.bytes.takeWhile _).dropWhile isspace = s.bytes.takeWhile _
  cases hb : s.bytes with
  | nil => rfl
  | cons c bytes =>
      have hc : isspace c = false := h c (by rw [hb]; rfl)
      have hn : (c != newline) = true := by simpa using fun hn : c = newline => absurd hc (hn ▸ by decide)
      rw [List.takeWhile_cons, if_pos hn, List.dropWhile_cons, hc, if_neg Bool.false_ne_true]

theorem Fresh.line_ne_nil (h : s.Fresh) (hne : s.bytes ≠ []) : s.line.bytes ≠ [] := by
  obtain ⟨c, bytes, hb⟩ := List.exists_cons_of_ne_nil hne
  have hc : isspace c = false := h c (by rw [hb]; rfl)
  have hn : (c != newline) = true := by simpa using fun hn : c = newline => absurd hc (hn ▸ by decide)
  change s.bytes.takeWhile _ ≠ []
  rw [hb, List.takeWhile_cons, if_pos hn]
  exact List.cons_ne_nil _ _

theorem Fresh.entries_cons (h : s.Fresh) (hne : s.bytes ≠ []) :
    s.entries = s.line :: s.next.entries := by
  rw [entries_of_lines (lines_cons hne) rfl, h.line_dropWhile, if_neg (h.line_ne_nil hne), next, entries_dropWhile]
  cases hb : (s.dropWhile (· != newline)).bytes with
  | nil =>
      rw [entries_nil hb, entries_nil]
      rw [below, bytes_drop, hb]
      rfl
  | cons c bytes =>
      have hc : c = newline := by
        have hhead := List.head?_dropWhile_not (· != newline) s.bytes
        rw [show s.bytes.dropWhile (· != newline) = c :: bytes from hb] at hhead
        simpa using hhead
      have hdrop := entries_drop_one (c := c) (s := s.dropWhile (· != newline)) (by rw [hb]; rfl) (hc ▸ by decide)
      rw [below, ← hdrop]

theorem bytes_eq (s : CString) : s.bytes = s.line.bytes ++ (s.dropWhile (· != newline)).bytes :=
  List.takeWhile_append_dropWhile.symm

theorem dropWhile_of_blank (h : (s.line.dropWhile isspace).bytes = []) : s.dropWhile isspace = s.next := by
  refine CString.ext ?_
  have hblank : s.line.bytes.dropWhile isspace = [] := h
  rw [bytes_dropWhile, bytes_eq s, List.dropWhile_append, hblank]
  rfl

/-- Whitespace in front of the first line, if this line is not blank. -/
theorem dropWhile_of_line (h : (s.line.dropWhile isspace).bytes ≠ []) :
    (s.dropWhile isspace).line = s.line.dropWhile isspace ∧ (s.dropWhile isspace).next = s.next := by
  have hp : ∀ b ∈ s.line.bytes.dropWhile isspace, (b != newline) = true := by
    intro b hb
    have hline : b ∈ s.bytes.takeWhile (· != newline) := (List.dropWhile_suffix _).subset hb
    exact List.mem_takeWhile_imp (p := (· != newline)) hline
  have hbytes : (s.dropWhile isspace).bytes =
      s.line.bytes.dropWhile isspace ++ (s.dropWhile (· != newline)).bytes := by
    have hne : ¬ (s.line.bytes.dropWhile isspace).isEmpty = true := by simpa using h
    conv => lhs; rw [bytes_dropWhile, bytes_eq s]
    rw [List.dropWhile_append, if_neg hne]
  refine ⟨CString.ext ?_, CString.ext ?_⟩
  · rw [line, bytes_takeWhile, hbytes, List.takeWhile_append_of_pos hp]
    have hhead := List.head?_dropWhile_not (· != newline) s.bytes
    change _ ++ (s.bytes.dropWhile (· != newline)).takeWhile _ = _
    cases hd : s.bytes.dropWhile (· != newline) with
    | nil => exact List.append_nil _
    | cons c bytes =>
        rw [hd] at hhead
        rw [List.takeWhile_cons, if_neg (ne_true_of_eq_false hhead), List.append_nil]
        rfl
  · rw [next, next, bytes_dropWhile, bytes_dropWhile, hbytes, List.dropWhile_append_of_pos hp]
    change ((s.bytes.dropWhile _).dropWhile _).dropWhile isspace = _
    rw [List.dropWhile_idempotent]
    rfl

theorem Fresh.entries_eq_nil (h : s.Fresh) : s.entries = [] ↔ s.bytes = [] := by
  refine ⟨fun hs => ?_, entries_nil⟩
  by_contra hne
  rw [h.entries_cons hne] at hs
  cases hs

/-- A text put together from lines, each behind some whitespace, and another text. -/
theorem entries_rows {rows : List (List UInt8 × CString)} (hlead : ∀ r ∈ rows, ∀ c ∈ r.1, isspace c = true)
    (hline : ∀ r ∈ rows, newline ∉ r.1 ++ r.2.bytes) (hfresh : ∀ r ∈ rows, r.2.Fresh)
    (h : s.bytes = (rows.flatMap fun r => r.1 ++ r.2.bytes ++ [newline]) ++ t.bytes) :
    s.entries = ((rows.map Prod.snd).filter fun l => l.bytes ≠ []) ++ t.entries := by
  induction rows generalizing s with
  | nil => rw [CString.ext (s := s) (t := t) h]; rfl
  | cons r rows ih =>
      obtain ⟨hlead₀, hlead⟩ := List.forall_mem_cons.mp hlead
      obtain ⟨hline₀, hline⟩ := List.forall_mem_cons.mp hline
      obtain ⟨hfresh₀, hfresh⟩ := List.forall_mem_cons.mp hfresh
      have hsplit : s.bytes = (r.1 ++ r.2.bytes) ++
          newline :: ((rows.flatMap fun r => r.1 ++ r.2.bytes ++ [newline]) ++ t.bytes) := by
        rw [h, List.flatMap_cons, List.append_assoc, List.append_assoc, List.append_assoc, List.append_assoc]
        rfl
      let u : CString := ⟨(rows.flatMap fun r => r.1 ++ r.2.bytes ++ [newline]) ++ t.bytes, fun h0 => s.nulFree (by
        rw [hsplit]
        exact List.mem_append_right _ (List.mem_cons_of_mem _ h0))⟩
      obtain ⟨l, hl, hlines⟩ := lines_append (t := u) hline₀ hsplit
      have htrim : l.dropWhile isspace = r.2 := by
        refine CString.ext ?_
        rw [bytes_dropWhile, hl, List.dropWhile_append_of_pos hlead₀]
        exact congrArg CString.bytes hfresh₀.dropWhile_eq
      rw [entries_of_lines hlines rfl, htrim, ih hlead hline hfresh (s := u) rfl, List.map_cons, List.filter_cons]
      by_cases hnil : r.2.bytes = []
      · simp [hnil]
      · simp [hnil]

theorem entries_spaces (h : ∀ c ∈ s.bytes, isspace c = true) : s.entries = [] := by
  rw [← entries_dropWhile, entries_nil]
  exact List.dropWhile_eq_nil_iff.mpr h

/-- A line with nothing but whitespace on the lines that follow. -/
theorem entries_last {l : CString} {tail : List UInt8} (hfresh : l.Fresh) (hne : l.bytes ≠ [])
    (hl : newline ∉ l.bytes) (htail : ∀ c ∈ tail, isspace c = true) (hhead : ∀ c ∈ tail.head?, c = newline)
    (h : s.bytes = l.bytes ++ tail) : s.entries = [l] := by
  cases tail with
  | nil =>
      obtain rfl : s = l := CString.ext (h.trans (List.append_nil _))
      rw [entries_of_lines (t := ⟨[], List.not_mem_nil⟩) (lines_last hl hne) (lines_nil rfl), hfresh.dropWhile_eq,
        if_neg hne, entries_nil rfl]
  | cons c tail =>
      obtain rfl : c = newline := hhead c rfl
      let t : CString := ⟨tail, fun h0 => absurd (htail 0 (List.mem_cons_of_mem _ h0)) (by decide)⟩
      obtain ⟨l', hl', hlines⟩ := lines_append (t := t) hl h
      obtain rfl : l' = l := CString.ext hl'
      rw [entries_of_lines hlines rfl, hfresh.dropWhile_eq, if_neg hne,
        entries_spaces (s := t) fun c hc => htail c (List.mem_cons_of_mem _ hc)]

end CString

end Lib
