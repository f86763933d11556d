import Evfilter.Reader.Pairs

/-!
# Lines of profilerc

A keyword and a value on each line. The last line is gone through only if it is ended by a newline.
-/

namespace Evfilter.Reader
open Lib Comp Profile

structure Row where
  keyword : CString
  gap : List UInt8
  value : CString
  keyword_ne : keyword.bytes ≠ []
  keyword_word : ∀ c ∈ keyword.bytes, isspace c = false
  keyword_length : keyword.strlen ≤ 255
  gap_ne : gap ≠ []
  gap_space : ∀ c ∈ gap, isspace c = true
  gap_line : newline ∉ gap
  value_head : ∃ c ∈ value.bytes.head?, isspace c = false
  value_line : newline ∉ value.bytes
  value_length : value.strlen ≤ 2047

def Row.bytes (row : Row) : List UInt8 := row.keyword.bytes ++ (row.gap ++ row.value.bytes)

def Row.pair (row : Row) : CString × CString := (row.keyword, row.value)

/-- `ended` says that there is a newline behind the last line, too. -/
def rowsText (ended : Bool) : List Row → List UInt8
  | [] => []
  | row :: rows => row.bytes ++ if rows.isEmpty && !ended then [] else newline :: rowsText ended rows

variable {row : Row} {rows : List Row} {rest text : List UInt8} {ended : Bool}

/-- A line at the start of a text is cut where it should be. -/
theorem cut_row (row : Row) (hrest : ∀ c ∈ rest.head?, c = newline) :
    word (row.bytes ++ rest) = row.keyword.bytes ∧ value (row.bytes ++ rest) = row.value.bytes ∧
      behind (row.bytes ++ rest) = rest := by
  have hword : ∀ c ∈ row.keyword.bytes, (!isspace c) = true := fun c hc => by simp [row.keyword_word c hc]
  obtain ⟨c, keyword, hkeyword⟩ := List.exists_cons_of_ne_nil row.keyword_ne
  obtain ⟨d, gap, hgap⟩ := List.exists_cons_of_ne_nil row.gap_ne
  obtain ⟨e, he, hspace⟩ := row.value_head
  obtain ⟨val, hval⟩ : ∃ val, row.value.bytes = e :: val := ⟨_, List.eq_cons_of_mem_head? he⟩
  have hc : isspace c = false := row.keyword_word c (by rw [hkeyword]; exact List.mem_cons_self)
  have hd : isspace d = true := row.gap_space d (by rw [hgap]; exact List.mem_cons_self)
  have htext : (row.bytes ++ rest).dropWhile isspace = row.keyword.bytes ++ (row.gap ++ (row.value.bytes ++ rest)) := by
    rw [Row.bytes, List.append_assoc, List.append_assoc, hkeyword, List.cons_append, List.dropWhile_cons, hc,
      if_neg Bool.false_ne_true]
  have hbehind : behindWord (row.bytes ++ rest) = row.gap ++ (row.value.bytes ++ rest) := by
    rw [behindWord, htext, List.dropWhile_append_of_pos hword, hgap, List.cons_append, List.dropWhile_cons]
    simp [hd]
  have hvalue : (behindWord (row.bytes ++ rest)).dropWhile isspace = row.value.bytes ++ rest := by
    rw [hbehind, List.dropWhile_append_of_pos row.gap_space, hval, List.cons_append, List.dropWhile_cons, hspace,
      if_neg Bool.false_ne_true]
  have hline : ∀ b ∈ row.value.bytes, (b != newline) = true := fun b hb => by
    simpa using fun hn : b = newline => row.value_line (hn ▸ hb)
  have hstop : rest.takeWhile (· != newline) = [] ∧ rest.dropWhile (· != newline) = rest := by
    cases rest with
    | nil => exact ⟨rfl, rfl⟩
    | cons b rest =>
        obtain rfl : b = newline := hrest b rfl
        simp
  refine ⟨?_, ?_, ?_⟩
  · rw [word, htext, List.takeWhile_append_of_pos hword, hgap, List.cons_append, List.takeWhile_cons]
    simp [hd]
  · rw [value, hvalue, List.takeWhile_append_of_pos hline, hstop.1, List.append_nil]
  · rw [behind, hvalue, List.dropWhile_append_of_pos hline, hstop.2]

theorem dropWhile_newline (text : List UInt8) : (newline :: text).dropWhile isspace = text.dropWhile isspace := by
  simp [show isspace newline = true from by decide]

theorem completed_newline (text : List UInt8) : completed (newline :: text) = completed text := by
  have hbehind : behind (newline :: text) = behind text := by
    rw [behind, behind, behindWord, behindWord, dropWhile_newline]
  have hword : word (newline :: text) = word text := by rw [word, word, dropWhile_newline]
  have hvalue : value (newline :: text) = value text := by
    rw [value, value, behindWord, behindWord, dropWhile_newline]
  by_cases h : behind text = []
  · rw [completed_end h, completed_end (hbehind.trans h)]
  · rw [completed_cons h, completed_cons (hbehind ▸ h), hbehind, hword, hvalue]

theorem fitting_newline (text : List UInt8) : Fitting (newline :: text) ↔ Fitting text := by
  rw [fitting_iff, @fitting_iff text, word, word, value, value, behind, behind, behindWord, behindWord,
    dropWhile_newline]

theorem rest_rows (ended : Bool) (rows : List Row) :
    ∀ c ∈ (if rows.isEmpty && !ended then [] else newline :: rowsText ended rows).head?, c = newline := by
  intro c hc
  split at hc
  · cases hc
  · exact (Option.some.inj hc).symm

theorem fitting_rows (ended : Bool) (rows : List Row) : Fitting (rowsText ended rows) := by
  induction rows with
  | nil => exact fun pair hpair => by rw [rowsText, pairs_blank rfl] at hpair; cases hpair
  | cons row rows ih =>
      obtain ⟨hword, hvalue, hbehind⟩ := cut_row row (rest_rows ended rows)
      rw [rowsText, fitting_iff, hword, hvalue, hbehind]
      refine ⟨⟨Nat.lt_succ_of_le row.keyword_length, Nat.lt_succ_of_le row.value_length⟩, ?_⟩
      split
      · exact fun pair hpair => by rw [pairs_blank rfl] at hpair; cases hpair
      · exact (fitting_newline _).mpr ih

theorem completed_rows (ended : Bool) (rows : List Row) :
    completed (rowsText ended rows) = (if ended = true then rows else rows.dropLast).map Row.pair := by
  induction rows with
  | nil =>
      rw [rowsText, completed_end rfl]
      cases ended <;> rfl
  | cons row rows ih =>
      obtain ⟨hword, hvalue, hbehind⟩ := cut_row row (rest_rows ended rows)
      cases hlast : rows.isEmpty && !ended with
      | true =>
          rw [hlast, if_pos rfl] at hbehind
          rw [rowsText, hlast, if_pos rfl, completed_end hbehind]
          simp only [Bool.and_eq_true, List.isEmpty_iff, Bool.not_eq_true'] at hlast
          rw [hlast.1, hlast.2]
          rfl
      | false =>
          rw [hlast, if_neg Bool.false_ne_true] at hbehind hword hvalue
          rw [rowsText, hlast, if_neg Bool.false_ne_true, completed_cons (by rw [hbehind]; exact List.cons_ne_nil _ _),
            hbehind, hword, hvalue, completed_newline, ih, CString.ofBytes_bytes, CString.ofBytes_bytes]
          cases ended with
          | true => rfl
          | false =>
              have hne : rows ≠ [] := by simpa using hlast
              rw [if_neg Bool.false_ne_true, if_neg Bool.false_ne_true, List.dropLast_cons_of_ne_nil hne]
              rfl

/-- Whatever the rules and files are, the lines are gone through once each, one after the other. -/
def Processes (ended : Bool) (rows : List Row) : Prop :=
  ∀ (φ σ : Type) (S : ProfileSystem φ σ) (path : CString) (w : World φ σ) (state : σ),
    openProfilerc S path w.state = (.ok (Stream.opened (rowsText ended rows) false), state) →
      (evfLoadProfile S path w).Same (processAll S path (rows.map Row.pair) (start { w with state }))

theorem profile_rows {φ σ : Type} {S : ProfileSystem φ σ} {path : CString} {w : World φ σ} {state : σ}
    (hopen : openProfilerc S path w.state = (.ok (Stream.opened (rowsText ended rows) false), state)) :
    (evfLoadProfile S path w).Same
      (processAll S path ((if ended = true then rows else rows.dropLast).map Row.pair) (start { w with state })) := by
  rw [evfLoadProfile, hopen, ← completed_rows]
  dsimp only [profileRead]
  exact loop_same (fitting_rows ended rows) rfl

/-- On a system on which nothing happens the record tells the difference. -/
theorem not_processes (hne : rows ≠ []) : ¬ Processes false rows := by
  intro h
  let w : World Unit Unit := { heap := ⟨[]⟩, freed := [], processed := [], state := () }
  have hopen : openProfilerc (idle (.ok (Stream.opened (rowsText false rows) false))) (CString.literal "") w.state =
    (.ok (Stream.opened (rowsText false rows) false), ()) := rfl
  have hrows := profile_rows hopen
  rw [if_neg Bool.false_ne_true] at hrows
  have hsame := (h _ _ _ _ w () hopen).symm.trans hrows
  have hall := (idle_all (p := start w) rfl).symm.trans (hsame.trans (idle_all (p := start w) rfl))
  have heq := yields_pure.mp ((hall _).mp (yields_pure.mpr rfl))
  have hlen := congrArg (fun r : Result Unit Unit => r.world.processed.length) (Except.ok.inj heq)
  have hpos := List.length_pos_iff.mpr hne
  simp only [List.length_append, List.length_map, List.length_dropLast] at hlen
  omega

theorem processes_iff (ended : Bool) (rows : List Row) : Processes ended rows ↔ rows = [] ∨ ended = true := by
  constructor
  · intro h
    cases ended with
    | true => exact Or.inr rfl
    | false => exact Or.inl (not_not.mp fun hne => not_processes hne h)
  · intro h φ σ S path w state hopen
    have hrows := profile_rows hopen
    rcases h with rfl | rfl
    · cases ended <;> exact hrows
    · exact hrows

def nameRow : Row where
  keyword := CString.literal "Name"
  gap := [32]
  value := CString.literal "Mouse"
  keyword_ne := by decide +kernel
  keyword_word := by decide +kernel
  keyword_length := by decide +kernel
  gap_ne := by decide
  gap_space := List.forall_mem_singleton.mpr rfl
  gap_line := by decide
  value_head := ⟨77, by decide +kernel, by decide⟩
  value_line := by decide +kernel
  value_length := by decide +kernel

/-- The text `Name Mouse`, without a newline -/
theorem last_line_skipped : ¬ Processes false [nameRow] := not_processes (List.cons_ne_nil _ _)

end Evfilter.Reader
