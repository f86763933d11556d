import Evfilter.Lib.Lines

/-!
# Files that are read

A file is read from the front. Behind its bytes reading fails: the end of the file has been met then, unless it is an
error. Of `fscanf` there are whitespace in the format, `%s` and `%[^\n]`, with what they take.
-/

namespace Lib

/-- What has not been read yet, and whether there is an error behind it. -/
structure Stream where
  rest : List UInt8
  broken : Bool
  eof : Bool
  ended : eof = true → rest = [] ∧ broken = false
deriving DecidableEq

namespace Stream

def opened (rest : List UInt8) (broken : Bool) : Stream where
  rest := rest
  broken := broken
  eof := false
  ended := fun h => Bool.noConfusion h

/-- Reading has got so far that this is left, and maybe wanted one more byte. -/
def past (file : Stream) (rest : List UInt8) (wanted : Bool) : Stream where
  rest := rest
  broken := file.broken
  eof := (wanted || file.eof) && rest.isEmpty && !file.broken
  ended := by simp only [Bool.and_eq_true, List.isEmpty_iff, Bool.not_eq_true']; exact fun h => ⟨h.1.2, h.2⟩

def skip (file : Stream) : Stream := file.past (file.rest.dropWhile isspace) true

/-- Up to so many bytes that meet the test are taken. The conversion has failed if there are none. -/
def convert (test : UInt8 → Bool) (width : Nat) (file : Stream) : List UInt8 × Stream :=
  let item := (file.rest.takeWhile test).take width
  (item, file.past (file.rest.drop item.length) (item.length < width))

/-- What `%[^\n]` and a newline take. The newline is for any whitespace, and is not got to after a failure. -/
def scanLine (width : Nat) (file : Stream) : List UInt8 × Stream :=
  let r := file.convert (· != newline) width
  (r.1, if r.1 = [] then r.2 else r.2.skip)

/-- What `%s` takes. -/
def scanWord (width : Nat) (file : Stream) : List UInt8 × Stream := file.skip.convert (fun c => !isspace c) width

/-- What a blank and `%[^\n]` take. -/
def scanRest (width : Nat) (file : Stream) : List UInt8 × Stream := file.skip.convert (· != newline) width

variable {file : Stream} {rest text : List UInt8} {wanted : Bool} {test : UInt8 → Bool} {width : Nat}

@[simp] theorem rest_past : (file.past rest wanted).rest = rest := rfl

@[simp] theorem broken_past : (file.past rest wanted).broken = file.broken := rfl

@[simp] theorem eof_past_wanted : (file.past rest true).eof = true ↔ rest = [] ∧ file.broken = false := by
  simp [past]

theorem past_past {other : List UInt8} : (file.past other wanted).past rest true = file.past rest true := by
  simp [past]

/-- Nothing has happened if a byte is there that is not taken. -/
theorem past_rest (h : file.rest ≠ []) : file.past file.rest wanted = file := by
  obtain ⟨text, broken, eof, ended⟩ := file
  cases eof with
  | true => exact absurd (ended rfl).1 h
  | false => simp [past, show text ≠ [] from h]

/-! ## Conversions -/

/-- If there is room for all the bytes that meet the test, and one more, then one more is asked for. -/
theorem convert_short (h : (file.rest.takeWhile test).length < width) :
    file.convert test width = (file.rest.takeWhile test, file.past (file.rest.dropWhile test) true) := by
  have hdrop : file.rest.drop (file.rest.takeWhile test).length = file.rest.dropWhile test := by
    conv => enter [1, 2]; rw [← List.takeWhile_append_dropWhile (p := test) (l := file.rest)]
    exact List.drop_left
  simp only [convert, List.take_of_length_le h.le, hdrop, decide_eq_true h]

theorem length_convert_long (h : width ≤ (file.rest.takeWhile test).length) :
    (file.convert test width).1.length = width := by
  simp only [convert, List.length_take]
  exact Nat.min_eq_left h

theorem scanLine_newline (h : file.rest.head? = some newline) (hpos : 0 < width) :
    file.scanLine width = ([], file) := by
  obtain ⟨rest, hrest⟩ : ∃ rest, file.rest = newline :: rest := ⟨_, List.eq_cons_of_mem_head? h⟩
  have htake : file.rest.takeWhile (· != newline) = [] := by simp [hrest]
  have hdrop : file.rest.dropWhile (· != newline) = file.rest := by simp [hrest]
  rw [scanLine, convert_short (by rw [htake]; exact hpos), htake, hdrop, past_rest (by simp [hrest])]
  rfl

theorem scanLine_nil (h : file.rest = []) (hpos : 0 < width) : file.scanLine width = ([], file.past [] true) := by
  rw [scanLine, convert_short (by rw [h]; exact hpos), h]
  rfl

theorem scanLine_short (hne : file.rest.takeWhile (· != newline) ≠ [])
    (h : (file.rest.takeWhile (· != newline)).length < width) :
    file.scanLine width = (file.rest.takeWhile (· != newline),
      file.past ((file.rest.dropWhile (· != newline)).dropWhile isspace) true) := by
  rw [scanLine, convert_short h]
  simp only [if_neg hne, skip, rest_past, past_past]

theorem length_scanLine_long (h : width ≤ (file.rest.takeWhile (· != newline)).length) :
    (file.scanLine width).1.length = width :=
  length_convert_long h

theorem scanWord_short (h : ((file.rest.dropWhile isspace).takeWhile fun c => !isspace c).length < width) :
    file.scanWord width = ((file.rest.dropWhile isspace).takeWhile fun c => !isspace c,
      file.past ((file.rest.dropWhile isspace).dropWhile fun c => !isspace c) true) := by
  rw [scanWord, convert_short h, skip, past_past]
  rfl

theorem length_scanWord_long (h : width ≤ ((file.rest.dropWhile isspace).takeWhile fun c => !isspace c).length) :
    (file.scanWord width).1.length = width :=
  length_convert_long h

theorem scanRest_short (h : ((file.rest.dropWhile isspace).takeWhile (· != newline)).length < width) :
    file.scanRest width = ((file.rest.dropWhile isspace).takeWhile (· != newline),
      file.past ((file.rest.dropWhile isspace).dropWhile (· != newline)) true) := by
  rw [scanRest, convert_short h, skip, past_past]
  rfl

theorem length_scanRest_long (h : width ≤ ((file.rest.dropWhile isspace).takeWhile (· != newline)).length) :
    (file.scanRest width).1.length = width :=
  length_convert_long h

end Stream

end Lib
