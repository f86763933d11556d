import Evfilter.Lib.Lines
import Evfilter.Param.Parse

/-!
# Loading filters from a file

`evf_read_line_preprocess`, and `get_filter_name`, `get_filter_params` and `evf_load_filters` on top of it. The file
is the text that has not been read yet; `feof` says that there is none, since reading a line also skips the whitespace
behind it.
-/

namespace Evfilter.Loader
open Lib Param

/-- What running a function that fills arrays comes to: it may write behind the end of one, or never return. -/
inductive Outcome (α : Type)
  | done (a : α)
  | overflow
  | forever
deriving DecidableEq

abbrev hash : UInt8 := 35

abbrev bufLen : Nat := 4096

def feof (config : CString) : Prop := config.bytes = []

instance (config : CString) : Decidable (feof config) := inferInstanceAs (Decidable (config.bytes = []))

/-- `fscanf(config, "%4096[^\n]\n", line)`: what is stored in `line`, and what is left. Nothing is read if there is a
newline at once. -/
def scanLine (config : CString) : CString × CString :=
  let line := config.line.trunc 4096
  (line, if line.bytes = [] then config else (config.drop line.strlen).dropWhile isspace)

theorem strlen_scanLine {config : CString} (h : (scanLine config).1.bytes ≠ []) :
    (scanLine config).2.strlen < config.strlen := by
  have hsnd : (scanLine config).2 = (config.drop (scanLine config).1.strlen).dropWhile isspace := if_neg h
  have hpos : 0 < (scanLine config).1.strlen := List.length_pos_iff.mpr h
  have hle : (scanLine config).1.strlen ≤ config.strlen := by
    rw [scanLine, CString.strlen_trunc]
    exact (Nat.min_le_right _ _).trans (List.takeWhile_prefix _).length_le
  have hdrop : (scanLine config).2.strlen ≤ config.strlen - (scanLine config).1.strlen := by
    rw [hsnd]
    exact (List.dropWhile_suffix _).length_le.trans_eq List.length_drop
  omega

/-- `str_buf` has no room for the NUL behind 4096 bytes. -/
def evfReadLinePreprocess (config : CString) : Outcome (CString × CString) :=
  let str := (scanLine config).1
  let rest := (scanLine config).2
  if bufLen ≤ str.strlen then .overflow
  else
    let line := str.dropWhile isspace
    let line := if line.bytes.head? = some hash then line.trunc 0 else line
    if line.bytes ≠ [] ∨ feof rest then .done (line, rest)
    else if _h : str.bytes = [] then .forever
    else evfReadLinePreprocess rest
termination_by config.strlen
decreasing_by exact strlen_scanLine _h

def filterName : CString := CString.literal "FilterName"

def endFilter : CString := CString.literal "EndFilter"

/-- `none` is -1. -/
def nameIn (line : CString) : Option CString :=
  if CString.strncasecmp filterName line 10 ≠ 0 then none
  else
    let line := (line.drop 11).dropWhile isspace
    let line := (line.accept equals).dropWhile isspace
    some (line.trunc 255)

def getFilterName (config : CString) : Outcome (Option CString × CString) :=
  match evfReadLinePreprocess config with
  | .done (line, config) => .done (nameIn line, config)
  | .overflow => .overflow
  | .forever => .forever

theorem strlen_evfReadLinePreprocess {config line rest : CString}
    (h : evfReadLinePreprocess config = .done (line, rest)) (hrest : ¬ feof rest) : rest.strlen < config.strlen := by
  fun_induction evfReadLinePreprocess config with
  | case1 => cases h
  | case2 config str after hroom line' line'' hdone =>
      obtain rfl : after = rest := (Prod.mk.inj (Outcome.done.inj h)).2
      refine strlen_scanLine fun hnil => hdone.elim (fun hline => hline ?_) hrest
      have hline' : line'.bytes = [] := by
        change str.bytes.dropWhile isspace = []
        rw [show str.bytes = [] from hnil]
        rfl
      simp only [line'']
      split
      · rfl
      · exact hline'
  | case3 => cases h
  | case4 config str after hroom line' line'' hgo hstr ih => exact (ih h).trans (strlen_scanLine hstr)

/-- The separator is written behind a line, if both fit: what is in the buffer, and how much room is left from the
place on where the next line goes. -/
def copyLine (buf : CString × Nat) (line : CString) : CString × Nat :=
  if 0 < buf.2 ∧ line.strlen < buf.2 - 2 then
    (buf.1.append (line.append (CString.literal " ")), buf.2 - (line.strlen + 1))
  else buf

/-- `none` is -2. -/
def getFilterParams (config : CString) (buf : CString × Nat) : Outcome (Option CString × CString) :=
  match _h : evfReadLinePreprocess config with
  | .overflow => .overflow
  | .forever => .forever
  | .done (line, rest) =>
    if CString.strcasecmp line endFilter = 0 then .done (some buf.1, rest)
    else if _hend : feof rest then .done (none, rest)
    else getFilterParams rest (copyLine buf line)
termination_by config.strlen
decreasing_by exact strlen_evfReadLinePreprocess _h _hend

theorem strlen_getFilterName {config rest : CString} {ret : Option CString}
    (h : getFilterName config = .done (ret, rest)) (hrest : ¬ feof rest) : rest.strlen < config.strlen := by
  unfold getFilterName at h
  split at h
  · rename_i line rest' hread
    obtain rfl : rest' = rest := (Prod.mk.inj (Outcome.done.inj h)).2
    exact strlen_evfReadLinePreprocess hread hrest
  · cases h
  · cases h

theorem strlen_getFilterParams {config rest : CString} {buf : CString × Nat} {params : Option CString}
    (h : getFilterParams config buf = .done (params, rest)) (hrest : ¬ feof rest) : rest.strlen < config.strlen := by
  fun_induction getFilterParams config buf with
  | case1 => cases h
  | case2 => cases h
  | case3 config buf line after hread hend =>
      obtain rfl : after = rest := (Prod.mk.inj (Outcome.done.inj h)).2
      exact strlen_evfReadLinePreprocess hread hrest
  | case4 config buf line after hread hne hend =>
      obtain rfl : after = rest := (Prod.mk.inj (Outcome.done.inj h)).2
      exact absurd hend hrest
  | case5 config buf line after hread hne hend ih =>
      exact (ih h).trans (strlen_evfReadLinePreprocess hread hend)

variable {φ σ : Type}

/-- `do … while (!feof(config));`. The loader is `evf_filter_load`; what it works on besides is its state. -/
def loadLoop (evfFilterLoad : CString → CString → σ → Except EvfErr φ × σ) (config : CString) (filters : List φ)
    (s : σ) : Outcome (Except EvfErr (List φ) × σ) :=
  match _h : getFilterName config with
  | .overflow => .overflow
  | .forever => .forever
  | .done (ret, rest) =>
    if _hend : feof rest then .done (.ok filters, s)
    else
      match ret with
      | none => .done (.error .nofname, s)
      | some filter =>
        match _h' : getFilterParams rest (CString.literal "", 4096) with
        | .overflow => .overflow
        | .forever => .forever
        | .done (none, _) => .done (.error .noparams, s)
        | .done (some params, rest') =>
          match evfFilterLoad filter params s with
          | (.error err, s) => .done (.error err, s)
          | (.ok tmp, s) =>
            if _hend' : feof rest' then .done (.ok (filters ++ [tmp]), s)
            else loadLoop evfFilterLoad rest' (filters ++ [tmp]) s
termination_by config.strlen
decreasing_by exact (strlen_getFilterParams _h' _hend').trans (strlen_getFilterName _h _hend)

/-- The result of `fopen` is an `errno` or the text of the file. -/
def evfLoadFilters (evfFilterLoad : CString → CString → σ → Except EvfErr φ × σ) (config : Except Int32 CString)
    (s : σ) : Outcome (Except EvfErr (List φ) × σ) :=
  match config with
  | .error errno => .done (.error (.errno errno), s)
  | .ok config => loadLoop evfFilterLoad config [] s

end Evfilter.Loader
