import Evfilter.Loader.Load

/-!
# The loader, one line after the other

The three loops taken together step from entry to entry of the text. `loadLoop_eq` is that the scanner, which is
always a line of whitespace ahead, does not make a difference but for the last line.
-/

namespace Evfilter.Loader
open Lib Param

/-- The next line is to start a block, or belongs to one with this name and these lines so far. -/
inductive Place
  | outside
  | inside (name : CString) (buf : CString × Nat)

def Comment (line : CString) : Prop := line.bytes.head? = some hash

def Closes (line : CString) : Prop := CString.strcasecmp line endFilter = 0

instance (line : CString) : Decidable (Comment line) := inferInstanceAs (Decidable (line.bytes.head? = some hash))

instance (line : CString) : Decidable (Closes line) :=
  inferInstanceAs (Decidable (CString.strcasecmp line endFilter = 0))

def emptyBuf : CString × Nat := (CString.literal "", bufLen)

variable {φ σ : Type} (load : CString → CString → σ → Except EvfErr φ × σ)

def run : Place → List φ → σ → List CString → Outcome (Except EvfErr (List φ) × σ)
  | .outside, filters, s, [] => .done (.ok filters, s)
  | .inside _ _, _, s, [] => .done (.error .noparams, s)
  | place, filters, s, e :: es =>
    if bufLen ≤ e.strlen then .overflow
    else if Comment e then run place filters s es
    else
      match place with
      | .outside =>
        -- `feof` holds already, and is asked for first.
        if es = [] then .done (.ok filters, s)
        else
          match nameIn e with
          | none => .done (.error .nofname, s)
          | some name => run (.inside name emptyBuf) filters s es
      | .inside name buf =>
        if Closes e then
          match load name buf.1 s with
          | (.error err, s) => .done (.error err, s)
          | (.ok filter, s) => run .outside (filters ++ [filter]) s es
        else run (.inside name (copyLine buf e)) filters s es

/-! ## Reading a line -/

variable {config e : CString} {es : List CString} {load}

theorem scanLine_short (hne : config.line.bytes ≠ []) (hlt : config.line.strlen < bufLen) :
    scanLine config = (config.line, config.next) := by
  have htrunc : config.line.trunc 4096 = config.line := CString.trunc_of_le hlt.le
  have hdrop : config.drop config.line.strlen = config.dropWhile (· != newline) := by
    refine CString.ext ?_
    rw [CString.bytes_drop, CString.bytes_dropWhile]
    conv => enter [1, 2]; rw [← List.takeWhile_append_dropWhile (p := (· != newline)) (l := config.bytes)]
    exact List.drop_left
  simp only [scanLine, htrunc, if_neg hne, hdrop, CString.next]

theorem read_long (hlong : bufLen ≤ config.line.strlen) : evfReadLinePreprocess config = .overflow := by
  have htrunc : (scanLine config).1.strlen = bufLen := by
    rw [scanLine, CString.strlen_trunc]
    exact Nat.min_eq_left hlong
  rw [evfReadLinePreprocess]
  simp only [htrunc, Nat.le_refl, ↓reduceIte]

/-- A line without the whitespace in front of it, or nothing for a comment. -/
def content (line : CString) : CString :=
  if Comment (line.dropWhile isspace) then (line.dropWhile isspace).trunc 0 else line.dropWhile isspace

theorem read_line (hne : config.line.bytes ≠ []) (hlt : config.line.strlen < bufLen) :
    evfReadLinePreprocess config =
      if (content config.line).bytes ≠ [] ∨ feof config.next then .done (content config.line, config.next)
      else evfReadLinePreprocess config.next := by
  have hscan := scanLine_short hne hlt
  rw [evfReadLinePreprocess]
  simp only [hscan, Nat.not_le.mpr hlt, ↓reduceIte, hne, ↓reduceDIte]
  rfl

theorem read_entry (h : config.Fresh) (hne : config.bytes ≠ []) (hlt : config.line.strlen < bufLen)
    (hc : ¬ Comment config.line) : evfReadLinePreprocess config = .done (config.line, config.next) := by
  have hcontent : content config.line = config.line := by rw [content, h.line_dropWhile, if_neg hc]
  rw [read_line (h.line_ne_nil hne) hlt, hcontent, if_pos (.inl (h.line_ne_nil hne))]

theorem read_comment (h : config.Fresh) (hne : config.bytes ≠ []) (hlt : config.line.strlen < bufLen)
    (hc : Comment config.line) :
    evfReadLinePreprocess config =
      if feof config.next then .done (config.line.trunc 0, config.next) else evfReadLinePreprocess config.next := by
  have hcontent : content config.line = config.line.trunc 0 := by rw [content, h.line_dropWhile, if_pos hc]
  rw [read_line (h.line_ne_nil hne) hlt, hcontent]
  exact if_congr (or_iff_right fun hbytes => hbytes rfl) rfl rfl

theorem read_nil (h : feof config) : evfReadLinePreprocess config = .done (config, config) := by
  have hline : config.line.trunc 4096 = config := by
    refine CString.ext ?_
    change (config.bytes.takeWhile _).take 4096 = config.bytes
    rw [show config.bytes = [] from h]
    rfl
  have hscan : scanLine config = (config, config) := by
    simp only [scanLine, hline]
    rw [if_pos (show config.bytes = [] from h)]
  have htrim : config.dropWhile isspace = config := by
    refine CString.ext ?_
    rw [CString.bytes_dropWhile, show config.bytes = [] from h]
    rfl
  have hlen : ¬ bufLen ≤ config.strlen := by
    rw [CString.strlen, show config.bytes = [] from h]
    decide
  rw [evfReadLinePreprocess]
  simp [hscan, hlen, htrim, show config.bytes = [] from h, h]

/-- Whitespace at the start of the text is part of its first line, but it makes no difference. -/
theorem read_start (hnl : config.bytes.head? ≠ some newline) (hlt : config.line.strlen < bufLen) :
    evfReadLinePreprocess config = evfReadLinePreprocess (config.dropWhile isspace) := by
  by_cases hnil : config.bytes = []
  · have hsame : config.dropWhile isspace = config := CString.ext (by rw [CString.bytes_dropWhile, hnil]; rfl)
    rw [hsame]
  have hne : config.line.bytes ≠ [] := by
    obtain ⟨c, bytes, hb⟩ := List.exists_cons_of_ne_nil hnil
    have hc : (c != newline) = true := by simpa [hb] using hnl
    change config.bytes.takeWhile _ ≠ []
    rw [hb, List.takeWhile_cons, if_pos hc]
    exact List.cons_ne_nil _ _
  by_cases hblank : (config.line.dropWhile isspace).bytes = []
  · have hcontent : content config.line = config.line.dropWhile isspace := by
      rw [content, if_neg]
      rw [Comment, hblank]
      exact Option.some_ne_none hash ∘ Eq.symm
    rw [read_line hne hlt, hcontent, CString.dropWhile_of_blank hblank]
    by_cases hend : feof config.next
    · rw [if_pos (.inr hend), read_nil hend, CString.ext (hblank.trans (show config.next.bytes = [] from hend).symm)]
    · rw [if_neg (not_or.mpr ⟨fun h => h hblank, hend⟩)]
  · obtain ⟨hline, hnext⟩ := CString.dropWhile_of_line hblank
    have hfresh := CString.fresh_dropWhile config
    have hcontent : content (config.dropWhile isspace).line = content config.line := by
      rw [content, hfresh.line_dropWhile, hline, content]
    have hshort : (config.dropWhile isspace).line.strlen < bufLen := by
      rw [hline]
      exact (List.dropWhile_suffix _).length_le.trans_lt hlt
    rw [read_line hne hlt, read_line (hline ▸ hblank) hshort, hcontent, hnext]

/-! ## Loading -/

variable {filters : List φ} {s : σ} {name : CString} {buf : CString × Nat}

/-- What `evf_load_filters` does with the result of `get_filter_params`. -/
def finish (load : CString → CString → σ → Except EvfErr φ × σ) (filters : List φ) (s : σ) (filter : CString) :
    Outcome (Option CString × CString) → Outcome (Except EvfErr (List φ) × σ)
  | .overflow => .overflow
  | .forever => .forever
  | .done (none, _) => .done (.error .noparams, s)
  | .done (some params, rest) =>
    match load filter params s with
    | (.error err, s) => .done (.error err, s)
    | (.ok tmp, s) => if feof rest then .done (.ok (filters ++ [tmp]), s) else loadLoop load rest (filters ++ [tmp]) s

theorem loadLoop_read : loadLoop load config filters s =
    match evfReadLinePreprocess config with
    | .overflow => .overflow
    | .forever => .forever
    | .done (line, rest) =>
      if feof rest then .done (.ok filters, s)
      else
        match nameIn line with
        | none => .done (.error .nofname, s)
        | some filter => finish load filters s filter (getFilterParams rest emptyBuf) := by
  rw [loadLoop]
  cases hread : evfReadLinePreprocess config with
  | overflow =>
      have hname : getFilterName config = .overflow := by rw [getFilterName, hread]
      split <;> simp_all
  | forever =>
      have hname : getFilterName config = .forever := by rw [getFilterName, hread]
      split <;> simp_all
  | done a =>
      obtain ⟨line, rest⟩ := a
      have hname : getFilterName config = .done (nameIn line, rest) := by rw [getFilterName, hread]
      split
      · simp_all
      · simp_all
      · rename_i ret rest' hret
        obtain ⟨rfl, rfl⟩ := Prod.mk.inj (Outcome.done.inj (hret.symm.trans hname))
        by_cases hend : feof rest'
        · simp only [hend, ↓reduceDIte, ↓reduceIte]
        · simp only [hend, ↓reduceDIte, ↓reduceIte]
          split
          · rename_i hnone _
            rw [hnone]
          · rename_i filter _ hsome _
            rw [hsome, emptyBuf]
            dsimp only
            split
            · simp_all [finish]
            · simp_all [finish]
            · simp_all [finish]
            · simp_all only [finish]
              rfl

theorem getFilterParams_read : getFilterParams config buf =
    match evfReadLinePreprocess config with
    | .overflow => .overflow
    | .forever => .forever
    | .done (line, rest) =>
      if Closes line then .done (some buf.1, rest)
      else if feof rest then .done (none, rest)
      else getFilterParams rest (copyLine buf line) := by
  rw [getFilterParams]
  split
  · simp_all only
  · simp_all only
  · simp_all only [Closes]
    rfl

theorem not_closes_nil (h : feof config) : ¬ Closes config := by
  intro hc
  have hfold := CString.strcasecmp_eq_zero.mp hc
  rw [CString.fold, show config.bytes = [] from h] at hfold
  exact absurd hfold (by decide)

theorem run_cons (place : Place) : run load place filters s (e :: es) =
    if bufLen ≤ e.strlen then .overflow
    else if Comment e then run load place filters s es
    else
      match place with
      | .outside =>
        if es = [] then .done (.ok filters, s)
        else
          match nameIn e with
          | none => .done (.error .nofname, s)
          | some name => run load (.inside name emptyBuf) filters s es
      | .inside name buf =>
        if Closes e then
          match load name buf.1 s with
          | (.error err, s) => .done (.error err, s)
          | (.ok filter, s) => run load .outside (filters ++ [filter]) s es
        else run load (.inside name (copyLine buf e)) filters s es := by
  cases place with
  | outside => rw [run]
  | inside name buf => rw [run]

/-- Nothing is loaded for a comment, the last line included. -/
theorem loadLoop_comment (h : config.Fresh) (hne : config.bytes ≠ []) (hlt : config.line.strlen < bufLen)
    (hc : Comment config.line) : loadLoop load config filters s = loadLoop load config.next filters s := by
  rw [loadLoop_read, read_comment h hne hlt hc, loadLoop_read]
  by_cases hlast : feof config.next
  · rw [if_pos hlast, read_nil hlast]
    dsimp only
    rw [if_pos hlast, if_pos hlast]
  · rw [if_neg hlast]

theorem finish_comment (h : config.Fresh) (hne : config.bytes ≠ []) (hlt : config.line.strlen < bufLen)
    (hc : Comment config.line) : finish load filters s name (getFilterParams config buf) =
      finish load filters s name (getFilterParams config.next buf) := by
  rw [getFilterParams_read, read_comment h hne hlt hc, getFilterParams_read]
  by_cases hlast : feof config.next
  · have hnil : feof (config.line.trunc 0) := rfl
    rw [if_pos hlast, read_nil hlast]
    dsimp only
    rw [if_neg (not_closes_nil hnil), if_neg (not_closes_nil hlast), if_pos hlast, if_pos hlast]
  · rw [if_neg hlast]

/-- By induction on the entries. -/
theorem load_places (h : config.Fresh) :
    (∀ filters s, loadLoop load config filters s = run load .outside filters s config.entries) ∧
      ∀ filters s name buf, finish load filters s name (getFilterParams config buf) =
        run load (.inside name buf) filters s config.entries := by
  obtain ⟨es, hes⟩ : ∃ es, config.entries = es := ⟨_, rfl⟩
  induction es generalizing config with
  | nil =>
      have hend : feof config := h.entries_eq_nil.mp hes
      rw [hes]
      refine ⟨fun filters s => ?_, fun filters s name buf => ?_⟩
      · rw [loadLoop_read, read_nil hend]
        simp only [hend, ↓reduceIte, run]
      · rw [getFilterParams_read, read_nil hend]
        dsimp only
        rw [if_neg (not_closes_nil hend), if_pos hend]
        rfl
  | cons e es ih =>
      have hne : config.bytes ≠ [] := fun hnil => by
        rw [CString.entries_nil hnil] at hes
        cases hes
      rw [h.entries_cons hne] at hes ⊢
      obtain ⟨rfl, hnext⟩ := List.cons.inj hes
      obtain ⟨houtside, hinside⟩ := ih config.fresh_next hnext
      have hend : feof config.next ↔ config.next.entries = [] := config.fresh_next.entries_eq_nil.symm
      by_cases hlong : bufLen ≤ config.line.strlen
      · have hread := read_long hlong
        refine ⟨fun filters s => ?_, fun filters s name buf => ?_⟩
        · rw [loadLoop_read, hread, run_cons, if_pos hlong]
        · rw [getFilterParams_read, hread, run_cons, if_pos hlong]
          rfl
      by_cases hc : Comment config.line
      · have hlt := Nat.lt_of_not_le hlong
        refine ⟨fun filters s => ?_, fun filters s name buf => ?_⟩
        · rw [run_cons, if_neg hlong, if_pos hc, ← houtside, loadLoop_comment h hne hlt hc]
        · rw [run_cons, if_neg hlong, if_pos hc, ← hinside, finish_comment h hne hlt hc]
      · have hread := read_entry h hne (Nat.lt_of_not_le hlong) hc
        refine ⟨fun filters s => ?_, fun filters s name buf => ?_⟩
        · rw [loadLoop_read, hread, run_cons, if_neg hlong, if_neg hc]
          dsimp only
          by_cases hlast : feof config.next
          · rw [if_pos hlast, if_pos (hend.mp hlast)]
          · rw [if_neg hlast, if_neg (mt hend.mpr hlast)]
            cases nameIn config.line with
            | none => rfl
            | some name => exact hinside filters s name emptyBuf
        · rw [getFilterParams_read, hread, run_cons, if_neg hlong, if_neg hc]
          dsimp only
          by_cases hcl : Closes config.line
          · rw [if_pos hcl, if_pos hcl, finish]
            split
            · rfl
            · rename_i tmp s' _
              by_cases hlast : feof config.next
              · rw [if_pos hlast, hend.mp hlast, run]
              · rw [if_neg hlast, houtside]
          · rw [if_neg hcl, if_neg hcl]
            by_cases hlast : feof config.next
            · rw [if_pos hlast, hend.mp hlast, run]
              rfl
            · rw [if_neg hlast, hinside]

/-- For every text but those that start with a newline, or with a line that is too long. -/
theorem loadLoop_eq (hnl : config.bytes.head? ≠ some newline) (hlt : config.line.strlen < bufLen) :
    loadLoop load config filters s = run load .outside filters s config.entries := by
  rw [loadLoop_read, read_start hnl hlt, ← loadLoop_read, (load_places config.fresh_dropWhile).1,
    CString.entries_dropWhile]

theorem loadLoop_long (hlong : bufLen ≤ config.line.strlen) : loadLoop load config filters s = .overflow := by
  rw [loadLoop_read, read_long hlong]

theorem read_newline (hnl : config.bytes.head? = some newline) : evfReadLinePreprocess config = .forever := by
  have hline : config.line.bytes = [] := by
    obtain ⟨bytes, hb⟩ : ∃ bytes, config.bytes = newline :: bytes := ⟨_, List.eq_cons_of_mem_head? hnl⟩
    change config.bytes.takeWhile _ = []
    rw [hb]
    rfl
  have htrunc : (config.line.trunc 4096).bytes = [] := by
    change config.line.bytes.take 4096 = []
    rw [hline]
    rfl
  have hscan : scanLine config = (config.line.trunc 4096, config) := by
    simp only [scanLine, if_pos htrunc]
  have hend : ¬ feof config := fun h => by
    rw [show config.bytes = [] from h] at hnl
    cases hnl
  rw [evfReadLinePreprocess]
  simp [hscan, CString.strlen, htrunc, hend]

theorem loadLoop_newline (hnl : config.bytes.head? = some newline) : loadLoop load config filters s = .forever := by
  rw [loadLoop_read, read_newline hnl]

end Evfilter.Loader
