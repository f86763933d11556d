import Evfilter.Loader.BlockText

/-!
# Files of several blocks

Blocks one below the other are loaded one after the other, up to the first that fails.
-/

namespace Evfilter.Loader
open Lib Param

def document (bs : List Block) : List UInt8 := bs.flatMap Block.text

/-- Behind EndFilter there is a newline, at the end of the file it may be missing. -/
def Below (bs : List Block) : Prop := ∀ b ∈ bs.dropLast, b.tail ≠ []

variable {φ σ : Type} (load : CString → CString → σ → Except EvfErr φ × σ)

/-- The filters of some blocks, each with its name and what has been collected of its lines. -/
def loadBlocks : List (CString × CString) → σ → Except EvfErr (List φ) × σ
  | [], s => (.ok [], s)
  | (name, params) :: blocks, s =>
    match load name params s with
    | (.error err, s) => (.error err, s)
    | (.ok filter, s) => ((loadBlocks blocks s).1.map (filter :: ·), (loadBlocks blocks s).2)

namespace Block

def header (b : Block) : CString := (CString.literal "FilterName = ").append b.name

/-- The lines of the block, with those at both ends. -/
def allEntries (b : Block) : List CString := b.header :: (b.entries ++ [endFilter])

/-- What the block is loaded from. -/
def source (b : Block) : CString × CString := (b.name.trunc 255, collected (b.paramLines.map ParamLine.line))

/-- No line is too long for the buffer. -/
def Short (b : Block) : Prop := 13 + b.name.strlen < bufLen ∧ ∀ e ∈ b.entries, e.strlen < bufLen

end Block

variable {load} {b : Block} {bs : List Block} {text : CString} {filters : List φ} {s s' : σ}

/-! ## The lines of a file -/

theorem Below.tail {b : Block} (h : Below (b :: bs)) : Below bs := by
  cases bs with
  | nil => exact fun b hb => nomatch hb
  | cons c bs => exact fun d hd => h d (List.mem_cons_of_mem _ hd)

theorem document_cons_fresh : ∀ c ∈ (document (b :: bs)).head?, isspace c = false := by
  intro c hc
  obtain rfl : 70 = c := Option.some.inj hc
  decide

/-- The whitespace between two blocks is passed. -/
theorem dropWhile_document {gap : List UInt8} (hgap : Spaces gap) :
    (gap ++ document bs).dropWhile isspace = document bs := by
  rw [List.dropWhile_append_of_pos hgap]
  cases bs with
  | nil => rfl
  | cons b bs =>
      obtain ⟨bytes, hbytes⟩ : ∃ bytes, document (b :: bs) = 70 :: bytes := ⟨_, rfl⟩
      rw [hbytes, List.dropWhile_cons_of_neg (by decide)]

namespace Block

/-- The whole lines of the block, each with the whitespace in front of it. -/
def rows (b : Block) : List (List UInt8 × CString) :=
  ([], b.header) :: (b.lines.map (fun l => (l.lead, l.content.line)) ++ [([], endFilter)])

theorem header_line_fresh (b : Block) : newline ∉ b.header.bytes ∧ b.header.Fresh := by
  have hlit : newline ∉ (CString.literal "FilterName = ").bytes := by decide
  refine ⟨fun hmem => (List.mem_append.mp hmem).elim hlit b.name_line, fun c hc => ?_⟩
  obtain rfl : 70 = c := Option.some.inj hc
  decide

theorem mem_rows {r : List UInt8 × CString} (h : r ∈ b.rows) :
    (∀ c ∈ r.1, isspace c = true) ∧ newline ∉ r.1 ++ r.2.bytes ∧ r.2.Fresh := by
  obtain rfl | hmem := List.mem_cons.mp h
  · exact ⟨List.forall_mem_nil _, b.header_line_fresh⟩
  obtain hline | hlast := List.mem_append.mp hmem
  · obtain ⟨l, -, rfl⟩ := List.mem_map.mp hline
    exact ⟨l.lead_spaces, l.one_line, l.content.fresh⟩
  · obtain rfl := List.mem_singleton.mp hlast
    exact ⟨List.forall_mem_nil _, by decide, by decide⟩

theorem rows_entries (b : Block) : ((b.rows.map Prod.snd).filter fun l => l.bytes ≠ []) = b.allEntries := by
  have hne : b.header.bytes ≠ [] := List.append_ne_nil_of_left_ne_nil (by decide) _
  have hlast : ([endFilter].filter fun l => l.bytes ≠ []) = [endFilter] := by decide
  rw [rows, List.map_cons, List.filter_cons_of_pos (by simpa using hne), List.map_append, List.map_map,
    List.filter_append]
  exact congrArg _ (congrArg _ hlast)

theorem rows_text (b : Block) : (b.rows.flatMap fun r => r.1 ++ r.2.bytes ++ [newline]) =
    (CString.literal "FilterName = ").bytes ++ b.name.bytes ++ [newline] ++
      ((b.lines.flatMap fun l => l.lead ++ l.content.line.bytes ++ [newline]) ++ (endFilter.bytes ++ [newline])) := by
  rw [rows, List.flatMap_cons, List.flatMap_append, List.flatMap_map]
  rfl

end Block

theorem entries_document (h : text.bytes = document bs) (hbelow : Below bs) :
    text.entries = bs.flatMap Block.allEntries := by
  induction bs generalizing text with
  | nil => exact CString.entries_nil h
  | cons b bs ih =>
      cases htail : b.tail with
      | nil =>
          obtain rfl : bs = [] := by
            cases bs with
            | nil => rfl
            | cons c bs => exact absurd htail (hbelow b List.mem_cons_self)
          obtain ⟨header, hheader, hentries⟩ := Block.entries_text (b := b) (h.trans (List.append_nil _))
          rw [hentries, CString.ext (s := header) (t := b.header) hheader]
          exact (List.append_nil _).symm
      | cons c gap =>
          obtain rfl : c = newline := b.tail_newline c (by rw [htail]; rfl)
          have hgap : Spaces gap := fun c hc => b.tail_spaces c (by rw [htail]; exact List.mem_cons_of_mem _ hc)
          have hbytes : text.bytes =
              (b.rows.flatMap fun r => r.1 ++ r.2.bytes ++ [newline]) ++ (gap ++ document bs) := by
            rw [h, document, List.flatMap_cons, Block.text, htail, Block.rows_text]
            simp only [List.append_assoc, List.cons_append, List.nil_append]
            rfl
          let rest : CString := ⟨gap ++ document bs, fun h0 => text.nulFree (by
            rw [hbytes]
            exact List.mem_append_right _ h0)⟩
          have hrest : rest.entries = bs.flatMap Block.allEntries := by
            rw [← CString.entries_dropWhile]
            exact ih (dropWhile_document hgap) hbelow.tail
          rw [CString.entries_rows (t := rest) (fun r hr => (Block.mem_rows hr).1)
            (fun r hr => (Block.mem_rows hr).2.1) (fun r hr => (Block.mem_rows hr).2.2) hbytes, hrest,
            Block.rows_entries, List.flatMap_cons]

/-! ## Loading the blocks -/

theorem loadBlocks_cons (load : CString → CString → σ → Except EvfErr φ × σ) (b : Block) (bs : List Block) (s : σ) :
    loadBlocks load ((b :: bs).map Block.source) s =
      match load b.source.1 b.source.2 s with
      | (.error err, s) => (.error err, s)
      | (.ok filter, s) => ((loadBlocks load (bs.map Block.source) s).1.map (filter :: ·),
          (loadBlocks load (bs.map Block.source) s).2) := rfl

/-- A block is loaded once its lines have been put together, then the rest of the file. -/
theorem run_closed {name closing : CString} {buf : CString × Nat} {es rest : List CString}
    (hes : ∀ e ∈ es, ¬ Closes e ∧ e.strlen < bufLen) (hcl : Closes closing) (hc : ¬ Comment closing)
    (hlen : closing.strlen < bufLen) : run load (.inside name buf) filters s (es ++ closing :: rest) =
      match load name ((significant es).foldl copyLine buf).1 s with
      | (.error err, s) => .done (.error err, s)
      | (.ok filter, s) => run load .outside (filters ++ [filter]) s rest := by
  induction es generalizing buf with
  | nil =>
      rw [List.nil_append, run_cons, if_neg (Nat.not_le.mpr hlen), if_neg hc]
      dsimp only
      rw [if_pos hcl]
      rfl
  | cons e es ih =>
      obtain ⟨⟨he, hlt⟩, hes⟩ := List.forall_mem_cons.mp hes
      rw [List.cons_append, run_cons, if_neg (Nat.not_le.mpr hlt)]
      by_cases hce : Comment e
      · rw [if_pos hce, ih hes, significant_comment hce]
      · rw [if_neg hce, significant_cons hce]
        dsimp only
        rw [if_neg he, ih hes, List.foldl_cons]

theorem run_document (hshort : ∀ b ∈ bs, b.Short) : run load .outside filters s (bs.flatMap Block.allEntries) =
    .done ((loadBlocks load (bs.map Block.source) s).1.map (filters ++ ·),
      (loadBlocks load (bs.map Block.source) s).2) := by
  induction bs generalizing filters s with
  | nil =>
      rw [List.map_nil, loadBlocks, Except.map, List.append_nil]
      rfl
  | cons b bs ih =>
      obtain ⟨⟨hname, hentries⟩, hshort⟩ := List.forall_mem_cons.mp hshort
      obtain ⟨hc, hlen⟩ : ¬ Comment b.header ∧ b.header.strlen = 13 + b.name.strlen := Block.header_line rfl
      have hlt : ¬ bufLen ≤ b.header.strlen := Nat.not_le.mpr (hlen ▸ hname)
      have hsplit : (b :: bs).flatMap Block.allEntries =
          b.header :: (b.entries ++ endFilter :: bs.flatMap Block.allEntries) := by
        rw [List.flatMap_cons, Block.allEntries, List.cons_append, List.append_assoc]
        rfl
      rw [hsplit, run_cons, if_neg hlt, if_neg hc]
      dsimp only
      rw [if_neg (by simp), nameIn_header b.name_fresh rfl]
      dsimp only
      rw [run_closed (fun e he => ⟨Block.mem_entries_not_closes he, hentries e he⟩) endFilter_line.1
        endFilter_line.2.1 endFilter_line.2.2, Block.significant_entries, loadBlocks_cons]
      change (match load b.source.1 b.source.2 s with | (.error err, s) => _ | (.ok filter, s) => _) = _
      cases load b.source.1 b.source.2 s with
      | mk r s₁ =>
          cases r with
          | error err => rfl
          | ok filter =>
              dsimp only
              rw [ih hshort]
              cases (loadBlocks load (bs.map Block.source) s₁).1 with
              | error err => rfl
              | ok later => simp only [Except.map, List.append_assoc, List.cons_append, List.nil_append]

/-- The blocks of a file are loaded in order. -/
theorem evfLoadFilters_document (h : text.bytes = document bs) (hbelow : Below bs) (hshort : ∀ b ∈ bs, b.Short) :
    evfLoadFilters load (.ok text) s = .done (loadBlocks load (bs.map Block.source) s) := by
  have hrun : run load .outside [] s text.entries = .done (loadBlocks load (bs.map Block.source) s) := by
    rw [entries_document h hbelow, run_document hshort]
    cases loadBlocks load (bs.map Block.source) s with
    | mk r s₁ => cases r <;> rfl
  rw [evfLoadFilters, ← hrun]
  cases bs with
  | nil =>
      have hbytes : text.bytes = [] := h
      refine loadLoop_eq ?_ ?_
      · simp [hbytes]
      · rw [CString.strlen, CString.line, CString.bytes_takeWhile, hbytes]
        decide
  | cons b bs =>
      obtain ⟨bytes, hbytes⟩ : ∃ bytes, text.bytes = 70 :: bytes := ⟨_, h⟩
      have hfresh : text.Fresh := by
        rw [CString.Fresh, h]
        exact document_cons_fresh
      have hline : text.line = b.header := by
        have hentries := entries_document h hbelow
        rw [hfresh.entries_cons (by rw [hbytes]; exact List.cons_ne_nil _ _)] at hentries
        exact (List.cons.inj hentries).1
      refine loadLoop_eq ?_ ?_
      · rw [hbytes]
        exact fun hnl => absurd (Option.some.inj hnl) (by decide)
      · rw [hline, (Block.header_line (b := b) rfl).2]
        exact (hshort b List.mem_cons_self).1

theorem loadBlocks_ok
    (h : List.Forall₂ (fun (b : Block) f => ∀ s, load b.source.1 b.source.2 s = (.ok f, s)) bs filters) :
    loadBlocks load (bs.map Block.source) s = (.ok filters, s) := by
  induction h with
  | nil => rfl
  | cons hb _ ih =>
      rw [loadBlocks_cons, hb s]
      dsimp only
      rw [ih]
      rfl

theorem Block.nulFree (b : Block) : 0 ∉ b.text := by
  have hspaces {bytes : List UInt8} (h : Spaces bytes) : 0 ∉ bytes := fun h0 => absurd (h 0 h0) (by decide)
  have hline : 0 ∉ b.lines.flatMap fun l => l.lead ++ l.content.line.bytes ++ [newline] := by
    intro h0
    obtain ⟨l, -, hl⟩ := List.mem_flatMap.mp h0
    simp only [List.mem_append, List.mem_singleton] at hl
    rcases hl with (hl | hl) | hl
    · exact hspaces l.lead_spaces hl
    · exact l.content.line.nulFree hl
    · exact absurd hl (by decide)
  have hends : 0 ∉ (CString.literal "FilterName = ").bytes ∧ 0 ∉ endFilter.bytes ∧ (0 : UInt8) ≠ newline := by decide
  simp only [Block.text, List.mem_append, List.mem_singleton, not_or]
  exact ⟨⟨⟨hends.1, b.name.nulFree⟩, hends.2.2⟩, hline, hends.2.1, hspaces b.tail_spaces⟩

theorem nulFree_document (bs : List Block) : 0 ∉ document bs := fun h0 => by
  obtain ⟨b, -, hb⟩ := List.mem_flatMap.mp h0
  exact b.nulFree hb

/-! ## What has been loaded -/

theorem Loads.made {lines : List CString} (h : Loads load lines s filters s') :
    ∀ f ∈ filters, ∃ name params t t', load name params t = (.ok f, t') := by
  induction h with
  | nil => exact List.forall_mem_nil _
  | block hname hls hclosing hload hrest ih => exact List.forall_mem_cons.mpr ⟨⟨_, _, _, _, hload⟩, ih⟩

/-- Whatever file they are loaded from, all filters come from `evf_filter_load`. -/
theorem evfLoadFilters_made (h : evfLoadFilters load (.ok text) s = .done (.ok filters, s')) :
    ∀ f ∈ filters, ∃ name params t t', load name params t = (.ok f, t') := by
  have hnl : text.bytes.head? ≠ some newline := fun hnl => by
    rw [evfLoadFilters, loadLoop_newline hnl] at h
    cases h
  have hlt : text.line.strlen < bufLen := Nat.lt_of_not_le fun hlong => by
    rw [evfLoadFilters, loadLoop_long hlong] at h
    cases h
  rw [evfLoadFilters, loadLoop_eq hnl hlt] at h
  have hshort : ¬ MeetsLong load text.entries s .outside := fun hlong => by
    rw [run_overflow_iff.mpr hlong] at h
    cases h
  obtain ⟨later, rfl, hloads | ⟨before, last, -, -, hloads⟩⟩ := (run_ok_iff hshort).mp h
  · exact Loads.made hloads
  · exact Loads.made hloads

end Evfilter.Loader
