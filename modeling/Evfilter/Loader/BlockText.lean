import Evfilter.Loader.Blocks
import Evfilter.Param.Syntax

/-!
# The text of a block

A block as it stands in a file, the lines that it is read as, and what `evf_load_filters` does with them.
-/

namespace Evfilter.Loader
open Lib Param

abbrev space : UInt8 := 32

/-! ## Blocks -/

/-- Parameters on one line, from the first name on. A name does not start with '#'. -/
structure ParamLine where
  line : CString
  rendering : Rendering
  trail : List UInt8
  line_eq : line.bytes = rendering.text ++ trail
  trail_spaces : Spaces trail
  spaced : rendering.Spaced
  starts : ∃ a rest, rendering = ([], a) :: rest ∧ a.name.bytes.head? ≠ some hash

inductive Content
  | blank
  | comment (line : CString) (h : Comment line)
  | params (p : ParamLine)

def Content.line : Content → CString
  | blank => CString.literal ""
  | comment line _ => line
  | params p => p.line

structure BlockLine where
  lead : List UInt8
  content : Content
  lead_spaces : Spaces lead
  one_line : newline ∉ lead ++ content.line.bytes

/-- The file ends after EndFilter, or there is whitespace on further lines. -/
structure Block where
  name : CString
  lines : List BlockLine
  tail : List UInt8
  name_line : newline ∉ name.bytes
  name_fresh : name.Fresh
  tail_spaces : Spaces tail
  tail_newline : ∀ c ∈ tail.head?, c = newline

namespace Block

def text (b : Block) : List UInt8 :=
  (CString.literal "FilterName = ").bytes ++ b.name.bytes ++ [newline] ++
    ((b.lines.flatMap fun l => l.lead ++ l.content.line.bytes ++ [newline]) ++ (endFilter.bytes ++ b.tail))

def paramLines (b : Block) : List ParamLine :=
  b.lines.filterMap fun l => match l.content with
    | .params p => some p
    | _ => none

def comments (b : Block) : List CString :=
  b.lines.filterMap fun l => match l.content with
    | .comment line _ => some line
    | _ => none

/-- The lines of parameters without the whitespace around them, joined by single spaces. -/
def params (b : Block) : List UInt8 := [space].intercalate (b.paramLines.map fun p => p.rendering.text)

/-- All parameters of the block, in order. -/
def pairs (b : Block) : List (CString × CString) := b.paramLines.flatMap fun p => p.rendering.pairs

/-- The lines with something on them. -/
def entries (b : Block) : List CString := (b.lines.map fun l => l.content.line).filter fun l => l.bytes ≠ []

end Block

/-! ## The lines of a block -/

theorem ParamLine.name_mem (p : ParamLine) : ∃ a : Assignment, ∃ bytes, p.line.bytes = a.name.bytes ++ bytes ∧
    (∃ c ∈ bytes, endsName c = true) ∧ a.name.bytes.head? ≠ some hash := by
  obtain ⟨a, rest, hr, hhash⟩ := p.starts
  obtain ⟨c, sep, hsep, hc⟩ := a.separator_head (a.quoted ++ (Rendering.text rest ++ p.trail))
  refine ⟨a, a.separator ++ (a.quoted ++ (Rendering.text rest ++ p.trail)), ?_, ⟨c, ?_, hc⟩, hhash⟩
  · rw [p.line_eq, hr, Rendering.text, List.flatMap_cons, Assignment.text]
    simp only [List.nil_append, List.append_assoc]
    rfl
  · rw [hsep]
    exact List.mem_cons_self

theorem ParamLine.line_ne_nil (p : ParamLine) : p.line.bytes ≠ [] := by
  obtain ⟨a, bytes, hline, ⟨c, hc, -⟩, -⟩ := p.name_mem
  rw [hline]
  exact fun hnil => List.ne_nil_of_mem hc (List.append_eq_nil_iff.mp hnil).2

theorem ParamLine.not_comment (p : ParamLine) : ¬ Comment p.line := by
  obtain ⟨a, bytes, hline, -, hhash⟩ := p.name_mem
  rw [Comment, hline, List.head?_append_of_ne_nil _ a.name_word.1]
  exact hhash

theorem ParamLine.fresh (p : ParamLine) : p.line.Fresh := by
  obtain ⟨a, bytes, hline, -, -⟩ := p.name_mem
  intro c hc
  rw [hline] at hc
  exact a.name_word.head bytes c hc

/-- Neither whitespace nor '=' is in EndFilter. -/
theorem tolower_notMem {c : UInt8} (h : endsName c = true) : CString.tolower c ∉ endFilter.fold := by
  have hall : ∀ n < 256, endsName (UInt8.ofNat n) = true → CString.tolower (UInt8.ofNat n) ∉ endFilter.fold := by
    decide +kernel
  have hc := hall c.toNat c.toNat_lt
  rw [UInt8.ofNat_toNat] at hc
  exact hc h

theorem not_closes_of_mem {line : CString} {c : UInt8} (hc : c ∈ line.bytes)
    (h : CString.tolower c ∉ endFilter.fold) : ¬ Closes line := by
  intro hcl
  rw [← CString.strcasecmp_eq_zero.mp hcl] at h
  exact h (List.mem_map_of_mem hc)

theorem ParamLine.not_closes (p : ParamLine) : ¬ Closes p.line := by
  obtain ⟨a, bytes, hline, ⟨c, hc, hends⟩, -⟩ := p.name_mem
  refine not_closes_of_mem (c := c) ?_ (tolower_notMem hends)
  rw [hline]
  exact List.mem_append_right _ hc

theorem Comment.not_closes {line : CString} (h : Comment line) : ¬ Closes line :=
  not_closes_of_mem (List.mem_of_head? h) (by decide)

theorem Content.fresh (c : Content) : c.line.Fresh := by
  cases c with
  | blank => exact fun c hc => nomatch hc
  | comment line h =>
      intro c hc
      obtain rfl : hash = c := Option.some.inj ((show line.bytes.head? = some hash from h).symm.trans hc)
      decide
  | params p => exact p.fresh

namespace Block

variable {b : Block}

theorem mem_entries {e : CString} (he : e ∈ b.entries) :
    (∃ p ∈ b.paramLines, e = p.line) ∨ (e ∈ b.comments ∧ Comment e) := by
  obtain ⟨hmem, hne⟩ := List.mem_filter.mp he
  obtain ⟨l, hl, rfl⟩ := List.mem_map.mp hmem
  cases hcontent : l.content with
  | blank =>
      rw [hcontent] at hne
      simp [Content.line, CString.literal] at hne
  | comment line h => exact .inr ⟨List.mem_filterMap.mpr ⟨l, hl, by rw [hcontent]; rfl⟩, h⟩
  | params p => exact .inl ⟨p, List.mem_filterMap.mpr ⟨l, hl, by rw [hcontent]⟩, rfl⟩

theorem significant_entries : significant b.entries = b.paramLines.map ParamLine.line := by
  unfold entries paramLines
  induction b.lines with
  | nil => rfl
  | cons l lines ih =>
      rw [List.map_cons, List.filter_cons, List.filterMap_cons]
      cases hcontent : l.content with
      | blank => simpa [Content.line, CString.literal] using ih
      | comment line h =>
          have hne : line.bytes ≠ [] := fun hnil => by
            rw [Comment, hnil] at h
            cases h
          simpa [Content.line, hne, significant_comment h] using ih
      | params p =>
          simpa [Content.line, p.line_ne_nil, significant_cons p.not_comment] using ih

theorem entries_text {text : CString} (h : text.bytes = b.text) :
    ∃ header : CString, header.bytes = (CString.literal "FilterName = ").bytes ++ b.name.bytes ∧
      text.entries = header :: (b.entries ++ [endFilter]) := by
  let header := (CString.literal "FilterName = ").append b.name
  let last : CString := ⟨endFilter.bytes ++ b.tail, fun h0 => text.nulFree (by
    rw [h]
    exact List.mem_append_right _ (List.mem_append_right _ h0))⟩
  let rows := ([], header) :: b.lines.map fun l => (l.lead, l.content.line)
  have hheader : newline ∉ header.bytes := by
    have hlit : newline ∉ (CString.literal "FilterName = ").bytes := by decide
    exact fun hmem => (List.mem_append.mp hmem).elim hlit b.name_line
  have hfresh : header.Fresh := by
    intro c hc
    obtain rfl : 70 = c := Option.some.inj hc
    decide
  have hrows : text.bytes = (rows.flatMap fun r => r.1 ++ r.2.bytes ++ [newline]) ++ last.bytes := by
    rw [h, Block.text, List.flatMap_cons, List.flatMap_map]
    exact (List.append_assoc _ _ _).symm
  have hlast : last.entries = [endFilter] :=
    CString.entries_last (by decide) (by decide) (by decide) b.tail_spaces b.tail_newline rfl
  refine ⟨header, rfl, ?_⟩
  have hne : header.bytes ≠ [] := List.append_ne_nil_of_left_ne_nil (by decide) _
  rw [CString.entries_rows ?_ ?_ ?_ hrows, hlast, List.map_cons, List.map_map,
    List.filter_cons_of_pos (by simpa using hne)]
  · rfl
  · exact List.forall_mem_cons.mpr ⟨List.forall_mem_nil _, List.forall_mem_map.mpr fun l _ => l.lead_spaces⟩
  · exact List.forall_mem_cons.mpr ⟨hheader, List.forall_mem_map.mpr fun l _ => l.one_line⟩
  · exact List.forall_mem_cons.mpr ⟨hfresh, List.forall_mem_map.mpr fun l _ => l.content.fresh⟩

end Block

/-! ## Running a block -/

variable {φ σ : Type} {load : CString → CString → σ → Except EvfErr φ × σ} {filters : List φ} {s : σ}
  {name e closing : CString} {es : List CString} {buf : CString × Nat}

theorem nameIn_header {header : CString} (hname : name.Fresh)
    (h : header.bytes = (CString.literal "FilterName = ").bytes ++ name.bytes) :
    nameIn header = some (name.trunc 255) := by
  have hlit : (CString.literal "FilterName = ").bytes = filterName.bytes ++ [space, equals, space] := by decide
  have hlen : filterName.bytes.length = 10 := by decide
  have hbytes : header.bytes = filterName.bytes ++ space :: equals :: space :: name.bytes := by
    rw [h, hlit, List.append_assoc]
    rfl
  have hprefix : CString.strncasecmp filterName header 10 = 0 := by
    have htake : header.trunc 10 = filterName := CString.ext (by
      change header.bytes.take 10 = _
      rw [hbytes, ← hlen, List.take_left])
    rw [CString.strncasecmp, htake]
    decide
  have hdrop : (header.drop 11).bytes = equals :: space :: name.bytes := by
    rw [CString.bytes_drop, hbytes, List.drop_append, hlen]
    simp [hlen]
  have hname : ((((header.drop 11).dropWhile isspace).accept equals).dropWhile isspace) = name := by
    refine CString.ext ?_
    rw [CString.bytes_dropWhile, CString.bytes_accept, CString.bytes_dropWhile, hdrop]
    exact congrArg CString.bytes hname.dropWhile_eq
  rw [nameIn, if_neg (not_not.mpr hprefix)]
  exact congrArg (fun s => some (CString.trunc 255 s)) hname

/-- The filter of a block is loaded once its lines have been put together. -/
theorem run_block (hes : ∀ e ∈ es, ¬ Closes e ∧ e.strlen < bufLen) (hcl : Closes closing) (hc : ¬ Comment closing)
    (hlen : closing.strlen < bufLen) : run load (.inside name buf) filters s (es ++ [closing]) =
      .done ((load name ((significant es).foldl copyLine buf).1 s).1.map fun filter => filters ++ [filter],
        (load name ((significant es).foldl copyLine buf).1 s).2) := by
  induction es generalizing buf with
  | nil =>
      rw [List.nil_append, run_cons, if_neg (Nat.not_le.mpr hlen), if_neg hc]
      dsimp only
      rw [if_pos hcl]
      simp only [significant, List.filter_nil, List.foldl_nil]
      cases load name buf.1 s with
      | mk r s' =>
          cases r with
          | error err => rfl
          | ok filter => rfl
  | cons e es ih =>
      obtain ⟨⟨he, hlt⟩, hes⟩ := List.forall_mem_cons.mp hes
      rw [List.cons_append, run_cons, if_neg (Nat.not_le.mpr hlt)]
      by_cases hce : Comment e
      · rw [if_pos hce, ih hes, significant_comment hce]
      · rw [if_neg hce, significant_cons hce]
        dsimp only
        rw [if_neg he, ih hes, List.foldl_cons]

theorem endFilter_line : Closes endFilter ∧ ¬ Comment endFilter ∧ endFilter.strlen < bufLen := by decide

namespace Block

variable {b : Block} {text header : CString}

/-- What is scanned first, and how loading goes on with the entries. -/
theorem load_text (h : text.bytes = b.text) (hentries : text.entries = header :: (b.entries ++ [endFilter])) :
    evfLoadFilters load (.ok text) s = run load .outside [] s (header :: (b.entries ++ [endFilter])) := by
  obtain ⟨bytes, hbytes⟩ : ∃ bytes, text.bytes = 70 :: bytes := ⟨_, h⟩
  have hfresh : text.Fresh := by
    intro c hc
    rw [hbytes] at hc
    obtain rfl : 70 = c := Option.some.inj hc
    decide
  have hline : text.line = header := by
    rw [hfresh.entries_cons (by rw [hbytes]; exact List.cons_ne_nil _ _)] at hentries
    exact (List.cons.inj hentries).1
  by_cases hlong : bufLen ≤ header.strlen
  · rw [run_cons, if_pos hlong, evfLoadFilters, loadLoop_long (hline ▸ hlong)]
  · have hnl : text.bytes.head? ≠ some newline := by
      rw [hbytes]
      exact fun heq => absurd (Option.some.inj heq) (by decide)
    rw [evfLoadFilters, loadLoop_eq hnl (hline ▸ Nat.lt_of_not_le hlong), hentries]

theorem mem_entries_not_closes {e : CString} (he : e ∈ b.entries) : ¬ Closes e := by
  obtain ⟨p, -, rfl⟩ | ⟨-, hc⟩ := mem_entries he
  · exact p.not_closes
  · exact hc.not_closes

theorem header_line (hheader : header.bytes = (CString.literal "FilterName = ").bytes ++ b.name.bytes) :
    ¬ Comment header ∧ header.strlen = 13 + b.name.strlen := by
  have hlit : (CString.literal "FilterName = ").bytes.length = 13 := by decide
  refine ⟨fun hc => ?_, ?_⟩
  · rw [Comment, hheader] at hc
    exact absurd (Option.some.inj hc) (by decide)
  · rw [CString.strlen, hheader, List.length_append, hlit]
    rfl

theorem load_short (h : text.bytes = b.text) (hname : 13 + b.name.strlen < bufLen)
    (hshort : ∀ e ∈ b.entries, e.strlen < bufLen) : evfLoadFilters load (.ok text) s =
      .done ((load (b.name.trunc 255) (collected (b.paramLines.map ParamLine.line)) s).1.map fun filter => [filter],
        (load (b.name.trunc 255) (collected (b.paramLines.map ParamLine.line)) s).2) := by
  obtain ⟨header, hheader, hentries⟩ := entries_text h
  obtain ⟨hc, hlen⟩ := header_line hheader
  have hlt : ¬ bufLen ≤ header.strlen := Nat.not_le.mpr (hlen ▸ hname)
  rw [load_text h hentries, run_cons, if_neg hlt, if_neg hc]
  dsimp only
  rw [if_neg (by simp), nameIn_header b.name_fresh hheader]
  dsimp only
  rw [run_block (fun e he => ⟨mem_entries_not_closes he, hshort e he⟩) endFilter_line.1 endFilter_line.2.1
    endFilter_line.2.2, significant_entries]
  rfl

theorem load_long_name (h : text.bytes = b.text) (hlong : bufLen ≤ 13 + b.name.strlen) :
    evfLoadFilters load (.ok text) s = .overflow := by
  obtain ⟨header, hheader, hentries⟩ := entries_text h
  rw [load_text h hentries, run_cons, if_pos ((header_line hheader).2 ▸ hlong)]

theorem load_long (h : text.bytes = b.text) {e : CString} (he : e ∈ b.entries) (hlong : bufLen ≤ e.strlen) :
    evfLoadFilters load (.ok text) s = .overflow := by
  obtain ⟨header, hheader, hentries⟩ := entries_text h
  obtain ⟨hc, -⟩ := header_line hheader
  obtain ⟨before, after, hsplit⟩ := List.append_of_mem he
  rw [load_text h hentries, run_overflow_iff]
  refine ⟨header :: before, e, after ++ [endFilter], ?_, ?_, hlong⟩
  · rw [hsplit, List.append_assoc]
    rfl
  · rw [significant_cons hc]
    refine ⟨[], _, [], s, rfl, Loads.nil, ?_, ?_⟩
    · rw [nameIn_header b.name_fresh hheader]
      rfl
    · intro l hl
      refine mem_entries_not_closes (b := b) ?_
      rw [hsplit]
      exact List.mem_append_left _ (List.mem_of_mem_filter hl)

end Block

end Evfilter.Loader
