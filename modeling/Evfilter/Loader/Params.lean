import Evfilter.Filters.Create
import Evfilter.Loader.BlockText
import Evfilter.Loader.Filter
import Evfilter.Param.RoundTrip

/-!
# Blocks and their parameters

The parameters that are put together from the lines of a block, and the string of parameters that `evf_filter_load` is
to get: the buffer for the lines, and the parser of the parameters.
-/

namespace Evfilter.Loader
open Lib Param

variable {φ σ : Type} {s : σ} {buf : CString × Nat}

/-! ## The buffer -/

/-- The bytes that the lines take, each with its separator. -/
def needed (lines : List CString) : Nat := (lines.map fun l => l.strlen + 1).sum

theorem le_needed {l : CString} {lines : List CString} (h : l ∈ lines) : l.strlen + 1 ≤ needed lines := by
  obtain ⟨before, after, rfl⟩ := List.append_of_mem h
  simp only [needed, List.map_append, List.map_cons, List.sum_append, List.sum_cons]
  omega

theorem copyLine_room {l : CString} (h : 2 ≤ buf.2) :
    2 ≤ (copyLine buf l).2 ∧ (copyLine buf l).1.strlen + (copyLine buf l).2 = buf.1.strlen + buf.2 := by
  have hspace : (CString.literal " ").strlen = 1 := by decide
  unfold copyLine
  split
  · simp only [CString.strlen_append, hspace]
    omega
  · exact ⟨h, rfl⟩

theorem foldl_copyLine_room {buf : CString × Nat} (lines : List CString) (h : 2 ≤ buf.2) :
    2 ≤ (lines.foldl copyLine buf).2 ∧
    (lines.foldl copyLine buf).1.strlen + (lines.foldl copyLine buf).2 = buf.1.strlen + buf.2 := by
  induction lines generalizing buf with
  | nil => exact ⟨h, rfl⟩
  | cons l lines ih =>
      obtain ⟨hroom, hsum⟩ := copyLine_room (l := l) h
      rw [List.foldl_cons, ← hsum]
      exact ih hroom

theorem foldl_copyLine {lines : List CString} (h : needed lines + 2 ≤ buf.2) :
    (lines.foldl copyLine buf).1.bytes = buf.1.bytes ++ lines.flatMap fun l => l.bytes ++ [space] := by
  induction lines generalizing buf with
  | nil => simp
  | cons l lines ih =>
      have hneeded : needed (l :: lines) = l.strlen + 1 + needed lines := rfl
      have hcopy : copyLine buf l = (buf.1.append (l.append (CString.literal " ")), buf.2 - (l.strlen + 1)) :=
        if_pos (by omega)
      rw [List.foldl_cons, ih (by rw [hcopy]; dsimp only; omega), hcopy, List.flatMap_cons]
      change (buf.1.bytes ++ (l.bytes ++ [space])) ++ _ = _
      rw [List.append_assoc]

/-- No line is dropped if there is room for all of them, and for two bytes more. -/
theorem collected_iff {lines : List CString} :
    (collected lines).bytes = (lines.flatMap fun l => l.bytes ++ [space]) ↔ needed lines ≤ 4094 := by
  constructor
  · intro h
    have hempty : 2 ≤ emptyBuf.2 := by decide
    obtain ⟨hroom, hsum⟩ := foldl_copyLine_room lines hempty
    have hlen : (collected lines).strlen = needed lines := by
      rw [CString.strlen, h, List.length_flatMap, needed]
      simp [CString.strlen]
    have hstart : emptyBuf.1.strlen + emptyBuf.2 = 4096 := by decide
    rw [collected] at hlen
    omega
  · intro h
    have hroom : needed lines + 2 ≤ emptyBuf.2 := Nat.add_le_add_right h 2
    exact foldl_copyLine hroom

/-! ## The parameters together -/

/-- The rendering of several lines: the whitespace at the beginning of each but the first is the gap behind the line
before it. -/
def joined (gap : ParamLine → List UInt8) : List ParamLine → Rendering
  | [] => []
  | [p] => p.rendering
  | p :: q :: ps => p.rendering ++ relead (gap p) (joined gap (q :: ps))
where
  relead (lead : List UInt8) : Rendering → Rendering
    | [] => []
    | (_, a) :: r => (lead, a) :: r

section Joined

variable {gap : ParamLine → List UInt8} {lead tail : List UInt8} {r : Rendering} {p : ParamLine} {ps : List ParamLine}

theorem joined_cons (gap : ParamLine → List UInt8) (p q : ParamLine) (ps : List ParamLine) :
    joined gap (p :: q :: ps) = p.rendering ++ joined.relead (gap p) (joined gap (q :: ps)) := rfl

theorem joined_starts (gap : ParamLine → List UInt8) (p : ParamLine) (ps : List ParamLine) :
    ∃ a rest, joined gap (p :: ps) = ([], a) :: rest := by
  obtain ⟨a, rest, hr, -⟩ := p.starts
  cases ps with
  | nil => exact ⟨a, rest, hr⟩
  | cons q ps => exact ⟨a, rest ++ joined.relead (gap p) (joined gap (q :: ps)), by rw [joined_cons, hr]; rfl⟩

theorem text_relead (h : ∃ a rest, r = ([], a) :: rest) : (joined.relead lead r).text = lead ++ r.text := by
  obtain ⟨a, rest, rfl⟩ := h
  exact List.append_assoc _ _ _

theorem pairs_relead : (joined.relead lead r).pairs = r.pairs := by
  cases r with
  | nil => rfl
  | cons w r => rfl

theorem pairs_joined (gap : ParamLine → List UInt8) (ps : List ParamLine) :
    (joined gap ps).pairs = ps.flatMap fun p => p.rendering.pairs := by
  induction ps with
  | nil => rfl
  | cons p ps ih =>
      cases ps with
      | nil => exact (List.append_nil _).symm
      | cons q ps =>
          rw [List.flatMap_cons, ← ih, joined_cons, Rendering.pairs, List.map_append]
          exact congrArg _ pairs_relead

theorem spaced_joined (hgap : ∀ p, Spaces (gap p) ∧ gap p ≠ []) (ps : List ParamLine) : (joined gap ps).Spaced := by
  induction ps with
  | nil => exact ⟨List.forall_mem_nil _, List.forall_mem_nil _⟩
  | cons p ps ih =>
      cases ps with
      | nil => exact p.spaced
      | cons q ps =>
          obtain ⟨a, rest, hr⟩ := joined_starts gap q ps
          obtain ⟨b, others, hp, -⟩ := p.starts
          have hspaces := p.spaced.spaces
          have hapart := p.spaced.apart
          rw [hr] at ih
          rw [hp] at hspaces hapart
          rw [joined_cons, hr, hp]
          refine ⟨List.forall_mem_append.mpr ⟨hspaces, List.forall_mem_cons.mpr ⟨(hgap p).1, ?_⟩⟩,
            List.forall_mem_append.mpr ⟨hapart, List.forall_mem_cons.mpr ⟨(hgap p).2, ih.apart⟩⟩⟩
          exact fun w hw => ih.spaces w (List.mem_cons_of_mem _ hw)

theorem text_joined_cons (gap : ParamLine → List UInt8) (p q : ParamLine) (ps : List ParamLine) :
    (joined gap (p :: q :: ps)).text = p.rendering.text ++ (gap p ++ (joined gap (q :: ps)).text) := by
  rw [joined_cons, Rendering.text, List.flatMap_append]
  exact congrArg _ (text_relead (joined_starts gap q ps))

theorem text_joined (gap : ParamLine → List UInt8) (p : ParamLine) (ps : List ParamLine) :
    (joined gap (p :: ps)).text ++ gap ((p :: ps).getLast (List.cons_ne_nil p ps)) =
      (p :: ps).flatMap fun p => p.rendering.text ++ gap p := by
  induction ps generalizing p with
  | nil => exact (List.append_nil _).symm
  | cons q ps ih =>
      rw [List.flatMap_cons, ← ih q, text_joined_cons, List.getLast_cons (List.cons_ne_nil q ps)]
      simp only [List.append_assoc]

theorem text_joined_space (ps : List ParamLine) :
    (joined (fun _ => [space]) ps).text = [space].intercalate (ps.map fun p => p.rendering.text) := by
  induction ps with
  | nil => rfl
  | cons p ps ih =>
      cases ps with
      | nil => exact (List.append_nil _).symm
      | cons q ps =>
          rw [text_joined_cons, ih]
          simp only [List.map_cons, List.intercalate_cons_cons, List.append_assoc]

theorem remaining_relead {first : Rendering} {w : List UInt8 × Assignment} :
    Rendering.remaining (first ++ joined.relead lead (w :: r)) tail = Rendering.remaining (w :: r) tail := by
  unfold Rendering.remaining
  rw [List.getLast?_append, joined.relead]
  cases r with
  | nil => rfl
  | cons v r =>
      rw [List.getLast?_cons_cons, List.getLast?_cons_cons, List.getLast?_cons]
      rfl

theorem remaining_joined (gap : ParamLine → List UInt8) (p : ParamLine) (ps : List ParamLine) (tail : List UInt8) :
    (joined gap (p :: ps)).remaining tail =
      ((p :: ps).getLast (List.cons_ne_nil p ps)).rendering.remaining tail := by
  induction ps generalizing p with
  | nil => rfl
  | cons q ps ih =>
      obtain ⟨a, rest, hr⟩ := joined_starts gap q ps
      rw [List.getLast_cons (List.cons_ne_nil q ps), ← ih q, joined_cons, hr, remaining_relead]

end Joined

/-! ## Loading by both ways -/

namespace Block

variable {b : Block} {cfg : CString}

/-- The last value has no quotes, and nothing behind it. -/
def EndsBare (b : Block) : Prop :=
  ∀ p ∈ b.paramLines.getLast?, p.trail = [] ∧ ∀ w ∈ p.rendering.getLast?, w.2.quote = none

/-- The first loop of `evf_load_params` comes to its end. -/
def Storable (b : Block) (params : List EvfParam) : Prop :=
  (∀ pair ∈ b.pairs, Declared params pair.1) ∧ b.pairs.Pairwise fun x y => x.1.fold ≠ y.1.fold

theorem tokens_params (h : cfg.bytes = b.params) : tokens cfg = b.pairs := by
  have hspaced : (joined (fun _ => [space]) b.paramLines).Spaced :=
    spaced_joined (fun _ => ⟨by decide, List.cons_ne_nil _ _⟩) _
  rw [tokens_rendering hspaced (h.trans (text_joined_space _).symm), pairs_joined]
  rfl

theorem mem_remaining {r : Rendering} {tail : List UInt8} {c : UInt8} (h : c ∈ r.remaining tail) : c ∈ tail := by
  unfold Rendering.remaining at h
  split at h
  · exact h
  · unfold Assignment.remaining at h
    split at h
    · exact List.mem_of_mem_drop h
    · exact h

theorem remaining_eq_nil_iff (p : ParamLine) :
    p.rendering.remaining (p.trail ++ [space]) = [] ↔
      p.trail = [] ∧ ∀ w ∈ p.rendering.getLast?, w.2.quote = none := by
  obtain ⟨a, rest, hr, -⟩ := p.starts
  obtain ⟨w, hw⟩ : ∃ w, p.rendering.getLast? = some w := by
    rw [hr, List.getLast?_cons]
    exact ⟨_, rfl⟩
  rw [Rendering.remaining, hw]
  dsimp only
  rw [Assignment.remaining]
  cases hq : w.2.quote with
  | none =>
      cases p.trail with
      | nil => simp [hq]
      | cons c trail => simp
  | some quote => simp [hq]

/-- The separator behind the last line is taken for a parameter, if it is not used up by the last value. -/
theorem tokens_collected (h : cfg.bytes = b.paramLines.flatMap fun p => p.line.bytes ++ [space]) :
    (b.EndsBare ∧ tokens cfg = b.pairs) ∨
      (¬ b.EndsBare ∧ ∃ name value, name.bytes = [] ∧ tokens cfg = b.pairs ++ [(name, value)]) := by
  unfold EndsBare pairs
  cases hps : b.paramLines with
  | nil =>
      rw [hps] at h
      exact .inl ⟨fun p hp => (nomatch hp), tokens_nil h⟩
  | cons q ps =>
      have hgap (p : ParamLine) : Spaces (p.trail ++ [space]) ∧ p.trail ++ [space] ≠ [] := by
        refine ⟨fun c hc => ?_, List.append_ne_nil_of_right_ne_nil _ (List.cons_ne_nil _ _)⟩
        obtain htrail | hspace := List.mem_append.mp hc
        · exact p.trail_spaces c htrail
        · rw [List.mem_singleton.mp hspace]
          decide
      let gap (p : ParamLine) : List UInt8 := p.trail ++ [space]
      let last := (q :: ps).getLast (List.cons_ne_nil q ps)
      obtain ⟨a, rest, hr⟩ := joined_starts gap q ps
      have hbytes : cfg.bytes = (joined gap (q :: ps)).text ++ gap last := by
        rw [text_joined, h, hps]
        refine List.flatMap_congr fun p _ => ?_
        rw [p.line_eq, List.append_assoc]
      have hspaced : (joined gap (q :: ps)).Spaced := spaced_joined hgap _
      have hpairs := pairs_joined gap (q :: ps)
      have hremaining := remaining_joined gap q ps (gap last)
      rw [hr] at hbytes hspaced hpairs hremaining
      obtain ⟨left, hleft, htokens⟩ := tokens_text_append hspaced (hgap last).1 hbytes
      rw [hpairs] at htokens
      rw [hremaining] at hleft
      have hends : left.bytes = [] ↔ last.trail = [] ∧ ∀ w ∈ last.rendering.getLast?, w.2.quote = none := by
        rw [hleft]
        exact remaining_eq_nil_iff last
      rw [List.getLast?_eq_some_getLast (List.cons_ne_nil q ps)]
      by_cases hnil : left.bytes = []
      · refine .inl ⟨?_, ?_⟩
        · rintro p ⟨⟩
          exact hends.mp hnil
        · rw [htokens, tokens_nil hnil, List.append_nil]
      · refine .inr ⟨fun hbare => hnil (hends.mpr (hbare _ rfl)), ?_⟩
        have hspaces : Spaces left.bytes := fun c hc => (hgap last).1 c (mem_remaining (hleft ▸ hc))
        obtain ⟨name, value, hname, hone⟩ := tokens_spaces hnil hspaces
        exact ⟨name, value, hname, by rw [htokens, hone]⟩

end Block

variable {P : Platform} {evfCreat : Nat → Creat P φ σ} {b : Block} {text cfg : CString}

/-- The block gets the filter or the error that `evf_filter_load` gives for its parameters, and all its lines have
been in the buffer. -/
def Fits (evfCreat : Nat → Creat P φ σ) (b : Block) (text cfg : CString) (s : σ) : Prop :=
  evfLoadFilters (evfFilterLoad evfCreat) (.ok text) s =
      .done ((evfFilterLoad evfCreat b.name cfg s).1.map fun filter => [filter],
        (evfFilterLoad evfCreat b.name cfg s).2) ∧
    (collected (b.paramLines.map ParamLine.line)).bytes = b.paramLines.flatMap fun p => p.line.bytes ++ [space]

theorem map_singleton_inj {x y : Except EvfErr φ} (h : (x.map fun a => [a]) = y.map fun a => [a]) : x = y := by
  cases x with
  | error e =>
      cases y with
      | error e' => exact congrArg _ (Except.error.inj h)
      | ok a => cases h
  | ok a =>
      cases y with
      | error e => cases h
      | ok b => exact congrArg _ (List.cons.inj (Except.ok.inj h)).1

theorem mem_entries_of_comments {e : CString} (h : e ∈ b.comments) : e ∈ b.entries := by
  obtain ⟨l, hl, hcomment⟩ := List.mem_filterMap.mp h
  cases hcontent : l.content with
  | blank => simp [hcontent] at hcomment
  | params p => simp [hcontent] at hcomment
  | comment line hc =>
      obtain rfl : line = e := by simpa [hcontent] using hcomment
      refine List.mem_filter.mpr ⟨List.mem_map.mpr ⟨l, hl, by rw [hcontent]; rfl⟩, ?_⟩
      simpa using fun hnil : line.bytes = [] => by simp [Comment, hnil] at hc

/-- The two strings are parsed alike, or an error comes before their ends. -/
theorem filterLoad_eq_iff (htext : cfg.bytes = b.params)
    (hroom : needed (b.paramLines.map ParamLine.line) ≤ 4094) :
    evfFilterLoad evfCreat b.name (collected (b.paramLines.map ParamLine.line)) s =
        evfFilterLoad evfCreat b.name cfg s ↔
      ∀ i, getfilter b.name = some i → b.EndsBare ∨ ¬ b.Storable (evfCreat i).params := by
  have hcollected : (collected (b.paramLines.map ParamLine.line)).bytes =
      b.paramLines.flatMap fun p => p.line.bytes ++ [space] := by
    rw [collected_iff.mpr hroom, List.flatMap_map]
  unfold evfFilterLoad
  cases hfilter : getfilter b.name with
  | none => simp
  | some i =>
      simp only [Option.some.injEq, forall_eq']
      obtain ⟨hbare, htokens⟩ | ⟨hbare, name, value, hname, htokens⟩ := Block.tokens_collected hcollected
      · exact iff_of_true (create_congr (htokens.trans (Block.tokens_params htext).symm)) (.inl hbare)
      · rw [create_nameless_iff (Block.tokens_params htext) htokens hname, store_start_iff, or_iff_right hbare]
        rfl

/-- A block is loaded as it should be if its lines fit, and the string of parameters does not end in a separator that
makes a difference. -/
theorem fits_iff (evfCreat : Nat → Creat P φ σ) (b : Block) (text cfg : CString) (s : σ) (htext : text.bytes = b.text)
    (hcfg : cfg.bytes = b.params) :
    Fits evfCreat b text cfg s ↔
      b.name.strlen ≤ 255 ∧ (∀ c ∈ b.comments, c.strlen < bufLen) ∧
        needed (b.paramLines.map ParamLine.line) ≤ 4094 ∧
        ∀ i, getfilter b.name = some i → b.EndsBare ∨ ¬ b.Storable (evfCreat i).params := by
  have hlines : ((b.paramLines.map ParamLine.line).flatMap fun l => l.bytes ++ [space]) =
      b.paramLines.flatMap fun p => p.line.bytes ++ [space] := List.flatMap_map _ _ _
  constructor
  · rintro ⟨hload, hall⟩
    have hroom := collected_iff.mp (hall.trans hlines.symm)
    have hshort : ∀ e ∈ b.entries, e.strlen < bufLen := fun e he => Nat.lt_of_not_le fun hlong => by
      rw [Block.load_long htext he hlong] at hload
      cases hload
    have hheader : 13 + b.name.strlen < bufLen := Nat.lt_of_not_le fun hlong => by
      rw [Block.load_long_name htext hlong] at hload
      cases hload
    rw [Block.load_short htext hheader hshort] at hload
    obtain ⟨hresult, hstate⟩ := Prod.mk.inj (Outcome.done.inj hload)
    have heq := Prod.ext (map_singleton_inj hresult) hstate
    have hname : b.name.strlen ≤ 255 := Nat.le_of_not_lt fun hlong => by
      have hlen : (b.name.trunc 255).strlen = 255 := by rw [CString.strlen_trunc, Nat.min_eq_left hlong.le]
      rw [evfFilterLoad, evfFilterLoad, getfilter_long (by omega), getfilter_long (by omega)] at heq
      have hsame : b.name.trunc 255 = b.name := EvfErr.efname.inj (Except.error.inj (Prod.mk.inj heq).1)
      rw [hsame] at hlen
      omega
    rw [CString.trunc_of_le hname] at heq
    exact ⟨hname, fun c hc => hshort c (mem_entries_of_comments hc), hroom, (filterLoad_eq_iff hcfg hroom).mp heq⟩
  · rintro ⟨hname, hcomments, hroom, hends⟩
    have hshort : ∀ e ∈ b.entries, e.strlen < bufLen := by
      intro e he
      obtain ⟨p, hp, rfl⟩ | ⟨hc, -⟩ := Block.mem_entries he
      · have hle : p.line.strlen + 1 ≤ needed (b.paramLines.map ParamLine.line) :=
          le_needed (List.mem_map_of_mem hp)
        exact (Nat.lt_of_succ_le (hle.trans hroom)).trans (by decide)
      · exact hcomments e hc
    refine ⟨?_, (collected_iff.mpr hroom).trans hlines⟩
    rw [Block.load_short htext ?_ hshort, CString.trunc_of_le hname, (filterLoad_eq_iff hcfg hroom).mpr hends]
    exact (Nat.add_le_add_left hname 13).trans_lt (by decide)

open Filters in
def speedModCreat : Creat middlePlatform Relspeed Unit :=
  { params := relspeedParams
    named := by decide
    alloc := fun args s => (.ok (evfSpeedModRelAlloc (intArg args 0) (intArg args 1)), s) }

/-- `xmod = 2`, with tabs -/
def xmodBare : Assignment :=
  { name := CString.literal "xmod", value := CString.literal "2", before := [9], sign := true, after := [9],
    quote := none, name_word := by decide, before_spaces := by decide, after_spaces := by decide,
    separated := by decide, value_writable := by decide }

def xmodQuoted : Assignment := { xmodBare with quote := some doubleQuote, value_writable := by decide }

def xmodLine (a : Assignment) (hname : a.name.bytes.head? ≠ some hash) (line : CString)
    (hline : line.bytes = a.text) : ParamLine :=
  { line := line, rendering := [([], a)], trail := [], line_eq := by rw [hline]; simp [Rendering.text],
    trail_spaces := List.forall_mem_nil _,
    spaced := ⟨List.forall_mem_singleton.mpr (List.forall_mem_nil _), List.forall_mem_nil _⟩,
    starts := ⟨a, [], rfl, hname⟩ }

def xmodBlock (p : ParamLine) (hline : newline ∉ p.line.bytes) : Block :=
  { name := CString.literal "SpeedMod"
    lines := [
      ⟨[9], .comment (CString.literal "# twice") (by decide), by decide, by decide⟩,
      ⟨[9], .params p, by decide, fun h => hline ((List.mem_cons.mp h).resolve_left (by decide))⟩]
    tail := [newline], name_line := by decide, name_fresh := by decide, tail_spaces := by decide,
    tail_newline := fun _ hc => (Option.mem_some.mp hc).symm }

def bareBlock : Block :=
  xmodBlock (xmodLine xmodBare (by decide) (CString.literal "xmod\t=\t2") (by decide)) (by decide)

def quotedBlock : Block :=
  xmodBlock (xmodLine xmodQuoted (by decide) (CString.literal "xmod\t=\t\"2\"") (by decide)) (by decide)

theorem fits_bare : Fits (fun _ => speedModCreat) bareBlock
    (CString.literal "FilterName = SpeedMod\n\t# twice\n\txmod\t=\t2\nEndFilter\n")
    (CString.literal "xmod\t=\t2") () := by
  refine (fits_iff _ _ _ _ _ (by decide) (by decide)).mpr ⟨by decide, by decide, by decide, fun i _ => .inl ?_⟩
  rintro p ⟨⟩
  refine ⟨rfl, ?_⟩
  rintro w ⟨⟩
  rfl

/-- The filter is not loaded from the file, but it is by `evf_filter_load`. -/
theorem not_fits_quoted :
    (CString.literal "FilterName = SpeedMod\n\t# twice\n\txmod\t=\t\"2\"\nEndFilter\n").bytes = quotedBlock.text ∧
      (CString.literal "xmod\t=\t\"2\"").bytes = quotedBlock.params ∧
      ¬ Fits (fun _ => speedModCreat) quotedBlock
        (CString.literal "FilterName = SpeedMod\n\t# twice\n\txmod\t=\t\"2\"\nEndFilter\n")
        (CString.literal "xmod\t=\t\"2\"") () := by
  refine ⟨by decide, by decide, fun h => ?_⟩
  have hfile : evfLoadFilters (evfFilterLoad fun _ => speedModCreat)
      (.ok (CString.literal "FilterName = SpeedMod\n\t# twice\n\txmod\t=\t\"2\"\nEndFilter\n")) () =
        .done (.error (.epname (CString.literal "")), ()) := by decide +kernel
  have hstring : evfFilterLoad (fun _ => speedModCreat) quotedBlock.name (CString.literal "xmod\t=\t\"2\"") () =
      (.ok (Filters.evfSpeedModRelAlloc 2 1), ()) := by decide +kernel
  have heq := h.1
  rw [hfile, hstring] at heq
  cases heq

end Evfilter.Loader
