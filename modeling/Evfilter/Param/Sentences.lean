import Evfilter.Param.Outputs

/-!
# The sentences of the parameter language

A sentence is a rendering with whitespace behind it. Which strings are sentences is seen from the pieces that
`evf_load_params` cuts them into: none of them may have a flaw, and the scanners look for none.
-/

namespace Evfilter.Param
open Lib

def Sentence (cfg : CString) : Prop :=
  ∃ (r : Rendering) (tail : List UInt8), r.Spaced ∧ Spaces tail ∧ cfg.bytes = r.text ++ tail

/-- What is left after the first name and value. -/
def cutPair (cfg : CString) : CString := (splitValue (splitName cfg).2).2

/-- The strings from which the first loop has cut a name and a value. -/
def pieces (cfg : CString) : List CString :=
  if _h : cfg.bytes = [] then [] else cfg :: pieces (cutPair cfg)
termination_by cfg.strlen
decreasing_by exact strlen_split _h

inductive Flaw
  | nameless
  | doubled
  | valueless
  | unterminated
  | glued
deriving DecidableEq

def isQuote (c : UInt8) : Bool := c == doubleQuote || c == singleQuote

/-- A value in quotes, from behind the first one. -/
def quoteFlaw (quote : UInt8) (bytes : List UInt8) : Option Flaw :=
  match bytes.dropWhile fun c => !(c == quote) with
  | [] => some .unterminated
  | _ :: rest => if rest.head?.any fun c => !isspace c then some .glued else none

/-- What is wrong with the pair at the start of the string, where it is more than whitespace. -/
def flaw (cfg : CString) : Option Flaw :=
  let start := cfg.bytes.dropWhile isspace
  let behind := start.dropWhile fun c => !endsName c
  let value := behind.dropWhile endsName
  if start = [] then none
  else if start.head?.any endsName then some .nameless
  else if 1 < (behind.takeWhile endsName).count equals then some .doubled
  else
    match value with
    | [] => some .valueless
    | c :: rest => if isQuote c then quoteFlaw c rest else none

variable {cfg : CString} {tail bytes : List UInt8} {r : Rendering} {c : UInt8}

theorem pieces_nil (h : cfg.bytes = []) : pieces cfg = [] := by
  rw [pieces, dif_pos h]

theorem pieces_cons (h : cfg.bytes ≠ []) : pieces cfg = cfg :: pieces (cutPair cfg) := by
  rw [pieces, dif_neg h]

/-! ## A pair without a flaw -/

theorem takeWhile_head {test : UInt8 → Bool} {l : List UInt8} (h : l ≠ []) (hl : l.head?.any test = false) :
    l.takeWhile (fun c => !test c) ≠ [] := by
  obtain ⟨c, l, rfl⟩ := List.exists_cons_of_ne_nil h
  have hc : test c = false := hl
  simp [hc]

/-- A separator with at most one '=' in it is whitespace, perhaps with '=' after some of it. -/
theorem exists_separator {sep : List UInt8} (hne : sep ≠ []) (hends : ∀ c ∈ sep, endsName c = true)
    (hcount : ¬ 1 < sep.count equals) :
    ∃ before sign after, Spaces before ∧ Spaces after ∧ (sign = true ∨ before ≠ []) ∧
      sep = before ++ ((if sign then [equals] else []) ++ after) := by
  have hspace {l : List UInt8} (hl : ∀ c ∈ l, c ∈ sep) (h0 : l.count equals = 0) : Spaces l := by
    intro c hc
    have hor : isspace c = true ∨ c = equals := by simpa [endsName] using hends c (hl c hc)
    refine hor.resolve_right fun heq => ?_
    exact (List.count_eq_zero.mp h0) (heq ▸ hc)
  by_cases hmem : equals ∈ sep
  · obtain ⟨before, after, rfl⟩ := List.append_of_mem hmem
    rw [List.count_append, List.count_cons_self] at hcount
    refine ⟨before, true, after, hspace (by simp +contextual) (by omega), hspace (by simp +contextual) (by omega),
      Or.inl rfl, by simp⟩
  · exact ⟨sep, false, [], hspace (fun c hc => hc) (List.count_eq_zero.mpr hmem), by simp [Spaces], Or.inr hne,
      by simp⟩

theorem head_dropWhile {test : UInt8 → Bool} {l m : List UInt8} (h : l.dropWhile test = c :: m) : test c = false := by
  have hne : l.dropWhile test ≠ [] := by simp [h]
  have hhead := List.head_dropWhile_not test hne
  simpa [h] using hhead

/-- The value at the start of the bytes, without a flaw. -/
theorem exists_value {s : CString} {rest : List UInt8} (hs : s.bytes = c :: rest) (hc : endsName c = false)
    (hflaw : (if isQuote c then quoteFlaw c rest else none) = none) :
    ∃ value quote tail, Writable value quote ∧ (∀ b, tail.head? = some b → isspace b = true) ∧
      s.bytes = (match quote with
        | none => value.bytes
        | some quote => quote :: (value.bytes ++ [quote])) ++ tail := by
  obtain ⟨hspace, hequals⟩ := Bool.or_eq_false_iff.mp hc
  by_cases hquote : isQuote c = true
  · rw [if_pos hquote, quoteFlaw] at hflaw
    cases hend : rest.dropWhile fun b => !(b == c) with
    | nil => simp [hend] at hflaw
    | cons b tail =>
        obtain rfl : b = c := by simpa using head_dropWhile hend
        have htail : ∀ d, tail.head? = some d → isspace d = true := by
          intro d hd
          by_contra hd'
          simp [hend, hd, hd'] at hflaw
        refine ⟨(s.drop 1).takeWhile fun d => !(d == b), some b, tail, ⟨?_, ?_⟩, htail, ?_⟩
        · simpa [isQuote] using hquote
        · intro hmem
          simpa using List.mem_takeWhile_imp hmem
        · have hsplit := List.takeWhile_append_dropWhile (p := fun d => !(d == b)) (l := rest)
          rw [hend] at hsplit
          simp only [CString.bytes_takeWhile, CString.bytes_drop, hs, List.drop_succ_cons, List.drop_zero]
          rw [List.cons_append, List.append_assoc, List.singleton_append, hsplit]
  · refine ⟨s.takeWhile fun d => !isspace d, none, s.bytes.dropWhile fun d => !isspace d, ⟨⟨?_, ?_⟩, ?_⟩, ?_, ?_⟩
    · simp [hs, hspace]
    · intro d hd
      simpa using List.mem_takeWhile_imp hd
    · intro d hd
      obtain rfl : c = d := by simpa [hs, hspace] using hd
      simpa [isQuote, beq_eq_false_iff_ne.mp hequals] using hquote
    · intro d hd
      obtain ⟨m, hm⟩ := List.head?_eq_some_iff.mp hd
      simpa using head_dropWhile hm
    · exact List.takeWhile_append_dropWhile.symm

/-- A pair without a flaw is an assignment, with whitespace or nothing behind it. -/
theorem exists_assignment (hflaw : flaw cfg = none) (hne : ¬ Spaces cfg.bytes) :
    ∃ lead a tail, Spaces lead ∧ cfg.bytes = lead ++ (Assignment.text a ++ tail) ∧
      ∀ c, tail.head? = some c → isspace c = true := by
  have hstart : cfg.bytes.dropWhile isspace ≠ [] := fun h => hne (List.dropWhile_eq_nil_iff.mp h)
  let start : CString := cfg.dropWhile isspace
  let behind : CString := start.dropWhile fun c => !endsName c
  let value : CString := behind.dropWhile endsName
  simp only [flaw, hstart, ↓reduceIte] at hflaw
  by_cases hnamed : (cfg.bytes.dropWhile isspace).head?.any endsName = true
  · simp [hnamed] at hflaw
  by_cases hcount : 1 < (behind.bytes.takeWhile endsName).count equals
  · simp [hnamed, behind, start] at hflaw hcount
    simp [hcount] at hflaw
  have hvalue : value.bytes = ((cfg.bytes.dropWhile isspace).dropWhile fun c => !endsName c).dropWhile endsName := rfl
  have hcount' := hcount
  simp only [behind, start, CString.bytes_dropWhile] at hcount'
  simp only [hnamed, hcount', ↓reduceIte, ← hvalue] at hflaw
  cases hbytes : value.bytes with
  | nil => simp [hbytes] at hflaw
  | cons c rest =>
      simp only [hbytes] at hflaw
      have hc : endsName c = false := head_dropWhile hbytes
      obtain ⟨val, quote, tail, hwritable, htail, hquoted⟩ := exists_value hbytes hc hflaw
      have hsep : behind.bytes.takeWhile endsName ≠ [] := by
        obtain ⟨b, m, hb⟩ := List.exists_cons_of_ne_nil (l := behind.bytes) fun hnil => by
          simp [value, hnil] at hbytes
        have hb' : endsName b = true := by simpa using head_dropWhile hb
        simp [hb, hb']
      obtain ⟨before, sign, after, hbefore, hafter, hseparated, hsep⟩ :=
        exists_separator hsep (fun c hc => List.mem_takeWhile_imp hc) hcount
      let a : Assignment :=
        { name := start.takeWhile fun c => !endsName c, value := val, before := before, sign := sign, after := after,
          quote := quote, name_word := ?_, before_spaces := hbefore, after_spaces := hafter,
          separated := hseparated, value_writable := hwritable }
      · refine ⟨cfg.bytes.takeWhile isspace, a, tail, fun c hc => List.mem_takeWhile_imp hc, ?_, htail⟩
        have htext : a.quoted ++ tail = value.bytes := hquoted.symm
        rw [Assignment.text, Assignment.separator, List.append_assoc, List.append_assoc, htext, ← hsep]
        change _ = cfg.bytes.takeWhile isspace ++ (start.bytes.takeWhile _ ++
          (behind.bytes.takeWhile endsName ++ behind.bytes.dropWhile endsName))
        rw [List.takeWhile_append_dropWhile]
        change _ = cfg.bytes.takeWhile isspace ++ (start.bytes.takeWhile _ ++ start.bytes.dropWhile _)
        rw [List.takeWhile_append_dropWhile]
        exact List.takeWhile_append_dropWhile.symm
      · refine ⟨takeWhile_head hstart (Bool.eq_false_iff.mpr hnamed), fun c hc => ?_⟩
        simpa using List.mem_takeWhile_imp hc

/-! ## From the pieces to a sentence -/

/-- What may follow a pair: whitespace before each of the next ones, and at the end. -/
structure Follows (r : Rendering) (tail bytes : List UInt8) : Prop where
  leads : ∀ w ∈ r, Spaces w.1 ∧ w.1 ≠ []
  end_spaces : Spaces tail
  eq_text : bytes = r.text ++ tail

theorem spaces_cons (hc : isspace c = true) (h : Spaces bytes) : Spaces (c :: bytes) := by
  intro b hb
  rcases List.mem_cons.mp hb with rfl | hb
  · exact hc
  · exact h b hb

theorem text_cons (w : List UInt8 × Assignment) (r : Rendering) (tail : List UInt8) :
    Rendering.text (w :: r) ++ tail = w.1 ++ (w.2.text ++ (r.text ++ tail)) := by
  rw [Rendering.text, List.flatMap_cons, List.append_assoc, List.append_assoc, Rendering.text]

/-- The whitespace that a bare value ends with belongs to what follows. -/
theorem Sentence.follows_cons (hc : isspace c = true) (h : Sentence cfg) :
    ∃ r tail, Follows r tail (c :: cfg.bytes) := by
  obtain ⟨r, tail, hr, htail, hbytes⟩ := h
  cases r with
  | nil => exact ⟨[], c :: tail, by simp, spaces_cons hc htail, by rw [hbytes]; rfl⟩
  | cons w r =>
      refine ⟨(c :: w.1, w.2) :: r, tail, fun x hx => ?_, htail, ?_⟩
      · rcases List.mem_cons.mp hx with rfl | hx
        · exact ⟨spaces_cons hc (hr.spaces w List.mem_cons_self), by simp⟩
        · exact ⟨hr.spaces x (List.mem_cons_of_mem _ hx), hr.apart x hx⟩
      · rw [hbytes, text_cons, text_cons, List.cons_append]

theorem Sentence.follows (hhead : ∀ b, cfg.bytes.head? = some b → isspace b = true) (h : Sentence cfg) :
    ∃ r tail, Follows r tail cfg.bytes := by
  obtain ⟨r, tail, hr, htail, hbytes⟩ := h
  refine ⟨r, tail, fun x hx => ⟨hr.spaces x hx, ?_⟩, htail, hbytes⟩
  cases r with
  | nil => cases hx
  | cons w r =>
      rcases List.mem_cons.mp hx with rfl | hx
      · intro hnil
        rw [text_cons, hnil, List.nil_append, Assignment.text, List.append_assoc] at hbytes
        obtain ⟨b, m, hb⟩ := List.exists_cons_of_ne_nil x.2.name_word.1
        have hfirst := hhead b (by rw [hbytes, hb]; rfl)
        have hword := x.2.name_word.2 b (by rw [hb]; exact List.mem_cons_self)
        rw [endsName_of_isspace hfirst] at hword
        cases hword
      · exact hr.apart x hx

theorem cutPair_text {a : Assignment} {lead : List UInt8} (hlead : Spaces lead)
    (htail : ∀ c, tail.head? = some c → isspace c = true) (h : cfg.bytes = lead ++ (a.text ++ tail)) :
    (cutPair cfg).bytes = a.remaining tail :=
  (splitValue_text htail (splitName_text hlead h).2).2

theorem sentence_of_flawless (h : ∀ s ∈ pieces cfg, flaw s = none) : Sentence cfg := by
  fun_induction pieces cfg with
  | case1 cfg hnil => exact ⟨[], [], ⟨by simp, by simp⟩, by simp [Spaces], by rw [hnil]; rfl⟩
  | case2 cfg hne ih =>
      obtain ⟨hflaw, hrest⟩ := List.forall_mem_cons.mp h
      have hleft := ih hrest
      by_cases hspaces : Spaces cfg.bytes
      · exact ⟨[], cfg.bytes, ⟨by simp, by simp⟩, hspaces, rfl⟩
      obtain ⟨lead, a, tail, hlead, hbytes, htail⟩ := exists_assignment hflaw hspaces
      have hcut := cutPair_text hlead htail hbytes
      have hfollows : ∃ r tail', Follows r tail' tail := by
        unfold Assignment.remaining at hcut
        cases hq : a.quote with
        | none =>
            rw [hq] at hcut
            cases tail with
            | nil => exact ⟨[], [], by simp, by simp [Spaces], rfl⟩
            | cons c tail =>
                rw [← show (cutPair cfg).bytes = tail from hcut]
                exact hleft.follows_cons (htail c rfl)
        | some quote =>
            rw [hq] at hcut
            rw [← show (cutPair cfg).bytes = tail from hcut] at htail ⊢
            exact hleft.follows htail
      obtain ⟨r, tail', hr⟩ := hfollows
      refine ⟨(lead, a) :: r, tail', ⟨fun w hw => ?_, fun w hw => (hr.leads w hw).2⟩, hr.end_spaces, ?_⟩
      · rcases List.mem_cons.mp hw with rfl | hw
        · exact hlead
        · exact (hr.leads w hw).1
      · rw [text_cons, ← hr.eq_text, hbytes]

/-! ## From a sentence to its pieces -/

theorem count_spaces (h : Spaces bytes) : bytes.count equals = 0 := by
  refine List.count_eq_zero.mpr fun hmem => ?_
  have := h equals hmem
  revert this
  decide

theorem Assignment.separator_endsName (a : Assignment) : ∀ c ∈ a.separator, endsName c = true := by
  intro c hc
  rw [separator, List.mem_append, List.mem_append] at hc
  rcases hc with hc | hc | hc
  · exact endsName_of_isspace (a.before_spaces c hc)
  · split at hc
    · rw [List.mem_singleton.mp hc]
      decide
    · cases hc
  · exact endsName_of_isspace (a.after_spaces c hc)

theorem Assignment.count_separator (a : Assignment) : ¬ 1 < a.separator.count equals := by
  rw [separator, List.count_append, List.count_append, count_spaces a.before_spaces, count_spaces a.after_spaces]
  split
  · decide
  · decide

/-- Behind the separator there is the value, which has no flaw. -/
theorem Assignment.quoted_flawless (a : Assignment) (htail : ∀ c, tail.head? = some c → isspace c = true) :
    ∃ c rest, a.quoted ++ tail = c :: rest ∧ endsName c = false ∧
      (if isQuote c then quoteFlaw c rest else none) = none := by
  have hw := a.value_writable
  have hhead := a.quoted_head tail
  unfold quoted at hhead ⊢
  cases hq : a.quote with
  | none =>
      rw [hq] at hw hhead
      obtain ⟨c, l, hl⟩ := List.exists_cons_of_ne_nil hw.1.1
      simp only at hhead ⊢
      have hc := hhead c (by rw [hl]; rfl)
      have hquote := hw.2 c (by rw [hl]; rfl)
      refine ⟨c, l ++ tail, by rw [hl]; rfl, by simp [endsName, hc], ?_⟩
      rw [if_neg (by simp [isQuote, hquote])]
  | some quote =>
      rw [hq] at hw
      have hword : ∀ c ∈ a.value.bytes, (!(c == quote)) = true := fun c hc => by
        simpa using fun hcq : c = quote => hw.2 (hcq ▸ hc)
      have hstop : ∀ c, ([quote] ++ tail).head? = some c → (!(c == quote)) = false := by simp
      refine ⟨quote, a.value.bytes ++ ([quote] ++ tail), by simp, ?_, ?_⟩
      · rcases hw.1 with h | h
        · rw [h]
          decide
        · rw [h]
          decide
      · have hnone : tail.head?.any (fun c => !isspace c) = false := by
          cases hhead : tail.head? with
          | none => rfl
          | some c => simp [htail c hhead]
        rw [quoteFlaw, dropWhile_stop hword hstop, List.singleton_append]
        simp [hnone]

theorem flaw_text {a : Assignment} {lead : List UInt8} (hlead : Spaces lead)
    (htail : ∀ c, tail.head? = some c → isspace c = true) (h : cfg.bytes = lead ++ (a.text ++ tail)) :
    flaw cfg = none := by
  obtain ⟨c, rest, hquoted, hc, hflaw⟩ := a.quoted_flawless htail
  obtain ⟨b, m, hsep, hb⟩ := a.separator_head (a.quoted ++ tail)
  have hstart : cfg.bytes.dropWhile isspace = a.name.bytes ++ (a.separator ++ (a.quoted ++ tail)) := by
    rw [h, Assignment.text, List.append_assoc, List.append_assoc]
    exact dropWhile_stop hlead (a.name_word.head _)
  have hname : ∀ d ∈ a.name.bytes, (!endsName d) = true := by
    intro d hd
    rw [a.name_word.2 d hd]
    rfl
  have hbehind : (cfg.bytes.dropWhile isspace).dropWhile (fun c => !endsName c) =
      a.separator ++ (a.quoted ++ tail) := by
    rw [hstart]
    refine dropWhile_stop hname fun d hd => ?_
    rw [hsep] at hd
    cases hd
    rw [hb]
    rfl
  rw [hquoted] at hbehind
  have hstop : ∀ d, (c :: rest).head? = some d → endsName d = false := by
    intro d hd
    cases hd
    exact hc
  have hfirst : (cfg.bytes.dropWhile isspace).head?.any endsName = false := by
    obtain ⟨d, l, hl⟩ := List.exists_cons_of_ne_nil a.name_word.1
    have hd := a.name_word.2 d (by rw [hl]; exact List.mem_cons_self)
    rw [hstart, hl]
    exact hd
  have hne : cfg.bytes.dropWhile isspace ≠ [] := by
    rw [hstart]
    simp [a.name_word.1]
  simp only [flaw, hne, ↓reduceIte, hfirst, Bool.false_eq_true, hbehind, takeWhile_stop a.separator_endsName hstop,
    a.count_separator, dropWhile_stop a.separator_endsName hstop]
  exact hflaw

theorem flawless_spaces (h : Spaces cfg.bytes) : ∀ s ∈ pieces cfg, flaw s = none := by
  intro s hs
  by_cases hnil : cfg.bytes = []
  · rw [pieces_nil hnil] at hs
    cases hs
  · have hcut : (cutPair cfg).bytes = [] := by
      have hskip : cfg.bytes.dropWhile isspace = [] := List.dropWhile_eq_nil_iff.mpr h
      have hrest : (splitName cfg).2.bytes = [] := by
        change (CString.accept equals _).bytes = []
        rw [CString.bytes_accept]
        simp [hskip]
      unfold cutPair splitValue splitWord
      simp [hrest]
    rw [pieces_cons hnil, pieces_nil hcut, List.mem_singleton] at hs
    rw [hs]
    simp only [flaw, List.dropWhile_eq_nil_iff.mpr h, ↓reduceIte]

theorem pieces_text {a : Assignment} {lead : List UInt8} (hlead : Spaces lead)
    (htail : ∀ c, tail.head? = some c → isspace c = true) (h : cfg.bytes = lead ++ (a.text ++ tail))
    (hleft : ∀ s ∈ pieces (cutPair cfg), flaw s = none) : ∀ s ∈ pieces cfg, flaw s = none := by
  have hne : cfg.bytes ≠ [] := by
    rw [h, Assignment.text]
    simp [a.name_word.1]
  rw [pieces_cons hne]
  exact List.forall_mem_cons.mpr ⟨flaw_text hlead htail h, hleft⟩

theorem flawless_of_sentence (h : Sentence cfg) : ∀ s ∈ pieces cfg, flaw s = none := by
  suffices hmain : ∀ (r : Rendering) (w : List UInt8 × Assignment) (lead tail : List UInt8) (cfg : CString),
      Spaces lead → Spaces tail → (∀ x ∈ r, Spaces x.1 ∧ x.1 ≠ []) →
        cfg.bytes = lead ++ (w.2.text ++ (Rendering.text r ++ tail)) → ∀ s ∈ pieces cfg, flaw s = none by
    obtain ⟨r, tail, hr, htail, hbytes⟩ := h
    cases r with
    | nil =>
        refine flawless_spaces ?_
        rw [hbytes]
        exact htail
    | cons w r =>
        rw [text_cons] at hbytes
        refine hmain r w w.1 tail cfg (hr.spaces w List.mem_cons_self) htail (fun x hx => ?_) hbytes
        exact ⟨hr.spaces x (List.mem_cons_of_mem _ hx), hr.apart x hx⟩
  intro r
  induction r with
  | nil =>
      intro w lead tail cfg hlead htail _ hbytes
      have hhead : ∀ c, tail.head? = some c → isspace c = true := fun c hc => htail c (List.mem_of_head? hc)
      refine pieces_text hlead hhead hbytes (flawless_spaces fun c hc => ?_)
      rw [cutPair_text hlead hhead hbytes] at hc
      change c ∈ w.2.remaining tail at hc
      unfold Assignment.remaining at hc
      split at hc
      · exact htail c (List.mem_of_mem_drop hc)
      · exact htail c hc
  | cons x r ih =>
      intro w lead tail cfg hlead htail hr hbytes
      obtain ⟨hx, hr⟩ := List.forall_mem_cons.mp hr
      rw [text_cons] at hbytes
      have hhead : ∀ c, (x.1 ++ (x.2.text ++ (Rendering.text r ++ tail))).head? = some c → isspace c = true := by
        intro c hc
        obtain ⟨b, l, hl⟩ := List.exists_cons_of_ne_nil hx.2
        rw [hl] at hc
        cases hc
        exact hx.1 c (by rw [hl]; exact List.mem_cons_self)
      obtain ⟨lead', hlead', hmem⟩ := w.2.remaining_append hx.2 (x.2.text ++ (Rendering.text r ++ tail))
      refine pieces_text hlead hhead hbytes ?_
      refine ih x lead' tail (cutPair cfg) (fun c hc => hx.1 c (hmem c hc)) htail hr ?_
      exact (cutPair_text hlead hhead hbytes).trans hlead'

theorem sentence_iff : Sentence cfg ↔ ∀ s ∈ pieces cfg, flaw s = none :=
  ⟨flawless_of_sentence, sentence_of_flawless⟩

/-! ## What is accepted -/

/-- Sentences are accepted only, and all other strings are refused. -/
def AcceptsSentences (P : Platform) (err : Option EvfErr) (cfg : CString) (params : List EvfParam) : Prop :=
  ((evfLoadParamsCall P err cfg params).ret = 0 → Sentence cfg) ∧
    (¬ Sentence cfg → (evfLoadParamsCall P err cfg params).ret = -1)

/-- A flaw is no reason for refusing the string. -/
theorem acceptsSentences_iff (P : Platform) (err : Option EvfErr) (cfg : CString) (params : List EvfParam) :
    AcceptsSentences P err cfg params ↔
      (Acceptable P params (tokens cfg) → ∀ s ∈ pieces cfg, flaw s = none) := by
  rw [AcceptsSentences, sentence_iff, ret_eq_zero_iff]
  constructor
  · exact fun h => h.1
  · exact fun h => ⟨h, fun hnot => (refused_of_not_acceptable fun haccept => hnot (h haccept)).1⟩

/-- A platform on which nothing can be opened. -/
def closedPlatform : Platform :=
  { Float := Unit
    strtof := fun str => ((), str)
    File := Unit
    stdout := ()
    stderr := ()
    fopen := fun _ => .error 2
    keyValues := fun _ => 0 }

def nameParams : List EvfParam := [⟨CString.literal "Name", .str, none, none⟩]

/-- `Name='abc` -/
theorem unterminated_accepted :
    ¬ AcceptsSentences closedPlatform none (CString.literal "Name='abc") nameParams := by
  have hne : (CString.literal "Name='abc").bytes ≠ [] := by decide
  have htokens : tokens (CString.literal "Name='abc") = [(CString.literal "Name", CString.literal "abc")] := by
    rw [tokens_cons hne, tokens_nil (by decide)]
    decide
  intro h
  have hret : (evfLoadParamsCall closedPlatform none (CString.literal "Name='abc") nameParams).ret = 0 := by
    refine ret_eq_zero_iff.mpr ?_
    rw [htokens]
    exact ⟨by decide, by decide, fun s hs => ⟨CString.literal "abc", by
      obtain rfl : s = (⟨CString.literal "Name", .str, none, none⟩, some (CString.literal "abc")) := by
        rw [← List.mem_singleton]
        exact hs
      exact ⟨rfl, _, rfl⟩⟩⟩
  have hflaw := flawless_of_sentence (h.1 hret) _ (by rw [pieces_cons hne]; exact List.mem_cons_self)
  revert hflaw
  decide

end Evfilter.Param
