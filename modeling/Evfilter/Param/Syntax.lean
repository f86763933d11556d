import Evfilter.Param.Tokens

/-!
# The documented syntax

A parameter is a name and a value, with whitespace or '=' between them. The value may be enclosed in quotes. The
ways of writing a list of parameters are the renderings, and the first loop reads each of them back.
-/

namespace Evfilter.Param
open Lib

def Spaces (bytes : List UInt8) : Prop := ∀ c ∈ bytes, isspace c = true

/-- Neither whitespace nor '=' is in it. -/
def Word (s : CString) : Prop := s.bytes ≠ [] ∧ ∀ c ∈ s.bytes, endsName c = false

/-- The value may be written in this way: bare, or between two quotes. -/
def Writable (value : CString) : Option UInt8 → Prop
  | none => (value.bytes ≠ [] ∧ ∀ c ∈ value.bytes, isspace c = false) ∧
      ∀ c ∈ value.bytes.head?, c ≠ equals ∧ c ≠ doubleQuote ∧ c ≠ singleQuote
  | some quote => (quote = doubleQuote ∨ quote = singleQuote) ∧ quote ∉ value.bytes

instance (bytes : List UInt8) : Decidable (Spaces bytes) := List.decidableBAll _ bytes

instance (s : CString) : Decidable (Word s) :=
  haveI := List.decidableBAll (fun c => endsName c = false) s.bytes
  inferInstanceAs (Decidable (s.bytes ≠ [] ∧ ∀ c ∈ s.bytes, endsName c = false))

instance (value : CString) : (quote : Option UInt8) → Decidable (Writable value quote)
  | none =>
    haveI := List.decidableBAll (fun c => isspace c = false) value.bytes
    haveI : Decidable (∀ c ∈ value.bytes.head?, c ≠ equals ∧ c ≠ doubleQuote ∧ c ≠ singleQuote) :=
      Option.decidableForallMem _
    inferInstanceAs (Decidable ((value.bytes ≠ [] ∧ ∀ c ∈ value.bytes, isspace c = false) ∧
      ∀ c ∈ value.bytes.head?, c ≠ equals ∧ c ≠ doubleQuote ∧ c ≠ singleQuote))
  | some quote =>
    inferInstanceAs (Decidable ((quote = doubleQuote ∨ quote = singleQuote) ∧ quote ∉ value.bytes))

/-- One parameter as it is written. -/
structure Assignment where
  name : CString
  value : CString
  before : List UInt8
  sign : Bool
  after : List UInt8
  quote : Option UInt8
  name_word : Word name
  before_spaces : Spaces before
  after_spaces : Spaces after
  separated : sign = true ∨ before ≠ []
  value_writable : Writable value quote

namespace Assignment

def separator (a : Assignment) : List UInt8 := a.before ++ ((if a.sign then [equals] else []) ++ a.after)

def quoted (a : Assignment) : List UInt8 :=
  match a.quote with
  | none => a.value.bytes
  | some quote => quote :: (a.value.bytes ++ [quote])

def text (a : Assignment) : List UInt8 := a.name.bytes ++ (a.separator ++ a.quoted)

/-- What is left of `tail` after the value. -/
def remaining (a : Assignment) (tail : List UInt8) : List UInt8 :=
  match a.quote with
  | none => tail.drop 1
  | some _ => tail

end Assignment

/-- Each parameter with the whitespace before it. -/
abbrev Rendering := List (List UInt8 × Assignment)

def Rendering.text (r : Rendering) : List UInt8 := r.flatMap fun w => w.1 ++ w.2.text

def Rendering.pairs (r : Rendering) : List (CString × CString) := r.map fun w => (w.2.name, w.2.value)

structure Rendering.Spaced (r : Rendering) : Prop where
  spaces : ∀ w ∈ r, Spaces w.1
  apart : ∀ w ∈ r.tail, w.1 ≠ []

/-! ## Scanning -/

variable {a : Assignment} {lead tail bytes : List UInt8} {test : UInt8 → Bool} {cfg : CString}

theorem dropWhile_stop {l m : List UInt8} (hl : ∀ c ∈ l, test c = true)
    (hm : ∀ c, m.head? = some c → test c = false) : (l ++ m).dropWhile test = m := by
  rw [List.dropWhile_append_of_pos hl]
  cases m with
  | nil => rfl
  | cons b m => rw [List.dropWhile_cons, hm b rfl, if_neg Bool.false_ne_true]

theorem takeWhile_stop {l m : List UInt8} (hl : ∀ c ∈ l, test c = true)
    (hm : ∀ c, m.head? = some c → test c = false) : (l ++ m).takeWhile test = l := by
  rw [List.takeWhile_append_of_pos hl]
  cases m with
  | nil => exact List.append_nil l
  | cons b m => rw [List.takeWhile_cons, hm b rfl, if_neg Bool.false_ne_true, List.append_nil]

theorem endsName_of_isspace {c : UInt8} (h : isspace c = true) : endsName c = true := by
  rw [endsName, h, Bool.true_or]

theorem Word.head {s : CString} (h : Word s) (bytes : List UInt8) :
    ∀ c, (s.bytes ++ bytes).head? = some c → isspace c = false := by
  intro c hc
  obtain ⟨b, l, hl⟩ := List.exists_cons_of_ne_nil h.1
  have hb := h.2 b (by rw [hl]; exact List.mem_cons_self)
  rw [hl] at hc
  cases hc
  exact (Bool.or_eq_false_iff.mp hb).1

theorem Assignment.separator_head (a : Assignment) (bytes : List UInt8) :
    ∃ c s, a.separator ++ bytes = c :: s ∧ endsName c = true := by
  unfold separator
  cases hb : a.before with
  | cons c s =>
      refine ⟨c, _, rfl, endsName_of_isspace (a.before_spaces c ?_)⟩
      rw [hb]
      exact List.mem_cons_self
  | nil =>
      rcases a.separated with hs | hs
      · exact ⟨equals, a.after ++ bytes, by simp [hs], rfl⟩
      · exact absurd hb hs

theorem Assignment.quoted_head (a : Assignment) (tail : List UInt8) :
    ∀ c, (a.quoted ++ tail).head? = some c → isspace c = false ∧ c ≠ equals := by
  intro c hc
  have hw := a.value_writable
  unfold quoted at hc
  cases hq : a.quote with
  | none =>
      rw [hq] at hw hc
      obtain ⟨b, l, hl⟩ := List.exists_cons_of_ne_nil hw.1.1
      have hb := hw.1.2 b (by rw [hl]; exact List.mem_cons_self)
      have he := (hw.2 b (by rw [hl]; rfl)).1
      simp only [hl] at hc
      cases hc
      exact ⟨hb, he⟩
  | some quote =>
      rw [hq] at hw hc
      cases hc
      rcases hw.1 with h | h
      · rw [h]
        decide
      · rw [h]
        decide

/-- The separator is passed by `splitName`, apart from spaces that `splitValue` passes. -/
theorem splitName_text (hlead : Spaces lead) (h : cfg.bytes = lead ++ (a.text ++ tail)) :
    (splitName cfg).1 = a.name ∧ (splitName cfg).2.bytes.dropWhile isspace = a.quoted ++ tail := by
  have hstart : cfg.bytes.dropWhile isspace = a.name.bytes ++ (a.separator ++ (a.quoted ++ tail)) := by
    rw [h, Assignment.text, List.append_assoc, List.append_assoc]
    exact dropWhile_stop hlead (a.name_word.head _)
  obtain ⟨c, s, hsep, hc⟩ := a.separator_head (a.quoted ++ tail)
  have hname : ∀ b ∈ a.name.bytes, (!endsName b) = true := by
    intro b hb
    rw [a.name_word.2 b hb]
    rfl
  have hstop : ∀ b, (a.separator ++ (a.quoted ++ tail)).head? = some b → (!endsName b) = false := by
    intro b hb
    rw [hsep] at hb
    cases hb
    rw [hc]
    rfl
  refine ⟨CString.ext ?_, ?_⟩
  · change (cfg.bytes.dropWhile isspace).takeWhile _ = _
    rw [hstart, takeWhile_stop hname hstop]
  · have hquoted := a.quoted_head tail
    have hv : (a.quoted ++ tail).dropWhile isspace = a.quoted ++ tail :=
      dropWhile_stop (l := []) (by simp) fun b hb => (hquoted b hb).1
    have hne : (a.quoted ++ tail).head? ≠ some equals := fun hb => (hquoted _ hb).2 rfl
    have hafter : (a.after ++ (a.quoted ++ tail)).dropWhile isspace = a.quoted ++ tail := by
      rw [List.dropWhile_append_of_pos a.after_spaces, hv]
    change (CString.accept equals _).bytes.dropWhile isspace = _
    rw [CString.bytes_accept]
    simp only [CString.bytes_dropWhile, CString.bytes_drop, hstart, dropWhile_stop hname hstop]
    -- The byte that ended the name is the first of the separator.
    rw [Assignment.separator, List.append_assoc, List.append_assoc]
    cases hb : a.before with
    | nil =>
        have hs : a.sign = true := a.separated.resolve_right fun h => h hb
        simp only [hs, ↓reduceIte, List.nil_append, List.cons_append, List.drop_succ_cons, List.drop_zero,
          hafter, if_neg hne, hv]
    | cons b before =>
        have hbefore : ∀ c ∈ before, isspace c = true := fun c hc =>
          a.before_spaces c (by rw [hb]; exact List.mem_cons_of_mem _ hc)
        rw [List.cons_append, List.drop_succ_cons, List.drop_zero, List.dropWhile_append_of_pos hbefore]
        cases a.sign with
        | true =>
            have hsign : isspace equals = false := by decide
            simp only [↓reduceIte, List.cons_append, List.nil_append, List.dropWhile_cons, hsign,
              Bool.false_eq_true, List.head?_cons, List.tail_cons, hafter]
        | false => simp only [Bool.false_eq_true, ↓reduceIte, List.nil_append, hafter, if_neg hne, hv]

theorem splitValue_text (htail : ∀ c, tail.head? = some c → isspace c = true)
    (h : cfg.bytes.dropWhile isspace = a.quoted ++ tail) :
    (splitValue cfg).1 = a.value ∧ (splitValue cfg).2.bytes = a.remaining tail := by
  have hw := a.value_writable
  unfold splitValue
  simp only [CString.bytes_dropWhile, h]
  unfold Assignment.quoted at h ⊢
  unfold Assignment.remaining
  cases hq : a.quote with
  | none =>
      rw [hq] at h hw
      obtain ⟨⟨hne, hns⟩, hfirst⟩ := hw
      obtain ⟨b, l, hl⟩ := List.exists_cons_of_ne_nil hne
      have hb := hfirst b (by rw [hl]; rfl)
      have hfilter : Option.filter (fun c => c == doubleQuote || c == singleQuote)
          (a.value.bytes ++ tail).head? = none := by
        rw [hl]
        simp [Option.filter, hb.2]
      have hword : ∀ c ∈ a.value.bytes, (!isspace c) = true := fun c hc => by rw [hns c hc]; rfl
      have hstop : ∀ c, tail.head? = some c → (!isspace c) = false := fun c hc => by rw [htail c hc]; rfl
      rw [hfilter]
      refine ⟨CString.ext ?_, ?_⟩
      · change (cfg.bytes.dropWhile isspace).takeWhile _ = _
        rw [h, takeWhile_stop hword hstop]
      · change ((cfg.bytes.dropWhile isspace).dropWhile _).drop 1 = _
        rw [h, dropWhile_stop hword hstop]
  | some quote =>
      rw [hq] at h hw
      have hfilter : Option.filter (fun c => c == doubleQuote || c == singleQuote)
          (quote :: (a.value.bytes ++ [quote]) ++ tail).head? = some quote := by
        rcases hw.1 with rfl | rfl
        · rfl
        · rfl
      have hword : ∀ c ∈ a.value.bytes, (!(c == quote)) = true := fun c hc => by
        simpa using fun hcq : c = quote => hw.2 (hcq ▸ hc)
      have hstop : ∀ c, ([quote] ++ tail).head? = some c → (!(c == quote)) = false := by simp
      rw [hfilter]
      refine ⟨CString.ext ?_, ?_⟩
      · change ((cfg.bytes.dropWhile isspace).drop 1).takeWhile _ = _
        rw [h, List.cons_append, List.drop_succ_cons, List.drop_zero, List.append_assoc,
          takeWhile_stop hword hstop]
      · change (((cfg.bytes.dropWhile isspace).drop 1).dropWhile _).drop 1 = _
        rw [h, List.cons_append, List.drop_succ_cons, List.drop_zero, List.append_assoc,
          dropWhile_stop hword hstop]
        rfl

theorem tokens_text (hlead : Spaces lead) (htail : ∀ c, tail.head? = some c → isspace c = true)
    (h : cfg.bytes = lead ++ (a.text ++ tail)) :
    ∃ left, left.bytes = a.remaining tail ∧ tokens cfg = (a.name, a.value) :: tokens left := by
  obtain ⟨hname, hrest⟩ := splitName_text hlead h
  obtain ⟨hvalue, hleft⟩ := splitValue_text htail hrest
  refine ⟨_, hleft, ?_⟩
  rw [tokens_cons, hname, hvalue]
  intro hnil
  rw [h, Assignment.text] at hnil
  have := a.name_word.1
  simp_all

/-- Nothing but whitespace is taken for a parameter without a name. -/
theorem tokens_spaces (hne : cfg.bytes ≠ []) (h : Spaces cfg.bytes) :
    ∃ name value, name.bytes = [] ∧ tokens cfg = [(name, value)] := by
  have hskip : cfg.bytes.dropWhile isspace = [] := List.dropWhile_eq_nil_iff.mpr h
  have hname : (splitName cfg).1.bytes = [] := by
    change (cfg.bytes.dropWhile isspace).takeWhile _ = []
    rw [hskip]
    rfl
  have hrest : (splitName cfg).2.bytes = [] := by
    change (CString.accept equals _).bytes = []
    rw [CString.bytes_accept]
    simp [hskip]
  have hleft : (splitValue (splitName cfg).2).2.bytes = [] := by
    unfold splitValue splitWord
    simp [hrest]
  exact ⟨_, _, hname, by rw [tokens_cons hne, tokens_nil hleft]⟩

/-! ## Renderings -/

/-- What is left after the last value, where the rendering is followed by `tail`. -/
def Rendering.remaining (r : Rendering) (tail : List UInt8) : List UInt8 :=
  match r.getLast? with
  | none => tail
  | some w => w.2.remaining tail

variable {r : Rendering}

theorem Assignment.remaining_append (a : Assignment) {m : List UInt8} (hm : m ≠ []) (tail : List UInt8) :
    ∃ lead, a.remaining (m ++ tail) = lead ++ tail ∧ ∀ c ∈ lead, c ∈ m := by
  unfold remaining
  cases a.quote with
  | none =>
      obtain ⟨c, m, rfl⟩ := List.exists_cons_of_ne_nil hm
      exact ⟨m, rfl, fun d hd => List.mem_cons_of_mem _ hd⟩
  | some quote => exact ⟨m, rfl, fun d hd => hd⟩

/-- The pairs of a rendering with whitespace behind it, and what comes of that whitespace. -/
theorem tokens_text_append {w : List UInt8 × Assignment} (hr : Rendering.Spaced (w :: r)) (htail : Spaces tail)
    (h : cfg.bytes = Rendering.text (w :: r) ++ tail) :
    ∃ left, left.bytes = Rendering.remaining (w :: r) tail ∧
      tokens cfg = Rendering.pairs (w :: r) ++ tokens left := by
  suffices hmain : ∀ (r : Rendering) (w : List UInt8 × Assignment) (lead : List UInt8) (cfg : CString), Spaces lead →
      (∀ x ∈ r, Spaces x.1 ∧ x.1 ≠ []) → cfg.bytes = lead ++ (w.2.text ++ (Rendering.text r ++ tail)) →
      ∃ left, left.bytes = Rendering.remaining (w :: r) tail ∧
        tokens cfg = Rendering.pairs (w :: r) ++ tokens left by
    refine hmain r w w.1 cfg (hr.spaces w List.mem_cons_self) (fun x hx => ?_) ?_
    · exact ⟨hr.spaces x (List.mem_cons_of_mem _ hx), hr.apart x hx⟩
    · rw [h, Rendering.text, List.flatMap_cons, List.append_assoc, List.append_assoc, Rendering.text]
  intro r
  induction r with
  | nil =>
      intro w lead cfg hlead _ h
      refine tokens_text hlead (fun c hc => ?_) h
      exact htail c (List.mem_of_head? hc)
  | cons x r ih =>
      intro w lead cfg hlead hr h
      obtain ⟨hx, hr⟩ := List.forall_mem_cons.mp hr
      have hnext : Rendering.text (x :: r) ++ tail = x.1 ++ (x.2.text ++ (Rendering.text r ++ tail)) := by
        rw [Rendering.text, List.flatMap_cons, List.append_assoc, List.append_assoc, Rendering.text]
      rw [hnext] at h
      have hnext_head : ∀ c, (x.1 ++ (x.2.text ++ (Rendering.text r ++ tail))).head? = some c → isspace c = true := by
        intro c hc
        obtain ⟨b, l, hl⟩ := List.exists_cons_of_ne_nil hx.2
        rw [hl] at hc
        cases hc
        exact hx.1 c (by rw [hl]; exact List.mem_cons_self)
      obtain ⟨left, hleft, htokens⟩ := tokens_text hlead hnext_head h
      obtain ⟨lead', hlead', hmem⟩ := w.2.remaining_append hx.2 (x.2.text ++ (Rendering.text r ++ tail))
      obtain ⟨left', hleft', htokens'⟩ := ih x lead' left (fun c hc => hx.1 c (hmem c hc)) hr (hleft.trans hlead')
      refine ⟨left', ?_, ?_⟩
      · rw [hleft', Rendering.remaining, Rendering.remaining, List.getLast?_cons_cons]
      · rw [htokens, htokens']
        rfl

theorem tokens_rendering (hr : r.Spaced) (h : cfg.bytes = r.text) : tokens cfg = r.pairs := by
  cases r with
  | nil => exact tokens_nil h
  | cons w r =>
      obtain ⟨left, hleft, htokens⟩ :=
        tokens_text_append hr (show Spaces [] by simp [Spaces]) (by rw [h, List.append_nil])
      have hnil : left.bytes = [] := by
        rw [hleft, Rendering.remaining]
        cases (w :: r).getLast? with
        | none => rfl
        | some x =>
            simp only [Assignment.remaining]
            cases x.2.quote <;> rfl
      rw [htokens, tokens_nil hnil, List.append_nil]

end Evfilter.Param
