import Evfilter.Lib.Buffer
import Evfilter.Lib.Comp
import Evfilter.Lib.Stream
import Evfilter.Loader.Load

/-!
# Reading lines into arrays

`evf_read_line_preprocess` again, with the file as `fscanf` leaves it and arrays that can be written behind. The file
may have any bytes, and reading from it may fail.
-/

namespace Evfilter.Reader
open Lib Comp Loader

inductive Fault
  | overflow
  | unterminated
  | dangling
deriving DecidableEq

def orFault {α : Type} (fault : Fault) : Option α → Except Fault α
  | none => .error fault
  | some a => .ok a

/-- What `fscanf` converts is stored with a NUL behind it, if it is anything. -/
def store {n : Nat} (buf : Buf n) (item : List UInt8) : Except Fault (Buf n) :=
  if item = [] then .ok buf else orFault .overflow (buf.write 0 (item ++ [0]))

abbrev LineBuf := Buf bufLen

/-- One turn of the loop. `*line='\0'` for a comment is in the middle of `str_buf`, and not looked at again. -/
def readLine (s : LineBuf × Stream) : Except Fault ((LineBuf × Stream) ⊕ (LineBuf × Stream)) := do
  let read := s.2.scanLine 4096
  let str ← orFault .overflow (s.1.write 0 [0])
  let str ← store str read.1
  let line ← orFault .unterminated (str.string 0)
  let line := line.dropWhile isspace
  let line := if line.bytes.head? = some hash then line.trunc 0 else line
  if line.bytes ≠ [] ∨ read.2.eof = true then .ok (.inr (Buf.strncpy bufLen line, read.2))
  else .ok (.inl (str, read.2))

/-- The first parameter is what `str_buf` contains before. -/
def evfReadLinePreprocess (str : LineBuf) (config : Stream) : Comp Fault (LineBuf × Stream) :=
  loop (fun s => done (readLine s)) (str, config)

/-! ## One turn -/

/-- What is left of a line. -/
def content (line : List UInt8) : CString :=
  let line := (CString.ofBytes line).dropWhile isspace
  if line.bytes.head? = some hash then line.trunc 0 else line

variable {n : Nat} {str str' : LineBuf} {buf : Buf n} {item : List UInt8} {config : Stream}

theorem strlen_content_le (line : List UInt8) : (content line).strlen ≤ line.length := by
  have hline : ((CString.ofBytes line).dropWhile isspace).strlen ≤ line.length :=
    (List.dropWhile_suffix _).length_le.trans (List.takeWhile_prefix _).length_le
  unfold content
  dsimp only
  split
  · exact Nat.zero_le _
  · exact hline

theorem content_nil : content [] = CString.literal "" := rfl

theorem store_room (h : item.length < n) (hbuf : buf.string 0 = some (CString.ofBytes [])) :
    ∃ buf', store buf item = .ok buf' ∧ buf'.string 0 = some (CString.ofBytes item) := by
  by_cases hnil : item = []
  · exact ⟨buf, if_pos hnil, hnil ▸ hbuf⟩
  · obtain ⟨buf', hwrite⟩ := Buf.write_some (b := buf) (p := 0) (s := item ++ [0]) (by simpa using Nat.succ_le_of_lt h)
    exact ⟨buf', by rw [store, if_neg hnil, hwrite]; rfl, Buf.string_write hwrite⟩

theorem store_long (h : n ≤ item.length) (hn : 0 < n) : store buf item = .error .overflow := by
  have hne : item ≠ [] := List.length_pos_iff.mp (Nat.lt_of_lt_of_le hn h)
  rw [store, if_neg hne, Buf.write_none (by simpa using Nat.lt_succ_of_le h)]
  rfl

theorem write_nul (str : LineBuf) :
    ∃ str', str.write 0 [0] = some str' ∧ str'.string 0 = some (CString.ofBytes []) := by
  obtain ⟨str', hwrite⟩ := Buf.write_some (b := str) (p := 0) (s := [0]) (by decide)
  exact ⟨str', hwrite, Buf.string_write (s := []) hwrite⟩

theorem readLine_room (str : LineBuf) (config : Stream) (h : (config.scanLine 4096).1.length < bufLen) : ∃ str',
    readLine (str, config) = .ok (
      if (content (config.scanLine 4096).1).bytes ≠ [] ∨ (config.scanLine 4096).2.eof = true then
        .inr (Buf.strncpy bufLen (content (config.scanLine 4096).1), (config.scanLine 4096).2)
      else .inl (str', (config.scanLine 4096).2)) := by
  obtain ⟨str₁, hwrite, hempty⟩ := write_nul str
  obtain ⟨str₂, hstore, hstring⟩ := store_room h hempty
  refine ⟨str₂, ?_⟩
  simp only [readLine, hwrite, orFault, hstore, hstring, ok_bind]
  exact (apply_ite Except.ok _ _ _).symm

theorem readLine_long (h : bufLen ≤ (config.scanLine 4096).1.length) :
    readLine (str, config) = .error .overflow := by
  obtain ⟨str₁, hwrite, -⟩ := write_nul str
  simp only [readLine, hwrite, orFault, store_long h (by decide), ok_bind, error_bind]

/-- It does not matter what is in the array. -/
theorem read_congr (str str' : LineBuf) (config : Stream) :
    (evfReadLinePreprocess str config).Same (evfReadLinePreprocess str' config) := by
  refine same_loops (fun s t => s.2 = t.2) ?_ rfl
  rintro ⟨s, config⟩ ⟨t, -⟩ rfl
  refine ⟨_, _, rfl, rfl, ?_⟩
  rcases Nat.lt_or_ge (config.scanLine 4096).1.length bufLen with hroom | hlong
  · obtain ⟨s', hs⟩ := readLine_room s config hroom
    obtain ⟨t', ht⟩ := readLine_room t config hroom
    rw [hs, ht]
    split
    · exact Or.inl rfl
    · exact Or.inr ⟨_, _, rfl, rfl, rfl⟩
  · rw [readLine_long hlong, readLine_long hlong]
    exact Or.inl rfl

/-! ## The lines of a file -/

/-- Where the next line starts. -/
def after (text : List UInt8) : List UInt8 := (text.dropWhile (· != newline)).dropWhile isspace

theorem length_after_lt {text : List UInt8} (h : text ≠ []) : (after text).length < text.length := by
  obtain ⟨c, text, rfl⟩ := List.exists_cons_of_ne_nil h
  by_cases hc : c = newline
  · have hafter : after (c :: text) = text.dropWhile isspace := by
      simp [after, hc, show isspace newline = true from by decide]
    rw [hafter]
    exact Nat.lt_succ_of_le (List.dropWhile_suffix _).length_le
  · have hafter : after (c :: text) = after text := by simp [after, hc]
    rw [hafter]
    exact Nat.lt_succ_of_le ((List.dropWhile_suffix _).length_le.trans (List.dropWhile_suffix _).length_le)

def scans (text : List UInt8) : List (List UInt8) :=
  if _h : text = [] then [] else text.takeWhile (· != newline) :: scans (after text)
termination_by text.length
decreasing_by exact length_after_lt _h

/-- What the reader makes of the lines, apart from those it leaves out. -/
def contents (lines : List (List UInt8)) : List CString := (lines.map content).filter fun c => c.bytes ≠ []

def Proper (text : List UInt8) : Prop := text.head? ≠ some newline

instance (text : List UInt8) : Decidable (Proper text) := inferInstanceAs (Decidable (text.head? ≠ some newline))

variable {text line : List UInt8} {lines : List (List UInt8)} {wanted : Bool}

theorem scans_nil : scans [] = [] := by rw [scans, dif_pos rfl]

theorem scans_cons (h : text ≠ []) : scans text = text.takeWhile (· != newline) :: scans (after text) := by
  rw [scans, dif_neg h]

theorem scans_eq_nil : scans text = [] ↔ text = [] := by
  constructor
  · intro h
    by_contra hne
    rw [scans_cons hne] at h
    cases h
  · rintro rfl
    exact scans_nil

theorem proper_after (text : List UInt8) : Proper (after text) := by
  intro h
  have hspace := List.head?_dropWhile_not isspace (text.dropWhile (· != newline))
  rw [show ((text.dropWhile (· != newline)).dropWhile isspace).head? = some newline from h] at hspace
  exact absurd hspace (by decide)

theorem Proper.line_ne_nil (h : Proper text) (hne : text ≠ []) : text.takeWhile (· != newline) ≠ [] := by
  obtain ⟨c, text, rfl⟩ := List.exists_cons_of_ne_nil hne
  have hc : (c != newline) = true := by simpa using fun hc : c = newline => h (by rw [hc]; rfl)
  rw [List.takeWhile_cons, if_pos hc]
  exact List.cons_ne_nil _ _

theorem contents_cons : contents (line :: lines) =
    if (content line).bytes ≠ [] then content line :: contents lines else contents lines := by
  rw [contents, List.map_cons, List.filter_cons]
  simp [contents]

/-! ## Reading a line -/

theorem read_newline (h : ¬ Proper config.rest) : ¬ (evfReadLinePreprocess str config).Stops := by
  have hscan : config.scanLine 4096 = ([], config) := Stream.scanLine_newline (not_not.mp h) (by decide)
  have hne : config.rest ≠ [] := fun hnil => h (by rw [hnil]; exact nofun)
  refine loop_forever (fun s => s.2 = config) ?_ rfl
  rintro ⟨s, file⟩ hfile r hr
  obtain rfl : file = config := hfile
  obtain ⟨s', hs⟩ := readLine_room s file (by rw [hscan]; exact Nat.zero_lt_succ _)
  have heof : ¬ file.eof = true := fun heof => hne (file.ended heof).1
  rw [hscan, if_neg (by simp [content_nil, heof, CString.literal])] at hs
  rw [yields_done, hs] at hr
  exact ⟨_, hr, rfl⟩

/-- What is left when a line has been read. -/
def next (config : Stream) : Stream := config.past (after config.rest) true

theorem eof_next : (next config).eof = true ↔ scans (after config.rest) = [] ∧ config.broken = false := by
  rw [scans_eq_nil]
  exact Stream.eof_past_wanted

theorem read_nil (h : config.rest = []) (hbroken : config.broken = false) :
    (evfReadLinePreprocess str config).Same (pure (Buf.strncpy bufLen (content []), config.past [] true)) := by
  have hscan : config.scanLine 4096 = ([], config.past [] true) := Stream.scanLine_nil h (by decide)
  obtain ⟨str', hread⟩ := readLine_room str config (by rw [hscan]; exact Nat.zero_lt_succ _)
  have heof : (config.past [] true).eof = true := Stream.eof_past_wanted.mpr ⟨rfl, hbroken⟩
  rw [hscan, if_pos (Or.inr heof)] at hread
  exact same_loop_inr (congrArg done hread)

theorem read_broken (h : config.rest = []) (hbroken : config.broken = true) :
    ¬ (evfReadLinePreprocess str config).Stops := by
  refine loop_forever (fun s => s.2.rest = [] ∧ s.2.broken = true) ?_ ⟨h, hbroken⟩
  rintro ⟨s, file⟩ ⟨hrest, hbroken⟩ r hr
  have hscan : file.scanLine 4096 = ([], file.past [] true) := Stream.scanLine_nil hrest (by decide)
  obtain ⟨s', hs⟩ := readLine_room s file (by rw [hscan]; exact Nat.zero_lt_succ _)
  have heof : ¬ (file.past [] true).eof = true := by
    rw [Stream.eof_past_wanted, show file.broken = true from hbroken]
    simp
  rw [hscan, if_neg (by simp [content_nil, heof, CString.literal])] at hs
  rw [yields_done, hs] at hr
  exact ⟨_, hr, rfl, hbroken⟩

theorem of_scans (h : scans text = line :: lines) :
    text ≠ [] ∧ text.takeWhile (· != newline) = line ∧ scans (after text) = lines := by
  have hne : text ≠ [] := by
    rintro rfl
    rw [scans_nil] at h
    cases h
  rw [scans_cons hne] at h
  exact ⟨hne, List.cons.inj h⟩

theorem read_long (str : LineBuf) (config : Stream) (h : scans config.rest = line :: lines)
    (hlong : bufLen ≤ line.length) :
    (evfReadLinePreprocess str config).Same (fault .overflow) := by
  obtain ⟨-, rfl, -⟩ := of_scans h
  exact same_loop_error (congrArg done (readLine_long (Stream.length_scanLine_long hlong).ge))

theorem readLine_short (str : LineBuf) (hp : Proper config.rest) (h : scans config.rest = line :: lines)
    (hshort : line.length < bufLen) : ∃ str', readLine (str, config) = .ok (
      if (content line).bytes ≠ [] ∨ lines = [] ∧ config.broken = false then
        .inr (Buf.strncpy bufLen (content line), next config)
      else .inl (str', next config)) := by
  obtain ⟨hne, rfl, rfl⟩ := of_scans h
  have hscan := Stream.scanLine_short (hp.line_ne_nil hne) hshort
  obtain ⟨str', hread⟩ := readLine_room str config (by rw [hscan]; exact hshort)
  rw [hscan] at hread
  exact ⟨str', hread.trans (congrArg Except.ok (if_congr (or_congr_right eof_next) rfl rfl))⟩

theorem read_line (str : LineBuf) (hp : Proper config.rest) (h : scans config.rest = line :: lines)
    (hshort : line.length < bufLen)
    (hends : (content line).bytes ≠ [] ∨ lines = [] ∧ config.broken = false) :
    (evfReadLinePreprocess str config).Same (pure (Buf.strncpy bufLen (content line), next config)) := by
  obtain ⟨str', hread⟩ := readLine_short str hp h hshort
  rw [if_pos hends] at hread
  exact same_loop_inr (congrArg done hread)

theorem read_skip (str : LineBuf) (hp : Proper config.rest) (h : scans config.rest = line :: lines)
    (hshort : line.length < bufLen)
    (hgoes : ¬ ((content line).bytes ≠ [] ∨ lines = [] ∧ config.broken = false)) :
    (evfReadLinePreprocess str config).Same (evfReadLinePreprocess str (next config)) := by
  obtain ⟨str', hread⟩ := readLine_short str hp h hshort
  rw [if_neg hgoes] at hread
  exact (same_loop_inl (congrArg done hread)).trans (read_congr str' str (next config))

/-! ## Readers that go on line after line -/

/-- Every line that comes behind some with which the reader goes on has room in the array. -/
def Short (More : List CString → Prop) (lines : List (List UInt8)) : Prop :=
  ∀ before line behind, lines = before ++ line :: behind → More (contents before) → line.length < bufLen

/-- The reader goes on as long as `More` holds of the lines it has got so far, and leaves with `Q` then, or at the end
of the file. -/
structure Follows {α : Type} (Q : α → Prop) (More : List CString → Prop) (lines : List (List UInt8)) (broken : Bool)
    (x : Comp Fault α) : Prop where
  returns : Short More lines → (broken = true → ¬ More (contents lines)) → x.Returns Q
  overflow : ¬ Short More lines → x.Yields (.error .overflow)
  forever : Short More lines → broken = true → More (contents lines) → ¬ x.Stops

variable {α : Type} {Q : α → Prop} {More : List CString → Prop} {broken : Bool} {x y : Comp Fault α}

theorem short_nil : Short More [] := by
  intro before line behind h
  simp at h

theorem contents_append (l₁ l₂ : List (List UInt8)) : contents (l₁ ++ l₂) = contents l₁ ++ contents l₂ := by
  rw [contents, List.map_append, List.filter_append]
  rfl

theorem short_cons : Short More (line :: lines) ↔
    (More [] → line.length < bufLen) ∧ Short (fun c => More (contents [line] ++ c)) lines := by
  constructor
  · intro h
    refine ⟨h [] line lines rfl, fun before long behind hlines hmore => ?_⟩
    refine h (line :: before) long behind (by rw [hlines]; rfl) ?_
    rw [← List.singleton_append, contents_append]
    exact hmore
  · rintro ⟨hfirst, h⟩ before long behind hlines hmore
    cases before with
    | nil =>
        obtain ⟨rfl, -⟩ := List.cons.inj hlines
        exact hfirst hmore
    | cons _ before =>
        obtain ⟨rfl, rfl⟩ := List.cons.inj hlines
        refine h before long behind rfl ?_
        change More (contents ([line] ++ before)) at hmore
        rwa [contents_append] at hmore

theorem Follows.same (hy : Follows Q More lines broken y) (h : x.Same y) : Follows Q More lines broken x where
  returns := fun hshort hend => (hy.returns hshort hend).imp fun _ ha => ⟨(h _).mpr ha.1, ha.2⟩
  overflow := fun hlong => (h _).mpr (hy.overflow hlong)
  forever := fun hshort hbroken hmore hstops => hy.forever hshort hbroken hmore (hstops.imp fun r hr => (h r).mp hr)

theorem Follows.cons (hshort : line.length < bufLen)
    (h : Follows Q (fun c => More (contents [line] ++ c)) lines broken x) :
    Follows Q More (line :: lines) broken x := by
  have hcons : Short More (line :: lines) ↔ Short (fun c => More (contents [line] ++ c)) lines := by
    rw [short_cons, and_iff_right fun _ => hshort]
  have hcontents : contents (line :: lines) = contents [line] ++ contents lines := contents_append [line] lines
  constructor
  · intro hs hend
    rw [hcontents] at hend
    exact h.returns (hcons.mp hs) hend
  · exact fun hlong => h.overflow fun hs => hlong (hcons.mpr hs)
  · intro hs hbroken hmore
    rw [hcontents] at hmore
    exact h.forever (hcons.mp hs) hbroken hmore

theorem follows_done (hmore : ∀ c, ¬ More c) (h : x.Returns Q) : Follows Q More lines broken x where
  returns := fun _ _ => h
  overflow := fun hlong => absurd (fun _ _ _ _ hm => absurd hm (hmore _)) hlong
  forever := fun _ _ hm => absurd hm (hmore _)

theorem follows_end (h : x.Returns Q) : Follows Q More [] false x where
  returns := fun _ _ => h
  overflow := fun hlong => absurd short_nil hlong
  forever := fun _ hbroken => absurd hbroken Bool.false_ne_true

theorem follows_broken (hmore : More []) (h : ¬ x.Stops) : Follows Q More [] true x where
  returns := fun _ hend => absurd hmore (hend rfl)
  overflow := fun hlong => absurd short_nil hlong
  forever := fun _ _ _ => h

theorem follows_long (hmore : More []) (hlong : bufLen ≤ line.length) (h : x.Same (fault .overflow)) :
    Follows Q More (line :: lines) broken x := by
  have hnot : ¬ Short More (line :: lines) := fun hs => Nat.not_lt.mpr hlong (hs [] line lines rfl hmore)
  exact ⟨fun hs => absurd hs hnot, fun _ => (h _).mpr (yields_fault.mpr rfl), fun hs => absurd hs hnot⟩

theorem Follows.of_terminates (h : Follows Q More lines broken x) (ht : x.Terminates) :
    Short More lines ∧ (broken = true → ¬ More (contents lines)) := by
  obtain ⟨a, ha⟩ := ht
  have hshort : Short More lines := by
    by_contra hlong
    cases ha.unique (h.overflow hlong)
  exact ⟨hshort, fun hbroken hmore => h.forever hshort hbroken hmore ⟨_, ha⟩⟩

theorem Follows.meets (h : Follows Q More lines broken x) (hshort : Short More lines) : x.Meets False Q := by
  by_cases hmore : broken = true ∧ More (contents lines)
  · exact ⟨fun r hr => absurd ⟨r, hr⟩ (h.forever hshort hmore.1 hmore.2), False.elim⟩
  · obtain ⟨a, ha, hQ⟩ := h.returns hshort fun hb hm => hmore ⟨hb, hm⟩
    exact meets_of_yields ha hQ

theorem Follows.safe_iff (h : Follows Q More lines broken x) : x.Safe ↔ Short More lines := by
  refine ⟨fun hsafe => ?_, fun hshort => (h.meets hshort).safe⟩
  by_contra hlong
  exact hsafe _ (h.overflow hlong)

/-- A reader that gets a line and goes on with it. -/
theorem follows_read_bind {k : LineBuf × Stream → Comp Fault α} (hp : Proper config.rest) (hmore : More [])
    (hend : ∀ file, file.eof = true → config.broken = false → (k (Buf.strncpy bufLen (content []), file)).Returns Q)
    (hline : ∀ line file, (content line).bytes ≠ [] → line.length < bufLen → Proper file.rest →
      file.broken = config.broken →
      (file.eof = true ↔ scans file.rest = [] ∧ file.broken = false) →
      (scans file.rest).length < (scans config.rest).length →
      Follows Q (fun c => More (content line :: c)) (scans file.rest) config.broken
        (k (Buf.strncpy bufLen (content line), file))) :
    Follows Q More (scans config.rest) config.broken (evfReadLinePreprocess str config >>= k) := by
  induction hlines : scans config.rest generalizing config with
  | nil =>
      have hrest := scans_eq_nil.mp hlines
      cases hbroken : config.broken with
      | false =>
          refine (follows_end ?_).same (((read_nil hrest hbroken).bind k).trans (same_pure_bind _ k))
          exact hend _ (Stream.eof_past_wanted.mpr ⟨rfl, hbroken⟩) hbroken
      | true => exact follows_broken hmore fun hstops => read_broken hrest hbroken hstops.of_bind
  | cons line lines ih =>
      obtain ⟨-, -, hafter⟩ := of_scans hlines
      rcases Nat.lt_or_ge line.length bufLen with hshort | hlong
      · by_cases hc : (content line).bytes ≠ []
        · have hsame := ((read_line str hp hlines hshort (Or.inl hc)).bind k).trans (same_pure_bind _ k)
          refine (Follows.cons hshort ?_).same hsame
          have hnext := hline line (next config) hc hshort (proper_after _) rfl (by rw [eof_next]; rfl)
            (by rw [hlines, show scans (next config).rest = lines from hafter]; exact Nat.lt_succ_self _)
          rw [show scans (next config).rest = lines from hafter] at hnext
          rw [contents_cons, if_pos hc]
          exact hnext
        · have hempty : content line = content [] := CString.ext (not_not.mp hc)
          have hleft : contents [line] = [] := by rw [contents_cons, if_neg hc]; rfl
          refine Follows.cons hshort ?_
          rw [hleft]
          by_cases hlast : lines = [] ∧ config.broken = false
          · have hsame := ((read_line str hp hlines hshort (Or.inr hlast)).bind k).trans (same_pure_bind _ k)
            rw [hlast.1, hlast.2]
            refine (follows_end ?_).same hsame
            rw [hempty]
            exact hend _ (eof_next.mpr (by rw [hafter]; exact hlast)) hlast.2
          · have hgoes : ¬ ((content line).bytes ≠ [] ∨ lines = [] ∧ config.broken = false) := by
              rintro (hline | hend)
              · exact hc hline
              · exact hlast hend
            have hread := (read_skip str hp hlines hshort hgoes).bind k
            refine (@ih (next config) (proper_after _) hend (fun l file h₁ h₂ h₃ h₄ h₅ h₆ => ?_) hafter).same hread
            exact hline l file h₁ h₂ h₃ h₄ h₅ (h₆.trans (by
              rw [hlines, show scans (next config).rest = lines from hafter]
              exact Nat.lt_succ_self _))
      · refine follows_long hmore hlong (((read_long str config hlines hlong).bind k).trans fun r => ?_)
        rw [yields_bind]
        simp

theorem follows_read (str : LineBuf) (hp : Proper config.rest) :
    Follows (fun _ => True) (fun c => c = []) (scans config.rest) config.broken
      (evfReadLinePreprocess str config) := by
  have hdone (a : LineBuf × Stream) : (pure a : Comp Fault (LineBuf × Stream)).Returns fun _ => True :=
    ⟨a, yields_pure.mpr rfl, trivial⟩
  have hbind : Follows (fun _ => True) (fun c => c = []) (scans config.rest) config.broken
      (evfReadLinePreprocess str config >>= pure) :=
    follows_read_bind hp rfl (fun file _ _ => hdone _) fun line file _ _ _ _ _ _ =>
      follows_done (fun c => List.cons_ne_nil _ _) (hdone _)
  exact hbind.same (same_bind_pure _).symm

end Evfilter.Reader
