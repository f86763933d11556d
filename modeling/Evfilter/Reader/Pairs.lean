import Evfilter.Reader.Profile

/-!
# The pairs of profilerc

How the two calls of `fscanf` cut the text. A pair behind which the file ends at once is read, but not gone through.
-/

namespace Evfilter.Reader
open Lib Comp Profile

/-! ## Cutting -/

def word (text : List UInt8) : List UInt8 := (text.dropWhile isspace).takeWhile fun c => !isspace c

def behindWord (text : List UInt8) : List UInt8 := (text.dropWhile isspace).dropWhile fun c => !isspace c

def value (text : List UInt8) : List UInt8 := ((behindWord text).dropWhile isspace).takeWhile (· != newline)

def behind (text : List UInt8) : List UInt8 := ((behindWord text).dropWhile isspace).dropWhile (· != newline)

variable {text : List UInt8}

theorem behind_of_blank (h : text.dropWhile isspace = []) : behind text = [] := by
  rw [behind, behindWord, h]
  rfl

theorem word_ne_nil (h : text.dropWhile isspace ≠ []) : word text ≠ [] := by
  obtain ⟨c, rest, hrest⟩ := List.exists_cons_of_ne_nil h
  have hspace := List.head?_dropWhile_not isspace text
  rw [hrest] at hspace
  rw [word, hrest, List.takeWhile_cons, if_pos (by simpa using hspace)]
  exact List.cons_ne_nil _ _

theorem length_behind_lt (h : text.dropWhile isspace ≠ []) : (behind text).length < text.length := by
  have hsplit : (word text).length + (behindWord text).length = (text.dropWhile isspace).length := by
    rw [← List.length_append, word, behindWord, List.takeWhile_append_dropWhile]
  have hword := List.length_pos_iff.mpr (word_ne_nil h)
  have htext : (text.dropWhile isspace).length ≤ text.length := (List.dropWhile_suffix _).length_le
  have hbehind : (behind text).length ≤ (behindWord text).length :=
    (List.dropWhile_suffix _).length_le.trans (List.dropWhile_suffix _).length_le
  omega

theorem value_ne_nil (h : behind text ≠ []) : value text ≠ [] := by
  intro hnil
  have hspace := List.head?_dropWhile_not isspace (behindWord text)
  cases hrest : (behindWord text).dropWhile isspace with
  | nil => exact h (by rw [behind, hrest]; rfl)
  | cons c rest =>
      have hspace : isspace c = false := by simpa [hrest] using hspace
      rw [value, hrest, List.takeWhile_cons] at hnil
      have hc : (c != newline) = true := by simpa using fun hc : c = newline => absurd hspace (hc ▸ by decide)
      rw [if_pos hc] at hnil
      cases hnil

/-- Words and values as far as they go. -/
def pairs (text : List UInt8) : List (List UInt8 × List UInt8) :=
  if _h : text.dropWhile isspace = [] then [] else (word text, value text) :: pairs (behind text)
termination_by text.length
decreasing_by exact length_behind_lt _h

def completed (text : List UInt8) : List (CString × CString) :=
  if _h : behind text = [] then []
  else (CString.ofBytes (word text), CString.ofBytes (value text)) :: completed (behind text)
termination_by text.length
decreasing_by exact length_behind_lt fun hnil => _h (behind_of_blank hnil)

/-- There is room for all of them in the arrays. -/
def Fitting (text : List UInt8) : Prop := ∀ pair ∈ pairs text, pair.1.length < 256 ∧ pair.2.length < 2048

theorem pairs_blank (h : text.dropWhile isspace = []) : pairs text = [] := by rw [pairs, dif_pos h]

theorem pairs_cons (h : text.dropWhile isspace ≠ []) : pairs text = (word text, value text) :: pairs (behind text) := by
  rw [pairs, dif_neg h]

theorem completed_end (h : behind text = []) : completed text = [] := by rw [completed, dif_pos h]

theorem completed_cons (h : behind text ≠ []) :
    completed text = (CString.ofBytes (word text), CString.ofBytes (value text)) :: completed (behind text) := by
  rw [completed, dif_neg h]

theorem fitting_iff : Fitting text ↔
    ((word text).length < 256 ∧ (value text).length < 2048) ∧ Fitting (behind text) := by
  by_cases h : text.dropWhile isspace = []
  · have hword : word text = [] := by rw [word, h]; rfl
    have hvalue : value text = [] := by rw [value, behindWord, h]; rfl
    have hbehind : Fitting (behind text) := by
      rw [Fitting, pairs_blank (by rw [behind_of_blank h]; rfl)]
      exact nofun
    refine iff_of_true ?_ ⟨by rw [hword, hvalue]; decide, hbehind⟩
    rw [Fitting, pairs_blank h]
    exact nofun
  · rw [Fitting, pairs_cons h, List.forall_mem_cons]
    rfl

/-! ## One turn -/

variable {φ σ : Type} {S : ProfileSystem φ σ} {path : CString} {s : Reading φ σ} {n : Nat} {buf : Buf n}
  {item : List UInt8}

theorem store_short (buf : Buf n) (h : item.length < n) : ∃ buf', store buf item = .ok buf' ∧
    (item = [] → buf' = buf) ∧ (item ≠ [] → buf'.string 0 = some (CString.ofBytes item)) := by
  by_cases hnil : item = []
  · exact ⟨buf, if_pos hnil, fun _ => rfl, fun hne => absurd hnil hne⟩
  · obtain ⟨buf', hwrite⟩ := Buf.write_some (b := buf) (p := 0) (s := item ++ [0]) (by simpa using Nat.succ_le_of_lt h)
    exact ⟨buf', by rw [store, if_neg hnil, hwrite]; rfl, fun h => absurd h hnil, fun _ => Buf.string_write hwrite⟩

/-- What the arrays contain after the two calls. -/
structure Scanned (s : Reading φ σ) (type : Buf 256) (value : Buf 2048) : Prop where
  type_old : word s.profile.rest = [] → type = s.type
  type_new : word s.profile.rest ≠ [] → type.string 0 = some (CString.ofBytes (word s.profile.rest))
  value_old : Reader.value s.profile.rest = [] → value = s.value
  value_new : Reader.value s.profile.rest ≠ [] → value.string 0 = some (CString.ofBytes (Reader.value s.profile.rest))

theorem turn_short (S : ProfileSystem φ σ) (path : CString) (hword : (word s.profile.rest).length < 256)
    (hvalue : (value s.profile.rest).length < 2048) :
    ∃ type value, Scanned s type value ∧ (profileTurn S path s).Same
      (pairRead S path { s with profile := s.profile.past (behind s.profile.rest) true, type, value }) := by
  obtain ⟨type, htype, htype_old, htype_new⟩ := store_short s.type hword
  obtain ⟨val, hval, hval_old, hval_new⟩ := store_short s.value hvalue
  have hfirst : s.profile.scanWord 256 = (word s.profile.rest, s.profile.past (behindWord s.profile.rest) true) :=
    Stream.scanWord_short hword
  have hsecond : (s.profile.past (behindWord s.profile.rest) true).scanRest 2048 =
      (value s.profile.rest, s.profile.past (behind s.profile.rest) true) :=
    (Stream.scanRest_short hvalue).trans (congrArg _ Stream.past_past)
  refine ⟨type, val, ⟨htype_old, htype_new, hval_old, hval_new⟩, ?_⟩
  rw [profileTurn, hfirst, hsecond, htype, hval]
  exact (same_pure_bind type _).trans (same_pure_bind val _)

theorem same_error_bind {ε α β : Type} (e : ε) (f : α → Comp ε β) :
    (done (.error e) >>= f : Comp ε β).Same (fault e) := by
  intro r
  rw [yields_bind]
  simp

theorem turn_long (h : ¬ ((word s.profile.rest).length < 256 ∧ (value s.profile.rest).length < 2048)) :
    (profileTurn S path s).Same (fault .overflow) := by
  rcases Nat.lt_or_ge (word s.profile.rest).length 256 with hword | hword
  · have hvalue : 2048 ≤ (value s.profile.rest).length := Nat.le_of_not_lt fun hvalue => h ⟨hword, hvalue⟩
    obtain ⟨type, htype, -⟩ := store_short s.type hword
    have hfirst : s.profile.scanWord 256 = (word s.profile.rest, s.profile.past (behindWord s.profile.rest) true) :=
      Stream.scanWord_short hword
    have hlong : ((s.profile.past (behindWord s.profile.rest) true).scanRest 2048).1.length = 2048 :=
      Stream.length_scanRest_long hvalue
    rw [profileTurn, hfirst, htype]
    refine (same_pure_bind type _).trans ?_
    rw [store_long hlong.ge (by decide)]
    exact same_error_bind _ _
  · have hlong : (s.profile.scanWord 256).1.length = 256 := Stream.length_scanWord_long hword
    rw [profileTurn, store_long hlong.ge (by decide)]
    exact same_error_bind _ _

/-! ## All turns -/

theorem loop_same (hfit : Fitting s.profile.rest) (hbroken : s.profile.broken = false) :
    (loop (profileTurn S path) s).Same (processAll S path (completed s.profile.rest) s.progress) := by
  obtain ⟨k, hk⟩ : ∃ k, s.profile.rest.length = k := ⟨_, rfl⟩
  induction k using Nat.strongRecOn generalizing s with
  | ind k ih =>
      obtain ⟨⟨hword, hvalue⟩, hrest⟩ := fitting_iff.mp hfit
      obtain ⟨type, val, hscanned, hturn⟩ := turn_short S path hword hvalue
      refine (same_loop _ _).trans ((hturn.bind _).trans ?_)
      by_cases hend : behind s.profile.rest = []
      · have heof : (s.profile.past (behind s.profile.rest) true).eof = true :=
          Stream.eof_past_wanted.mpr ⟨hend, hbroken⟩
        rw [pairRead, if_pos heof, completed_end hend]
        exact same_pure_bind _ _
      · have heof : ¬ (s.profile.past (behind s.profile.rest) true).eof = true := fun heof =>
          hend (Stream.eof_past_wanted.mp heof).1
        have htext : s.profile.rest.dropWhile isspace ≠ [] := fun hnil => hend (behind_of_blank hnil)
        rw [pairRead, if_neg heof, completed_cons hend, hscanned.type_new (word_ne_nil htext),
          hscanned.value_new (value_ne_nil hend)]
        refine ((same_pure_bind _ _).bind _).trans ((same_bind_bind _ _ _).trans ?_)
        refine Same.bind_right fun turned => ?_
        cases turned with
        | inl progress => exact (same_pure_bind _ _).trans (ih _ (hk ▸ length_behind_lt htext) hrest hbroken rfl)
        | inr r => exact same_pure_bind _ _

/-! ## A system on which nothing happens -/

/-- No rule is matched, and so no file is loaded. -/
def idle (file : Except Int32 Stream) : ProfileSystem Unit Unit where
  evfFilterLoad := fun _ _ s => (.error .nofname, s)
  filterFree := fun _ s => s
  malloc := fun _ s => (none, s)
  fopen := fun _ s => (file, s)
  stack := Buf.zeros
  device := fun s => ({ evfInputCompare := fun _ => 0, evfInputGetName := none, evfInputGetPhys := none }, s)

variable {file : Except Int32 Stream} {type val : CString} {p : Progress Unit Unit}

/-- The pair is put on record. -/
def Progress.noted (p : Progress Unit Unit) (type val : CString) : Progress Unit Unit :=
  { p with world := { p.world with processed := p.world.processed ++ [(type, some val)] } }

theorem idle_pair (hp : p.hasMatched = 0) :
    (processPair (idle file) path type (some val) p).Same (pure (.inl (p.noted type val))) := by
  obtain ⟨hasMatched, filters, world⟩ := p
  obtain rfl : hasMatched = 0 := hp
  unfold processPair
  dsimp only
  by_cases hfile : CString.strcasecmp type (CString.literal "File") = 0
  · rw [if_pos hfile, if_neg (by simp)]
    exact Same.refl _
  · have hrule : ¬ checkForMatchingRule ((idle file).device world.state).1 type val = 1 := by
      simp only [checkForMatchingRule, idle]
      split_ifs <;> simp
    rw [if_neg hfile]
    refine (same_pure_bind val _).trans ?_
    rw [if_neg hrule]
    exact Same.refl _

theorem idle_all {ls : List (CString × CString)} (hp : p.hasMatched = 0) :
    (processAll (idle file) path ls p).Same (pure { ret := p.filters, err := none, world :=
      { p.world with processed := p.world.processed ++ ls.map fun l => (l.1, some l.2) } }) := by
  induction ls generalizing p with
  | nil =>
      rw [List.map_nil, List.append_nil]
      exact Same.refl _
  | cons l ls ih =>
      refine ((idle_pair hp).bind _).trans ((same_pure_bind _ _).trans ((ih (p := p.noted l.1 l.2) hp).trans ?_))
      rw [show (p.noted l.1 l.2).world.processed = p.world.processed ++ [(l.1, some l.2)] from rfl, List.append_assoc]
      exact Same.refl _

end Evfilter.Reader
