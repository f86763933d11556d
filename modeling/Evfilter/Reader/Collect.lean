import Evfilter.Reader.Filters

/-!
# Parameters in a buffer of any size

The loop of `get_filter_params` for a buffer of any size, and lines and `feof` as they may come. With two bytes at
least, no subtraction wraps, and what has been collected is always a string in the buffer. For 4096 bytes, and lines
of a file, the loop is that of the reader.
-/

namespace Evfilter.Reader.Sized
open Lib Comp Loader

/-- The array, and the values of `buf` and `buf_len`. -/
structure Params (n : Nat) where
  array : Buf n
  buf : Nat
  bufLen : Nat

/-- The string in `line`, and `feof(config)`. -/
structure Read where
  line : CString
  eof : Bool

/-- The parameters so far, or what is returned and the parameters then. -/
abbrev Turned (n : Nat) := Params n ⊕ Int × Params n

variable {n : Nat}

def copy (p : Params n) (line : CString) : Except Fault (Params n) :=
  if 0 < p.bufLen ∧ line.strlen < sizeSub p.bufLen 2 then do
    let array ← orFault .overflow (p.array.write p.buf (line.bytes ++ [0]))
    let array ← orFault .overflow (array.write (p.buf + line.strlen) [32])
    let array ← orFault .overflow (array.write (p.buf + line.strlen + 1) [0])
    .ok { array, buf := p.buf + (line.strlen + 1), bufLen := sizeSub p.bufLen (line.strlen + 1) }
  else .ok p

def takeParams (p : Params n) (read : Read) : Except Fault (Turned n) :=
  if CString.strcasecmp read.line endFilter = 0 then .ok (.inr (0, p))
  else if read.eof = true then .ok (.inr (-2, p))
  else copy p read.line >>= fun p => .ok (.inl p)

/-- Nothing is read behind the end. -/
def turns : Turned n → List Read → Except Fault (Turned n)
  | .inl p, read :: reads => takeParams p read >>= fun t => turns t reads
  | t, _ => .ok t

/-- The reads so far are given. -/
def getFilterParams (array : Buf n) (reads : List Read) : Except Fault (Turned n) :=
  orFault .overflow (array.write 0 [0]) >>= fun array => turns (.inl ⟨array, 0, n⟩) reads

/-! ## What should be in the buffer -/

def params : Turned n → Params n
  | .inl p => p
  | .inr (_, p) => p

def Read.Ends (read : Read) : Prop := CString.strcasecmp read.line endFilter = 0 ∨ read.eof = true

instance (read : Read) : Decidable read.Ends := inferInstanceAs (Decidable (_ ∨ _))

/-- The lines that come to be copied, if there is room. -/
def taken (reads : List Read) : List CString := (reads.takeWhile fun read => ¬ read.Ends).map Read.line

/-- The lines there is room for, each at its turn. -/
def kept : Nat → List CString → List CString
  | _, [] => []
  | room, line :: lines =>
    if line.strlen < room - 2 then line :: kept (room - (line.strlen + 1)) lines else kept room lines

/-- One space behind each. -/
def spaced : List CString → CString
  | [] => CString.literal ""
  | line :: lines => (line.append (CString.literal " ")).append (spaced lines)

/-- `buf_len - 2` does not wrap, `buf` and `buf_len` are what is left of the array, and the lines there was room for
are in it. -/
structure Collects (lines : List CString) (p : Params n) : Prop where
  noWrap : sizeSub p.bufLen 2 + 2 = p.bufLen
  inside : p.buf + p.bufLen = n
  string : p.array.string 0 = some (spaced (kept n lines))

/-! ## One line more -/

/-- This text is in the array, and there is so much room behind it. -/
structure Holds (p : Params n) (acc : CString × Nat) : Prop where
  buf : p.buf = acc.1.strlen
  room : p.bufLen = acc.2
  size : acc.1.strlen + acc.2 = n
  left : 2 ≤ acc.2
  bytes : ∃ tail, p.array.bytes = acc.1.bytes ++ 0 :: tail

theorem sizeSub_eq {a b : Nat} (ha : a < 2 ^ 64) (hle : b ≤ a) : sizeSub a b = a - b := by
  rw [sizeSub]
  omega

theorem Holds.collects {p : Params n} {lines : List CString} {room : Nat} (hsize : n < 2 ^ 64)
    (h : Holds p (spaced (kept n lines), room)) : Collects lines p where
  noWrap := by
    have hleft := h.left
    have htotal := h.size
    rw [h.room, sizeSub_eq (by dsimp only at *; omega) hleft]
    omega
  inside := by rw [h.buf, h.room, h.size]
  string := h.bytes.elim fun _ => Buf.string_start

/-- The NUL behind the line, the separator and the NUL behind it are written behind the text. -/
theorem writes {array : Buf n} {text line : CString} {tail : List UInt8} (hbytes : array.bytes = text.bytes ++ 0 :: tail)
    (hfit : text.strlen + line.strlen + 2 ≤ n) : ∃ array₁ array₂ array₃,
      array.write text.strlen (line.bytes ++ [0]) = some array₁ ∧
      array₁.write (text.strlen + line.strlen) [32] = some array₂ ∧
      array₂.write (text.strlen + line.strlen + 1) [0] = some array₃ ∧
      ∃ tail, array₃.bytes = text.bytes ++ line.bytes ++ [32] ++ [0] ++ tail := by
  have hlen : (text.bytes ++ line.bytes).length = text.strlen + line.strlen := List.length_append
  have hlen₂ : (text.bytes ++ line.bytes ++ [32]).length = text.strlen + line.strlen + 1 := by
    rw [List.length_append, hlen]
    rfl
  obtain ⟨array₁, hwrite₁, tail₁, hbytes₁⟩ := Buf.write_start (t := line.bytes ++ [0]) hbytes (by
    rw [List.length_append]
    change text.strlen + (line.strlen + 1) ≤ n
    omega)
  obtain ⟨array₂, hwrite₂, tail₂, hbytes₂⟩ := Buf.write_start (b := array₁) (s := text.bytes ++ line.bytes)
    (t := [32]) (r := 0 :: tail₁) (by rw [hbytes₁]; simp) (by rw [hlen, List.length_singleton]; omega)
  obtain ⟨array₃, hwrite₃, hbytes₃⟩ := Buf.write_start (t := [0]) hbytes₂ (by
    rw [hlen₂, List.length_singleton]
    omega)
  rw [hlen] at hwrite₂
  rw [hlen₂] at hwrite₃
  exact ⟨array₁, array₂, array₃, hwrite₁, hwrite₂, hwrite₃, hbytes₃⟩

theorem copy_holds {p : Params n} {acc : CString × Nat} (hsize : n < 2 ^ 64) (h : Holds p acc) (line : CString) :
    ∃ p', copy p line = .ok p' ∧ Holds p' (copyLine acc line) := by
  obtain ⟨array, buf, room⟩ := p
  obtain ⟨text, left⟩ := acc
  obtain ⟨hbuf, hroom, htotal, hleft, tail, hbytes⟩ := h
  dsimp only at hbuf hroom htotal hleft hbytes ⊢
  subst hbuf hroom
  have hsub : sizeSub room 2 = room - 2 := sizeSub_eq (by omega) hleft
  by_cases hfits : 0 < room ∧ line.strlen < room - 2
  · obtain ⟨array₁, array₂, array₃, hwrite₁, hwrite₂, hwrite₃, tail₃, hbytes₃⟩ :=
      @writes n array text line tail hbytes (by omega)
    have hrest : sizeSub room (line.strlen + 1) = room - (line.strlen + 1) := sizeSub_eq (by omega) (by omega)
    refine ⟨⟨array₃, text.strlen + (line.strlen + 1), room - (line.strlen + 1)⟩, ?_, ?_⟩
    · rw [copy, hsub, if_pos hfits]
      simp only [hwrite₁, hwrite₂, hwrite₃, hrest, orFault, ok_bind]
    · have hstrlen : (text.append (line.append (CString.literal " "))).strlen = text.strlen + (line.strlen + 1) := by
        rw [CString.strlen_append, CString.strlen_append]
        rfl
      rw [copyLine, if_pos hfits]
      refine ⟨hstrlen.symm, rfl, ?_, ?_, tail₃, ?_⟩
      · rw [hstrlen]
        dsimp only
        omega
      · dsimp only
        omega
      · have hblank : (CString.literal " ").bytes = [32] := by decide +kernel
        rw [hbytes₃]
        simp [CString.append, hblank]
  · refine ⟨⟨array, text.strlen, room⟩, by rw [copy, hsub, if_neg hfits], ?_⟩
    rw [copyLine, if_neg hfits]
    exact ⟨rfl, rfl, htotal, hleft, tail, hbytes⟩

/-! ## Lines behind each other -/

theorem foldl_copyLine_kept (text : CString) (room : Nat) (lines : List CString) :
    ∃ left, lines.foldl copyLine (text, room) = (text.append (spaced (kept room lines)), left) := by
  induction lines generalizing text room with
  | nil => exact ⟨room, Prod.ext (CString.ext (List.append_nil _).symm) rfl⟩
  | cons line lines ih =>
      rw [List.foldl_cons, kept]
      by_cases hfits : line.strlen < room - 2
      · have hcopy : copyLine (text, room) line =
            (text.append (line.append (CString.literal " ")), room - (line.strlen + 1)) :=
          if_pos ⟨by dsimp only; omega, hfits⟩
        obtain ⟨left, hfold⟩ := ih (text.append (line.append (CString.literal " "))) (room - (line.strlen + 1))
        refine ⟨left, ?_⟩
        rw [hcopy, hfold, if_pos hfits, spaced]
        exact Prod.ext (CString.ext (List.append_assoc _ _ _)) rfl
      · rw [if_neg hfits, show copyLine (text, room) line = (text, room) from if_neg fun h => hfits h.2]
        exact ih text room

theorem turns_holds {p : Params n} {acc : CString × Nat} (hsize : n < 2 ^ 64) (h : Holds p acc) (reads : List Read) :
    ∃ t, turns (.inl p) reads = .ok t ∧ Holds (params t) ((taken reads).foldl copyLine acc) := by
  induction reads generalizing p acc with
  | nil => exact ⟨.inl p, rfl, h⟩
  | cons read reads ih =>
      have hstop {ret : Int} (htake : takeParams p read = .ok (.inr (ret, p))) (hends : read.Ends) :
          ∃ t, turns (.inl p) (read :: reads) = .ok t ∧
            Holds (params t) ((taken (read :: reads)).foldl copyLine acc) := by
        refine ⟨.inr (ret, p), ?_, ?_⟩
        · rw [turns, htake, ok_bind, turns]
          exact fun _ _ _ h => nomatch h
        · rw [taken, List.takeWhile_cons_of_neg (by simpa using hends)]
          exact h
      by_cases hclose : CString.strcasecmp read.line endFilter = 0
      · exact hstop (if_pos hclose) (.inl hclose)
      by_cases heof : read.eof = true
      · exact hstop ((if_neg hclose).trans (if_pos heof)) (.inr heof)
      have hgoes : ¬ read.Ends := not_or.mpr ⟨hclose, heof⟩
      obtain ⟨p', hcopy, hold⟩ := copy_holds hsize h read.line
      obtain ⟨t, hturns, hend⟩ := ih hold
      refine ⟨t, ?_, ?_⟩
      · rw [turns, takeParams, if_neg hclose, if_neg heof, hcopy]
        exact hturns
      · rw [taken, List.takeWhile_cons_of_pos (by simpa using hgoes)]
        exact hend

theorem start_holds (hn : 2 ≤ n) (array : Buf n) :
    ∃ array', array.write 0 [0] = some array' ∧ Holds ⟨array', 0, n⟩ (CString.literal "", n) := by
  obtain ⟨array', hwrite, tail, hbytes⟩ :=
    Buf.write_start (b := array) (s := []) (r := array.bytes) (t := [0]) rfl (Nat.le_of_lt hn)
  exact ⟨array', hwrite, rfl, rfl, Nat.zero_add n, hn, tail, hbytes⟩

/-- Whatever has been read so far: no write has been outside the array, and the lines are in it. -/
theorem getFilterParams_collects (hn : 2 ≤ n) (hsize : n < 2 ^ 64) (array : Buf n) (reads : List Read) :
    ∃ t, getFilterParams array reads = .ok t ∧ Collects (taken reads) (params t) := by
  obtain ⟨array', hwrite, hstart⟩ := start_holds hn array
  obtain ⟨t, hturns, hold⟩ := turns_holds hsize hstart reads
  obtain ⟨left, hfold⟩ := foldl_copyLine_kept (CString.literal "") n (taken reads)
  rw [hfold] at hold
  refine ⟨t, ?_, hold.collects hsize⟩
  rw [getFilterParams, hwrite]
  exact hturns

/-- A line that fits, one that does not, and `EndFilter`. -/
def twoLines : List Read :=
  [⟨CString.literal "a=1", false⟩, ⟨CString.literal "b=22", false⟩, ⟨CString.literal "endfilter", false⟩]

theorem getFilterParams_twoLines : ∃ t, getFilterParams (Buf.zeros 9) twoLines = .ok t ∧
    Collects [CString.literal "a=1", CString.literal "b=22"] (params t) :=
  getFilterParams_collects (by decide) (by decide) (Buf.zeros 9) twoLines

/-- With room for the NUL alone, the subtraction wraps, and the first line is written behind the array. -/
theorem getFilterParams_one (array : Buf 1) {read : Read} (reads : List Read) (hends : ¬ read.Ends)
    (hlen : read.line.strlen + 1 < 2 ^ 64) (hline : read.line.bytes ≠ []) :
    getFilterParams array (read :: reads) = .error .overflow := by
  obtain ⟨array', hwrite⟩ := Buf.write_some (b := array) (p := 0) (s := [0]) (by decide)
  have hpos : 0 < read.line.bytes.length := List.length_pos_iff.mpr hline
  have hbehind : array'.write 0 (read.line.bytes ++ [0]) = none :=
    Buf.write_none (by rw [List.length_append, List.length_singleton]; omega)
  have hguard : 0 < 1 ∧ read.line.strlen < sizeSub 1 2 := by
    rw [sizeSub]
    omega
  obtain ⟨hclose, heof⟩ := not_or.mp hends
  rw [getFilterParams, hwrite]
  change turns (.inl ⟨array', 0, 1⟩) (read :: reads) = _
  rw [turns, takeParams, if_neg hclose, if_neg heof, copy, if_pos hguard, hbehind]
  rfl

/-! ## The buffer of the reader -/

def ofReader (p : Reader.Params) : Params 4096 := ⟨p.array, p.buf, p.bufLen⟩

def ofTurned : (Reader.Params × Stream) ⊕ (Int × Reader.Params × Stream) → Turned 4096
  | .inl (p, _) => .inl (ofReader p)
  | .inr (ret, p, _) => .inr (ret, ofReader p)

variable {φ σ : Type} {S : System φ σ} {acc : CString × Nat}

theorem copy_ofReader {p : Reader.Params} (h : Holds (ofReader p) acc) (line : CString) :
    copy (ofReader p) line = (Reader.copy p line).map ofReader := by
  have hbound : p.bufLen < 2 ^ 64 := by
    have hroom : p.bufLen = acc.2 := h.room
    have htotal := h.size
    omega
  by_cases hfits : 0 < p.bufLen ∧ line.strlen < sizeSub p.bufLen 2
  · have hle : 2 ≤ p.bufLen := h.left.trans_eq h.room.symm
    have hlt : line.strlen < p.bufLen - 2 := hfits.2.trans_eq (sizeSub_eq hbound hle)
    have hrest : sizeSub p.bufLen (line.strlen + 1) = p.bufLen - (line.strlen + 1) := sizeSub_eq hbound (by omega)
    rw [copy, if_pos (by exact hfits), Reader.copy, if_pos hfits]
    dsimp only [ofReader]
    rw [hrest]
    cases p.array.write p.buf (line.bytes ++ [0]) with
    | none => rfl
    | some array₁ =>
        simp only [orFault, ok_bind]
        cases array₁.write (p.buf + line.strlen) [32] with
        | none => rfl
        | some array₂ =>
            simp only [ok_bind]
            cases array₂.write (p.buf + line.strlen + 1) [0] <;> rfl
  · rw [copy, if_neg (by exact hfits), Reader.copy, if_neg hfits]
    rfl

theorem takeParams_ofReader {p : Reader.Params} {read : LineBuf × Stream} {line : CString} (h : Holds (ofReader p) acc)
    (hline : read.1.string 0 = some line) :
    takeParams (ofReader p) ⟨line, read.2.eof⟩ = (Reader.takeParams p read).map ofTurned := by
  rw [Reader.takeParams, hline, takeParams]
  dsimp only [orFault, ok_bind]
  by_cases hclose : CString.strcasecmp line endFilter = 0
  · rw [if_pos hclose, if_pos hclose]
    rfl
  by_cases heof : read.2.eof = true
  · rw [if_neg hclose, if_neg hclose, if_pos heof, if_pos heof]
    rfl
  · rw [if_neg hclose, if_neg hclose, if_neg heof, if_neg heof, copy_ofReader h]
    cases Reader.copy p line <;> rfl

theorem turns_snoc (t : Turned n) (reads : List Read) (read : Read) :
    turns t (reads ++ [read]) = turns t reads >>= fun t => turns t [read] := by
  induction reads generalizing t with
  | nil => cases t <;> rfl
  | cons first reads ih =>
      cases t with
      | inr r => rfl
      | inl p =>
          rw [List.cons_append, turns, turns]
          cases takeParams p first with
          | error e => rfl
          | ok t => exact ih t

theorem paramsTurn_ofReader {s : Reader.Params × Stream} {r} (hold : Holds (ofReader s.1) acc)
    (h : (paramsTurn S s).Yields (.ok r)) : ∃ read, takeParams (ofReader s.1) read = .ok (ofTurned r) := by
  rcases yields_bind.mp h with ⟨read, -, htake⟩ | ⟨_, -, herr⟩
  · have htake : Reader.takeParams s.1 read = .ok r := (yields_done.mp htake).symm
    cases hline : read.1.string 0 with
    | none =>
        rw [Reader.takeParams, hline] at htake
        cases htake
    | some line => exact ⟨⟨line, read.2.eof⟩, by rw [takeParams_ofReader hold hline, htake]; rfl⟩
  · cases herr

/-- What `get_filter_params` makes of a file, it makes of the lines that it reads from it. -/
theorem getFilterParams_ofReader {array : Buf 4096} {config file : Stream} {ret : Int} {p : Reader.Params}
    (h : (Reader.getFilterParams S config array).Yields (.ok (ret, p, file))) :
    ∃ reads, getFilterParams array reads = .ok (.inr (ret, ofReader p)) := by
  obtain ⟨array', hwrite, hstart⟩ := start_holds (n := 4096) (by decide) array
  have hfirst : getFilterParams array = turns (.inl ⟨array', 0, 4096⟩) := by
    funext reads
    rw [getFilterParams, hwrite]
    rfl
  have hloop : (loop (paramsTurn S) (⟨array', 0, 4096⟩, config)).Yields (.ok (ret, p, file)) := by
    rw [Reader.getFilterParams, hwrite] at h
    exact (same_pure_bind array' _ _).mp h
  have hturn {s : Reader.Params × Stream} {r} {reads : List Read}
      (hreads : getFilterParams array reads = .ok (.inl (ofReader s.1))) (hr : (paramsTurn S s).Yields (.ok r)) :
      ∃ reads, getFilterParams array reads = .ok (ofTurned r) := by
    rw [hfirst] at hreads ⊢
    obtain ⟨t, hturns, hold⟩ := turns_holds (by decide) hstart reads
    obtain rfl : .inl (ofReader s.1) = t := Except.ok.inj (hreads.symm.trans hturns)
    obtain ⟨read, htake⟩ := paramsTurn_ofReader hold hr
    refine ⟨reads ++ [read], ?_⟩
    rw [turns_snoc, hreads, ok_bind, turns, htake, ok_bind]
    cases ofTurned r <;> rfl
  refine loop_keeps
    (fun s => ∃ reads, getFilterParams array reads = .ok (.inl (ofReader s.1)))
    (fun b => ∃ reads, getFilterParams array reads = .ok (.inr (b.1, ofReader b.2.1)))
    ?_ ?_ ⟨[], by rw [hfirst]; rfl⟩ hloop
  · rintro s t ⟨reads, hreads⟩ hr
    exact hturn hreads hr
  · rintro s b ⟨reads, hreads⟩ hr
    exact hturn hreads hr

end Evfilter.Reader.Sized
