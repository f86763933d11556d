import Evfilter.Loader.Places

/-!
# Files of blocks

Which texts `evf_load_filters` takes. A block goes from a line with FilterName to the next EndFilter.
-/

namespace Evfilter.Loader
open Lib Param

variable {φ σ : Type} (load : CString → CString → σ → Except EvfErr φ × σ)

/-- The lines that are not comments. -/
def significant (entries : List CString) : List CString := entries.filter fun e => ¬ Comment e

/-- What is in the buffer after the lines of a block. -/
def collected (lines : List CString) : CString := (lines.foldl copyLine emptyBuf).1

/-- The lines are complete blocks, and their filters are loaded one after the other. -/
inductive Loads : List CString → σ → List φ → σ → Prop
  | nil {s : σ} : Loads [] s [] s
  | block {header closing name : CString} {lines rest : List CString} {filter : φ} {filters : List φ} {s s₁ s' : σ} :
      nameIn header = some name → (∀ l ∈ lines, ¬ Closes l) → Closes closing →
      load name (collected lines) s = (.ok filter, s₁) → Loads rest s₁ filters s' →
      Loads (header :: (lines ++ closing :: rest)) s (filter :: filters) s'

/-- A block that is not closed yet, or nothing. -/
def Started : List CString → Prop
  | [] => True
  | header :: lines => (nameIn header).isSome ∧ ∀ l ∈ lines, ¬ Closes l

/-- Complete blocks whose filters load, and possibly the beginning of another block. -/
def Begins (lines : List CString) (s : σ) : Prop :=
  ∃ complete started filters s', lines = complete ++ started ∧ Loads load complete s filters s' ∧ Started started

/-- After some more lines the block with this name is closed, its filter loads, and `R` holds of what comes then. -/
def InBlock (name : CString) (buf : CString × Nat) (lines : List CString) (s : σ)
    (R : List CString → φ → σ → Prop) : Prop :=
  ∃ ls closing rest filter s₁, lines = ls ++ closing :: rest ∧ (∀ l ∈ ls, ¬ Closes l) ∧ Closes closing ∧
    load name (ls.foldl copyLine buf).1 s = (.ok filter, s₁) ∧ R rest filter s₁

variable {load} {name e : CString} {buf : CString × Nat} {lines : List CString} {s s' : σ} {filters : List φ}
  {R : List CString → φ → σ → Prop}

/-! ## One line more -/

theorem not_inBlock_nil : ¬ InBlock load name buf [] s R := by
  rintro ⟨ls, closing, rest, filter, s₁, hlines, -⟩
  simp at hlines

theorem inBlock_closes (h : Closes e) :
    InBlock load name buf (e :: lines) s R ↔
      ∃ filter s₁, load name buf.1 s = (.ok filter, s₁) ∧ R lines filter s₁ := by
  constructor
  · rintro ⟨ls, closing, rest, filter, s₁, hlines, hls, hclosing, hload, hR⟩
    cases ls with
    | nil =>
        obtain ⟨rfl, rfl⟩ := List.cons.inj hlines
        exact ⟨filter, s₁, hload, hR⟩
    | cons l ls =>
        obtain ⟨rfl, -⟩ := List.cons.inj hlines
        exact absurd h (hls e List.mem_cons_self)
  · rintro ⟨filter, s₁, hload, hR⟩
    exact ⟨[], e, lines, filter, s₁, rfl, by simp, h, hload, hR⟩

theorem inBlock_line (h : ¬ Closes e) :
    InBlock load name buf (e :: lines) s R ↔ InBlock load name (copyLine buf e) lines s R := by
  constructor
  · rintro ⟨ls, closing, rest, filter, s₁, hlines, hls, hclosing, hload, hR⟩
    cases ls with
    | nil =>
        obtain ⟨rfl, -⟩ := List.cons.inj hlines
        exact absurd hclosing h
    | cons l ls =>
        obtain ⟨rfl, rfl⟩ := List.cons.inj hlines
        exact ⟨ls, closing, rest, filter, s₁, rfl, (List.forall_mem_cons.mp hls).2, hclosing, hload, hR⟩
  · rintro ⟨ls, closing, rest, filter, s₁, rfl, hls, hclosing, hload, hR⟩
    exact ⟨e :: ls, closing, rest, filter, s₁, rfl, List.forall_mem_cons.mpr ⟨h, hls⟩, hclosing, hload, hR⟩

theorem loads_nil : Loads load [] s filters s' ↔ filters = [] ∧ s' = s := by
  constructor
  · intro h
    cases h
    exact ⟨rfl, rfl⟩
  · rintro ⟨rfl, rfl⟩
    exact Loads.nil

theorem loads_cons : Loads load (e :: lines) s filters s' ↔
    ∃ name, nameIn e = some name ∧ InBlock load name emptyBuf lines s fun rest filter s₁ =>
      ∃ later, filters = filter :: later ∧ Loads load rest s₁ later s' := by
  constructor
  · intro h
    cases h with
    | block hname hls hclosing hload hrest =>
        exact ⟨_, hname, _, _, _, _, _, rfl, hls, hclosing, hload, _, rfl, hrest⟩
  · rintro ⟨name, hname, ls, closing, rest, filter, s₁, rfl, hls, hclosing, hload, later, rfl, hrest⟩
    exact Loads.block hname hls hclosing hload hrest

theorem begins_nil : Begins load [] s := ⟨[], [], [], s, rfl, Loads.nil, trivial⟩

theorem begins_cons : Begins load (e :: lines) s ↔
    ∃ name, nameIn e = some name ∧ ((∀ l ∈ lines, ¬ Closes l) ∨
      InBlock load name emptyBuf lines s fun rest _ s₁ => Begins load rest s₁) := by
  constructor
  · rintro ⟨complete, started, filters, s', hlines, hloads, hstarted⟩
    cases complete with
    | nil =>
        obtain rfl : e :: lines = started := hlines
        obtain ⟨name, hname⟩ := Option.isSome_iff_exists.mp hstarted.1
        exact ⟨name, hname, .inl hstarted.2⟩
    | cons header complete =>
        obtain ⟨rfl, rfl⟩ := List.cons.inj hlines
        obtain ⟨name, hname, ls, closing, rest, filter, s₁, rfl, hls, hclosing, hload, later, -, hrest⟩ :=
          loads_cons.mp hloads
        refine ⟨name, hname, .inr ⟨ls, closing, rest ++ started, filter, s₁, ?_, hls, hclosing, hload, ?_⟩⟩
        · exact List.append_assoc ls (closing :: rest) started
        · exact ⟨rest, started, later, s', rfl, hrest, hstarted⟩
  · rintro ⟨name, hname, hls | ⟨ls, closing, rest, filter, s₁, rfl, hls, hclosing, hload, hbegins⟩⟩
    · exact ⟨[], e :: lines, [], s, rfl, Loads.nil, Option.isSome_iff_exists.mpr ⟨name, hname⟩, hls⟩
    · obtain ⟨complete, started, filters, s', rfl, hloads, hstarted⟩ := hbegins
      refine ⟨e :: (ls ++ closing :: complete), started, filter :: filters, s', ?_, ?_, hstarted⟩
      · rw [List.cons_append, List.append_assoc, List.cons_append]
      · exact Loads.block hname hls hclosing hload hloads

/-! ## From where the loader stands -/

variable (load) in
def LoadsFrom (lines : List CString) (s : σ) (filters : List φ) (s' : σ) : Place → Prop
  | .outside => Loads load lines s filters s'
  | .inside name buf => InBlock load name buf lines s fun rest filter s₁ =>
      ∃ later, filters = filter :: later ∧ Loads load rest s₁ later s'

variable (load) in
def BeginsFrom (lines : List CString) (s : σ) : Place → Prop
  | .outside => Begins load lines s
  | .inside name buf => (∀ l ∈ lines, ¬ Closes l) ∨
      InBlock load name buf lines s fun rest _ s₁ => Begins load rest s₁

variable {place : Place} {es : List CString}

theorem beginsFrom_nil : BeginsFrom load [] s place := by
  cases place with
  | outside => exact begins_nil
  | inside name buf => exact .inl (by simp)

theorem beginsFrom_opens : BeginsFrom load (e :: lines) s .outside ↔
    ∃ name, nameIn e = some name ∧ BeginsFrom load lines s (.inside name emptyBuf) :=
  begins_cons

theorem beginsFrom_closes (h : Closes e) : BeginsFrom load (e :: lines) s (.inside name buf) ↔
    ∃ filter s₁, load name buf.1 s = (.ok filter, s₁) ∧ BeginsFrom load lines s₁ .outside := by
  have hnot : ¬ ∀ l ∈ e :: lines, ¬ Closes l := fun hls => hls e List.mem_cons_self h
  rw [BeginsFrom, or_iff_right hnot, inBlock_closes h]
  rfl

theorem beginsFrom_line (h : ¬ Closes e) : BeginsFrom load (e :: lines) s (.inside name buf) ↔
    BeginsFrom load lines s (.inside name (copyLine buf e)) := by
  rw [BeginsFrom, BeginsFrom, inBlock_line h, List.forall_mem_cons, and_iff_right h]

theorem significant_cons (h : ¬ Comment e) : significant (e :: es) = e :: significant es :=
  List.filter_cons_of_pos (by simpa using h)

theorem significant_comment (h : Comment e) : significant (e :: es) = significant es :=
  List.filter_cons_of_neg (by simpa using h)

/-- The next line names a filter. -/
theorem beginsFrom_named (hc : ¬ Comment e) (hname : nameIn e = some name) (es : List CString) :
    BeginsFrom load (significant (e :: es)) s .outside ↔
      BeginsFrom load (significant es) s (.inside name emptyBuf) := by
  rw [significant_cons hc, beginsFrom_opens, hname]
  simp

/-- The next line closes a block, and its filter loads. -/
theorem beginsFrom_loaded {filter : φ} {s₁ : σ} (hc : ¬ Comment e) (hcl : Closes e)
    (hload : load name buf.1 s = (.ok filter, s₁)) (es : List CString) :
    BeginsFrom load (significant (e :: es)) s (.inside name buf) ↔
      BeginsFrom load (significant es) s₁ .outside := by
  rw [significant_cons hc, beginsFrom_closes hcl, hload]
  simp

/-- The next line is collected. -/
theorem beginsFrom_copied (hc : ¬ Comment e) (hcl : ¬ Closes e) (es : List CString) :
    BeginsFrom load (significant (e :: es)) s (.inside name buf) ↔
      BeginsFrom load (significant es) s (.inside name (copyLine buf e)) := by
  rw [significant_cons hc, beginsFrom_line hcl]

theorem loadsFrom_opens : LoadsFrom load (e :: lines) s filters s' .outside ↔
    ∃ name, nameIn e = some name ∧ LoadsFrom load lines s filters s' (.inside name emptyBuf) :=
  loads_cons

theorem not_loadsFrom_nil : ¬ LoadsFrom load [] s filters s' (.inside name buf) := not_inBlock_nil

theorem loadsFrom_closes (h : Closes e) : LoadsFrom load (e :: lines) s filters s' (.inside name buf) ↔
    ∃ filter s₁, load name buf.1 s = (.ok filter, s₁) ∧
      ∃ later, filters = filter :: later ∧ LoadsFrom load lines s₁ later s' .outside :=
  inBlock_closes h

theorem loadsFrom_line (h : ¬ Closes e) : LoadsFrom load (e :: lines) s filters s' (.inside name buf) ↔
    LoadsFrom load lines s filters s' (.inside name (copyLine buf e)) :=
  inBlock_line h

/-! ## Lines that are too long -/

variable (load) in
/-- A line that is too long stands behind the beginning of a file that loads. -/
def MeetsLong (es : List CString) (s : σ) (place : Place) : Prop :=
  ∃ before long after, es = before ++ long :: after ∧ BeginsFrom load (significant before) s place ∧
    bufLen ≤ long.strlen

theorem meetsLong_cons {t : σ} {place' : Place} (hshort : ¬ bufLen ≤ e.strlen)
    (h : ∀ l, BeginsFrom load (significant (e :: l)) s place ↔ BeginsFrom load (significant l) t place') :
    MeetsLong load (e :: es) s place ↔ MeetsLong load es t place' := by
  constructor
  · rintro ⟨before, long, after, hes, hbegins, hlong⟩
    cases before with
    | nil =>
        obtain ⟨rfl, -⟩ := List.cons.inj hes
        exact absurd hlong hshort
    | cons b before =>
        obtain ⟨rfl, rfl⟩ := List.cons.inj hes
        exact ⟨before, long, after, rfl, (h before).mp hbegins, hlong⟩
  · rintro ⟨before, long, after, rfl, hbegins, hlong⟩
    exact ⟨e :: before, long, after, rfl, (h before).mpr hbegins, hlong⟩

theorem not_meetsLong (hshort : ¬ bufLen ≤ e.strlen) (h : ∀ l, ¬ BeginsFrom load (significant (e :: l)) s place) :
    ¬ MeetsLong load (e :: es) s place := by
  rintro ⟨before, long, after, hes, hbegins, hlong⟩
  cases before with
  | nil =>
      obtain ⟨rfl, -⟩ := List.cons.inj hes
      exact hshort hlong
  | cons b before =>
      obtain ⟨rfl, -⟩ := List.cons.inj hes
      exact h before hbegins

theorem not_meetsLong_nil : ¬ MeetsLong load [] s place := by
  rintro ⟨before, long, after, hes, -⟩
  simp at hes

theorem run_overflow_iff : run load place filters s es = .overflow ↔ MeetsLong load es s place := by
  induction es generalizing place filters s with
  | nil =>
      refine iff_of_false ?_ not_meetsLong_nil
      cases place with
      | outside => simp [run]
      | inside name buf => simp [run]
  | cons e es ih =>
      rw [run_cons]
      by_cases hlong : bufLen ≤ e.strlen
      · rw [if_pos hlong]
        exact iff_of_true rfl ⟨[], e, es, rfl, beginsFrom_nil, hlong⟩
      rw [if_neg hlong]
      by_cases hc : Comment e
      · rw [if_pos hc, ih, meetsLong_cons hlong fun l => by rw [significant_comment hc]]
      rw [if_neg hc]
      cases place with
      | outside =>
          dsimp only
          by_cases hend : es = []
          · subst hend
            rw [if_pos rfl]
            refine iff_of_false (by simp) ?_
            rintro ⟨before, long, after, hes, -, hlong'⟩
            cases before with
            | nil =>
                obtain ⟨rfl, -⟩ := List.cons.inj hes
                exact hlong hlong'
            | cons b before => simp at hes
          rw [if_neg hend]
          cases hname : nameIn e with
          | none =>
              refine iff_of_false (by simp) (not_meetsLong hlong fun l => ?_)
              rw [significant_cons hc, beginsFrom_opens, hname]
              rintro ⟨name, hsome, -⟩
              cases hsome
          | some name =>
              dsimp only
              rw [ih, meetsLong_cons hlong (beginsFrom_named hc hname)]
      | inside name buf =>
          dsimp only
          by_cases hcl : Closes e
          · rw [if_pos hcl]
            cases hload : load name buf.1 s with
            | mk r s₁ =>
                cases r with
                | error err =>
                    refine iff_of_false (by simp) (not_meetsLong hlong fun l => ?_)
                    rw [significant_cons hc, beginsFrom_closes hcl, hload]
                    rintro ⟨filter, s₁, hok, -⟩
                    cases hok
                | ok filter =>
                    dsimp only
                    rw [ih, meetsLong_cons hlong (beginsFrom_loaded hc hcl hload)]
          · rw [if_neg hcl, ih, meetsLong_cons hlong (beginsFrom_copied hc hcl)]

/-! ## What is accepted -/

variable (load) in
/-- The last line of all, if it is not a comment, need only stand behind complete blocks. -/
def CutOff (es : List CString) (s : σ) (filters : List φ) (s' : σ) (place : Place) : Prop :=
  ∃ before last, es = before ++ [last] ∧ ¬ Comment last ∧ LoadsFrom load (significant before) s filters s' place

variable (load) in
def Taken (es : List CString) (s : σ) (filters : List φ) (s' : σ) (place : Place) : Prop :=
  LoadsFrom load (significant es) s filters s' place ∨ CutOff load es s filters s' place

theorem taken_cons {t : σ} {later : List φ} {place' : Place}
    (h : ∀ l, LoadsFrom load (significant (e :: l)) s filters s' place ↔
      LoadsFrom load (significant l) t later s' place')
    (hlast : ¬ Comment e → es = [] → ¬ LoadsFrom load [] s filters s' place) :
    Taken load (e :: es) s filters s' place ↔ Taken load es t later s' place' := by
  refine or_congr (h es) ⟨?_, ?_⟩
  · rintro ⟨before, last, hes, hc, hloads⟩
    cases before with
    | nil =>
        obtain ⟨rfl, hnil⟩ := List.cons.inj hes
        exact absurd hloads (hlast hc hnil)
    | cons b before =>
        obtain ⟨rfl, rfl⟩ := List.cons.inj hes
        exact ⟨before, last, rfl, hc, (h before).mp hloads⟩
  · rintro ⟨before, last, rfl, hc, hloads⟩
    exact ⟨e :: before, last, rfl, hc, (h before).mpr hloads⟩

theorem not_taken (h : ∀ l, ¬ LoadsFrom load (significant (e :: l)) s filters s' place)
    (hlast : ¬ Comment e → es = [] → ¬ LoadsFrom load [] s filters s' place) :
    ¬ Taken load (e :: es) s filters s' place := by
  rintro (hloads | ⟨before, last, hes, hc, hloads⟩)
  · exact h es hloads
  · cases before with
    | nil =>
        obtain ⟨rfl, hnil⟩ := List.cons.inj hes
        exact hlast hc hnil hloads
    | cons b before =>
        obtain ⟨rfl, rfl⟩ := List.cons.inj hes
        exact h before hloads

theorem not_cutOff_nil : ¬ CutOff load [] s filters s' place := by
  rintro ⟨before, last, hes, -⟩
  simp at hes

theorem taken_last (hc : ¬ Comment e) : Taken load [e] s filters s' .outside ↔ filters = [] ∧ s' = s := by
  constructor
  · rintro (hloads | ⟨before, last, hes, -, hloads⟩)
    · rw [significant_cons hc] at hloads
      obtain ⟨name, -, hblock⟩ := loadsFrom_opens.mp hloads
      exact absurd hblock not_inBlock_nil
    · obtain rfl : before = [] := by
        cases before with
        | nil => rfl
        | cons b before => simp at hes
      exact loads_nil.mp hloads
  · exact fun h => .inr ⟨[], e, rfl, hc, loads_nil.mpr h⟩

theorem taken_closes {filter : φ} {s₁ : σ} (hc : ¬ Comment e) (hcl : Closes e)
    (hload : load name buf.1 s = (.ok filter, s₁)) : Taken load (e :: es) s filters s' (.inside name buf) ↔
      ∃ later, filters = filter :: later ∧ Taken load es s₁ later s' .outside := by
  have hstep (l : List CString) : LoadsFrom load (significant (e :: l)) s filters s' (.inside name buf) ↔
      ∃ later, filters = filter :: later ∧ LoadsFrom load (significant l) s₁ later s' .outside := by
    rw [significant_cons hc, loadsFrom_closes hcl, hload]
    constructor
    · rintro ⟨filter', s₁', hok, h⟩
      cases hok
      exact h
    · exact fun h => ⟨filter, s₁, rfl, h⟩
  constructor
  · rintro (hloads | ⟨before, last, hes, hlast, hloads⟩)
    · obtain ⟨later, hfilters, h⟩ := (hstep es).mp hloads
      exact ⟨later, hfilters, .inl h⟩
    · cases before with
      | nil => exact absurd hloads not_inBlock_nil
      | cons b before =>
          obtain ⟨rfl, rfl⟩ := List.cons.inj hes
          obtain ⟨later, hfilters, h⟩ := (hstep before).mp hloads
          exact ⟨later, hfilters, .inr ⟨before, last, rfl, hlast, h⟩⟩
  · rintro ⟨later, hfilters, h | ⟨before, last, rfl, hlast, h⟩⟩
    · exact .inl ((hstep es).mpr ⟨later, hfilters, h⟩)
    · exact .inr ⟨e :: before, last, rfl, hlast, (hstep before).mpr ⟨later, hfilters, h⟩⟩

theorem done_filters {loaded : List φ} :
    (.done (.ok filters, s) : Outcome (Except EvfErr (List φ) × σ)) = .done (.ok loaded, s') ↔
      ∃ later, loaded = filters ++ later ∧ later = [] ∧ s' = s := by
  constructor
  · intro h
    cases h
    exact ⟨[], (List.append_nil _).symm, rfl, rfl⟩
  · rintro ⟨later, rfl, rfl, rfl⟩
    rw [List.append_nil]

/-- The filters are appended to those there are. -/
theorem run_ok_iff {loaded : List φ} (hlong : ¬ MeetsLong load es s place) :
    run load place filters s es = .done (.ok loaded, s') ↔
      ∃ later, loaded = filters ++ later ∧ Taken load es s later s' place := by
  induction es generalizing place filters s with
  | nil =>
      cases place with
      | outside =>
          have htaken : ∀ later, Taken load [] s later s' .outside ↔ later = [] ∧ s' = s := fun later => by
            rw [Taken, or_iff_left not_cutOff_nil]
            exact loads_nil
          simp only [htaken]
          exact done_filters
      | inside name buf =>
          refine iff_of_false nofun ?_
          rintro ⟨later, -, hloads | hcut⟩
          · exact not_inBlock_nil hloads
          · exact not_cutOff_nil hcut
  | cons e es ih =>
      have hshort : ¬ bufLen ≤ e.strlen := fun hle => hlong ⟨[], e, es, rfl, beginsFrom_nil, hle⟩
      rw [run_cons, if_neg hshort]
      by_cases hc : Comment e
      · have hsame : ∀ l, significant (e :: l) = significant l := fun l => significant_comment hc
        rw [meetsLong_cons hshort fun l => by rw [hsame]] at hlong
        rw [if_pos hc, ih hlong]
        exact exists_congr fun later => and_congr_right fun _ =>
          (taken_cons (fun l => by rw [hsame]) fun h => absurd hc h).symm
      rw [if_neg hc]
      cases place with
      | outside =>
          dsimp only
          by_cases hend : es = []
          · subst hend
            rw [if_pos rfl]
            simp only [taken_last hc]
            exact done_filters
          rw [if_neg hend]
          cases hname : nameIn e with
          | none =>
              refine iff_of_false nofun ?_
              rintro ⟨later, -, htaken⟩
              refine not_taken (fun l => ?_) (fun _ hnil => absurd hnil hend) htaken
              rw [significant_cons hc, loadsFrom_opens, hname]
              rintro ⟨name, hsome, -⟩
              cases hsome
          | some name =>
              dsimp only
              rw [meetsLong_cons hshort (beginsFrom_named hc hname)] at hlong
              rw [ih hlong]
              refine exists_congr fun later => and_congr_right fun _ =>
                (taken_cons (fun l => ?_) fun _ hnil => absurd hnil hend).symm
              rw [significant_cons hc, loadsFrom_opens, hname]
              simp
      | inside name buf =>
          dsimp only
          by_cases hcl : Closes e
          · rw [if_pos hcl]
            cases hload : load name buf.1 s with
            | mk r s₁ =>
                cases r with
                | error err =>
                    refine iff_of_false nofun ?_
                    rintro ⟨later, -, htaken⟩
                    refine not_taken (fun l => ?_) (fun _ _ => not_loadsFrom_nil) htaken
                    rw [significant_cons hc, loadsFrom_closes hcl, hload]
                    rintro ⟨filter, s₁, hok, -⟩
                    cases hok
                | ok filter =>
                    dsimp only
                    rw [meetsLong_cons hshort (beginsFrom_loaded hc hcl hload)] at hlong
                    rw [ih hlong]
                    simp only [taken_closes hc hcl hload]
                    constructor
                    · rintro ⟨later, rfl, h⟩
                      exact ⟨filter :: later, (List.append_cons _ _ _).symm, later, rfl, h⟩
                    · rintro ⟨_, rfl, later, rfl, h⟩
                      exact ⟨later, List.append_cons _ _ _, h⟩
          · rw [meetsLong_cons hshort (beginsFrom_copied hc hcl)] at hlong
            rw [if_neg hcl, ih hlong]
            exact exists_congr fun later => and_congr_right fun _ =>
              (taken_cons (fun l => by rw [significant_cons hc, loadsFrom_line hcl]) fun _ _ =>
                not_loadsFrom_nil).symm

theorem run_ne_forever : run load place filters s es ≠ .forever := by
  induction es generalizing place filters s with
  | nil => cases place <;> simp [run]
  | cons e es ih =>
      rw [run_cons]
      split
      · simp
      split
      · exact ih
      cases place with
      | outside =>
          dsimp only
          split
          · simp
          split
          · simp
          · exact ih
      | inside name buf =>
          dsimp only
          split
          · split
            · simp
            · exact ih
          · exact ih

/-- Complete blocks with one more line are not complete. -/
theorem not_loadsFrom_append {s'' : σ} {others : List φ} (h : LoadsFrom load lines s filters s' place) :
    ¬ LoadsFrom load (lines ++ [e]) s others s'' place := by
  induction lines generalizing place s filters others with
  | nil =>
      cases place with
      | outside =>
          intro hmore
          obtain ⟨name, -, hblock⟩ := loadsFrom_opens.mp hmore
          exact not_loadsFrom_nil hblock
      | inside name buf => exact absurd h not_loadsFrom_nil
  | cons l lines ih =>
      intro hmore
      rw [List.cons_append] at hmore
      cases place with
      | outside =>
          obtain ⟨name, hname, hblock⟩ := loadsFrom_opens.mp h
          obtain ⟨name', hname', hblock'⟩ := loadsFrom_opens.mp hmore
          obtain rfl : name = name' := Option.some.inj (hname.symm.trans hname')
          exact ih hblock hblock'
      | inside name buf =>
          by_cases hcl : Closes l
          · obtain ⟨filter, s₁, hload, later, -, hrest⟩ := (loadsFrom_closes hcl).mp h
            obtain ⟨filter', s₂, hload', later', -, hrest'⟩ := (loadsFrom_closes hcl).mp hmore
            obtain rfl : s₁ = s₂ := (Prod.mk.inj (hload.symm.trans hload')).2
            exact ih hrest hrest'
          · exact ih ((loadsFrom_line hcl).mp h) ((loadsFrom_line hcl).mp hmore)

/-! ## Texts -/

/-- Success is reported for complete blocks only, with their filters, when loading goes on from the state `s`. -/
def Reports (load : CString → CString → σ → Except EvfErr φ × σ) (text : CString) (s : σ) : Prop :=
  ∃ result s', evfLoadFilters load (.ok text) s = .done (result, s') ∧
    ∀ filters, result = .ok filters ↔ ∃ s'', Loads load (significant text.entries) s filters s''

theorem reports_iff (load : CString → CString → σ → Except EvfErr φ × σ) (text : CString) (s : σ) :
    Reports load text s ↔
      (text.bytes.head? ≠ some newline ∧ text.line.strlen < bufLen ∧
        ∀ before line after, text.entries = before ++ line :: after → Begins load (significant before) s →
          line.strlen < bufLen) ∧
      ∀ before last, text.entries = before ++ [last] → ¬ Comment last →
        ¬ ∃ filters s', Loads load (significant before) s filters s' := by
  have heq (hnl : text.bytes.head? ≠ some newline) (hlt : text.line.strlen < bufLen) :
      evfLoadFilters load (.ok text) s = run load .outside [] s text.entries := loadLoop_eq hnl hlt
  constructor
  · rintro ⟨result, s', hload, hiff⟩
    have hnl : text.bytes.head? ≠ some newline := fun hnl => by
      rw [evfLoadFilters, loadLoop_newline hnl] at hload
      cases hload
    have hlt : text.line.strlen < bufLen := Nat.lt_of_not_le fun hlong => by
      rw [evfLoadFilters, loadLoop_long hlong] at hload
      cases hload
    rw [heq hnl hlt] at hload
    have hshort : ¬ MeetsLong load text.entries s .outside := fun hlong => by
      rw [run_overflow_iff.mpr hlong] at hload
      cases hload
    refine ⟨⟨hnl, hlt, ?_⟩, ?_⟩
    · intro before line after htext hbegins
      exact Nat.lt_of_not_le fun hlong => hshort ⟨before, line, after, htext, hbegins, hlong⟩
    · rintro before last htext hlast ⟨filters, s₁, hloads⟩
      have htaken : Taken load text.entries s filters s₁ .outside := .inr ⟨before, last, htext, hlast, hloads⟩
      have hok : run load .outside [] s text.entries = .done (.ok filters, s₁) :=
        (run_ok_iff hshort).mpr ⟨filters, rfl, htaken⟩
      obtain ⟨rfl, -⟩ := Prod.mk.inj (Outcome.done.inj (hload.symm.trans hok))
      obtain ⟨s₂, hmore⟩ := (hiff filters).mp rfl
      have hsplit : significant text.entries = significant before ++ [last] := by
        rw [htext, significant, List.filter_append, List.filter_singleton]
        simp [hlast, significant]
      rw [hsplit] at hmore
      exact not_loadsFrom_append (show LoadsFrom load _ s filters s₁ .outside from hloads) hmore
  · rintro ⟨⟨hnl, hlt, hlines⟩, hcut⟩
    have hshort : ¬ MeetsLong load text.entries s .outside := by
      rintro ⟨before, long, after, htext, hbegins, hlong⟩
      exact Nat.not_lt.mpr hlong (hlines before long after htext hbegins)
    rw [Reports, heq hnl hlt]
    cases hrun : run load .outside [] s text.entries with
    | overflow => exact absurd (run_overflow_iff.mp hrun) hshort
    | forever => exact absurd hrun run_ne_forever
    | done r =>
        obtain ⟨result, s'⟩ := r
        refine ⟨result, s', rfl, fun filters => ⟨?_, ?_⟩⟩
        · rintro rfl
          obtain ⟨later, rfl, hloads | ⟨before, last, htext, hlast, hloads⟩⟩ := (run_ok_iff hshort).mp hrun
          · exact ⟨s', hloads⟩
          · exact absurd ⟨filters, s', hloads⟩ (hcut before last htext hlast)
        · rintro ⟨s'', hloads⟩
          have hok : run load .outside [] s text.entries = .done (.ok filters, s'') :=
            (run_ok_iff hshort).mpr ⟨filters, rfl, .inl hloads⟩
          exact (Prod.mk.inj (Outcome.done.inj (hrun.symm.trans hok))).1

/-- A block that is only begun in the last line is taken for the end of the file. -/
theorem cut_off_accepted :
    evfLoadFilters (fun _ _ s => (.ok (), s)) (.ok (CString.literal "FilterName = SpeedMod\n")) () =
        .done (.ok ([] : List Unit), ()) ∧
      ¬ Reports (fun _ _ (s : Unit) => (.ok (), s)) (CString.literal "FilterName = SpeedMod\n") () := by
  have hrun : evfLoadFilters (fun _ _ s => (.ok (), s)) (.ok (CString.literal "FilterName = SpeedMod\n")) () =
      .done (.ok ([] : List Unit), ()) := by decide +kernel
  refine ⟨hrun, ?_⟩
  rintro ⟨result, s', hload, hiff⟩
  obtain ⟨rfl, -⟩ := Prod.mk.inj (Outcome.done.inj (hload.symm.trans hrun))
  obtain ⟨s'', hloads⟩ := (hiff []).mp rfl
  have hlines : significant (CString.literal "FilterName = SpeedMod\n").entries =
      [CString.literal "FilterName = SpeedMod"] := by decide +kernel
  rw [hlines] at hloads
  obtain ⟨name, -, hblock⟩ := loads_cons.mp hloads
  exact not_inBlock_nil hblock

end Evfilter.Loader
