import Evfilter.Reader.Ownership
import Evfilter.Reader.Pairs

/-!
# How reading ends

When the readers return, when they stay inside their arrays, and what becomes of the filters: for each of them, by what
its file consists of.
-/

namespace Evfilter.Reader
open Lib Comp Loader Param

/-- The file does not start with an empty line. The lines that the reader gets to have room in the array, where `More`
says of some lines that it goes on behind them. If there is an error behind all of them, the reader leaves before. -/
structure Readable (More : List CString → Prop) (config : Stream) : Prop where
  proper : Proper config.rest
  short : Short More (scans config.rest)
  leaves : config.broken = true → ¬ More (contents (scans config.rest))

variable {φ σ α : Type} {S : System φ σ} {Q : α → Prop} {More : List CString → Prop} {config : Stream}
  {x : Comp Fault α} {w : World φ σ} {path file : CString}

theorem readable_of_terminates
    (hfollows : Proper config.rest → Follows Q More (scans config.rest) config.broken x)
    (hforever : ¬ Proper config.rest → ¬ x.Stops) (h : x.Terminates) : Readable More config := by
  have hp : Proper config.rest := not_not.mp fun hp => hforever hp h.stops
  obtain ⟨hshort, hleaves⟩ := (hfollows hp).of_terminates h
  exact ⟨hp, hshort, hleaves⟩

theorem returns_of_readable (hfollows : Proper config.rest → Follows Q More (scans config.rest) config.broken x)
    (h : Readable More config) : x.Returns Q :=
  (hfollows h.proper).returns h.short h.leaves

theorem safe_iff_short (hfollows : Proper config.rest → Follows Q More (scans config.rest) config.broken x)
    (hforever : ¬ Proper config.rest → ¬ x.Stops) : x.Safe ↔ (Proper config.rest → Short More (scans config.rest)) := by
  constructor
  · exact fun h hp => (hfollows hp).safe_iff.mp h
  · intro h e he
    by_cases hp : Proper config.rest
    · exact (hfollows hp).safe_iff.mpr (h hp) e he
    · exact hforever hp ⟨_, he⟩

/-! ## Files of filters -/

theorem name_forever (buf : Buf 256) (h : ¬ Proper config.rest) : ¬ (getFilterName S config buf).Stops :=
  fun hstops => read_newline h hstops.of_bind

theorem params_forever (array : Buf 4096) (h : ¬ Proper config.rest) : ¬ (getFilterParams S config array).Stops := by
  obtain ⟨p, -, hsame⟩ := params_start S array
  intro hstops
  have hloop := (same_loop _ _).symm.stops ((hsame config).symm.stops hstops)
  exact read_newline h hloop.of_bind.of_bind

theorem load_forever (h : ¬ Proper config.rest) : ¬ (loadOpened S config w).Stops := by
  intro hstops
  have hloop := (same_loop _ _).symm.stops hstops
  exact name_forever _ h hloop.of_bind.of_bind

theorem follows_opened (S : System φ σ) (w : World φ σ) (hp : Proper config.rest) :
    Follows (Settled w) (fun c => Begins S.evfFilterLoad c w.state) (scans config.rest) config.broken
      (loadOpened S config w) := by
  let s : Loading φ σ :=
    { config, filter := S.stack 256, params := S.stack 4096, filters := none, lastFilter := none, world := w }
  exact follows_load (s := s) (built_start w) hp

/-- If the file can be opened then it is readable for `evf_load_filters`. -/
def Loadable (S : System φ σ) (path : CString) (w : World φ σ) : Prop :=
  ∀ config state, S.fopen path w.state = (.ok config, state) →
    Readable (fun c => Begins S.evfFilterLoad c state) config

/-- If the file can be opened then `evf_load_filters` gets to no line for which there is no room. -/
def InBounds (S : System φ σ) (path : CString) (w : World φ σ) : Prop :=
  ∀ config state, S.fopen path w.state = (.ok config, state) → Proper config.rest →
    Short (fun c => Begins S.evfFilterLoad c state) (scans config.rest)

/-- Nothing has been created. -/
theorem settled_error (w : World φ σ) (state : σ) (err : EvfErr) :
    Settled w { ret := none, err := some err, world := { w with state } } where
  failed := fun _ => ⟨rfl, [], (List.append_nil _).symm, List.nodup_nil, fun a => by simp [Created]⟩
  loaded := fun hnone => nomatch hnone
  frame := fun _ _ => rfl
  size := Nat.le_refl _

theorem Settled.of_state {state : σ} {r : Result φ σ} (h : Settled { w with state } r) : Settled w r :=
  ⟨h.failed, h.loaded, h.frame, h.size⟩

theorem load_error {errno : Int32} {state : σ} (hopen : S.fopen path w.state = (.error errno, state)) :
    evfLoadFilters S path w = pure { ret := none, err := some (.errno errno), world := { w with state } } := by
  rw [evfLoadFilters, hopen]

theorem load_ok {state : σ} (hopen : S.fopen path w.state = (.ok config, state)) :
    evfLoadFilters S path w = loadOpened S config { w with state } := by
  rw [evfLoadFilters, hopen]

theorem loadable_of_terminates (h : (evfLoadFilters S path w).Terminates) : Loadable S path w := by
  intro config state hopen
  rw [load_ok hopen] at h
  exact readable_of_terminates (follows_opened S { w with state }) load_forever h

theorem load_returns (h : Loadable S path w) : (evfLoadFilters S path w).Returns (Settled w) := by
  cases hopen : S.fopen path w.state with
  | mk opened state =>
      cases opened with
      | error errno =>
          rw [load_error hopen]
          exact ⟨_, yields_pure.mpr rfl, settled_error w state _⟩
      | ok config =>
          rw [load_ok hopen]
          obtain ⟨r, hr, hsettled⟩ := returns_of_readable (follows_opened S { w with state }) (h config state hopen)
          exact ⟨r, hr, hsettled.of_state⟩

theorem load_meets (h : InBounds S path w) : (evfLoadFilters S path w).Meets False (Settled w) := by
  cases hopen : S.fopen path w.state with
  | mk opened state =>
      cases opened with
      | error errno =>
          rw [load_error hopen]
          exact meets_pure (settled_error w state _)
      | ok config =>
          rw [load_ok hopen]
          by_cases hp : Proper config.rest
          · exact ((follows_opened S { w with state } hp).meets (h config state hopen hp)).mono fun r hr => hr.of_state
          · exact ⟨fun r hr => absurd ⟨r, hr⟩ (load_forever hp), False.elim⟩

theorem inBounds_of_safe (h : (evfLoadFilters S path w).Safe) : InBounds S path w := by
  intro config state hopen hp
  rw [load_ok hopen] at h
  exact (follows_opened S { w with state } hp).safe_iff.mp h

/-! ## Profiles -/

theorem compose_meets {total : Prop} (S : System φ σ) (path : CString)
    (h : ∀ file (w : World φ σ), (evfLoadFilters S (path.append file) w).Meets total (Settled w))
    (file : CString) (w : World φ σ) : (evfLoadFiltersCompose S path file w).Meets total (Settled w) := by
  unfold evfLoadFiltersCompose
  split
  · exact meets_pure (settled_error w _ _)
  · exact (h file _).mono fun r hr => hr.of_state

theorem owned_start (w : World φ σ) : Owned w w none [] where
  chain := rfl
  created := fun a => by simp
  freed := rfl
  frame := fun _ _ => rfl
  size := Nat.le_refl _

variable {P : ProfileSystem φ σ} {total : Prop} {profile : Stream}

theorem profile_meets (hfiles : FilesMeet P path total) (hbroken : profile.broken = false)
    (hfit : Fitting profile.rest) : (profileRead P path (.ok profile) w).Meets total (Settled w) := by
  let s : Reading φ σ := { profile, type := P.stack 256, value := P.stack 2048, progress := start w }
  exact (processAll_meets hfiles (owned_start w) _).same (loop_same (s := s) hfit hbroken)

/-! ## Profiles on a system on which nothing happens -/

variable {error : Int32} {s : Reading Unit Unit}

/-- A pair for which there is room is gone through, and the next one is read. -/
theorem idle_turn (path : CString) (error : Int32)
    (hshort : (word s.profile.rest).length < 256 ∧ (value s.profile.rest).length < 2048)
    (hmatched : s.progress.hasMatched = 0) (htype : (s.type.string 0).isSome) (hvalue : (s.value.string 0).isSome)
    (heof : ¬ (s.profile.past (behind s.profile.rest) true).eof = true) :
    ∃ s' : Reading Unit Unit, (profileTurn (idle (.error error)) path s).Same (pure (.inl s')) ∧
      s'.profile = s.profile.past (behind s.profile.rest) true ∧ s'.progress.hasMatched = 0 ∧
      (s'.type.string 0).isSome ∧ (s'.value.string 0).isSome := by
  obtain ⟨type, val, hscanned, hturn⟩ := turn_short (idle (.error error)) path hshort.1 hshort.2
  obtain ⟨t, ht⟩ : ∃ t, type.string 0 = some t := by
    by_cases hnil : word s.profile.rest = []
    · rw [hscanned.type_old hnil]
      exact Option.isSome_iff_exists.mp htype
    · exact ⟨_, hscanned.type_new hnil⟩
  obtain ⟨v, hv⟩ : ∃ v, val.string 0 = some v := by
    by_cases hnil : value s.profile.rest = []
    · rw [hscanned.value_old hnil]
      exact Option.isSome_iff_exists.mp hvalue
    · exact ⟨_, hscanned.value_new hnil⟩
  refine ⟨{ profile := s.profile.past (behind s.profile.rest) true, type, value := val,
            progress := s.progress.noted t v }, hturn.trans ?_, rfl, hmatched, by simp [ht], by simp [hv]⟩
  rw [pairRead, if_neg heof, ht, hv]
  exact (same_pure_bind t _).trans (((idle_pair hmatched).bind _).trans (same_pure_bind _ _))

theorem idle_overflow (hlong : ¬ Fitting s.profile.rest) (hmatched : s.progress.hasMatched = 0)
    (htype : (s.type.string 0).isSome) (hvalue : (s.value.string 0).isSome) :
    (loop (profileTurn (idle (.error error)) path) s).Yields (.error .overflow) := by
  obtain ⟨k, hk⟩ : ∃ k, s.profile.rest.length = k := ⟨_, rfl⟩
  induction k using Nat.strongRecOn generalizing s with
  | ind k ih =>
      rw [fitting_iff, not_and_or] at hlong
      by_cases hshort : (word s.profile.rest).length < 256 ∧ (value s.profile.rest).length < 2048
      · have hrest := hlong.resolve_left (not_not.mpr hshort)
        have hend : behind s.profile.rest ≠ [] := by
          intro hend
          rw [hend] at hrest
          exact hrest fun pair hpair => by rw [pairs_blank rfl] at hpair; cases hpair
        have htext : s.profile.rest.dropWhile isspace ≠ [] := fun hnil => hend (behind_of_blank hnil)
        obtain ⟨s', hturn, hprofile, hmatched', htype', hvalue'⟩ := idle_turn path error hshort
          hmatched htype hvalue fun heof => hend (Stream.eof_past_wanted.mp heof).1
        have hsame := (same_loop (profileTurn (idle (.error error)) path) s).trans
          ((hturn.bind _).trans (same_pure_bind _ _))
        have htail : s'.profile.rest = behind s.profile.rest := by rw [hprofile]; rfl
        refine (hsame _).mpr (ih _ (hk ▸ length_behind_lt htext) ?_ hmatched' htype' hvalue' (by rw [htail]))
        rw [htail]
        exact hrest
      · have hsame := (same_loop (profileTurn (idle (.error error)) path) s).trans
          ((turn_long hshort).bind (again _))
        refine (hsame _).mpr ?_
        rw [yields_bind]
        simp

theorem idle_forever (hbroken : s.profile.broken = true) (hfit : Fitting s.profile.rest)
    (hmatched : s.progress.hasMatched = 0) (htype : (s.type.string 0).isSome) (hvalue : (s.value.string 0).isSome) :
    ¬ (loop (profileTurn (idle (.error error)) path) s).Stops := by
  refine loop_forever (fun s => s.profile.broken = true ∧ Fitting s.profile.rest ∧ s.progress.hasMatched = 0 ∧
    (s.type.string 0).isSome ∧ (s.value.string 0).isSome) ?_ ⟨hbroken, hfit, hmatched, htype, hvalue⟩
  rintro s ⟨hbroken, hfit, hmatched, htype, hvalue⟩ r hr
  obtain ⟨hshort, hrest⟩ := fitting_iff.mp hfit
  have heof : ¬ (s.profile.past (behind s.profile.rest) true).eof = true := by
    rw [Stream.eof_past_wanted, hbroken]
    simp
  obtain ⟨s', hturn, hprofile, hmatched', htype', hvalue'⟩ :=
    idle_turn path error hshort hmatched htype hvalue heof
  refine ⟨s', yields_pure.mp ((hturn r).mp hr), by rw [hprofile]; exact hbroken, ?_, hmatched', htype', hvalue'⟩
  rw [hprofile]
  exact hrest

theorem idle_loadable (path : CString) (w : World Unit Unit) :
    Loadable (idle (.error error)).toSystem path w := by
  intro config state hopen
  cases hopen

theorem idle_inBounds (path : CString) (w : World Unit Unit) :
    InBounds (idle (.error error)).toSystem path w := by
  intro config state hopen
  cases hopen

def emptyWorld : World Unit Unit := { heap := ⟨[]⟩, freed := [], processed := [], state := () }

theorem idle_terminates (h : (profileRead (idle (.error error)) path (.ok profile) emptyWorld).Terminates) :
    profile.broken = false ∧ Fitting profile.rest := by
  let s : Reading Unit Unit :=
    { profile, type := Buf.zeros 256, value := Buf.zeros 2048, progress := start emptyWorld }
  have hzeros : ((Buf.zeros 256).string 0).isSome ∧ ((Buf.zeros 2048).string 0).isSome := by decide +kernel
  have hfit : Fitting profile.rest := by
    by_contra hlong
    obtain ⟨r, hr⟩ := h
    cases hr.unique (idle_overflow (s := s) hlong rfl hzeros.1 hzeros.2)
  refine ⟨?_, hfit⟩
  by_contra hbroken
  exact idle_forever (s := s) (Bool.of_not_eq_false hbroken) hfit rfl hzeros.1 hzeros.2 h.stops

/-! ## Termination -/

/-- The profile is read to its end, if the files that it names are. -/
def ProfileTerminates (profile : Stream) : Prop :=
  ∀ (φ σ : Type) (S : ProfileSystem φ σ) (path : CString) (w : World φ σ),
    (∀ file w', Loadable S.toSystem (path.append file) w') → (profileRead S path (.ok profile) w).Terminates

theorem filesMeet_loadable (h : ∀ file w, Loadable P.toSystem (path.append file) w) : FilesMeet P path True :=
  compose_meets P.toSystem path fun file w => returns_iff_meets.mp (load_returns (h file w))

theorem readers_terminate_iff (S : System φ σ) (str : LineBuf) (array : Buf 4096) (config profile : Stream)
    (path : CString) (w : World φ σ) :
    ((evfReadLinePreprocess str config).Terminates ↔ Readable (fun c => c = []) config) ∧
    ((getFilterParams S config array).Terminates ↔ Readable (fun c => ∀ e ∈ c, ¬ Closes e) config) ∧
    ((evfLoadFilters S path w).Terminates ↔ Loadable S path w) ∧
    (ProfileTerminates profile ↔ profile.broken = false ∧ Fitting profile.rest) := by
  refine ⟨⟨?_, ?_⟩, ⟨?_, ?_⟩, ⟨?_, ?_⟩, ⟨?_, ?_⟩⟩
  · exact readable_of_terminates (follows_read str) read_newline
  · exact fun h => (returns_of_readable (follows_read str) h).terminates
  · exact readable_of_terminates (follows_getFilterParams array) (params_forever array)
  · exact fun h => (returns_of_readable (follows_getFilterParams array) h).terminates
  · exact loadable_of_terminates
  · exact fun h => (load_returns h).terminates
  · intro h
    exact idle_terminates (h Unit Unit (idle (.error 2)) (CString.literal "") emptyWorld fun _ _ => idle_loadable _ _)
  · intro h φ σ S path w hfiles
    exact (returns_iff_meets.mpr (profile_meets (filesMeet_loadable hfiles) h.1 h.2)).terminates

/-- A file that starts with an empty line, and one that cannot be read from -/
theorem readers_run_forever :
    ¬ (evfReadLinePreprocess (Buf.zeros 4096) (Stream.opened [newline] false)).Terminates ∧
      ¬ (evfReadLinePreprocess (Buf.zeros 4096) (Stream.opened [] true)).Terminates ∧
      ¬ ProfileTerminates (Stream.opened [] true) := by
  refine ⟨fun h => read_newline (fun hp => hp rfl) h.stops, fun h => read_broken rfl rfl h.stops, fun h => ?_⟩
  have hbroken := idle_terminates
    (h Unit Unit (idle (.error 2)) (CString.literal "") emptyWorld fun _ _ => idle_loadable _ _)
  cases hbroken.1

/-! ## Bounds -/

/-- Reading the profile stays inside the arrays, if reading the files that it names does. -/
def ProfileSafe (text : List UInt8) : Prop :=
  ∀ (φ σ : Type) (S : ProfileSystem φ σ) (path : CString) (w : World φ σ),
    (∀ file w', InBounds S.toSystem (path.append file) w') →
      (profileRead S path (.ok (Stream.opened text false)) w).Safe

theorem filesMeet_inBounds (h : ∀ file w, InBounds P.toSystem (path.append file) w) : FilesMeet P path False :=
  compose_meets P.toSystem path fun file w => load_meets (h file w)

theorem not_profileSafe {text : List UInt8} (hlong : ¬ Fitting text) : ¬ ProfileSafe text := by
  intro h
  let s : Reading Unit Unit :=
    { profile := Stream.opened text false, type := Buf.zeros 256, value := Buf.zeros 2048,
      progress := start emptyWorld }
  have hzeros : ((Buf.zeros 256).string 0).isSome ∧ ((Buf.zeros 2048).string 0).isSome := by decide +kernel
  exact h Unit Unit (idle (.error 2)) (CString.literal "") emptyWorld (fun _ _ => idle_inBounds _ _) _
    (idle_overflow (s := s) hlong rfl hzeros.1 hzeros.2)

theorem length_word_replicate : (word (List.replicate 256 65)).length = 256 := by decide +kernel

/-- A line of 4096 bytes, and a keyword of 256 -/
theorem readers_overflow :
    ¬ (evfReadLinePreprocess (Buf.zeros 4096) (Stream.opened (List.replicate 4096 65) false)).Safe ∧
      ¬ ProfileSafe (List.replicate 256 65) := by
  constructor
  · have hne : List.replicate 4096 (65 : UInt8) ≠ [] := List.cons_ne_nil _ _
    have hline : ∀ c ∈ List.replicate 4096 (65 : UInt8), (c != newline) = true := fun c hc => by
      rw [List.eq_of_mem_replicate hc]
      rfl
    have hlong : bufLen ≤ ((List.replicate 4096 (65 : UInt8)).takeWhile (· != newline)).length := by
      rw [List.takeWhile_eq_self_iff.mpr hline, List.length_replicate]
    let config := Stream.opened (List.replicate 4096 65) false
    intro hsafe
    exact hsafe _ ((read_long _ config (scans_cons hne) hlong _).mpr (yields_fault.mpr rfl))
  · refine not_profileSafe fun hfit => ?_
    have hword := (fitting_iff.mp hfit).1.1
    rw [length_word_replicate] at hword
    exact Nat.lt_irrefl _ hword

theorem readers_safe_iff (S : System φ σ) (str : LineBuf) (buf : Buf 256) (array : Buf 4096) (config : Stream)
    (path : CString) (w : World φ σ) (text : List UInt8) :
    ((evfReadLinePreprocess str config).Safe ↔
      (Proper config.rest → Short (fun c => c = []) (scans config.rest))) ∧
    ((getFilterName S config buf).Safe ↔
      (Proper config.rest → Short (fun c => c = []) (scans config.rest))) ∧
    ((getFilterParams S config array).Safe ↔
      (Proper config.rest → Short (fun c => ∀ e ∈ c, ¬ Closes e) (scans config.rest))) ∧
    ((evfLoadFilters S path w).Safe ↔ InBounds S path w) ∧
    (ProfileSafe text ↔ Fitting text) := by
  refine ⟨?_, ?_, ?_, ⟨inBounds_of_safe, fun h => (load_meets h).safe⟩, ⟨?_, ?_⟩⟩
  · exact safe_iff_short (follows_read str) read_newline
  · exact safe_iff_short (follows_getFilterName buf) (name_forever buf)
  · exact safe_iff_short (follows_getFilterParams array) (params_forever array)
  · exact fun h => not_not.mp fun hlong => not_profileSafe hlong h
  · exact fun h φ σ S path w hfiles => (profile_meets (filesMeet_inBounds hfiles) rfl h).safe

/-! ## Ownership -/

/-- If the profile was opened, and if the files that it names can be read when they are. -/
def ProfileSettles (profile : Except EvfErr Stream) : Prop :=
  ∀ (φ σ : Type) (S : ProfileSystem φ σ) (path : CString) (w : World φ σ),
    (∀ file w', Loadable S.toSystem (path.append file) w') → (profileRead S path profile w).Returns (Settled w)

theorem compose_loadable (h : (evfLoadFiltersCompose S path file w).Terminates) (state : σ)
    (hmalloc : S.malloc (path.strlen + file.strlen + 1) w.state = (none, state)) :
    Loadable S (path.append file) { w with state } := by
  rw [evfLoadFiltersCompose, hmalloc] at h
  exact loadable_of_terminates h

theorem compose_returns (h : ∀ state, S.malloc (path.strlen + file.strlen + 1) w.state = (none, state) →
    Loadable S (path.append file) { w with state }) : (evfLoadFiltersCompose S path file w).Returns (Settled w) := by
  unfold evfLoadFiltersCompose
  split
  · exact ⟨_, yields_pure.mpr rfl, settled_error w _ _⟩
  · rename_i state hmalloc
    obtain ⟨r, hr, hsettled⟩ := load_returns (h state hmalloc)
    exact ⟨r, hr, hsettled.of_state⟩

/-- A file that can be opened, but not read from -/
theorem unreadable_not_settled :
    ¬ (evfLoadFilters (idle (.ok (Stream.opened [] true))).toSystem (CString.literal "") emptyWorld).Returns
      (Settled emptyWorld) := by
  intro h
  have hreadable := loadable_of_terminates h.terminates (Stream.opened [] true) () rfl
  refine hreadable.leaves rfl ?_
  rw [show (Stream.opened [] true).rest = [] from rfl, scans_nil]
  exact begins_nil

theorem settled_iff (S : System φ σ) (path file : CString) (w : World φ σ) (profile : Except EvfErr Stream) :
    ((evfLoadFilters S path w).Returns (Settled w) ↔ Loadable S path w) ∧
    ((evfLoadFiltersCompose S path file w).Returns (Settled w) ↔
      ∀ state, S.malloc (path.strlen + file.strlen + 1) w.state = (none, state) →
        Loadable S (path.append file) { w with state }) ∧
    (ProfileSettles profile ↔ ∀ file, profile = .ok file → file.broken = false ∧ Fitting file.rest) := by
  refine ⟨⟨fun h => loadable_of_terminates h.terminates, load_returns⟩,
    ⟨fun h => compose_loadable h.terminates, compose_returns⟩, ⟨?_, ?_⟩⟩
  · rintro h file rfl
    have hreturns := h Unit Unit (idle (.error 2)) (CString.literal "") emptyWorld fun _ _ => idle_loadable _ _
    exact idle_terminates hreturns.terminates
  · intro h φ σ S path w hfiles
    cases profile with
    | error err => exact ⟨_, yields_pure.mpr rfl, settled_error w w.state err⟩
    | ok file =>
        obtain ⟨hbroken, hfit⟩ := h file rfl
        exact returns_iff_meets.mpr (profile_meets (filesMeet_loadable hfiles) hbroken hfit)

end Evfilter.Reader
