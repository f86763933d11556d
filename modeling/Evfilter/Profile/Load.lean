import Evfilter.Line.FilterList
import Evfilter.Param.Table

/-!
# Loading a profile

`evf_load_profile` on the pairs read from profilerc. What the rules are checked against, and what the files contain,
comes with each pair, as it is found when the loop gets there.
-/

namespace Evfilter.Profile
open Lib Heap Line Param

variable {α : Type}

/-- The device. `none` is a negative result. -/
structure Probe where
  evfInputCompare : CString → Int
  evfInputGetName : Option CString
  evfInputGetPhys : Option CString

/-- 1 for a match. -/
def checkForMatchingRule (fd : Probe) (type value : CString) : Int :=
  if CString.strcasecmp (CString.literal "Device") type = 0 then
    if fd.evfInputCompare value = -1 then -3 else fd.evfInputCompare value
  else if CString.strcasecmp (CString.literal "Name") type = 0 then
    match fd.evfInputGetName with
    | none => -2
    | some name => if name = value then 1 else 0
  else if CString.strcasecmp (CString.literal "Phys") type = 0 then
    match fd.evfInputGetPhys with
    | none => -2
    | some phys => if phys = value then 1 else 0
  else if CString.strcasecmp (CString.literal "Bits") type = 0 then 0
  else -1

/-- A pair, the device at that time, and what `evf_load_filters_compose` makes of the value as a file name. -/
structure Pair (α : Type) where
  type : CString
  value : CString
  fd : Probe
  content : Except EvfErr (List α)

/-- The variables of the loop, and the names of the files that have been loaded. -/
structure Loading (α : Type) where
  heap : Heap α
  filters : Option Addr
  hasMatched : Int
  loaded : List CString

def loadPair (s : Loading α) (pair : Pair α) : Except EvfErr (Loading α) :=
  if CString.strcasecmp pair.type (CString.literal "File") = 0 then
    if s.hasMatched ≠ 0 then
      match pair.content with
      | .error err => .error err
      | .ok content =>
        let tmp := linkFilters s.heap content
        let merged := evfFiltersMerge tmp.heap s.filters tmp.filters
        .ok { heap := merged.1, filters := merged.2, hasMatched := -1, loaded := s.loaded ++ [pair.value] }
    else .ok s
  else
    let s := if s.hasMatched = -1 then { s with hasMatched := 0 } else s
    if checkForMatchingRule pair.fd pair.type pair.value = 1 then .ok { s with hasMatched := 1 } else .ok s

def evfLoadProfile (h : Heap α) (pairs : List (Pair α)) : Except EvfErr (Loading α) :=
  pairs.foldlM loadPair { heap := h, filters := none, hasMatched := 0, loaded := [] }

/-! ## Groups -/

/-- Ignoring case, the keyword is `File`. -/
def Pair.IsFile (pair : Pair α) : Prop := pair.type.fold = (CString.literal "File").fold

def Pair.Matches (pair : Pair α) : Prop := checkForMatchingRule pair.fd pair.type pair.value = 1

instance (pair : Pair α) : Decidable pair.IsFile :=
  inferInstanceAs (Decidable (pair.type.fold = (CString.literal "File").fold))

instance (pair : Pair α) : Decidable pair.Matches :=
  inferInstanceAs (Decidable (checkForMatchingRule pair.fd pair.type pair.value = 1))

structure Group (α : Type) where
  rules : List (Pair α)
  files : List (Pair α)

/-- The files of a group are wanted if one of its rules matches. -/
def Group.wanted (g : Group α) : List (Pair α) := if ∃ rule ∈ g.rules, rule.Matches then g.files else []

/-- The pairs are some files, which belong to no rule, and then groups. Only the last of these may be without
files. -/
structure Cut (pairs stray : List (Pair α)) (groups : List (Group α)) : Prop where
  pairs_eq : pairs = stray ++ groups.flatMap fun g => g.rules ++ g.files
  stray_files : ∀ pair ∈ stray, pair.IsFile
  rules : ∀ g ∈ groups, g.rules ≠ [] ∧ ∀ rule ∈ g.rules, ¬ rule.IsFile
  files : ∀ g ∈ groups, ∀ file ∈ g.files, file.IsFile
  ended : ∀ g ∈ groups.dropLast, g.files ≠ []

/-- What a file that has been loaded adds to the list. -/
def Pair.filters (pair : Pair α) : List α :=
  match pair.content with
  | .ok content => content
  | .error _ => []

variable {pair : Pair α} {pairs rules files stray : List (Pair α)} {groups : List (Group α)} {g : Group α}
  {s : Loading α}

theorem exists_cut (pairs : List (Pair α)) : ∃ stray groups, Cut pairs stray groups := by
  induction pairs with
  | nil => exact ⟨[], [], rfl, by simp, by simp, by simp, by simp⟩
  | cons pair pairs ih =>
      obtain ⟨stray, groups, hcut⟩ := ih
      by_cases hp : pair.IsFile
      · exact ⟨pair :: stray, groups, by rw [hcut.pairs_eq]; rfl, List.forall_mem_cons.mpr ⟨hp, hcut.stray_files⟩,
          hcut.rules, hcut.files, hcut.ended⟩
      · -- The rule starts a group, or joins the first one.
        cases stray with
        | cons file stray =>
            refine ⟨[], ⟨[pair], file :: stray⟩ :: groups, by rw [hcut.pairs_eq]; simp, by simp,
              List.forall_mem_cons.mpr ⟨by simp [hp], hcut.rules⟩,
              List.forall_mem_cons.mpr ⟨hcut.stray_files, hcut.files⟩, ?_⟩
            cases groups with
            | nil => simp
            | cons g groups =>
                rw [List.dropLast_cons_cons]
                exact List.forall_mem_cons.mpr ⟨by simp, hcut.ended⟩
        | nil =>
            cases groups with
            | nil => exact ⟨[], [⟨[pair], []⟩], by rw [hcut.pairs_eq]; rfl, by simp, by simp [hp], by simp, by simp⟩
            | cons g groups =>
                obtain ⟨hrules, hrest⟩ := List.forall_mem_cons.mp hcut.rules
                obtain ⟨hfiles, hfrest⟩ := List.forall_mem_cons.mp hcut.files
                refine ⟨[], ⟨pair :: g.rules, g.files⟩ :: groups, by rw [hcut.pairs_eq]; simp, by simp,
                  List.forall_mem_cons.mpr ⟨⟨by simp, List.forall_mem_cons.mpr ⟨hp, hrules.2⟩⟩, hrest⟩,
                  List.forall_mem_cons.mpr ⟨hfiles, hfrest⟩, ?_⟩
                have hended := hcut.ended
                cases groups with
                | nil => simp
                | cons g' groups =>
                    rw [List.dropLast_cons_cons] at hended ⊢
                    obtain ⟨hg, hended⟩ := List.forall_mem_cons.mp hended
                    exact List.forall_mem_cons.mpr ⟨hg, hended⟩

/-! ## The loop -/

theorem loadPair_rule (h : ¬ pair.IsFile) (s : Loading α) :
    loadPair s pair = .ok { s with hasMatched :=
      if pair.Matches then 1 else if s.hasMatched = -1 then 0 else s.hasMatched } := by
  have hfile : CString.strcasecmp pair.type (CString.literal "File") ≠ 0 := mt CString.strcasecmp_eq_zero.mp h
  have hm : (checkForMatchingRule pair.fd pair.type pair.value = 1) = pair.Matches := rfl
  simp only [loadPair, if_neg hfile, hm]
  by_cases hp : pair.Matches <;> by_cases hs : s.hasMatched = -1 <;> simp [hp, hs]

/-- The flag after some rules. -/
theorem foldlM_rules (h : ∀ rule ∈ rules, ¬ rule.IsFile) (hne : rules ≠ []) (s : Loading α) :
    rules.foldlM loadPair s = .ok { s with hasMatched :=
      if ∃ rule ∈ rules, rule.Matches then 1 else if s.hasMatched = -1 then 0 else s.hasMatched } := by
  induction rules generalizing s with
  | nil => exact absurd rfl hne
  | cons rule rules ih =>
      obtain ⟨hrule, h⟩ := List.forall_mem_cons.mp h
      rw [List.foldlM_cons, loadPair_rule hrule]
      change rules.foldlM loadPair _ = _
      cases rules with
      | nil => simp; rfl
      | cons rule' rules =>
          rw [ih h (by simp)]
          by_cases hr : rule.Matches
          · simp [hr]
          · by_cases hs : s.hasMatched = -1 <;> simp [hr, hs]

theorem foldlM_skipped (h : ∀ file ∈ files, file.IsFile) (hs : s.hasMatched = 0) :
    files.foldlM loadPair s = .ok s := by
  induction files with
  | nil => rfl
  | cons file files ih =>
      obtain ⟨hfile, h⟩ := List.forall_mem_cons.mp h
      have hstep : loadPair s file = .ok s := by
        rw [loadPair, if_pos (CString.strcasecmp_eq_zero.mpr hfile), if_neg (not_not_intro hs)]
      rw [List.foldlM_cons, hstep]
      exact ih h

/-- These files have been loaded, and their filters are in the list. -/
structure Loaded (s : Loading α) (files : List (Pair α)) : Prop where
  names : s.loaded = files.map (·.value)
  list : ∃ l, s.heap.Chain s.filters l ∧ l.map Prod.snd = files.flatMap Pair.filters

theorem loadPair_file {content : List α} (h : pair.IsFile) (hc : pair.content = .ok content) (hs : s.hasMatched ≠ 0)
    (hl : Loaded s files) : ∃ s', loadPair s pair = .ok s' ∧ s'.hasMatched = -1 ∧ Loaded s' (files ++ [pair]) := by
  obtain ⟨l, hchain, hvalues⟩ := hl.list
  obtain ⟨l', hlinked, hvalues'⟩ := linkFilters_linked s.heap content
  have hold : ∀ b ∈ addrs l, b < s.heap.size := fun b hb => by
    obtain ⟨_, _, _, hg⟩ := hchain.get_of_addr hb
    exact lt_size_of_get? hg
  have hkept := Seg.frame hchain fun b hb => hlinked.frame b (hold b hb)
  have hmerged := merge_chain hkept hlinked.chain fun b hb hb' =>
    Nat.not_lt_of_ge (hlinked.new b hb') (hold b hb)
  have hnames : s.loaded ++ [pair.value] = (files ++ [pair]).map (·.value) := by rw [hl.names]; simp
  have hfilters : (l ++ l').map Prod.snd = (files ++ [pair]).flatMap Pair.filters := by
    rw [List.map_append, hvalues, hvalues']
    simp [Pair.filters, hc]
  have hstep : loadPair s pair = .ok
      { heap := (evfFiltersMerge (linkFilters s.heap content).heap s.filters (linkFilters s.heap content).filters).1,
        filters :=
          (evfFiltersMerge (linkFilters s.heap content).heap s.filters (linkFilters s.heap content).filters).2,
        hasMatched := -1, loaded := s.loaded ++ [pair.value] } := by
    rw [loadPair, if_pos (CString.strcasecmp_eq_zero.mpr h), if_pos hs, hc]
  exact ⟨_, hstep, rfl, hnames, l ++ l', hmerged, hfilters⟩

theorem foldlM_files (h : ∀ file ∈ files, file.IsFile) (hc : ∀ file ∈ files, ∃ content, file.content = .ok content)
    (hs : s.hasMatched ≠ 0) {done : List (Pair α)} (hl : Loaded s done) :
    ∃ s', files.foldlM loadPair s = .ok s' ∧ (files ≠ [] → s'.hasMatched = -1) ∧ Loaded s' (done ++ files) := by
  induction files generalizing s done with
  | nil => exact ⟨s, rfl, fun h => absurd rfl h, by rwa [List.append_nil]⟩
  | cons file files ih =>
      obtain ⟨hfile, h⟩ := List.forall_mem_cons.mp h
      obtain ⟨⟨content, hfc⟩, hc⟩ := List.forall_mem_cons.mp hc
      obtain ⟨s₁, hstep, hflag, hl₁⟩ := loadPair_file hfile hfc hs hl
      obtain ⟨s₂, hrun, hflag₂, hl₂⟩ := ih h hc (by rw [hflag]; decide) hl₁
      refine ⟨s₂, ?_, fun _ => ?_, ?_⟩
      · rw [List.foldlM_cons, hstep]
        exact hrun
      · cases files with
        | nil =>
            cases hrun
            exact hflag
        | cons file' files => exact hflag₂ (by simp)
      · rwa [List.append_assoc, List.singleton_append] at hl₂

theorem foldlM_group (hr : g.rules ≠ [] ∧ ∀ rule ∈ g.rules, ¬ rule.IsFile) (hf : ∀ file ∈ g.files, file.IsFile)
    (hc : ∀ file ∈ g.wanted, ∃ content, file.content = .ok content) (hs : s.hasMatched = 0 ∨ s.hasMatched = -1)
    {done : List (Pair α)} (hl : Loaded s done) :
    ∃ s', (g.rules ++ g.files).foldlM loadPair s = .ok s' ∧
      (g.files ≠ [] → s'.hasMatched = 0 ∨ s'.hasMatched = -1) ∧ Loaded s' (done ++ g.wanted) := by
  rw [List.foldlM_append, foldlM_rules hr.2 hr.1]
  change ∃ s', g.files.foldlM loadPair _ = .ok s' ∧ _
  by_cases hm : ∃ rule ∈ g.rules, rule.Matches
  · have hw : g.wanted = g.files := if_pos hm
    rw [hw] at hc ⊢
    rw [if_pos hm]
    obtain ⟨s', hrun, hflag, hl'⟩ := foldlM_files (s := { s with hasMatched := 1 }) hf hc Int.one_ne_zero
      ⟨hl.names, hl.list⟩
    exact ⟨s', hrun, fun hne => Or.inr (hflag hne), hl'⟩
  · have hw : g.wanted = [] := if_neg hm
    have hzero : (if s.hasMatched = -1 then 0 else s.hasMatched) = 0 := by
      rcases hs with hs | hs <;> simp [hs]
    rw [hw, if_neg hm, hzero]
    refine ⟨_, foldlM_skipped hf rfl, fun _ => Or.inl rfl, ?_⟩
    rw [List.append_nil]
    exact ⟨hl.names, hl.list⟩

theorem foldlM_groups (hr : ∀ g ∈ groups, g.rules ≠ [] ∧ ∀ rule ∈ g.rules, ¬ rule.IsFile)
    (hf : ∀ g ∈ groups, ∀ file ∈ g.files, file.IsFile) (he : ∀ g ∈ groups.dropLast, g.files ≠ [])
    (hc : ∀ file ∈ groups.flatMap Group.wanted, ∃ content, file.content = .ok content)
    (hs : s.hasMatched = 0 ∨ s.hasMatched = -1) {done : List (Pair α)} (hl : Loaded s done) :
    ∃ s', (groups.flatMap fun g => g.rules ++ g.files).foldlM loadPair s = .ok s' ∧
      Loaded s' (done ++ groups.flatMap Group.wanted) := by
  induction groups generalizing s done with
  | nil => exact ⟨s, rfl, by simpa using hl⟩
  | cons g groups ih =>
      obtain ⟨hgr, hr⟩ := List.forall_mem_cons.mp hr
      obtain ⟨hgf, hf⟩ := List.forall_mem_cons.mp hf
      rw [List.flatMap_cons] at hc
      obtain ⟨hgc, hc⟩ := List.forall_mem_append.mp hc
      obtain ⟨s₁, hrun, hflag, hl₁⟩ := foldlM_group hgr hgf hgc hs hl
      rw [List.flatMap_cons, List.foldlM_append, hrun, List.flatMap_cons, ← List.append_assoc]
      change ∃ s', (groups.flatMap _).foldlM loadPair s₁ = .ok s' ∧ _
      cases groups with
      | nil => exact ⟨s₁, rfl, by simpa using hl₁⟩
      | cons g' groups =>
          rw [List.dropLast_cons_cons] at he
          obtain ⟨hne, he⟩ := List.forall_mem_cons.mp he
          exact ih hr hf he hc (hflag hne) hl₁

/-- The pairs have a cut into groups, and for every one, if the wanted files can be loaded, then just these are
loaded, in order, and the list consists of their filters. -/
theorem profile_loads (h : Heap α) (pairs : List (Pair α)) :
    (∃ stray groups, Cut pairs stray groups) ∧
      ∀ stray groups, Cut pairs stray groups →
        (∀ file ∈ groups.flatMap Group.wanted, ∃ content, file.content = .ok content) →
        ∃ s l, evfLoadProfile h pairs = .ok s ∧ s.loaded = (groups.flatMap Group.wanted).map (·.value) ∧
          s.heap.Chain s.filters l ∧ l.map Prod.snd = (groups.flatMap Group.wanted).flatMap Pair.filters := by
  refine ⟨exists_cut pairs, fun stray groups hcut hc => ?_⟩
  have hstart : Loaded ({ heap := h, filters := none, hasMatched := 0, loaded := [] } : Loading α) [] :=
    ⟨rfl, [], rfl, rfl⟩
  obtain ⟨s, hrun, hl⟩ := foldlM_groups hcut.rules hcut.files hcut.ended hc (Or.inl rfl) hstart
  obtain ⟨l, hchain, hvalues⟩ := hl.list
  refine ⟨s, l, ?_, hl.names, hchain, hvalues⟩
  rw [evfLoadProfile, hcut.pairs_eq, List.foldlM_append, foldlM_skipped hcut.stray_files rfl]
  exact hrun

/-- A device by the name of `pen`, at the time of some pair of keyword and value. -/
def penPair (type value : String) (content : List Nat) : Pair Nat where
  type := CString.literal type
  value := CString.literal value
  fd := { evfInputCompare := fun _ => 0, evfInputGetName := some (CString.literal "pen"), evfInputGetPhys := none }
  content := .ok content

/-- A group with a match among its rules and two files, and one without a match. -/
def penGroups : List (Group Nat) :=
  [⟨[penPair "Phys" "usb" [], penPair "NAME" "pen" [], penPair "Bits" "0" []],
      [penPair "File" "smooth" [1, 2], penPair "file" "scale" [3]]⟩,
    ⟨[penPair "Name" "mouse" []], [penPair "File" "slow" [4]]⟩]

theorem penGroups_wanted :
    penGroups.flatMap Group.wanted = [penPair "File" "smooth" [1, 2], penPair "file" "scale" [3]] := by
  have h₁ : ∃ rule ∈ [penPair "Phys" "usb" [], penPair "NAME" "pen" [], penPair "Bits" "0" []], rule.Matches := by
    decide
  have h₂ : ¬ ∃ rule ∈ [penPair "Name" "mouse" []], rule.Matches := by decide
  simp only [penGroups, List.flatMap_cons, List.flatMap_nil, Group.wanted, if_pos h₁, if_neg h₂, List.append_nil]

theorem pen_profile_loads :
    ∃ s l, evfLoadProfile Heap.empty (penPair "File" "stray" [5] :: penGroups.flatMap fun g => g.rules ++ g.files) =
        .ok s ∧ s.loaded = (penGroups.flatMap Group.wanted).map (·.value) ∧ s.heap.Chain s.filters l ∧
      l.map Prod.snd = (penGroups.flatMap Group.wanted).flatMap Pair.filters :=
  (profile_loads Heap.empty _).2 [penPair "File" "stray" [5]] penGroups
    ⟨rfl, by decide, by
      intro g hg
      rcases List.mem_cons.mp hg with rfl | hg
      · exact ⟨by simp, by decide⟩
      · rw [List.mem_singleton.mp hg]
        exact ⟨by simp, by decide⟩, by decide, by
      intro g hg
      rw [List.mem_singleton.mp hg]
      simp⟩
    (by
      rw [penGroups_wanted]
      exact List.forall_mem_cons.mpr ⟨⟨_, rfl⟩, List.forall_mem_singleton.mpr ⟨_, rfl⟩⟩)

end Evfilter.Profile
