import Evfilter.Evfd.Devices
import Evfilter.Line.Resources

/-!
# Creating a line, or failing to

Every failure gives back what has been obtained up to it, but for one. A descriptor that EVIOCGVERSION does not work on
is closed, and the line is created with it.
-/

namespace Evfilter.Line.Resources
open Lib Comp Heap Param

variable {α σ : Type} {filterFree : α → Option (σ → Ptr × σ)} {w w' : World α σ} {root : Option Addr}
  {l : List (Addr × Filter α)} {o : Outcomes α} {priv : Ptr} {useBarriers : UInt32} {evenEmpty : Bool} {fd : Int}
  {loaded : Loaded α} {r : Created α σ}

def World.start (heap : Heap (Filter α)) (state : σ) : World α σ :=
  { heap, obtained := [], freed := [], closed := [], lines := 0, state }

/-- A line has an input device that is open. Without a line the descriptor has been closed once, and each filter has
been freed once. -/
structure Tidy (o : Outcomes α) (r : Created α σ) : Prop where
  line : ∀ line, r.ret = some line →
    ∃ fd : Nat, o.opened = .ok fd ∧ line.fd = fd ∧ (fd : Int) ∉ r.world.closed ∧ o.version = true
  closed : r.ret = none → ∀ fd, o.opened = .ok fd → r.world.closed.count (fd : Int) = 1
  freed : r.ret = none → r.world.freed.Perm r.world.obtained
  distinct : r.world.obtained.Nodup
  memory : r.ret = none → r.world.lines = 0

/-! ## From the profile on -/

/-- What has been allocated is freed again. -/
structure AllocatedFreed (w w' : World α σ) (more : List Addr) : Prop where
  obtained : w'.obtained = w.obtained ++ more
  freed : w'.freed = w.freed ++ more
  closed : w'.closed = w.closed
  lines : w'.lines = w.lines
  chain : ∀ {root l}, w.heap.Chain root l → w'.heap.Chain root l
  fresh : ∀ a ∈ more, w.heap.size ≤ a
  nodup : more.Nodup

/-- An address that is new is in no list. -/
theorem not_mem_addrs (h : w.heap.Chain root l) {a : Addr} (ha : w.heap.size ≤ a) : a ∉ addrs l := by
  intro hmem
  obtain ⟨_, _, _, hget⟩ := h.get_of_addr hmem
  exact absurd (lt_size_of_get? hget) (Nat.not_lt.mpr ha)

theorem allocatedFreed_none : AllocatedFreed w w [] :=
  ⟨(List.append_nil _).symm, (List.append_nil _).symm, rfl, rfl, id, List.forall_mem_nil _, List.nodup_nil⟩

theorem allocatedFreed_one (v : Filter α) :
    AllocatedFreed w ((w.alloc v none).1.free (some w.heap.size)) [w.heap.size] where
  obtained := rfl
  freed := rfl
  closed := rfl
  lines := rfl
  chain := fun h => Seg.free_frame (Seg.alloc_frame h) (not_mem_addrs h (Nat.le_refl _))
  fresh := fun _ ha => Nat.le_of_eq (List.mem_singleton.mp ha).symm
  nodup := List.nodup_singleton _

theorem allocatedFreed_two (v v' : Filter α) : AllocatedFreed w
    ((((w.alloc v none).1.alloc v' none).1.free (some w.heap.size)).free (some (w.alloc v none).1.heap.size))
    [w.heap.size, w.heap.size + 1] := by
  have hsize : (w.alloc v none).1.heap.size = w.heap.size + 1 := size_alloc _ _ _
  rw [hsize]
  refine ⟨?_, List.append_assoc _ _ _, rfl, rfl, fun h => ?_, fun a ha => ?_, by simp⟩
  · change w.obtained ++ [w.heap.size] ++ [(w.heap.alloc v none).1.size] = _
    rw [size_alloc, List.append_assoc]
    rfl
  · have hnew : w.heap.size + 1 ∉ addrs _ := not_mem_addrs h (Nat.le_succ _)
    exact Seg.free_frame (Seg.free_frame (Seg.alloc_frame (Seg.alloc_frame h))
      (not_mem_addrs h (Nat.le_refl _))) hnew
  · rcases List.mem_cons.mp ha with rfl | ha
    · exact Nat.le_refl _
    · exact Nat.le_of_lt (List.mem_singleton.mp ha ▸ Nat.lt_succ_self _)

theorem freeAllocated_freed (o : Outcomes α) (priv : Ptr) (useBarriers : UInt32) (w : World α σ) :
    ∃ more, AllocatedFreed w (freeAllocated o priv useBarriers w) more := by
  by_cases hbarrier : useBarriers ≠ 0 ∧ o.allocBarrier = none
  · cases hcommit : o.allocCommit with
    | none =>
        simp only [freeAllocated, hcommit, if_pos hbarrier.1, hbarrier.2]
        exact ⟨_, allocatedFreed_two (.commit priv) (.barrier useBarriers)⟩
    | some errno =>
        simp only [freeAllocated, hcommit, if_pos hbarrier.1, hbarrier.2]
        exact ⟨_, allocatedFreed_one (.barrier useBarriers)⟩
  · have hnone : ∀ w : World α σ, (if useBarriers ≠ 0 then w.alloc (.barrier useBarriers) o.allocBarrier else (w, none)) =
        (w, none) := by
      intro w
      split
      · rename_i hused
        cases halloc : o.allocBarrier with
        | none => exact absurd ⟨hused, halloc⟩ hbarrier
        | some errno => rfl
      · rfl
    cases hcommit : o.allocCommit with
    | none =>
        simp only [freeAllocated, hcommit, hnone]
        exact ⟨_, allocatedFreed_one (.commit priv)⟩
    | some errno =>
        simp only [freeAllocated, hcommit, hnone]
        exact ⟨_, allocatedFreed_none⟩

/-- No line is returned, and what has been obtained is given back. -/
structure GivenUp (fd : Int) (loaded : Loaded α) (w : World α σ) (r : Created α σ) : Prop where
  ret : r.ret = none
  closed : r.world.closed = w.closed ++ [fd]
  lines : r.world.lines = w.lines
  more : ∃ more : List Addr, r.world.obtained = w.obtained ++ more ∧
    r.world.freed.Perm (w.freed ++ addrs loaded.filters ++ more) ∧ (∀ a ∈ more, loaded.heap.size ≤ a) ∧ more.Nodup

/-- The line has the filters of the profile, and those that every line ends with. -/
structure Built (fd : Int) (priv : Ptr) (useBarriers : UInt32) (loaded : Loaded α) (w : World α σ)
    (r : Created α σ) : Prop where
  closed : r.world.closed = w.closed
  obtained : r.world.obtained =
    w.obtained ++ addrs (closing loaded.heap (.commit priv) Filter.barrier useBarriers)
  line : ∃ line, r.ret = some line ∧ line.fd = fd ∧ line.endPtr = loaded.filters.getLast?.map Prod.fst ∧
    r.world.heap.Chain line.beginPtr
      (loaded.filters ++ closing loaded.heap (.commit priv) Filter.barrier useBarriers)

/-- There are no filters where there should be some, or an allocation fails. -/
def Outcomes.Fails (o : Outcomes α) (useBarriers : UInt32) (evenEmpty : Bool) (begins : Option Addr) : Prop :=
  (evenEmpty = false ∧ begins = none) ∨ o.mallocLine ≠ none ∨ o.allocFails useBarriers ≠ none

variable (filterFree o priv useBarriers evenEmpty fd loaded) in
theorem createLoaded_cases (hheap : w.heap = loaded.heap) :
    ∃ r, (createLoaded filterFree o priv useBarriers evenEmpty fd loaded w).Yields (.ok r) ∧
      (o.Fails useBarriers evenEmpty loaded.begins ∧ GivenUp fd loaded w r ∨
        ¬ o.Fails useBarriers evenEmpty loaded.begins ∧ Built fd priv useBarriers loaded w r) := by
  have hchain : w.heap.Chain loaded.begins loaded.filters := hheap ▸ loaded.chain
  unfold createLoaded
  split
  · rename_i hempty
    have hnil : loaded.filters = [] := by
      rw [hempty.2] at hchain
      exact Chain.unique hchain rfl
    exact ⟨_, yields_pure.mpr rfl, Or.inl ⟨Or.inl hempty, rfl, rfl, rfl, [], (List.append_nil _).symm,
      by simp [hnil, World.close], List.forall_mem_nil _, List.nodup_nil⟩⟩
  · rename_i hsome
    split
    · rename_i errno hmalloc
      have hfails : o.Fails useBarriers evenEmpty loaded.begins := Or.inr (Or.inl (by simp [hmalloc]))
      obtain ⟨ret, w', hyields, hfreed⟩ := evfFiltersFree_chain filterFree hchain
      refine ⟨_, (yields_bind_ok hyields).mpr (yields_pure.mpr rfl), Or.inl ⟨hfails, rfl, ?_, hfreed.lines, [], ?_, ?_, ?_, ?_⟩⟩
      · exact congrArg (· ++ [fd]) hfreed.closed
      · exact hfreed.obtained.trans (List.append_nil _).symm
      · rw [List.append_nil]
        exact List.Perm.of_eq hfreed.freed
      · exact List.forall_mem_nil _
      · exact List.nodup_nil
    · rename_i hmalloc
      split
      · rename_i errno halloc
        have hfails : o.Fails useBarriers evenEmpty loaded.begins := Or.inr (Or.inr (by simp [halloc]))
        obtain ⟨more, hmore⟩ := freeAllocated_freed o priv useBarriers { w with lines := w.lines + 1 }
        obtain ⟨ret, w', hyields, hfreed⟩ :=
          evfFiltersFree_chain filterFree (hmore.chain (w := { w with lines := w.lines + 1 }) hchain)
        refine ⟨_, (yields_bind_ok hyields).mpr (yields_pure.mpr rfl),
          Or.inl ⟨hfails, rfl, ?_, ?_, more, ?_, ?_, ?_, hmore.nodup⟩⟩
        · exact congrArg (· ++ [fd]) (hfreed.closed.trans hmore.closed)
        · change w'.lines - 1 = w.lines
          rw [hfreed.lines, hmore.lines]
          rfl
        · exact hfreed.obtained.trans hmore.obtained
        · change w'.freed.Perm _
          rw [hfreed.freed, hmore.freed, List.append_assoc, List.append_assoc]
          exact List.Perm.append_left _ List.perm_append_comm
        · exact hheap ▸ hmore.fresh
      · rename_i halloc
        have hgoes : ¬ o.Fails useBarriers evenEmpty loaded.begins := by
          rintro (hempty | hfails | hfails)
          · exact hsome hempty
          · exact hfails hmalloc
          · exact hfails halloc
        refine ⟨_, yields_pure.mpr rfl, Or.inr ⟨hgoes, rfl, ?_, _, rfl, rfl, ?_⟩⟩
        · rw [hheap]
        · obtain ⟨hbuilt, hend⟩ := evfLineCreate_chain hchain (Filter.commit priv) Filter.barrier useBarriers
          rw [hheap] at hbuilt hend ⊢
          exact ⟨hend, hbuilt⟩

/-! ## The whole call -/

theorem tidy_without (hret : r.ret = none) (hclosed : ∀ fd, o.opened = .ok fd → r.world.closed.count (fd : Int) = 1)
    (hobtained : r.world.obtained = []) (hfreed : r.world.freed = []) (hlines : r.world.lines = 0) : Tidy o r where
  line := by
    intro line hline
    rw [hret] at hline
    cases hline
  closed := fun _ => hclosed
  freed := fun _ => by rw [hobtained, hfreed]
  distinct := hobtained ▸ List.nodup_nil
  memory := fun _ => hlines

theorem createLoaded_tidy_iff {opened : Nat} (hopened : o.opened = .ok opened) (hfd : fd = opened)
    (hheap : w.heap = loaded.heap) (hobtained : w.obtained = addrs loaded.filters) (hfreed : w.freed = [])
    (hlines : w.lines = 0) (hclosed : w.closed = if o.version then [] else [fd]) :
    (createLoaded filterFree o priv useBarriers evenEmpty fd loaded w).Returns (Tidy o) ↔ o.version = true := by
  obtain ⟨r, hyields, hr⟩ := createLoaded_cases filterFree o priv useBarriers evenEmpty fd loaded hheap
  have hcount : ∀ fd', o.opened = .ok fd' → (fd' : Int) = fd := by
    intro fd' h
    rw [hopened] at h
    rw [hfd, Except.ok.inj h]
  constructor
  · rintro ⟨r', hyields', htidy⟩
    obtain rfl := Except.ok.inj (hyields'.unique hyields)
    rcases hr with ⟨-, hup⟩ | ⟨-, hbuilt⟩
    · have hone := htidy.closed hup.ret opened hopened
      rw [hup.closed, hclosed, ← hfd] at hone
      cases hv : o.version with
      | true => rfl
      | false => simp [hv] at hone
    · obtain ⟨line, hret, -⟩ := hbuilt.line
      obtain ⟨_, -, -, -, hversion⟩ := htidy.line line hret
      exact hversion
  · intro hversion
    rw [if_pos hversion] at hclosed
    refine ⟨r, hyields, ?_⟩
    rcases hr with ⟨-, hup⟩ | ⟨-, hbuilt⟩
    · obtain ⟨more, hobt, hperm, hfresh, hnodup⟩ := hup.more
      refine ⟨fun line hline => ?_, fun _ fd' hfd' => ?_, fun _ => ?_, ?_, fun _ => hup.lines.trans hlines⟩
      · rw [hup.ret] at hline
        cases hline
      · rw [hup.closed, hclosed, hcount fd' hfd', List.nil_append, List.count_singleton_self]
      · rw [hobt, hobtained]
        rwa [hfreed, List.nil_append] at hperm
      · rw [hobt, hobtained]
        refine List.nodup_append.mpr ⟨loaded.chain.nodup, hnodup, fun a ha b hb hab => ?_⟩
        obtain ⟨_, _, _, hget⟩ := loaded.chain.get_of_addr (hab ▸ ha)
        exact absurd (lt_size_of_get? hget) (Nat.not_lt.mpr (hfresh b hb))
    · obtain ⟨line, hret, hlinefd, -, hchain⟩ := hbuilt.line
      have hsome : r.ret ≠ none := by simp [hret]
      refine ⟨fun line' hline' => ?_, fun h => absurd h hsome, fun h => absurd h hsome, ?_, fun h => absurd h hsome⟩
      · obtain rfl := Option.some.inj (hret.symm.trans hline')
        exact ⟨opened, hopened, hlinefd.trans hfd, by rw [hbuilt.closed, hclosed]; exact List.not_mem_nil, hversion⟩
      · rw [hbuilt.obtained, hobtained]
        have hnodup := hchain.nodup
        rwa [addrs, List.map_append] at hnodup

/-- All goes well but for a descriptor that is no input device's. -/
theorem evfLineCreate_tidy_iff (filterFree : α → Option (σ → Ptr × σ)) (o : Outcomes α) (priv : Ptr)
    (useBarriers : UInt32) (evenEmpty : Bool) (heap : Heap (Filter α)) (state : σ) :
    (evfLineCreate filterFree o priv useBarriers evenEmpty (World.start heap state)).Returns (Tidy o) ↔
      ¬ (o.version = false ∧ ∃ fd, o.opened = .ok fd) := by
  cases hopened : o.opened with
  | error errno =>
      have hnone : ∀ fd, o.opened ≠ .ok fd := fun fd h => by
        rw [hopened] at h
        cases h
      refine iff_of_true ?_ fun ⟨_, fd, hfd⟩ => by cases hfd
      simp only [evfLineCreate, openInputDevice, hopened]
      split
      · exact returns_pure.mpr (tidy_without rfl (fun fd h => absurd h (hnone fd)) rfl rfl rfl)
      · exact returns_pure.mpr (tidy_without rfl (fun fd h => absurd h (hnone fd)) rfl rfl rfl)
  | ok fd =>
      have hversion : ¬ (o.version = false ∧ ∃ fd', (Except.ok fd : Except Int32 Nat) = .ok fd') ↔ o.version = true := by
        simp
      have hopen : openInputDevice o (World.start heap state) = ((fd : Int),
          { World.start heap state with closed := if o.version then [] else [(fd : Int)] }) := by
        simp only [openInputDevice, hopened]
        cases o.version <;> rfl
      have hpos : ¬ (fd : Int) < 0 := Int.not_lt.mpr (Int.natCast_nonneg fd)
      rw [hversion, evfLineCreate, hopen]
      simp only [if_neg hpos]
      cases hprofile : o.profile with
      | error err =>
          refine returns_pure.trans ⟨fun htidy => ?_, fun h => tidy_without rfl (fun fd' hfd' => ?_) rfl rfl rfl⟩
          · have hone := htidy.closed rfl fd hopened
            cases hv : o.version with
            | true => rfl
            | false => simp [hv, World.close] at hone
          · obtain rfl := Except.ok.inj (hopened.symm.trans hfd')
            simp [h, World.close]
      | ok loaded => exact createLoaded_tidy_iff hopened rfl rfl rfl rfl rfl rfl

/-- A file that is no input device, and no filters for it. -/
def noDevice : Outcomes Unit where
  opened := .ok 5
  version := false
  profile := .ok ⟨Heap.empty, none, [], rfl⟩
  mallocLine := none
  allocCommit := none
  allocBarrier := none

/-- Either there is a line with a descriptor that has been closed, or the descriptor is closed twice. -/
theorem not_evfLineCreate_tidy :
    (evfLineCreate (fun _ => none) noDevice 7 0 true (World.start Heap.empty ())).Returns
        (fun r => (∃ line, r.ret = some line ∧ line.fd = 5) ∧ r.world.closed = [5]) ∧
      (evfLineCreate (fun _ => none) noDevice 7 0 false (World.start Heap.empty ())).Returns
        (fun r => r.ret = none ∧ r.world.closed = [5, 5]) ∧
      ¬ ∀ (o : Outcomes Unit) (priv : Ptr) (useBarriers : UInt32) (evenEmpty : Bool),
        (evfLineCreate (fun _ => none) o priv useBarriers evenEmpty (World.start Heap.empty ())).Returns (Tidy o) := by
  refine ⟨returns_pure.mpr ⟨⟨_, rfl, rfl⟩, rfl⟩, returns_pure.mpr ⟨rfl, rfl⟩, fun h => ?_⟩
  have htidy := returns_pure.mp (h noDevice 7 0 false)
  exact absurd (htidy.closed rfl 5 rfl) (by decide)

/-! ## The line of evfd -/

def Outcomes.device (o : Outcomes α) : Evfd.Devices.Device := { fd := o.opened.toOption, version := o.version }

/-- The filters by what they give back. -/
def Outcomes.setup (o : Outcomes α) (givesBack : Filter α → Ptr) : Evfd.Devices.Setup where
  profile := o.profile.toOption.map fun loaded => loaded.filters.map fun filter => givesBack filter.2
  mallocLine := o.mallocLine.isNone
  allocCommit := o.allocCommit.isNone
  allocBarrier := o.allocBarrier.isNone

/-- The descriptors are closed one after the other. Closing -1 does nothing. -/
def closes (k : Evfd.Kernel) (fds : List Int) : Evfd.Kernel :=
  fds.foldl (fun k fd => if fd < 0 then k else k.close fd.toNat) k

/-- The kernel when `open` has come to this. -/
def Outcomes.openedIn (o : Outcomes α) (k : Evfd.Kernel) : Option Evfd.Kernel :=
  match o.opened with
  | .ok fd => k.opened fd .input
  | .error _ => some k

variable {s : Evfd.Devices.State} {k : Evfd.Kernel} {heap : Heap (Filter α)} {state : σ}

theorem allocFails_none : o.allocFails useBarriers = none ↔
    ¬ (o.allocCommit.isNone = false ∨ (useBarriers ≠ 0 ∧ o.allocBarrier.isNone = false)) := by
  unfold Outcomes.allocFails
  cases hc : o.allocCommit <;> cases hb : o.allocBarrier <;> by_cases hu : useBarriers = 0 <;> simp [hu]

theorem begins_none (loaded : Loaded α) : loaded.begins = none ↔ loaded.filters = [] := by
  have hchain := loaded.chain
  constructor
  · intro h
    rw [h] at hchain
    exact Chain.unique hchain rfl
  · intro h
    rw [h] at hchain
    exact hchain

theorem fails_iff (loaded : Loaded α) (givesBack : Filter α → Ptr) :
    o.Fails useBarriers evenEmpty loaded.begins ↔
      ((evenEmpty = false ∧ loaded.filters.map (fun filter => givesBack filter.2) = []) ∨
        (o.setup givesBack).mallocLine = false) ∨
        ((o.setup givesBack).allocCommit = false ∨ (useBarriers ≠ 0 ∧ (o.setup givesBack).allocBarrier = false)) := by
  rw [Outcomes.Fails, begins_none, List.map_eq_nil_iff, ne_eq, ne_eq, allocFails_none, not_not, or_assoc]
  cases hmalloc : o.mallocLine <;> simp [Outcomes.setup, hmalloc]

theorem closes_concat (k : Evfd.Kernel) (fds : List Int) (hfd : ¬ fd < 0) :
    closes k (fds ++ [fd]) = (closes k fds).close fd.toNat := by
  rw [closes, List.foldl_append]
  exact if_neg hfd

theorem openInputDevice_seen (hk : o.openedIn s.kernel = some k) : ∃ fd fds,
    (∀ w : World α σ, openInputDevice o w = (fd, { w with closed := w.closed ++ fds })) ∧
      Evfd.Devices.openInputDevice s.kernel o.device = some (closes k fds, fd) := by
  have hclosing (w : World α σ) : { w with closed := w.closed ++ [] } = w := by rw [List.append_nil]
  unfold Outcomes.openedIn at hk
  cases hopened : o.opened with
  | error errno =>
      rw [hopened] at hk
      obtain rfl : s.kernel = k := Option.some.inj hk
      have hseen : Evfd.Devices.openInputDevice s.kernel o.device = some (s.kernel, -1) := by
        simp only [Evfd.Devices.openInputDevice, Outcomes.device, hopened, Except.toOption]
      cases hversion : o.version with
      | true => exact ⟨-1, [], fun w => by simp only [openInputDevice, hopened, hversion, hclosing, if_true], hseen⟩
      | false =>
          have hnothing : closes s.kernel [-1] = s.kernel := by simp [closes]
          refine ⟨-1, [-1], fun w => by simp only [openInputDevice, hopened, hversion]; rfl, ?_⟩
          rw [hnothing, hseen]
  | ok fd =>
      rw [hopened] at hk
      have hfd : ¬ (fd : Int) < 0 := Int.not_lt.mpr (Int.natCast_nonneg fd)
      have hseen : Evfd.Devices.openInputDevice s.kernel o.device =
          some (if o.version then (k, (fd : Int)) else (k.close fd, (fd : Int))) := by
        simp only [Evfd.Devices.openInputDevice, Outcomes.device, hopened, Except.toOption]
        exact congrArg _ hk
      cases hversion : o.version with
      | true =>
          rw [hversion] at hseen
          exact ⟨fd, [], fun w => by simp only [openInputDevice, hopened, hversion, hclosing, if_true], hseen⟩
      | false =>
          rw [hversion] at hseen
          refine ⟨fd, [(fd : Int)], fun w => by simp only [openInputDevice, hopened, hversion]; rfl, ?_⟩
          exact hseen.trans (congrArg (fun k => some (k, (fd : Int))) (closes_concat k [] hfd).symm)

/-- The model of the lines of evfd closes the same descriptors, and has a line if there is one. -/
theorem evfLineCreate_seen (filterFree : α → Option (σ → Ptr × σ)) (givesBack : Filter α → Ptr) (priv : Ptr)
    (useBarriers : UInt32) (evenEmpty : Bool) (heap : Heap (Filter α)) (state : σ)
    (hk : o.openedIn s.kernel = some k) : ∃ seen r,
      Evfd.Devices.evfLineCreate s o.device (o.setup givesBack) priv useBarriers evenEmpty = some seen ∧
      (evfLineCreate filterFree o priv useBarriers evenEmpty (World.start heap state)).Yields (.ok r) ∧
      (seen.2 = none ↔ r.ret = none) ∧ seen.1.kernel = closes k r.world.closed := by
  obtain ⟨fd, fds, hopen, hseen⟩ := openInputDevice_seen (σ := σ) hk
  rw [Evfd.Devices.evfLineCreate, hseen, evfLineCreate, hopen]
  dsimp only [Option.map_some]
  by_cases hfd : fd < 0
  · rw [if_pos hfd, if_pos hfd]
    exact ⟨_, _, rfl, yields_pure.mpr rfl, iff_of_true rfl rfl, rfl⟩
  rw [if_neg hfd, if_neg hfd]
  cases hprofile : o.profile with
  | error err =>
      have hnone : (o.setup givesBack).profile = none := by simp [Outcomes.setup, hprofile, Except.toOption]
      rw [hnone]
      exact ⟨_, _, rfl, yields_pure.mpr rfl, iff_of_true rfl rfl, (closes_concat k fds hfd).symm⟩
  | ok loaded =>
      have hsome : (o.setup givesBack).profile = some (loaded.filters.map fun filter => givesBack filter.2) := by
        simp [Outcomes.setup, hprofile, Except.toOption]
      obtain ⟨r, hyields, hr⟩ := createLoaded_cases filterFree o priv useBarriers evenEmpty fd loaded
        (w := { World.start heap state with
          heap := loaded.heap, obtained := [] ++ addrs loaded.filters, closed := [] ++ fds }) rfl
      rw [hsome]
      dsimp only
      rw [← ite_or, ← ite_or]
      rcases hr with ⟨hfails, hup⟩ | ⟨hgoes, hbuilt⟩
      · rw [if_pos ((fails_iff loaded givesBack).mp hfails)]
        refine ⟨_, r, rfl, hyields, iff_of_true rfl hup.ret, ?_⟩
        rw [hup.closed]
        exact (closes_concat k fds hfd).symm
      · rw [if_neg (mt (fails_iff loaded givesBack).mpr hgoes)]
        obtain ⟨line, hline, -⟩ := hbuilt.line
        refine ⟨_, r, rfl, hyields, iff_of_false nofun (by simp [hline]), ?_⟩
        rw [hbuilt.closed]
        rfl

end Evfilter.Line.Resources
