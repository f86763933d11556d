import Evfilter.IoQueue.Pass

/-!
# Destroying a queue

`evf_io_queue_destroy` frees the member before the one that it looks at. When it has looked at the last one there is
no step left to free it in.
-/

namespace Evfilter.IoQueue
open Lib

/-- What is given back. -/
inductive Release
  | close (fd : Nat)
  | priv (priv : Priv)
  | memb (memb : Addr)
  | queue
deriving DecidableEq

structure Destroying where
  heap : Heap Memb
  here : Option Addr
  prev : Option Addr
  log : List Release

/-- `free()` of a member, which has to be live. That of `NULL` does nothing. -/
def freeMemb (h : Heap Memb) : Option Addr → Except Fault (Heap Memb × List Release)
  | none => .ok (h, [])
  | some a => (readCell h a).map fun _ => (h.free a, [.memb a])

/-- A release of something that is read from the member, if the flag is set. -/
def releaseIf (flags flag : Int32) (h : Heap Memb) (here : Addr) (release : Memb → Release) :
    Except Fault (List Release) :=
  if flags &&& flag ≠ 0 then (readCell h here).map fun c => [release c.val] else .ok []

def destroyStep (flags : Int32) (s : Destroying) : Except Fault (Destroying ⊕ Destroying) :=
  match s.here with
  | none => .ok (.inr s)
  | some here => do
    let closed ← releaseIf flags evfIoQueueClose s.heap here fun m => .close m.fd
    let freed ← releaseIf flags evfIoQueueDfree s.heap here fun m => .priv m.priv
    let after ← freeMemb s.heap s.prev
    -- `prev = here, here = here->next`
    let c ← readCell after.1 here
    return .inl ⟨after.1, c.next, some here, s.log ++ (closed ++ freed ++ after.2)⟩

structure Destroyed where
  heap : Heap Memb
  log : List Release

def evfIoQueueDestroy (q : Queue) (flags : Int32) : Comp Fault Destroyed := do
  let s ← Comp.loop (fun s => .done (destroyStep flags s)) ⟨q.heap, q.root, none, []⟩
  pure ⟨s.heap, s.log ++ [.queue]⟩

def closes : List Release → List Nat := List.filterMap fun
  | .close fd => some fd
  | _ => none

def freesPriv : List Release → List Priv := List.filterMap fun
  | .priv p => some p
  | _ => none

def freesMemb : List Release → List Addr := List.filterMap fun
  | .memb a => some a
  | _ => none

/-- Everything that belongs to the queue is released once, and descriptors and private data only if the flags say so. -/
structure ReleasesAll (q : Queue) (flags : Int32) (d : Destroyed) : Prop where
  membs : (freesMemb d.log).Perm (Heap.addrs q.members)
  queue : d.log.count .queue = 1
  closed : (closes d.log).Perm (if flags &&& evfIoQueueClose ≠ 0 then q.members.map (·.2.fd) else [])
  privs : (freesPriv d.log).Perm (if flags &&& evfIoQueueDfree ≠ 0 then q.members.map (·.2.priv) else [])

/-! ## One member -/

/-- What is released on behalf of a member itself. -/
def ownReleases (flags : Int32) (m : Memb) : List Release :=
  (if flags &&& evfIoQueueClose ≠ 0 then [.close m.fd] else []) ++
    (if flags &&& evfIoQueueDfree ≠ 0 then [.priv m.priv] else [])

/-- What is released on the way through the members `l`, when `prev` is the member before them. -/
def releases (flags : Int32) : Option Addr → List (Addr × Memb) → List Release
  | _, [] => []
  | prev, x :: l => ownReleases flags x.2 ++ prev.toList.map .memb ++ releases flags (some x.1) l

variable {flags flag : Int32} {h : Heap Memb} {here prev : Option Addr} {log : List Release} {a b : Addr} {m : Memb}
  {n : Option Addr} {l : List (Addr × Memb)} {q : Queue} {s : State}

theorem releaseIf_live {release : Memb → Release} (hc : h.get? a = some ⟨m, n, true⟩) :
    releaseIf flags flag h a release = .ok (if flags &&& flag ≠ 0 then [release m] else []) := by
  unfold releaseIf readCell
  rw [hc]
  split <;> rfl

/-- The heap without the member, if there is one. -/
def freed (h : Heap Memb) : Option Addr → Heap Memb
  | none => h
  | some a => h.free a

theorem freeMemb_live (hlive : ∀ p ∈ prev, h.Live p) :
    freeMemb h prev = .ok (freed h prev, prev.toList.map .memb) := by
  cases prev with
  | none => rfl
  | some p =>
      obtain ⟨c, hc⟩ := hlive p rfl
      simp only [freeMemb, readCell, hc]
      rfl

theorem get?_freed : (freed h prev).get? a = if prev = some a then none else h.get? a := by
  cases prev with
  | none => rfl
  | some p => simp only [freed, Heap.get?_free, Option.some.injEq]

theorem live_freed : (freed h prev).Live a ↔ h.Live a ∧ prev ≠ some a := by
  unfold Heap.Live
  rw [get?_freed]
  by_cases hp : prev = some a <;> simp [hp]

theorem destroyStep_live (hc : h.get? a = some ⟨m, n, true⟩) (hlive : ∀ p ∈ prev, h.Live p) (hne : prev ≠ some a) :
    destroyStep flags ⟨h, some a, prev, log⟩ =
      .ok (.inl ⟨freed h prev, n, some a, log ++ (ownReleases flags m ++ prev.toList.map .memb)⟩) := by
  have hagain : readCell (freed h prev) a = .ok ⟨m, n, true⟩ := by
    rw [readCell, get?_freed, if_neg hne, hc]
  simp only [destroyStep, releaseIf_live hc, freeMemb_live hlive, ok_bind, hagain]
  rfl

/-! ## What is released -/

theorem freesMemb_cons {x : Addr × Memb} : freesMemb (releases flags prev (x :: l)) =
    prev.toList ++ freesMemb (releases flags (some x.1) l) := by
  have hown : freesMemb (ownReleases flags x.2) = [] := by
    unfold ownReleases
    split <;> split <;> rfl
  have hprev : freesMemb (prev.toList.map .memb) = prev.toList := by cases prev <;> rfl
  simp only [freesMemb] at *
  rw [releases, List.filterMap_append, List.filterMap_append, hown, hprev, List.nil_append]

/-- The last of the members is missing. -/
theorem freesMemb_releases : freesMemb (releases flags prev l) = (prev.toList ++ Heap.addrs l).dropLast := by
  induction l generalizing prev with
  | nil => cases prev <;> rfl
  | cons x l ih =>
      rw [freesMemb_cons, ih]
      exact (List.dropLast_append_of_ne_nil (List.cons_ne_nil x.1 (Heap.addrs l))).symm

/-- Of what is not a member, each member gives its own. -/
theorem filterMap_releases {β : Type} {f : Release → Option β} (hf : ∀ a, f (.memb a) = none) :
    (releases flags prev l).filterMap f = l.flatMap fun x => (ownReleases flags x.2).filterMap f := by
  induction l generalizing prev with
  | nil => rfl
  | cons x l ih =>
      have hprev : (prev.toList.map Release.memb).filterMap f = [] := by cases prev <;> simp [hf]
      rw [releases, List.filterMap_append, List.filterMap_append, hprev, ih, List.append_nil, List.flatMap_cons]

theorem closes_releases : closes (releases flags prev l) =
    if flags &&& evfIoQueueClose ≠ 0 then l.map (·.2.fd) else [] := by
  have hown (m : Memb) : closes (ownReleases flags m) = if flags &&& evfIoQueueClose ≠ 0 then [m.fd] else [] := by
    unfold ownReleases
    split <;> split <;> rfl
  simp only [closes] at hown ⊢
  rw [filterMap_releases fun _ => rfl]
  simp only [hown]
  split
  · exact List.map_eq_flatMap.symm
  · exact List.flatMap_eq_nil_iff.mpr fun _ _ => rfl

theorem freesPriv_releases : freesPriv (releases flags prev l) =
    if flags &&& evfIoQueueDfree ≠ 0 then l.map (·.2.priv) else [] := by
  have hown (m : Memb) : freesPriv (ownReleases flags m) =
      if flags &&& evfIoQueueDfree ≠ 0 then [m.priv] else [] := by
    unfold ownReleases
    split <;> split <;> rfl
  simp only [freesPriv] at hown ⊢
  rw [filterMap_releases fun _ => rfl]
  simp only [hown]
  split
  · exact List.map_eq_flatMap.symm
  · exact List.flatMap_eq_nil_iff.mpr fun _ _ => rfl

theorem queue_notMem_releases : Release.queue ∉ releases flags prev l := by
  induction l generalizing prev with
  | nil => simp [releases]
  | cons x l ih =>
      have hown : Release.queue ∉ ownReleases flags x.2 := by
        unfold ownReleases
        split <;> split <;> simp
      simp [releases, hown, ih]

/-! ## The loop -/

theorem loop_destroy (log : List Release) (hc : h.Chain here l) (hlive : ∀ p ∈ prev, h.Live p)
    (hne : ∀ p ∈ prev, p ∉ Heap.addrs l) :
    ∃ s, (Comp.loop (fun s => .done (destroyStep flags s)) ⟨h, here, prev, log⟩).Yields (.ok s) ∧
      s.log = log ++ releases flags prev l ∧
      ∀ b, s.heap.Live b ↔ h.Live b ∧ b ∉ freesMemb (releases flags prev l) := by
  induction l generalizing h here prev log with
  | nil =>
      obtain rfl : here = none := hc
      exact ⟨_, (Comp.same_loop_inr rfl _).mpr (Comp.yields_pure.mpr rfl), (List.append_nil log).symm, by
        simp [releases, freesMemb]⟩
  | cons x l ih =>
      have hnodup := List.nodup_cons.mp hc.nodup
      obtain ⟨rfl, n, hn, hl⟩ := hc
      have hx : prev ≠ some x.1 := fun hp => hne _ hp List.mem_cons_self
      have hl' : (freed h prev).Chain n l := hl.frame fun b hb => by
        rw [get?_freed, if_neg]
        exact fun hp => hne _ hp (List.mem_cons_of_mem _ hb)
      have hlive' : ∀ p ∈ some x.1, (freed h prev).Live p := by
        intro p hp
        obtain rfl := Option.some.inj hp
        exact live_freed.mpr ⟨⟨_, hn⟩, hx⟩
      have hne' : ∀ p ∈ some x.1, p ∉ Heap.addrs l := by
        intro p hp
        obtain rfl := Option.some.inj hp
        exact hnodup.1
      have hstep : destroyStep flags ⟨h, some x.1, prev, log⟩ = _ := destroyStep_live hn hlive hx
      obtain ⟨s, hs, hlog, hheap⟩ := ih _ hl' hlive' hne'
      refine ⟨s, (Comp.same_loop_inl (congrArg Comp.done hstep) _).mpr hs, ?_, fun b => ?_⟩
      · rw [hlog, releases, List.append_assoc]
      · rw [hheap, live_freed, freesMemb_cons, List.mem_append, not_or, and_assoc]
        simp

/-! ## Whole runs -/

/-- The call comes to an end, and only the last member is not released. -/
theorem evfIoQueueDestroy_spec (flags : Int32) (hq : q.Ok) : ∃ d, (evfIoQueueDestroy q flags).Yields (.ok d) ∧
    freesMemb d.log = (Heap.addrs q.members).dropLast ∧ d.log.count .queue = 1 ∧
      closes d.log = (if flags &&& evfIoQueueClose ≠ 0 then q.members.map (·.2.fd) else []) ∧
      freesPriv d.log = (if flags &&& evfIoQueueDfree ≠ 0 then q.members.map (·.2.priv) else []) ∧
      ∀ a, d.heap.Live a ↔ q.heap.Live a ∧ a ∉ (Heap.addrs q.members).dropLast := by
  obtain ⟨s, hs, hlog, hheap⟩ := @loop_destroy flags _ _ none _ [] hq.rep.chain (by simp) (by simp)
  rw [List.nil_append] at hlog
  refine ⟨⟨s.heap, s.log ++ [.queue]⟩, (Comp.yields_bind_ok hs).mpr (Comp.yields_pure.mpr rfl), ?_, ?_, ?_, ?_,
    fun a => ?_⟩
  · rw [freesMemb, List.filterMap_append, hlog]
    exact (List.append_nil _).trans freesMemb_releases
  · rw [List.count_append, hlog, List.count_eq_zero.mpr queue_notMem_releases]
    rfl
  · rw [closes, List.filterMap_append, hlog]
    exact (List.append_nil _).trans closes_releases
  · rw [freesPriv, List.filterMap_append, hlog]
    exact (List.append_nil _).trans freesPriv_releases
  · rw [hheap, freesMemb_releases]
    rfl

/-- What stays allocated is the last member. -/
theorem evfIoQueueDestroy_leaks (flags : Int32) (hq : q.Ok) : ∃ d, (evfIoQueueDestroy q flags).Yields (.ok d) ∧
    ∀ a, d.heap.Live a ↔ (Heap.addrs q.members).getLast? = some a := by
  obtain ⟨d, hd, -, -, -, -, hheap⟩ := evfIoQueueDestroy_spec flags hq
  refine ⟨d, hd, fun a => ?_⟩
  rw [hheap, hq.live_iff]
  have hnodup := hq.rep.chain.nodup
  rcases List.eq_nil_or_concat (Heap.addrs q.members) with hnil | ⟨l, b, hl⟩
  · simp [hnil]
  · rw [List.concat_eq_append] at hl
    rw [hl] at hnodup ⊢
    have hb : b ∉ l := fun h => (List.nodup_append.mp hnodup).2.2 b h b (List.mem_singleton_self b) rfl
    rw [List.dropLast_concat, List.getLast?_concat, List.mem_append, List.mem_singleton, Option.some.injEq]
    constructor
    · rintro ⟨ha | rfl, hnot⟩
      · exact absurd ha hnot
      · rfl
    · rintro rfl
      exact ⟨Or.inr rfl, hb⟩

/-- A queue is destroyed as a whole only if it has no members. -/
theorem destroy_releases_iff (hs : machine.Reachable s) :
    (evfIoQueueDestroy s.queue flags).Returns (ReleasesAll s.queue flags) ↔ s.queue.members = [] := by
  obtain ⟨d, hd, hmembs, hqueue, hcloses, hprivs, -⟩ := evfIoQueueDestroy_spec flags (ok_reachable hs)
  constructor
  · rintro ⟨d', hd', hreleases⟩
    obtain rfl := Except.ok.inj (hd'.unique hd)
    have hlen := (hmembs ▸ hreleases.membs).length_eq
    rw [List.length_dropLast] at hlen
    have hnil : (Heap.addrs s.queue.members).length = 0 := by omega
    simpa [Heap.addrs] using hnil
  · intro hm
    rw [hm] at hmembs
    exact ⟨d, hd, by rw [hmembs, hm]; rfl, hqueue, by rw [hcloses], by rw [hprivs]⟩

theorem destroy_releases_new : (evfIoQueueDestroy machine.init.queue evfIoQueueClose).Returns
    (ReleasesAll machine.init.queue evfIoQueueClose) :=
  (destroy_releases_iff Machine.Reachable.init).mpr rfl

def oneAdded : State := (machine.run machine.init [.add 5 1 1 true]).getD machine.init

theorem oneAdded_reachable : machine.Reachable oneAdded :=
  Machine.reachable_iff.mpr ⟨[.add 5 1 1 true], by decide⟩

/-- The only member is never freed. -/
theorem not_destroy_releases : ¬ ∀ (s : State) (flags : Int32), machine.Reachable s →
    (evfIoQueueDestroy s.queue flags).Returns (ReleasesAll s.queue flags) := by
  intro h
  obtain ⟨d, hd, hreleases⟩ := h oneAdded 0 oneAdded_reachable
  have hrun : (evfIoQueueDestroy oneAdded.queue 0).Yields
      (.ok ⟨oneAdded.queue.heap, [.queue]⟩) := ⟨2, rfl⟩
  obtain rfl := Except.ok.inj (hd.unique hrun)
  exact absurd hreleases.membs.length_eq (by decide)

end Evfilter.IoQueue
