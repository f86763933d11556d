import Evfilter.Lib.Comp
import Evfilter.Line.Attach
import Evfilter.Param.Table

/-!
# What a line holds

`evf_line_create` and `evf_line_destroy` with the descriptor, the filters and the memory of the line. What is obtained,
freed and closed is kept on record.
-/

namespace Evfilter.Line.Resources
open Lib Comp Heap Param

/-- `void *`. NULL is 0. -/
abbrev Ptr := Nat

inductive Filter (α : Type)
  | commit (data : Ptr)
  | barrier (history : UInt32)
  | other (filter : α)
deriving DecidableEq

/-- A pointer to a filter that has been freed is used. -/
inductive Fault
  | dangling

structure World (α σ : Type) where
  heap : Heap (Filter α)
  obtained : List Addr
  freed : List Addr
  closed : List Int
  /-- How many `struct evf_line` there are in memory. -/
  lines : Nat
  state : σ

/-- `struct evf_line` with the descriptor. -/
structure DeviceLine extends EvfLine where
  fd : Int

variable {α σ : Type}

/-- `filter->free`, if it is not NULL. That of the filters which can be loaded is a parameter. -/
def Filter.free (filterFree : α → Option (σ → Ptr × σ)) : Filter α → Option (σ → Ptr × σ)
  | commit data => some fun s => (data, s)
  | barrier _ => none
  | other filter => filterFree filter

namespace World

/-- `malloc` for a filter, which fails with an `errno`. -/
def alloc (w : World α σ) (v : Filter α) (fails : Option Int32) : World α σ × Option Addr :=
  match fails with
  | some _ => (w, none)
  | none => ({ w with heap := (w.heap.alloc v none).1, obtained := w.obtained ++ [w.heap.size] }, some w.heap.size)

/-- `free` of a pointer that may be NULL. -/
def free (w : World α σ) : Option Addr → World α σ
  | none => w
  | some a => { w with heap := w.heap.free a, freed := w.freed ++ [a] }

def close (w : World α σ) (fd : Int) : World α σ := { w with closed := w.closed ++ [fd] }

/-- `free(line)` -/
def freeLine (w : World α σ) : World α σ := { w with lines := w.lines - 1 }

end World

variable (filterFree : α → Option (σ → Ptr × σ))

/-! ## Freeing -/

def evfFilterFree (w : World α σ) : Option Addr → Except Fault (Ptr × World α σ)
  | none => .ok (0, w)
  | some filter =>
    match w.heap.get? filter with
    | none => .error .dangling
    | some cell =>
      let priv := match cell.val.free filterFree with
        | some call => call w.state
        | none => (0, w.state)
      .ok (priv.1, { w.free (some filter) with state := priv.2 })

/-- The variables `tmp` and `priv`. The latter is not initialised. -/
def freeNext : Option Addr × Option Ptr × World α σ →
    Except Fault ((Option Addr × Option Ptr × World α σ) ⊕ (Option Ptr × World α σ))
  | (none, priv, w) => .ok (.inr (priv, w))
  | (some del, _, w) =>
    match w.heap.get? del with
    | none => .error .dangling
    | some cell => (evfFilterFree filterFree w (some del)).map fun r => .inl (cell.next, some r.1, r.2)

def evfFiltersFree (root : Option Addr) (w : World α σ) : Comp Fault (Option Ptr × World α σ) :=
  loop (fun s => done (freeNext filterFree s)) (root, none, w)

def evfLineDestroy (line : DeviceLine) (w : World α σ) : Comp Fault (Option Ptr × World α σ) :=
  evfFiltersFree filterFree line.beginPtr w >>= fun r => pure (r.1, (r.2.close line.fd).freeLine)

/-! ## Creating -/

/-- The filters of a profile in memory. -/
structure Loaded (α : Type) where
  heap : Heap (Filter α)
  begins : Option Addr
  filters : List (Addr × Filter α)
  chain : heap.Chain begins filters

/-- What the calls of `evf_line_create` come to. A failure comes with an `errno`, that of the profile with what `err` is
filled with. `version` tells whether EVIOCGVERSION succeeds, as it does for an input device. -/
structure Outcomes (α : Type) where
  opened : Except Int32 Nat
  version : Bool
  profile : Except EvfErr (Loaded α)
  mallocLine : Option Int32
  allocCommit : Option Int32
  allocBarrier : Option Int32

/-- What is returned, what `err` is filled with if not with `evf_ok`, and what the call leaves. -/
structure Created (α σ : Type) where
  ret : Option DeviceLine
  err : Option EvfErr
  world : World α σ

/-- A descriptor without a version is closed, and returned all the same. -/
def openInputDevice (o : Outcomes α) (w : World α σ) : Int × World α σ :=
  let fd : Int := match o.opened with
    | .ok fd => fd
    | .error _ => -1
  if o.version then (fd, w) else (fd, w.close fd)

/-- The last `errno` if the commit filter or the barrier that was asked for cannot be allocated. -/
def Outcomes.allocFails (o : Outcomes α) (useBarriers : UInt32) : Option Int32 :=
  if useBarriers ≠ 0 then o.allocBarrier.or o.allocCommit else o.allocCommit

/-- The allocations, at least one of which fails, and the two calls of `free`. -/
def freeAllocated (o : Outcomes α) (priv : Ptr) (useBarriers : UInt32) (w : World α σ) : World α σ :=
  let (w, fcommit) := w.alloc (.commit priv) o.allocCommit
  let (w, fbarrier) := if useBarriers ≠ 0 then w.alloc (.barrier useBarriers) o.allocBarrier else (w, none)
  (w.free fcommit).free fbarrier

/-- From the profile on. `begin` is the list of its filters. -/
def createLoaded (o : Outcomes α) (priv : Ptr) (useBarriers : UInt32) (evenEmpty : Bool) (fd : Int)
    (loaded : Loaded α) (w : World α σ) : Comp Fault (Created α σ) :=
  if evenEmpty = false ∧ loaded.begins = none then pure { ret := none, err := none, world := w.close fd }
  else match o.mallocLine with
  | some errno => evfFiltersFree filterFree loaded.begins w >>= fun r =>
      pure { ret := none, err := some (.errno errno), world := r.2.close fd }
  | none =>
    let w := { w with lines := w.lines + 1 }
    match o.allocFails useBarriers with
    | some errno =>
      evfFiltersFree filterFree loaded.begins (freeAllocated o priv useBarriers w) >>= fun r =>
        pure { ret := none, err := some (.errno errno), world := r.2.freeLine.close fd }
    | none =>
      let created := Line.evfLineCreate w.heap loaded.begins (.commit priv) .barrier useBarriers
      pure {
        ret := some { created.2 with fd }
        err := none
        world := { w with
          heap := created.1
          obtained := w.obtained ++ addrs (closing w.heap (.commit priv) Filter.barrier useBarriers) } }

def evfLineCreate (o : Outcomes α) (priv : Ptr) (useBarriers : UInt32) (evenEmpty : Bool) (w : World α σ) :
    Comp Fault (Created α σ) :=
  let (fd, w) := openInputDevice o w
  if fd < 0 then
    pure { ret := none, err := (match o.opened with | .error errno => some (.errno errno) | .ok _ => none), world := w }
  else match o.profile with
  | .error err => pure { ret := none, err := some err, world := w.close fd }
  | .ok loaded => createLoaded filterFree o priv useBarriers evenEmpty fd loaded
      { w with heap := loaded.heap, obtained := w.obtained ++ addrs loaded.filters }

/-! ## The filters of a list are freed -/

variable {filterFree} {w w' : World α σ} {root : Option Addr} {l : List (Addr × Filter α)} {priv : Option Ptr}
  {a : Addr} {o : Outcomes α}

/-- The filters `l` have been freed, and `ret` is what the last one gave back. -/
structure Freed (w : World α σ) (l : List (Addr × Filter α)) (ret : Option Ptr) (w' : World α σ) : Prop where
  freed : w'.freed = w.freed ++ addrs l
  obtained : w'.obtained = w.obtained
  closed : w'.closed = w.closed
  lines : w'.lines = w.lines
  gone : ∀ b, w'.heap.get? b = if b ∈ addrs l then none else w.heap.get? b
  ret : ∀ data, l.getLast?.map Prod.snd = some (.commit data) → ret = some data

variable (filterFree) in
/-- The pointer to the next filter is read before the filter is freed. -/
theorem freeNext_some (priv : Option Ptr) {v : Filter α} {n : Option Addr} (hcell : w.heap.get? a = some ⟨v, n, true⟩) :
    ∃ ret state, freeNext filterFree (some a, priv, w) =
      .ok (.inl (n, some ret, { w.free (some a) with state := state })) ∧ ∀ data, v = .commit data → ret = data := by
  simp only [freeNext, evfFilterFree, hcell, Except.map]
  refine ⟨_, _, rfl, ?_⟩
  rintro data rfl
  rfl

theorem Freed.cons {v : Filter α} {ret : Ptr} {ret' : Option Ptr} {state : σ}
    (hret : ∀ data, v = .commit data → ret = data) (h : Freed { w.free (some a) with state := state } l ret' w')
    (hlast : l = [] → ret' = some ret) : Freed w ((a, v) :: l) ret' w' where
  freed := h.freed.trans (List.append_assoc _ _ _)
  obtained := h.obtained
  closed := h.closed
  lines := h.lines
  gone := by
    intro b
    rw [h.gone]
    change (if b ∈ addrs l then none else (w.heap.free a).get? b) = if b ∈ a :: addrs l then none else w.heap.get? b
    rw [get?_free]
    by_cases hb : b ∈ addrs l
    · simp [hb]
    · by_cases hab : a = b
      · simp [hab]
      · simp [hb, hab, Ne.symm hab]
  ret := by
    intro data hdata
    cases l with
    | nil => rw [hlast rfl, hret data (by simpa using hdata)]
    | cons x l => exact h.ret data (by simpa using hdata)

variable (filterFree) in
theorem free_loop (priv : Option Ptr) (h : w.heap.Chain root l) : ∃ ret w',
    (loop (fun s => done (freeNext filterFree s)) (root, priv, w)).Yields (.ok (ret, w')) ∧ Freed w l ret w' ∧
      (l = [] → ret = priv) := by
  induction l generalizing root w priv with
  | nil =>
      obtain rfl : root = none := h
      refine ⟨priv, w, (same_loop_inr rfl _).mpr (yields_pure.mpr rfl), ?_, fun _ => rfl⟩
      exact ⟨(List.append_nil _).symm, rfl, rfl, rfl, fun b => by simp, fun data hdata => by cases hdata⟩
  | cons x l ih =>
      obtain ⟨a, v⟩ := x
      obtain ⟨rfl, n, hcell, -⟩ := id h
      obtain ⟨ret, state, hnext, hret⟩ := freeNext_some filterFree priv hcell
      obtain ⟨ret', w', hyields, hfreed, hlast⟩ :=
        ih (w := { w.free (some a) with state := state }) (some ret) (h.unlink_first hcell)
      refine ⟨ret', w', (same_loop_inl (congrArg done hnext) _).mpr hyields, hfreed.cons hret hlast, ?_⟩
      intro hnil
      cases hnil

variable (filterFree) in
theorem evfFiltersFree_chain (h : w.heap.Chain root l) : ∃ ret w',
    (evfFiltersFree filterFree root w).Yields (.ok (ret, w')) ∧ Freed w l ret w' := by
  obtain ⟨ret, w', hyields, hfreed, -⟩ := free_loop filterFree none h
  exact ⟨ret, w', hyields, hfreed⟩

end Evfilter.Line.Resources
