import Evfilter.Line.Create

/-!
# Destroying a line

The commit filter stays the last one of a line, whatever is attached to it. So `evf_line_destroy` gives back what the
line was created with.
-/

namespace Evfilter.Line.Resources
open Lib Comp Heap Param

/-- What may become of a line with the filters `as₀`. Filters are attached, and in between memory of others is used. -/
inductive Attached {α : Type} (h₀ : Heap (Filter α)) (line₀ : EvfLine) (as₀ : List Addr) :
    Heap (Filter α) → EvfLine → List Addr → Prop
  | created : Attached h₀ line₀ as₀ h₀ line₀ as₀
  | other {h h' : Heap (Filter α)} {line : EvfLine} {as : List Addr} : Attached h₀ line₀ as₀ h line as →
      (∀ a ∈ as, h'.get? a = h.get? a) → Attached h₀ line₀ as₀ h' line as
  | attach {h : Heap (Filter α)} {line : EvfLine} {as : List Addr} {f : Addr} : Attached h₀ line₀ as₀ h line as →
      h.Live f → f ∉ as → Attached h₀ line₀ as₀ (evfLineAttachFilter h line f).1 (evfLineAttachFilter h line f).2 (f :: as)

variable {α σ : Type} {filterFree : α → Option (σ → Ptr × σ)} {h h₀ : Heap (Filter α)} {line line₀ : EvfLine}
  {as as₀ : List Addr} {f : Addr} {w : World α σ} {o : Outcomes α} {priv : Ptr} {useBarriers : UInt32}
  {evenEmpty : Bool} {r : Created α σ} {created : DeviceLine}

/-- The filters of the line, which end with the commit filter. The cached pointer is that to the last one of `front`. -/
structure Held (h : Heap (Filter α)) (line : EvfLine) (as : List Addr) (priv : Ptr)
    (front rest : List (Addr × Filter α)) : Prop where
  chain : h.Chain line.beginPtr (front ++ rest)
  cached : line.endPtr = front.getLast?.map Prod.fst
  all : (addrs (front ++ rest)).Perm as
  commit : rest.getLast?.map Prod.snd = some (.commit priv)

variable {front rest : List (Addr × Filter α)}

theorem closing_last (h : Heap (Filter α)) (priv : Ptr) (useBarriers : UInt32) :
    (closing h (.commit priv) Filter.barrier useBarriers).getLast?.map Prod.snd = some (.commit priv) := by
  unfold closing
  split
  · rfl
  · rfl

theorem Held.other {h' : Heap (Filter α)} (hh : Held h line as priv front rest)
    (hsame : ∀ a ∈ as, h'.get? a = h.get? a) : Held h' line as priv front rest where
  chain := hh.chain.frame fun a ha => hsame a (hh.all.mem_iff.mp ha)
  cached := hh.cached
  all := hh.all
  commit := hh.commit

theorem Held.attach (hh : Held h line as priv front rest) (hlive : h.Live f) (hf : f ∉ as) :
    ∃ front rest, Held (evfLineAttachFilter h line f).1 (evfLineAttachFilter h line f).2 (f :: as) priv front rest := by
  obtain ⟨⟨v, n, live⟩, hcell⟩ := hlive
  obtain rfl : live = true := (get?_eq_some.mp hcell).2
  have hnew : f ∉ addrs (front ++ rest) := fun hmem => hf (hh.all.mem_iff.mp hmem)
  rcases List.eq_nil_or_concat front with rfl | ⟨l, ⟨a, u⟩, rfl⟩
  · -- The first filter besides those every line has is put in front.
    have hattach : evfLineAttachFilter h line f =
        (h.setNext f line.beginPtr, { beginPtr := some f, endPtr := some f }) := by
      rw [evfLineAttachFilter, hh.cached]
      rfl
    rw [hattach]
    exact ⟨[(f, v)], rest, Chain.link_first hh.chain hcell hnew, rfl, hh.all.cons f, hh.commit⟩
  · rw [List.concat_eq_append] at hh hnew
    have hend : line.endPtr = some a := by rw [hh.cached, List.getLast?_concat]; rfl
    obtain ⟨hchain, hline⟩ := attach_chain hh.chain hend (List.forall_mem_singleton.mpr ⟨n, hcell⟩) hnew
    rw [hline]
    refine ⟨l ++ [(a, u)], (f, v) :: rest, hchain, hh.cached, ?_, ?_⟩
    · have hmiddle : (addrs (l ++ [(a, u)] ++ (f, v) :: rest)).Perm (f :: addrs (l ++ [(a, u)] ++ rest)) := by
        simp only [addrs, List.map_append, List.map_cons]
        exact List.perm_middle
      exact hmiddle.trans (hh.all.cons f)
    · cases rest with
      | nil => cases hh.commit
      | cons x rest => exact hh.commit

theorem Attached.held (ha : Attached h₀ line₀ as₀ h line as) (hh : Held h₀ line₀ as₀ priv front rest) :
    ∃ front rest, Held h line as priv front rest := by
  induction ha with
  | created => exact ⟨front, rest, hh⟩
  | other _ hsame ih =>
      obtain ⟨front, rest, hh⟩ := ih
      exact ⟨front, rest, hh.other hsame⟩
  | attach _ hlive hf ih =>
      obtain ⟨front, rest, hh⟩ := ih
      exact hh.attach hlive hf

theorem openInputDevice_obtained : (openInputDevice o w).2.obtained = w.obtained := by
  unfold openInputDevice
  split <;> (split <;> rfl)

theorem evfLineCreate_held
    (hcreated : (evfLineCreate filterFree o priv useBarriers evenEmpty w).Yields (.ok r)) (hstart : w.obtained = [])
    (hret : r.ret = some created) :
    ∃ front rest, Held r.world.heap created.toEvfLine r.world.obtained priv front rest := by
  have hnone : ∀ {err w'}, ¬ (pure ⟨none, err, w'⟩ : Comp Fault (Created α σ)).Yields (.ok r) := by
    intro err w' h
    rw [yields_pure] at h
    rw [Except.ok.inj h] at hret
    cases hret
  rw [evfLineCreate] at hcreated
  dsimp only at hcreated
  split at hcreated
  · exact absurd hcreated hnone
  · split at hcreated
    · exact absurd hcreated hnone
    · rename_i loaded _
      have hcases := createLoaded_cases filterFree o priv useBarriers evenEmpty (openInputDevice o w).1 loaded
        (w := { (openInputDevice o w).2 with
          heap := loaded.heap, obtained := (openInputDevice o w).2.obtained ++ addrs loaded.filters }) rfl
      obtain ⟨r', hyields, hr⟩ := hcases
      obtain rfl := Except.ok.inj (hcreated.unique hyields)
      rcases hr with ⟨-, hup⟩ | ⟨-, hbuilt⟩
      · exact absurd (hret.symm.trans hup.ret) (by simp)
      · obtain ⟨line, hline, -, hend, hchain⟩ := hbuilt.line
        obtain rfl := Option.some.inj (hret.symm.trans hline)
        refine ⟨_, _, hchain, hend, ?_, closing_last _ _ _⟩
        rw [hbuilt.obtained, openInputDevice_obtained, hstart, List.nil_append, addrs, List.map_append]

theorem Held.destroy (hh : Held w.heap line as priv front rest) (fd : Int) :
    (evfLineDestroy filterFree ⟨line, fd⟩ w).Returns fun d => d.1 = some priv ∧
      (∃ gone, d.2.freed = w.freed ++ gone ∧ gone.Perm as ∧ gone.Nodup) ∧ d.2.closed = w.closed ++ [fd] ∧
        d.2.lines = w.lines - 1 ∧ ∀ a ∈ as, d.2.heap.get? a = none := by
  obtain ⟨ret, w', hyields, hfreed⟩ := evfFiltersFree_chain filterFree hh.chain
  refine ⟨_, (yields_bind_ok hyields).mpr (yields_pure.mpr rfl), hfreed.ret priv ?_, ?_, ?_, ?_, fun a ha => ?_⟩
  · rw [List.getLast?_append]
    cases hlast : rest.getLast? with
    | none =>
        have hcommit := hh.commit
        rw [hlast] at hcommit
        cases hcommit
    | some x =>
        have hcommit := hh.commit
        rwa [hlast] at hcommit
  · exact ⟨addrs (front ++ rest), hfreed.freed, hh.all, hh.chain.nodup⟩
  · exact congrArg (· ++ [fd]) hfreed.closed
  · exact congrArg (· - 1) hfreed.lines
  · change w'.heap.get? a = none
    rw [hfreed.gone, if_pos (hh.all.mem_iff.mpr ha)]

/-- A line is created, filters are attached to it, and it is destroyed. -/
theorem evfLineDestroy_created (filterFree : α → Option (σ → Ptr × σ)) (o : Outcomes α) (priv : Ptr)
    (useBarriers : UInt32) (evenEmpty : Bool) (heap : Heap (Filter α)) (state : σ) (r : Created α σ)
    (created : DeviceLine) (w : World α σ) (line : EvfLine) (as : List Addr)
    (hcreated : (evfLineCreate filterFree o priv useBarriers evenEmpty (World.start heap state)).Yields (.ok r))
    (hret : r.ret = some created)
    (hattached : Attached r.world.heap created.toEvfLine r.world.obtained w.heap line as) :
    (evfLineDestroy filterFree ⟨line, created.fd⟩ w).Returns fun d => d.1 = some priv ∧
      (∃ gone, d.2.freed = w.freed ++ gone ∧ gone.Perm as ∧ gone.Nodup) ∧ d.2.closed = w.closed ++ [created.fd] ∧
        d.2.lines = w.lines - 1 ∧ ∀ a ∈ as, d.2.heap.get? a = none := by
  obtain ⟨front, rest, hheld⟩ := evfLineCreate_held hcreated rfl hret
  obtain ⟨front, rest, hheld⟩ := hattached.held hheld
  exact hheld.destroy created.fd

/-- A keyboard without a profile. -/
def keyboard : Outcomes Unit := { noDevice with version := true }

/-- A line for it, and a filter in memory that is attached to it. -/
def keyboardHeap : Heap (Filter Unit) :=
  ((Line.evfLineCreate Heap.empty none (.commit 7) Filter.barrier 0).1.alloc (.other ()) none).1

theorem evfLineDestroy_keyboard :
    (evfLineDestroy (fun _ => none) ⟨⟨some 1, some 1⟩, 5⟩ { World.start (keyboardHeap.setNext 1 (some 0)) () with
      obtained := [0, 1], lines := 1 }).Returns fun d => d.1 = some 7 ∧
        (∃ gone, d.2.freed = [] ++ gone ∧ gone.Perm [1, 0] ∧ gone.Nodup) ∧ d.2.closed = [] ++ [5] ∧
          d.2.lines = 1 - 1 ∧ ∀ a ∈ [1, 0], d.2.heap.get? a = none :=
  evfLineDestroy_created (fun _ => none) keyboard 7 0 true Heap.empty () _ ⟨⟨some 0, none⟩, 5⟩
    { World.start (keyboardHeap.setNext 1 (some 0)) () with obtained := [0, 1], lines := 1 } ⟨some 1, some 1⟩ [1, 0]
    (yields_pure.mpr rfl) rfl
    (.attach (f := 1) (show Attached _ _ _ keyboardHeap _ _ from .other .created (by decide)) (by decide) (by decide))

end Evfilter.Line.Resources
