import Evfilter.Filters.Network

/-!
# Lines in memory

A line of filters is a chain of `next` pointers that ends in a commit filter. What `modify` of its first filter does in
memory is what `process` does with the line, and lines with commit filters of their own are in nobody's way.
-/

namespace Evfilter.Filters
open Lib Handle Relation

/-- The filters of the line from `p` on, and what has been given to the sink of its commit filter. -/
def Chain (w : Ref → Option Cell) (data : Nat) : (n : Nat) → Option FilterPtr → Line n → Prop
  | 0, p, out => w (.filter p) = some (.filter (.commit data) none) ∧ w (.sink data) = some (.sink out)
  | n + 1, p, (f, line) => ∃ next, w (.filter p) = some (.filter (.inner f) next) ∧ Chain w data n next line

variable {r : Registry} {w w' v : Ref → Option Cell} {data data' n m : Nat} {p q : Option FilterPtr} {line : Line n}
  {line' : Line m} {ev : InputEvent} {i j : Ref} {c : Cell}

/-! ## Where a chain is -/

/-- What an event gets to in a chain: the filters further down, and the sink. -/
theorem Chain.getsTo (h : Chain w data n p line) (hok : DivisorsOk n line) (hi : GetsTo r w (.filter p) i) :
    (i = .sink data ∧ ∃ out, w i = some (.sink out)) ∨
      ∃ m q, ∃ line' : Line m, m ≤ n ∧ i = .filter q ∧ Chain w data m q line' ∧ DivisorsOk m line' := by
  induction hi with
  | refl => exact Or.inr ⟨n, p, line, Nat.le_refl n, rfl, h, hok⟩
  | tail _ hjk ih =>
      rcases ih with ⟨rfl, out, hout⟩ | ⟨m, q, line', hm, rfl, hchain, hok'⟩
      · exact ((calls_iff hout).mp hjk).elim
      · cases m with
        | zero =>
            rcases (calls_iff hchain.1).mp hjk with rfl | ⟨hne, -⟩
            · exact Or.inl ⟨rfl, _, hchain.2⟩
            · exact absurd rfl hne
        | succ m =>
            obtain ⟨next, hcell, hrest⟩ := hchain
            rcases (calls_iff hcell).mp hjk with rfl | ⟨hbad, -⟩
            · exact Or.inr ⟨m, next, line'.2, Nat.le_of_succ_le hm, rfl, hrest, hok'.2⟩
            · exact absurd hok'.1 hbad

/-- A filter is at one place of one chain. -/
theorem Chain.unique (h : Chain w data n p line) (h' : Chain w data' m p line') : n = m ∧ data = data' := by
  induction n generalizing m p with
  | zero =>
      cases m with
      | zero =>
          cases h.1.symm.trans h'.1
          exact ⟨rfl, rfl⟩
      | succ m =>
          obtain ⟨next, hcell, -⟩ := h'
          cases h.1.symm.trans hcell
  | succ n ih =>
      obtain ⟨next, hcell, hrest⟩ := h
      cases m with
      | zero => cases h'.1.symm.trans hcell
      | succ m =>
          obtain ⟨next', hcell', hrest'⟩ := h'
          obtain ⟨-, rfl⟩ := Cell.filter.inj (Option.some.inj (hcell.symm.trans hcell'))
          obtain ⟨rfl, rfl⟩ := ih hrest hrest'
          exact ⟨rfl, rfl⟩

/-- The first filter of a chain is not met again. -/
theorem Chain.apart_next {f : Filter} {next : Option FilterPtr} (hp : w (.filter p) = some (.filter (.inner f) next))
    (h : Chain w data n next line) (hok : DivisorsOk n line) : ¬ GetsTo r w (.filter next) (.filter p) := by
  intro hback
  rcases h.getsTo hok hback with ⟨hsink, -⟩ | ⟨m, q, line', hm, heq, hchain, -⟩
  · cases hsink
  · cases heq
    have hwhole : Chain w data (n + 1) p ((f, line) : Line (n + 1)) := ⟨next, hp, h⟩
    have hlen := (hwhole.unique hchain).1
    omega

theorem Chain.congr (h : Chain w data n p line) (hv : ∀ i, GetsTo r w (.filter p) i → v i = w i) :
    Chain v data n p line := by
  induction n generalizing p with
  | zero =>
      have hsink : GetsTo r w (.filter p) (.sink data) := .single ((calls_iff h.1).mpr (Set.mem_insert _ _))
      exact ⟨(hv _ .refl).trans h.1, (hv _ hsink).trans h.2⟩
  | succ n ih =>
      obtain ⟨next, hcell, hrest⟩ := h
      refine ⟨next, (hv _ .refl).trans hcell, ih hrest fun i hi => hv i ?_⟩
      exact .head ((calls_iff hcell).mpr (Set.mem_insert _ _)) hi

/-! ## What `modify` does -/

theorem send_commit {out : List InputEvent} (h : Chain w data 0 p out) : ∃ w',
    ((filters r).send (.filter p, ev) w).Yields (.ok (ev, w')) ∧ Chain w' data 0 p (out ++ [ev]) := by
  obtain ⟨hcommit, hsink⟩ := h
  have hrun : (filters r).run 1 (.sink data, ev) w =
      some (.ok (ev, Function.update w (.sink data) (some (.sink (out ++ [ev]))))) := by
    rw [Objects.run, hsink]
    rfl
  refine ⟨_, Objects.send_yields (n := 1) hcommit (Proc.against_call hrun), ?_, ?_⟩
  · exact Function.update_self ..
  · rw [Function.update_of_ne (by simp)]
    exact Function.update_self ..

/-- The call in memory follows `process` step by step. -/
theorem send_chain (h : Chain w data n p line) (hok : DivisorsOk n line) (ev : InputEvent) : ∃ w',
    ((filters r).send (.filter p, ev) w).Yields (.ok ((process n ev line).1, w')) ∧
      Chain w' data n p (process n ev line).2 := by
  induction n generalizing p w ev with
  | zero => exact send_commit h
  | succ n ih =>
      obtain ⟨f, line⟩ := line
      obtain ⟨next, hcell, hrest⟩ := h
      -- while `f` sends to the next filter, its own struct stays as it was
      let R : (Ref → Option Cell) → Line n → Prop := fun w line =>
        w (.filter p) = some (.filter (.inner f) next) ∧ Chain w data n next line ∧ DivisorsOk n line
      have hnext : ∀ c b d, R b d → ∃ m b', (filters r).run m (.filter next, c) b = some (.ok ((process n c d).1, b')) ∧
          R b' (process n c d).2 := by
        rintro c b d ⟨hp, hd, hdok⟩
        obtain ⟨w', ⟨m, hm⟩, hchain⟩ := ih hd hdok c
        refine ⟨m, w', hm, ((send_outside ⟨m, hm⟩).2 _ (hd.apart_next hp hdok)).trans hp, hchain, hdok.process c⟩
      obtain ⟨m, w₁, hrun, hkept, hchain, hafter⟩ := Proc.through_drive (g := fun ev => (Ref.filter next, ev))
        (f.modify ev) (show R w line from ⟨hcell, hrest, hok.2⟩) (fun _ _ _ _ => Objects.run_mono) hnext
      let after := process (n + 1) ev (f, line)
      have hbody : ((filters r).body (.filter (.inner f) next) ev).against ((filters r).run m) w =
          some (.ok ((.filter (.inner after.2.1) next, after.1), w₁)) := by
        refine (Proc.against_bind (a := (.inner after.2.1, after.1)) ?_).trans rfl
        rw [AnyFilter.modify, if_neg (hok.1.not_traps ev)]
        exact (Proc.against_bind hrun).trans rfl
      refine ⟨_, Objects.send_yields hcell hbody, next, Function.update_self .., hchain.congr (r := r) fun i hi => ?_⟩
      refine Function.update_of_ne (fun he => ?_) ..
      exact hchain.apart_next hkept hafter (he ▸ hi)

/-! ## Several lines -/

/-- Lines in memory, with their first filters, their own sinks, and what their filters have come to. -/
structure ChainedLines (κ : Type) where
  begins : κ → Option FilterPtr
  data : κ → Nat
  size : κ → Nat
  line : (k : κ) → Line (size k)

def ChainedLines.InMemory {κ : Type} (lines : ChainedLines κ) (w : Ref → Option Cell) : Prop :=
  ∀ k, Chain w (lines.data k) (lines.size k) (lines.begins k) (lines.line k)

def ChainedLines.DivisorsOk {κ : Type} (lines : ChainedLines κ) : Prop :=
  ∀ k, Filters.DivisorsOk (lines.size k) (lines.line k)

variable {κ : Type} {lines : ChainedLines κ} {evs : List (κ × InputEvent)} {k l : κ}

/-- Lines with commit filters of their own have no filter in common. -/
theorem ChainedLines.InMemory.apart (h : lines.InMemory w) (hok : lines.DivisorsOk)
    (hdata : Function.Injective lines.data) (hk : GetsTo r w (.filter (lines.begins k)) i) (hl : GetsTo r w (.filter (lines.begins l)) i) : k = l := by
  rcases (h k).getsTo (hok k) hk with ⟨rfl, -⟩ | ⟨m, q, line, -, rfl, hchain, -⟩
  · rcases (h l).getsTo (hok l) hl with ⟨heq, -⟩ | ⟨m, q, line, -, heq, -⟩
    · exact hdata (Ref.sink.inj heq)
    · cases heq
  · rcases (h l).getsTo (hok l) hl with ⟨heq, -⟩ | ⟨m', q', line', -, heq, hchain', -⟩
    · cases heq
    · cases heq
      exact hdata (hchain.unique hchain').2

variable [DecidableEq κ]

/-- One event through one line. -/
def ChainedLines.step (lines : ChainedLines κ) (e : κ × InputEvent) : ChainedLines κ :=
  { lines with line := Function.update lines.line e.1 (process (lines.size e.1) e.2 (lines.line e.1)).2 }

theorem ChainedLines.DivisorsOk.step (hok : lines.DivisorsOk) (e : κ × InputEvent) : (lines.step e).DivisorsOk := by
  intro k
  by_cases hk : k = e.1
  · subst hk
    simp only [ChainedLines.step, Function.update_self]
    exact (hok e.1).process e.2
  · simp only [ChainedLines.step, Function.update_of_ne hk]
    exact hok k

theorem ChainedLines.InMemory.step (h : lines.InMemory w) (hok : lines.DivisorsOk)
    (hdata : Function.Injective lines.data) (e : κ × InputEvent) :
    ∃ x, ((filters r).send (.filter (lines.begins e.1), e.2) w).Yields (.ok x) ∧ (lines.step e).InMemory x.2 := by
  obtain ⟨w', hw', hchain⟩ := send_chain (r := r) (h e.1) (hok e.1) e.2
  refine ⟨_, hw', fun k => ?_⟩
  by_cases hk : k = e.1
  · subst hk
    simp only [ChainedLines.step, Function.update_self]
    exact hchain
  · simp only [ChainedLines.step, Function.update_of_ne hk]
    exact (h k).congr (r := r) fun i hi => (send_outside hw').2 i fun hi' => hk (h.apart hok hdata hi hi')

/-- Whatever the order in which the lines get their events, each line in memory comes to what `process` makes of its
own events: the states of its filters and what it has committed. -/
theorem processEvents_chains (r : Registry) (lines : ChainedLines κ) (hok : lines.DivisorsOk)
    (hdata : Function.Injective lines.data) (h : lines.InMemory w) (evs : List (κ × InputEvent)) :
    (processEvents r (fun k => .filter (lines.begins k)) evs w).Returns fun w' => ∀ k,
      Chain w' (lines.data k) (lines.size k) (lines.begins k)
        (Proc.feed (process (lines.size k)) (eventsOf k evs) (lines.line k)) := by
  induction evs generalizing lines w with
  | nil => exact ⟨w, Comp.yields_pure.mpr rfl, h⟩
  | cons e evs ih =>
      obtain ⟨x, hx, hmem⟩ := h.step (r := r) hok hdata e
      obtain ⟨w', hw', hlines⟩ := ih (lines.step e) (hok.step e) hdata hmem
      refine ⟨w', Objects.sendAll_cons.mpr ⟨x.1, x.2, hx, hw'⟩, fun k => ?_⟩
      have hk := hlines k
      obtain ⟨l, ev⟩ := e
      by_cases hkl : k = l
      · subst hkl
        simp only [ChainedLines.step, Function.update_self] at hk
        rw [eventsOf_cons_self]
        exact hk
      · simp only [ChainedLines.step, Function.update_of_ne hkl] at hk
        rw [eventsOf_cons_ne (Ne.symm hkl)]
        exact hk

/-- The lines of `twoLines`. -/
def mirrorAndLock : ChainedLines Bool where
  begins second := some (if second then 2 else 0)
  data second := if second then 5 else 4
  size _ := 1
  line second :=
    (if second then .keyLock ⟨30, 0, false⟩ else .mirror ⟨false, false, true, false⟩, (([] : List InputEvent) : Line 0))

theorem twoLines_chains :
    (processEvents Registry.empty (fun k => .filter (mirrorAndLock.begins k)) inTurns twoLines).Returns fun w' => ∀ k,
      Chain w' (mirrorAndLock.data k) (mirrorAndLock.size k) (mirrorAndLock.begins k)
        (Proc.feed (process (mirrorAndLock.size k)) (eventsOf k inTurns) (mirrorAndLock.line k)) := by
  refine processEvents_chains Registry.empty mirrorAndLock (fun k => ?_) (by unfold Function.Injective; decide)
    (fun k => ?_) inTurns
  · cases k <;> exact ⟨trivial, trivial⟩
  · cases k with
    | false => exact ⟨some 1, rfl, rfl, rfl⟩
    | true => exact ⟨some 3, rfl, rfl, rfl⟩

end Evfilter.Filters
