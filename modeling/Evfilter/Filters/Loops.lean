import Evfilter.Filters.Network

/-!
# Lines that lead back into themselves

A CopyToHandle whose handle has a GetFromHandle of the same line sends its events to a place in its own line. If that
place is in front of it, or is its own, the event comes back to it without end.
-/

namespace Evfilter.Filters
open Lib Handle Relation

/-- The first filter of what is left of a line. -/
def firstOf (commit : FilterPtr) : List (FilterPtr × AnyFilter) → FilterPtr
  | [] => commit
  | (p, _) :: _ => p

/-- The filters are linked in this order, with the commit filter behind the last one. -/
def LinkedUp (w : Ref → Option Cell) (commit : FilterPtr) : List (FilterPtr × AnyFilter) → Prop
  | [] => True
  | (p, kind) :: line =>
    w (.filter (some p)) = some (.filter kind (some (firstOf commit line))) ∧ LinkedUp w commit line

def AnyFilter.sinks : AnyFilter → List Nat
  | dump file => [file]
  | _ => []

/-- The sinks of a line. -/
def sinksOf (line : List (FilterPtr × AnyFilter)) (data : Nat) : List Nat := data :: line.flatMap fun x => x.2.sinks

/-- A line in memory, of filters that hand on every event, with all that its handles lead to. -/
structure LineAt (r : Registry) (w : Ref → Option Cell) (line : List (FilterPtr × AnyFilter)) (commit : FilterPtr)
    (data : Nat) : Prop where
  linkedUp : LinkedUp w commit line
  last : w (.filter (some commit)) = some (.filter (.commit data) none)
  sinks : ∀ d ∈ sinksOf line data, ∃ out, w (.sink d) = some (.sink out)
  kinds : ∀ x ∈ line, x.2.Forwards ∧ ∀ d, x.2 ≠ .commit d
  handles : ∀ p priv, (p, .copyToHandle priv) ∈ line → ∀ send f, evfHandleSend r priv.handle = some (send, f) →
    f ∈ line.map Prod.fst

/-- Every CopyToHandle stands in front of the filter that its handle leads to. -/
def CopiesForward (r : Registry) (line : List (FilterPtr × AnyFilter)) : Prop :=
  ∀ before p priv after, line = before ++ (p, .copyToHandle priv) :: after →
    ∀ send f, evfHandleSend r priv.handle = some (send, f) → f ∈ after.map Prod.fst

variable {r : Registry} {w : Ref → Option Cell} {line before after : List (FilterPtr × AnyFilter)}
  {commit p : FilterPtr} {data : Nat} {kind : AnyFilter} {priv : CopyToHandle} {i j : Ref}

/-! ## The filters of a line -/

theorem LinkedUp.append (h : LinkedUp w commit (before ++ after)) : LinkedUp w commit after := by
  induction before with
  | nil => exact h
  | cons x before ih => exact ih h.2

theorem next_mem_targets (h : kind.Forwards) (next : FilterPtr) : Ref.filter (some next) ∈ kind.targets r (some next) := by
  cases kind with
  | inner f => exact Set.mem_insert _ _
  | dump file => exact Set.mem_insert_of_mem _ ⟨by simp, rfl⟩
  | copyToHandle priv => exact Set.mem_insert _ _
  | filterToHandle priv => exact h.elim
  | getFromHandle => exact rfl
  | commit data => exact Set.mem_insert_of_mem _ ⟨by simp, rfl⟩

/-- What a filter of the line calls. -/
theorem targets_cases (h : kind.Forwards ∧ ∀ d, kind ≠ .commit d) {next : FilterPtr}
    (hj : j ∈ kind.targets r (some next)) : j = .filter (some next) ∨ (∃ d ∈ kind.sinks, j = .sink d) ∨
      ∃ priv send f, kind = .copyToHandle priv ∧ evfHandleSend r priv.handle = some (send, f) ∧ j = .filter (some f) := by
  cases kind with
  | inner f =>
      rcases hj with rfl | ⟨hbad, -⟩
      · exact Or.inl rfl
      · exact absurd (Filter.Forwards.divisorsOk h.1) hbad
  | dump file =>
      rcases hj with rfl | ⟨-, rfl⟩
      · exact Or.inr (Or.inl ⟨file, List.mem_singleton.mpr rfl, rfl⟩)
      · exact Or.inl rfl
  | copyToHandle priv =>
      rcases hj with rfl | ⟨send, f, hsend, rfl⟩
      · exact Or.inl rfl
      · exact Or.inr (Or.inr ⟨priv, send, f, rfl, hsend, rfl⟩)
  | filterToHandle priv => exact h.1.elim
  | getFromHandle => exact Or.inl hj
  | commit data => exact absurd rfl (h.2 data)

/-- The first filter gets to all the others. -/
theorem getsTo_later (hkinds : ∀ x ∈ before, x.2.Forwards) (h : LinkedUp w commit (before ++ after)) :
    GetsTo r w (.filter (some (firstOf commit (before ++ after)))) (.filter (some (firstOf commit after))) := by
  induction before with
  | nil => exact .refl
  | cons x before ih =>
      obtain ⟨hx, hrest⟩ := List.forall_mem_cons.mp hkinds
      exact .head ⟨_, h.1, next_mem_targets hx _⟩ (ih hrest h.2)

/-! ## Which lines return -/

theorem acc_sink {d : Nat} {out : List InputEvent} (h : w (.sink d) = some (.sink out)) :
    Acc (fun j i => (filters r).Calls w i j) (.sink d) := ⟨_, fun _ hj => ((calls_iff h).mp hj).elim⟩

theorem LineAt.acc_commit (h : LineAt r w line commit data) :
    Acc (fun j i => (filters r).Calls w i j) (.filter (some commit)) := by
  refine ⟨_, fun j hj => ?_⟩
  rcases (calls_iff h.last).mp hj with rfl | ⟨hne, -⟩
  · obtain ⟨out, hout⟩ := h.sinks data List.mem_cons_self
    exact acc_sink hout
  · exact absurd rfl hne

/-- From the end of the line, each filter only calls filters that return. -/
theorem LineAt.acc (h : LineAt r w line commit data) (hcopies : CopiesForward r line) (heq : line = before ++ after)
    (hp : p ∈ after.map Prod.fst ∨ p = commit) : Acc (fun j i => (filters r).Calls w i j) (.filter (some p)) := by
  induction after generalizing before p with
  | nil =>
      rcases hp with hp | rfl
      · cases hp
      · exact h.acc_commit
  | cons x after ih =>
      obtain ⟨q, kind⟩ := x
      have hsplit : line = (before ++ [(q, kind)]) ++ after := by simpa using heq
      have hlater {p : FilterPtr} (hp : p ∈ after.map Prod.fst ∨ p = commit) := ih hsplit hp
      by_cases hq : p = q
      swap
      · refine hlater (hp.imp (fun hp => ?_) id)
        exact (List.mem_cons.mp hp).resolve_left hq
      subst hq
      have hcell := (heq ▸ h.linkedUp).append.1
      have hmem : (p, kind) ∈ line := heq ▸ List.mem_append_right before List.mem_cons_self
      refine ⟨_, fun j hj => ?_⟩
      rcases targets_cases (h.kinds _ hmem) ((calls_iff hcell).mp hj) with rfl | ⟨d, hd, rfl⟩ |
        ⟨priv, send, f, rfl, hsend, rfl⟩
      · cases after with
        | nil => exact hlater (Or.inr rfl)
        | cons y after => exact hlater (Or.inl List.mem_cons_self)
      · obtain ⟨out, hout⟩ := h.sinks d (List.mem_cons_of_mem _ (List.mem_flatMap.mpr ⟨_, hmem, hd⟩))
        exact acc_sink hout
      · exact hlater (Or.inl (hcopies before p priv after heq send f hsend))

/-- The filters and sinks of a line. -/
def refsOf (line : List (FilterPtr × AnyFilter)) (commit : FilterPtr) (data : Nat) : List Ref :=
  (commit :: line.map Prod.fst).map (fun p => .filter (some p)) ++ (sinksOf line data).map .sink

theorem LineAt.linked (h : LineAt r w line commit data) : Linked r w { i | i ∈ refsOf line commit data } where
  finite := List.finite_toSet _
  there := by
    have hfilter {p : FilterPtr} (hp : p ∈ commit :: line.map Prod.fst) :
        Ref.filter (some p) ∈ refsOf line commit data := List.mem_append_left _ (List.mem_map.mpr ⟨p, hp, rfl⟩)
    have hsink {d : Nat} (hd : d ∈ sinksOf line data) : Ref.sink d ∈ refsOf line commit data :=
      List.mem_append_right _ (List.mem_map.mpr ⟨d, hd, rfl⟩)
    intro i hi
    rcases List.mem_append.mp hi with hi | hi
    · obtain ⟨p, hp, rfl⟩ := List.mem_map.mp hi
      rcases List.mem_cons.mp hp with rfl | hp
      · refine ⟨_, h.last, fun j hj => ?_⟩
        rcases hj with rfl | ⟨hne, -⟩
        · exact hsink List.mem_cons_self
        · exact absurd rfl hne
      · obtain ⟨⟨p, kind⟩, hmem, rfl⟩ := List.mem_map.mp hp
        obtain ⟨before, after, rfl⟩ := List.append_of_mem hmem
        refine ⟨_, h.linkedUp.append.1, fun j hj => ?_⟩
        rcases targets_cases (h.kinds _ hmem) hj with rfl | ⟨d, hd, rfl⟩ | ⟨priv, send, f, rfl, hsend, rfl⟩
        · refine hfilter ?_
          cases after with
          | nil => exact List.mem_cons_self
          | cons y after => simp [firstOf]
        · exact hsink (List.mem_cons_of_mem _ (List.mem_flatMap.mpr ⟨_, hmem, hd⟩))
        · exact hfilter (List.mem_cons_of_mem _ (h.handles p priv hmem send f hsend))
    · obtain ⟨d, hd, rfl⟩ := List.mem_map.mp hi
      obtain ⟨out, hout⟩ := h.sinks d hd
      exact ⟨_, hout, fun j hj => hj.elim⟩
  running := by simp [refsOf]

theorem LineAt.forwards (h : LineAt r w line commit data) :
    ∀ i ∈ refsOf line commit data, ∀ cell, w i = some cell → cell.Forwards := by
  intro i hi cell hcell
  rcases List.mem_append.mp hi with hi | hi
  · obtain ⟨p, hp, rfl⟩ := List.mem_map.mp hi
    rcases List.mem_cons.mp hp with rfl | hp
    · cases h.last.symm.trans hcell
      trivial
    · obtain ⟨⟨p, kind⟩, hmem, rfl⟩ := List.mem_map.mp hp
      obtain ⟨before, after, rfl⟩ := List.append_of_mem hmem
      cases h.linkedUp.append.1.symm.trans hcell
      exact (h.kinds _ hmem).1
  · obtain ⟨d, hd, rfl⟩ := List.mem_map.mp hi
    obtain ⟨out, hout⟩ := h.sinks d hd
    cases hout.symm.trans hcell
    trivial

/-- A copy to a place further up comes round again. -/
theorem LineAt.loop (h : LineAt r w line commit data) (heq : line = before ++ (p, .copyToHandle priv) :: after)
    {send : Option SendFn} {f : FilterPtr} (hsend : evfHandleSend r priv.handle = some (send, f))
    (hf : f ∉ after.map Prod.fst) : ∃ j, GetsTo r w (.filter (some (firstOf commit line))) j ∧
      TransGen ((filters r).Calls w) j j := by
  subst heq
  have hkinds : ∀ x ∈ before ++ (p, .copyToHandle priv) :: after, x.2.Forwards := fun x hx => (h.kinds x hx).1
  have hback : (filters r).Calls w (.filter (some p)) (.filter (some f)) :=
    ⟨_, h.linkedUp.append.1, Set.mem_insert_of_mem _ ⟨send, f, hsend, rfl⟩⟩
  have hmem := h.handles p priv (by simp) send f hsend
  rw [List.map_append, List.map_cons, List.mem_append, List.mem_cons] at hmem
  rcases hmem with hmem | rfl | hmem
  · obtain ⟨⟨f, kind⟩, hx, rfl⟩ := List.mem_map.mp hmem
    obtain ⟨before, between, rfl⟩ := List.append_of_mem hx
    rw [List.append_assoc] at h hkinds
    refine ⟨.filter (some f), ?_, ?_⟩
    · rw [List.append_assoc]
      exact getsTo_later (fun x hx => hkinds x (List.mem_append_left _ hx)) h.linkedUp
    · refine .tail' ?_ hback
      have hpart : ∀ x ∈ (f, kind) :: between, x.2.Forwards := fun x hx =>
        hkinds x (List.mem_append_right _ (List.mem_append_left _ hx))
      exact getsTo_later hpart h.linkedUp.append
  · refine ⟨.filter (some f), getsTo_later (fun x hx => hkinds x (List.mem_append_left _ hx)) h.linkedUp, .single hback⟩
  · exact absurd hmem hf

end Evfilter.Filters
