import Mathlib.Logic.Basic

/-!
# Computations that may not end

A computation is given by what it comes to with so much fuel, and what it comes to it comes to with more. It returns,
or breaks off with a fault, or runs forever. Loops have an unfolding rule, a rule with a measure for their end, one
with an invariant for running forever, and one for what holds of the results.
-/

namespace Lib

@[simp] theorem ok_bind {ε α β : Type} (a : α) (f : α → Except ε β) : (Except.ok a >>= f) = f a := rfl

@[simp] theorem error_bind {ε α β : Type} (e : ε) (f : α → Except ε β) :
    ((Except.error e : Except ε α) >>= f) = .error e := rfl

structure Comp (ε α : Type) where
  run : Nat → Option (Except ε α)
  mono : ∀ {n : Nat} {r : Except ε α}, run n = some r → run (n + 1) = some r

namespace Comp

variable {ε α β σ ρ : Type}

/-- The computation comes to `r`. -/
def Yields (x : Comp ε α) (r : Except ε α) : Prop := ∃ n, x.run n = some r

def Stops (x : Comp ε α) : Prop := ∃ r, x.Yields r

/-- It comes to no fault. -/
def Safe (x : Comp ε α) : Prop := ∀ e, ¬ x.Yields (.error e)

/-- It comes to a value. -/
def Terminates (x : Comp ε α) : Prop := ∃ a, x.Yields (.ok a)

/-- It comes to a value that meets `Q`. -/
def Returns (x : Comp ε α) (Q : α → Prop) : Prop := ∃ a, x.Yields (.ok a) ∧ Q a

def done (r : Except ε α) : Comp ε α where
  run := fun _ => some r
  mono := fun h => h

def fault (e : ε) : Comp ε α := done (.error e)

/-- Go on with the value, if there is one. -/
def next (f : α → Comp ε β) (n : Nat) : Except ε α → Option (Except ε β)
  | .error e => some (.error e)
  | .ok a => (f a).run n

theorem bind_mono {x : Comp ε α} {f : α → Comp ε β} {n : Nat} {r : Except ε β}
    (h : (x.run n).bind (next f n) = some r) : (x.run (n + 1)).bind (next f (n + 1)) = some r := by
  obtain ⟨a, ha, hr⟩ := Option.bind_eq_some_iff.mp h
  rw [x.mono ha]
  cases a with
  | error e => exact hr
  | ok a => exact (f a).mono hr

def bind (x : Comp ε α) (f : α → Comp ε β) : Comp ε β where
  run := fun n => (x.run n).bind (next f n)
  mono := bind_mono

instance : Monad (Comp ε) where
  pure := fun a => done (.ok a)
  bind := bind

instance : MonadLift (Except ε) (Comp ε) where
  monadLift := done

def loopRun (body : σ → Comp ε (σ ⊕ ρ)) : Nat → σ → Option (Except ε ρ)
  | 0, _ => none
  | n + 1, s =>
    match (body s).run n with
    | none => none
    | some (.error e) => some (.error e)
    | some (.ok (.inl s)) => loopRun body n s
    | some (.ok (.inr a)) => some (.ok a)

theorem loopRun_mono {body : σ → Comp ε (σ ⊕ ρ)} {n : Nat} {s : σ} {r : Except ε ρ}
    (h : loopRun body n s = some r) : loopRun body (n + 1) s = some r := by
  induction n generalizing s with
  | zero => cases h
  | succ n ih =>
      rw [loopRun] at h ⊢
      cases hbody : (body s).run n with
      | none => simp [hbody] at h
      | some o =>
          rw [(body s).mono hbody]
          rw [hbody] at h
          cases o with
          | error e => exact h
          | ok t =>
              cases t with
              | inl s => exact ih h
              | inr a => exact h

/-- The body is run again and again, until it comes to a result of the loop. -/
def loop (body : σ → Comp ε (σ ⊕ ρ)) (s : σ) : Comp ε ρ where
  run := fun n => loopRun body n s
  mono := loopRun_mono

variable {x : Comp ε α} {f : α → Comp ε β} {a : α} {e : ε} {r : Except ε α} {body : σ → Comp ε (σ ⊕ ρ)} {s t : σ}

/-! ## Results -/

theorem run_le {n m : Nat} (h : x.run n = some r) (hle : n ≤ m) : x.run m = some r := by
  induction hle with
  | refl => exact h
  | step _ ih => exact x.mono ih

theorem Yields.unique {r' : Except ε α} (h : x.Yields r) (h' : x.Yields r') : r = r' := by
  obtain ⟨n, hn⟩ := h
  obtain ⟨m, hm⟩ := h'
  have hboth := run_le hn (Nat.le_max_left n m)
  rw [run_le hm (Nat.le_max_right n m)] at hboth
  exact (Option.some.inj hboth).symm

@[simp] theorem yields_done {r' : Except ε α} : (done r).Yields r' ↔ r' = r := by
  constructor
  · rintro ⟨n, hn⟩
    exact (Option.some.inj hn).symm
  · rintro rfl
    exact ⟨0, rfl⟩

@[simp] theorem yields_pure : (pure a : Comp ε α).Yields r ↔ r = .ok a := yields_done

@[simp] theorem yields_fault : (fault e : Comp ε α).Yields r ↔ r = .error e := yields_done

theorem yields_bind {r : Except ε β} : (x >>= f).Yields r ↔
    (∃ a, x.Yields (.ok a) ∧ (f a).Yields r) ∨ ∃ e, x.Yields (.error e) ∧ r = .error e := by
  constructor
  · rintro ⟨n, hn⟩
    obtain ⟨o, ho, hr⟩ := Option.bind_eq_some_iff.mp hn
    cases o with
    | error e => exact Or.inr ⟨e, ⟨n, ho⟩, (Option.some.inj hr).symm⟩
    | ok a => exact Or.inl ⟨a, ⟨n, ho⟩, n, hr⟩
  · rintro (⟨a, ⟨n, hn⟩, m, hm⟩ | ⟨e, ⟨n, hn⟩, rfl⟩)
    · refine ⟨max n m, Option.bind_eq_some_iff.mpr ⟨_, run_le hn (Nat.le_max_left n m), ?_⟩⟩
      exact run_le hm (Nat.le_max_right n m)
    · exact ⟨n, Option.bind_eq_some_iff.mpr ⟨_, hn, rfl⟩⟩

/-- What is left of a loop after a run of its body. -/
def again (body : σ → Comp ε (σ ⊕ ρ)) : σ ⊕ ρ → Comp ε ρ
  | .inl s => loop body s
  | .inr a => pure a

theorem yields_loop {r : Except ε ρ} : (loop body s).Yields r ↔ (body s >>= again body).Yields r := by
  rw [yields_bind]
  constructor
  · rintro ⟨n, hn⟩
    cases n with
    | zero => cases hn
    | succ n =>
        change loopRun body (n + 1) s = some r at hn
        rw [loopRun] at hn
        cases hbody : (body s).run n with
        | none => simp [hbody] at hn
        | some o =>
            rw [hbody] at hn
            cases o with
            | error e => exact Or.inr ⟨e, ⟨n, hbody⟩, (Option.some.inj hn).symm⟩
            | ok t =>
                refine Or.inl ⟨t, ⟨n, hbody⟩, ?_⟩
                cases t with
                | inl s => exact ⟨n, hn⟩
                | inr a => exact yields_pure.mpr (Option.some.inj hn).symm
  · rintro (⟨t, ⟨n, hn⟩, ht⟩ | ⟨e, ⟨n, hn⟩, rfl⟩)
    · cases t with
      | inl t =>
          obtain ⟨m, hm⟩ := ht
          refine ⟨max n m + 1, ?_⟩
          change loopRun body (max n m + 1) s = some r
          rw [loopRun, run_le hn (Nat.le_max_left n m)]
          exact run_le (x := loop body t) hm (Nat.le_max_right n m)
      | inr a =>
          refine ⟨n + 1, ?_⟩
          change loopRun body (n + 1) s = some r
          rw [loopRun, hn, yields_pure.mp ht]
    · refine ⟨n + 1, ?_⟩
      change loopRun body (n + 1) s = some (.error e)
      rw [loopRun, hn]

/-! ## Computations that come to the same -/

def Same (x y : Comp ε α) : Prop := ∀ r, x.Yields r ↔ y.Yields r

theorem Same.refl (x : Comp ε α) : x.Same x := fun _ => Iff.rfl

theorem Same.symm {y : Comp ε α} (h : x.Same y) : y.Same x := fun r => (h r).symm

theorem Same.trans {y z : Comp ε α} (h : x.Same y) (h' : y.Same z) : x.Same z := fun r => (h r).trans (h' r)

theorem Same.bind {y : Comp ε α} (h : x.Same y) (f : α → Comp ε β) : (x >>= f).Same (y >>= f) := by
  intro r
  simp only [yields_bind, h _]

theorem Same.bind_right {f g : α → Comp ε β} (h : ∀ a, (f a).Same (g a)) : (x >>= f).Same (x >>= g) := by
  intro r
  simp only [yields_bind, h _ _]

theorem same_pure_bind (a : α) (f : α → Comp ε β) : (pure a >>= f : Comp ε β).Same (f a) := by
  intro r
  simp [yields_bind]

theorem same_bind_pure (x : Comp ε α) : (x >>= pure).Same x := by
  intro r
  rw [yields_bind]
  cases r with
  | error e => simp
  | ok a => simp

theorem same_bind_bind (x : Comp ε α) (f : α → Comp ε β) (g : β → Comp ε ρ) :
    (x >>= f >>= g).Same (x >>= fun a => f a >>= g) := by
  intro r
  simp only [yields_bind]
  constructor
  · rintro (⟨b, ⟨a, ha, hb⟩ | ⟨e, -, he⟩, hr⟩ | ⟨e, ⟨a, ha, hf⟩ | ⟨e', he, h⟩, rfl⟩)
    · exact Or.inl ⟨a, ha, Or.inl ⟨b, hb, hr⟩⟩
    · cases he
    · exact Or.inl ⟨a, ha, Or.inr ⟨e, hf, rfl⟩⟩
    · cases h
      exact Or.inr ⟨_, he, rfl⟩
  · rintro (⟨a, ha, ⟨b, hb, hr⟩ | ⟨e, he, rfl⟩⟩ | ⟨e, he, rfl⟩)
    · exact Or.inl ⟨b, Or.inl ⟨a, ha, hb⟩, hr⟩
    · exact Or.inr ⟨e, Or.inl ⟨a, ha, he⟩, rfl⟩
    · exact Or.inr ⟨e, Or.inr ⟨e, he, rfl⟩, rfl⟩

theorem same_loop (body : σ → Comp ε (σ ⊕ ρ)) (s : σ) : (loop body s).Same (body s >>= again body) :=
  fun _ => yields_loop

/-- A loop whose body is over at once and goes on. -/
theorem same_loop_inl (h : body s = done (.ok (.inl t))) : (loop body s).Same (loop body t) := by
  refine (same_loop body s).trans ?_
  rw [h]
  exact same_pure_bind (Sum.inl t) (again body)

theorem same_loop_inr {b : ρ} (h : body s = done (.ok (.inr b))) : (loop body s).Same (pure b) := by
  refine (same_loop body s).trans ?_
  rw [h]
  exact same_pure_bind (Sum.inr b) (again body)

theorem same_loop_error (h : body s = done (.error e)) : (loop body s).Same (fault e) := by
  refine (same_loop body s).trans fun r => ?_
  rw [h, yields_bind]
  simp

/-- Loops that keep in step. -/
theorem same_loops (R : σ → σ → Prop)
    (hbody : ∀ s t, R s t → ∃ r r', body s = done r ∧ body t = done r' ∧
      (r = r' ∨ ∃ s' t', r = .ok (.inl s') ∧ r' = .ok (.inl t') ∧ R s' t')) (hR : R s t) :
    (loop body s).Same (loop body t) := by
  have hrun (n : Nat) : ∀ s t, R s t → loopRun body n s = loopRun body n t := by
    induction n with
    | zero => exact fun _ _ _ => rfl
    | succ n ih =>
        intro s t hR
        obtain ⟨r, r', hs, ht, rfl | ⟨s', t', rfl, rfl, hR'⟩⟩ := hbody s t hR
        · rw [loopRun, loopRun, hs, ht]
        · rw [loopRun, loopRun, hs, ht]
          exact ih s' t' hR'
  exact fun r => exists_congr fun n => by
    change loopRun body n s = some r ↔ loopRun body n t = some r
    rw [hrun n s t hR]

/-! ## Rules -/

theorem yields_bind_ok {r : Except ε β} (h : x.Yields (.ok a)) : (x >>= f).Yields r ↔ (f a).Yields r := by
  rw [yields_bind]
  constructor
  · rintro (⟨b, hb, hr⟩ | ⟨e, he, -⟩)
    · rwa [Except.ok.inj (hb.unique h)] at hr
    · cases he.unique h
  · exact fun hr => Or.inl ⟨a, h, hr⟩

theorem Stops.of_bind (h : (x >>= f).Stops) : x.Stops := by
  obtain ⟨r, hr⟩ := h
  rcases yields_bind.mp hr with ⟨a, ha, -⟩ | ⟨e, he, -⟩
  · exact ⟨_, ha⟩
  · exact ⟨_, he⟩

theorem Same.stops {y : Comp ε α} (h : x.Same y) (hy : y.Stops) : x.Stops := hy.imp fun r hr => (h r).mpr hr

/-- There is no fault, and `Q` of what it returns. With `total` it does return. -/
structure Meets (total : Prop) (x : Comp ε α) (Q : α → Prop) : Prop where
  ensures : ∀ r, x.Yields r → ∃ a, r = .ok a ∧ Q a
  stops : total → x.Stops

variable {total : Prop} {P Q : α → Prop} {R : β → Prop}

theorem Meets.bind (hx : x.Meets total P) (hf : ∀ a, P a → (f a).Meets total R) : (x >>= f).Meets total R where
  ensures := by
    intro r hr
    rcases yields_bind.mp hr with ⟨a, ha, hf'⟩ | ⟨e, he, -⟩
    · obtain ⟨_, heq, hP⟩ := hx.ensures _ ha
      cases heq
      exact (hf a hP).ensures r hf'
    · obtain ⟨_, heq, -⟩ := hx.ensures _ he
      cases heq
  stops := by
    intro htotal
    obtain ⟨r, hr⟩ := hx.stops htotal
    obtain ⟨a, rfl, hP⟩ := hx.ensures r hr
    obtain ⟨r, hr'⟩ := (hf a hP).stops htotal
    exact ⟨r, (yields_bind_ok hr).mpr hr'⟩

theorem meets_of_yields (h : x.Yields (.ok a)) (hQ : Q a) : x.Meets total Q where
  ensures := fun _ hr => ⟨a, hr.unique h, hQ⟩
  stops := fun _ => ⟨_, h⟩

theorem Meets.safe (h : x.Meets total Q) : x.Safe := by
  intro e he
  obtain ⟨_, heq, -⟩ := h.ensures _ he
  cases heq

theorem meets_pure (hQ : Q a) : (pure a : Comp ε α).Meets total Q := meets_of_yields (yields_pure.mpr rfl) hQ

theorem Meets.mono (h : x.Meets total P) (hPQ : ∀ a, P a → Q a) : x.Meets total Q where
  ensures := fun r hr => (h.ensures r hr).imp fun a ha => ⟨ha.1, hPQ a ha.2⟩
  stops := h.stops

theorem Meets.same {y : Comp ε α} (hy : y.Meets total Q) (h : x.Same y) : x.Meets total Q where
  ensures := fun r hr => hy.ensures r ((h r).mp hr)
  stops := fun ht => h.stops (hy.stops ht)

theorem returns_iff_meets : x.Returns Q ↔ x.Meets True Q := by
  constructor
  · rintro ⟨a, ha, hQ⟩
    exact meets_of_yields ha hQ
  · intro h
    obtain ⟨r, hr⟩ := h.stops trivial
    obtain ⟨a, rfl, hQ⟩ := h.ensures r hr
    exact ⟨a, hr, hQ⟩

theorem returns_pure {Q : α → Prop} : (pure a : Comp ε α).Returns Q ↔ Q a := by
  constructor
  · rintro ⟨b, hb, hQ⟩
    rw [yields_pure] at hb
    rwa [Except.ok.inj hb] at hQ
  · exact fun hQ => ⟨a, yields_pure.mpr rfl, hQ⟩

theorem returns_same {y : Comp ε α} {Q : α → Prop} (h : x.Same y) : x.Returns Q ↔ y.Returns Q :=
  exists_congr fun a => and_congr_left fun _ => h (.ok a)

theorem returns_bind {Q : β → Prop} : (x >>= f).Returns Q ↔ x.Returns fun a => (f a).Returns Q := by
  constructor
  · rintro ⟨b, hb, hQ⟩
    rcases yields_bind.mp hb with ⟨a, ha, hb⟩ | ⟨e, -, he⟩
    · exact ⟨a, ha, b, hb, hQ⟩
    · cases he
  · rintro ⟨a, ha, b, hb, hQ⟩
    exact ⟨b, yields_bind.mpr (Or.inl ⟨a, ha, hb⟩), hQ⟩

theorem Returns.terminates (h : x.Returns Q) : x.Terminates := h.imp fun _ ha => ha.1

theorem Terminates.stops (h : x.Terminates) : x.Stops := h.elim fun a ha => ⟨.ok a, ha⟩

/-- What the body keeps holds when the loop ends. -/
theorem loop_keeps (I : σ → Prop) (Q : ρ → Prop) (hkeep : ∀ s t, I s → (body s).Yields (.ok (.inl t)) → I t)
    (hend : ∀ s b, I s → (body s).Yields (.ok (.inr b)) → Q b) {b : ρ} (hs : I s)
    (h : (loop body s).Yields (.ok b)) : Q b := by
  obtain ⟨n, hn⟩ := h
  change loopRun body n s = some (.ok b) at hn
  induction n generalizing s with
  | zero => cases hn
  | succ n ih =>
      rw [loopRun] at hn
      split at hn
      · cases hn
      · cases hn
      · rename_i t ht
        exact ih (hkeep s t hs ⟨n, ht⟩) hn
      · rename_i b' hb
        cases hn
        exact hend s _ hs ⟨n, hb⟩

/-- A loop runs forever if there is an invariant with which its body, if it ends, goes on. -/
theorem loop_forever (I : σ → Prop)
    (hbody : ∀ s, I s → ∀ r, (body s).Yields r → ∃ t, r = .ok (.inl t) ∧ I t) (hs : I s) :
    ¬ (loop body s).Stops := by
  rintro ⟨r, n, hn⟩
  change loopRun body n s = some r at hn
  induction n generalizing s with
  | zero => cases hn
  | succ n ih =>
      rw [loopRun] at hn
      cases hrun : (body s).run n with
      | none => simp [hrun] at hn
      | some o =>
          obtain ⟨t, rfl, ht⟩ := hbody s hs o ⟨n, hrun⟩
          rw [hrun] at hn
          exact ih ht hn

end Comp

end Lib
