import Evfilter.Lib.Comp
import Evfilter.Lib.Proc
import Mathlib.Data.Fintype.Card
import Mathlib.Data.Set.Finite.Basic
import Mathlib.Logic.Relation

/-!
# Objects that call each other

An object has data, and answers a call by a procedure whose calls are those of other objects. Its data are read when it
is called and written when the call returns. Which objects it may call does not change, so the objects are a graph. A
call returns if there is no infinite path from the object, and it neither sees nor changes what cannot be reached.
-/

namespace Lib

open Relation

/-- Among finitely many, an infinite path is one that comes to a loop. -/
theorem acc_iff_no_loop {ι : Type} {R : ι → ι → Prop} {S : Set ι} (hS : S.Finite)
    (hclosed : ∀ i ∈ S, ∀ j, R i j → j ∈ S) {i : ι} (hi : i ∈ S) :
    Acc (fun j i => R i j) i ↔ ∀ j, ReflTransGen R i j → ¬ TransGen R j j := by
  constructor
  · intro h
    induction h with
    | intro i _ ih =>
        intro j hij hloop
        rcases hij.cases_head with rfl | ⟨k, hik, hkj⟩
        · obtain ⟨k, hik, hki⟩ := TransGen.head'_iff.mp hloop
          exact ih k hik (hclosed i hi k hik) i hki hloop
        · exact ih k hik (hclosed i hi k hik) j hkj hloop
  · intro h
    let T := { j // ReflTransGen R i j }
    have hsub : ∀ j, ReflTransGen R i j → j ∈ S := fun j hij => by
      induction hij with
      | refl => exact hi
      | tail _ hjk ih => exact hclosed _ ih _ hjk
    have : Finite T := hS.subset hsub
    let r : T → T → Prop := fun x y => TransGen R y.1 x.1
    have : IsTrans T r := ⟨fun _ _ _ hxy hyz => hyz.trans hxy⟩
    have : Std.Irrefl r := ⟨fun x => h x.1 x.2⟩
    have hwf : WellFounded r := Finite.wellFounded_of_trans_of_irrefl r
    have hacc (x : T) : Acc (fun j i => R i j) x.1 := by
      induction x using hwf.induction with
      | _ x ih => exact ⟨_, fun y hy => ih ⟨y, x.2.tail hy⟩ (.single hy)⟩
    exact hacc ⟨i, .refl⟩

namespace Proc

variable {γ γ' ρ α β ε : Type}

/-- `P` of each call and `Q` of the end, whatever the answers are. -/
def Obeys (P : γ → Prop) (Q : α → Prop) : Proc γ ρ α → Prop
  | done a => Q a
  | call c k => P c ∧ ∀ r, (k r).Obeys P Q

/-- One of the calls meets `P`, whatever the answers are. -/
def Must (P : γ → Prop) : Proc γ ρ α → Prop
  | done _ => False
  | call c k => P c ∨ ∀ r, (k r).Must P

/-- Against a callee that may fail or be out of fuel. -/
def against (next : γ → β → Option (Except ε (ρ × β))) : Proc γ ρ α → β → Option (Except ε (α × β))
  | done a, b => some (.ok (a, b))
  | call c k, b =>
    match next c b with
    | none => none
    | some (.error e) => some (.error e)
    | some (.ok (r, b)) => (k r).against next b

/-- Each call is replaced by a procedure. -/
def through (f : γ → Proc γ' ρ ρ) : Proc γ ρ α → Proc γ' ρ α
  | done a => done a
  | call c k => f c >>= fun r => (k r).through f

/-- With the last answer, or what there was before any. -/
def answered : ρ → Proc γ ρ α → Proc γ ρ (α × ρ)
  | r, done a => done (a, r)
  | _, call c k => call c fun r => (k r).answered r

variable {P P' : γ → Prop} {Q Q' : α → Prop} {p : Proc γ ρ α}

theorem perform_bind {δ : Type} (c : γ) (f : ρ → Proc γ ρ δ) : perform c >>= f = call c f := rfl

theorem obeys_perform {c : γ} (h : P c) : (perform c : Proc γ ρ ρ).Obeys P fun _ => True := ⟨h, fun _ => trivial⟩

theorem must_perform {c : γ} (h : P c) : (perform c : Proc γ ρ ρ).Must P := Or.inl h

theorem Obeys.mono (h : p.Obeys P Q) (hP : ∀ c, P c → P' c) (hQ : ∀ a, Q a → Q' a) : p.Obeys P' Q' := by
  induction p with
  | done a => exact hQ a h
  | call c k ih => exact ⟨hP c h.1, fun r => ih r (h.2 r)⟩

theorem Obeys.and (h : p.Obeys P Q) (h' : p.Obeys P' Q') : p.Obeys (fun c => P c ∧ P' c) fun a => Q a ∧ Q' a := by
  induction p with
  | done a => exact ⟨h, h'⟩
  | call c k ih => exact ⟨⟨h.1, h'.1⟩, fun r => ih r (h.2 r) (h'.2 r)⟩

theorem Obeys.bind {δ : Type} {f : α → Proc γ ρ δ} {R : δ → Prop} (h : p.Obeys P Q)
    (hf : ∀ a, Q a → (f a).Obeys P R) : (p >>= f).Obeys P R := by
  induction p with
  | done a => exact hf a h
  | call c k ih => exact ⟨h.1, fun r => ih r (h.2 r)⟩

theorem Obeys.through {f : γ → Proc γ' ρ ρ} {R : γ' → Prop} (h : p.Obeys P Q)
    (hf : ∀ c, P c → (f c).Obeys R fun _ => True) : (p.through f).Obeys R Q := by
  induction p with
  | done a => exact h
  | call c k ih => exact (hf c h.1).bind fun r _ => ih r (h.2 r)

theorem Obeys.answered {r : ρ} (h : p.Obeys P Q) : (p.answered r).Obeys P fun x => Q x.1 := by
  induction p generalizing r with
  | done a => exact h
  | call c k ih => exact ⟨h.1, fun r => ih r (h.2 r)⟩

theorem Obeys.drive (h : p.Obeys P Q) (next : γ → β → ρ × β) (b : β) : Q (p.drive next b).1 := by
  induction p generalizing b with
  | done a => exact h
  | call c k ih => exact ih _ (h.2 _) _

/-- No call is looked at. -/
theorem obeys_calls (p : Proc γ ρ α) : p.Obeys (fun _ => True) fun _ => True := by
  induction p with
  | done a => trivial
  | call c k ih => exact ⟨trivial, ih⟩

theorem Must.mono (h : p.Must P) (hP : ∀ c, P c → P' c) : p.Must P' := by
  induction p with
  | done a => exact h
  | call c k ih => exact h.imp (hP c) fun h r => ih r (h r)

theorem Must.bind {δ : Type} {f : α → Proc γ ρ δ} (h : p.Must P) : (p >>= f).Must P := by
  induction p with
  | done a => exact h.elim
  | call c k ih => exact h.imp id fun h r => ih r (h r)

theorem Must.bind_right {δ : Type} {f : α → Proc γ ρ δ} (h : ∀ a, (f a).Must P) : (p >>= f).Must P := by
  induction p with
  | done a => exact h a
  | call c k ih => exact Or.inr ih

theorem Must.through {f : γ → Proc γ' ρ ρ} {R : γ' → Prop} (h : p.Must P) (hf : ∀ c, P c → (f c).Must R) :
    (p.through f).Must R := by
  induction p with
  | done a => exact h.elim
  | call c k ih =>
      rcases h with h | h
      · exact (hf c h).bind
      · exact Must.bind_right fun r => ih r (h r)

/-! ## Runs -/

/-- Two runs that are both out of fuel, or have failed alike, or have come to the same. -/
inductive Both (E : ε → Prop) (R : α → β → β → Prop) :
    Option (Except ε (α × β)) → Option (Except ε (α × β)) → Prop
  | none : Both E R none none
  | error {e : ε} (h : E e) : Both E R (some (.error e)) (some (.error e))
  | ok {b b' : β} (a : α) (h : R a b b') : Both E R (some (.ok (a, b))) (some (.ok (a, b')))

variable {next next' : γ → β → Option (Except ε (ρ × β))} {b b' : β} {E : ε → Prop} {R : β → β → Prop} {I : β → Prop}

theorem against_both (hp : p.Obeys P Q)
    (hnext : ∀ c b b', P c → R b b' → Both E (fun _ => R) (next c b) (next' c b')) (hb : R b b') :
    Both E (fun a b b' => Q a ∧ R b b') (p.against next b) (p.against next' b') := by
  induction p generalizing b b' with
  | done a => exact .ok a ⟨hp, hb⟩
  | call c k ih =>
      have hc := hnext c b b' hp.1 hb
      rw [against, against]
      cases hx : next c b with
      | none =>
          rw [hx] at hc
          generalize next' c b' = y at hc
          cases hc
          exact .none
      | some o =>
          rw [hx] at hc
          generalize next' c b' = y at hc
          cases hc with
          | error h => exact .error h
          | ok r h => exact ih r (hp.2 r) h

theorem against_le (h : ∀ c b r, next c b = some r → next' c b = some r) {r : Except ε (α × β)}
    (hr : p.against next b = some r) : p.against next' b = some r := by
  induction p generalizing b with
  | done a => exact hr
  | call c k ih =>
      rw [against] at hr ⊢
      split at hr
      · cases hr
      · rename_i e hc
        rw [h c b _ hc]
        exact hr
      · rename_i s b' hc
        rw [h c b _ hc]
        exact ih s hr

theorem against_keeps {a : α} (hp : p.Obeys P Q) (hb : I b)
    (hnext : ∀ c b r b', I b → next c b = some (.ok (r, b')) → I b') (h : p.against next b = some (.ok (a, b'))) :
    Q a ∧ I b' := by
  induction p generalizing b with
  | done a' =>
      cases h
      exact ⟨hp, hb⟩
  | call c k ih =>
      rw [against] at h
      split at h
      · cases h
      · cases h
      · rename_i r b₁ hc
        exact ih r (hp.2 r) (hnext c b r b₁ hb hc) h

theorem fuel_le {next : Nat → γ → β → Option (Except ε (ρ × β))} {n m : Nat}
    (hmono : ∀ n c b r, next n c b = some r → next (n + 1) c b = some r) (h : n ≤ m) :
    ∀ c b r, next n c b = some r → next m c b = some r := by
  induction h with
  | refl => exact fun _ _ _ => id
  | step _ ih => exact fun c b r hr => hmono _ c b r (ih c b r hr)

theorem against_some {next : Nat → γ → β → Option (Except ε (ρ × β))} (hp : p.Obeys P Q) (hb : I b)
    (hmono : ∀ n c b r, next n c b = some r → next (n + 1) c b = some r)
    (hnext : ∀ c b, P c → I b → ∃ n r, next n c b = some r ∧ ∀ x, r = .ok x → I x.2) :
    ∃ n, (p.against (next n) b).isSome := by
  induction p generalizing b with
  | done a => exact ⟨0, rfl⟩
  | call c k ih =>
      obtain ⟨n, o, ho, hI⟩ := hnext c b hp.1 hb
      cases o with
      | error e =>
          refine ⟨n, ?_⟩
          rw [against, ho]
          rfl
      | ok x =>
          obtain ⟨m, hm⟩ := ih x.1 (hp.2 x.1) (hI x rfl)
          obtain ⟨y, hy⟩ := Option.isSome_iff_exists.mp hm
          refine ⟨max n m, ?_⟩
          rw [against, fuel_le hmono (Nat.le_max_left n m) c b _ ho]
          exact Option.isSome_of_eq_some (against_le (fuel_le hmono (Nat.le_max_right n m)) hy)

theorem against_call {c : γ} {k : ρ → Proc γ ρ α} {r : ρ} (h : next c b = some (.ok (r, b'))) :
    (call c k).against next b = (k r).against next b' := by
  rw [against, h]

theorem against_bind {δ : Type} {f : α → Proc γ ρ δ} {a : α} (h : p.against next b = some (.ok (a, b'))) :
    (p >>= f).against next b = (f a).against next b' := by
  induction p generalizing b with
  | done a' =>
      cases h
      rfl
  | call c k ih =>
      rw [against] at h
      rw [bind_call, against]
      split at h
      · cases h
      · cases h
      · exact ih _ h

/-- Calls that go on to another callee, which is in step with the one of a plain run. -/
theorem through_drive {next : Nat → γ' → β → Option (Except ε (ρ × β))} {δ : Type} {plain : γ → δ → ρ × δ} {g : γ → γ'}
    {R : β → δ → Prop} {b : β} {d : δ} (p : Proc γ ρ α) (hb : R b d)
    (hmono : ∀ n c b r, next n c b = some r → next (n + 1) c b = some r)
    (hnext : ∀ c b d, R b d → ∃ n b', next n (g c) b = some (.ok ((plain c d).1, b')) ∧ R b' (plain c d).2) :
    ∃ n b', (p.through fun c => perform (g c)).against (next n) b = some (.ok ((p.drive plain d).1, b')) ∧
      R b' (p.drive plain d).2 := by
  induction p generalizing b d with
  | done a => exact ⟨0, b, rfl, hb⟩
  | call c k ih =>
      obtain ⟨n, b₁, hn, hb₁⟩ := hnext c b d hb
      obtain ⟨m, b₂, hm, hb₂⟩ := ih (plain c d).1 hb₁
      refine ⟨max n m, b₂, ?_, hb₂⟩
      have hn' := fuel_le hmono (Nat.le_max_left n m) _ _ _ hn
      have hm' := against_le (fuel_le hmono (Nat.le_max_right n m)) hm
      rw [through, perform_bind, against_call hn']
      exact hm'

end Proc

/-! ## Calls -/

/-- `γ` are what the objects are called with, `ρ` the answers. An object that `always` calls its targets does so
whatever it is called with. -/
structure Objects (ι σ γ ρ : Type) where
  body : σ → γ → Proc (ι × γ) ρ (σ × ρ)
  targets : σ → Set ι
  always : σ → Prop
  obeys : ∀ s c, (body s c).Obeys (fun d => d.1 ∈ targets s) fun x => targets x.1 = targets s ∧ always x.1 = always s
  must : ∀ s c, always s → ∀ i ∈ targets s, (body s c).Must fun d => d.1 = i

namespace Objects

variable {ι σ γ ρ : Type} [DecidableEq ι] (O : Objects ι σ γ ρ)

/-- A call of an object that is not there is a fault. -/
def run : Nat → ι × γ → (ι → Option σ) → Option (Except ι (ρ × (ι → Option σ)))
  | 0, _, _ => none
  | n + 1, d, w =>
    match w d.1 with
    | none => some (.error d.1)
    | some s =>
      match (O.body s d.2).against (run n) w with
      | none => none
      | some (.error e) => some (.error e)
      | some (.ok (x, w)) => some (.ok (x.2, Function.update w d.1 (some x.1)))

variable {O} in
theorem run_mono {n : Nat} {d : ι × γ} {w : ι → Option σ} {r : Except ι (ρ × (ι → Option σ))}
    (h : O.run n d w = some r) : O.run (n + 1) d w = some r := by
  induction n generalizing d w r with
  | zero => cases h
  | succ n ih =>
      rw [run] at h ⊢
      cases hd : w d.1 with
      | none => simpa only [hd] using h
      | some s =>
          simp only [hd] at h ⊢
          cases hb : (O.body s d.2).against (O.run n) w with
          | none => simp only [hb] at h; cases h
          | some o =>
              rw [Proc.against_le (fun _ _ _ => ih) hb]
              simpa only [hb] using h

def send (d : ι × γ) (w : ι → Option σ) : Comp ι (ρ × (ι → Option σ)) := ⟨fun n => O.run n d w, run_mono⟩

/-- Several calls, one after the other. -/
def sendAll : List (ι × γ) → (ι → Option σ) → Comp ι (ι → Option σ)
  | [], w => pure w
  | d :: ds, w => O.send d w >>= fun x => sendAll ds x.2

/-- What a call leaves as it is. -/
def wiring (w : ι → Option σ) (i : ι) : Option (Set ι × Prop) := (w i).map fun s => (O.targets s, O.always s)

def Calls (w : ι → Option σ) (i j : ι) : Prop := ∃ s, w i = some s ∧ j ∈ O.targets s

/-- Nothing in `S` calls anything that is not. -/
def Closed (w : ι → Option σ) (S : Set ι) : Prop := ∀ i ∈ S, ∀ j, O.Calls w i j → j ∈ S

variable {O} {w v : ι → Option σ} {S : Set ι} {i j : ι} {c : γ} {d : ι × γ} {n : Nat}

/-! ## What a call sees and changes -/

omit [DecidableEq ι] in
theorem calls_wiring (h : O.wiring w = O.wiring v) : O.Calls w i j ↔ O.Calls v i j := by
  have hi := congrFun h i
  unfold wiring at hi
  unfold Calls
  cases hw : w i with
  | none =>
      rw [hw] at hi
      rw [Option.map_eq_none_iff.mp hi.symm]
  | some s =>
      rw [hw] at hi
      obtain ⟨s', hs', heq⟩ := Option.map_eq_some_iff.mp hi.symm
      rw [hs']
      simp [(Prod.mk.inj heq).1]

/-- Two stores that are the same on `S`, and elsewhere as at the start. -/
structure Apart (O : Objects ι σ γ ρ) (S : Set ι) (w v w' v' : ι → Option σ) : Prop where
  wiring : O.wiring w' = O.wiring w
  on : ∀ i ∈ S, v' i = w' i
  off : ∀ i ∉ S, w' i = w i ∧ v' i = v i

theorem Apart.update {w' v' : ι → Option σ} {s s' : σ} (h : O.Apart S w v w' v') (hi : i ∈ S) (hs : w i = some s)
    (hkeep : O.targets s' = O.targets s ∧ O.always s' = O.always s) :
    O.Apart S w v (Function.update w' i (some s')) (Function.update v' i (some s')) where
  wiring := by
    rw [← h.wiring]
    funext j
    by_cases hj : j = i
    · subst hj
      have hj := congrFun h.wiring j
      unfold Objects.wiring at hj ⊢
      rw [hj, Function.update_self, hs, Option.map_some, Option.map_some, hkeep.1, hkeep.2]
    · unfold Objects.wiring
      rw [Function.update_of_ne hj]
  on := by
    intro j hj
    by_cases hji : j = i
    · rw [hji, Function.update_self, Function.update_self]
    · rw [Function.update_of_ne hji, Function.update_of_ne hji, h.on j hj]
  off := by
    intro j hj
    have hji : j ≠ i := fun he => hj (he ▸ hi)
    rw [Function.update_of_ne hji, Function.update_of_ne hji]
    exact h.off j hj

theorem run_apart (hS : O.Closed w S) {w' v' : ι → Option σ} (h : O.Apart S w v w' v') (hd : d.1 ∈ S) :
    Proc.Both (fun j => j ∈ S ∧ w j = none) (fun _ => O.Apart S w v) (O.run n d w') (O.run n d v') := by
  induction n generalizing d w' v' with
  | zero => exact .none
  | succ n ih =>
      have hpresent := congrFun h.wiring d.1
      unfold wiring at hpresent
      rw [run, run, h.on d.1 hd]
      cases hs : w' d.1 with
      | none =>
          rw [hs] at hpresent
          exact .error ⟨hd, Option.map_eq_none_iff.mp hpresent.symm⟩
      | some s =>
          rw [hs] at hpresent
          obtain ⟨s₀, hs₀, heq⟩ := Option.map_eq_some_iff.mp hpresent.symm
          obtain ⟨htargets, halways⟩ := Prod.mk.inj heq
          have hcalls : ∀ c : ι × γ, c.1 ∈ O.targets s → c.1 ∈ S := fun c hc =>
            hS d.1 hd c.1 ⟨s₀, hs₀, htargets.symm ▸ hc⟩
          have hbody := Proc.against_both (O.obeys s d.2) (fun c _ _ hc hb => ih (d := c) hb (hcalls c hc)) h
          simp only []
          generalize (O.body s d.2).against (O.run n) w' = x at hbody
          generalize (O.body s d.2).against (O.run n) v' = y at hbody
          cases hbody with
          | none => exact .none
          | error h => exact .error h
          | ok a h => exact .ok a.2 (h.2.update hd hs₀ ⟨h.1.1.trans htargets.symm, h.1.2.trans halways.symm⟩)

omit [DecidableEq ι] in
theorem Apart.start (h : ∀ i ∈ S, v i = w i) : O.Apart S w v w v := ⟨rfl, h, fun _ _ => ⟨rfl, rfl⟩⟩

theorem send_yields {s s' : σ} {r : ρ} {w' : ι → Option σ} (hs : w i = some s)
    (h : (O.body s c).against (O.run n) w = some (.ok ((s', r), w'))) :
    (O.send (i, c) w).Yields (.ok (r, Function.update w' i (some s'))) := by
  refine ⟨n + 1, ?_⟩
  change O.run (n + 1) (i, c) w = _
  rw [run, hs]
  simp only [h]

/-- What is in the store outside of `S` is neither seen nor changed. -/
theorem send_local (hS : O.Closed w S) (h : ∀ i ∈ S, v i = w i) (hd : d.1 ∈ S) {r : ρ} {w' : ι → Option σ}
    (hw : (O.send d w).Yields (.ok (r, w'))) :
    ∃ v', (O.send d v).Yields (.ok (r, v')) ∧ O.Apart S w v w' v' := by
  obtain ⟨n, hn⟩ := hw
  have hboth := run_apart (n := n) hS (Apart.start h) hd
  change O.run n d w = _ at hn
  rw [hn] at hboth
  generalize hy : O.run n d v = y at hboth
  cases hboth with
  | ok _ h => exact ⟨_, ⟨n, hy⟩, h⟩

theorem send_frame (hS : O.Closed w S) (hd : d.1 ∈ S) {r : ρ} {w' : ι → Option σ}
    (hw : (O.send d w).Yields (.ok (r, w'))) : O.wiring w' = O.wiring w ∧ ∀ i ∉ S, w' i = w i := by
  obtain ⟨v', hv, h⟩ := send_local hS (fun _ _ => rfl) hd hw
  cases hv.unique hw
  exact ⟨h.wiring, fun i hi => (h.off i hi).1⟩

/-- A fault is a call of a missing object that can be reached. -/
theorem send_fault (hS : O.Closed w S) (hd : d.1 ∈ S) (hw : (O.send d w).Yields (.error j)) : j ∈ S ∧ w j = none := by
  obtain ⟨n, hn⟩ := hw
  have hboth := run_apart (n := n) (v := w) hS (Apart.start fun _ _ => rfl) hd
  change O.run n d w = _ at hn
  rw [hn] at hboth
  generalize O.run n d w = y at hboth
  cases hboth with
  | error h => exact h

/-- What no object changes about itself is not changed. -/
theorem run_keeps {τ : Type} {f : σ → τ} (hf : ∀ s c, (O.body s c).Obeys (fun _ => True) fun x => f x.1 = f s) {r : ρ}
    {w' : ι → Option σ} (h : O.run n d w = some (.ok (r, w'))) (i : ι) : (w' i).map f = (w i).map f := by
  induction n generalizing d w w' r i with
  | zero => cases h
  | succ n ih =>
      rw [run] at h
      cases hs : w d.1 with
      | none =>
          rw [hs] at h
          cases h
      | some s =>
          simp only [hs] at h
          split at h
          · cases h
          · cases h
          · rename_i x w₁ hbody
            cases h
            obtain ⟨hself, hothers⟩ := Proc.against_keeps (I := fun v => ∀ i, (v i).map f = (w i).map f) (hf s d.2)
              (fun _ => rfl) (fun c b r b' hb hc i => (ih hc i).trans (hb i)) hbody
            by_cases hi : i = d.1
            · rw [hi, Function.update_self, hs, Option.map_some, Option.map_some, hself]
            · rw [Function.update_of_ne hi, hothers i]

/-! ## Which calls return -/

theorem send_stops (h : Acc (fun j i => O.Calls w i j) i) (hv : O.wiring v = O.wiring w) :
    (O.send (i, c) v).Stops := by
  induction h generalizing v c with
  | intro i _ ih =>
      cases hs : v i with
      | none => exact ⟨.error i, 1, by change O.run 1 (i, c) v = _; simp [run, hs]⟩
      | some s =>
          have hnext : ∀ (d : ι × γ) (b : ι → Option σ), d.1 ∈ O.targets s → O.wiring b = O.wiring w →
              ∃ n r, O.run n d b = some r ∧ ∀ x, r = .ok x → O.wiring x.2 = O.wiring w := by
            intro d b hd hb
            obtain ⟨r, n, hn⟩ := ih d.1 ((calls_wiring hv).mp ⟨s, hs, hd⟩) (c := d.2) hb
            refine ⟨n, r, hn, fun x hx => ?_⟩
            subst hx
            have hall : O.Closed b Set.univ := fun _ _ _ _ => trivial
            exact (send_frame hall trivial ⟨n, hn⟩).1.trans hb
          obtain ⟨n, hn⟩ := Proc.against_some (I := fun v => O.wiring v = O.wiring w) (O.obeys s c) hv
            (fun _ _ _ _ => run_mono) hnext
          obtain ⟨o, ho⟩ := Option.isSome_iff_exists.mp hn
          cases o with
          | error e => exact ⟨.error e, n + 1, by change O.run (n + 1) (i, c) v = _; simp [run, hs, ho]⟩
          | ok x =>
              exact ⟨.ok (x.1.2, Function.update x.2 i (some x.1.1)), n + 1, by
                change O.run (n + 1) (i, c) v = _; simp [run, hs, ho]⟩

/-- Objects that are there and always call their targets. -/
def Steady (w : ι → Option σ) (S : Set ι) : Prop :=
  ∀ i ∈ S, ∃ s, w i = some s ∧ O.always s ∧ O.targets s ⊆ S

omit [DecidableEq ι] in
theorem Steady.closed (h : O.Steady w S) : O.Closed w S := by
  rintro i hi j ⟨s, hs, hj⟩
  obtain ⟨s', hs', -, hsub⟩ := h i hi
  cases hs.symm.trans hs'
  exact hsub hj

theorem sendAll_cons {ds : List (ι × γ)} {w' : ι → Option σ} : (O.sendAll (d :: ds) w).Yields (.ok w') ↔
    ∃ r v, (O.send d w).Yields (.ok (r, v)) ∧ (O.sendAll ds v).Yields (.ok w') := by
  rw [sendAll, Comp.yields_bind]
  constructor
  · rintro (⟨x, hx, hw'⟩ | ⟨e, -, he⟩)
    · exact ⟨x.1, x.2, hx, hw'⟩
    · cases he
  · rintro ⟨r, v, hv, hw'⟩
    exact Or.inl ⟨(r, v), hv, hw'⟩

omit [DecidableEq ι] in
theorem Closed.congr (h : O.Closed w S) (hv : O.wiring v = O.wiring w) : O.Closed v S :=
  fun i hi j hj => h i hi j ((calls_wiring hv).mp hj)

/-! ### Groups that call nothing of each other -/

variable {κ : Type} [DecidableEq κ]

/-- The calls of one of several groups. -/
def only (k : κ) (ds : List (κ × ι × γ)) : List (ι × γ) := (ds.filter fun d => d.1 = k).map Prod.snd

/-- Each group is closed, and has no object in common with another. -/
structure Groups (O : Objects ι σ γ ρ) (w : ι → Option σ) (S : κ → Set ι) : Prop where
  closed : ∀ k, O.Closed w (S k)
  apart : ∀ k l i, i ∈ S k → i ∈ S l → k = l

variable {S : κ → Set ι} {ds : List (κ × ι × γ)} {w' : ι → Option σ} {k : κ}

omit [DecidableEq ι] [DecidableEq κ] in
theorem Groups.congr (h : O.Groups w S) (hv : O.wiring v = O.wiring w) : O.Groups v S :=
  ⟨fun k => (h.closed k).congr hv, h.apart⟩

end Objects

end Lib
