import Mathlib.Logic.Basic

/-!
# Procedures that call out

A procedure makes calls and goes on with what each of them answers. The callee has a state of its own, which
the procedure does not see. What the procedure does against one callee is compared with what it does against
another by the calls it makes.
-/

namespace Lib

/-- `γ` are the calls, `ρ` the answers. -/
inductive Proc (γ ρ α : Type) where
  | done (a : α)
  | call (c : γ) (k : ρ → Proc γ ρ α)

namespace Proc

variable {γ ρ α δ β : Type}

def bind : Proc γ ρ α → (α → Proc γ ρ δ) → Proc γ ρ δ
  | done a, f => f a
  | call c k, f => call c fun r => (k r).bind f

instance : Monad (Proc γ ρ) where
  pure := done
  bind := bind

def perform (c : γ) : Proc γ ρ ρ := call c done

def drive (next : γ → β → ρ × β) : Proc γ ρ α → β → α × β
  | done a, b => (a, b)
  | call c k, b => (k (next c b).1).drive next (next c b).2

/-- The calls made when run against a callee. -/
def calls (next : γ → β → ρ × β) : Proc γ ρ α → β → List γ
  | done _, _ => []
  | call c k, b => c :: (k (next c b).1).calls next (next c b).2

/-- What is left of the callee after these calls. -/
def feed (next : γ → β → ρ × β) : List γ → β → β
  | [], b => b
  | c :: cs, b => feed next cs (next c b).2

/-- `C` holds of every one of the calls and the state it meets. -/
def Each (next : γ → β → ρ × β) (C : β → γ → Prop) : β → List γ → Prop
  | _, [] => True
  | b, c :: cs => C b c ∧ Each next C (next c b).2 cs

instance decidableEach (next : γ → β → ρ × β) (C : β → γ → Prop) [∀ b c, Decidable (C b c)] :
    (b : β) → (cs : List γ) → Decidable (Each next C b cs)
  | _, [] => isTrue trivial
  | b, c :: cs =>
    have := decidableEach next C (next c b).2 cs
    inferInstanceAs (Decidable (C b c ∧ Each next C (next c b).2 cs))

/-- A callee that writes down the calls and answers from the call alone. -/
def record (answer : γ → ρ) (c : γ) (log : List γ) : ρ × List γ := (answer c, log ++ [c])

/-- Whatever the answers are, as long as they meet `B`, the procedure makes just these calls and ends in `Q`. -/
def Makes (B : γ → ρ → Prop) (Q : α → Prop) : Proc γ ρ α → List γ → Prop
  | done a, cs => cs = [] ∧ Q a
  | call c k, cs => ∃ ds, cs = c :: ds ∧ ∀ r, B c r → (k r).Makes B Q ds

/-- Whatever the answers are, as long as they meet `B`, the calls that are made and the end satisfy `P`. -/
def Through (B : γ → ρ → Prop) : Proc γ ρ α → (List γ → α → Prop) → Prop
  | done a, P => P [] a
  | call c k, P => ∀ r, B c r → (k r).Through B fun cs a => P (c :: cs) a

/-- Whatever the answers are, the two procedures make the same calls, and their ends are related. -/
def Alike {α' : Type} (R : α → α' → Prop) : Proc γ ρ α → Proc γ ρ α' → Prop
  | done a, done a' => R a a'
  | call c k, call c' k' => c = c' ∧ ∀ r, (k r).Alike R (k' r)
  | _, _ => False

variable {next : γ → β → ρ × β} {answer : γ → ρ} {p : Proc γ ρ α} {f : α → Proc γ ρ δ} {a : α} {b : β}
  {c : γ} {k : ρ → Proc γ ρ α} {cs ds : List γ} {C D : β → γ → Prop}

/-! ## Running -/

@[simp] theorem pure_eq : (pure a : Proc γ ρ α) = done a := rfl

@[simp] theorem bind_done : (done a >>= f : Proc γ ρ δ) = f a := rfl

@[simp] theorem bind_call : (call c k >>= f : Proc γ ρ δ) = call c fun r => k r >>= f := rfl

@[simp] theorem drive_done : (done a : Proc γ ρ α).drive next b = (a, b) := rfl

@[simp] theorem drive_call : (call c k).drive next b = (k (next c b).1).drive next (next c b).2 := rfl

@[simp] theorem calls_call :
    (call c k).calls next b = c :: (k (next c b).1).calls next (next c b).2 := rfl

theorem drive_snd : (p.drive next b).2 = feed next (p.calls next b) b := by
  induction p generalizing b with
  | done a => rfl
  | call c k ih => exact ih _

theorem drive_record {log : List γ} :
    (p.drive (record answer) log).2 = log ++ p.calls (record answer) log := by
  induction p generalizing log with
  | done a => exact (List.append_nil log).symm
  | call c k ih =>
      rw [drive_call, ih, calls_call]
      simp [record]

/-- Against callees that answer alike and stay related. -/
theorem drive_related {β' : Type} {next' : γ → β' → ρ × β'} {b' : β'} {R : β → β' → Prop}
    (hnext : ∀ c b b', R b b' → (next c b).1 = (next' c b').1 ∧ R (next c b).2 (next' c b').2) (p : Proc γ ρ α)
    (hb : R b b') : (p.drive next b).1 = (p.drive next' b').1 ∧ R (p.drive next b).2 (p.drive next' b').2 := by
  induction p generalizing b b' with
  | done a => exact ⟨rfl, hb⟩
  | call c k ih =>
      obtain ⟨hanswer, hrel⟩ := hnext c b b' hb
      rw [drive_call, drive_call, hanswer]
      exact ih _ hrel

theorem feed_append : feed next (cs ++ ds) b = feed next ds (feed next cs b) := by
  induction cs generalizing b with
  | nil => rfl
  | cons c cs ih => exact ih

/-! ## Conditions on calls -/

theorem each_append : Each next C b (cs ++ ds) ↔ Each next C b cs ∧ Each next C (feed next cs b) ds := by
  induction cs generalizing b with
  | nil => simp [Each, feed]
  | cons c cs ih =>
      rw [List.cons_append, Each, Each, ih, and_assoc]
      rfl

/-- Two conditions that agree wherever an invariant of the callee holds. -/
theorem Each.congr {I : β → Prop} (hb : I b) (keep : ∀ {b c}, I b → c ∈ cs → I (next c b).2)
    (agree : ∀ {b c}, I b → c ∈ cs → (C b c ↔ D b c)) : Each next C b cs ↔ Each next D b cs := by
  induction cs generalizing b with
  | nil => exact Iff.rfl
  | cons c cs ih =>
      refine and_congr (agree hb List.mem_cons_self) (ih (keep hb List.mem_cons_self) ?_ ?_)
      · exact fun hb hc => keep hb (List.mem_cons_of_mem _ hc)
      · exact fun hb hc => agree hb (List.mem_cons_of_mem _ hc)

theorem each_invariant {I : β → Prop} (hb : I b) (keep : ∀ {b c}, I b → c ∈ cs → I (next c b).2)
    (holds : ∀ {b c}, I b → c ∈ cs → C b c) : Each next C b cs := by
  induction cs generalizing b with
  | nil => trivial
  | cons c cs ih =>
      refine ⟨holds hb List.mem_cons_self, ih (keep hb List.mem_cons_self) ?_ ?_⟩
      · exact fun hb hc => keep hb (List.mem_cons_of_mem _ hc)
      · exact fun hb hc => holds hb (List.mem_cons_of_mem _ hc)

theorem feed_invariant {I : β → Prop} (hb : I b) (keep : ∀ {b c}, I b → c ∈ cs → I (next c b).2) :
    I (feed next cs b) := by
  induction cs generalizing b with
  | nil => exact hb
  | cons c cs ih => exact ih (keep hb List.mem_cons_self) fun hb hc => keep hb (List.mem_cons_of_mem _ hc)

/-! ## Procedures whose calls are known -/

variable {B : γ → ρ → Prop} {Q R : α → Prop} {S : δ → Prop} {I : β → Prop}

theorem makes_done (h : Q a) : (done a : Proc γ ρ α).Makes B Q [] := ⟨rfl, h⟩

theorem makes_call (h : ∀ r, B c r → (k r).Makes B Q cs) : (call c k).Makes B Q (c :: cs) := ⟨cs, rfl, h⟩

theorem Makes.mono (h : p.Makes B Q cs) (hQ : ∀ a, Q a → R a) : p.Makes B R cs := by
  induction p generalizing cs with
  | done a => exact ⟨h.1, hQ a h.2⟩
  | call c k ih =>
      obtain ⟨ds, rfl, h⟩ := h
      exact makes_call fun r hr => ih r (h r hr)

theorem Makes.bind (h : p.Makes B (fun a => (f a).Makes B S ds) cs) : (p >>= f).Makes B S (cs ++ ds) := by
  induction p generalizing cs with
  | done a =>
      obtain ⟨rfl, h⟩ := h
      exact h
  | call c k ih =>
      obtain ⟨es, rfl, h⟩ := h
      exact makes_call fun r hr => ih r (h r hr)

/-- Against a callee whose answers meet `B` while an invariant of it holds. -/
theorem Makes.run (next : γ → β → ρ × β) (h : p.Makes B Q cs)
    (hn : ∀ c ∈ cs, ∀ b, I b → B c (next c b).1 ∧ I (next c b).2) (hb : I b) :
    p.calls next b = cs ∧ Q (p.drive next b).1 ∧ I (p.drive next b).2 := by
  induction p generalizing b cs with
  | done a =>
      obtain ⟨rfl, h⟩ := h
      exact ⟨rfl, h, hb⟩
  | call c k ih =>
      obtain ⟨ds, rfl, h⟩ := h
      obtain ⟨hr, hb'⟩ := hn c List.mem_cons_self b hb
      obtain ⟨hcs, hq, hi⟩ := ih _ (h _ hr) (fun d hd => hn d (List.mem_cons_of_mem _ hd)) hb'
      exact ⟨by rw [calls_call, hcs], hq, hi⟩

/-! ## Procedures whose calls depend on the answers -/

section Through

variable {P P' : List γ → α → Prop}

theorem Through.mono (h : p.Through B P) (hP : ∀ cs a, P cs a → P' cs a) : p.Through B P' := by
  induction p generalizing P P' with
  | done a => exact hP [] a h
  | call c k ih => exact fun r hr => ih r (h r hr) fun cs a => hP (c :: cs) a

theorem through_bind {V : List γ → δ → Prop} :
    (p >>= f).Through B V ↔ p.Through B fun cs a => (f a).Through B fun ds d => V (cs ++ ds) d := by
  induction p generalizing V with
  | done a => exact Iff.rfl
  | call c k ih => exact forall₂_congr fun r _ => ih r

theorem Makes.through (h : p.Makes B Q cs) : p.Through B fun ds a => ds = cs ∧ Q a := by
  induction p generalizing cs with
  | done a => exact ⟨h.1.symm, h.2⟩
  | call c k ih =>
      obtain ⟨ds, rfl, hk⟩ := h
      exact fun r hr => (ih r (hk r hr)).mono fun es a hes => ⟨congrArg (c :: ·) hes.1, hes.2⟩

/-- Against a callee whose answers meet `B`. -/
theorem Through.run (next : γ → β → ρ × β) (h : p.Through B P) (hn : ∀ c b, B c (next c b).1) (b : β) :
    P (p.calls next b) (p.drive next b).1 := by
  induction p generalizing P b with
  | done a => exact h
  | call c k ih => exact ih _ (h _ (hn c b)) _

end Through

/-! ## Procedures that make the same calls -/

section Alike

variable {α' δ' : Type} {q : Proc γ ρ α'} {g : α' → Proc γ ρ δ'} {T : α → α' → Prop} {V : δ → δ' → Prop}

theorem alike_refl (p : Proc γ ρ α) : p.Alike (· = ·) p := by
  induction p with
  | done a => exact rfl
  | call c k ih => exact ⟨rfl, ih⟩

theorem Alike.bind (h : p.Alike T q) (hfg : ∀ a a', T a a' → (f a).Alike V (g a')) :
    (p >>= f).Alike V (q >>= g) := by
  induction p generalizing q with
  | done a =>
      cases q with
      | done a' => exact hfg a a' h
      | call c k => exact h.elim
  | call c k ih =>
      cases q with
      | done a' => exact h.elim
      | call c' k' => exact ⟨h.1, fun r => ih r (h.2 r)⟩

/-- Against the same callee in the same state. -/
theorem Alike.run (next : γ → β → ρ × β) (b : β) (h : p.Alike T q) :
    p.calls next b = q.calls next b ∧ T (p.drive next b).1 (q.drive next b).1 ∧
      (p.drive next b).2 = (q.drive next b).2 := by
  induction p generalizing q b with
  | done a =>
      cases q with
      | done a' => exact ⟨rfl, h, rfl⟩
      | call c k => exact h.elim
  | call c k ih =>
      cases q with
      | done a' => exact h.elim
      | call c' k' =>
          obtain ⟨rfl, hk⟩ := h
          obtain ⟨hcalls, hends, hcallee⟩ := ih (next c b).1 (next c b).2 (hk _)
          exact ⟨congrArg (c :: ·) hcalls, hends, hcallee⟩

end Alike

end Proc

end Lib
