import Evfilter.Lib.Machine
import Mathlib.Logic.Function.Basic

/-!
# The lock file of evfd

`evfd_try_lock`, `daemon` and `evfd_release_lock` in any number of processes. Each access to the lock file and to
`/proc` is one step, and all of them succeed.
-/

namespace Evfilter.Evfd
open Lib

/-- 0 is no process. -/
abbrev Pid := Nat

/-- Where a process is. The numbers count the writes of the lock file up to some time: `seen` those before the
process read it, `took` those before it wrote it. -/
inductive Phase
  | started
  | loaded (pid : Pid) (seen : Nat)
  | cleared (seen : Nat)
  | holding (took : Nat) (daemon : Bool)
  | leaving
deriving DecidableEq

structure State where
  procs : Pid → Option Phase
  lockfile : Option Pid
  writes : Nat

inductive Input
  | spawn (self : Pid)
  | loadPid (self : Pid)
  | pidIsRunning (self : Pid)
  | pidSave (self : Pid)
  | daemon (self child : Pid)
  | releaseLock (self : Pid)
  | exit (self : Pid)
deriving DecidableEq

def State.enter (s : State) (self : Pid) (phase : Phase) : State :=
  { s with procs := Function.update s.procs self (some phase) }

def State.leave (s : State) (self : Pid) : State := { s with procs := Function.update s.procs self none }

def spawn (s : State) (self : Pid) : Option State :=
  if self ≠ 0 ∧ s.procs self = none then some (s.enter self .started) else none

/-- `load_pid`. Without a pid in the file, `pid_save` comes next. -/
def loadPid (s : State) (self : Pid) : Option State :=
  match s.procs self with
  | some .started =>
    match s.lockfile.getD 0 with
    | 0 => some (s.enter self (.cleared s.writes))
    | pid => some (s.enter self (.loaded pid s.writes))
  | _ => none

/-- `pid_is_running` -/
def pidIsRunning (s : State) (self : Pid) : Option State :=
  match s.procs self with
  | some (.loaded pid seen) =>
    if (s.procs pid).isSome then some (s.enter self .leaving) else some (s.enter self (.cleared seen))
  | _ => none

/-- `pid_save` -/
def pidSave (s : State) (self : Pid) : Option State :=
  match s.procs self with
  | some (.cleared _) =>
    some { s.enter self (.holding s.writes false) with lockfile := some self, writes := s.writes + 1 }
  | _ => none

/-- `daemon(0, 0)`: the child goes on and its parent exits. -/
def daemon (s : State) (self child : Pid) : Option State :=
  match s.procs self with
  | some (.holding took false) =>
    if child ≠ 0 ∧ s.procs child = none then some ((s.leave self).enter child (.holding took true)) else none
  | _ => none

/-- `evfd_release_lock` -/
def releaseLock (s : State) (self : Pid) : Option State :=
  match s.procs self with
  | some (.holding _ _) => some { s.enter self .leaving with lockfile := none }
  | _ => none

def exit (s : State) (self : Pid) : Option State :=
  match s.procs self with
  | some _ => some (s.leave self)
  | none => none

def step (s : State) : Input → Option State
  | .spawn self => spawn s self
  | .loadPid self => loadPid s self
  | .pidIsRunning self => pidIsRunning s self
  | .pidSave self => pidSave s self
  | .daemon self child => daemon s self child
  | .releaseLock self => releaseLock s self
  | .exit self => exit s self

/-- No process, and a lock file that may have been left behind. -/
def machine (stale : Option Pid) : Machine State Input where
  init := { procs := fun _ => none, lockfile := stale, writes := 0 }
  step := step

/-- The process is past a successful `evfd_try_lock`, and has neither released the lock nor exited. -/
def Holds (s : State) (p : Pid) : Prop := ∃ took daemon, s.procs p = some (.holding took daemon)

def Exclusive (s : State) : Prop := ∀ p q, Holds s p → Holds s q → p = q

/-- A process writes the lock file only if the processes that hold the lock took it before this one read the file,
and have not been daemonized. -/
def Undisturbed (s : State) : Input → Prop
  | .pidSave self => ∀ seen, s.procs self = some (.cleared seen) →
      ∀ p took daemon, s.procs p = some (.holding took daemon) → took < seen ∧ daemon = false
  | _ => True

/-! ## What holds while the lock is exclusive -/

/-- As long as a holder is not daemonized, its pid is in the file, and no process that has read the file since then
gets past the check. -/
structure Inv (s : State) : Prop where
  zero : s.procs 0 = none
  exclusive : Exclusive s
  held : ∀ p took daemon, s.procs p = some (.holding took daemon) →
    took < s.writes ∧ (daemon = false → s.lockfile = some p)
  loaded : ∀ q pid seen, s.procs q = some (.loaded pid seen) →
    seen ≤ s.writes ∧ ∀ p took, s.procs p = some (.holding took false) → took < seen → pid = p
  cleared : ∀ q seen, s.procs q = some (.cleared seen) →
    seen ≤ s.writes ∧ ∀ p took, s.procs p = some (.holding took false) → seen ≤ took

variable {s s' : State} {self child p : Pid} {phase : Phase} {i : Input} {stale : Option Pid}

theorem enter_procs : (s.enter self phase).procs p = if p = self then some phase else s.procs p :=
  Function.update_apply ..

theorem leave_procs : (s.leave self).procs p = if p = self then none else s.procs p :=
  Function.update_apply ..

/-- Neither holding the lock nor trying to get it. -/
def Idle (phase : Option Phase) : Prop := phase = none ∨ phase = some .started ∨ phase = some .leaving

theorem Inv.idle (h : Inv s) (hl : s'.lockfile = s.lockfile) (hw : s'.writes = s.writes) (hz : s'.procs 0 = none)
    (hp : ∀ p, s'.procs p = s.procs p ∨ Idle (s'.procs p)) : Inv s' := by
  have hback : ∀ {p phase}, s'.procs p = some phase → phase ≠ .started → phase ≠ .leaving →
      s.procs p = some phase := by
    intro p phase hphase h₁ h₂
    rcases hp p with hsame | hidle
    · rw [← hsame, hphase]
    · rw [hphase] at hidle
      simp [Idle, h₁, h₂] at hidle
  have hholding : ∀ {p took daemon}, s'.procs p = some (.holding took daemon) →
      s.procs p = some (.holding took daemon) := fun h => hback h (by simp) (by simp)
  constructor
  · exact hz
  · rintro p q ⟨_, _, hp'⟩ ⟨_, _, hq'⟩
    exact h.exclusive p q ⟨_, _, hholding hp'⟩ ⟨_, _, hholding hq'⟩
  · intro p took daemon hp'
    rw [hl, hw]
    exact h.held p took daemon (hholding hp')
  · intro q pid seen hq'
    obtain ⟨hseen, hpid⟩ := h.loaded q pid seen (hback hq' (by simp) (by simp))
    exact ⟨hw ▸ hseen, fun p took hp' => hpid p took (hholding hp')⟩
  · intro q seen hq'
    obtain ⟨hseen, htook⟩ := h.cleared q seen (hback hq' (by simp) (by simp))
    exact ⟨hw ▸ hseen, fun p took hp' => htook p took (hholding hp')⟩

theorem Inv.ne_zero (h : Inv s) (hp : s.procs p = some phase) : p ≠ 0 := by
  rintro rfl
  exact absurd (h.zero.symm.trans hp) (by simp)

theorem Inv.enter_idle (h : Inv s) (phase : Phase) (hself : self ≠ 0) (hidle : Idle (some phase)) :
    Inv (s.enter self phase) := by
  refine h.idle rfl rfl ?_ fun p => ?_
  · rw [enter_procs, if_neg (Ne.symm hself), h.zero]
  · rw [enter_procs]
    split
    · exact Or.inr hidle
    · exact Or.inl rfl

theorem Inv.leave (h : Inv s) : Inv (s.leave self) := by
  refine h.idle rfl rfl ?_ fun p => ?_
  · rw [leave_procs, h.zero, ite_self]
  · rw [leave_procs]
    split
    · exact Or.inr (Or.inl rfl)
    · exact Or.inl rfl

/-- A process that comes to try for the lock does not change what the others do. -/
theorem Inv.enter_trying (h : Inv s) (hself : self ≠ 0)
    (hloaded : ∀ pid seen, phase = .loaded pid seen →
      seen ≤ s.writes ∧ ∀ p took, s.procs p = some (.holding took false) → took < seen → pid = p)
    (hcleared : ∀ seen, phase = .cleared seen →
      seen ≤ s.writes ∧ ∀ p took, s.procs p = some (.holding took false) → seen ≤ took)
    (hphase : ∀ took daemon, phase ≠ .holding took daemon) : Inv (s.enter self phase) := by
  have hholding : ∀ {p took daemon}, (s.enter self phase).procs p = some (.holding took daemon) →
      s.procs p = some (.holding took daemon) := by
    intro p took daemon hp
    rw [enter_procs] at hp
    split at hp
    · exact absurd (Option.some.inj hp) (hphase took daemon)
    · exact hp
  constructor
  · rw [enter_procs, if_neg (Ne.symm hself), h.zero]
  · rintro p q ⟨_, _, hp⟩ ⟨_, _, hq⟩
    exact h.exclusive p q ⟨_, _, hholding hp⟩ ⟨_, _, hholding hq⟩
  · exact fun p took daemon hp => h.held p took daemon (hholding hp)
  · intro q pid seen hq
    have hof : seen ≤ s.writes ∧ ∀ p took, s.procs p = some (.holding took false) → took < seen → pid = p := by
      rw [enter_procs] at hq
      split at hq
      · exact hloaded pid seen (Option.some.inj hq)
      · exact h.loaded q pid seen hq
    exact ⟨hof.1, fun p took hp => hof.2 p took (hholding hp)⟩
  · intro q seen hq
    have hof : seen ≤ s.writes ∧ ∀ p took, s.procs p = some (.holding took false) → seen ≤ took := by
      rw [enter_procs] at hq
      split at hq
      · exact hcleared seen (Option.some.inj hq)
      · exact h.cleared q seen hq
    exact ⟨hof.1, fun p took hp => hof.2 p took (hholding hp)⟩

/-! ## Steps -/

theorem loadPid_inv (h : Inv s) (hs : loadPid s self = some s') : Inv s' := by
  unfold loadPid at hs
  split at hs
  · rename_i hstarted
    have hself := h.ne_zero hstarted
    split at hs
    · rename_i hzero
      cases hs
      refine h.enter_trying hself (by simp) (fun seen hseen => ?_) (by simp)
      cases hseen
      refine ⟨Nat.le_refl _, fun p took hp => ?_⟩
      -- The file would name the holder.
      have hfile := (h.held p took false hp).2 rfl
      rw [hfile] at hzero
      exact absurd hzero (h.ne_zero hp)
    · cases hs
      refine h.enter_trying hself (fun pid seen hload => ?_) (by simp) (by simp)
      cases hload
      refine ⟨Nat.le_refl _, fun p took hp _ => ?_⟩
      rw [(h.held p took false hp).2 rfl]
      rfl
  · cases hs

theorem pidIsRunning_inv (h : Inv s) (hs : pidIsRunning s self = some s') : Inv s' := by
  unfold pidIsRunning at hs
  split at hs
  · rename_i pid seen hloaded
    have hself := h.ne_zero hloaded
    obtain ⟨hseen, hpid⟩ := h.loaded self pid seen hloaded
    split at hs
    · cases hs
      exact h.enter_idle _ hself (Or.inr (Or.inr rfl))
    · rename_i hgone
      cases hs
      refine h.enter_trying hself (by simp) (fun seen' heq => ?_) (by simp)
      cases heq
      refine ⟨hseen, fun p took hp => Nat.le_of_not_lt fun hlt => ?_⟩
      rw [hpid p took hp hlt, hp] at hgone
      exact hgone rfl
  · cases hs

/-- A process comes to hold the lock while no other does. -/
theorem Inv.enter_holding {took : Nat} {daemon : Bool} (h : Inv s)
    (hfree : ∀ p took daemon, s.procs p ≠ some (.holding took daemon)) (hself : self ≠ 0)
    (hprocs : s'.procs = (s.enter self (.holding took daemon)).procs) (hwrites : s.writes ≤ s'.writes)
    (htook : took < s'.writes) (hfile : daemon = false → s'.lockfile = some self ∧ s.writes ≤ took) : Inv s' := by
  have hholding : ∀ {p took' daemon'}, s'.procs p = some (.holding took' daemon') →
      p = self ∧ took' = took ∧ daemon' = daemon := by
    intro p took' daemon' hp
    rw [hprocs, enter_procs] at hp
    split at hp
    · rename_i heq
      cases hp
      exact ⟨heq, rfl, rfl⟩
    · exact absurd hp (hfree p took' daemon')
  have hback : ∀ {p phase}, s'.procs p = some phase → (∀ took daemon, phase ≠ .holding took daemon) →
      s.procs p = some phase := by
    intro p phase hp hphase
    rw [hprocs, enter_procs] at hp
    split at hp
    · exact absurd (Option.some.inj hp).symm (hphase took daemon)
    · exact hp
  constructor
  · rw [hprocs, enter_procs, if_neg (Ne.symm hself), h.zero]
  · rintro p q ⟨_, _, hp⟩ ⟨_, _, hq⟩
    rw [(hholding hp).1, (hholding hq).1]
  · intro p took' daemon' hp
    obtain ⟨rfl, rfl, rfl⟩ := hholding hp
    exact ⟨htook, fun hd => (hfile hd).1⟩
  · intro q pid seen hq
    obtain ⟨hseen, _⟩ := h.loaded q pid seen (hback hq (by simp))
    refine ⟨Nat.le_trans hseen hwrites, fun p took' hp hlt => ?_⟩
    obtain ⟨rfl, rfl, rfl⟩ := hholding hp
    exact absurd (Nat.lt_of_lt_of_le hlt hseen) (Nat.not_lt_of_ge (hfile rfl).2)
  · intro q seen hq
    obtain ⟨hseen, _⟩ := h.cleared q seen (hback hq (by simp))
    refine ⟨Nat.le_trans hseen hwrites, fun p took' hp => ?_⟩
    obtain ⟨rfl, rfl, rfl⟩ := hholding hp
    exact Nat.le_trans hseen (hfile rfl).2

theorem pidSave_inv (h : Inv s) (hc : Undisturbed s (.pidSave self)) (hs : pidSave s self = some s') : Inv s' := by
  unfold pidSave at hs
  split at hs
  · rename_i seen hcleared
    cases hs
    refine h.enter_holding ?_ (h.ne_zero hcleared) rfl (Nat.le_succ _) (Nat.lt_succ_self _)
      fun _ => ⟨rfl, Nat.le_refl _⟩
    -- A holder would not be daemonized, and so it would have been found.
    intro p took daemon hp
    obtain ⟨hlt, rfl⟩ := hc seen hcleared p took daemon hp
    exact Nat.not_lt_of_ge ((h.cleared self seen hcleared).2 p took hp) hlt
  · cases hs

variable (s') in
/-- When the only holder is gone, nobody holds the lock. -/
theorem Inv.free {took : Nat} {daemon : Bool} (h : Inv s) (hp : s.procs self = some (.holding took daemon))
    (hself : ∀ took daemon, s'.procs self ≠ some (.holding took daemon))
    (hothers : ∀ p ≠ self, s'.procs p = s.procs p) : ∀ p took daemon, s'.procs p ≠ some (.holding took daemon) := by
  intro p took' daemon' hp'
  by_cases heq : p = self
  · subst heq
    exact hself took' daemon' hp'
  · rw [hothers p heq] at hp'
    exact heq (h.exclusive p self ⟨_, _, hp'⟩ ⟨_, _, hp⟩)

theorem daemon_inv (h : Inv s) (hs : daemon s self child = some s') : Inv s' := by
  unfold daemon at hs
  split at hs
  · rename_i took hholding
    split at hs
    · rename_i hchild
      cases hs
      have hfree := h.free (s.leave self) hholding (fun _ _ => by simp [leave_procs])
        fun p hp => by rw [leave_procs, if_neg hp]
      exact h.leave.enter_holding hfree hchild.1 rfl (Nat.le_refl _) (h.held self took false hholding).1
        fun hd => absurd hd (by simp)
    · cases hs
  · cases hs

theorem releaseLock_inv (h : Inv s) (hs : releaseLock s self = some s') : Inv s' := by
  unfold releaseLock at hs
  split at hs
  · rename_i took daemon hholding
    cases hs
    have hleft := h.enter_idle .leaving (h.ne_zero hholding) (Or.inr (Or.inr rfl))
    have hfree := h.free (s.enter self .leaving) hholding (fun _ _ => by simp [enter_procs])
      fun p hp => by rw [enter_procs, if_neg hp]
    exact ⟨hleft.zero, hleft.exclusive, fun p took daemon hp => absurd hp (hfree p took daemon), hleft.loaded,
      hleft.cleared⟩
  · cases hs

theorem step_inv (h : Inv s) (hc : Undisturbed s i) (hs : step s i = some s') : Inv s' := by
  cases i with
  | spawn self =>
      simp only [step, spawn] at hs
      split at hs
      · rename_i hnew
        cases hs
        exact h.enter_idle _ hnew.1 (Or.inr (Or.inl rfl))
      · cases hs
  | loadPid self => exact loadPid_inv h hs
  | pidIsRunning self => exact pidIsRunning_inv h hs
  | pidSave self => exact pidSave_inv h hc hs
  | daemon self child => exact daemon_inv h hs
  | releaseLock self => exact releaseLock_inv h hs
  | exit self =>
      simp only [step, exit] at hs
      split at hs
      · cases hs
        exact h.leave
      · cases hs

/-- A write that leaves the lock exclusive has met no holder. -/
theorem undisturbed_of_exclusive (hs : step s i = some s') (hx : Exclusive s') : Undisturbed s i := by
  cases i with
  | pidSave self =>
      intro seen hcleared p took daemon hp
      have hne : p ≠ self := by
        rintro rfl
        cases hp.symm.trans hcleared
      simp only [step, pidSave, hcleared, Option.some.injEq] at hs
      subst hs
      refine absurd (hx p self ⟨took, daemon, ?_⟩ ⟨s.writes, false, ?_⟩) hne
      · exact (enter_procs.trans (if_neg hne)).trans hp
      · exact enter_procs.trans (if_pos rfl)
  | _ => trivial

/-- In a run the lock is never held twice, just when every write of the lock file is undisturbed. -/
theorem exclusive_iff (stale : Option Pid) (is : List Input) :
    (machine stale).Throughout Exclusive (machine stale).init is ↔
      (machine stale).Along Undisturbed (machine stale).init is := by
  have hinit : Inv (machine stale).init := by
    refine ⟨rfl, ?_, ?_, ?_, ?_⟩
    · rintro p q ⟨_, _, hp⟩
      cases hp
    · intro p took daemon hp
      cases hp
    · intro q pid seen hq
      cases hq
    · intro q seen hq
      cases hq
  constructor
  · intro h
    exact h.along (J := Inv) Machine.along_true hinit (fun hj _ hc hs => step_inv hj hc hs)
      fun _ _ hs hx => undisturbed_of_exclusive hs hx
  · intro h
    exact (h.throughout (J := Inv) hinit fun hj hc hs => step_inv hj hc hs).mono fun s hs => hs.exclusive

/-- One evfd is started and daemonized, and then another one is started. -/
def twoStarts : List Input :=
  [.spawn 10, .loadPid 10, .pidSave 10, .daemon 10 11, .spawn 20, .loadPid 20, .pidIsRunning 20, .pidSave 20]

theorem two_daemons :
    ¬ (machine none).Throughout Exclusive (machine none).init twoStarts ∧
      ((machine none).run (machine none).init twoStarts).map (fun s => (s.procs 11, s.procs 20)) =
        some (some (.holding 0 true), some (.holding 1 false)) := by
  refine ⟨fun h => ?_, by decide⟩
  have hlast := h.last rfl 11 20 ⟨0, true, by decide⟩ ⟨1, false, by decide⟩
  exact absurd hlast (by decide)

end Evfilter.Evfd
