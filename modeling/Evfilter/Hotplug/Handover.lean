import Evfilter.Hotplug.Watch

/-!
# From the scan to the watch

A device is known to the scan or to the watch, except where the one has ended and the other has not begun.
-/

namespace Evfilter.Hotplug
open Lib

variable {s s' : State} {name other : FileName} {log : List Happening}{queue : List Notification}
  {devUnplug : Bool} {dir : Finset FileName}

/-! ## Reports -/

/-- No path is cut off, so a report tells which device it is about. -/
theorem devPath_injective (h : devPath name = devPath other) : name = other := by
  have hpath : ∀ n : FileName, devPath n = (CString.literal "/dev/input/").append n.name := fun n => by
    have hlit : (CString.literal "/dev/input/").strlen = 11 := by decide +kernel
    refine CString.trunc_of_le ?_
    rw [CString.strlen_append, hlit]
    exact Nat.le_trans (Nat.add_le_add_left n.short 11) (by decide)
  rw [hpath, hpath] at h
  have hbytes : name.name.bytes = other.name.bytes := List.append_cancel_left (congrArg CString.bytes h)
  cases name
  cases other
  cases CString.ext hbytes
  rfl

theorem reported_append {calls : List Happening} (hc : ∀ n, .created n ∉ calls) :
    reported name (calls ++ log) = (decide (.plugged (devPath name) ∈ calls) || reported name log) := by
  induction calls with
  | nil => simp
  | cons call calls ih =>
      have ih := ih fun n hn => hc n (List.mem_cons_of_mem _ hn)
      cases call with
      | created n => exact absurd List.mem_cons_self (hc n)
      | plugged dev => simp [reported, ih, Bool.or_assoc, eq_comm]
      | _ => simp [reported, ih]

theorem created_notMem_rescanEvent (devUnplug : Bool) (ev : Notification) (name : FileName) :
    .created name ∉ (rescanEvent devUnplug ev).reverse := by
  simp only [rescanEvent, List.mem_reverse]
  split
  · split <;> split <;> simp
  · simp

/-- Handling the notification of a creation reports the device. -/
theorem plugged_rescanEvent (hn : isEvent name) :
    .plugged (devPath name) ∈ (rescanEvent devUnplug ⟨inCreate, name⟩).reverse := by
  have hmask : inCreate ≠ 0 := by decide
  simp [rescanEvent, hn, hmask]

/-! ## Reading notifications -/

theorem readEvents_append (room : Nat) (queue : List Notification) :
    (readEvents room queue).1 ++ (readEvents room queue).2 = queue := by
  induction queue generalizing room with
  | nil => rfl
  | cons ev queue ih =>
      simp only [readEvents]
      split
      · simp [ih]
      · rfl

/-- The buffer is large enough for any notification. -/
theorem readEvents_ne_nil (h : queue ≠ []) : (readEvents evfBufLen queue).1 ≠ [] := by
  cases queue with
  | nil => exact absurd rfl h
  | cons ev queue =>
      have hfits : ev.size ≤ evfBufLen := by
        have := ev.name.short
        simp only [Notification.size, evfBufLen]
        omega
      simp [readEvents, hfits]

/-- Reading and handling goes on until nothing is left. -/
theorem drained (h : s.phase = .watching) : ∃ is s', (machine devUnplug dir).run s is = some s' ∧
    s'.phase = .watching ∧ s'.dir = s.dir ∧ s'.queue = [] ∧ s'.buf = [] := by
  generalize hn : 2 * s.queue.length + s.buf.length = n
  induction n using Nat.strong_induction_on generalizing s with
  | _ n ih =>
      cases hbuf : s.buf with
      | cons ev buf =>
          obtain ⟨is, s', hrun, hs'⟩ := ih _ (by simp [← hn, hbuf])
            (s := { s with buf, log := (rescanEvent devUnplug ev).reverse ++ s.log }) h rfl
          exact ⟨.event :: is, s', by simpa [Machine.run_cons, machine, step, event, hbuf] using hrun, hs'⟩
      | nil =>
          by_cases hqueue : s.queue = []
          · exact ⟨[], s, rfl, h, rfl, hqueue, hbuf⟩
          · have hsplit := congrArg List.length (readEvents_append evfBufLen s.queue)
            have hsome := List.length_pos_iff.mpr (readEvents_ne_nil hqueue)
            rw [List.length_append] at hsplit
            have hless : 2 * (readEvents evfBufLen s.queue).2.length + (readEvents evfBufLen s.queue).1.length < n := by
              rw [← hn, hbuf, List.length_nil]
              omega
            obtain ⟨is, s', hrun, hs'⟩ := ih _ hless
              (s := { s with buf := (readEvents evfBufLen s.queue).1, queue := (readEvents evfBufLen s.queue).2 }) h rfl
            exact ⟨.read true :: is, s', by simpa [Machine.run_cons, machine, step, read, h, hbuf, hqueue] using hrun,
              hs'⟩

/-! ## The invariant -/

/-- The entry is going to be reported, or nothing is said about it. -/
def Due (s : State) (name : FileName) : Prop :=
  match s.phase with
  | .walking w => .created name ∈ s.log ∨ name ∈ w.pending ∨ w.dirEnt = some name
  | .walked | .inotify => .created name ∈ s.log
  | .watching => ⟨inCreate, name⟩ ∈ s.buf ∨ ⟨inCreate, name⟩ ∈ s.queue
  | _ => True

structure Inv (s : State) : Prop where
  quiet : s.phase ≠ .watching → s.queue = [] ∧ s.buf = []
  known : ∀ name ∈ s.dir, isEvent name → reported name s.log ∨ Due s name

theorem Inv.start : Inv (machine devUnplug dir).init := ⟨fun _ => ⟨rfl, rfl⟩, fun _ _ _ => Or.inr trivial⟩

theorem Inv.create (h : Inv s) (hs : create s other = some s') : Inv s' := by
  simp only [Hotplug.create] at hs
  split at hs
  · cases hs
  cases hs
  constructor
  · intro hp
    cases hphase : s.phase with
    | watching => simp [hphase] at hp
    | _ => simpa [State.notify, hphase] using h.quiet (by simp [hphase])
  · intro name hn he
    by_cases hne : name = other
    · right
      cases hphase : s.phase <;> simp [Due, State.notify, hphase, hne]
    · rcases h.known name (Finset.mem_of_mem_insert_of_ne hn hne) he with hr | hd
      · left
        simpa [reported, Ne.symm hne] using hr
      · right
        cases hphase : s.phase <;> simp only [Due, hphase] at hd <;> simp [Due, State.notify, hphase, hne, hd]

theorem Inv.remove (h : Inv s) (hs : remove s other = some s') : Inv s' := by
  simp only [Hotplug.remove] at hs
  split at hs
  · cases hs
    constructor
    · intro hp
      cases hphase : s.phase with
      | watching => simp [hphase] at hp
      | _ => simpa [State.notify, hphase] using h.quiet (by simp [hphase])
    · intro name hn he
      obtain ⟨hne, hn⟩ := Finset.mem_erase.mp hn
      rcases h.known name hn he with hr | hd
      · exact Or.inl hr
      · right
        cases hphase : s.phase <;> simp only [Due, hphase] at hd <;> simp [Due, State.notify, hphase, hne, hd]
  · cases hs

/-- While the directory is scanned, each entry that has been there throughout is pending until it is returned. -/
theorem Inv.opendir {ok : Bool} (h : Inv s) (hs : opendir s ok = some s') : Inv s' := by
  simp only [Hotplug.opendir] at hs
  split at hs
  · rename_i hphase
    have hq := h.quiet (by simp [hphase])
    cases hs
    cases ok with
    | true => exact ⟨fun _ => hq, fun name hn _ => Or.inr (Or.inr (Or.inl hn))⟩
    | false => exact ⟨fun _ => hq, fun _ _ _ => Or.inr trivial⟩
  · cases hs

theorem Inv.readdir (h : Inv s) (hs : readdir s other = some s') : Inv s' := by
  simp only [Hotplug.readdir] at hs
  split at hs
  · rename_i pending seen hphase
    split at hs
    · cases hs
      refine ⟨fun _ => h.quiet (by simp [hphase]), fun name hn he => ?_⟩
      rcases h.known name hn he with hr | hd
      · exact Or.inl hr
      · simp only [Due, hphase, reduceCtorEq, or_false] at hd
        right
        rcases hd with hc | hp
        · exact Or.inl hc
        · by_cases hne : name = other
          · subst hne
            exact Or.inr (Or.inr (if_pos he))
          · exact Or.inr (Or.inl (Finset.mem_erase.mpr ⟨hne, hp⟩))
    · cases hs
  · cases hs

theorem Inv.devPlug (h : Inv s) (hs : devPlug s = some s') : Inv s' := by
  simp only [Hotplug.devPlug] at hs
  split at hs
  · rename_i pending seen other hphase
    cases hs
    refine ⟨fun _ => h.quiet (by simp [hphase]), fun name hn he => ?_⟩
    rcases h.known name hn he with hr | hd
    · left
      simp [reported, hr]
    · simp only [Due, hphase, Option.some.injEq] at hd
      rcases hd with hc | hp | rfl
      · exact Or.inr (Or.inl (List.mem_cons_of_mem _ hc))
      · exact Or.inr (Or.inr (Or.inl hp))
      · left
        simp [reported]
  · cases hs

/-- The scan has reported what was there when it began. -/
theorem Inv.walkEnd {errno : Bool} (h : Inv s) (hs : walkEnd s errno = some s') : Inv s' := by
  simp only [Hotplug.walkEnd] at hs
  split at hs
  · rename_i pending seen hphase
    have hq := h.quiet (by simp [hphase])
    split at hs
    · rename_i hempty
      cases hs
      cases errno with
      | true => exact ⟨fun _ => hq, fun _ _ _ => Or.inr trivial⟩
      | false =>
          refine ⟨fun _ => hq, fun name hn he => (h.known name hn he).imp_right fun hd => ?_⟩
          simpa [Due, hphase, hempty] using hd
    · cases hs
  · cases hs

theorem Inv.inotifyInit {ok : Bool} (h : Inv s) (hs : inotifyInit s ok = some s') : Inv s' := by
  simp only [Hotplug.inotifyInit] at hs
  split at hs
  · rename_i hphase
    have hq := h.quiet (by simp [hphase])
    cases hs
    cases ok with
    | true =>
        refine ⟨fun _ => hq, fun name hn he => (h.known name hn he).imp_right fun hd => ?_⟩
        simpa [Due, hphase] using hd
    | false => exact ⟨fun _ => hq, fun _ _ _ => Or.inr trivial⟩
  · cases hs

/-- The watch takes over what the scan has reported. -/
theorem Inv.addWatch {ok : Bool} (h : Inv s) (hc : HandedOver s (.addWatch ok)) (hs : addWatch s ok = some s') :
    Inv s' := by
  simp only [Hotplug.addWatch] at hs
  split at hs
  · rename_i hphase
    have hq := h.quiet (by simp [hphase])
    cases hs
    cases ok with
    | true =>
        refine ⟨fun _ => hq, fun name hn he => Or.inl ?_⟩
        rcases h.known name hn he with hr | hd
        · exact hr
        · exact hc name hn he (by simpa [Due, hphase] using hd)
    | false => exact ⟨fun _ => hq, fun _ _ _ => Or.inr trivial⟩
  · cases hs

theorem Inv.read {ok : Bool} (h : Inv s) (hs : read s ok = some s') : Inv s' := by
  simp only [Hotplug.read] at hs
  split at hs
  · rename_i hphase
    split at hs
    · rename_i hbuf
      cases hs
      cases ok with
      | false => exact h
      | true =>
          refine ⟨fun hp => absurd hphase hp, fun name hn he => (h.known name hn he).imp_right fun hd => ?_⟩
          simp only [Due, hphase, hbuf.1, List.not_mem_nil, false_or] at hd
          rw [← readEvents_append evfBufLen s.queue] at hd
          simpa [Due, hphase] using hd
    · cases hs
  · cases hs

theorem Inv.event (h : Inv s) (hs : event devUnplug s = some s') : Inv s' := by
  simp only [Hotplug.event] at hs
  split at hs
  · cases hs
  · rename_i ev buf hbuf
    have hphase : s.phase = .watching := by
      by_contra hp
      exact absurd ((h.quiet hp).2.symm.trans hbuf) (by simp)
    cases hs
    refine ⟨fun hp => absurd hphase hp, fun name hn he => ?_⟩
    simp only [reported_append (created_notMem_rescanEvent devUnplug ev)]
    rcases h.known name hn he with hr | hd
    · left
      simp [hr]
    · simp only [Due, hphase, hbuf, List.mem_cons] at hd
      rcases hd with (hev | hd) | hd
      · left
        rw [← hev]
        simp [plugged_rescanEvent he]
      · right
        simp [Due, hphase, hd]
      · right
        simp [Due, hphase, hd]

/-! ## Runs -/

theorem Inv.step {input : Input} (h : Inv s) (hc : HandedOver s input)
    (hs : Hotplug.step devUnplug s input = some s') : Inv s' := by
  cases input with
  | create name => exact h.create hs
  | remove name => exact h.remove hs
  | opendir ok => exact h.opendir hs
  | readdir name => exact h.readdir hs
  | devPlug => exact h.devPlug hs
  | walkEnd errno => exact h.walkEnd hs
  | inotifyInit ok => exact h.inotifyInit hs
  | addWatch ok => exact h.addWatch hc hs
  | read ok => exact h.read hs
  | event => exact h.event hs

theorem Inv.covered (h : Inv s) : Covered s := by
  intro hphase hqueue hbuf name hn he
  rcases h.known name hn he with hr | hd
  · exact hr
  · simp [Due, hphase, hqueue, hbuf] at hd

/-- A device that the scan has missed is missed for good. -/
theorem Inv.only {input : Input} (h : Inv s) (hs : Hotplug.step devUnplug s input = some s') (hcov : Covered s') :
    HandedOver s input := by
  cases input with
  | addWatch ok =>
      cases ok with
      | false => trivial
      | true =>
          intro name hn he _
          simp only [Hotplug.step, Hotplug.addWatch] at hs
          split at hs
          · rename_i hphase
            obtain ⟨hqueue, hbuf⟩ := h.quiet (by simp [hphase])
            cases hs
            exact hcov rfl hqueue hbuf name hn he
          · cases hs
  | _ => trivial

/-- All devices are reported exactly where none comes up unseen between the scan and the watch. -/
theorem devices_reported_iff (devUnplug : Bool) (dir : Finset FileName) (is : List Input) :
    (machine devUnplug dir).Throughout Covered (machine devUnplug dir).init is ↔
      (machine devUnplug dir).Along HandedOver (machine devUnplug dir).init is := by
  constructor
  · intro h
    exact h.along Machine.along_true Inv.start (fun hj _ hc hs => hj.step hc hs) fun hj _ hs hcov => hj.only hs hcov
  · intro h
    exact (h.throughout Inv.start fun hj hc hs => hj.step hc hs).mono fun _ hj => hj.covered

/-- `event7` -/
def seventh : FileName := ⟨⟨[101, 118, 101, 110, 116, 55], by decide⟩, by decide⟩

/-- The device is created when the scan is over. -/
def unseen : List Input :=
  [.opendir true, .walkEnd false, .inotifyInit true, .create seventh, .addWatch true]

theorem device_unseen : ¬ ∀ devUnplug dir is,
    (machine devUnplug dir).Throughout Covered (machine devUnplug dir).init is := by
  intro h
  have hcov := (((((h false ∅ unseen).2 _ rfl).2 _ rfl).2 _ rfl).2 _ rfl).2 _ rfl
  exact absurd (hcov rfl rfl rfl seventh (Finset.mem_insert_self _ _) (by decide +kernel)) (by decide +kernel)

end Evfilter.Hotplug
