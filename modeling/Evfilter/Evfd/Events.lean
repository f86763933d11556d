import Evfilter.Evfd.Serving
import Evfilter.Filters.Front
import Evfilter.Line.Process

/-!
# The events of evfd

evfd with the filters of its lines and what is written to its uinput devices. Each device gets what the filters of its
own line make of what is read from that line, whatever the other lines do in the meantime.
-/

namespace Evfilter.Evfd.Events
open Lib IoQueue Filters

/-- What has been written to the uinput devices. -/
abbrev Written := Nat → List InputEvent

/-- The return value of `write` is dropped. Nothing is written where no device is behind the descriptor. -/
def inputCommit (k : Kernel) (uinputFd : Nat) (ev : InputEvent) (written : Written) : InputEvent × Written :=
  match k.device uinputFd with
  | some dev => (ev, Function.update written dev (written dev ++ [ev]))
  | none => (ev, written)

/-- A call of `device_plugged`, with the filters that `evf_load_system_profile` loads and what they give back when they
are freed. Profiles of other kinds of filters, those on handles among them, are left out. -/
structure Plug where
  name : Option CString
  uinput : Uinput
  device : Devices.Device
  profile : Option (List (Filter × Priv))
  mallocLine : Bool
  allocCommit : Bool
  allocBarrier : Bool
  mallocMemb : Bool

def Plug.filters (plug : Plug) : List Filter := (plug.profile.getD []).map Prod.fst

def Plug.call (plug : Plug) : Devices.Plug where
  name := plug.name
  uinput := plug.uinput
  device := plug.device
  setup := {
    profile := plug.profile.map fun filters => filters.map Prod.snd
    mallocLine := plug.mallocLine
    allocCommit := plug.allocCommit
    allocBarrier := plug.allocBarrier }
  mallocMemb := plug.mallocMemb

structure State where
  devices : Devices.State
  /-- The filters of the lines, by the addresses of these. -/
  filters : Priv → (n : Nat) × Front n
  written : Written

inductive Input
  | hotplug (fd : Nat)
  | plugged (plug : Plug)
  | data (here : Addr) (read : Line.ReadOutcome)
  | shutdown

/-- As far as devices and descriptors go. -/
def Input.seen : Input → Devices.Input
  | hotplug fd => .hotplug fd
  | plugged plug => .plugged plug.call
  | data here read => .data here read.seen
  | shutdown => .shutdown

/-- The filters go to the line that is allocated next. -/
def devicePlugged (s : State) (plug : Plug) : Option State :=
  (Devices.devicePlugged s.devices plug.call).map fun devices =>
    { s with
        devices
        filters := Function.update s.filters (s.devices.malloced + 1) ⟨plug.filters.length, Front.ofList plug.filters⟩ }

/-- No filter of the line stops evfd by a division. -/
def Survives (s : State) (priv : Priv) (uinputFd : Nat) (read : Line.ReadOutcome) : Prop :=
  let filters := s.filters priv
  let next := processOn (inputCommit s.devices.kernel uinputFd) filters.1
  Proc.Each next (Untrapped (inputCommit s.devices.kernel uinputFd) filters.1) (filters.2, s.written)
    ((Line.evfLineProcess read).calls next (filters.2, s.written))

instance (s : State) (priv : Priv) (uinputFd : Nat) (read : Line.ReadOutcome) :
    Decidable (Survives s priv uinputFd read) := inferInstanceAs (Decidable (Proc.Each ..))

/-- The filters and the devices after `evf_line_process`. -/
def evfLineProcess (s : State) (priv : Priv) (uinputFd : Nat) (read : Line.ReadOutcome) : State :=
  let filters := s.filters priv
  let after := (Line.evfLineProcess read).drive (processOn (inputCommit s.devices.kernel uinputFd) filters.1)
    (filters.2, s.written)
  { s with filters := Function.update s.filters priv ⟨filters.1, after.2.1⟩, written := after.2.2 }

/-- `evf_line_process` and what evfd does about the value that it returns. A division that traps ends the run. -/
def data (s : State) (here : Addr) (read : Line.ReadOutcome) : Option State :=
  (s.devices.queue.heap.get? here).bind fun memb => (s.devices.lines memb.val.priv).bind fun line =>
    (Devices.commitPriv line).bind fun uinputFd =>
      if Survives s memb.val.priv uinputFd read then
        (Devices.data s.devices here read.seen).map fun devices =>
          { evfLineProcess s memb.val.priv uinputFd read with devices }
      else none

def step (s : State) (input : Input) : Option State :=
  if s.devices.stopped then none
  else match input with
    | .hotplug fd => (Devices.hotplug s.devices fd).map fun devices => { s with devices }
    | .plugged plug => devicePlugged s plug
    | .data here read => data s here read
    | .shutdown => (Devices.shutdown s.devices).map fun devices => { s with devices }

def machine : Machine State Input where
  init := { devices := Devices.machine.init, filters := fun _ => ⟨0, ()⟩, written := fun _ => [] }
  step := step

/-- What is read from the line of a member. -/
def readsOf (here : Addr) (is : List Input) : List Line.ReadOutcome :=
  is.filterMap fun
    | .data self read => if self = here then some read else none
    | _ => none

/-- The filters on their own, with what they have committed. -/
def alone (fs : List Filter) (reads : List Line.ReadOutcome) : Line fs.length :=
  (Line.processing (process fs.length)).state (Front.line fs.length (Front.ofList fs) []) reads

variable {s s' : State} {k : Kernel} {n : Nat} {fs : List Filter} {here : Addr} {read : Line.ReadOutcome}
  {priv : Priv} {fd dev : Nat} {is : List Input} {input : Input} {plug : Plug} {front : Front n} {written : Written}

/-! ## One event -/

/-- The device of a line is given what the line commits, and the others nothing. -/
structure Commits (n : Nat) (dev : Nat) (before : Written) (s : Front n × Written) (line : Line n) : Prop where
  line : line = Front.line n s.1 (s.2 dev)
  others : ∀ other, other ≠ dev → s.2 other = before other

theorem inputCommit_alike (h : k.device fd = some dev) (before : Written) :
    AnswerAlike (fun w out => w dev = out ∧ ∀ other, other ≠ dev → w other = before other) (inputCommit k fd)
      (Proc.record id) := by
  rintro ev w _ ⟨rfl, hothers⟩
  simp only [inputCommit, h]
  refine ⟨rfl, Function.update_self .., fun other hother => ?_⟩
  rw [Function.update_of_ne hother, hothers other hother]

theorem processOn_commits (h : k.device fd = some dev) (n : Nat) (before : Written) :
    AnswerAlike (Commits n dev before) (processOn (inputCommit k fd) n) (process n) := by
  rintro ev s line ⟨hline, hothers⟩
  obtain ⟨hanswer, hfront, hout, hothers'⟩ := (inputCommit_alike h before).behind n ev s (s.1, s.2 dev)
    ⟨rfl, rfl, hothers⟩
  obtain ⟨hanswer', hline'⟩ := process_alike n ev (s.1, s.2 dev) line hline
  refine ⟨hanswer.trans hanswer', ?_, hothers'⟩
  rw [hline', hfront, hout]

/-- One read, as the line sees it and as the devices see it. -/
theorem evfLineProcess_commits (h : s.devices.kernel.device fd = some dev) (hn : s.filters priv = ⟨n, front⟩)
    (read : Line.ReadOutcome) :
    ∃ front', (evfLineProcess s priv fd read).filters priv = ⟨n, front'⟩ ∧
      Front.line n front' ((evfLineProcess s priv fd read).written dev) =
        ((Line.processing (process n)).step (Front.line n front (s.written dev)) read).1 ∧
      ∀ other, other ≠ dev → (evfLineProcess s priv fd read).written other = s.written other := by
  have hstart : Commits n dev s.written (front, s.written) (Front.line n front (s.written dev)) := ⟨rfl, fun _ _ => rfl⟩
  obtain ⟨-, hline, hothers⟩ := Proc.drive_related (processOn_commits h n s.written) (Line.evfLineProcess read) hstart
  unfold evfLineProcess
  rw [hn]
  exact ⟨_, Function.update_self .., hline.symm, hothers⟩

/-! ## What every step keeps -/

theorem step_seen (h : step s input = some s') : Devices.step s.devices input.seen = some s'.devices := by
  simp only [step] at h
  split at h
  · cases h
  rename_i hstopped
  simp only [Devices.step, hstopped]
  cases input with
  | hotplug fd =>
      obtain ⟨devices, hdevices, rfl⟩ := Option.map_eq_some_iff.mp h
      exact hdevices
  | plugged plug =>
      obtain ⟨devices, hdevices, rfl⟩ := Option.map_eq_some_iff.mp h
      exact hdevices
  | data here read =>
      obtain ⟨memb, -, h⟩ := Option.bind_eq_some_iff.mp h
      obtain ⟨line, -, h⟩ := Option.bind_eq_some_iff.mp h
      obtain ⟨fd, -, h⟩ := Option.bind_eq_some_iff.mp h
      split at h
      case isFalse => cases h
      obtain ⟨devices, hdevices, rfl⟩ := Option.map_eq_some_iff.mp h
      exact hdevices
  | shutdown =>
      obtain ⟨devices, hdevices, rfl⟩ := Option.map_eq_some_iff.mp h
      exact hdevices

/-- Lines are made for devices that understand `EVIOCGVERSION`. -/
def Answers (s : State) (input : Input) : Prop := Devices.Answers s.devices input.seen

/-- The descriptors are in order, and nothing has been written to devices that are yet to be created. -/
structure Running (s : State) : Prop where
  serving : Devices.Serving s.devices
  sound : s.devices.kernel.Sound
  unwritten : ∀ dev, s.devices.kernel.devices ≤ dev → s.written dev = []

/-- Between two states: the device `dev` behind the descriptor `fd`, which is that of the line at `priv`, whose member is
`here`. -/
structure Tracks (here : Addr) (priv : Priv) (fd dev : Nat) (fs : List Filter) (reads : List Line.ReadOutcome)
    (s : State) : Prop where
  live : s.devices.kernel.device fd = some dev
  address : here < s.devices.queue.heap.size
  known : priv ≤ s.devices.malloced
  owns : ∀ {addr line}, s.devices.lines addr = some line → (Devices.commitPriv line = some fd ↔ addr = priv)
  filters : ∀ {line}, s.devices.lines priv = some line → ∃ front, s.filters priv = ⟨fs.length, front⟩ ∧
    Front.line fs.length front (s.written dev) = alone fs reads
  member : ∀ x ∈ s.devices.queue.members, x.2.read = Devices.lineDataFn → (x.1 = here ↔ x.2.priv = priv)

variable {reads : List Line.ReadOutcome}

theorem device_congr {k' : Kernel} (h : k'.fds = k.fds) : k'.device = k.device := by
  funext fd
  simp only [Kernel.device, h]

theorem fds_of_device (h : k.device fd = some dev) : k.fds fd = some (.uinput (some dev)) := by
  unfold Kernel.device at h
  split at h
  · rename_i hfd
    rw [hfd, h]
  · cases h

theorem size_add {q : Queue} {read : ReadFn} : (evfIoQueueAdd q fd read priv true).1.heap.size = q.heap.size + 1 := by
  simp [evfIoQueueAdd, size_listInsert]

/-- What a read does to the state. -/
theorem data_eq (hserving : Devices.Serving s.devices) (h : data s here read = some s') : ∃ memb line fd dev,
    (here, memb) ∈ s.devices.queue.members ∧ memb.read = Devices.lineDataFn ∧
      s.devices.lines memb.priv = some line ∧ Devices.commitPriv line = some fd ∧
      s.devices.kernel.device fd = some dev ∧ Devices.data s.devices here read.seen = some s'.devices ∧
      s'.filters = (evfLineProcess s memb.priv fd read).filters ∧
      s'.written = (evfLineProcess s memb.priv fd read).written := by
  obtain ⟨memb, hmemb, h⟩ := Option.bind_eq_some_iff.mp h
  obtain ⟨line, hline, h⟩ := Option.bind_eq_some_iff.mp h
  obtain ⟨fd, hfd, h⟩ := Option.bind_eq_some_iff.mp h
  split at h
  case isFalse => cases h
  obtain ⟨devices, hdevices, rfl⟩ := Option.map_eq_some_iff.mp h
  obtain ⟨fd', dev, hfd', hdev⟩ := hserving.commits hline
  cases hfd.symm.trans hfd'
  have hread : memb.val.read = Devices.lineDataFn := by
    by_contra hread
    simp [Devices.data, hmemb, hread] at hdevices
  exact ⟨memb.val, line, fd, dev, hserving.ok.mem hmemb, hread, hline, hfd, by simp [Kernel.device, hdev], hdevices, rfl,
    rfl⟩

theorem written_other (h : s.devices.kernel.device fd = some dev) {other : Nat} (hother : other ≠ dev) :
    (evfLineProcess s priv fd read).written other = s.written other := by
  have hfront : s.filters priv = ⟨_, _⟩ := rfl
  obtain ⟨-, -, -, hothers⟩ := evfLineProcess_commits h hfront read
  exact hothers other hother

namespace Running

theorem start : Running machine.init where
  serving := .start
  sound := Devices.Running.start.sound
  unwritten _ _ := rfl

theorem step (h : Running s) (hc : Answers s input) (hs : step s input = some s')
    (hlive : s'.devices.stopped = false) : Running s' := by
  have hseen := step_seen hs
  have hstopped := Devices.step_live hseen
  simp only [Events.step, hstopped] at hs
  simp only [Devices.step, hstopped] at hseen
  cases input with
  | hotplug fd =>
      obtain ⟨devices, hdevices, rfl⟩ := Option.map_eq_some_iff.mp hs
      obtain ⟨kernel, hopen, rfl⟩ := Option.map_eq_some_iff.mp hdevices
      obtain ⟨-, rfl⟩ := opened_eq hopen
      exact ⟨h.serving.hotplug hdevices, h.sound.opened hopen (by simp), h.unwritten⟩
  | plugged plug =>
      obtain ⟨devices, hdevices, rfl⟩ := Option.map_eq_some_iff.mp hs
      refine ⟨(h.serving.plugged_iff hdevices).mpr (hc devices hdevices), ?_, fun dev hdev => h.unwritten dev ?_⟩
      · cases Devices.devicePlugged_cases hdevices with
        | kept sound => exact sound h.sound
        | added _ _ sound => exact sound h.sound
      · refine Nat.le_trans ?_ hdev
        rcases h.serving.plugged_cases hdevices with ⟨-, -, -, -, hmore⟩ | ⟨-, -, -, -, -, -, -, -, -, -, hmore⟩
        · exact hmore
        · exact hmore ▸ Nat.le_succ _
  | data here read =>
      obtain ⟨memb, line, fd, dev, -, -, -, -, hdev, hdevices, -, hwritten⟩ := data_eq h.serving hs
      obtain ⟨hsound, -, hsame, -⟩ := h.serving.data_keeps hdevices
      refine ⟨h.serving.data hdevices, hsound h.sound, fun other hother => ?_⟩
      rw [hsame] at hother
      have hne : other ≠ dev := fun he => Nat.not_lt_of_le hother (he ▸ h.sound.made hdev)
      rw [hwritten, written_other hdev hne, h.unwritten other hother]
  | shutdown =>
      have hleft : s'.devices.stopped = true := (Devices.cleanup_spec hseen).2.1
      simp [hleft] at hlive

end Running

/-! ## One line among the others -/

theorem alone_concat : alone fs (reads ++ [read]) =
    ((Line.processing (process fs.length)).step (alone fs reads) read).1 := Transducer.state_concat

theorem readsOf_self : readsOf here (.data here read :: is) = read :: readsOf here is := by simp [readsOf]

theorem readsOf_other {self : Addr} (h : self ≠ here) : readsOf here (.data self read :: is) = readsOf here is := by
  simp [readsOf, h]

namespace Tracks

/-- Other lines and members come and go. -/
theorem congr (h : Tracks here priv fd dev fs reads s)
    (hdevice : s'.devices.kernel.device fd = s.devices.kernel.device fd)
    (hsize : s.devices.queue.heap.size ≤ s'.devices.queue.heap.size)
    (hmalloced : s.devices.malloced ≤ s'.devices.malloced)
    (howns : ∀ {addr line}, s'.devices.lines addr = some line → s.devices.lines addr = some line ∨
      addr ≠ priv ∧ Devices.commitPriv line ≠ some fd)
    (hfilters : s'.filters priv = s.filters priv) (hwritten : s'.written dev = s.written dev)
    (hmember : ∀ x ∈ s'.devices.queue.members, x ∈ s.devices.queue.members ∨ x.2.read ≠ Devices.lineDataFn ∨
      x.1 ≠ here ∧ x.2.priv ≠ priv) : Tracks here priv fd dev fs reads s' where
  live := hdevice.trans h.live
  address := Nat.lt_of_lt_of_le h.address hsize
  known := Nat.le_trans h.known hmalloced
  owns ha := by
    rcases howns ha with ha | ⟨haddr, hcommit⟩
    · exact h.owns ha
    · exact iff_of_false hcommit haddr
  filters ha := by
    rcases howns ha with ha | ⟨haddr, -⟩
    · obtain ⟨front, hfront, hline⟩ := h.filters ha
      exact ⟨front, hfilters.trans hfront, hwritten ▸ hline⟩
    · exact absurd rfl haddr
  member x hx hread := by
    rcases hmember x hx with hx | hne | ⟨haddr, hpriv⟩
    · exact h.member x hx hread
    · exact absurd hread hne
    · exact iff_of_false haddr hpriv

theorem hotplug {new : Nat} (h : Tracks here priv fd dev fs reads s) (hserving : Devices.Serving s.devices)
    {devices : Devices.State} (hs : Devices.hotplug s.devices new = some devices) :
    Tracks here priv fd dev fs reads { s with devices } := by
  obtain ⟨kernel, hopen, rfl⟩ := Option.map_eq_some_iff.mp hs
  have hdevice := device_opened hopen (by simp)
  refine h.congr (congrFun hdevice fd) ?_ (Nat.le_refl _) (fun ha => Or.inl ha) rfl rfl fun x hx => ?_
  · exact size_add ▸ Nat.le_succ _
  · rcases mem_orderedInsert.mp ((evfIoQueueAdd_spec new Devices.hotplugDataFn 0 hserving.ok).2 ▸ hx) with rfl | hx
    · exact Or.inr (Or.inl (show Devices.hotplugDataFn ≠ Devices.lineDataFn by decide))
    · exact Or.inl hx

theorem plugged (h : Tracks here priv fd dev fs reads s) (hserving : Devices.Serving s.devices)
    (hs : devicePlugged s plug = some s') : Tracks here priv fd dev fs reads s' := by
  obtain ⟨devices, hdevices, rfl⟩ := Option.map_eq_some_iff.mp hs
  have hpriv : priv ≠ s.devices.malloced + 1 := Nat.ne_of_lt (Nat.lt_succ_of_le h.known)
  have hfilters : Function.update s.filters (s.devices.malloced + 1)
      ⟨plug.filters.length, Front.ofList plug.filters⟩ priv = s.filters priv := Function.update_of_ne hpriv ..
  have hopen := fds_of_device h.live
  rcases hserving.plugged_cases hdevices with ⟨hqueue, hlines, hfds, hmalloced, -⟩ |
    ⟨line, new, hfree, hunread, hapart, howned, hfds, hqueue, hmalloced, hlines, -⟩
  · refine h.congr (congrFun (device_congr hfds) fd) (by rw [hqueue]) hmalloced (fun ha => Or.inl ?_) hfilters rfl
      fun x hx => Or.inl ?_
    · exact hlines ▸ ha
    · exact hqueue ▸ hx
  · have hfd : new ≠ fd := fun he => by simp [he, hopen] at hfree
    have hread : line.fd ≠ fd := fun he => by simp [he, hopen] at hunread
    have hmore : s.devices.malloced ≤ devices.malloced := hmalloced ▸ Nat.le_succ _
    refine h.congr ?_ ?_ hmore (fun {addr self} ha => ?_) hfilters rfl fun x hx => ?_
    · simp only [Kernel.device, hfds, Function.update_of_ne hread.symm, Function.update_of_ne hfd.symm]
    · simp only [hqueue]
      exact size_add ▸ Nat.le_succ _
    · rw [hlines] at ha
      by_cases haddr : addr = s.devices.malloced + 1
      · rw [haddr, Function.update_self] at ha
        cases ha
        exact Or.inr ⟨haddr ▸ hpriv.symm, fun he => hfd (Option.some.inj (howned.symm.trans he))⟩
      · rw [Function.update_of_ne haddr] at ha
        exact Or.inl ha
    · have hmembers := (evfIoQueueAdd_spec line.fd Devices.lineDataFn (s.devices.malloced + 1) hserving.ok).2
      rw [← hqueue] at hmembers
      rcases mem_orderedInsert.mp (hmembers ▸ hx) with rfl | hx
      · exact Or.inr (Or.inr ⟨(Nat.ne_of_lt h.address).symm, hpriv.symm⟩)
      · exact Or.inl hx

/-- A read, of this line or of another one. -/
theorem data {self : Addr} (h : Tracks here priv fd dev fs reads s) (hrun : Running s)
    (hs : data s self read = some s') : Tracks here priv fd dev fs (reads ++ readsOf here [.data self read]) s' ∧
      (s.written dev = committed fs.length (alone fs reads) →
        s'.written dev = committed fs.length (alone fs (reads ++ readsOf here [.data self read]))) := by
  obtain ⟨memb, line, fd', dev', hmemb, hread, hline, hfd', hdev', hdevices, hfilters, hwritten⟩ :=
    data_eq hrun.serving hs
  obtain ⟨-, hdevice, -, hlines, hmembers⟩ := hrun.serving.data_keeps hdevices
  obtain ⟨-, hsize, hmalloced⟩ := Devices.data_allocates hrun.serving.ok hdevices
  by_cases hself : self = here
  · subst hself
    obtain rfl := (h.member _ hmemb hread).mp rfl
    cases hfd'.symm.trans ((h.owns hline).mpr rfl)
    cases hdev'.symm.trans h.live
    obtain ⟨front, hfront, hfs⟩ := h.filters hline
    obtain ⟨front', hfront', hfs', -⟩ := evfLineProcess_commits hdev' hfront read
    rw [hfs, ← alone_concat] at hfs'
    rw [readsOf_self]
    refine ⟨{
      live := hdevice ▸ h.live
      address := hsize ▸ h.address
      known := hmalloced ▸ h.known
      owns := fun ha => h.owns (hlines ha)
      filters := fun _ => ⟨front', hfilters ▸ hfront', hwritten ▸ hfs'⟩
      member := fun x hx => h.member x (hmembers x hx) }, fun _ => ?_⟩
    have hout := congrArg (committed fs.length) hfs'
    rwa [committed_line, ← hwritten] at hout
  · have hpriv : priv ≠ memb.priv := fun he => hself ((h.member _ hmemb hread).mpr he.symm)
    have hfd : fd' ≠ fd := fun he => hpriv ((h.owns hline).mp (he ▸ hfd')).symm
    have hdev : dev ≠ dev' := fun he => hfd (hrun.sound.owner (he ▸ hdev') h.live)
    have hsame : s'.written dev = s.written dev := by rw [hwritten, written_other hdev' hdev]
    rw [readsOf_other hself, readsOf, List.filterMap_nil, List.append_nil, hsame]
    refine ⟨h.congr (by rw [hdevice]) (Nat.le_of_eq hsize.symm) (Nat.le_of_eq hmalloced.symm)
      (fun ha => Or.inl (hlines ha)) ?_ hsame fun x hx => Or.inl (hmembers x hx), id⟩
    rw [hfilters]
    exact Function.update_of_ne hpriv ..

end Tracks

/-- What `dev` has been given, and how it goes on. -/
structure Tracked (here : Addr) (priv : Priv) (fd dev : Nat) (fs : List Filter) (reads : List Line.ReadOutcome)
    (s : State) : Prop where
  given : s.written dev = committed fs.length (alone fs reads)
  tracks : s.devices.stopped = false → Running s ∧ Tracks here priv fd dev fs reads s

theorem Tracked.step (h : Tracked here priv fd dev fs reads s) (hc : Answers s input) (hs : step s input = some s') :
    Tracked here priv fd dev fs (reads ++ readsOf here [input]) s' := by
  have hstopped := Devices.step_live (step_seen hs)
  obtain ⟨hrun, htracks⟩ := h.tracks hstopped
  have hrun' := hrun.step hc hs
  simp only [Events.step, hstopped] at hs
  cases input with
  | hotplug new =>
      obtain ⟨devices, hdevices, rfl⟩ := Option.map_eq_some_iff.mp hs
      rw [readsOf, List.filterMap_cons_none rfl, List.filterMap_nil, List.append_nil]
      exact ⟨h.given, fun hlive => ⟨hrun' hlive, htracks.hotplug hrun.serving hdevices⟩⟩
  | plugged plug =>
      have hwritten : s'.written = s.written := by
        obtain ⟨devices, -, rfl⟩ := Option.map_eq_some_iff.mp hs
        rfl
      rw [readsOf, List.filterMap_cons_none rfl, List.filterMap_nil, List.append_nil]
      exact ⟨hwritten ▸ h.given, fun hlive => ⟨hrun' hlive, htracks.plugged hrun.serving hs⟩⟩
  | data self read =>
      obtain ⟨htracks', hgiven⟩ := htracks.data hrun hs
      exact ⟨hgiven h.given, fun hlive => ⟨hrun' hlive, htracks'⟩⟩
  | shutdown =>
      obtain ⟨devices, hdevices, rfl⟩ := Option.map_eq_some_iff.mp hs
      rw [readsOf, List.filterMap_cons_none rfl, List.filterMap_nil, List.append_nil]
      refine ⟨h.given, fun hlive => ?_⟩
      have hleft : devices.stopped = true := (Devices.cleanup_spec hdevices).2.1
      simp [hleft] at hlive

theorem Tracked.run (h : Tracked here priv fd dev fs reads s) (hc : machine.Along Answers s is)
    (hr : machine.run s is = some s') : Tracked here priv fd dev fs (reads ++ readsOf here is) s' := by
  induction is generalizing s reads with
  | nil =>
      cases hr
      rwa [readsOf, List.filterMap_nil, List.append_nil]
  | cons input is ih =>
      obtain ⟨t, ht, hr⟩ := Option.bind_eq_some_iff.mp hr
      obtain ⟨hanswers, hrest⟩ := hc t ht
      have hnext := ih (h.step hanswers ht) hrest hr
      rwa [List.append_assoc, readsOf, readsOf, ← List.filterMap_append] at hnext

/-- A line is made and gets its place in the queue. -/
theorem Tracked.start (h : Running s) (hs : devicePlugged s plug = some s')
    (hadded : s'.devices.queue ≠ s.devices.queue) (hrun' : s'.devices.stopped = false → Running s') :
    ∃ fd, Tracked s.devices.queue.heap.size (s.devices.malloced + 1) fd s.devices.kernel.devices plug.filters [] s' := by
  obtain ⟨devices, hdevices, rfl⟩ := Option.map_eq_some_iff.mp hs
  rcases h.serving.plugged_cases hdevices with ⟨hqueue, -⟩ |
    ⟨line, fd, hfree, hunread, hapart, howned, hfds, hqueue, hmalloced, hlines, hmore⟩
  · exact absurd hqueue hadded
  have hempty := h.unwritten _ (Nat.le_refl _)
  have hmembers := (evfIoQueueAdd_spec line.fd Devices.lineDataFn (s.devices.malloced + 1) h.serving.ok).2
  rw [← hqueue] at hmembers
  have hold : ∀ {addr self}, s.devices.lines addr = some self → addr ≠ s.devices.malloced + 1 := fun ha =>
    Nat.ne_of_lt (Nat.lt_succ_of_le (h.serving.known ha))
  refine ⟨fd, ?_, fun hlive => ⟨hrun' hlive, ?_⟩⟩
  · change s.written s.devices.kernel.devices = _
    rw [hempty]
    exact committed_line.symm
  exact {
    live := by
      simp only [Kernel.device, hfds, Function.update_of_ne hapart.symm, Function.update_self]
    address := by
      simp only [hqueue]
      exact size_add ▸ Nat.lt_succ_self _
    known := Nat.le_of_eq hmalloced.symm
    owns := fun {addr self} ha => by
      rw [hlines] at ha
      by_cases haddr : addr = s.devices.malloced + 1
      · rw [haddr, Function.update_self] at ha
        cases ha
        exact iff_of_true howned haddr
      · rw [Function.update_of_ne haddr] at ha
        obtain ⟨fd', dev, howned', hfd'⟩ := h.serving.commits ha
        refine iff_of_false (fun he => ?_) haddr
        cases howned'.symm.trans he
        simp [hfd'] at hfree
    filters := fun _ => ⟨_, Function.update_self .., congrArg (Front.line _ _) hempty⟩
    member := fun x hx hread => by
      rcases mem_orderedInsert.mp (hmembers ▸ hx) with rfl | hx
      · exact iff_of_true rfl rfl
      · obtain ⟨self, hself, -⟩ := h.serving.queued x hx hread
        refine iff_of_false (fun he => ?_) (hold hself)
        obtain ⟨n, hget⟩ := h.serving.ok.rep.chain.get (show (x.1, x.2) ∈ _ from hx)
        exact Nat.ne_of_lt (Heap.lt_size_of_get? hget) he }

/-- Each uinput device is given what the filters of its line, as they were loaded, commit of what is read from that
line: whatever is plugged in before and after it, whatever is read from other lines in between, also when reads fail,
and also after evfd has destroyed the line or all of them. -/
theorem written_alone {before after : List Input} {s₀ s₁ : State}
    (hanswers : machine.Along Answers machine.init (before ++ .plugged plug :: after))
    (h₀ : machine.run machine.init before = some s₀) (h₁ : step s₀ (.plugged plug) = some s₁)
    (hadded : s₁.devices.queue ≠ s₀.devices.queue) (h : machine.run s₁ after = some s) :
    s.written s₀.devices.kernel.devices =
      committed plug.filters.length (alone plug.filters (readsOf s₀.devices.queue.heap.size after)) := by
  obtain ⟨hbefore, hplugged⟩ := hanswers.append h₀
  obtain ⟨hc, hafter⟩ := hplugged s₁ h₁
  have hthroughout : machine.Throughout (fun s => s.devices.stopped = false → Running s) machine.init before :=
    hbefore.throughout (fun _ => .start) fun hj hc hs hlive => (hj (Devices.step_live (step_seen hs))).step hc hs hlive
  have hstopped := Devices.step_live (step_seen h₁)
  have hrun := hthroughout.last h₀ hstopped
  have hrun₁ : s₁.devices.stopped = false → Running s₁ := hrun.step hc h₁
  have hs₁ : devicePlugged s₀ plug = some s₁ := by simpa [step, hstopped] using h₁
  obtain ⟨fd, htracked⟩ := Tracked.start hrun hs₁ hadded hrun₁
  exact (htracked.run hafter h).given

/-- A device with one filter in its profile. -/
def mouse (uinput device : Nat) (filter : Filter) : Plug :=
  ⟨some (CString.literal "mouse"), ⟨some uinput, true, true⟩, ⟨some device, true⟩, some [(filter, 0)], true, true, true,
    true⟩

/-- Another device is plugged in and gone, and both are read. -/
def twoMice : List Input :=
  [.data 0 (.whole ⟨(1, 0), evRel, relX, 5⟩), .plugged (mouse 6 7 (.keyLock ⟨30, 0, false⟩)),
    .data 1 (.whole ⟨(2, 0), evRel, relX, 7⟩), .data 1 (.error Devices.ENODEV ⟨(0, 0), 0, 0, 0⟩),
    .data 0 (.whole ⟨(3, 0), evRel, relX, 6⟩), .shutdown]

theorem twoMice_alone : ∃ s,
    machine.run machine.init (.plugged (mouse 4 5 (.mirror ⟨false, false, true, false⟩)) :: twoMice) = some s ∧
      s.written 0 = committed 1 (alone [.mirror ⟨false, false, true, false⟩] (readsOf 0 twoMice)) := by
  have hanswers : machine.Along Answers machine.init
      ([] ++ .plugged (mouse 4 5 (.mirror ⟨false, false, true, false⟩)) :: twoMice) :=
    fun _ _ => ⟨fun _ _ _ => rfl, fun _ _ => ⟨trivial, fun _ _ => ⟨fun _ _ _ => rfl, fun _ _ => ⟨trivial, fun _ _ =>
      ⟨trivial, fun _ _ => ⟨trivial, fun _ _ => ⟨trivial, trivial⟩⟩⟩⟩⟩⟩⟩
  exact ⟨_, rfl, written_alone hanswers rfl rfl (by decide) rfl⟩

end Evfilter.Evfd.Events
