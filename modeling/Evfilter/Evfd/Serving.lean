import Evfilter.Evfd.Accounting
import Evfilter.IoQueue.Lemmas.Invariants

/-!
# The descriptors of the lines

As long as every device that a line is made for understands `EVIOCGVERSION`, each line reads through a descriptor of its
own and commits through one of its own, whatever is plugged in and whatever fails to be read.
-/

namespace Evfilter.Evfd.Devices
open Lib IoQueue

/-- What the lines and the queue have open while `main` is in its loop. -/
structure Serving (s : State) : Prop where
  ok : s.queue.Ok
  descending : s.queue.members.Pairwise fun x y => y.2.fd < x.2.fd
  known : ∀ {addr line}, s.lines addr = some line → addr ≤ s.malloced
  reads : ∀ {addr line}, s.lines addr = some line → s.kernel.fds line.fd = some .input
  commits : ∀ {addr line}, s.lines addr = some line → ∃ fd dev, commitPriv line = some fd ∧
    s.kernel.fds fd = some (.uinput (some dev))
  apart : ∀ {addr addr' line line'}, s.lines addr = some line → s.lines addr' = some line' → addr ≠ addr' →
    line.fd ≠ line'.fd ∧ commitPriv line ≠ commitPriv line'
  queued : ∀ x ∈ s.queue.members, x.2.read = lineDataFn → ∃ line, s.lines x.2.priv = some line ∧ line.fd = x.2.fd
  others : ∀ x ∈ s.queue.members, x.2.read ≠ lineDataFn → s.kernel.fds x.2.fd = some .hotplug

/-- A line is made only for a device that understands `EVIOCGVERSION`. -/
def Answers (s : State) : Input → Prop
  | .plugged plug => ∀ s', devicePlugged s plug = some s' → s'.queue ≠ s.queue → plug.device.version = true
  | _ => True

variable {s s' : State} {k k' : Kernel} {dev : Device} {setup : Setup} {plug : Plug} {line : Line} {fd : Nat}
  {priv addr : Priv} {x : Addr × Memb}

/-! ## What is opened -/

/-- What the descriptor of a line refers to when the line is made. -/
def inputFile (dev : Device) : Option File := if dev.version then some .input else none

theorem fds_close : (k.close fd).fds = Function.update k.fds fd none := rfl

theorem fds_retired (hfree : k.fds fd = none) (hfds : k'.fds = (k.uiDevCreate fd).fds) :
    (evfUinputDestroy k' fd).fds = k.fds := by
  rw [evfUinputDestroy_eq, fds_close, hfds]
  simp [Kernel.uiDevCreate, ← hfree]

theorem openInputDevice_fds {ret : Int} (h : openInputDevice k dev = some (k', ret)) (hret : ¬ ret < 0) :
    k'.fds = Function.update k.fds ret.toNat (inputFile dev) := by
  unfold openInputDevice at h
  cases hfd : dev.fd with
  | none =>
      rw [hfd] at h
      cases h
      exact absurd (by decide) hret
  | some fd =>
      rw [hfd] at h
      obtain ⟨k₁, hk₁, h⟩ := Option.map_eq_some_iff.mp h
      obtain ⟨hfree, rfl⟩ := opened_eq hk₁
      unfold inputFile
      split at h
      · rename_i hversion
        cases h
        simp [hversion]
      · rename_i hversion
        cases h
        simp [Kernel.close, hversion]

/-- The descriptors of a line that is made. -/
theorem evfLineCreate_fds {addr : Priv} (h : evfLineCreate s dev setup priv 0 false = some (s', some addr))
    (hline : s'.lines addr = some line) : s'.kernel.fds = Function.update s.kernel.fds line.fd (inputFile dev) := by
  obtain ⟨⟨k, ret⟩, hopen, h⟩ := Option.map_eq_some_iff.mp h
  split at h
  · cases h
  rename_i hret
  have hfds := openInputDevice_fds hopen hret
  cases hprofile : setup.profile with
  | none =>
      rw [hprofile] at h
      cases h
  | some filters =>
      rw [hprofile] at h
      simp only [] at h
      split at h
      · cases h
      split at h
      · cases h
      split at h
      · cases h
      cases h
      cases (Function.update_self ..).symm.trans hline
      exact hfds

/-- What a call of `device_plugged` opens. -/
inductive Opened (s s' : State) (plug : Plug) : Prop
  | kept (fds : s'.kernel.fds = s.kernel.fds) (devices : s.kernel.devices ≤ s'.kernel.devices)
      (lines : s'.lines (s.malloced + 1) = none ∨ s'.lines = s.lines)
  | added (line : Line) (fd : Nat) (made : s'.lines (s.malloced + 1) = some line) (owned : commitPriv line = some fd)
      (free : s.kernel.fds fd = none) (unread : s.kernel.fds line.fd = none) (apart : line.fd ≠ fd)
      (fds : s'.kernel.fds = Function.update
        (Function.update s.kernel.fds fd (some (.uinput (some s.kernel.devices)))) line.fd (inputFile plug.device))
      (devices : s'.kernel.devices = s.kernel.devices + 1)

theorem devicePlugged_opened (h : devicePlugged s plug = some s') : Opened s s' plug := by
  simp only [devicePlugged] at h
  split at h
  · cases h
    exact .kept rfl (Nat.le_refl _) (Or.inr rfl)
  obtain ⟨⟨k, ret⟩, hcreate, h⟩ := Option.bind_eq_some_iff.mp h
  rcases evfUinputCreate_cases hcreate with ⟨rfl, hneg⟩ | ⟨fd, rfl, hfree, rfl⟩
  · rw [if_pos hneg] at h
    cases h
    exact .kept rfl (Nat.le_refl _) (Or.inr rfl)
  have hpos : ¬ (fd : Int) < 0 := by omega
  simp only [hpos, if_false, Int.toNat_natCast] at h
  obtain ⟨r, hline, h⟩ := Option.bind_eq_some_iff.mp h
  rcases evfLineCreate_cases hline with rfl | ⟨k, line, hr, hlfree, howned, hback, -, -, hs⟩
  · cases h
    refine .kept (fds_retired hfree rfl) ?_ (Or.inr rfl)
    rw [evfUinputDestroy_eq]
    exact Nat.le_succ _
  have hself : r.1.lines (s.malloced + 1) = some line := by
    rw [hs]
    exact Function.update_self ..
  have hdevices : r.1.kernel.devices = s.kernel.devices + 1 := by
    rw [hs]
    exact congrArg Kernel.devices hback
  obtain ⟨s₁, _⟩ := r
  subst hr
  replace hdevices : s₁.kernel.devices = s.kernel.devices + 1 := hdevices
  replace hself : s₁.lines (s.malloced + 1) = some line := hself
  have hfds := evfLineCreate_fds hline hself
  have hapart : line.fd ≠ fd := fun he => by simp [Kernel.uiDevCreate, he] at hlfree
  have hunread : s.kernel.fds line.fd = none := by
    simpa [Kernel.uiDevCreate, hapart] using hlfree
  simp only [hself, Option.bind_some] at h
  split at h
  · obtain ⟨r, hdestroy, rfl⟩ := Option.map_eq_some_iff.mp h
    obtain ⟨line', hline', -, hr⟩ := evfLineDestroy_eq hdestroy
    cases hself.symm.trans hline'
    rw [hr]
    have hmore : s.kernel.devices ≤ s₁.kernel.devices := hdevices ▸ Nat.le_succ _
    refine .kept ?_ (by rw [evfUinputDestroy_eq]; exact hmore) (Or.inl (Function.update_self ..))
    -- What has been opened is closed again.
    simp only [evfUinputDestroy_eq, fds_close, hfds, Kernel.uiDevCreate]
    funext a
    by_cases ha : a = line.fd
    · rw [ha, Function.update_self, hunread]
    · by_cases hfd : a = fd
      · rw [Function.update_of_ne ha, hfd, Function.update_self, hfree]
      · simp [ha, hfd]
  · cases h
    exact .added line fd hself howned hfree hunread hapart hfds hdevices

/-! ## What every step keeps -/

namespace Serving

theorem start : Serving machine.init where
  ok := Queue.empty_ok
  descending := .nil
  known h := by cases h
  reads h := by cases h
  commits h := by cases h
  apart h := by cases h
  queued _ h := by cases h
  others _ h := by cases h

/-- Opening and closing other descriptors. -/
theorem congr (h : Serving s) (hqueue : s'.queue = s.queue) (hlines : s'.lines = s.lines)
    (hmalloced : s.malloced ≤ s'.malloced) (hfds : ∀ a, s.kernel.fds a ≠ none → s'.kernel.fds a = s.kernel.fds a) :
    Serving s' where
  ok := hqueue ▸ h.ok
  descending := hqueue ▸ h.descending
  known ha := Nat.le_trans (h.known (hlines ▸ ha)) hmalloced
  reads ha := by
    have hread := h.reads (hlines ▸ ha)
    rw [hfds _ (by simp [hread]), hread]
  commits ha := by
    obtain ⟨fd, dev, howned, hfd⟩ := h.commits (hlines ▸ ha)
    exact ⟨fd, dev, howned, by rw [hfds _ (by simp [hfd]), hfd]⟩
  apart ha ha' := h.apart (hlines ▸ ha) (hlines ▸ ha')
  queued x hx := by
    rw [hlines]
    exact h.queued x (hqueue ▸ hx)
  others x hx hread := by
    have hfd := h.others x (hqueue ▸ hx) hread
    rw [hfds _ (by simp [hfd]), hfd]

/-- Every member of the queue has its descriptor open. -/
theorem member_open (h : Serving s) (hx : x ∈ s.queue.members) : s.kernel.fds x.2.fd ≠ none := by
  by_cases hread : x.2.read = lineDataFn
  · obtain ⟨line, hline, hfd⟩ := h.queued x hx hread
    rw [← hfd, h.reads hline]
    simp
  · simp [h.others x hx hread]

theorem fresh (h : Serving s) : s.lines (s.malloced + 1) = none := by
  cases hline : s.lines (s.malloced + 1) with
  | none => rfl
  | some line => exact absurd (h.known hline) (Nat.not_succ_le_self _)

/-- A member with a free descriptor. -/
theorem descending_add {read : ReadFn} (h : Serving s) (hfree : s.kernel.fds fd = none) :
    (s.queue.members.orderedInsert Before (s.queue.heap.size, ⟨fd, read, priv⟩)).Pairwise
      fun x y => y.2.fd < x.2.fd :=
  pairwise_orderedInsert h.descending fun _ hy he => h.member_open hy (he ▸ hfree)

theorem added (h : Serving s) (hfree : s.kernel.fds fd = none)
    (hunread : s.kernel.fds line.fd = none) (hapart : line.fd ≠ fd) (howned : commitPriv line = some fd)
    (hfds : s'.kernel.fds = Function.update
      (Function.update s.kernel.fds fd (some (.uinput (some s.kernel.devices)))) line.fd (some .input))
    (hqueue : s'.queue = (evfIoQueueAdd s.queue line.fd lineDataFn (s.malloced + 1) true).1)
    (hmalloced : s'.malloced = s.malloced + 1)
    (hlines : s'.lines = Function.update s.lines (s.malloced + 1) (some line)) : Serving s' := by
  obtain ⟨hok, hmembers⟩ := evfIoQueueAdd_spec line.fd lineDataFn (s.malloced + 1) h.ok
  rw [← hqueue] at hok hmembers
  have hkept : ∀ a, s.kernel.fds a ≠ none → s'.kernel.fds a = s.kernel.fds a := by
    intro a ha
    have hline : a ≠ line.fd := fun he => ha (he ▸ hunread)
    have hfd : a ≠ fd := fun he => ha (he ▸ hfree)
    rw [hfds, Function.update_of_ne hline, Function.update_of_ne hfd]
  have hnew : s'.kernel.fds line.fd = some .input := by
    rw [hfds]
    exact Function.update_self ..
  have hcommit : s'.kernel.fds fd = some (.uinput (some s.kernel.devices)) := by
    rw [hfds, Function.update_of_ne hapart.symm]
    exact Function.update_self ..
  have hcases : ∀ {addr self}, s'.lines addr = some self → addr = s.malloced + 1 ∧ self = line ∨
      s.lines addr = some self := by
    intro addr self ha
    rw [hlines] at ha
    by_cases haddr : addr = s.malloced + 1
    · rw [haddr, Function.update_self] at ha
      exact Or.inl ⟨haddr, (Option.some.inj ha).symm⟩
    · rw [Function.update_of_ne haddr] at ha
      exact Or.inr ha
  have hdiffers : ∀ {addr self}, s.lines addr = some self → line.fd ≠ self.fd ∧ commitPriv line ≠ commitPriv self := by
    intro addr self ha
    obtain ⟨fd', dev, howned', hfd'⟩ := h.commits ha
    refine ⟨fun he => ?_, fun he => ?_⟩
    · rw [he, h.reads ha] at hunread
      cases hunread
    · rw [howned, howned'] at he
      rw [Option.some.inj he, hfd'] at hfree
      cases hfree
  exact {
    ok := hok
    descending := hmembers ▸ h.descending_add hunread
    known := fun ha => by
      rw [hmalloced]
      rcases hcases ha with ⟨rfl, -⟩ | ha
      · exact Nat.le_refl _
      · exact Nat.le_succ_of_le (h.known ha)
    reads := fun ha => by
      rcases hcases ha with ⟨-, rfl⟩ | ha
      · exact hnew
      · rw [hkept _ (by simp [h.reads ha]), h.reads ha]
    commits := fun ha => by
      rcases hcases ha with ⟨-, rfl⟩ | ha
      · exact ⟨fd, _, howned, hcommit⟩
      · obtain ⟨fd', dev, howned', hfd'⟩ := h.commits ha
        exact ⟨fd', dev, howned', by rw [hkept _ (by simp [hfd']), hfd']⟩
    apart := fun ha ha' hne => by
      rcases hcases ha with ⟨rfl, rfl⟩ | ha <;> rcases hcases ha' with ⟨rfl, rfl⟩ | ha'
      · exact absurd rfl hne
      · exact hdiffers ha'
      · exact ⟨(hdiffers ha).1.symm, (hdiffers ha).2.symm⟩
      · exact h.apart ha ha' hne
    queued := fun x hx hread => by
      rcases mem_orderedInsert.mp (hmembers ▸ hx) with rfl | hx
      · exact ⟨line, by rw [hlines]; exact Function.update_self .., rfl⟩
      · obtain ⟨self, hself, hfd⟩ := h.queued x hx hread
        refine ⟨self, ?_, hfd⟩
        rw [hlines, Function.update_of_ne (Nat.ne_of_lt (Nat.lt_succ_of_le (h.known hself))), hself]
    others := fun x hx hread => by
      rcases mem_orderedInsert.mp (hmembers ▸ hx) with rfl | hx
      · exact absurd rfl hread
      · rw [hkept _ (h.member_open hx), h.others x hx hread] }

/-- A call of `device_plugged` adds a line and its member, or leaves the lines and the queue as they are. -/
theorem plugged_cases (h : Serving s) (hs : devicePlugged s plug = some s') :
    (s'.queue = s.queue ∧ s'.lines = s.lines ∧ s'.kernel.fds = s.kernel.fds ∧ s.malloced ≤ s'.malloced ∧
        s.kernel.devices ≤ s'.kernel.devices) ∨
      ∃ line fd, s.kernel.fds fd = none ∧ s.kernel.fds line.fd = none ∧ line.fd ≠ fd ∧ commitPriv line = some fd ∧
        s'.kernel.fds = Function.update
          (Function.update s.kernel.fds fd (some (.uinput (some s.kernel.devices)))) line.fd (inputFile plug.device) ∧
        s'.queue = (evfIoQueueAdd s.queue line.fd lineDataFn (s.malloced + 1) true).1 ∧
        s'.malloced = s.malloced + 1 ∧ s'.lines = Function.update s.lines (s.malloced + 1) (some line) ∧
        s'.kernel.devices = s.kernel.devices + 1 := by
  have hopened := devicePlugged_opened hs
  cases devicePlugged_cases hs with
  | kept sound device queue stopped malloced lines older =>
      have hsame : s'.lines = s.lines := by
        funext addr
        by_cases haddr : addr ≤ s.malloced
        · exact lines addr haddr
        · have hnone : ∀ line, s.lines addr ≠ some line := fun line hline => haddr (h.known hline)
          rw [Option.eq_none_iff_forall_ne_some.mpr hnone]
          exact Option.eq_none_iff_forall_ne_some.mpr fun line hline => hnone line (older hline)
      cases hopened with
      | kept fds devices _ => exact Or.inl ⟨queue, hsame, fds, malloced, devices⟩
      | added line fd made =>
          rw [hsame, h.fresh] at made
          cases made
  | added line fd sound free apart owned device queue stopped malloced lines =>
      have hmade : s'.lines (s.malloced + 1) = some line := by
        rw [lines]
        exact Function.update_self ..
      cases hopened with
      | kept fds _ hlines =>
          rcases hlines with hnone | hsame
          · cases hmade.symm.trans hnone
          · rw [hsame, h.fresh] at hmade
            cases hmade
      | added line' fd' made owned' free' unread apart' fds devices =>
          cases made.symm.trans hmade
          cases owned'.symm.trans owned
          exact Or.inr ⟨line, fd, free', unread, apart', owned, fds, queue, malloced, lines, devices⟩

theorem add_changes {read : ReadFn} (h : Serving s) : (evfIoQueueAdd s.queue fd read priv true).1 ≠ s.queue := by
  intro he
  have hmembers := (evfIoQueueAdd_spec fd read priv h.ok).2
  rw [he] at hmembers
  have hmem : (s.queue.heap.size, ⟨fd, read, priv⟩) ∈ s.queue.members := by
    rw [hmembers]
    exact mem_orderedInsert.mpr (Or.inl rfl)
  obtain ⟨n, hget⟩ := h.ok.rep.chain.get hmem
  exact Nat.lt_irrefl _ (Heap.lt_size_of_get? hget)

/-- A call of `device_plugged` keeps to the descriptors, unless it makes a line for a device without a version. -/
theorem plugged_iff (h : Serving s) (hs : devicePlugged s plug = some s') :
    Serving s' ↔ (s'.queue ≠ s.queue → plug.device.version = true) := by
  rcases h.plugged_cases hs with ⟨hqueue, hlines, hfds, hmalloced, -⟩ |
    ⟨line, fd, hfree, hunread, hapart, howned, hfds, hqueue, hmalloced, hlines, -⟩
  · refine ⟨fun _ hne => absurd hqueue hne, fun _ => h.congr hqueue hlines hmalloced fun a _ => ?_⟩
    rw [hfds]
  · constructor
    · intro h' _
      have hmade : s'.lines (s.malloced + 1) = some line := by
        rw [hlines]
        exact Function.update_self ..
      have hread := h'.reads hmade
      rw [hfds, Function.update_self, inputFile] at hread
      by_contra hversion
      rw [if_neg hversion] at hread
      cases hread
    · intro hversion
      have hnew : s'.queue ≠ s.queue := hqueue ▸ h.add_changes
      rw [inputFile, if_pos (hversion hnew)] at hfds
      exact h.added hfree hunread hapart howned hfds hqueue hmalloced hlines

theorem hotplug (h : Serving s) (hs : hotplug s fd = some s') : Serving s' := by
  obtain ⟨kernel, hopen, rfl⟩ := Option.map_eq_some_iff.mp hs
  obtain ⟨hfree, rfl⟩ := opened_eq hopen
  obtain ⟨hok, hmembers⟩ := evfIoQueueAdd_spec fd hotplugDataFn 0 h.ok
  have hkept : ∀ a, s.kernel.fds a ≠ none → Function.update s.kernel.fds fd (some .hotplug) a = s.kernel.fds a := by
    intro a ha
    have hne : a ≠ fd := fun he => ha (he ▸ hfree)
    exact Function.update_of_ne hne ..
  exact {
    ok := hok
    descending := by
      simp only [hmembers]
      exact h.descending_add hfree
    known := h.known
    reads := fun ha => (hkept _ (by simp [h.reads ha])).trans (h.reads ha)
    commits := fun ha => by
      obtain ⟨fd', dev, howned, hfd⟩ := h.commits ha
      exact ⟨fd', dev, howned, (hkept _ (by simp [hfd])).trans hfd⟩
    apart := h.apart
    queued := fun x hx hread => by
      rcases mem_orderedInsert.mp (hmembers ▸ hx) with rfl | hx
      · simp [hotplugDataFn, lineDataFn] at hread
      · exact h.queued x hx hread
    others := fun x hx hread => by
      rcases mem_orderedInsert.mp (hmembers ▸ hx) with rfl | hx
      · exact Function.update_self ..
      · exact (hkept _ (h.member_open hx)).trans (h.others x hx hread) }

end Serving

/-- Reading a line allocates nothing. -/
theorem data_allocates {here : Addr} {read : Read} (hok : s.queue.Ok) (h : Devices.data s here read = some s') :
    s'.queue.Ok ∧ s'.queue.heap.size = s.queue.heap.size ∧ s'.malloced = s.malloced := by
  simp only [Devices.data] at h
  split at h
  · cases h
  rename_i memb hmemb
  split at h
  · obtain ⟨⟨s₁, ret⟩, hdata, rfl⟩ := Option.map_eq_some_iff.mp h
    obtain ⟨line, hline, hdata⟩ := Option.bind_eq_some_iff.mp hdata
    split at hdata
    · obtain ⟨r, hdestroy, hr⟩ := Option.map_eq_some_iff.mp hdata
      cases hr
      obtain ⟨_, -, -, hr⟩ := evfLineDestroy_eq hdestroy
      have hrem : evfIoQueueRemFlag ≠ evfIoQueueOk := by decide
      simp only [hr, hrem, if_false]
      have hflag : evfIoQueueRemFlag &&& evfIoQueueRemFlag ≠ 0 := by decide
      rw [afterRead, if_pos hflag]
      exact ⟨(listDelete_spec _ _ _ hok).1, size_listDelete, trivial⟩
    · cases hdata
      exact ⟨hok, rfl, rfl⟩
  · cases h

namespace Serving

/-- A line that cannot be read goes with its own member. -/
theorem data {here : Addr} {read : Read} (h : Serving s) (hs : Devices.data s here read = some s') : Serving s' := by
  obtain ⟨hok, -, hmalloced⟩ := data_allocates h.ok hs
  rcases data_cases h.ok hs with ⟨-, rfl⟩ | ⟨-, memb, line, hx, hread, hline, hkernel, hlines, -, hmembers⟩
  · exact h
  have hfd : line.fd = memb.fd := by
    obtain ⟨self, hself, hfd⟩ := h.queued _ hx hread
    cases hline.symm.trans hself
    exact hfd
  have hkept : ∀ a, a ≠ line.fd → s'.kernel.fds a = s.kernel.fds a := by
    intro a ha
    rw [hkernel, fds_close, Function.update_of_ne ha]
  have hclosed : s.kernel.fds line.fd = some .input := h.reads hline
  have hleft : ∀ {addr self}, s'.lines addr = some self → addr ≠ memb.priv ∧ s.lines addr = some self := by
    intro addr self ha
    rw [hlines] at ha
    by_cases haddr : addr = memb.priv
    · rw [haddr, Function.update_self] at ha
      cases ha
    · exact ⟨haddr, by rwa [Function.update_of_ne haddr] at ha⟩
  exact {
    ok := hok
    descending := by
      rw [hmembers]
      exact h.descending.eraseP _
    known := fun ha => hmalloced ▸ h.known (hleft ha).2
    reads := fun ha => by
      obtain ⟨hne, ha⟩ := hleft ha
      rw [hkept _ (h.apart ha hline hne).1, h.reads ha]
    commits := fun ha => by
      obtain ⟨fd', dev, howned, hfd'⟩ := h.commits (hleft ha).2
      have hne : fd' ≠ line.fd := fun he => by simp [he, hclosed] at hfd'
      exact ⟨fd', dev, howned, by rw [hkept _ hne, hfd']⟩
    apart := fun ha ha' => h.apart (hleft ha).2 (hleft ha').2
    queued := fun x hx' hread' => by
      obtain ⟨hx', hne⟩ := (mem_eraseP h.descending).mp (hmembers ▸ hx')
      obtain ⟨self, hself, hfd'⟩ := h.queued x hx' hread'
      have hpriv : x.2.priv ≠ memb.priv := by
        intro he
        rw [he, hline] at hself
        cases hself
        exact hne (hfd'.symm.trans hfd)
      exact ⟨self, by rw [hlines, Function.update_of_ne hpriv, hself], hfd'⟩
    others := fun x hx' hread' => by
      have hother := h.others x (mem_eraseP h.descending |>.mp (hmembers ▸ hx')).1 hread'
      have hne : x.2.fd ≠ line.fd := fun he => by simp [he, hclosed] at hother
      rw [hkept _ hne, hother] }

/-- Of what is there, only the line and its member go. -/
theorem data_keeps {here : Addr} {read : Read} (h : Serving s) (hs : Devices.data s here read = some s') :
    (s.kernel.Sound → s'.kernel.Sound) ∧ s'.kernel.device = s.kernel.device ∧
      s'.kernel.devices = s.kernel.devices ∧ (∀ {addr line}, s'.lines addr = some line → s.lines addr = some line) ∧
      ∀ x ∈ s'.queue.members, x ∈ s.queue.members := by
  rcases data_cases h.ok hs with ⟨-, rfl⟩ | ⟨-, memb, line, -, -, hline, hkernel, hlines, -, hmembers⟩
  · exact ⟨id, rfl, rfl, id, fun _ => id⟩
  have hnone : s.kernel.device line.fd = none := by simp [Kernel.device, h.reads hline]
  refine ⟨fun hsound => hkernel ▸ hsound.close line.fd, ?_, by rw [hkernel]; rfl, fun {addr self} ha => ?_, fun x hx => ?_⟩
  · rw [hkernel, device_close]
    exact Function.update_eq_self_iff.mpr hnone.symm
  · rw [hlines] at ha
    by_cases haddr : addr = memb.priv
    · rw [haddr, Function.update_self] at ha
      cases ha
    · rwa [Function.update_of_ne haddr] at ha
  · exact List.mem_of_mem_eraseP (hmembers ▸ hx)

end Serving

/-! ## Runs -/

/-- Whatever is plugged in and whatever fails to be read, the descriptors of the lines are open, and nothing else uses
them, as long as no line is made for a device that does not understand `EVIOCGVERSION`, and no longer. -/
theorem serving_iff (is : List Input) : machine.Throughout (fun s => s.stopped = false → Serving s) machine.init is ↔
    machine.Along Answers machine.init is := by
  have keep : ∀ {s s' : State} {input : Input}, (s.stopped = false → Serving s) → step s input = some s' →
      ((s'.stopped = false → Serving s') ↔ Answers s input) := by
    intro s s' input h hs
    have hstopped := step_live hs
    have hserving := h hstopped
    simp only [step, hstopped] at hs
    cases input with
    | hotplug fd => exact ⟨fun _ => trivial, fun _ _ => hserving.hotplug hs⟩
    | plugged plug =>
        have hlive : s'.stopped = false := by
          cases devicePlugged_cases hs with
          | kept sound device queue stopped => exact stopped.trans hstopped
          | added line fd sound free apart owned device queue stopped => exact stopped.trans hstopped
        constructor
        · intro h' t ht hne
          cases hs.symm.trans ht
          exact (hserving.plugged_iff hs).mp (h' hlive) hne
        · exact fun hc _ => (hserving.plugged_iff hs).mpr (hc s' hs)
    | data here read => exact ⟨fun _ => trivial, fun _ _ => hserving.data hs⟩
    | shutdown =>
        refine ⟨fun _ => trivial, fun _ hlive => ?_⟩
        have hleft : s'.stopped = true := (cleanup_spec hs).2.1
        simp [hleft] at hlive
  have start : machine.init.stopped = false → Serving machine.init := fun _ => Serving.start
  constructor
  · intro h
    exact h.along Machine.along_true start (fun hj _ hc hs => (keep hj hs).mpr hc) fun hj _ hs hp => (keep hj hs).mp hp
  · intro h
    exact h.throughout start fun hj hc hs => (keep hj hs).mpr hc

end Evfilter.Evfd.Devices
