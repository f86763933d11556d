import Evfilter.Evfd.Devices
import Evfilter.IoQueue.Lemmas.View
import Mathlib.Data.List.Pairwise

/-!
# The devices of the lines in the queue

What one call of `device_plugged` can come to, and from it the invariant of the runs in which no line fails to be
read: the live devices are those of the lines in the queue.
-/

namespace Evfilter.Evfd.Devices
open Lib IoQueue

variable {s s' : State} {k k' : Kernel} {dev : Device} {setup : Setup} {plug : Plug} {line : Line}
  {lines lines' : Priv → Option Line} {fd data : Nat} {priv : Priv} {x : Addr × Memb} {is : List (Addr × Memb)}
  {filters : List LineFilter}

/-! ## Lines -/

theorem evfFiltersFree_eq : evfFiltersFree filters = filters.getLast?.map evfFilterFree := by
  rcases List.eq_nil_or_concat filters with rfl | ⟨fs, f, rfl⟩
  · rfl
  · simp [evfFiltersFree]

/-- `evf_line_destroy` hands the commit priv back. -/
theorem evfFiltersFree_commit (h : commitPriv line = some data) : evfFiltersFree line.begins = some data := by
  rw [evfFiltersFree_eq]
  simp only [commitPriv] at h
  split at h
  · rename_i hlast
    cases h
    rw [hlast]
    rfl
  · cases h

theorem evfLineDestroy_eq {r : State × Priv} (h : evfLineDestroy s priv = some r) :
    ∃ line, s.lines priv = some line ∧ evfFiltersFree line.begins = some r.2 ∧
      r.1 = { s with kernel := s.kernel.close line.fd, lines := Function.update s.lines priv none } := by
  obtain ⟨line, hline, h⟩ := Option.bind_eq_some_iff.mp h
  obtain ⟨data, hdata, rfl⟩ := Option.map_eq_some_iff.mp h
  exact ⟨line, hline, hdata, rfl⟩

theorem evfLineDestroy_commit (hline : s.lines priv = some line) (h : commitPriv line = some data) :
    evfLineDestroy s priv = some
      ({ s with kernel := s.kernel.close line.fd, lines := Function.update s.lines priv none }, data) := by
  simp [evfLineDestroy, hline, evfFiltersFree_commit h]

theorem openInputDevice_cases {ret : Int} (h : openInputDevice k dev = some (k', ret)) :
    (k' = k ∧ ret < 0) ∨ ∃ fd : Nat, ret = fd ∧ k.fds fd = none ∧ k'.close fd = k ∧ k'.device = k.device ∧
      (k.Sound → k'.Sound) := by
  simp only [openInputDevice] at h
  split at h
  · cases h
    exact Or.inl ⟨rfl, by decide⟩
  · rename_i fd _
    obtain ⟨k₁, hk₁, h⟩ := Option.map_eq_some_iff.mp h
    have hfree := (opened_eq hk₁).1
    have hback : k₁.close fd = k := close_opened hk₁ (by simp)
    split at h
    · cases h
      exact Or.inr ⟨fd, rfl, hfree, hback, device_opened hk₁ (by simp), fun hs => hs.opened hk₁ (by simp)⟩
    · cases h
      rw [hback]
      have hnone : k.close fd = k := by simp [Kernel.close, device_free hfree, ← hfree]
      exact Or.inr ⟨fd, rfl, hfree, hnone, rfl, id⟩

/-- Nothing is left of a line that is not created. -/
theorem evfLineCreate_cases {r : State × Option Priv} (h : evfLineCreate s dev setup priv 0 false = some r) :
    r = (s, none) ∨ ∃ kernel line, r.2 = some (s.malloced + 1) ∧ s.kernel.fds line.fd = none ∧
      commitPriv line = some priv ∧ kernel.close line.fd = s.kernel ∧ kernel.device = s.kernel.device ∧
      (s.kernel.Sound → kernel.Sound) ∧ r.1 = { s with
        kernel, lines := Function.update s.lines (s.malloced + 1) (some line), malloced := s.malloced + 1 } := by
  obtain ⟨⟨k, ret⟩, hopen, rfl⟩ := Option.map_eq_some_iff.mp h
  rcases openInputDevice_cases hopen with ⟨rfl, hneg⟩ | ⟨fd, rfl, hfree, hback, hdev, hsound⟩
  · exact Or.inl (by simp [hneg])
  · have hpos : ¬ (fd : Int) < 0 := by omega
    simp only [hpos, if_false, Int.toNat_natCast, hback]
    cases setup.profile with
    | none => exact Or.inl rfl
    | some filters =>
        simp only []
        split
        · exact Or.inl rfl
        split
        · exact Or.inl rfl
        split
        · exact Or.inl rfl
        · exact Or.inr ⟨k, _, rfl, hfree, by simp [commitPriv], hback, hdev, hsound, rfl⟩

/-! ## Plugging a device in -/

/-- What a call of `device_plugged` does to the state. -/
inductive Plugged (s s' : State) : Prop
  /-- A device that it has created is destroyed again. -/
  | kept (sound : s.kernel.Sound → s'.kernel.Sound) (device : s'.kernel.device = s.kernel.device)
      (queue : s'.queue = s.queue) (stopped : s'.stopped = s.stopped) (malloced : s.malloced ≤ s'.malloced)
      (lines : ∀ addr ≤ s.malloced, s'.lines addr = s.lines addr)
      (older : ∀ {addr line}, s'.lines addr = some line → s.lines addr = some line)
  /-- A line and its device are added. -/
  | added (line : Line) (fd : Nat) (sound : s.kernel.Sound → s'.kernel.Sound) (free : s.kernel.device fd = none)
      (apart : line.fd ≠ fd) (owned : commitPriv line = some fd)
      (device : s'.kernel.device = Function.update s.kernel.device fd (some s.kernel.devices))
      (queue : s'.queue = (evfIoQueueAdd s.queue line.fd lineDataFn (s.malloced + 1) true).1)
      (stopped : s'.stopped = s.stopped) (malloced : s'.malloced = s.malloced + 1)
      (lines : s'.lines = Function.update s.lines (s.malloced + 1) (some line))

/-- The device that was just created is destroyed. -/
theorem device_retired (hfree : k.fds fd = none) (hdev : k'.device = (k.uiDevCreate fd).device) :
    (evfUinputDestroy k' fd).device = k.device := by
  rw [evfUinputDestroy_eq, device_close, hdev, device_uiDevCreate, Function.update_idem]
  exact Function.update_eq_self_iff.mpr (device_free hfree).symm

theorem devicePlugged_cases (h : devicePlugged s plug = some s') : Plugged s s' := by
  have same : Plugged s s := .kept id rfl rfl rfl (Nat.le_refl _) (fun _ _ => rfl) id
  simp only [devicePlugged] at h
  split at h
  · cases h
    exact same
  obtain ⟨⟨k, ret⟩, hcreate, h⟩ := Option.bind_eq_some_iff.mp h
  rcases evfUinputCreate_cases hcreate with ⟨rfl, hneg⟩ | ⟨fd, rfl, hfree, rfl⟩
  · rw [if_pos hneg] at h
    cases h
    exact same
  · have hpos : ¬ (fd : Int) < 0 := by omega
    have hmade : s.kernel.Sound → (s.kernel.uiDevCreate fd).Sound := fun hs => hs.uiDevCreate (device_free hfree)
    simp only [hpos, if_false, Int.toNat_natCast] at h
    obtain ⟨r, hline, h⟩ := Option.bind_eq_some_iff.mp h
    rcases evfLineCreate_cases hline with rfl | ⟨k, line, hr, hlfree, howned, hback, hdev, hsound, hs⟩
    · cases h
      refine .kept (fun hs => ?_) (device_retired hfree rfl) rfl rfl (Nat.le_refl _) (fun _ _ => rfl) id
      exact evfUinputDestroy_eq ▸ (hmade hs).close fd
    · have hapart : line.fd ≠ fd := fun he => by simp [Kernel.uiDevCreate, he] at hlfree
      obtain ⟨s₁, _⟩ := r
      subst hr hs
      simp only [Function.update_self, Option.bind_some] at h
      split at h
      · -- The member cannot be allocated.
        rename_i hadd
        have hq : (evfIoQueueAdd s.queue line.fd lineDataFn (s.malloced + 1) plug.mallocMemb).1 = s.queue := by
          cases hm : plug.mallocMemb with
          | false => rfl
          | true => simp [hm, evfIoQueueAdd] at hadd
        obtain ⟨r, hdestroy, rfl⟩ := Option.map_eq_some_iff.mp h
        obtain ⟨line', hline', _, hr⟩ := evfLineDestroy_eq hdestroy
        cases (Function.update_self ..).symm.trans hline'
        rw [hr]
        refine .kept (fun hs => ?_) ?_ hq rfl (Nat.le_succ _) (fun addr haddr => ?_) fun {addr line} ha => ?_
        · rw [evfUinputDestroy_eq]
          exact ((hsound (hmade hs)).close fd).close line.fd
        · have hlive := device_retired hfree hdev
          have hnone : s.kernel.device line.fd = none := by
            rw [← device_free hlfree, device_uiDevCreate, Function.update_of_ne hapart]
          rw [device_close, hlive]
          exact Function.update_eq_self_iff.mpr hnone.symm
        · have : addr ≠ s.malloced + 1 := Nat.ne_of_lt (Nat.lt_succ_of_le haddr)
          simp [this]
        · by_cases haddr : addr = s.malloced + 1
          · simp [haddr] at ha
          · simpa [haddr] using ha
      · rename_i hadd
        cases h
        have hm : plug.mallocMemb = true := by
          cases hm : plug.mallocMemb with
          | true => rfl
          | false => simp [hm, evfIoQueueAdd] at hadd
        refine .added line fd (fun hs => hsound (hmade hs)) (device_free hfree) hapart howned ?_ (by rw [hm]) rfl rfl
          rfl
        exact hdev.trans device_uiDevCreate

/-! ## The invariant -/

/-- While `main` is in its loop and no read has failed. -/
structure Running (s : State) : Prop where
  sound : s.kernel.Sound
  ok : s.queue.Ok
  known : ∀ {addr line}, s.lines addr = some line → addr ≤ s.malloced
  built : ∀ {addr line}, s.lines addr = some line → ∃ data, commitPriv line = some data ∧ line.fd ≠ data
  attached : ∀ x ∈ s.queue.members, x.2.priv ≠ 0 → ∃ line, s.lines x.2.priv = some line
  callback : ∀ x ∈ s.queue.members, x.2.read = lineDataFn → x.2.priv ≠ 0
  distinct : s.commitPrivs.Nodup
  live : ∀ fd, fd ∈ s.commitPrivs ↔ (s.kernel.device fd).isSome

theorem Running.accounted (h : Running s) (hstopped : s.stopped = false) : Accounted s where
  once := h.sound.nodup
  destroyed := h.sound.destroyed
  distinct _ := h.distinct
  live _ := h.live
  gone ho := by simp [hstopped] at ho

theorem Running.start : Running machine.init where
  sound := ⟨by simp [machine, Kernel.device], by simp [machine, Kernel.device], List.nodup_nil, by simp [machine]⟩
  ok := Queue.empty_ok
  known h := by cases h
  built h := by cases h
  attached _ h := by cases h
  callback _ h := by cases h
  distinct := List.nodup_nil
  live _ := by simp [State.commitPrivs, machine, Queue.members_empty, Kernel.device]

theorem ownedBy_congr {l : List (Addr × Memb)} (h : ∀ x ∈ l, lines' x.2.priv = lines x.2.priv) :
    l.filterMap (ownedBy lines') = l.filterMap (ownedBy lines) :=
  List.filterMap_congr fun x hx => by simp only [ownedBy, h x hx]

/-- Adding a member adds what its line owns. -/
theorem commitPrivs_add {read : ReadFn} (hok : s.queue.Ok)
    (hq : s'.queue = (evfIoQueueAdd s.queue fd read priv true).1)
    (h : ∀ x ∈ s.queue.members, s'.lines x.2.priv = s.lines x.2.priv) :
    s'.queue.Ok ∧
      (∀ x, x ∈ s'.queue.members ↔ x = (s.queue.heap.size, ⟨fd, read, priv⟩) ∨ x ∈ s.queue.members) ∧
      s'.commitPrivs.Perm ((ownedBy s'.lines (s.queue.heap.size, ⟨fd, read, priv⟩)).toList ++ s.commitPrivs) := by
  obtain ⟨hok', hm⟩ := evfIoQueueAdd_spec fd read priv hok
  have hp := List.perm_orderedInsert Before (s.queue.heap.size, (⟨fd, read, priv⟩ : Memb)) s.queue.members
  rw [← hq] at hok' hm
  rw [← hm] at hp
  refine ⟨hok', fun x => by simp [hp.mem_iff], (hp.filterMap _).trans ?_⟩
  rw [List.filterMap_cons, ownedBy_congr h]
  cases ownedBy s'.lines (s.queue.heap.size, ⟨fd, read, priv⟩) <;> exact .refl _

theorem Running.plugged (h : Running s) (hs : Plugged s s') : Running s' := by
  have hle : ∀ x ∈ s.queue.members, x.2.priv ≤ s.malloced := fun x hx => by
    by_cases hx0 : x.2.priv = 0
    · exact hx0 ▸ Nat.zero_le _
    · obtain ⟨line, hline⟩ := h.attached x hx hx0
      exact h.known hline
  cases hs with
  | kept sound device queue _ malloced lines older =>
      have hprivs : s'.commitPrivs = s.commitPrivs := by
        rw [State.commitPrivs, queue, ownedBy_congr fun x hx => lines _ (hle x hx)]
        rfl
      exact {
        sound := sound h.sound
        ok := queue ▸ h.ok
        known := fun ha => Nat.le_trans (h.known (older ha)) malloced
        built := fun ha => h.built (older ha)
        attached := fun x hx hx0 => by
          rw [queue] at hx
          rw [lines _ (hle x hx)]
          exact h.attached x hx hx0
        callback := queue ▸ h.callback
        distinct := hprivs ▸ h.distinct
        live := by rw [hprivs, device]; exact h.live }
  | added line fd sound free apart owned device queue _ malloced lines =>
      have hsame : ∀ x ∈ s.queue.members, s'.lines x.2.priv = s.lines x.2.priv := fun x hx => by
        have : x.2.priv ≠ s.malloced + 1 := Nat.ne_of_lt (Nat.lt_succ_of_le (hle x hx))
        simp [lines, this]
      obtain ⟨hok, hmem, hperm⟩ := commitPrivs_add h.ok queue hsame
      have hnew : s'.lines (s.malloced + 1) = some line := by simp [lines]
      have hfresh : fd ∉ s.commitPrivs := by simp [h.live, free]
      replace hperm : s'.commitPrivs.Perm (fd :: s.commitPrivs) := by simpa [ownedBy, hnew, owned] using hperm
      have hlines : ∀ {addr self}, s'.lines addr = some self → addr = s.malloced + 1 ∧ self = line ∨
          s.lines addr = some self := fun {addr self} ha => by
        by_cases haddr : addr = s.malloced + 1
        · subst haddr
          exact Or.inl ⟨rfl, Option.some.inj (ha.symm.trans hnew)⟩
        · exact Or.inr (by simpa [lines, haddr] using ha)
      exact {
        sound := sound h.sound
        ok := hok
        known := fun ha => by
          rw [malloced]
          rcases hlines ha with ⟨rfl, _⟩ | ha
          · exact Nat.le_refl _
          · exact Nat.le_succ_of_le (h.known ha)
        built := fun ha => by
          rcases hlines ha with ⟨_, rfl⟩ | ha
          · exact ⟨fd, owned, apart⟩
          · exact h.built ha
        attached := fun x hx hx0 => by
          rcases (hmem x).mp hx with rfl | hx
          · exact ⟨line, hnew⟩
          · rw [hsame x hx]
            exact h.attached x hx hx0
        callback := fun x hx hread => by
          rcases (hmem x).mp hx with rfl | hx
          · exact Nat.succ_ne_zero _
          · exact h.callback x hx hread
        distinct := hperm.nodup_iff.mpr (List.nodup_cons.mpr ⟨hfresh, h.distinct⟩)
        live := fun a => by
          rw [hperm.mem_iff, device, List.mem_cons, h.live]
          by_cases ha : a = fd
          · simp [ha]
          · simp [ha] }

theorem Running.hotplug (h : Running s) (hs : hotplug s fd = some s') : Running s' := by
  obtain ⟨kernel, hopen, rfl⟩ := Option.map_eq_some_iff.mp hs
  let s' : State := { s with kernel, queue := (evfIoQueueAdd s.queue fd hotplugDataFn 0 true).1 }
  have hq : s'.queue = (evfIoQueueAdd s.queue fd hotplugDataFn 0 true).1 := rfl
  obtain ⟨hok, hmem, hperm⟩ := commitPrivs_add h.ok hq fun _ _ => rfl
  replace hperm : s'.commitPrivs.Perm s.commitPrivs := hperm
  exact {
    sound := h.sound.opened hopen (by simp)
    ok := hok
    known := h.known
    built := h.built
    attached := fun x hx hx0 => by
      rcases (hmem x).mp hx with rfl | hx
      · exact absurd rfl hx0
      · exact h.attached x hx hx0
    callback := fun x hx hread => by
      rcases (hmem x).mp hx with rfl | hx
      · simp [hotplugDataFn, lineDataFn] at hread
      · exact h.callback x hx hread
    distinct := hperm.nodup_iff.mpr h.distinct
    live := fun a => by
      rw [hperm.mem_iff, device_opened hopen (by simp)]
      exact h.live a }

/-! ## Reading a line -/

theorem evfLineProcess_eq_zero {read : Read} :
    evfLineProcess read = 0 ↔ ∀ errno, read = .error errno → errno = EAGAIN := by
  cases read with
  | data => simp [evfLineProcess]
  | error errno =>
      simp only [evfLineProcess, Read.error.injEq, forall_eq']
      by_cases hgone : errno = ENODEV
      · simp [hgone, ENODEV, EAGAIN]
      · by_cases hagain : errno = EAGAIN
        · simp [hagain, ENODEV, EAGAIN]
        · simp [hgone, hagain]

theorem members_afterRead (hok : s.queue.Ok) (m : Memb) :
    (afterRead s.queue m evfIoQueueRemFlag).1.members = s.queue.members.eraseP (hasFd m.fd) := by
  have hrem : evfIoQueueRemFlag &&& evfIoQueueRemFlag ≠ 0 := by decide
  rw [afterRead, if_pos hrem]
  exact (listDelete_spec _ _ _ hok).2

/-- Either nothing happens, or a line is destroyed and a member leaves the queue. -/
theorem data_cases {here : Addr} {read : Read} (hok : s.queue.Ok) (h : Devices.data s here read = some s') :
    (evfLineProcess read = 0 ∧ s' = s) ∨ (evfLineProcess read ≠ 0 ∧ ∃ memb line,
      (here, memb) ∈ s.queue.members ∧ memb.read = lineDataFn ∧ s.lines memb.priv = some line ∧
      s'.kernel = s.kernel.close line.fd ∧ s'.lines = Function.update s.lines memb.priv none ∧
      s'.stopped = s.stopped ∧ s'.queue.members = s.queue.members.eraseP (hasFd memb.fd)) := by
  simp only [Devices.data] at h
  split at h
  · cases h
  rename_i memb hmemb
  split at h
  · rename_i hread
    obtain ⟨⟨s₁, ret⟩, hdata, rfl⟩ := Option.map_eq_some_iff.mp h
    obtain ⟨line, hline, hdata⟩ := Option.bind_eq_some_iff.mp hdata
    split at hdata
    · rename_i hfail
      obtain ⟨r, hdestroy, hr⟩ := Option.map_eq_some_iff.mp hdata
      cases hr
      obtain ⟨line', hline', _, hr⟩ := evfLineDestroy_eq hdestroy
      cases hline.symm.trans hline'
      have hrem : evfIoQueueRemFlag ≠ evfIoQueueOk := by decide
      simp only [hr, hrem, if_false]
      exact Or.inr ⟨hfail, memb.val, line, hok.mem hmemb, hread, hline, rfl, rfl, trivial,
        members_afterRead hok memb.val⟩
    · rename_i hfail
      cases hdata
      exact Or.inl ⟨not_not.mp hfail, rfl⟩
  · cases h

theorem eq_of_owned {α β : Type} {f : α → Option β} {l : List α} {a b : α} {c : β} (hl : (l.filterMap f).Nodup)
    (ha : a ∈ l) (hb : b ∈ l) (hac : f a = some c) (hbc : f b = some c) : a = b := by
  have : Std.Symm fun x y => ∀ c, f x = some c → ∀ d, f y = some d → c ≠ d :=
    ⟨fun _ _ hxy c hc d hd => (hxy d hd c hc).symm⟩
  by_contra hne
  exact (List.pairwise_filterMap.mp hl).forall ha hb hne c hac c hbc rfl

/-- The device of a line that could not be read stays behind. -/
theorem Running.not_accounted {here : Addr} {memb : Memb} (h : Running s) (hstopped : s.stopped = false)
    (hx : (here, memb) ∈ s.queue.members) (hread : memb.read = lineDataFn) (hline : s.lines memb.priv = some line)
    (hkernel : s'.kernel = s.kernel.close line.fd) (hlines : s'.lines = Function.update s.lines memb.priv none)
    (hstopped' : s'.stopped = s.stopped) (hqueue : ∀ y ∈ s'.queue.members, y ∈ s.queue.members) : ¬ Accounted s' := by
  intro hacc
  obtain ⟨data, hdata, hapart⟩ := h.built hline
  have hpriv : memb.priv ≠ 0 := h.callback _ hx hread
  have howned : ownedBy s.lines (here, memb) = some data := by simp [ownedBy, hpriv, hline, hdata]
  have hlive : (s.kernel.device data).isSome := (h.live data).mp (List.mem_filterMap.mpr ⟨_, hx, howned⟩)
  have hlive' : (s'.kernel.device data).isSome := by
    rw [hkernel, device_close, Function.update_of_ne (Ne.symm hapart)]
    exact hlive
  obtain ⟨y, hy, hydata⟩ := List.mem_filterMap.mp ((hacc.live (hstopped'.trans hstopped) data).mpr hlive')
  have hypriv : y.2.priv ≠ memb.priv := fun he => by
    simp only [ownedBy, he, hpriv, if_false, hlines, Function.update_self, Option.bind_none] at hydata
    cases hydata
  have hydata' : ownedBy s.lines y = some data := by
    simpa only [ownedBy, hlines, Function.update_of_ne hypriv] using hydata
  exact hypriv (congrArg (fun z => z.2.priv) (eq_of_owned h.distinct (hqueue y hy) hx hydata' howned))

/-! ## Shutting down -/

/-- The loop closes the descriptors that the lines own, and opens none. -/
theorem cleanup_spec (h : cleanup s is = some s') :
    (s.kernel.Sound → s'.kernel.Sound) ∧ s'.stopped = s.stopped ∧
      (∀ fd, s.kernel.device fd = none → s'.kernel.device fd = none) ∧
      ∀ x ∈ is, ∀ data, ownedBy s.lines x = some data → s'.kernel.device data = none := by
  induction is generalizing s with
  | nil =>
      cases h
      exact ⟨id, rfl, fun _ => id, by simp⟩
  | cons x is ih =>
      simp only [cleanup] at h
      split at h
      · rename_i hpriv
        obtain ⟨r, hdestroy, h⟩ := Option.bind_eq_some_iff.mp h
        obtain ⟨line, hline, hfree, hr⟩ := evfLineDestroy_eq hdestroy
        obtain ⟨hsound, hstopped, hnone, hgone⟩ := ih h
        simp only [hr, evfUinputDestroy_eq] at hsound hstopped hnone hgone
        have hclosed : s'.kernel.device r.2 = none := hnone r.2 (by rw [device_close, Function.update_self])
        have hcommit : ∀ {data}, commitPriv line = some data → data = r.2 := fun hd =>
          Option.some.inj ((evfFiltersFree_commit hd).symm.trans hfree)
        refine ⟨fun hs => hsound ((hs.close _).close _), hstopped, fun fd hfd => hnone fd ?_, ?_⟩
        · rw [device_close, device_close]
          by_cases h₁ : fd = r.2
          · simp [h₁]
          · by_cases h₂ : fd = line.fd
            · rw [Function.update_of_ne h₁, h₂, Function.update_self]
            · simp [h₁, h₂, hfd]
        · intro y hy data hdata
          by_cases hsame : y.2.priv = x.2.priv
          · simp only [ownedBy, hsame, hpriv, if_false, hline, Option.bind_some] at hdata
            exact hcommit hdata ▸ hclosed
          · rcases List.mem_cons.mp hy with rfl | hy
            · exact absurd rfl hsame
            · refine hgone y hy data ?_
              simpa only [ownedBy, Function.update_of_ne hsame] using hdata
      · rename_i hpriv
        obtain ⟨hsound, hstopped, hnone, hgone⟩ := ih h
        refine ⟨hsound, hstopped, hnone, List.forall_mem_cons.mpr ⟨fun data hdata => ?_, hgone⟩⟩
        simp [ownedBy, not_not.mp hpriv] at hdata

theorem Running.shutdown (h : Running s) (hs : shutdown s = some s') : Accounted s' := by
  obtain ⟨hsound, hstopped, hnone, hgone⟩ := cleanup_spec hs
  have hstopped : s'.stopped = true := hstopped
  exact {
    once := (hsound h.sound).nodup
    destroyed := (hsound h.sound).destroyed
    distinct := fun ho => by simp [hstopped] at ho
    live := fun ho => by simp [hstopped] at ho
    gone := fun _ fd => by
      cases hd : s.kernel.device fd with
      | none => exact hnone fd hd
      | some dev =>
          obtain ⟨x, hx, hdata⟩ := List.mem_filterMap.mp ((h.live fd).mpr (by simp [hd]))
          exact hgone x hx fd hdata }

/-- Each member finds its line as long as no two members share one. -/
theorem cleanup_defined (hl : ∀ x ∈ is, x.2.priv ≠ 0 → ∃ line, s.lines x.2.priv = some line)
    (hb : ∀ {addr line}, s.lines addr = some line → ∃ data, commitPriv line = some data)
    (hd : is.Pairwise fun x y => x.2.priv ≠ 0 → x.2.priv ≠ y.2.priv) : ∃ s', cleanup s is = some s' := by
  induction is generalizing s with
  | nil => exact ⟨s, rfl⟩
  | cons x is ih =>
      obtain ⟨hx, hd⟩ := List.pairwise_cons.mp hd
      simp only [cleanup]
      split
      · rename_i hpriv
        obtain ⟨line, hline⟩ := hl x List.mem_cons_self hpriv
        obtain ⟨data, hdata⟩ := hb hline
        rw [evfLineDestroy_commit hline hdata]
        refine ih (fun y hy hy0 => ?_) (fun {addr self} ha => ?_) hd
        · have hne : y.2.priv ≠ x.2.priv := (hx y hy hpriv).symm
          simpa [Function.update_of_ne hne] using hl y (List.mem_cons_of_mem _ hy) hy0
        · by_cases haddr : addr = x.2.priv
          · simp [haddr] at ha
          · exact hb (by simpa [haddr] using ha)
      · exact ih (fun y hy => hl y (List.mem_cons_of_mem _ hy)) hb hd

/-- `main` destroys every line of the queue once, and uses none after that. -/
theorem Running.shutdown_defined (h : Running s) : ∃ s', Devices.shutdown s = some s' := by
  refine cleanup_defined h.attached (fun ha => (h.built ha).imp fun _ hd => hd.1) ?_
  refine (List.pairwise_filterMap.mp h.distinct).imp_of_mem fun {x y} hx _ hxy hx0 he => ?_
  obtain ⟨line, hline⟩ := h.attached x hx hx0
  obtain ⟨data, hdata, _⟩ := h.built hline
  have hxo : ownedBy s.lines x = some data := by simp [ownedBy, hx0, hline, hdata]
  have hyo : ownedBy s.lines y = some data := by simp [ownedBy, ← he, hx0, hline, hdata]
  exact hxy data hxo data hyo rfl

/-! ## Runs -/

theorem step_live {input : Input} (h : step s input = some s') : s.stopped = false := by
  simp only [step] at h
  split at h
  · cases h
  · simpa using ‹¬ s.stopped = true›

/-- The devices of a run. -/
def Held (s : State) : Prop := Accounted s ∧ (s.stopped = false → Running s)

theorem Held.keep {input : Input} (h : Held s) (hc : LinesRead s input) (hs : step s input = some s') : Held s' := by
  have hstopped := step_live hs
  have hr := h.2 hstopped
  have running : ∀ {t : State}, Running t → t.stopped = s.stopped → Held t := fun ht ho =>
    ⟨ht.accounted (ho.trans hstopped), fun _ => ht⟩
  simp only [step, hstopped] at hs
  cases input with
  | hotplug fd =>
      obtain ⟨_, _, rfl⟩ := Option.map_eq_some_iff.mp hs
      exact running (hr.hotplug hs) rfl
  | plugged plug =>
      have hp := devicePlugged_cases hs
      refine running (hr.plugged hp) ?_
      cases hp <;> assumption
  | data here read =>
      rcases data_cases hr.ok hs with ⟨_, rfl⟩ | ⟨hfail, _⟩
      · exact h
      · exact absurd (evfLineProcess_eq_zero.mpr hc) hfail
  | shutdown =>
      have ho : s'.stopped = true := (cleanup_spec hs).2.1
      exact ⟨hr.shutdown hs, fun hn => by simp [ho] at hn⟩

theorem Held.only {input : Input} (h : Held s) (hs : step s input = some s') (hacc : Accounted s') :
    LinesRead s input := by
  have hstopped := step_live hs
  have hr := h.2 hstopped
  simp only [step, hstopped] at hs
  cases input with
  | data here read =>
      rcases data_cases hr.ok hs with ⟨hread, _⟩ | ⟨_, memb, line, hx, hread, hline, hk, hl, ho, hq⟩
      · exact evfLineProcess_eq_zero.mp hread
      · refine absurd hacc (hr.not_accounted hstopped hx hread hline hk hl ho fun y hy => ?_)
        exact List.mem_of_mem_eraseP (hq ▸ hy)
  | _ => trivial

/-- As long as no line fails to be read, and no longer, the live devices are those of the lines in the queue. -/
theorem accounted_iff (is : List Input) :
    machine.Throughout Accounted machine.init is ↔ machine.Along LinesRead machine.init is := by
  have start : Held machine.init := ⟨Running.start.accounted rfl, fun _ => Running.start⟩
  constructor
  · intro h
    exact h.along Machine.along_true start (fun hj _ hc hs => hj.keep hc hs) fun hj _ hs hacc => hj.only hs hacc
  · intro h
    exact (h.throughout start fun hj hc hs => hj.keep hc hs).mono fun _ hj => hj.1

/-- A mouse with one filter in its profile is plugged in and out. -/
def unplugged : List Input :=
  [.plugged ⟨some (CString.literal "mouse"), ⟨some 4, true, true⟩, ⟨some 5, true⟩, ⟨some [0], true, true, true⟩, true⟩,
    .hotplug 6, .data 0 (.error ENODEV)]

theorem device_left_behind : ¬ ∀ is, machine.Throughout Accounted machine.init is := by
  intro h
  have hacc := (((h unplugged).2 _ rfl).2 _ rfl).2 _ rfl
  have hno := (hacc.live rfl 4).mpr rfl
  cases hno

end Evfilter.Evfd.Devices
