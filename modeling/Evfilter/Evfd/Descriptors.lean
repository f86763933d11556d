import Evfilter.IoQueue.Queue
import Mathlib.Logic.Function.Basic

/-!
# Descriptors and uinput devices

The descriptors of evfd and the functions of `evf_uinput.c`. A uinput device lives behind the descriptor it was
created through, until `UI_DEV_DESTROY` or until the descriptor is closed.
-/

namespace Evfilter.Evfd
open IoQueue

/-- What an open descriptor refers to. No device is behind `uinput none`: there is none yet, or none any more. -/
inductive File
  | input
  | hotplug
  | uinput (device : Option Nat)
deriving DecidableEq

/-- Devices are numbered in the order of their creation. -/
structure Kernel where
  /-- Those of input devices, uinput devices and the inotify instance. The directory of `walk`, which stays open, and
  files that filters open have descriptors of their own. -/
  fds : Nat → Option File
  /-- How many uinput devices have been created. -/
  devices : Nat
  destroyed : List Nat

namespace Kernel

/-- The live uinput device behind a descriptor. -/
def device (k : Kernel) (fd : Nat) : Option Nat :=
  match k.fds fd with
  | some (.uinput device) => device
  | _ => none

/-- The call may give any descriptor that none of these has and that fits into an `fd_set`. -/
def opened (k : Kernel) (fd : Nat) (file : File) : Option Kernel :=
  if k.fds fd = none ∧ fd < fdSetsize then some { k with fds := Function.update k.fds fd (some file) } else none

/-- A device that is still there goes with its descriptor. -/
def close (k : Kernel) (fd : Nat) : Kernel :=
  { k with fds := Function.update k.fds fd none, destroyed := k.destroyed ++ (k.device fd).toList }

/-- `ioctl(fd, UI_DEV_CREATE)` -/
def uiDevCreate (k : Kernel) (fd : Nat) : Kernel :=
  { k with fds := Function.update k.fds fd (some (.uinput (some k.devices))), devices := k.devices + 1 }

/-- `ioctl(fd, UI_DEV_DESTROY)` -/
def uiDevDestroy (k : Kernel) (fd : Nat) : Kernel :=
  match k.fds fd with
  | some (.uinput device) =>
    { k with fds := Function.update k.fds fd (some (.uinput none)), destroyed := k.destroyed ++ device.toList }
  | _ => k

end Kernel

/-- What the system calls of `evf_uinput_create` come to: the descriptor that `try_open` gives, and whether `write`
and `UI_DEV_CREATE` succeed. -/
structure Uinput where
  fd : Option Nat
  written : Bool
  created : Bool

def evfUinputCreate (k : Kernel) (u : Uinput) : Option (Kernel × Int) :=
  match u.fd with
  | none => some (k, -1)
  | some fd => (k.opened fd (.uinput none)).map fun k =>
    if u.written = false then (k.close fd, -2)
    else if u.created = false then (k.close fd, -3)
    else (k.uiDevCreate fd, fd)

def evfUinputDestroy (k : Kernel) (fd : Nat) : Kernel := (k.uiDevDestroy fd).close fd

/-- Every device that has been created is either behind one descriptor or was destroyed, once. -/
structure Kernel.Sound (k : Kernel) : Prop where
  made : ∀ {fd dev}, k.device fd = some dev → dev < k.devices
  owner : ∀ {fd fd' dev}, k.device fd = some dev → k.device fd' = some dev → fd = fd'
  nodup : k.destroyed.Nodup
  destroyed : ∀ dev, dev ∈ k.destroyed ↔ dev < k.devices ∧ ∀ fd, k.device fd ≠ some dev

variable {k k' : Kernel} {fd : Nat} {file : File} {u : Uinput} {ret : Int}

/-! ## Which devices are live -/

theorem device_free (h : k.fds fd = none) : k.device fd = none := by simp [Kernel.device, h]

theorem device_update {devices : Nat} {destroyed : List Nat} (f : Option File) :
    Kernel.device ⟨Function.update k.fds fd f, devices, destroyed⟩ =
      Function.update k.device fd (match f with | some (.uinput device) => device | _ => none) := by
  funext a
  by_cases ha : a = fd
  · subst ha
    simp [Kernel.device]
  · simp [Kernel.device, ha]

theorem device_close : (k.close fd).device = Function.update k.device fd none := device_update none

theorem device_uiDevCreate : (k.uiDevCreate fd).device = Function.update k.device fd (some k.devices) :=
  device_update (some (.uinput (some k.devices)))

theorem opened_eq (h : k.opened fd file = some k') :
    k.fds fd = none ∧ k' = { k with fds := Function.update k.fds fd (some file) } := by
  simp only [Kernel.opened, Option.ite_none_right_eq_some, Option.some.injEq] at h
  exact ⟨h.1.1, h.2.symm⟩

theorem device_opened (h : k.opened fd file = some k') (hf : ∀ dev, file ≠ .uinput (some dev)) :
    k'.device = k.device := by
  obtain ⟨hfree, rfl⟩ := opened_eq h
  rw [device_update]
  cases file with
  | uinput dev =>
      cases dev with
      | none => exact Function.update_eq_self_iff.mpr (device_free hfree).symm
      | some dev => exact absurd rfl (hf dev)
  | _ => exact Function.update_eq_self_iff.mpr (device_free hfree).symm

theorem close_opened (h : k.opened fd file = some k') (hf : ∀ dev, file ≠ .uinput (some dev)) :
    k'.close fd = k := by
  have hdev : k'.device fd = none := by rw [device_opened h hf, device_free (opened_eq h).1]
  obtain ⟨hfree, rfl⟩ := opened_eq h
  simp [Kernel.close, hdev, ← hfree]

theorem evfUinputDestroy_eq : evfUinputDestroy k fd = k.close fd := by
  cases hk : k.fds fd with
  | none => simp [evfUinputDestroy, Kernel.uiDevDestroy, hk]
  | some file =>
      cases file with
      | uinput dev => simp [evfUinputDestroy, Kernel.uiDevDestroy, Kernel.close, Kernel.device, hk]
      | _ => simp [evfUinputDestroy, Kernel.uiDevDestroy, hk]

/-- Either nothing stays open, or a new device is behind a descriptor that was free. -/
theorem evfUinputCreate_cases (h : evfUinputCreate k u = some (k', ret)) :
    (k' = k ∧ ret < 0) ∨ ∃ fd : Nat, ret = fd ∧ k.fds fd = none ∧ k' = k.uiDevCreate fd := by
  simp only [evfUinputCreate] at h
  split at h
  · cases h
    exact Or.inl ⟨rfl, by decide⟩
  · rename_i fd _
    obtain ⟨k₁, hk₁, h⟩ := Option.map_eq_some_iff.mp h
    have hback : k₁.close fd = k := close_opened hk₁ (by simp)
    split at h
    · cases h
      exact Or.inl ⟨hback, by decide⟩
    · split at h
      · cases h
        exact Or.inl ⟨hback, by decide⟩
      · cases h
        obtain ⟨hfree, rfl⟩ := opened_eq hk₁
        exact Or.inr ⟨fd, rfl, hfree, by simp [Kernel.uiDevCreate]⟩

/-! ## Every device is destroyed once -/

namespace Kernel.Sound

/-- Only which devices are live matters. -/
theorem congr (h : k.Sound) (hdev : k'.device = k.device) (hn : k'.devices = k.devices)
    (hd : k'.destroyed = k.destroyed) : k'.Sound where
  made := by rw [hdev, hn]; exact h.made
  owner := by rw [hdev]; exact h.owner
  nodup := by rw [hd]; exact h.nodup
  destroyed := by rw [hdev, hn, hd]; exact h.destroyed

theorem opened (h : k.Sound) (ho : k.opened fd file = some k') (hf : ∀ dev, file ≠ .uinput (some dev)) :
    k'.Sound := by
  have hdev := device_opened ho hf
  obtain ⟨_, rfl⟩ := opened_eq ho
  exact h.congr hdev rfl rfl

theorem uiDevCreate (h : k.Sound) (hfd : k.device fd = none) : (k.uiDevCreate fd).Sound where
  made {a dev} ha := by
    rw [device_uiDevCreate] at ha
    by_cases hfd : a = fd
    · subst hfd
      have : k.devices = dev := by simpa using ha
      exact this ▸ Nat.lt_succ_self _
    · exact Nat.lt_succ_of_lt (h.made (by simpa [hfd] using ha))
  owner {a b dev} ha hb := by
    rw [device_uiDevCreate] at ha hb
    have hnew : ∀ c, k.device c ≠ some k.devices := fun c hc => Nat.lt_irrefl _ (h.made hc)
    by_cases hafd : a = fd <;> by_cases hbfd : b = fd
    · rw [hafd, hbfd]
    · subst hafd
      have : k.devices = dev := by simpa using ha
      exact absurd (by simpa [hbfd, this] using hb) (hnew b)
    · subst hbfd
      have : k.devices = dev := by simpa using hb
      exact absurd (by simpa [hafd, this] using ha) (hnew a)
    · exact h.owner (by simpa [hafd] using ha) (by simpa [hbfd] using hb)
  nodup := h.nodup
  destroyed dev := by
    rw [device_uiDevCreate]
    constructor
    · intro hd
      obtain ⟨hlt, hno⟩ := (h.destroyed dev).mp hd
      refine ⟨Nat.lt_succ_of_lt hlt, fun a => ?_⟩
      by_cases ha : a = fd
      · subst ha
        simp [Nat.ne_of_gt hlt]
      · simpa [ha] using hno a
    · intro ⟨hlt, hno⟩
      refine (h.destroyed dev).mpr ⟨?_, fun a => ?_⟩
      · have : k.devices ≠ dev := by simpa using hno fd
        exact Nat.lt_of_le_of_ne (Nat.le_of_lt_succ hlt) this.symm
      · by_cases ha : a = fd
        · simp [ha, hfd]
        · simpa [ha] using hno a

theorem close (h : k.Sound) (fd : Nat) : (k.close fd).Sound where
  made {a dev} ha := by
    rw [device_close] at ha
    by_cases hfd : a = fd
    · simp [hfd] at ha
    · exact h.made (by simpa [hfd] using ha)
  owner {a b dev} ha hb := by
    rw [device_close] at ha hb
    by_cases hafd : a = fd
    · simp [hafd] at ha
    · by_cases hbfd : b = fd
      · simp [hbfd] at hb
      · exact h.owner (by simpa [hafd] using ha) (by simpa [hbfd] using hb)
  nodup := by
    refine List.nodup_append.mpr ⟨h.nodup, by cases k.device fd <;> simp, fun a ha b hb hab => ?_⟩
    exact ((h.destroyed a).mp ha).2 fd (by simpa [hab] using hb)
  destroyed dev := by
    rw [device_close]
    have hd : dev ∈ (k.close fd).destroyed ↔ dev ∈ k.destroyed ∨ k.device fd = some dev := by simp [Kernel.close]
    rw [hd, h.destroyed]
    constructor
    · rintro (⟨hlt, hno⟩ | hfd)
      · refine ⟨hlt, fun a => ?_⟩
        by_cases ha : a = fd
        · simp [ha]
        · simpa [ha] using hno a
      · refine ⟨h.made hfd, fun a => ?_⟩
        by_cases ha : a = fd
        · simp [ha]
        · rw [Function.update_of_ne ha]
          exact fun hdev => ha (h.owner hdev hfd)
    · intro ⟨hlt, hno⟩
      by_cases hfd : k.device fd = some dev
      · exact Or.inr hfd
      · refine Or.inl ⟨hlt, fun a => ?_⟩
        by_cases ha : a = fd
        · exact ha ▸ hfd
        · simpa [ha] using hno a

end Kernel.Sound

end Evfilter.Evfd
