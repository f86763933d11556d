import Evfilter.IoQueue.Lemmas.Effects
import Mathlib.Data.List.Nodup

/-!
# What runs with fresh descriptors keep

No two members have one descriptor, so that the list is strictly descending and a descriptor names one member.
-/

namespace Evfilter.IoQueue
open Lib

/-- A descriptor is added only while it is not that of a member. -/
def Fresh (s : State) : Op → Prop
  | .add fd _ _ _ => ∀ x ∈ s.queue.members, x.2.fd ≠ fd
  | _ => True

instance (s : State) : DecidablePred (Fresh s)
  | .add fd _ _ _ => inferInstanceAs (Decidable (∀ x ∈ s.queue.members, x.2.fd ≠ fd))
  | .rem _ | .wait _ | .visit | .ret _ => instDecidableTrue

structure Queue.Wf (q : Queue) : Prop where
  ok : q.Ok
  descending : q.members.Pairwise fun x y => y.2.fd < x.2.fd
  small : ∀ x ∈ q.members, x.2.fd < fdSetsize
  armed : ∀ fd ∈ q.rfds, ∃ x ∈ q.members, x.2.fd = fd

variable {s s' : State} {op : Op} {q q' : Queue} {l : List (Addr × Memb)} {x y : Addr × Memb} {fd : Nat}

/-! ## Descending lists -/

theorem pairwise_orderedInsert (hl : l.Pairwise fun x y => y.2.fd < x.2.fd) (hx : ∀ y ∈ l, y.2.fd ≠ x.2.fd) :
    (l.orderedInsert Before x).Pairwise fun x y => y.2.fd < x.2.fd := by
  obtain ⟨l₁, l₂, rfl, hi, hl₁, hl₂⟩ := orderedInsert_split x l
  obtain ⟨h₁, h₂, h₁₂⟩ := List.pairwise_append.mp hl
  have hlow : ∀ y ∈ l₂, y.2.fd < x.2.fd := by
    cases l₂ with
    | nil => simp
    | cons z l₂ =>
        have hz : z.2.fd < x.2.fd := Nat.lt_of_le_of_ne (hl₂ z rfl) (hx z (by simp))
        intro y hy
        rcases List.mem_cons.mp hy with rfl | hy
        · exact hz
        · exact Nat.lt_trans ((List.pairwise_cons.mp h₂).1 y hy) hz
  rw [hi]
  refine List.pairwise_append.mpr ⟨h₁, List.pairwise_cons.mpr ⟨hlow, h₂⟩, fun y hy z hz => ?_⟩
  rcases List.mem_cons.mp hz with rfl | hz
  · exact Nat.lt_of_not_le (hl₁ y hy)
  · exact h₁₂ y hy z hz

theorem mem_orderedInsert : y ∈ l.orderedInsert Before x ↔ y = x ∨ y ∈ l := by
  rw [(List.perm_orderedInsert Before x l).mem_iff, List.mem_cons]

theorem fds_nodup (hl : l.Pairwise fun x y => y.2.fd < x.2.fd) : (l.map (·.2.fd)).Nodup :=
  List.pairwise_map.mpr (hl.imp fun h => Nat.ne_of_gt h)

theorem eq_of_fd (hl : l.Pairwise fun x y => y.2.fd < x.2.fd) (hx : x ∈ l) (hy : y ∈ l)
    (h : x.2.fd = y.2.fd) : x = y :=
  List.inj_on_of_nodup_map (fds_nodup hl) hx hy h

theorem mem_eraseP (hl : l.Pairwise fun x y => y.2.fd < x.2.fd) :
    x ∈ l.eraseP (hasFd fd) ↔ x ∈ l ∧ x.2.fd ≠ fd := by
  induction l with
  | nil => simp
  | cons y l ih =>
      obtain ⟨hy, hl⟩ := List.pairwise_cons.mp hl
      by_cases hfd : y.2.fd = fd
      · rw [List.eraseP_cons_of_pos (by simpa using hfd), List.mem_cons]
        constructor
        · intro hx
          have := hy x hx
          exact ⟨Or.inr hx, by omega⟩
        · rintro ⟨rfl | hx, hne⟩
          · exact absurd hfd hne
          · exact hx
      · rw [List.eraseP_cons_of_neg (by simpa using hfd), List.mem_cons, List.mem_cons, ih hl]
        constructor
        · rintro (rfl | ⟨hx, hne⟩)
          · exact ⟨Or.inl rfl, hfd⟩
          · exact ⟨Or.inr hx, hne⟩
        · rintro ⟨rfl | hx, hne⟩
          · exact Or.inl rfl
          · exact Or.inr ⟨hx, hne⟩

theorem Queue.Wf.length_le (hq : q.Wf) : q.members.length ≤ fdSetsize := by
  have hsub : q.members.map (·.2.fd) ⊆ List.range fdSetsize := by
    intro d hd
    obtain ⟨x, hx, rfl⟩ := List.mem_map.mp hd
    exact List.mem_range.mpr (hq.small x hx)
  simpa using ((fds_nodup hq.descending).subperm hsub).length_le

/-! ## Preservation -/

theorem Queue.Wf.erase (hq : q.Wf) (hok : q'.Ok) (hm : q'.members = q.members.eraseP (hasFd fd))
    (hr : q'.rfds = q.rfds.erase fd) : q'.Wf where
  ok := hok
  descending := by
    rw [hm]
    exact hq.descending.eraseP _
  small x hx := hq.small x (List.mem_of_mem_eraseP (hm ▸ hx))
  armed d hd := by
    obtain ⟨hne, hd⟩ := Finset.mem_erase.mp (hr ▸ hd)
    obtain ⟨x, hx, rfl⟩ := hq.armed d hd
    exact ⟨x, hm ▸ (mem_eraseP hq.descending).mpr ⟨hx, hne⟩, rfl⟩

theorem Queue.Wf.step (hq : s.queue.Wf) (h : step s op = some s') (hc : Fresh s op) : s'.queue.Wf := by
  obtain ⟨hok, he⟩ := step_effect hq.ok h
  cases he with
  | @add fd read priv _ hm hr _ hsmall =>
      refine ⟨hok, ?_, fun x hx => ?_, fun d hd => ?_⟩
      · rw [hm]
        exact pairwise_orderedInsert hq.descending hc
      · rcases mem_orderedInsert.mp (hm ▸ hx) with rfl | hx
        · exact hsmall
        · exact hq.small x hx
      · rw [hr] at hd
        rcases Finset.mem_insert.mp hd with rfl | hd
        · exact ⟨_, hm ▸ mem_orderedInsert.mpr (Or.inl rfl), rfl⟩
        · obtain ⟨x, hx, hxd⟩ := hq.armed d hd
          exact ⟨x, hm ▸ mem_orderedInsert.mpr (Or.inr hx), hxd⟩
  | rem hm hr _ _ => exact hq.erase hok hm hr
  | drop hm hr _ _ _ => exact hq.erase hok hm hr
  | mask hm hr _ _ =>
      refine ⟨hok, hm ▸ hq.descending, hm ▸ hq.small, fun d hd => ?_⟩
      rw [hm]
      rcases hr d hd with hd | hd
      · exact hq.armed d hd
      · exact hd

theorem Queue.empty_wf : Queue.empty.Wf :=
  ⟨Queue.empty_ok, List.Pairwise.nil, by simp [Queue.members_empty], by simp [Queue.empty]⟩

end Evfilter.IoQueue
