import Evfilter.Reader.Loading
import Evfilter.Reader.Profile

/-!
# Who owns the filters of a profile

While a profile is loaded, all the filters created since the call are in the list.
-/

namespace Evfilter.Reader
open Lib Comp Heap Line Param

variable {φ σ : Type} {S : ProfileSystem φ σ} {path : CString} {w₀ w : World φ σ} {filters : Option Addr}
  {l l₁ l₂ : List (Addr × φ)} {h : Heap φ} {root p : Option Addr} {a : Addr} {s : Progress φ σ} {r : Result φ σ}
  {total : Prop}

/-- The filters created since `w₀` are those in the list, and nothing has been freed. -/
structure Owned (w₀ w : World φ σ) (filters : Option Addr) (l : List (Addr × φ)) : Prop where
  chain : w.heap.Chain filters l
  created : ∀ a, a ∈ addrs l ↔ w₀.heap.size ≤ a ∧ a < w.heap.size
  freed : w.freed = w₀.freed
  frame : ∀ a < w₀.heap.size, w.heap.get? a = w₀.heap.get? a
  size : w₀.heap.size ≤ w.heap.size

/-! ## Merging -/

theorem size_merge : (evfFiltersMerge h root p).1.size = h.size := by
  unfold evfFiltersMerge
  split
  · rfl
  · split
    · rfl
    · exact size_setNext _ _ _

/-- Only a filter of the first list is written to. -/
theorem get?_merge (hc : h.Chain root l) (ha : a ∉ addrs l) : (evfFiltersMerge h root p).1.get? a = h.get? a := by
  rcases List.eq_nil_or_concat l with rfl | ⟨l', ⟨b, v⟩, rfl⟩
  · obtain rfl : root = none := hc
    rfl
  · rw [List.concat_eq_append] at hc ha
    unfold evfFiltersMerge
    split
    · rfl
    · rw [last_chain hc]
      have hb : b ≠ a := fun hab => ha (by simp [hab])
      dsimp only
      rw [get?_setNext, if_neg hb]

theorem Owned.frame_chain (ho : Owned w₀ w filters l) (hframe : ∀ a < w.heap.size, h.get? a = w.heap.get? a) :
    h.Chain filters l :=
  ho.chain.frame fun a ha => hframe a ((ho.created a).mp ha).2

theorem Owned.fresh (ho : Owned w₀ w filters l) (ha : a ∈ addrs l) : ¬ w.heap.size ≤ a :=
  Nat.not_le.mpr ((ho.created a).mp ha).2

/-! ## One file -/

theorem between {x y z b : Nat} (hxy : x ≤ y) (hyz : y ≤ z) :
    x ≤ b ∧ b < y ∨ y ≤ b ∧ b < z ↔ x ≤ b ∧ b < z := by
  omega

/-- The list that has been built so far, with what a file adds to it or without anything. -/
theorem fileLoaded_meets (ho : Owned w₀ s.world s.filters l) (hr : Settled s.world r) :
    (fileLoaded S s r).Meets total fun turned =>
      turned.elim (fun s' => ∃ l', Owned w₀ s'.world s'.filters l') (Settled w₀) := by
  have hchain := ho.frame_chain hr.frame
  have hold {b : Addr} (hb : b < w₀.heap.size) : r.world.heap.get? b = w₀.heap.get? b := by
    rw [hr.frame b (Nat.lt_of_lt_of_le hb ho.size), ho.frame b hb]
  have hle : w₀.heap.size ≤ r.world.heap.size := ho.size.trans hr.size
  by_cases herr : r.err ≠ none
  · obtain ⟨-, gone, hfreed, hnodup, hgone⟩ := hr.failed herr
    obtain ⟨w', hyields, hfreed', hsize, hget⟩ := free_chain (S := S.toSystem) hchain
    rw [fileLoaded, if_pos herr]
    refine Meets.bind (meets_of_yields hyields (Q := (· = w')) rfl) fun _ hw => meets_pure ?_
    subst hw
    refine ⟨fun _ => ⟨rfl, gone ++ addrs l, ?_, ?_, fun b => ?_⟩, fun hnone => absurd hnone herr, fun b hb => ?_, ?_⟩
    · rw [hfreed', hfreed, ho.freed, List.append_assoc]
    · refine List.nodup_append.mpr ⟨hnodup, ho.chain.nodup, fun b hb c hc hbc => ?_⟩
      exact ho.fresh hc (hbc ▸ ((hgone b).mp hb).1)
    · rw [List.mem_append, or_comm, hgone, ho.created]
      simp only [Created, hsize]
      exact between ho.size hr.size
    · rw [hget, if_neg fun hmem => Nat.not_le.mpr hb ((ho.created b).mp hmem).1, hold hb]
    · rw [hsize]
      exact hle
  · obtain ⟨hfreed, l₂, hchain₂, hcreated⟩ := hr.loaded (not_not.mp herr)
    have hdisjoint : ∀ b ∈ addrs l, b ∉ addrs l₂ := fun b hb hb₂ => ho.fresh hb ((hcreated b).mp hb₂).1
    rw [fileLoaded, if_neg herr]
    refine meets_pure ⟨l ++ l₂, merge_chain hchain hchain₂ hdisjoint, fun b => ?_, hfreed.trans ho.freed,
      fun b hb => ?_, ?_⟩
    · have hmem : b ∈ addrs (l ++ l₂) ↔ b ∈ addrs l ∨ b ∈ addrs l₂ := by
        rw [addrs, List.map_append, List.mem_append]
      simp only [hmem, ho.created, hcreated, Created, size_merge]
      exact between ho.size hr.size
    · rw [get?_merge hchain fun hmem => Nat.not_le.mpr hb ((ho.created b).mp hmem).1, hold hb]
    · rw [size_merge]
      exact hle

/-! ## All pairs -/

variable (total S path) in
/-- What is asked of the files that a profile names. -/
def FilesMeet : Prop :=
  ∀ file (w : World φ σ), (evfLoadFiltersCompose S.toSystem path file w).Meets total (Settled w)

theorem processPair_meets (hfiles : FilesMeet S path total) (ho : Owned w₀ s.world s.filters l)
    (type val : CString) : (processPair S path type (some val) s).Meets total fun turned =>
      turned.elim (fun s' => ∃ l', Owned w₀ s'.world s'.filters l') (Settled w₀) := by
  let s' : Progress φ σ :=
    { s with world := { s.world with processed := s.world.processed ++ [(type, some val)] } }
  have ho' : Owned w₀ s'.world s'.filters l := ⟨ho.chain, ho.created, ho.freed, ho.frame, ho.size⟩
  unfold processPair
  dsimp only
  split
  · split
    · refine Meets.same ?_ (same_pure_bind val _)
      exact (hfiles val s'.world).bind fun r hr => fileLoaded_meets ho' hr
    · exact meets_pure ⟨l, ho'⟩
  · refine Meets.same ?_ (same_pure_bind val _)
    split
    · exact meets_pure ⟨l, ho.chain, ho.created, ho.freed, ho.frame, ho.size⟩
    · exact meets_pure ⟨l, ho.chain, ho.created, ho.freed, ho.frame, ho.size⟩

theorem processAll_meets (hfiles : FilesMeet S path total) (ho : Owned w₀ s.world s.filters l)
    (pairs : List (CString × CString)) : (processAll S path pairs s).Meets total (Settled w₀) := by
  induction pairs generalizing s l with
  | nil =>
      refine meets_pure ⟨fun hne => absurd rfl hne, fun _ => ⟨ho.freed, l, ho.chain, ho.created⟩, ho.frame, ho.size⟩
  | cons pair pairs ih =>
      refine (processPair_meets hfiles ho pair.1 pair.2).bind fun turned hturned => ?_
      cases turned with
      | inl s' =>
          obtain ⟨l', ho'⟩ := hturned
          exact ih ho'
      | inr r => exact meets_pure hturned

end Evfilter.Reader
