import Mathlib.Data.List.Basic

/-!
# Rules that are tried one after the other

A rule is for one key and turns a value into another one or into nothing. In a chain each rule reads the key of what the
rules before it have left, where only the first rule for the key of the value itself is meant.
-/

namespace Lib

structure Rule (κ α : Type) where
  key : κ
  result : α → Option α

namespace Rule

variable {κ α : Type} [DecidableEq κ] (read : α → κ)

def chain : List (Rule κ α) → α → Option α
  | [], a => some a
  | r :: rs, a => (if read a = r.key then r.result a else some a).bind (chain rs)

def first : List (Rule κ α) → α → Option α
  | [], a => some a
  | r :: rs, a => if read a = r.key then r.result a else first rs a

variable {read} {r : Rule κ α} {rs : List (Rule κ α)} {a b c : α}

theorem chain_skip (h : read a ≠ r.key) : chain read (r :: rs) a = chain read rs a := by
  rw [chain, if_neg h, Option.bind_some]

theorem chain_apply (h : read a = r.key) : chain read (r :: rs) a = (r.result a).bind (chain read rs) := by
  rw [chain, if_pos h]

theorem first_skip (h : read a ≠ r.key) : first read (r :: rs) a = first read rs a := if_neg h

theorem first_apply (h : read a = r.key) : first read (r :: rs) a = r.result a := if_pos h

theorem chain_none_for (h : ∀ r ∈ rs, read a ≠ r.key) : chain read rs a = some a := by
  induction rs with
  | nil => rfl
  | cons r rs ih =>
      obtain ⟨hr, hrs⟩ := List.forall_mem_cons.mp h
      rw [chain_skip hr, ih hrs]

/-- What comes out is what went in, or the result of one of the rules. -/
theorem chain_result (h : chain read rs a = some c) :
    (∀ r ∈ rs, read a ≠ r.key) ∨ ∃ r ∈ rs, ∃ b, r.result b = some c := by
  induction rs generalizing a with
  | nil => exact Or.inl (List.forall_mem_nil _)
  | cons r rs ih =>
      have hlater (hr : ∃ r ∈ rs, ∃ b, r.result b = some c) : ∃ r' ∈ r :: rs, ∃ b, r'.result b = some c := by
        obtain ⟨r', hmem, hb⟩ := hr
        exact ⟨r', List.mem_cons_of_mem r hmem, hb⟩
      by_cases hr : read a = r.key
      · rw [chain_apply hr] at h
        obtain ⟨b, hb, hchain⟩ := Option.bind_eq_some_iff.mp h
        right
        rcases ih hchain with hnone | hsome
        · rw [chain_none_for hnone] at hchain
          obtain rfl := Option.some.inj hchain
          exact ⟨r, List.mem_cons_self, a, hb⟩
        · exact hlater hsome
      · rw [chain_skip hr] at h
        rcases ih h with hnone | hsome
        · exact Or.inl (List.forall_mem_cons.mpr ⟨hr, hnone⟩)
        · exact Or.inr (hlater hsome)

/-- Rules that have a result for everything with a property that the results have too. -/
theorem chain_isSome {P : α → Prop} (h : ∀ r ∈ rs, ∀ a, P a → ∃ c, r.result a = some c ∧ P c) (ha : P a) :
    ∃ c, chain read rs a = some c := by
  induction rs generalizing a with
  | nil => exact ⟨a, rfl⟩
  | cons r rs ih =>
      obtain ⟨hr, hrs⟩ := List.forall_mem_cons.mp h
      by_cases hkey : read a = r.key
      · obtain ⟨c, hc, hP⟩ := hr a ha
        rw [chain_apply hkey, hc, Option.bind_some]
        exact ih hrs hP
      · rw [chain_skip hkey]
        exact ih hrs ha

/-- No later rule is for the key of what the rule for the value makes of it. -/
def Settled (read : α → κ) (rs : List (Rule κ α)) (a : α) : Prop :=
  rs.Pairwise fun r later => read a = r.key → ∀ c ∈ r.result a, read c ≠ later.key

/-- A chain of rules without a result in common does what is meant just if what is meant is settled. -/
theorem chain_eq_first_iff (hresults : rs.Pairwise fun r later => ∀ a b, ∀ c ∈ r.result a, c ∉ later.result b)
    (hkeys : rs.Pairwise fun r later => read a = r.key → read a ≠ later.key) :
    chain read rs a = first read rs a ↔ Settled read rs a := by
  induction rs with
  | nil => exact iff_of_true rfl .nil
  | cons r rs ih =>
      obtain ⟨hresult, hresults⟩ := List.pairwise_cons.mp hresults
      obtain ⟨hkey, hkeys⟩ := List.pairwise_cons.mp hkeys
      rw [Settled, List.pairwise_cons]
      by_cases hr : read a = r.key
      · have hrest : Settled read rs a := hkeys.imp_of_mem fun hmem _ _ h => absurd h (hkey _ hmem hr)
        rw [chain_apply hr, first_apply hr]
        cases hc : r.result a with
        | none => exact iff_of_true rfl ⟨fun _ _ _ c hc => absurd hc (Option.not_mem_none c), hrest⟩
        | some c =>
            rw [Option.bind_some]
            constructor
            · intro hchain
              refine ⟨fun later hmem _ d hd => ?_, hrest⟩
              obtain rfl := Option.some.inj hd
              rcases chain_result hchain with hnone | ⟨r', hmem', b, hb⟩
              · exact hnone later hmem
              · exact absurd hb (hresult r' hmem' a b c hc)
            · rintro ⟨hsettled, -⟩
              exact chain_none_for fun later hmem => hsettled later hmem hr c rfl
      · rw [chain_skip hr, first_skip hr, ih hresults hkeys, Settled]
        exact ⟨fun h => ⟨fun _ _ h => absurd h hr, h⟩, And.right⟩

end Rule

end Lib
