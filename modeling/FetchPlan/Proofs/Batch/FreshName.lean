import FetchPlan.Batch.OfGraph
import FetchPlan.Proofs.Exhausts
import Mathlib.Data.List.Nodup
import Mathlib.Data.List.Perm.Subperm
import Mathlib.Order.Bounds.Defs
import Std.Data.String.ToNat

/-!
# Fresh names

The name of a new table variable is the first of its candidates that is not taken: the name itself,
and then the name with the numbers from one on. There is one among the first candidates, as they are
all different (`exists_freshName`). The loop that tries one candidate after the other until it comes
to a free one ends with it, after at most as many turns as there are names taken
(`isFresh_freshName`).
-/

namespace FetchPlan

variable {stem base relation name : String} {taken : List String} {m n : Nat}

/-! ## Candidates -/

/-- The names that are tried, in order. -/
def candidate (base : String) : Nat → String
  | 0 => base
  | n + 1 => base ++ toString (n + 1)

theorem append_toString_inj (h : base ++ toString m = base ++ toString n) : m = n := by
  rw [String.append_right_inj] at h
  exact Nat.repr_injective h

theorem append_toString_ne (n : Nat) : base ++ toString n ≠ base := by
  intro h
  have hlength := congrArg String.length h
  rw [String.length_append] at hlength
  have hpos : 0 < (toString n).length := Nat.length_repr_pos
  omega

theorem candidate_injective : Function.Injective (candidate base) := by
  intro m n h
  cases m with
  | zero =>
    cases n with
    | zero => rfl
    | succ n => exact absurd h.symm (append_toString_ne _)
  | succ m =>
    cases n with
    | zero => exact absurd h (append_toString_ne _)
    | succ n => exact append_toString_inj h

/-- There are no more candidates taken than names. -/
theorem le_length_of_candidates (h : ∀ k < n, candidate base k ∈ taken) : n ≤ taken.length := by
  have hnodup : ((List.range n).map (candidate base)).Nodup :=
    List.nodup_range.map candidate_injective
  have hsub : (List.range n).map (candidate base) ⊆ taken := by
    intro name hname
    obtain ⟨k, hk, rfl⟩ := List.mem_map.1 hname
    exact h k (List.mem_range.1 hk)
  have hlength := (List.subperm_of_subset hnodup hsub).length_le
  rw [List.length_map, List.length_range] at hlength
  exact hlength

/-! ## The first candidate that is not taken -/

/-- The search passes over candidates that are taken. It stops at one that is not, or when the tries
are used up. -/
theorem exists_numberedName (taken : List String) (base : String) (tries n : Nat) :
    ∃ m, n ≤ m ∧ m ≤ n + tries ∧
      numberedName taken base tries (n + 1) = candidate base (m + 1) ∧
      (∀ k, n < k → k ≤ m → candidate base k ∈ taken) ∧
      (m < n + tries → candidate base (m + 1) ∉ taken) := by
  induction tries generalizing n with
  | zero => exact ⟨n, Nat.le_refl _, Nat.le_refl _, rfl, fun k _ _ => by omega, fun h => by omega⟩
  | succ tries ih =>
    unfold numberedName
    by_cases hmem : base ++ toString (n + 1) ∈ taken
    · obtain ⟨m, hle, hle', heq, htaken, hfree⟩ := ih (n + 1)
      refine ⟨m, by omega, by omega, by rw [if_pos hmem, heq], ?_, fun h => hfree (by omega)⟩
      intro k hk hkm
      by_cases hnext : k = n + 1
      · rw [hnext]
        exact hmem
      · exact htaken k (by omega) hkm
    · refine ⟨n, Nat.le_refl _, by omega, by rw [if_neg hmem]; rfl, fun k _ _ => by omega, ?_⟩
      exact fun _ => hmem

/-- A relation as part of a name, without dots. -/
def undotted (relation : String) : String := relation.map fun c => if c = '.' then '_' else c

theorem exists_freshName (stem : String) (taken : List String) (relation : String) :
    ∃ n, freshName stem taken relation = candidate (stem ++ undotted relation) n ∧
      candidate (stem ++ undotted relation) n ∉ taken ∧
      ∀ k < n, candidate (stem ++ undotted relation) k ∈ taken := by
  show ∃ n, (if stem ++ undotted relation ∈ taken then
    numberedName taken (stem ++ undotted relation) taken.length 1 else _) = _ ∧ _
  by_cases hbase : stem ++ undotted relation ∈ taken
  · rw [if_pos hbase]
    obtain ⟨m, -, hle, heq, htaken, hfree⟩ :=
      exists_numberedName taken (stem ++ undotted relation) taken.length 0
    have hall : ∀ k < m + 1, candidate (stem ++ undotted relation) k ∈ taken := by
      intro k hk
      cases k with
      | zero => exact hbase
      | succ k => exact htaken (k + 1) (by omega) (by omega)
    have hlt := le_length_of_candidates hall
    exact ⟨m + 1, heq, hfree (by omega), hall⟩
  · rw [if_neg hbase]
    exact ⟨0, rfl, hbase, fun k hk => by omega⟩

/-- A fresh name is not taken. -/
theorem freshName_not_mem (stem : String) (taken : List String) (relation : String) :
    freshName stem taken relation ∉ taken := by
  obtain ⟨n, heq, hfree, -⟩ := exists_freshName stem taken relation
  rw [heq]
  exact hfree

/-! ## The loop without a limit -/

/-- As long as the name at hand is taken, there is a next number to try. -/
def nextNumber? (taken : List String) (s : String × Nat) : Option Nat :=
  if s.1 ∈ taken then some s.2 else none

/-- The name with a number, and the number after it. -/
def withNumber (base : String) (n : Nat) (_ : String × Nat) : String × Nat :=
  (base ++ toString n, n + 1)

/-- The loop goes from candidate to candidate, to the first that is not taken. -/
theorem exhausts_candidates (hle : n ≤ m) (htaken : ∀ k, n ≤ k → k < m → candidate base k ∈ taken)
    (hfree : candidate base m ∉ taken) :
    Exhausts (nextNumber? taken) (withNumber base) (candidate base n, n + 1)
      (List.range' (n + 1) (m - n)) (candidate base m, m + 1) := by
  obtain ⟨d, rfl⟩ := Nat.exists_eq_add_of_le hle
  rw [Nat.add_sub_cancel_left]
  clear hle
  induction d generalizing n with
  | zero => exact .stop (if_neg hfree)
  | succ d ih =>
    have hnext : n + (d + 1) = n + 1 + d := by omega
    rw [hnext] at htaken hfree ⊢
    exact .go (if_pos (htaken n (Nat.le_refl _) (by omega)))
      (ih (fun k hk hlt => htaken k (by omega) hlt) hfree)

/-- `name` is the fresh name for `base`: the loop that looks for it ends, after at most as many
turns as there are names taken, with `base` itself or with `base` and the least number that makes it
new. -/
structure IsFresh (base : String) (taken : List String) (name : String) : Prop where
  ends : ∃ tried next, Exhausts (nextNumber? taken) (withNumber base) (base, 1) tried (name, next) ∧
    tried.length ≤ taken.length
  plain : base ∉ taken → name = base
  numbered : base ∈ taken →
    ∃ n, IsLeast {n | 1 ≤ n ∧ base ++ toString n ∉ taken} n ∧ name = base ++ toString n

theorem isFresh_candidate (hfree : candidate base n ∉ taken)
    (htaken : ∀ k < n, candidate base k ∈ taken) : IsFresh base taken (candidate base n) where
  ends := by
    refine ⟨_, _, exhausts_candidates (Nat.zero_le n) (fun k _ => htaken k) hfree, ?_⟩
    rw [List.length_range']
    exact le_length_of_candidates htaken
  plain hbase := by
    cases n with
    | zero => rfl
    | succ n => exact absurd (htaken 0 (Nat.succ_pos n)) hbase
  numbered hbase := by
    cases n with
    | zero => exact absurd hbase hfree
    | succ n =>
      refine ⟨n + 1, ⟨⟨Nat.succ_pos n, hfree⟩, ?_⟩, rfl⟩
      rintro k ⟨hpos, hk⟩
      obtain ⟨k, rfl⟩ := Nat.exists_eq_succ_of_ne_zero (Nat.ne_of_gt hpos)
      by_contra hlt
      exact hk (htaken (k + 1) (by omega))

theorem isFresh_freshName (stem : String) (taken : List String) (relation : String) :
    IsFresh (stem ++ undotted relation) taken (freshName stem taken relation) := by
  obtain ⟨n, heq, hfree, htaken⟩ := exists_freshName stem taken relation
  rw [heq]
  exact isFresh_candidate hfree htaken

end FetchPlan
