import FetchPlan.OrderedSet
import Mathlib.Data.List.Basic

/-!
# Lists that are ordered sets

A strictly increasing list is the list of the set of its members (`OrderedSet.toList_eq`). Three
ways to make one out of other lists give the set that insertion gives: an entry put in at its place
(`insertIdx_eq`), entries without repetitions sorted (`mergeSort_eq`), and sorted entries of which
those that stand side by side are dropped if they are equal (`eraseReps_eq`).
-/

namespace FetchPlan

open Std

/-! ## Dropping repetitions side by side -/

section EraseReps

variable {α : Type}

theorem eraseRepsBy_loop (r : α → α → Bool) (a : α) (l dropped : List α) :
    List.eraseRepsBy.loop r a l dropped =
      dropped.reverse ++ List.eraseRepsBy.loop r a l [] := by
  induction l generalizing a dropped with
  | nil => simp [List.eraseRepsBy.loop]
  | cons b l ih =>
    rw [List.eraseRepsBy.loop, List.eraseRepsBy.loop]
    split
    · exact ih a dropped
    · rw [ih b (a :: dropped), ih b [a]]
      simp

variable [DecidableEq α] {a : α}

theorem eraseReps_cons_cons (a b : α) (l : List α) :
    (a :: b :: l).eraseReps = if a = b then (a :: l).eraseReps else a :: (b :: l).eraseReps := by
  show List.eraseRepsBy.loop _ a (b :: l) [] = _
  rw [List.eraseRepsBy.loop]
  split
  · next h =>
    rw [if_pos (beq_iff_eq.1 h)]
    rfl
  · next h =>
    rw [if_neg (beq_eq_false_iff_ne.1 h), eraseRepsBy_loop]
    rfl

theorem mem_eraseReps_cons (b : α) (l : List α) : a ∈ (b :: l).eraseReps ↔ a ∈ b :: l := by
  induction l generalizing b with
  | nil => exact Iff.rfl
  | cons c l ih =>
    rw [eraseReps_cons_cons]
    split
    · next h => rw [ih, List.mem_cons, List.mem_cons, List.mem_cons, h, or_self_left]
    · rw [List.mem_cons, ih, List.mem_cons (b := b)]

theorem mem_eraseReps {l : List α} : a ∈ l.eraseReps ↔ a ∈ l := by
  cases l with
  | nil => exact Iff.rfl
  | cons b l => exact mem_eraseReps_cons b l

end EraseReps

namespace OrderedSet

variable {α : Type} [Ord α] {l m : List α} {a b : α}

/-! ## Strictly increasing lists -/

theorem compare_lt_of_isLE [LawfulEqOrd α] (hle : (compare a b).isLE = true) (hne : a ≠ b) :
    compare a b = .lt := by
  cases h : compare a b with
  | lt => rfl
  | eq => exact absurd (LawfulEqOrd.eq_of_compare h) hne
  | gt => simp [h] at hle

variable [TransOrd α]

theorem pairwise_mergeSort (l : List α) :
    (l.mergeSort fun a b => (compare a b).isLE).Pairwise fun a b => (compare a b).isLE = true := by
  refine List.pairwise_mergeSort (fun _ _ _ => TransCmp.isLE_trans) (fun a b => ?_) l
  rw [OrientedOrd.eq_swap (a := b)]
  cases compare a b <;> decide

theorem pairwise_insertIdx {index : Nat} (hl : l.Pairwise fun a b => compare a b = .lt)
    (hindex : index ≤ l.length)
    (hbelow : ∀ i (hi : i < l.length), i < index → compare l[i] a = .lt)
    (habove : ∀ i (hi : i < l.length), index ≤ i → compare l[i] a = .gt) :
    (l.insertIdx index a).Pairwise fun a b => compare a b = .lt := by
  rw [List.pairwise_iff_getElem] at hl ⊢
  intro i j hi hj hij
  rw [List.length_insertIdx_of_le_length hindex] at hi hj
  rw [List.getElem_insertIdx, List.getElem_insertIdx]
  rcases Nat.lt_trichotomy i index with hlt | rfl | hgt
  · rw [dif_pos hlt]
    rcases Nat.lt_trichotomy j index with hjlt | rfl | hjgt
    · rw [dif_pos hjlt]
      exact hl _ _ _ _ hij
    · rw [dif_neg (Nat.lt_irrefl j), dif_pos rfl]
      exact hbelow _ _ hlt
    · rw [dif_neg (by omega), dif_neg (by omega)]
      exact hl _ _ _ _ (by omega)
  · rw [dif_neg (Nat.lt_irrefl i), dif_pos rfl, dif_neg (by omega), dif_neg (by omega)]
    exact OrientedCmp.gt_iff_lt.1 (habove _ _ (by omega))
  · rw [dif_neg (by omega), dif_neg (by omega), dif_neg (by omega), dif_neg (by omega)]
    exact hl _ _ _ _ (by omega)

variable [LawfulEqOrd α]

theorem pairwise_eraseReps_cons [DecidableEq α] (b : α) (l : List α)
    (h : (b :: l).Pairwise fun a b => (compare a b).isLE = true) :
    (b :: l).eraseReps.Pairwise fun a b => compare a b = .lt := by
  induction l generalizing b with
  | nil => exact List.pairwise_singleton _ b
  | cons c l ih =>
    rw [eraseReps_cons_cons]
    obtain ⟨hb, hcl⟩ := List.pairwise_cons.1 h
    split
    · exact ih b (h.sublist (List.Sublist.cons_cons b (List.sublist_cons_self c l)))
    · next hne =>
      refine List.pairwise_cons.2 ⟨fun x hx => ?_, ih c hcl⟩
      -- What comes behind `c` is not less than `c`, which is greater than `b`.
      have hbc : compare b c = .lt := compare_lt_of_isLE (hb c List.mem_cons_self) hne
      rcases List.mem_cons.1 (mem_eraseReps.1 hx) with rfl | hx
      · exact hbc
      · exact TransCmp.lt_of_lt_of_isLE hbc ((List.pairwise_cons.1 hcl).1 x hx)

theorem pairwise_eraseReps [DecidableEq α]
    (h : l.Pairwise fun a b => (compare a b).isLE = true) :
    l.eraseReps.Pairwise fun a b => compare a b = .lt := by
  cases l with
  | nil => exact List.Pairwise.nil
  | cons b l => exact pairwise_eraseReps_cons b l h

/-! ## The list of a set -/

/-- The list of a set is the only strictly increasing list of its members. -/
theorem toList_eq {s : OrderedSet α} (hl : l.Pairwise fun a b => compare a b = .lt)
    (hmem : ∀ a, a ∈ l ↔ a ∈ s) : l = s.toList :=
  congrArg toList (ext_mem (s := ⟨l, hl⟩) hmem)

theorem ofList_eq_ofList : ofList l = ofList m ↔ ∀ a, a ∈ l ↔ a ∈ m := by
  constructor
  · intro h a
    rw [← mem_ofList, h, mem_ofList]
  · exact fun h => ext_mem fun a => by rw [mem_ofList, mem_ofList, h]

/-- An entry that is put where those before it are less and those behind it are greater. -/
theorem insertIdx_eq {s : OrderedSet α} {index : Nat} (hindex : index ≤ s.toList.length)
    (hbelow : ∀ i (hi : i < s.toList.length), i < index → compare s.toList[i] a = .lt)
    (habove : ∀ i (hi : i < s.toList.length), index ≤ i → compare s.toList[i] a = .gt) :
    s.toList.insertIdx index a = (s.insert a).toList := by
  refine toList_eq (pairwise_insertIdx s.ordered hindex hbelow habove) fun b => ?_
  rw [List.mem_insertIdx hindex, mem_insert, mem_toList]

/-- Entries without repetitions, sorted. -/
theorem mergeSort_eq (hl : l.Nodup) :
    (l.mergeSort fun a b => (compare a b).isLE) = (ofList l).toList := by
  have hperm := List.mergeSort_perm l fun a b => (compare a b).isLE
  refine toList_eq ?_ fun a => by rw [hperm.mem_iff, mem_ofList]
  exact ((pairwise_mergeSort l).and (hperm.nodup_iff.2 hl)).imp fun h => compare_lt_of_isLE h.1 h.2

/-- Entries in order, of which equal ones stand side by side. -/
theorem eraseReps_eq [DecidableEq α] (h : l.Pairwise fun a b => (compare a b).isLE = true) :
    l.eraseReps = (ofList l).toList :=
  toList_eq (pairwise_eraseReps h) fun a => by rw [mem_eraseReps, mem_ofList]

theorem eraseReps_mergeSort [DecidableEq α] (l : List α) :
    (l.mergeSort fun a b => (compare a b).isLE).eraseReps = (ofList l).toList := by
  rw [eraseReps_eq (pairwise_mergeSort l), ofList_eq_ofList.2 fun a => List.mem_mergeSort]

end OrderedSet
end FetchPlan
