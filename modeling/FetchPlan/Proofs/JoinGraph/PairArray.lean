import FetchPlan.JoinGraph.PairArray
import FetchPlan.Proofs.JoinGraph.Views
import FetchPlan.Proofs.OrderedSet
import FetchPlan.Proofs.Text.ByteOrder
import Mathlib.Data.List.Nodup

/-!
# Arrays of field pairs are sets in order

Whatever is put into an array of pairs, and in whatever order, the array is the one that holds the
set of these pairs (`Built.eq_ofSet`), and it answers as the set does: one lemma for each operation,
from `insert_ofSet` to `targets_ofSet`. So the arrays that can be built are sorted by their bytes
and have no pair twice, those with the same pairs are equal, and the fields at both ends are listed
once each and in order (`enumerates_of_built`).
-/

namespace FetchPlan

open Std

/-! ## Looking for a place -/

section Bisect

variable {α : Type} {order : α → Ordering} {entries : Array α}

/-- The entry at a taken spot is found equal; entries before a free spot are found less, and those
from there on greater. -/
def Spot.Fits (order : α → Ordering) (entries : Array α) : Spot entries.size → Prop
  | .taken index => order entries[index] = .eq
  | .free index =>
    (∀ i (_ : i < entries.size), i < index → order entries[i] = .lt) ∧
      ∀ i (_ : i < entries.size), index ≤ i → order entries[i] = .gt

/-- Entries that are found less come first, and those that are found greater come last. -/
structure Graded (order : α → Ordering) (entries : Array α) : Prop where
  less : ∀ i j (_ : i < j) (_ : j < entries.size), order entries[j] = .lt → order entries[i] = .lt
  greater : ∀ i j (_ : i < j) (_ : j < entries.size),
    order entries[i] = .gt → order entries[j] = .gt

theorem fits_bisect (h : Graded order entries) {low high : Nat} (hlow : low ≤ high)
    (hhigh : high ≤ entries.size)
    (hbelow : ∀ i (_ : i < entries.size), i < low → order entries[i] = .lt)
    (habove : ∀ i (_ : i < entries.size), high ≤ i → order entries[i] = .gt) :
    (bisect order entries low high hlow hhigh).Fits order entries := by
  fun_induction bisect order entries low high hlow hhigh with
  | case1 low high hlow hhigh hlt middle hmiddle heq => exact heq
  | case2 low high hlow hhigh hlt middle hmiddle hless ih =>
    refine ih (fun i hi him => ?_) habove
    rcases Nat.lt_or_eq_of_le (Nat.le_of_lt_succ him) with him | rfl
    · exact h.less i middle him hmiddle hless
    · exact hless
  | case3 low high hlow hhigh hlt middle hmiddle hgreater ih =>
    refine ih hbelow fun i hi him => ?_
    rcases Nat.lt_or_eq_of_le him with him | rfl
    · exact h.greater middle i him hi hgreater
    · exact hgreater
  | case4 low high hlow hhigh hnlt =>
    have heq : low = high := by omega
    exact ⟨hbelow, fun i hi hi' => habove i hi (heq ▸ hi')⟩

end Bisect

/-! ## Sets of field pairs -/

theorem FieldPair.byteOrder_eq_compare (p q : FieldPair) : p.byteOrder q = compare p q := by
  rw [byteOrder, compareBytes_eq_compare, compareBytes_eq_compare]
  rfl

theorem FieldPair.mem_map_swap {l : List FieldPair} {p : FieldPair} :
    p ∈ l.map swap ↔ p.swap ∈ l := by
  rw [List.mem_map]
  constructor
  · rintro ⟨q, hq, rfl⟩
    exact hq
  · exact fun h => ⟨p.swap, h, p.swap_swap⟩

/-- A list has the members of another one, once each and strictly increasing. -/
structure Enumerates {α : Type} (order : α → α → Ordering) (l members : List α) : Prop where
  increasing : l.Pairwise fun a b => order a b = .lt
  mem : ∀ a, a ∈ l ↔ a ∈ members

theorem enumerates_ofList {α : Type} [Ord α] [LawfulEqOrd α] [TransOrd α]
    {order : α → α → Ordering} {l : List α} (horder : ∀ a b, order a b = compare a b) :
    Enumerates order (OrderedSet.ofList l).toList l where
  increasing := (OrderedSet.ofList l).ordered.imp fun h => (horder _ _).trans h
  mem _ := OrderedSet.mem_ofList

namespace FieldPairs

variable {ps qs : FieldPairs} {l m : List FieldPair}

theorem reversed_ofList (l : List FieldPair) :
    reversed (.ofList l) = .ofList (l.map FieldPair.swap) :=
  OrderedSet.ext_mem fun p => by
    rw [mem_reversed, OrderedSet.mem_ofList, OrderedSet.mem_ofList, FieldPair.mem_map_swap]

theorem sources_ofList (l : List FieldPair) :
    sources (.ofList l) = .ofList (l.map FieldPair.source) :=
  OrderedSet.ofList_eq_ofList.2 fun x => by simp

theorem targets_ofList (l : List FieldPair) :
    targets (.ofList l) = .ofList (l.map FieldPair.target) :=
  OrderedSet.ofList_eq_ofList.2 fun x => by simp

theorem isReverseOf_comm (ps qs : FieldPairs) : ps.isReverseOf qs = qs.isReverseOf ps := by
  rw [Bool.eq_iff_iff, isReverseOf_iff, isReverseOf_iff]
  constructor
  · rintro rfl
    exact (reversed_reversed qs).symm
  · rintro rfl
    exact (reversed_reversed ps).symm

theorem isReverseOf_ofList :
    isReverseOf (.ofList l) (.ofList m) = true ↔ ∀ p, p ∈ l ↔ p.swap ∈ m := by
  rw [isReverseOf_iff, reversed_ofList, OrderedSet.ofList_eq_ofList]
  simp only [FieldPair.mem_map_swap]

end FieldPairs

/-! ## The array of a set -/

namespace PairArray

variable {t t' : PairArray} {ps qs : FieldPairs} {calls calls' : List FieldPair} {p : FieldPair}

/-- The array of the pairs of a set. -/
def ofSet (ps : FieldPairs) : PairArray := ⟨ps.toList.toArray⟩

@[simp] theorem toList_ofSet : (ofSet ps).toList = ps.toList := rfl

theorem ofSet_inj : ofSet ps = ofSet qs ↔ ps = qs := by
  constructor
  · intro h
    exact OrderedSet.ext_mem fun p => by
      rw [← OrderedSet.mem_toList, ← toList_ofSet, h, toList_ofSet, OrderedSet.mem_toList]
  · exact congrArg ofSet

theorem graded_ofSet (ps : FieldPairs) (p : FieldPair) :
    Graded (fun q => compare q p) (ofSet ps).pairs where
  less i j hij hj hlt :=
    TransCmp.lt_trans (List.pairwise_iff_getElem.1 ps.ordered i j _ hj hij) hlt
  greater i j hij hj hgt := by
    have hlt := List.pairwise_iff_getElem.1 ps.ordered i j (Nat.lt_trans hij hj) hj hij
    exact TransCmp.gt_trans (OrientedCmp.gt_of_lt hlt) hgt

theorem fits_spot (ps : FieldPairs) (p : FieldPair) :
    ((ofSet ps).spot p).Fits (fun q => compare q p) (ofSet ps).pairs := by
  rw [spot, funext fun q => FieldPair.byteOrder_eq_compare q p]
  exact fits_bisect (graded_ofSet ps p) (Nat.zero_le _) (Nat.le_refl _)
    (fun i _ hi => absurd hi (Nat.not_lt_zero i)) (fun i hi hi' => absurd hi (Nat.not_lt.2 hi'))

theorem mem_of_spot {index : Fin (ofSet ps).pairs.size} (h : (ofSet ps).spot p = .taken index) :
    p ∈ ps := by
  have hfits := fits_spot ps p
  rw [h] at hfits
  have heq : (ofSet ps).pairs[index] = p := LawfulEqOrd.eq_of_compare hfits
  exact heq ▸ Array.mem_toList_iff.2 (Array.getElem_mem index.isLt)

/-- At a free spot all the pairs before it are less and all the others are greater, so the pair is
not among them, and put there it is in its place. -/
theorem insertIdx_of_spot {index : Fin ((ofSet ps).pairs.size + 1)}
    (h : (ofSet ps).spot p = .free index) :
    p ∉ ps ∧ ps.toList.insertIdx index p = (ps.insert p).toList := by
  have hfits := fits_spot ps p
  rw [h] at hfits
  obtain ⟨hbelow, habove⟩ := hfits
  refine ⟨fun hmem => ?_,
    OrderedSet.insertIdx_eq (Nat.le_of_lt_succ index.isLt) hbelow habove⟩
  obtain ⟨i, hi, rfl⟩ := List.getElem_of_mem hmem
  have heq : compare ps.toList[i] ps.toList[i] = .eq := ReflOrd.compare_self
  rcases Nat.lt_or_ge i index with hlt | hge
  · exact absurd (heq.symm.trans (hbelow i hi hlt)) (by decide)
  · exact absurd (heq.symm.trans (habove i hi hge)) (by decide)

/-! ### The operations -/

theorem insert_ofSet (ps : FieldPairs) (p : FieldPair) :
    (ofSet ps).insert p = (decide (p ∉ ps), ofSet (ps.insert p)) := by
  rw [insert]
  split
  · next index hspot =>
    have hmem : p ∈ ps := mem_of_spot hspot
    have hsame : ps.insert p = ps := OrderedSet.ext_mem fun q => by
      rw [OrderedSet.mem_insert, or_iff_right_of_imp fun h => h ▸ hmem]
    rw [hsame, decide_eq_false (not_not_intro hmem)]
  · next index hspot =>
    obtain ⟨hnew, hlist⟩ := insertIdx_of_spot hspot
    have hpairs : (ofSet ps).pairs.insertIdx index p (Nat.le_of_lt_succ index.isLt) =
        (ofSet (ps.insert p)).pairs := by
      rw [← Array.toList_inj, Array.toList_insertIdx]
      exact hlist
    rw [decide_eq_true hnew, hpairs]

theorem reversed_ofSet (ps : FieldPairs) : (ofSet ps).reversed = ofSet ps.reversed := by
  have hswap : Function.Injective FieldPair.swap := fun p q h => by
    rw [← p.swap_swap, h, q.swap_swap]
  simp only [reversed, toList_ofSet, FieldPair.byteOrder_eq_compare]
  rw [OrderedSet.mergeSort_eq (List.Nodup.map hswap ps.nodup_toList)]
  rfl

theorem isReverseOf_ofSet (ps qs : FieldPairs) :
    (ofSet ps).isReverseOf (ofSet qs) = ps.isReverseOf qs := by
  simp only [isReverseOf, FieldPairs.isReverseOf, reversed_ofSet, ofSet_inj]

theorem sources_ofSet (ps : FieldPairs) : (ofSet ps).sources = ps.sources.toList := by
  refine OrderedSet.eraseReps_eq ?_
  -- The source fields decide the order of the pairs first, so they are in order themselves.
  refine List.Pairwise.map _ (fun p q hlt => ?_) ps.ordered
  have hlt : ((compare p.source q.source).then (compare p.target q.target)) = .lt := hlt
  rcases Ordering.then_eq_lt.1 hlt with h | ⟨h, -⟩
  · rw [h]; rfl
  · rw [h]; rfl

theorem targets_ofSet (ps : FieldPairs) : (ofSet ps).targets = ps.targets.toList := by
  simp only [targets, compareBytes_eq_compare]
  exact OrderedSet.eraseReps_mergeSort _

theorem foldl_insert_ofSet (ps : FieldPairs) (calls : List FieldPair) :
    calls.foldl (fun t p => (t.insert p).2) (ofSet ps) = ofSet (ps.insertAll calls) := by
  induction calls generalizing ps with
  | nil => rfl
  | cons p calls ih =>
    rw [List.foldl_cons, insert_ofSet]
    exact ih (ps.insert p)

theorem ofFields_eq_ofSet (sources targets : List String) :
    ofFields sources targets = ofSet (FieldPairs.zip sources targets) :=
  foldl_insert_ofSet ∅ _

/-! ## Arrays that can be built -/

/-- What can be built out of arrays of pairs, with the pairs that have been put in. -/
inductive Built : PairArray → List FieldPair → Prop
  | empty : Built ∅ []
  | ofFields {sources targets : List String} (hlength : sources.length = targets.length) :
    Built (ofFields sources targets) (List.zipWith FieldPair.mk sources targets)
  | insert {t : PairArray} {calls : List FieldPair} (p : FieldPair) (h : Built t calls) :
    Built (t.insert p).2 (p :: calls)
  | reversed {t : PairArray} {calls : List FieldPair} (h : Built t calls) :
    Built t.reversed (calls.map FieldPair.swap)

theorem Built.eq_ofSet (h : Built t calls) : t = ofSet (.ofList calls) := by
  induction h with
  | empty => rfl
  | ofFields => exact ofFields_eq_ofSet _ _
  | @insert t calls p h ih =>
    have hinsert : (OrderedSet.ofList calls).insert p = .ofList (p :: calls) :=
      OrderedSet.ext_mem fun q => by
        rw [OrderedSet.mem_insert, OrderedSet.mem_ofList, OrderedSet.mem_ofList, List.mem_cons]
    rw [ih, insert_ofSet, hinsert]
  | reversed h ih => rw [ih, reversed_ofSet, FieldPairs.reversed_ofList]

/-- An array has the pairs of a set, and answers as the set does. -/
structure Represents (t : PairArray) (ps : FieldPairs) : Prop where
  toList : t.toList = ps.toList
  added : ∀ p, (t.insert p).1 = decide (p ∉ ps)
  insert : ∀ p, (t.insert p).2.toList = (ps.insert p).toList
  reversed : t.reversed.toList = ps.reversed.toList
  sources : t.sources = ps.sources.toList
  targets : t.targets = ps.targets.toList

theorem represents_ofSet (ps : FieldPairs) : (ofSet ps).Represents ps where
  toList := rfl
  added p := congrArg Prod.fst (insert_ofSet ps p)
  insert p := congrArg (fun r => r.2.toList) (insert_ofSet ps p)
  reversed := congrArg toList (reversed_ofSet ps)
  sources := sources_ofSet ps
  targets := targets_ofSet ps

/-- An array that is built lists the pairs that were put in, once each and in the order of their
bytes, and a pair is added iff it is new. Arrays are equal iff the same pairs were put in. Seen from
the other end an array lists the swapped pairs, and seen from there again it is as it was; two
arrays are reverse to each other iff the pairs of one are those of the other one swapped. The fields
at both ends are listed once each and in order. In all this the array answers as the field pairs of
a join graph do. -/
theorem enumerates_of_built (h : Built t calls) (h' : Built t' calls') :
    Enumerates FieldPair.byteOrder t.toList calls ∧
      (∀ p, (t.insert p).1 = true ↔ p ∉ calls) ∧
      (t = t' ↔ ∀ p, p ∈ calls ↔ p ∈ calls') ∧
      (Enumerates FieldPair.byteOrder t.reversed.toList (calls.map FieldPair.swap) ∧
        t.reversed.reversed = t) ∧
      (t.isReverseOf t' = t'.isReverseOf t ∧
        (t.isReverseOf t' = true ↔ ∀ p, p ∈ calls ↔ p.swap ∈ calls')) ∧
      (Enumerates compareBytes t.sources (calls.map FieldPair.source) ∧
        Enumerates compareBytes t.targets (calls.map FieldPair.target)) ∧
      t.Represents (.ofList calls) ∧
      t.isReverseOf t' = FieldPairs.isReverseOf (.ofList calls) (.ofList calls') := by
  obtain rfl := h.eq_ofSet
  obtain rfl := h'.eq_ofSet
  refine ⟨enumerates_ofList FieldPair.byteOrder_eq_compare, fun p => ?_, ?_, ⟨?_, ?_⟩, ⟨?_, ?_⟩,
    ⟨?_, ?_⟩, represents_ofSet _, isReverseOf_ofSet _ _⟩
  · rw [insert_ofSet, decide_eq_true_iff, OrderedSet.mem_ofList]
  · rw [ofSet_inj, OrderedSet.ofList_eq_ofList]
  · rw [reversed_ofSet, FieldPairs.reversed_ofList]
    exact enumerates_ofList FieldPair.byteOrder_eq_compare
  · rw [reversed_ofSet, reversed_ofSet, FieldPairs.reversed_reversed]
  · rw [isReverseOf_ofSet, isReverseOf_ofSet, FieldPairs.isReverseOf_comm]
  · rw [isReverseOf_ofSet, FieldPairs.isReverseOf_ofList]
  · rw [sources_ofSet, FieldPairs.sources_ofList]
    exact enumerates_ofList compareBytes_eq_compare
  · rw [targets_ofSet, FieldPairs.targets_ofList]
    exact enumerates_ofList compareBytes_eq_compare

/-- Two pairs that reach the same field are put in behind a third one. The full-width letter is less
than the mathematical one by their bytes, though not by their UTF-16 units. -/
theorem enumerates_orderNumbers :
    let t := ((ofFields ["𝑛", "Id"] ["𝑛", "OrderId"]).insert ⟨"Ｎ", "OrderId"⟩).2
    let t' := ((((∅ : PairArray).insert ⟨"OrderId", "Ｎ"⟩).2.insert ⟨"OrderId", "Id"⟩).2.insert
      ⟨"𝑛", "𝑛"⟩).2
    let calls : List FieldPair := [⟨"Ｎ", "OrderId"⟩, ⟨"𝑛", "𝑛"⟩, ⟨"Id", "OrderId"⟩]
    let calls' : List FieldPair := [⟨"𝑛", "𝑛"⟩, ⟨"OrderId", "Id"⟩, ⟨"OrderId", "Ｎ"⟩]
    Built t calls ∧ Built t' calls' ∧
      t.toList = [⟨"Id", "OrderId"⟩, ⟨"Ｎ", "OrderId"⟩, ⟨"𝑛", "𝑛"⟩] ∧
      (t.insert ⟨"Ｎ", "OrderId"⟩).1 = false ∧ t.isReverseOf t' = true ∧
      t.sources = ["Id", "Ｎ", "𝑛"] ∧ t.targets = ["OrderId", "𝑛"] := by
  intro t t' calls calls'
  have hlength : ["𝑛", "Id"].length = ["𝑛", "OrderId"].length := rfl
  have hbuilt : Built t calls := (Built.ofFields hlength).insert _
  have hbuilt' : Built t' calls' := ((Built.empty.insert _).insert _).insert _
  obtain ⟨-, hadded, -, -, ⟨-, hreverse⟩, -, hset, -⟩ := enumerates_of_built hbuilt hbuilt'
  refine ⟨hbuilt, hbuilt', hset.toList.trans (by decide), ?_, hreverse.2 ?_,
    hset.sources.trans (by decide), hset.targets.trans (by decide)⟩
  · rw [← Bool.not_eq_true, hadded]
    decide
  · intro p
    have hperm : calls.Perm (calls'.map FieldPair.swap) := by decide
    rw [← FieldPair.mem_map_swap, hperm.mem_iff]

end PairArray
end FetchPlan
