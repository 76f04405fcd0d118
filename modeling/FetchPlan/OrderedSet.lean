/-!
# Finite sets in increasing order

Field names and joined field pairs are sets that are printed in order. An `OrderedSet` is
the strictly increasing list of its members, so two sets with the same members are equal
(`OrderedSet.ext_mem`), however they were built.
-/

namespace FetchPlan

open Std

/-- A finite set, held as the strictly increasing list of its members. -/
structure OrderedSet (α : Type) [Ord α] where
  toList : List α
  ordered : toList.Pairwise fun a b => compare a b = .lt

namespace OrderedSet

variable {α : Type} [Ord α]

instance : Membership α (OrderedSet α) := ⟨fun s a => a ∈ s.toList⟩

instance [DecidableEq α] (a : α) (s : OrderedSet α) : Decidable (a ∈ s) :=
  inferInstanceAs (Decidable (a ∈ s.toList))

instance [DecidableEq α] : DecidableEq (OrderedSet α) := fun s t =>
  decidable_of_iff (s.toList = t.toList) <| by
    cases s; cases t; simp

instance : EmptyCollection (OrderedSet α) := ⟨[], .nil⟩

instance : Inhabited (OrderedSet α) := ⟨∅⟩

@[simp] theorem mem_toList {a : α} {s : OrderedSet α} : a ∈ s.toList ↔ a ∈ s := Iff.rfl

@[simp] theorem toList_empty : (∅ : OrderedSet α).toList = [] := rfl

@[simp] theorem not_mem_empty (a : α) : a ∉ (∅ : OrderedSet α) := List.not_mem_nil

/-! ## Insertion -/

/-- Puts `a` in its place in an increasing list, unless it is there already. -/
def place (a : α) : List α → List α
  | [] => [a]
  | b :: bs =>
    match compare a b with
    | .lt => a :: b :: bs
    | .eq => b :: bs
    | .gt => b :: place a bs

variable [LawfulEqOrd α]

/-- A set lists no member twice. -/
theorem nodup_toList (s : OrderedSet α) : s.toList.Nodup :=
  s.ordered.imp fun {a b} hlt heq => by
    subst heq
    simp at hlt

@[simp] theorem mem_place {a x : α} {l : List α} : x ∈ place a l ↔ x = a ∨ x ∈ l := by
  induction l with
  | nil => simp [place]
  | cons b bs ih =>
    rw [place]
    split
    · simp
    · have h : a = b := LawfulEqOrd.eq_of_compare ‹_›
      simp [h]
    · simp [ih, or_left_comm]

variable [TransOrd α]

theorem pairwise_place {a : α} {l : List α} (h : l.Pairwise fun x y => compare x y = .lt) :
    (place a l).Pairwise fun x y => compare x y = .lt := by
  induction l with
  | nil => simp [place]
  | cons b bs ih =>
    obtain ⟨hb, hbs⟩ := List.pairwise_cons.1 h
    rw [place]
    split
    · refine List.pairwise_cons.2 ⟨fun x hx => ?_, h⟩
      rcases List.mem_cons.1 hx with rfl | hx
      · assumption
      · exact TransCmp.lt_trans ‹_› (hb x hx)
    · exact h
    · refine List.pairwise_cons.2 ⟨fun x hx => ?_, ih hbs⟩
      rcases mem_place.1 hx with rfl | hx
      · exact OrientedCmp.gt_iff_lt.1 ‹_›
      · exact hb x hx

/-- The set with `a` added. -/
def insert (s : OrderedSet α) (a : α) : OrderedSet α := ⟨place a s.toList, pairwise_place s.ordered⟩

/-- The set with every member of a list added. -/
def insertAll (s : OrderedSet α) (l : List α) : OrderedSet α := l.foldl insert s

/-- The set of the members of a list. -/
def ofList (l : List α) : OrderedSet α := insertAll ∅ l

@[simp] theorem mem_insert {a x : α} {s : OrderedSet α} : x ∈ s.insert a ↔ x = a ∨ x ∈ s :=
  mem_place

@[simp] theorem mem_insertAll {x : α} {s : OrderedSet α} {l : List α} :
    x ∈ s.insertAll l ↔ x ∈ l ∨ x ∈ s := by
  induction l generalizing s with
  | nil => simp [insertAll]
  | cons a l ih =>
    have : s.insertAll (a :: l) = (s.insert a).insertAll l := rfl
    rw [this, ih, mem_insert, List.mem_cons]
    grind

@[simp] theorem mem_ofList {x : α} {l : List α} : x ∈ ofList l ↔ x ∈ l := by simp [ofList]

/-- Sets with the same members are equal. -/
theorem ext_mem {s t : OrderedSet α} (h : ∀ a, a ∈ s ↔ a ∈ t) : s = t := by
  obtain ⟨l, hl⟩ := s
  obtain ⟨m, hm⟩ := t
  suffices l = m by subst this; rfl
  replace h : ∀ a, a ∈ l ↔ a ∈ m := h
  have irrefl : ∀ a : α, compare a a ≠ .lt := fun a => by simp
  induction l generalizing m with
  | nil => cases m with
    | nil => rfl
    | cons b m => exact absurd ((h b).2 (by simp)) (by simp)
  | cons a l ih => cases m with
    | nil => exact absurd ((h a).1 (by simp)) (by simp)
    | cons b m =>
      obtain ⟨ha, hl'⟩ := List.pairwise_cons.1 hl
      obtain ⟨hb, hm'⟩ := List.pairwise_cons.1 hm
      have hab : a = b := by
        rcases List.mem_cons.1 ((h a).1 (by simp)) with hab | ham
        · exact hab
        rcases List.mem_cons.1 ((h b).2 (by simp)) with hba | hbl
        · exact hba.symm
        exact absurd (TransCmp.lt_trans (hb a ham) (ha b hbl)) (irrefl b)
      subst hab
      refine congrArg (a :: ·) (ih hl' m hm' fun x => ?_)
      have hx := h x
      have hal : a ∉ l := fun hm => irrefl a (ha a hm)
      have ham : a ∉ m := fun hm => irrefl a (hb a hm)
      grind

end OrderedSet
end FetchPlan
