import FetchPlan.Proofs.Batch.Selects

/-!
# The database that a path is tested on

A path over associations is tested on the database that has just the rows it needs: a row for each
leg, with values of its own but for the one that the leg joins. Only where the primary key tells
that the row is there already, the leg leads to that one. Whatever the rows are that a path leads
to in a database with primary keys, there is a map from this database to it that respects them
(`Tableau.exists_valuation`).
-/

namespace FetchPlan

open JoinGraph

variable {V : Type}

/-- A step over an association: from the rows before to those of `relation` whose `key` equals their
`column`. -/
structure Leg where
  column : String
  key : String
  relation : String
deriving DecidableEq

/-- The label of the connection that an association makes. -/
def Leg.label (l : Leg) : Label := ⟨FieldPairs.zip [l.column] [l.key], l.relation⟩

theorem Leg.forall_mem_fields {l : Leg} {P : FieldPair → Prop} :
    (∀ q ∈ l.label.fields, P q) ↔ P ⟨l.column, l.key⟩ :=
  FieldPairs.forall_mem_zip_singleton

/-- A value that is nothing but the column of a row, rows being numbered from zero. -/
structure Cell where
  row : Nat
  column : String
deriving DecidableEq

/-- A row with values of its own in all columns. -/
def Cell.fresh (row : Nat) : Row Cell := fun x => ⟨row, x⟩

/-- The rows that a path needs with their relations, the last one made first, and the row that the
path leads to. -/
structure Tableau where
  rows : List (String × Row Cell)
  last : Row Cell

namespace Tableau

/-- The row that a leg leads to, if its key is the primary key and some row has it. -/
def known? (s : Schema) (t : Tableau) (l : Leg) : Option (String × Row Cell) :=
  if s.primaryKey l.relation = .ok [l.key] then
    t.rows.find? fun e => e.1 = l.relation ∧ e.2 l.key = t.last l.column
  else none

/-- Goes one leg further, to a new row unless the leg leads to a known one. -/
def follow (s : Schema) (t : Tableau) (l : Leg) : Tableau :=
  match t.known? s l with
  | some e => { t with last := e.2 }
  | none =>
    let row : Row Cell := fun x =>
      if x = l.key then t.last l.column else Cell.fresh t.rows.length x
    ⟨(l.relation, row) :: t.rows, row⟩

/-- The tableau of a path from a relation, the last leg first. -/
def ofLegs (s : Schema) (start : String) : List Leg → Tableau
  | [] => ⟨[(start, Cell.fresh 0)], Cell.fresh 0⟩
  | l :: legs => (ofLegs s start legs).follow s l

/-- The rows of each relation. -/
def database (t : Tableau) : Database Cell := fun relation =>
  (t.rows.filter (·.1 = relation)).map Prod.snd

/-- The parameters that ask for the first row. -/
def params (filters : List KeyFilter) : String → Cell := fun x =>
  Cell.fresh 0 (((filters.find? (·.param = x)).map KeyFilter.column).getD "")

variable {s : Schema} {t : Tableau} {l : Leg} {e : String × Row Cell} {start relation : String}
  {legs : List Leg} {r : Row Cell}

theorem mem_database : r ∈ t.database relation ↔ (relation, r) ∈ t.rows := by
  rw [database, List.mem_map]
  constructor
  · intro h
    obtain ⟨⟨relation', r'⟩, hmem, rfl⟩ := h
    obtain ⟨hrow, heq⟩ := List.mem_filter.1 hmem
    obtain rfl : relation' = relation := of_decide_eq_true heq
    exact hrow
  · intro h
    exact ⟨(relation, r), List.mem_filter.2 ⟨h, decide_eq_true rfl⟩, rfl⟩

/-- What a known row is. -/
theorem known?_eq_some (h : t.known? s l = some e) : s.primaryKey l.relation = .ok [l.key] ∧
    e ∈ t.rows ∧ e.1 = l.relation ∧ e.2 l.key = t.last l.column := by
  unfold known? at h
  split at h
  · next hkey =>
    have hfound := List.find?_some h
    rw [decide_eq_true_iff] at hfound
    exact ⟨hkey, List.mem_of_find?_eq_some h, hfound⟩
  · exact absurd h (by simp)

/-- If no row is known, the rows differ from the new one in the primary key of the leg. -/
theorem known?_eq_none (h : t.known? s l = none) (hkey : s.primaryKey l.relation = .ok [l.key])
    (he : e ∈ t.rows) (hrelation : e.1 = l.relation) : e.2 l.key ≠ t.last l.column := by
  rw [known?, if_pos hkey] at h
  have hnone := List.find?_eq_none.1 h e he
  rw [decide_eq_true_iff] at hnone
  intro heq
  exact hnone ⟨hrelation, heq⟩

/-! ## Primary keys -/

/-- The path leads to a row of the tableau, and no value is one of a later row. -/
structure Bounded (t : Tableau) : Prop where
  last : ∃ e ∈ t.rows, e.2 = t.last
  lt : ∀ e ∈ t.rows, ∀ x, (e.2 x).row < t.rows.length

theorem Bounded.lt_last (h : t.Bounded) (x : String) : (t.last x).row < t.rows.length := by
  obtain ⟨e, he, hlast⟩ := h.last
  exact hlast ▸ h.lt e he x

theorem Bounded.follow (h : t.Bounded) : (t.follow s l).Bounded := by
  rw [Tableau.follow]
  split
  · next e he => exact ⟨⟨e, (known?_eq_some he).2.1, rfl⟩, h.lt⟩
  · refine ⟨⟨_, List.mem_cons_self, rfl⟩, ?_⟩
    intro e he x
    rw [List.length_cons]
    rcases List.mem_cons.1 he with rfl | he
    · dsimp only
      split
      · exact Nat.lt_succ_of_lt (h.lt_last l.column)
      · exact Nat.lt_succ_self _
    · exact Nat.lt_succ_of_lt (h.lt e he x)

theorem bounded_ofLegs : (ofLegs s start legs).Bounded := by
  induction legs with
  | nil =>
    refine ⟨⟨_, List.mem_cons_self, rfl⟩, ?_⟩
    intro e he x
    rw [List.mem_singleton.1 he]
    exact Nat.one_pos
  | cons l legs ih => exact ih.follow

/-- Rows of one relation differ in its primary key. -/
def Distinct (s : Schema) (t : Tableau) : Prop :=
  t.rows.Pairwise fun e e' => e.1 = e'.1 → ∀ key, s.primaryKey e.1 = .ok key →
    key.map e.2 ≠ key.map e'.2

private theorem eq_singleton {key : List String} {x : String} (hne : key ≠ []) (hnodup : key.Nodup)
    (hall : ∀ y ∈ key, y = x) : key = [x] := by
  cases key with
  | nil => exact absurd rfl hne
  | cons y ys =>
    obtain rfl := hall y List.mem_cons_self
    cases ys with
    | nil => rfl
    | cons z zs =>
      obtain rfl := hall z (List.mem_cons_of_mem _ List.mem_cons_self)
      exact absurd List.mem_cons_self (List.nodup_cons.1 hnodup).1

/-- The new row differs from the others: it has a value of its own in the key, or the key is what
the leg joins and no row has it. -/
theorem Distinct.follow (hs : ∀ relation key, s.primaryKey relation = .ok key → key ≠ [] ∧ key.Nodup)
    (ht : t.Bounded) (h : t.Distinct s) : (t.follow s l).Distinct s := by
  rw [Tableau.follow]
  split
  · exact h
  · next hnone =>
    refine List.pairwise_cons.2 ⟨?_, h⟩
    intro e he hrelation key hkey heq
    obtain ⟨hne, hnodup⟩ := hs _ _ hkey
    have hagree : ∀ x ∈ key, (if x = l.key then t.last l.column
        else Cell.fresh t.rows.length x) = e.2 x := List.map_inj_left.1 heq
    by_cases hown : ∃ x ∈ key, x ≠ l.key
    · obtain ⟨x, hx, hxl⟩ := hown
      have hcell := hagree x hx
      rw [if_neg hxl] at hcell
      have hlt := ht.lt e he x
      rw [← hcell] at hlt
      exact Nat.lt_irrefl _ hlt
    · have hall : ∀ x ∈ key, x = l.key := fun x hx => by
        by_contra hxl
        exact hown ⟨x, hx, hxl⟩
      obtain rfl := eq_singleton hne hnodup hall
      have hcell := hagree l.key List.mem_cons_self
      rw [if_pos rfl] at hcell
      exact known?_eq_none hnone hkey he hrelation.symm hcell.symm

/-- The database of a path has primary keys. -/
theorem keyed_database
    (hs : ∀ relation key, s.primaryKey relation = .ok key → key ≠ [] ∧ key.Nodup) :
    (ofLegs s start legs).database.Keyed s := by
  have hdistinct : (ofLegs s start legs).Distinct s := by
    induction legs with
    | nil => exact List.pairwise_singleton _ _
    | cons l legs ih => exact ih.follow hs bounded_ofLegs
  intro relation key hkey
  rw [database, List.pairwise_map]
  refine (hdistinct.filter _).imp_of_mem fun {e e'} he he' h => ?_
  have hrelation : e.1 = relation := of_decide_eq_true (List.mem_filter.1 he).2
  have hrelation' : e'.1 = relation := of_decide_eq_true (List.mem_filter.1 he').2
  exact h (hrelation.trans hrelation'.symm) key (hrelation ▸ hkey)

/-! ## The path -/

theorem rows_subset_follow : t.rows ⊆ (t.follow s l).rows := by
  rw [follow]
  split
  · exact List.Subset.refl _
  · exact List.subset_cons_self _ _

/-- The last leg leads to a row of its relation, which has the value that is joined. -/
theorem last_follow : (l.relation, (t.follow s l).last) ∈ (t.follow s l).rows ∧
    (t.follow s l).last l.key = t.last l.column := by
  rw [follow]
  split
  · next e he =>
    obtain ⟨-, hmem, hrelation, hvalue⟩ := known?_eq_some he
    exact ⟨hrelation ▸ hmem, hvalue⟩
  · exact ⟨List.mem_cons_self, if_pos rfl⟩

/-- The path leads to its last row. -/
theorem rowsAlong_last {first : Row Cell → Prop} (hfirst : first (Cell.fresh 0)) :
    RowsAlong (ofLegs s start legs).database start first (legs.map Leg.label)
      (ofLegs s start legs).last := by
  induction legs with
  | nil => exact .root (mem_database.2 List.mem_cons_self) hfirst
  | cons l legs ih =>
    obtain ⟨hmem, hvalue⟩ := last_follow (s := s) (t := ofLegs s start legs) (l := l)
    have hgrow := ih.map id
      (fun relation r hr => mem_database.2 (rows_subset_follow (s := s) (l := l) (mem_database.1 hr)))
      fun r _ hr => hr
    exact .step hgrow (mem_database.2 hmem) (Leg.forall_mem_fields.2 hvalue)

/-! ## Other databases -/

/-- The map with the values of `r` for the row numbered `n`. -/
def assign (val : Cell → V) (n : Nat) (r : Row V) : Cell → V := fun c =>
  if c.row = n then r c.column else val c

theorem assign_of_lt {val : Cell → V} {n : Nat} {r : Row V} {c : Cell} (h : c.row < n) :
    assign val n r c = val c := if_neg (Nat.ne_of_lt h)

theorem assign_fresh {val : Cell → V} {n : Nat} {r : Row V} {x : String} :
    assign val n r (Cell.fresh n x) = r x := if_pos rfl

/-- Earlier rows keep their values. -/
theorem assign_comp_of_lt {val : Cell → V} {n : Nat} {r : Row V} {row : Row Cell}
    (h : ∀ x, (row x).row < n) : assign val n r ∘ row = val ∘ row :=
  funext fun x => assign_of_lt (h x)

/-- What the rows are that a path leads to in a database with primary keys, the values of the
tableau can be mapped to theirs. -/
theorem exists_valuation {D : Database V} {first : Row V → Prop} {r : Row V} (hD : D.Keyed s)
    (h : RowsAlong D start first (legs.map Leg.label) r) :
    ∃ val : Cell → V, (∀ e ∈ (ofLegs s start legs).rows, val ∘ e.2 ∈ D e.1) ∧
      val ∘ (ofLegs s start legs).last = r ∧ first (val ∘ Cell.fresh 0) := by
  induction legs generalizing r with
  | nil =>
    cases h with
    | root mem holds =>
      refine ⟨fun c => r c.column, ?_, rfl, holds⟩
      intro e he
      rw [List.mem_singleton.1 he]
      exact mem
  | cons l legs ih =>
    obtain ⟨hmem, r', hr', hagree⟩ := rowsAlong_cons.1 h
    obtain ⟨val, hrows, hlast, hfirst⟩ := ih hr'
    have hvalue : r l.key = val ((ofLegs s start legs).last l.column) := by
      rw [Leg.forall_mem_fields.1 hagree, ← hlast]
      rfl
    have hbounded : (ofLegs s start legs).Bounded := bounded_ofLegs
    rw [ofLegs, follow]
    split
    · next e he =>
      -- The known row is mapped to one with the same primary key.
      obtain ⟨hkey, hknown, hrelation, hcell⟩ := known?_eq_some he
      refine ⟨val, hrows, hD.eq hkey (hrelation ▸ hrows e hknown) hmem ?_, hfirst⟩
      rw [List.map_singleton, List.map_singleton, hvalue, ← hcell]
      rfl
    · have hnew : assign val (ofLegs s start legs).rows.length r ∘ (fun x => if x = l.key
          then (ofLegs s start legs).last l.column
          else Cell.fresh (ofLegs s start legs).rows.length x) = r := by
        funext x
        by_cases hx : x = l.key
        · rw [Function.comp_apply, if_pos hx, assign_of_lt (hbounded.lt_last _), hx, hvalue]
        · rw [Function.comp_apply, if_neg hx, assign_fresh]
      refine ⟨assign val (ofLegs s start legs).rows.length r, ?_, hnew, ?_⟩
      · intro e he
        rcases List.mem_cons.1 he with rfl | he
        · exact hnew.symm ▸ hmem
        · rw [assign_comp_of_lt (hbounded.lt e he)]
          exact hrows e he
      · obtain ⟨e, he, -⟩ := hbounded.last
        rw [assign_comp_of_lt fun x => List.length_pos_of_mem he]
        exact hfirst

/-! ## The first row -/

section Params

variable {config : Config} {key : List String} {f f' : KeyFilter}

/-- Each column of a key is compared with a parameter of its own. -/
theorem column_eq_of_mem_keyFilters (h : f ∈ Emitting.keyFilters config key)
    (h' : f' ∈ Emitting.keyFilters config key) (heq : f.param = f'.param) :
    f.column = f'.column := by
  obtain ⟨⟨x, i⟩, hx, rfl⟩ := List.mem_map.1 h
  obtain ⟨⟨y, j⟩, hy, rfl⟩ := List.mem_map.1 h'
  obtain rfl := append_toString_inj heq
  rw [List.mem_zipIdx_iff_getElem?] at hx hy
  exact Option.some.inj (hx.symm.trans hy)

/-- The parameters of the key have the values of the first row. -/
theorem params_param (h : f ∈ Emitting.keyFilters config key) :
    params (Emitting.keyFilters config key) f.param = Cell.fresh 0 f.column := by
  unfold params
  cases hfind : (Emitting.keyFilters config key).find? (·.param = f.param) with
  | none =>
    have hnone := List.find?_eq_none.1 hfind f h
    exact absurd (decide_eq_true rfl) hnone
  | some f' =>
    have hparam := List.find?_some hfind
    rw [decide_eq_true_iff] at hparam
    have hcolumn := column_eq_of_mem_keyFilters (List.mem_of_find?_eq_some hfind) h hparam
    rw [Option.map_some, Option.getD_some, hcolumn]

theorem matches_fresh : Row.Matches (Cell.fresh 0) (params (Emitting.keyFilters config key))
    (Emitting.keyFilters config key) := fun _ hf => (params_param hf).symm

/-- If a label path leads to the last row of the tableau, then in every database with primary keys
it leads to all rows that the path of the tableau leads to. -/
theorem rowsAlong_of_last {D : Database V} {values : String → V} {q : List Label} {r : Row V}
    (hD : D.Keyed s) (h : RowsAlong D start (Row.Matches · values (Emitting.keyFilters config key))
      (legs.map Leg.label) r)
    (hq : RowsAlong (ofLegs s start legs).database start
      (Row.Matches · (params (Emitting.keyFilters config key)) (Emitting.keyFilters config key)) q
      (ofLegs s start legs).last) :
    RowsAlong D start (Row.Matches · values (Emitting.keyFilters config key)) q r := by
  obtain ⟨val, hrows, hlast, hfirst⟩ := exists_valuation hD h
  rw [← hlast]
  refine hq.map val (fun relation row hrow => hrows _ (mem_database.1 hrow)) ?_
  intro row _ hrow f hf
  rw [Function.comp_apply, hrow f hf, params_param hf]
  exact hfirst f hf

end Params

end Tableau
end FetchPlan
