import FetchPlan.Proofs.Yields
import FetchPlan.Schema.Verify
import Mathlib.Data.List.Nodup

/-!
# Consistent schemas

The lists of relations that verification accepts are described without its loops: names are
distinct, keys are made of declared columns, and associations lead to declared columns of
relations of the list (`Schema.Consistent`). Which error is found depends on the order of the
checks. `Schema.MissesTarget` describes the lists for which it is an association to a relation
that does not exist.
-/

namespace FetchPlan

variable {α β : Type} {P P' Q Q' : Prop}

/-! ## The first element that counts -/

/-- Some element of the list is `q`, and all elements before it are `p`. -/
def FirstIs (p q : α → Prop) (l : List α) : Prop :=
  ∃ before a after, l = before ++ a :: after ∧ (∀ b ∈ before, p b) ∧ q a

theorem not_firstIs_nil {p q : α → Prop} : ¬ FirstIs p q [] := by
  rintro ⟨before, a, after, h, -⟩
  exact absurd h (by simp)

theorem firstIs_cons {p q : α → Prop} {a : α} {l : List α} :
    FirstIs p q (a :: l) ↔ q a ∨ p a ∧ FirstIs p q l := by
  constructor
  · rintro ⟨before, b, after, hl, hbefore, hb⟩
    cases before with
    | nil =>
      obtain ⟨rfl, -⟩ := List.cons.inj hl
      exact Or.inl hb
    | cons c before =>
      obtain ⟨rfl, rfl⟩ := List.cons.inj hl
      refine Or.inr ⟨hbefore a List.mem_cons_self, before, b, after, rfl, ?_, hb⟩
      exact fun x hx => hbefore x (List.mem_cons_of_mem a hx)
  · rintro (ha | ⟨ha, before, b, after, rfl, hbefore, hb⟩)
    · exact ⟨[], a, l, rfl, fun b hb => absurd hb List.not_mem_nil, ha⟩
    · exact ⟨a :: before, b, after, rfl, List.forall_mem_cons.2 ⟨ha, hbefore⟩, hb⟩

/-! ## Checks -/

/-- The check passes iff `P`. Its errors are about the schema, and also about metadata that is
unknown iff `Q`. -/
structure Verifies (x : Except Error α) (P Q : Prop) : Prop where
  passes : (∃ a, x = .ok a) ↔ P
  fails : Q → ¬ P
  kinds : ∀ e, x = .error e → e.hasKind .invalidSchema ∧ (e.hasKind .unknownMetadata ↔ Q)

namespace Verifies

theorem ok {a : α} (hP : P) (hQ : ¬ Q) : Verifies (.ok a : Except Error α) P Q where
  passes := iff_of_true ⟨a, rfl⟩ hP
  fails h := absurd h hQ
  kinds e he := absurd he (by simp)

theorem error {e : Error} (hP : ¬ P) (hkind : e.hasKind .invalidSchema)
    (hQ : e.hasKind .unknownMetadata ↔ Q) : Verifies (.error e : Except Error α) P Q where
  passes := iff_of_false (by simp) hP
  fails _ := hP
  kinds e' he := by
    obtain rfl := Except.error.inj he
    exact ⟨hkind, hQ⟩

/-- An inconsistency on its own is no unknown metadata. -/
theorem inconsistency {reason : Inconsistency} (hP : ¬ P) (hQ : ¬ Q) :
    Verifies (.error (Cause.invalidSchema reason) : Except Error α) P Q :=
  error hP rfl (iff_of_false (by simp [Error.hasKind, Error.causes, Cause.kind?]) hQ)

theorem congr {x : Except Error α} (h : Verifies x P Q) (hP : P ↔ P') (hQ : Q ↔ Q') :
    Verifies x P' Q' := by
  rwa [← propext hP, ← propext hQ]

/-- The second check may rely on the first one. -/
theorem bind {x : Except Error α} {f : α → Except Error β} (hx : Verifies x P Q)
    (hf : P → ∀ a, Verifies (f a) P' Q') : Verifies (x >>= f) (P ∧ P') (Q ∨ P ∧ Q') := by
  cases x with
  | error e =>
    have hP : ¬ P := by simpa using hx.passes
    obtain ⟨hkind, hQ⟩ := hx.kinds e rfl
    exact error (fun h => hP h.1) hkind (hQ.trans ⟨Or.inl, fun h => h.resolve_right (hP ·.1)⟩)
  | ok a =>
    have hP : P := hx.passes.1 ⟨a, rfl⟩
    have hQ : ¬ Q := fun h => hx.fails h hP
    exact (hf hP a).congr (by simp [hP]) (by simp [hP, hQ])

/-- A loop of checks stops at the first that fails. -/
theorem forM {f : α → Except Error PUnit} {p q : α → Prop} {l : List α}
    (h : ∀ a ∈ l, Verifies (f a) (p a) (q a)) :
    Verifies (l.forM f) (∀ a ∈ l, p a) (FirstIs p q l) := by
  induction l with
  | nil => exact ok (fun a ha => absurd ha List.not_mem_nil) not_firstIs_nil
  | cons a l ih =>
    obtain ⟨ha, hl⟩ := List.forall_mem_cons.1 h
    exact (ha.bind fun _ _ => ih hl).congr List.forall_mem_cons.symm firstIs_cons.symm

end Verifies

/-! ## Names -/

theorem firstRepeated?_eq_none {seen names : List String} :
    firstRepeated? seen names = none ↔ names.Nodup ∧ ∀ name ∈ names, name ∉ seen := by
  induction names generalizing seen with
  | nil => simp [firstRepeated?]
  | cons name names ih =>
    rw [firstRepeated?, List.nodup_cons, List.forall_mem_cons]
    split
    · next hseen => simp [hseen]
    · next hseen =>
      rw [ih]
      constructor
      · rintro ⟨hnodup, hnames⟩
        refine ⟨⟨?_, hnodup⟩, hseen, ?_⟩
        · exact fun h => hnames name h List.mem_cons_self
        · exact fun x hx hs => hnames x hx (List.mem_cons_of_mem name hs)
      · rintro ⟨⟨hname, hnodup⟩, -, hnames⟩
        refine ⟨hnodup, ?_⟩
        intro x hx hs
        rcases List.mem_cons.1 hs with rfl | hs
        · exact hname hx
        · exact hnames x hx hs

theorem firstRepeated?_nil_eq_none {names : List String} :
    firstRepeated? [] names = none ↔ names.Nodup := by
  simp [firstRepeated?_eq_none]

/-! ## Relations -/

namespace Relation

variable {r : Relation}

/-- The relation has a column of this name. -/
def HasColumn (r : Relation) (name : String) : Prop := ∃ c ∈ r.columns, c.name = name

theorem isSome_column? {name : String} : (r.column? name).isSome ↔ r.HasColumn name := by
  simp [column?, HasColumn]

theorem isNone_column? {name : String} : (r.column? name).isNone ↔ ¬ r.HasColumn name := by
  simp [column?, HasColumn]

/-- The columns and the key of a relation are consistent on their own. -/
structure Sound (r : Relation) : Prop where
  columns : (r.columns.map Column.name).Nodup
  keyed : r.primaryKey ≠ []
  distinct : r.primaryKey.Nodup
  declared : ∀ field ∈ r.primaryKey, r.HasColumn field

theorem verifies_columns : Verifies r.verifyColumns (r.columns.map Column.name).Nodup False := by
  unfold verifyColumns
  split
  · next column hrepeated =>
    refine Verifies.inconsistency ?_ id
    intro hnodup
    exact absurd (hrepeated.symm.trans (firstRepeated?_nil_eq_none.2 hnodup)) (by simp)
  · next hnone => exact Verifies.ok (firstRepeated?_nil_eq_none.1 hnone) id

theorem verifies_keyFields {seen fields : List String} : Verifies (r.verifyKeyFields seen fields)
    (fields.Nodup ∧ ∀ field ∈ fields, r.HasColumn field ∧ field ∉ seen) False := by
  induction fields generalizing seen with
  | nil => exact Verifies.ok (by simp) id
  | cons field fields ih =>
    rw [verifyKeyFields]
    split
    · next hcolumn =>
      refine Verifies.inconsistency ?_ id
      rintro ⟨-, h⟩
      exact isNone_column?.1 hcolumn (h field List.mem_cons_self).1
    · next hcolumn =>
      have hdeclared : r.HasColumn field := not_not.1 (mt isNone_column?.2 hcolumn)
      split
      · next hseen =>
        refine Verifies.inconsistency ?_ id
        rintro ⟨-, h⟩
        exact (h field List.mem_cons_self).2 hseen
      · next hseen =>
        refine ih.congr ?_ Iff.rfl
        rw [List.nodup_cons, List.forall_mem_cons]
        constructor
        · rintro ⟨hnodup, h⟩
          refine ⟨⟨?_, hnodup⟩, ⟨hdeclared, hseen⟩, ?_⟩
          · exact fun hmem => (h field hmem).2 List.mem_cons_self
          · exact fun x hx => ⟨(h x hx).1, fun hs => (h x hx).2 (List.mem_cons_of_mem field hs)⟩
        · rintro ⟨⟨hmem, hnodup⟩, -, h⟩
          refine ⟨hnodup, fun x hx => ⟨(h x hx).1, ?_⟩⟩
          intro hs
          rcases List.mem_cons.1 hs with rfl | hs
          · exact hmem hx
          · exact (h x hx).2 hs

theorem verifies_primaryKey : Verifies r.verifyPrimaryKey
    (r.primaryKey ≠ [] ∧ r.primaryKey.Nodup ∧ ∀ field ∈ r.primaryKey, r.HasColumn field)
    False := by
  unfold verifyPrimaryKey
  split
  · next hempty =>
    refine Verifies.inconsistency ?_ id
    exact fun h => h.1 (List.isEmpty_iff.1 hempty)
  · next hempty =>
    have hne : r.primaryKey ≠ [] := fun h => hempty (List.isEmpty_iff.2 h)
    exact verifies_keyFields.congr (by simp [hne]) Iff.rfl

end Relation

/-! ## Associations -/

/-- The association leads from a column of `r` to a column of a relation of the list. -/
structure Association.Consistent (rs : List Relation) (r : Relation) (a : Association) :
    Prop where
  thisKey : r.HasColumn a.thisKey
  otherKey : ∃ target ∈ rs, target.name = a.otherRelation ∧ target.HasColumn a.otherKey

/-- The association leaves `r` from one of its columns, to a relation that the list does not
have. -/
structure Association.MissesTarget (rs : List Relation) (r : Relation) (a : Association) :
    Prop where
  thisKey : r.HasColumn a.thisKey
  target : ∀ target ∈ rs, target.name ≠ a.otherRelation

namespace Schema

variable {s : Schema} {r : Relation} {relation : String}

theorem relation_eq_ok (h : s.relation relation = .ok r) :
    r ∈ s.relations ∧ r.name = relation := by
  unfold Schema.relation at h
  split at h
  · next r' hr =>
    obtain rfl := Except.ok.inj h
    have hname := List.find?_some (p := fun r : Relation => r.name = relation) hr
    exact ⟨List.mem_of_find?_eq_some hr, of_decide_eq_true hname⟩
  · exact absurd h (by simp)

theorem relation_eq_error {e : Error} (h : s.relation relation = .error e) :
    e = Cause.unknownRelation relation ∧ ∀ r ∈ s.relations, r.name ≠ relation := by
  unfold Schema.relation at h
  split at h
  · cases h
  · next hnone =>
    refine ⟨(Except.error.inj h).symm, ?_⟩
    intro r hr hname
    exact List.find?_eq_none.1 hnone r hr (decide_eq_true hname)

end Schema

namespace Relation

variable {s : Schema} {r : Relation} {a : Association}

theorem verifies_association (hnodup : (s.relations.map Relation.name).Nodup) :
    Verifies (r.verifyAssociation s a) (a.Consistent s.relations r)
      (a.MissesTarget s.relations r) := by
  unfold verifyAssociation
  split
  · next hcolumn =>
    have hthis : ¬ r.HasColumn a.thisKey := isNone_column?.1 hcolumn
    exact Verifies.inconsistency (hthis ·.thisKey) (hthis ·.thisKey)
  · next hcolumn =>
    have hthis : r.HasColumn a.thisKey := not_not.1 (mt isNone_column?.2 hcolumn)
    split
    · next e he =>
      obtain ⟨rfl, hmissing⟩ := Schema.relation_eq_error he
      refine Verifies.error ?_ rfl (iff_of_true rfl ⟨hthis, hmissing⟩)
      rintro ⟨-, target, hmem, hname, -⟩
      exact hmissing target hmem hname
    · next target htarget =>
      obtain ⟨hmem, hname⟩ := Schema.relation_eq_ok htarget
      have hknown : ¬ a.MissesTarget s.relations r := fun h => h.target target hmem hname
      split
      · next hother =>
        refine Verifies.inconsistency ?_ hknown
        rintro ⟨-, other, hother', hname', hcolumn'⟩
        obtain rfl := List.inj_on_of_nodup_map hnodup hother' hmem (hname'.trans hname.symm)
        exact isNone_column?.1 hother hcolumn'
      · next hother =>
        exact Verifies.ok ⟨hthis, target, hmem, hname, not_not.1 (mt isNone_column?.2 hother)⟩
          hknown

/-- The relation fits into the list. -/
structure Consistent (rs : List Relation) (r : Relation) : Prop extends r.Sound where
  associations : ∀ a ∈ r.associations, a.Consistent rs r

/-- The first violation in the relation is an association to a relation that the list does not
have. -/
structure MissesTarget (rs : List Relation) (r : Relation) : Prop extends r.Sound where
  association : FirstIs (·.Consistent rs r) (·.MissesTarget rs r) r.associations

theorem verifies_relation (hnodup : (s.relations.map Relation.name).Nodup) :
    Verifies (r.verify s) (r.Consistent s.relations) (r.MissesTarget s.relations) := by
  have hassociations : Verifies (r.associations.forM (r.verifyAssociation s))
      (∀ a ∈ r.associations, a.Consistent s.relations r)
      (FirstIs (·.Consistent s.relations r) (·.MissesTarget s.relations r) r.associations) :=
    Verifies.forM fun a _ => verifies_association hnodup
  refine (verifies_columns.bind fun _ _ => verifies_primaryKey.bind fun _ _ =>
    hassociations).congr ?_ ?_
  · constructor
    · rintro ⟨hcolumns, ⟨hkeyed, hdistinct, hdeclared⟩, ha⟩
      exact ⟨⟨hcolumns, hkeyed, hdistinct, hdeclared⟩, ha⟩
    · rintro ⟨⟨hcolumns, hkeyed, hdistinct, hdeclared⟩, ha⟩
      exact ⟨hcolumns, ⟨hkeyed, hdistinct, hdeclared⟩, ha⟩
  · simp only [false_or]
    constructor
    · rintro ⟨hcolumns, ⟨hkeyed, hdistinct, hdeclared⟩, ha⟩
      exact ⟨⟨hcolumns, hkeyed, hdistinct, hdeclared⟩, ha⟩
    · rintro ⟨⟨hcolumns, hkeyed, hdistinct, hdeclared⟩, ha⟩
      exact ⟨hcolumns, ⟨hkeyed, hdistinct, hdeclared⟩, ha⟩

end Relation

/-! ## Schemas -/

namespace Schema

variable {s : Schema} {rs : List Relation}

/-- The relations form a schema. Associations may lead to any relation of the list, also to a
later one and to the one they leave. -/
structure Consistent (rs : List Relation) : Prop where
  names : (rs.map Relation.name).Nodup
  relations : ∀ r ∈ rs, r.Consistent rs

/-- Relation names are distinct, and the first violation in a relation is an association to a
relation that the list does not have. -/
structure MissesTarget (rs : List Relation) : Prop where
  names : (rs.map Relation.name).Nodup
  relation : FirstIs (·.Consistent rs) (·.MissesTarget rs) rs

theorem verifies_ofRelations :
    Verifies (ofRelations rs) (Consistent rs) (MissesTarget rs) := by
  unfold ofRelations
  split
  · next name hrepeated =>
    have hnodup : ¬ (rs.map Relation.name).Nodup := fun h =>
      absurd (hrepeated.symm.trans (firstRepeated?_nil_eq_none.2 h)) (by simp)
    exact Verifies.inconsistency (hnodup ·.names) (hnodup ·.names)
  · next hunique =>
    have hnone : firstRepeated? [] (rs.map Relation.name) = none :=
      Option.eq_none_iff_forall_not_mem.2 hunique
    have hnodup : (rs.map Relation.name).Nodup := firstRepeated?_nil_eq_none.1 hnone
    have hall : Verifies (rs.forM (Relation.verify ⟨rs⟩)) (∀ r ∈ rs, r.Consistent rs)
        (FirstIs (·.Consistent rs) (·.MissesTarget rs) rs) :=
      Verifies.forM fun r _ => Relation.verifies_relation (s := ⟨rs⟩) hnodup
    have hreturn : Verifies (pure ⟨rs⟩ : Except Error Schema) True False := Verifies.ok trivial id
    refine (hall.bind fun _ _ => hreturn).congr ?_ ?_
    · exact ⟨fun h => ⟨hnodup, h.1⟩, fun h => ⟨h.relations, trivial⟩⟩
    · simp only [and_false, or_false]
      exact ⟨fun h => ⟨hnodup, h⟩, fun h => h.relation⟩

theorem ofRelations_eq_ok (h : ofRelations rs = .ok s) : s.relations = rs ∧ Consistent rs := by
  refine ⟨?_, verifies_ofRelations.passes.1 ⟨s, h⟩⟩
  unfold ofRelations at h
  split at h
  · cases h
  · obtain ⟨_, -, hs⟩ := bind_eq_ok.1 h
    obtain rfl := pure_eq_ok.1 hs
    rfl

/-- A list of relations is accepted iff it is consistent, and kept as it is. All other lists are
refused as invalid schemas, those whose first violation is an unknown target as unknown metadata
as well. -/
theorem ofRelations_accepts (rs : List Relation) :
    ((∃ s, ofRelations rs = .ok s) ↔ Consistent rs) ∧
      (∀ s, ofRelations rs = .ok s → s.relations = rs) ∧
      ∀ e, ofRelations rs = .error e →
        e.hasKind .invalidSchema ∧ (e.hasKind .unknownMetadata ↔ MissesTarget rs) :=
  ⟨verifies_ofRelations.passes, fun _ h => (ofRelations_eq_ok h).1, verifies_ofRelations.kinds⟩

/-- Associations may lead to the relation they leave and to a later one. One to a relation that
does not exist is the first violation here. -/
theorem ofRelations_accepts_orders :
    let customer : Relation := ⟨"Customer", [⟨"Id", "int"⟩], ["Id"], []⟩
    let order (last : Association) : Relation :=
      ⟨"Order", [⟨"Id", "int"⟩, ⟨"Next", "int"⟩], ["Id"],
        [⟨"Follower", "Next", "Order", "Id"⟩, last]⟩
    Consistent [order ⟨"Customer", "Id", "Customer", "Id"⟩, customer] ∧
      MissesTarget [customer, order ⟨"Payment", "Id", "Payment", "Id"⟩] := by
  intro customer order
  have haccepted : ofRelations [order ⟨"Customer", "Id", "Customer", "Id"⟩, customer] =
      .ok ⟨[order ⟨"Customer", "Id", "Customer", "Id"⟩, customer]⟩ := by decide +kernel
  obtain ⟨e, he, hunknown⟩ : ∃ e, ofRelations [customer, order ⟨"Payment", "Id", "Payment", "Id"⟩]
      = .error e ∧ e.hasKind .unknownMetadata := ⟨_, rfl, by decide +kernel⟩
  refine ⟨(ofRelations_accepts _).1.1 ⟨_, haccepted⟩, ?_⟩
  exact ((ofRelations_accepts _).2.2 e he).2.1 hunknown

end Schema
end FetchPlan
