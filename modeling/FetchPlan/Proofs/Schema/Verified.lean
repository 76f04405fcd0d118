import FetchPlan.Proofs.Schema.Consistent

/-!
# What verification promises

Every relation of a schema that passed verification has a primary key that is not empty, repeats
no field and consists of declared columns (`keysDeclared_of_ofRelations`).
-/

namespace FetchPlan
namespace Schema

variable {s : Schema} {rs : List Relation} {relation : String} {key : List String}

theorem primaryKey_eq_ok (h : s.primaryKey relation = .ok key) :
    ∃ r, s.relation relation = .ok r ∧ r.primaryKey = key := by
  obtain ⟨r, hr, hkey⟩ := bind_eq_ok.1 h
  exact ⟨r, hr, pure_eq_ok.1 hkey⟩

/-- Relations found in a verified schema are sound. -/
theorem sound_of_ofRelations {r : Relation} (hs : ofRelations rs = .ok s)
    (hr : s.relation relation = .ok r) : r.Sound := by
  obtain ⟨rfl, hconsistent⟩ := ofRelations_eq_ok hs
  exact (hconsistent.relations r (relation_eq_ok hr).1).toSound

theorem key_of_ofRelations (hs : ofRelations rs = .ok s) (h : s.primaryKey relation = .ok key) :
    key ≠ [] ∧ key.Nodup := by
  obtain ⟨r, hr, rfl⟩ := primaryKey_eq_ok h
  have hsound := sound_of_ofRelations hs hr
  exact ⟨hsound.keyed, hsound.distinct⟩

/-- The relation has a column of this name. -/
def Declares (s : Schema) (relation column : String) : Prop :=
  ∃ type, s.sqlType relation column = .ok type

/-- Every primary key has fields, and they are columns of its relation. -/
def KeysDeclared (s : Schema) : Prop :=
  ∀ relation key, s.primaryKey relation = .ok key → key ≠ [] ∧ ∀ x ∈ key, s.Declares relation x

/-- Only relations that are known have columns. -/
theorem Declares.known {column : String} (h : s.Declares relation column) :
    ∃ r, s.relation relation = .ok r := by
  obtain ⟨_, h⟩ := h
  obtain ⟨r, hr, -⟩ := bind_eq_ok.1 h
  exact ⟨r, hr⟩

theorem keysDeclared_of_ofRelations (hs : ofRelations rs = .ok s) : s.KeysDeclared := by
  intro relation key h
  obtain ⟨r, hr, rfl⟩ := primaryKey_eq_ok h
  have hsound := sound_of_ofRelations hs hr
  refine ⟨hsound.keyed, ?_⟩
  intro x hx
  obtain ⟨c, hc⟩ := Option.isSome_iff_exists.1 (Relation.isSome_column?.2 (hsound.declared x hx))
  refine ⟨c.sqlType, bind_eq_ok.2 ⟨r, hr, ?_⟩⟩
  rw [hc]
  rfl

end Schema
end FetchPlan
