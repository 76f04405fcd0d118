import FetchPlan.Proofs.Json.RoundTrip
import FetchPlan.Proofs.Schema.Verified
import FetchPlan.Schema.Description
import Mathlib.Data.List.Forall2

/-!
# Reading back the description of a schema

The record that a relation is written as describes this relation, and verification accepts again
what it accepted before. So every schema is read back from its description
(`ofDescription_describe`), whatever characters its names and types consist of.
-/

namespace FetchPlan

open JsonText

/-! ## Records -/

/-- A list is read item by item. -/
theorem mapM_of_forall₂ {α β : Type} {f : α → Option β} {as : List α} {bs : List β}
    (h : List.Forall₂ (fun a b => f a = some b) as bs) : as.mapM f = some bs := by
  induction h with
  | nil => rfl
  | cons hb _ ih =>
    rw [List.mapM_cons, hb, ih]
    rfl

theorem JsonValue.list?_map {α : Type} {read : JsonValue → Option α} {write : α → JsonValue}
    (h : ∀ a, read (write a) = some a) (l : List α) :
    (JsonValue.array (l.map write)).list? read = some l :=
  mapM_of_forall₂ (List.forall₂_map_left_iff.2 (List.forall₂_same.2 fun a _ => h a))

theorem Column.ofJson?_toJson (c : Column) : ofJson? c.toJson = some c := by
  rfl

theorem Association.ofJson?_toJson (a : Association) : ofJson? a.toJson = some a := by
  rfl

theorem Relation.ofJson?_toJson (r : Relation) : ofJson? r.toJson = some r := by
  have hcolumns := JsonValue.list?_map Column.ofJson?_toJson r.columns
  have hfield (field : String) : (JsonValue.string (some field)).string? = some field := rfl
  have hkey := JsonValue.list?_map hfield r.primaryKey
  have hassociations := JsonValue.list?_map Association.ofJson?_toJson r.associations
  have hrecord : r.toJson.record? fields = some [some (.string r.name),
      some (.array (r.columns.map Column.toJson)),
      some (.array (r.primaryKey.map fun field => .string (some field))),
      some (.array (r.associations.map Association.toJson))] := rfl
  simp only [ofJson?, hrecord, hcolumns, hkey, hassociations, JsonValue.string?,
    Option.bind_eq_bind, Option.bind_some, Option.pure_def]

theorem Schema.relationsOfJson?_toJson (s : Schema) :
    relationsOfJson? s.toJson = some s.relations :=
  JsonValue.list?_map Relation.ofJson?_toJson s.relations

/-! ## Texts -/

namespace JsonValue

theorem writable_array_map {α : Type} {write : α → JsonValue} (h : ∀ a, (write a).Writable)
    (l : List α) : (array (l.map write)).Writable := by
  refine .array fun v hv => ?_
  obtain ⟨a, -, rfl⟩ := List.mem_map.1 hv
  exact h a

theorem writable_object_cons {name : Option String} {v : JsonValue}
    {ms : List (Option String × JsonValue)} (hv : v.Writable) (h : (object ms).Writable) :
    (object ((name, v) :: ms)).Writable := by
  cases h with
  | object all => exact .object (List.forall_mem_cons.2 ⟨hv, all⟩)

theorem writable_object_nil : (object []).Writable := .object fun _ hm => absurd hm List.not_mem_nil

end JsonValue

open JsonValue

theorem Column.writable_toJson (c : Column) : c.toJson.Writable :=
  writable_object_cons (.string _) (writable_object_cons (.string _) writable_object_nil)

theorem Association.writable_toJson (a : Association) : a.toJson.Writable :=
  writable_object_cons (.string _) (writable_object_cons (.string _)
    (writable_object_cons (.string _) (writable_object_cons (.string _) writable_object_nil)))

theorem Relation.writable_toJson (r : Relation) : r.toJson.Writable :=
  writable_object_cons (.string _) (writable_object_cons (writable_array_map
    Column.writable_toJson _) (writable_object_cons (writable_array_map (fun _ => .string _) _)
      (writable_object_cons (writable_array_map Association.writable_toJson _)
        writable_object_nil)))

namespace Schema

variable {rs : List Relation} {s : Schema}

theorem writable_toJson (s : Schema) : s.toJson.Writable :=
  writable_object_cons (writable_array_map Relation.writable_toJson _) writable_object_nil

/-- The description of a schema is read as a schema of the same relations, in the same order. -/
theorem ofDescription_describe (h : ofRelations rs = .ok s) :
    ∃ s', ofDescription s.describe = .ok s' ∧ s'.relations = rs := by
  obtain ⟨hrelations, -⟩ := ofRelations_eq_ok h
  have hread : (parse s.describe).bind relationsOfJson? = some rs := by
    rw [describe, parse_pretty s.writable_toJson, Option.bind_some, relationsOfJson?_toJson,
      hrelations]
  refine ⟨s, ?_, hrelations⟩
  -- The relations are verified once more.
  rw [ofDescription, hread]
  exact h

/-- Relations whose names and types have quotes, backslashes, controls and characters beyond 16
bits; one of them has no associations. -/
def oddRelations : List Relation := [
  { name := "a\"b\\c", columns := [⟨"\n\x01", "τ"⟩, ⟨"", "😀\x7f"⟩], primaryKey := ["\n\x01"]
    associations := [⟨"\t/", "", "ü.\x1f", "\x08\x0c\r"⟩] },
  { name := "ü.\x1f", columns := [⟨"\x08\x0c\r", "int"⟩], primaryKey := ["\x08\x0c\r"] }]

theorem ofDescription_oddRelations : ofRelations oddRelations = .ok ⟨oddRelations⟩ ∧
    ∃ s', ofDescription (describe ⟨oddRelations⟩) = .ok s' ∧ s'.relations = oddRelations := by
  have h : ofRelations oddRelations = .ok ⟨oddRelations⟩ := rfl
  exact ⟨h, ofDescription_describe h⟩

end Schema
end FetchPlan
