import FetchPlan.Proofs.Batch.Staged
import Mathlib.Data.List.Induction

/-!
# The names of table variables

The table variables of a batch are named one after the other, each by a fresh name for its relation.
`tableNames_isFresh` tells for every sequence of relations how the names come about, that they are
all different, and that they depend on the stem in their beginnings only.
-/

namespace FetchPlan

open Emitting JoinGraph

variable {stem relation : String} {taken : List String}

/-- The names for relations that are asked for one after the other. -/
def tableNames (stem : String) (relations : List String) : List String :=
  relations.foldl (fun taken relation => taken ++ [freshName stem taken relation]) []

theorem tableNames_append (stem : String) (relations : List String) (relation : String) :
    tableNames stem (relations ++ [relation]) =
      tableNames stem relations ++ [freshName stem (tableNames stem relations) relation] := by
  unfold tableNames
  rw [List.foldl_append, List.foldl_cons, List.foldl_nil]

theorem length_tableNames (stem : String) (relations : List String) :
    (tableNames stem relations).length = relations.length := by
  induction relations using List.reverseRecOn with
  | nil => rfl
  | append_singleton relations relation ih =>
    rw [tableNames_append, List.length_append, List.length_append, ih]
    rfl

theorem nodup_tableNames (stem : String) (relations : List String) :
    (tableNames stem relations).Nodup := by
  induction relations using List.reverseRecOn with
  | nil => exact List.nodup_nil
  | append_singleton relations relation ih =>
    rw [tableNames_append]
    exact ih.append (List.nodup_singleton _)
      (List.disjoint_singleton.2 (freshName_not_mem _ _ _))

/-- The name in each place is made when the names before it are taken. -/
theorem tableNames_getElem? (stem : String) {relations : List String} {k : Nat}
    (hk : relations[k]? = some relation) :
    (tableNames stem relations)[k]? =
      some (freshName stem ((tableNames stem relations).take k) relation) := by
  induction relations using List.reverseRecOn with
  | nil => simp at hk
  | append_singleton relations last ih =>
    have hlength := length_tableNames stem relations
    rw [tableNames_append]
    by_cases hlt : k < relations.length
    · rw [List.getElem?_append_left hlt] at hk
      rw [List.getElem?_append_left (by omega), List.take_append_of_le_length (by omega)]
      exact ih hk
    · rw [List.getElem?_append_right (by omega), List.getElem?_singleton] at hk
      split at hk
      · next hzero =>
        obtain rfl := Option.some.inj hk
        obtain rfl : k = (tableNames stem relations).length := by omega
        rw [List.getElem?_concat_length, List.take_left]
      · exact absurd hk (by simp)

/-! ## Other stems -/

theorem append_mem_map_append {name : String} :
    stem ++ name ∈ taken.map (stem ++ ·) ↔ name ∈ taken :=
  List.mem_map_of_injective fun _ _ h => (String.append_right_inj stem).1 h

theorem numberedName_stem (stem base : String) (taken : List String) (tries n : Nat) :
    numberedName (taken.map (stem ++ ·)) (stem ++ base) tries n =
      stem ++ numberedName taken base tries n := by
  induction tries generalizing n with
  | zero => exact String.append_assoc
  | succ tries ih =>
    unfold numberedName
    rw [String.append_assoc, ih]
    simp only [append_mem_map_append]
    split
    · rfl
    · rfl

theorem freshName_stem (stem relation : String) (taken : List String) :
    freshName stem (taken.map (stem ++ ·)) relation = stem ++ freshName "" taken relation := by
  unfold freshName
  simp only [append_mem_map_append, List.length_map, String.empty_append]
  rw [numberedName_stem]
  split
  · rfl
  · rfl

/-- Names under different stems differ in the stem only. -/
theorem tableNames_stem (stem : String) (relations : List String) :
    tableNames stem relations = (tableNames "" relations).map (stem ++ ·) := by
  induction relations using List.reverseRecOn with
  | nil => rfl
  | append_singleton relations relation ih =>
    rw [tableNames_append, tableNames_append, ih, freshName_stem, List.map_append]
    rfl

/-! ## The names of a batch -/

theorem Staged.map_var {s : Schema} {config : Config} {g : JoinGraph} {ts : List Stage}
    (h : Staged s config g ts) :
    ts.map Stage.var = tableNames config.variableStem (ts.map fun t => g.relation t.node) := by
  induction h with
  | start _ _ => rfl
  | join _ _ _ _ _ _ ih =>
    rw [List.map_append, List.map_append, List.map_singleton, List.map_singleton,
      tableNames_append, ih]

/-- For all stems and all relations that are asked for one after the other: each name is the fresh
one, the names are all different, and under two stems they differ in the stem only. The table
variables of a batch are named so for the relations that it fetches. -/
theorem tableNames_isFresh (relations : List String) :
    (∀ stem, (tableNames stem relations).Nodup ∧
      (tableNames stem relations).length = relations.length ∧
      ∀ (k : Nat) (relation : String), relations[k]? = some relation →
        ∃ name, (tableNames stem relations)[k]? = some name ∧
          IsFresh (stem ++ undotted relation) ((tableNames stem relations).take k) name) ∧
    (∃ endings : List String, ∀ stem, tableNames stem relations = endings.map (stem ++ ·)) ∧
    ∀ (s : Schema) (config : Config) (g : JoinGraph) (b : Batch),
      (Batch.ofGraph s config g).result = .ok b → b.fetches.map Fetch.relation = relations →
        b.declarations.map Declaration.var = tableNames config.variableStem relations := by
  refine ⟨fun stem => ⟨nodup_tableNames _ _, length_tableNames _ _, ?_⟩, ?_, ?_⟩
  · intro k relation hk
    exact ⟨_, tableNames_getElem? stem hk, isFresh_freshName _ _ _⟩
  · exact ⟨tableNames "" relations, fun stem => tableNames_stem stem relations⟩
  · intro s config g b hb hrelations
    obtain ⟨ts, hts, rfl, -⟩ := Batch.of_ofGraph hb
    rw [Batch.ofStages, List.map_map] at hrelations ⊢
    rw [← hrelations]
    exact hts.map_var

/-- Relations named like another one with a number, or with a dot for its underscore. -/
def numberedOrders : List String := ["Order", "Order1", "Order", "sales.Order", "sales_Order"]

example : tableNames "@t" numberedOrders =
    ["@tOrder", "@tOrder1", "@tOrder2", "@tsales_Order", "@tsales_Order1"] := by
  cbv

theorem tableNames_isFresh_numberedOrders :
    numberedOrders[2]? = some "Order" ∧ IsFresh "@tOrder" ["@tOrder", "@tOrder1"] "@tOrder2" ∧
      ∃ b, (Batch.ofGraph ⟨[⟨"Order", [⟨"Id", "int"⟩], ["Id"], []⟩]⟩ {} (ofRoot "Order")).result =
          .ok b ∧ b.fetches.map Fetch.relation = ["Order"] ∧
        b.declarations.map Declaration.var = tableNames "@table" ["Order"] := by
  have hthird : numberedOrders[2]? = some "Order" := rfl
  have hbase : "@t" ++ undotted "Order" = "@tOrder" := by cbv
  have htaken : (tableNames "@t" numberedOrders).take 2 = ["@tOrder", "@tOrder1"] := by cbv
  have hname : (tableNames "@t" numberedOrders)[2]? = some "@tOrder2" := by cbv
  have hfresh := ((tableNames_isFresh numberedOrders).1 "@t").2.2 2 "Order" hthird
  rw [hbase, htaken, hname] at hfresh
  obtain ⟨name, heq, hfresh⟩ := hfresh
  obtain rfl := Option.some.inj heq
  refine ⟨hthird, hfresh, ?_⟩
  have hcheck : ((Batch.ofGraph ⟨[⟨"Order", [⟨"Id", "int"⟩], ["Id"], []⟩]⟩ {}
      (ofRoot "Order")).result >>= fun b => .ok (b.fetches.map Fetch.relation)) =
        .ok ["Order"] := by decide +kernel
  obtain ⟨b, hb, h⟩ := bind_eq_ok.1 hcheck
  have hrelations := Except.ok.inj h
  exact ⟨b, hb, hrelations, (tableNames_isFresh ["Order"]).2.2 _ _ _ _ hb hrelations⟩

end FetchPlan
