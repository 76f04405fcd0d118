import FetchPlan.Proofs.Batch.Staged
import FetchPlan.Proofs.JoinGraph.Preorder
import FetchPlan.Proofs.Planned

/-!
# Emitting in depth-first order

A batch as it comes about by a recursion over the connections of each node (`Emits`): a connection
to a node that has a table variable is skipped, another one fetches the node, and then all that
leads on from there. Nothing is asked of the catalog but that it answers. For a schema this
recursion makes the batch that the tour makes (`result_eq_ok_iff_emitted`). The statements of
a batch are in the order in which the nodes are listed (`Batch.Follows`), since the recursion
visits them in the order of the tour (`Emits.visits`).
-/

namespace FetchPlan

open Emitting JoinGraph

/-! ## Catalogs -/

/-- What is asked of a schema when a batch is emitted. The answers need not fit together. -/
structure Catalog where
  primaryKey : (relation : String) → Except Error (List String)
  sqlType : (relation column : String) → Except Error String
  isPrimaryKey : (relation : String) → (fields : List String) → Except Error Bool

/-- The answers of a schema. -/
def Schema.catalog (s : Schema) : Catalog := ⟨s.primaryKey, s.sqlType, s.isPrimaryKey⟩

namespace Catalog

variable (k : Catalog) (g : JoinGraph)

/-- The fields staged for a node. A leaf stages its primary key too. -/
def stagedFields (id : Nat) : Except Error FieldSet :=
  if g.isLeaf id then return (g.used id).insertAll (← k.primaryKey (g.relation id))
  else return g.used id

/-- The staged fields of a node as columns. -/
def stagedColumns (id : Nat) : Except Error (List ColumnDef) := do
  (← k.stagedFields g id).toList.mapM fun name =>
    return ⟨name, ← k.sqlType (g.relation id) name⟩

/-- Whether a connection is keyed on its owner's side. It is an error if it is keyed on neither. -/
def keyedOnOwner (owner : Nat) (c : Connection) : Except Error Bool := do
  let sources := c.fields.sources.toList
  let targets := c.fields.targets.toList
  if ← k.isPrimaryKey (g.relation owner) sources then return true
  if ← k.isPrimaryKey (g.relation c.target) targets then return false
  .error (Cause.invalidJoin (g.relation owner) sources (g.relation c.target) targets)

/-- A declaration and a fetch stage the rows of a node: those of its relation, with its staged
fields. -/
structure Belong (id : Nat) (d : Declaration) (f : Fetch) : Prop where
  relation : f.relation = g.relation id
  target : f.target = d.var
  fields : ∃ fields, k.stagedFields g id = .ok fields ∧ f.columns = fields.toList ∧
    d.columns.map ColumnDef.name = fields.toList
  types : ∀ c ∈ d.columns, k.sqlType (g.relation id) c.name = .ok c.type

variable {k g}

theorem belong {t : Stage} (h : k.stagedColumns g t.node = .ok t.columns) :
    k.Belong g t.node t.declaration (t.fetch g) := by
  obtain ⟨fields, hfields, h⟩ := bind_eq_ok.1 h
  obtain ⟨hnames, htypes⟩ := mapM_columns h
  exact ⟨rfl, rfl, ⟨fields, hfields, hnames, hnames⟩, htypes⟩

end Catalog

/-! ## The recursion -/

/-- The nodes that have a table variable. -/
def Emission.nodes (e : Emission) : List Nat := e.vars.map Prod.fst

/-- What is emitted for connections of `owner` and for all that lead on from there. -/
inductive Emits (k : Catalog) (config : Config) (g : JoinGraph) :
    Nat → List Connection → Emission → Emission → Prop
  | done {owner : Nat} {e : Emission} : Emits k config g owner [] e e
  /-- The node has a table variable. The connection is checked all the same. -/
  | known {owner : Nat} {c : Connection} {cs : List Connection} {e e' : Emission} {keyed : Bool}
      (checked : k.keyedOnOwner g owner c = .ok keyed) (known : c.target ∈ e.nodes)
      (rest : Emits k config g owner cs e e') : Emits k config g owner (c :: cs) e e'
  /-- The node is fetched, joined to the table variable of the owner. -/
  | fetch {owner : Nat} {c : Connection} {cs : List Connection} {e e₁ e' : Emission} {keyed : Bool}
      {var : String} {columns : List ColumnDef} (checked : k.keyedOnOwner g owner c = .ok keyed)
      (new : c.target ∉ e.nodes) (previous : e.vars.lookup owner = some var)
      (staged : k.stagedColumns g c.target = .ok columns)
      (below : Emits k config g c.target (g.connections c.target)
        (e.add g (e.newStage config g c.target columns (joinSource var c.fields keyed))) e₁)
      (rest : Emits k config g owner cs e₁ e') : Emits k config g owner (c :: cs) e e'

/-- The batch of the recursion, which starts with the root, fetched by its primary key. -/
inductive Emitted (k : Catalog) (config : Config) (g : JoinGraph) : Batch → Prop
  | intro {key : List String} {columns : List ColumnDef} {e : Emission}
      (known : k.primaryKey (g.relation root) = .ok key)
      (staged : k.stagedColumns g root = .ok columns)
      (emits : Emits k config g root (g.connections root) (Emission.add {} g
        (Emission.newStage {} config g root columns (.key (keyFilters config key)))) e) :
      Emitted k config g ⟨e.declarations, e.fetches⟩

variable {s : Schema} {k : Catalog} {config : Config} {g : JoinGraph} {owner : Nat}
  {cs : List Connection} {e e' : Emission} {seen met : List Nat} {passages : List Passage}
  {ts : List Stage} {b : Batch}

theorem Emission.nodes_add {t : Stage} : (e.add g t).nodes = e.nodes ++ [t.node] :=
  List.map_append

/-- The recursion visits the nodes of the tour. -/
theorem Emits.nodes_eq (h : Emits k config g owner cs e e')
    (hvisits : g.Visits owner cs seen passages met) (hseen : e.nodes = seen.reverse) :
    e'.nodes = met.reverse := by
  induction h generalizing seen passages met with
  | done =>
    cases hvisits with
    | done => exact hseen
  | known _ known _ ih =>
    cases hvisits with
    | again _ rest => exact ih rest hseen
    | first new _ _ => exact absurd (List.mem_reverse.1 (hseen ▸ known)) new
  | fetch _ new _ _ _ _ ihbelow ihrest =>
    cases hvisits with
    | again known _ => exact absurd (hseen ▸ List.mem_reverse.2 known) new
    | first _ below rest =>
      refine ihrest rest (ihbelow below ?_)
      rw [Emission.nodes_add, hseen, List.reverse_cons]
      rfl

theorem Emission.exists_lookup (h : owner ∈ e.nodes) : ∃ var, e.vars.lookup owner = some var := by
  obtain ⟨p, hp, rfl⟩ := List.mem_map.1 h
  exact Option.isSome_iff_exists.1 (List.lookup_isSome_iff.2 ⟨p, hp, beq_self_eq_true _⟩)

/-- A tour emits what the recursion emits. -/
theorem emits_iff (hvisits : g.Visits owner cs seen passages met) (hseen : e.nodes = seen.reverse)
    (howner : owner ∈ seen) : Yields (passages.forM (pass s config g)) e () e' ↔
      Emits s.catalog config g owner cs e e' := by
  have hmem : ∀ {e : Emission} {seen : List Nat} {n : Nat}, e.nodes = seen.reverse →
      (n ∈ e.nodes ↔ n ∈ seen) := fun hseen => by rw [hseen, List.mem_reverse]
  induction hvisits generalizing e e' with
  | done =>
    constructor
    · intro h
      obtain ⟨-, rfl⟩ := yields_pure.1 h
      exact .done
    · intro h
      cases h with
      | done => exact yields_pure.2 ⟨rfl, rfl⟩
  | again known _ ih =>
    rw [yields_forM_cons]
    constructor
    -- what a pass checks and stages is what the catalog of the schema answers, by definition
    · rintro ⟨_, hpass, hrest⟩
      obtain ⟨⟨keyed, hkeyed⟩, rfl⟩ := yields_pass_again.1 hpass
      exact .known hkeyed ((hmem hseen).2 known) ((ih hseen howner).1 hrest)
    · intro h
      cases h with
      | known checked _ rest =>
        exact ⟨e, yields_pass_again.2 ⟨⟨_, checked⟩, rfl⟩, (ih hseen howner).2 rest⟩
      | fetch _ new _ _ _ _ => exact absurd ((hmem hseen).2 known) new
  | @first owner c cs seen between met inner outer new below rest ihbelow ihrest =>
    obtain ⟨var, hvar⟩ := Emission.exists_lookup ((hmem hseen).2 howner)
    have hadd : ∀ t : Stage, t.node = c.target → (e.add g t).nodes = (c.target :: seen).reverse := by
      intro t ht
      rw [Emission.nodes_add, hseen, ht, List.reverse_cons]
    have hbetween : owner ∈ between := below.closed.1 (List.mem_cons_of_mem _ howner)
    rw [yields_forM_cons]
    constructor
    · rintro ⟨_, hpass, htour⟩
      obtain ⟨keyed, columns, hkeyed, hcolumns, rfl⟩ := yields_pass_first.1 hpass
      obtain ⟨e₁, hinner, houter⟩ := yields_forM_append.1 htour
      rw [hvar, Option.getD_some] at hinner
      have hbelow := (ihbelow (hadd _ rfl) List.mem_cons_self).1 hinner
      exact .fetch hkeyed (fun h => new ((hmem hseen).1 h)) hvar hcolumns hbelow
        ((ihrest (hbelow.nodes_eq below (hadd _ rfl)) hbetween).1 houter)
    · intro h
      cases h with
      | known _ known _ => exact absurd ((hmem hseen).1 known) new
      | @fetch _ _ _ _ e₁ _ keyed var' columns checked _ previous staged hbelow hrest =>
        obtain rfl : var = var' := Option.some.inj (hvar.symm.trans previous)
        have hinner := (ihbelow (hadd _ rfl) List.mem_cons_self).2 hbelow
        have houter := (ihrest (hbelow.nodes_eq below (hadd _ rfl)) hbetween).2 hrest
        refine ⟨_, yields_pass_first.2 ⟨keyed, columns, checked, staged, rfl⟩,
          yields_forM_append.2 ⟨e₁, ?_, houter⟩⟩
        rw [hvar, Option.getD_some]
        exact hinner

/-- For a schema the recursion makes the batch that the tour makes. -/
theorem result_eq_ok_iff_emitted :
    (Batch.ofGraph s config g).result = .ok b ↔ Emitted s.catalog config g b := by
  obtain ⟨met, hvisits⟩ := g.visits_tour
  unfold Batch.ofGraph
  rw [result_bind_eq_ok]
  constructor
  · rintro ⟨⟨u, e⟩, hemit, hb⟩
    obtain rfl := result_pure_eq_ok.1 hb
    obtain ⟨_, e₁, hroot, htour⟩ := yields_bind.1 hemit
    obtain ⟨key, columns, hkey, hcolumns, rfl⟩ := yields_fetchRoot.1 hroot
    exact .intro hkey hcolumns ((emits_iff hvisits rfl List.mem_cons_self).1 htour)
  · rintro ⟨hkey, hcolumns, hemits⟩
    refine ⟨((), _), yields_bind.2 ⟨(), _, yields_fetchRoot.2 ⟨_, _, hkey, hcolumns, rfl⟩, ?_⟩, rfl⟩
    exact (emits_iff hvisits rfl List.mem_cons_self).2 hemits

/-! ## The order of the stages -/

/-- A stage fetches the node that a passage leads to, joined to the stage of the node that the
passage comes from. -/
structure Catalog.Stages (k : Catalog) (g : JoinGraph) (ts : List Stage) (p : Passage)
    (t : Stage) : Prop where
  node : t.node = p.connection.target
  columns : k.stagedColumns g t.node = .ok t.columns
  source : ∃ o ∈ ts, o.node = p.owner ∧ ∃ keyed,
    k.keyedOnOwner g p.owner p.connection = .ok keyed ∧
      t.source = joinSource o.var p.connection.fields keyed

theorem Catalog.Stages.mono {ts' : List Stage} {p : Passage} {t : Stage}
    (h : k.Stages g ts p t) (hsub : ts ⊆ ts') : k.Stages g ts' p t where
  node := h.node
  columns := h.columns
  source := by
    obtain ⟨o, ho, h⟩ := h.source
    exact ⟨o, hsub ho, h⟩

theorem Catalog.of_stages {new : List Stage}
    (h : List.Forall₂ (k.Stages g ts) passages new) :
    new.map Stage.node = passages.map (·.connection.target) ∧
      ∀ t ∈ new, k.stagedColumns g t.node = .ok t.columns := by
  induction h with
  | nil => exact ⟨rfl, fun t ht => absurd ht List.not_mem_nil⟩
  | cons hstage _ ih =>
    refine ⟨?_, List.forall_mem_cons.2 ⟨hstage.columns, ih.2⟩⟩
    rw [List.map_cons, List.map_cons, hstage.node, ih.1]

theorem Emission.Holds.nodes_eq (h : e.Holds g ts) : e.nodes = ts.map Stage.node := by
  rw [Emission.nodes, h.vars, List.map_map]
  rfl

/-- The recursion adds a stage for each passage that leads to a new node, in their order. -/
theorem Emits.visits (h : Emits k config g owner cs e e') (he : e.Holds g ts)
    (hseen : e.nodes = seen.reverse) (howner : owner ∈ seen) :
    ∃ passages met new, g.Visits owner cs seen passages met ∧ e'.Holds g (ts ++ new) ∧
      List.Forall₂ (k.Stages g (ts ++ new)) (firsts passages) new := by
  induction h generalizing ts seen with
  | done => exact ⟨[], seen, [], .done, by rwa [List.append_nil], .nil⟩
  | known _ known _ ih =>
    obtain ⟨passages, met, new, hvisits, hholds, hstages⟩ := ih he hseen howner
    exact ⟨_, met, new, .again (List.mem_reverse.1 (hseen ▸ known)) hvisits, hholds, hstages⟩
  | @fetch owner c cs e e₁ e' keyed var columns checked new previous staged below rest ihbelow
      ihrest =>
    have hadd : (e.add g (e.newStage config g c.target columns
        (joinSource var c.fields keyed))).nodes = (c.target :: seen).reverse := by
      rw [Emission.nodes_add, hseen, List.reverse_cons]
      rfl
    obtain ⟨inner, between, new₁, hbelow, hholds₁, hstages₁⟩ :=
      ihbelow he.add hadd List.mem_cons_self
    have hbetween : owner ∈ between := hbelow.closed.1 (List.mem_cons_of_mem _ howner)
    obtain ⟨outer, met, new₂, hrest, hholds₂, hstages₂⟩ :=
      ihrest hholds₁ (below.nodes_eq hbelow hadd) hbetween
    have hnew : c.target ∉ seen := fun hin => new (hseen ▸ List.mem_reverse.2 hin)
    obtain ⟨o, ho, hvar, hnode⟩ := he.lookup
      (he.nodes_eq ▸ hseen ▸ List.mem_reverse.2 howner)
    obtain rfl : var = o.var := Option.some.inj (previous.symm.trans hvar)
    rw [List.append_assoc, List.append_assoc, List.singleton_append] at hholds₂ hstages₂
    refine ⟨_, met, _, .first hnew hbelow hrest, hholds₂, ?_⟩
    rw [firsts_first]
    refine .cons ⟨rfl, staged, o, List.mem_append_left _ ho, hnode, keyed, checked, rfl⟩
      (List.rel_append (hstages₁.imp ?_) hstages₂)
    intro p t ht
    refine ht.mono ?_
    rw [List.append_assoc, List.singleton_append, ← List.cons_append, ← List.append_assoc]
    exact List.subset_append_left _ _

/-- The root is staged first, and then one node after the other as the tour comes to them. -/
theorem Emitted.stages (h : Emitted k config g b) :
    ∃ t ts, b = Batch.ofStages g (t :: ts) ∧ t.node = root ∧
      k.stagedColumns g t.node = .ok t.columns ∧
      List.Forall₂ (k.Stages g (t :: ts)) (firsts g.tour) ts := by
  obtain ⟨-, hcolumns, hemits⟩ := h
  have hempty : Emission.Holds {} g [] := ⟨rfl, rfl, rfl⟩
  obtain ⟨passages, met, ts, hvisits, hholds, hstages⟩ :=
    hemits.visits hempty.add (show _ = [root].reverse from rfl) List.mem_cons_self
  obtain rfl := traverses_iff.1 ⟨met, hvisits⟩
  refine ⟨_, ts, ?_, rfl, hcolumns, hstages⟩
  rw [hholds.declarations, hholds.fetches]
  rfl

/-- The statements of a batch are in the order in which the nodes are listed: the declaration and
the fetch of a place are those of the node of that place. The fetch of a node joins the table
variable of the node that the tour first comes from, on the pairs of the connection that it
comes over. -/
structure Batch.Follows (b : Batch) (k : Catalog) (g : JoinGraph) : Prop where
  declarations : b.declarations.length = g.reachable.length
  fetches : b.fetches.length = g.reachable.length
  belong : ∀ i id : Nat, g.reachable[i]? = some id →
    ∃ (d : Declaration) (f : Fetch), b.declarations[i]? = some d ∧ b.fetches[i]? = some f ∧
      k.Belong g id d f
  joins : ∀ (i : Nat) (p : Passage), (firsts g.tour)[i]? = some p →
    ∃ (j : Nat) (d : Declaration) (f : Fetch) (previous : Previous),
      g.reachable[j]? = some p.owner ∧ b.declarations[j]? = some d ∧
      b.fetches[i + 1]? = some f ∧ previous.name = d.var ∧
      f.source = .join previous (p.connection.fields.toList.map fun q => (q.target, q.source))

private theorem exists_getElem?_of_forall₂ {α β : Type} {R : α → β → Prop} {l : List α}
    {l' : List β} (h : List.Forall₂ R l l') {i : Nat} {a : α} (ha : l[i]? = some a) :
    ∃ b, l'[i]? = some b ∧ R a b := by
  induction h generalizing i with
  | nil => exact absurd ha (by simp)
  | cons hab _ ih =>
    cases i with
    | zero =>
      obtain rfl := Option.some.inj ha
      exact ⟨_, rfl, hab⟩
    | succ i => exact ih ha

theorem Emitted.follows (h : Emitted k config g b) : b.Follows k g := by
  obtain ⟨t, ts, rfl, hroot, hcolumns, hstages⟩ := h.stages
  have hnodes : (t :: ts).map Stage.node = g.reachable := by
    rw [reachable_eq, List.map_cons, hroot, (Catalog.of_stages hstages).1]
  have hstaged : ∀ o ∈ t :: ts, k.stagedColumns g o.node = .ok o.columns :=
    List.forall_mem_cons.2 ⟨hcolumns, (Catalog.of_stages hstages).2⟩
  have hplace : ∀ {i : Nat} {o : Stage}, (t :: ts)[i]? = some o → g.reachable[i]? = some o.node ∧
      (Batch.ofStages g (t :: ts)).declarations[i]? = some o.declaration ∧
        (Batch.ofStages g (t :: ts)).fetches[i]? = some (o.fetch g) := by
    intro i o ho
    rw [← hnodes, Batch.ofStages, List.getElem?_map, List.getElem?_map, List.getElem?_map, ho]
    exact ⟨rfl, rfl, rfl⟩
  refine ⟨?_, ?_, ?_, ?_⟩
  · rw [← hnodes, Batch.ofStages, List.length_map, List.length_map]
  · rw [← hnodes, Batch.ofStages, List.length_map, List.length_map]
  · intro i id hid
    rw [← hnodes, List.getElem?_map, Option.map_eq_some_iff] at hid
    obtain ⟨o, ho, rfl⟩ := hid
    exact ⟨o.declaration, o.fetch g, (hplace ho).2.1, (hplace ho).2.2,
      Catalog.belong (hstaged o (List.mem_of_getElem? ho))⟩
  · intro i p hp
    obtain ⟨o, ho, hstage⟩ := exists_getElem?_of_forall₂ hstages hp
    obtain ⟨o', hmem, howner, keyed, -, hsource⟩ := hstage.source
    obtain ⟨j, hj⟩ := List.getElem?_of_mem hmem
    obtain ⟨hreach, hdeclaration, -⟩ := hplace hj
    refine ⟨j, o'.declaration, o.fetch g, _, howner ▸ hreach, hdeclaration,
      (hplace ho).2.2, ?_, hsource⟩
    split
    · rfl
    · rfl

/-- The stack and the recursion come to the nodes in the same order, whatever cycles, shared nodes
and repeated connections there are. The recursion over the connections has one result, and the
nodes are listed in the order in which it meets them, each node that is reached once. The
statements of a batch are in this order for every catalog, and for a schema these are the batches
that are made. -/
theorem emitted_in_preorder (g : JoinGraph) :
    (∀ passages, g.Traverses passages ↔ passages = g.tour) ∧
      g.reachable = root :: (firsts g.tour).map (·.connection.target) ∧
      g.stackWalk [root] [] = g.reachable ∧ g.reachable.Nodup ∧
      (∀ id, id ∈ g.reachable ↔ g.Reaches id) ∧
      (∀ s config b, (Batch.ofGraph s config g).result = .ok b ↔ Emitted s.catalog config g b) ∧
      ∀ k config b, Emitted k config g b → b.Follows k g :=
  ⟨fun _ => traverses_iff, reachable_eq, stackWalk_eq_reachable, nodup_reachable,
    fun _ => mem_reachable, fun _ _ _ => result_eq_ok_iff_emitted, fun _ _ _ h => h.follows⟩

/-- Customers with their orders and payments, of which the orders lead to themselves and to other
customers, these to the payments, and the payments back to both. -/
def sharedPayments : JoinGraph :=
  let owned : FieldPairs := .zip ["Id"] ["CustomerId"]
  ⟨#[{ relation := "Customer", used := .ofList ["Id", "Name"],
        connections := [⟨1, owned⟩, ⟨2, owned⟩, ⟨1, owned⟩] },
    { relation := "Order", used := .ofList ["CustomerId", "Id"],
        connections := [⟨1, .zip ["Id"] ["Id"]⟩, ⟨3, owned.reversed⟩] },
    { relation := "Payment", used := .ofList ["CustomerId"],
        connections := [⟨3, owned.reversed⟩, ⟨0, owned.reversed⟩] },
    { relation := "Customer", used := .ofList ["Id"], connections := [⟨2, owned⟩] }]⟩

theorem emitted_sharedPayments :
    sharedPayments.reachable = [0, 1, 3, 2] ∧
      ∃ b, (Batch.ofGraph shop {} sharedPayments).result = .ok b ∧
        b.Follows shop.catalog sharedPayments := by
  have hreachable : sharedPayments.reachable = [0, 1, 3, 2] := by decide +kernel
  have hmade : (Batch.ofGraph shop {} sharedPayments).result.toOption.isSome := by decide +kernel
  obtain ⟨-, -, -, -, -, hemitted, hfollows⟩ := emitted_in_preorder sharedPayments
  refine ⟨hreachable, ?_⟩
  cases hb : (Batch.ofGraph shop {} sharedPayments).result with
  | error e => exact absurd hmade (by rw [hb]; simp [Except.toOption])
  | ok b => exact ⟨b, rfl, hfollows _ _ b ((hemitted shop {} b).1 hb)⟩

end FetchPlan
