import FetchPlan.JoinGraph.OfListing
import FetchPlan.Proofs.Flow.Stored
import FetchPlan.Proofs.JoinGraph.Builds

/-!
# Building from a listing

The walk over a listing that a flow is stored in is the walk of the flow: every entry it comes to is
there, is of a kind that can stand there, and is met within the fuel. So the graph of a query is
built from its listing without getting stuck (`JoinGraph.ofListing_eq`).
-/

namespace FetchPlan

open Building

/-! ## Computations that report events are lawful -/

namespace Traced

variable {α β γ : Type}

theorem bind_of_ok (events : List Event) (a : α) (f : α → Traced β) :
    (⟨events, .ok a⟩ : Traced α) >>= f = ⟨events ++ (f a).events, (f a).result⟩ := rfl

protected theorem bind_assoc (x : Traced α) (f : α → Traced β) (g : β → Traced γ) :
    x >>= f >>= g = x >>= fun a => f a >>= g := by
  obtain ⟨events, _ | a⟩ := x
  · rfl
  · rw [bind_of_ok, bind_of_ok]
    obtain ⟨events', _ | b⟩ := f a
    · rfl
    · rw [bind_of_ok, bind_of_ok, List.append_assoc]

instance : LawfulMonad Traced := by
  refine LawfulMonad.mk' Traced ?_ (fun _ _ => rfl) Traced.bind_assoc
  rintro α ⟨events, _ | a⟩
  · rfl
  · show (⟨events ++ [], .ok a⟩ : Traced α) = ⟨events, .ok a⟩
    rw [List.append_nil]

end Traced

/-! ## How far links lead -/

mutual

/-- The fuel that the walk of the flow takes. -/
def Flow.height : Flow → Nat
  | .path p => p.height + p.stepIds.length + 1
  | .binary _ _ lhs rhs => max lhs.height rhs.height + 1
  | .unary _ _ operand => operand.height + 1
  | .fixed _ => 1

/-- The fuel that the parts of a step of the path take at most. -/
def Path.height : Path → Nat
  | .table .. | .reference .. => 0
  | .association init .. | .column init .. | .output init .. => init.height
  | .select init _ outputs => max init.height outputs.height
  | .filter init _ inner => max init.height inner.height

/-- The fuel that an output takes at most. -/
def Outputs.height : Outputs → Nat
  | .single inner => inner.height
  | .record fields => fields.height

/-- The fuel that a field takes at most. -/
def FlowFields.height : FlowFields → Nat
  | .nil => 0
  | .cons _ inner rest => max inner.height rest.height

end

theorem Path.length_stepIds_pos (p : Path) : 0 < p.stepIds.length := by
  cases p with
  | table | reference => exact Nat.one_pos
  | association | column | output | select | filter =>
    rw [stepIds, List.length_append]
    exact Nat.succ_pos _

mutual

/-- A path and the operand that it is take two links for each entry at most. -/
theorem Flow.height_le (parent : Option Nat) : ∀ f : Flow,
    f.height ≤ 2 * (f.entries parent).length
  | .path p => by
    have hle := p.height_le parent none
    have hpos := p.length_stepIds_pos
    rw [Flow.height, Flow.entries]
    omega
  | .binary id _ lhs rhs => by
    have hl := lhs.height_le (some id)
    have hr := rhs.height_le (some id)
    rw [Flow.height, Flow.entries, List.length_append, List.length_append, List.length_singleton]
    omega
  | .unary id _ operand => by
    have h := operand.height_le (some id)
    rw [Flow.height, Flow.entries, List.length_append, List.length_singleton]
    omega
  | .fixed _ => Nat.le_succ 1

/-- See `Flow.height_le`. -/
theorem Path.height_le (parent next : Option Nat) : ∀ p : Path,
    p.height + 2 * p.stepIds.length ≤ 2 * (p.entries parent next).length
  | .table .. | .reference .. => Nat.le_refl 2
  | .association init id .. | .column init id _ | .output init id _ => by
    have h := init.height_le parent (some id)
    rw [Path.height, Path.stepIds, Path.entries, List.length_append, List.length_append,
      List.length_singleton, List.length_singleton]
    omega
  | .select init id outputs => by
    have h := init.height_le parent (some id)
    have ho := outputs.height_le id
    rw [Path.height, Path.stepIds, Path.entries]
    simp only [List.length_append, List.length_singleton]
    omega
  | .filter init id inner => by
    have h := init.height_le parent (some id)
    have hf := inner.height_le (some id)
    rw [Path.height, Path.stepIds, Path.entries]
    simp only [List.length_append, List.length_singleton]
    omega

/-- See `Flow.height_le`. -/
theorem Outputs.height_le (id : Nat) : ∀ o : Outputs, o.height ≤ 2 * (o.entries id).length
  | .single inner => inner.height_le (some id)
  | .record fields => fields.height_le id

/-- See `Flow.height_le`. -/
theorem FlowFields.height_le (id : Nat) : ∀ fs : FlowFields,
    fs.height ≤ 2 * (fs.entries id).length
  | .nil => Nat.le_refl 0
  | .cons _ inner rest => by
    have h := inner.height_le (some id)
    have hrest := rest.height_le id
    rw [FlowFields.height, FlowFields.entries, List.length_append]
    omega

end

/-! ## Computations that do not get stuck -/

section Lift

variable {m : Type → Type} [Monad m] {α β : Type}

theorem liftM_eq_lift (x : m α) : (liftM x : OptionT m α) = OptionT.lift x := rfl

theorem liftM_except [MonadLiftT (Except Error) m] (x : Except Error α) :
    (liftM x : OptionT m α) = OptionT.lift (liftM x : m α) := rfl

variable [LawfulMonad m]

theorem lift_discard (x : m α) :
    (OptionT.lift (discard x) : OptionT m PUnit) = discard (OptionT.lift x) := by
  unfold discard
  rw [LawfulFunctor.map_const, LawfulFunctor.map_const]
  exact liftM_map (n := OptionT m) _ x

/-- What is discarded is still computed. -/
theorem discard_bind (x : m α) (f : PUnit → m β) : discard x >>= f = x >>= fun _ => f () := by
  unfold discard
  rw [LawfulFunctor.map_const]
  exact bind_map_left _ x f

end Lift

/-! ## Single links -/

namespace Listing

variable {s : Schema} {entries : List Entry} {kind : EntryKind} {next : Option Nat}
  {fuel id : Nat} {current : Resolved}

theorem entryAt_eq {entry : Entry} (h : entries[id]? = some entry) :
    entryAt entries id = pure entry := by
  rw [entryAt, h]

/-- An operation is walked, and stands for no rows. -/
theorem operand_succ {isFixed : Bool} (h : OperationAt entries id kind isFixed)
    (htree : kind.isTree) : operand s entries (fuel + 1) id =
      operate s (Listing.isFixed entries fuel) (operand s entries fuel) kind >>=
        fun _ => pure .scalar := by
  obtain ⟨previous, parent, hentry⟩ := h
  rw [operand, entryAt_eq hentry, pure_bind, if_pos htree]

/-- A path goes on with its next step, if there is one. -/
def goOn (s : Schema) (entries : List Entry) (fuel : Nat) (next : Option Nat) (r : Resolved) :
    Visiting Resolved :=
  match next with
  | some id => chain s entries fuel id r
  | none => pure r

/-- If the step of an entry does not get stuck, it is noted, and the path goes on. -/
theorem chain_succ {step : Resolved → Building Resolved} (h : StepAt entries id kind next)
    (hvisit : ∀ r, visit s (operand s entries fuel) id r kind = OptionT.lift (step r)) :
    chain s entries (fuel + 1) id current =
      OptionT.lift (do note id (← step current)) >>= goOn s entries fuel next := by
  obtain ⟨previous, parent, hentry⟩ := h
  rw [chain, entryAt_eq hentry, pure_bind, hvisit, OptionT.lift_bind, bind_assoc]
  rfl

/-- A path that is followed to its last entry but one goes on with the step of the last. -/
theorem chain_extend {p q : Path} {step : Resolved → Building Resolved}
    (hids : p.stepIds = q.stepIds ++ [id]) (hhead : p.headId = q.headId)
    (hwalk : p.walk s = do note id (← step (← q.walk s)))
    (hq : chain s entries (fuel + 1 + q.stepIds.length) q.headId current =
      OptionT.lift (q.walk s) >>= goOn s entries (fuel + 1) (some id))
    (h : StepAt entries id kind next)
    (hvisit : ∀ r, visit s (operand s entries fuel) id r kind = OptionT.lift (step r)) :
    chain s entries (fuel + p.stepIds.length) p.headId current =
      OptionT.lift (p.walk s) >>= goOn s entries fuel next := by
  have hfuel : fuel + p.stepIds.length = fuel + 1 + q.stepIds.length := by
    rw [hids, List.length_append, List.length_singleton]
    omega
  rw [hfuel, hhead, hq, hwalk, OptionT.lift_bind, bind_assoc]
  exact bind_congr fun r => chain_succ h hvisit

end Listing

open Listing

/-! ## Paths -/

variable {s : Schema} {entries : List Entry} {next : Option Nat} {fuel : Nat} {current : Resolved}

/-- If the path is stored, following it is walking it. -/
def Path.Followed (s : Schema) (entries : List Entry) (p : Path) : Prop :=
  ∀ next fuel current, p.StoredIn entries next → p.height ≤ fuel →
    chain s entries (fuel + p.stepIds.length) p.headId current =
      OptionT.lift (p.walk s) >>= goOn s entries fuel next

/-- See `Path.Followed`. -/
def Flow.Followed (s : Schema) (entries : List Entry) (f : Flow) : Prop :=
  ∀ fuel, f.StoredIn entries → f.height ≤ fuel →
    operand s entries fuel f.headId = OptionT.lift (f.walk s)

/-- See `Path.Followed`. -/
def Outputs.Followed (s : Schema) (entries : List Entry) (o : Outputs) : Prop :=
  ∀ fuel, o.StoredIn entries → o.height ≤ fuel →
    project (operand s entries fuel) o.heads = OptionT.lift (o.walk s)

/-- See `Path.Followed`. -/
def FlowFields.Followed (s : Schema) (entries : List Entry) (fs : FlowFields) : Prop :=
  ∀ fuel, fs.StoredIn entries → fs.height ≤ fuel →
    fs.heads.mapM (fun output => return (output.1.getD "", ← operand s entries fuel output.2)) =
      OptionT.lift (fs.walk s)

namespace Path

variable {q : Path} {id : Nat}

theorem followed_table {relation : String} : (Path.table id relation).Followed s entries := by
  intro next fuel current h _
  have hvisit : ∀ r, visit s (operand s entries fuel) id r (.table relation) = OptionT.lift
      (if id = 0 then pure (.rows JoinGraph.root none) else do
        discard <| s.primaryKey relation
        return .rows (← addNode relation) none) := by
    intro r
    rw [visit]
    split
    · rw [OptionT.lift_pure]
    · simp only [OptionT.lift_bind, OptionT.lift_pure, lift_discard, liftM_except, liftM_eq_lift]
  refine (chain_succ h hvisit).trans ?_
  rw [walk]
  split
  · rw [pure_bind]
  · simp only [bind_assoc, pure_bind]

theorem followed_reference {target : Nat} :
    (Path.reference id target).Followed s entries := by
  intro next fuel current h _
  obtain ⟨previous, parent, hentry⟩ := h
  show chain s entries (fuel + 1) id current = _
  rw [chain, entryAt_eq hentry, pure_bind, visit, walk, OptionT.lift_bind, bind_assoc, bind_assoc]
  refine bind_congr fun d => ?_
  cases d.sources.lookup target with
  | none => rfl
  | some r => rfl

theorem Followed.association {column relation key : String} (h : q.Followed s entries) :
    (Path.association q id column relation key).Followed s entries := by
  intro next fuel current hstored hheight
  have hvisit : ∀ r, visit s (operand s entries fuel) id r (.association column relation key) =
      OptionT.lift (follow s r column relation key) := fun _ => rfl
  exact chain_extend rfl rfl rfl (h _ _ _ hstored.1 (Nat.le_succ_of_le hheight)) hstored.2 hvisit

theorem Followed.column {name : String} (h : q.Followed s entries) :
    (Path.column q id name).Followed s entries := by
  intro next fuel current hstored hheight
  have hvisit : ∀ r, visit s (operand s entries fuel) id r (.column name) =
      OptionT.lift (read s r name) := fun _ => rfl
  exact chain_extend rfl rfl rfl (h _ _ _ hstored.1 (Nat.le_succ_of_le hheight)) hstored.2 hvisit

theorem Followed.filter {f : Flow} (h : q.Followed s entries) (hf : f.Followed s entries) :
    (Path.filter q id f).Followed s entries := by
  intro next fuel current hstored hheight
  obtain ⟨hq, hinner, hstep⟩ := hstored
  rw [height, Nat.max_le] at hheight
  have hvisit : ∀ r, visit s (operand s entries fuel) id r (.filter f.headId) =
      OptionT.lift (do discard <| f.walk s; return r) := by
    intro r
    rw [visit, hf fuel hinner hheight.2]
    simp only [OptionT.lift_bind, OptionT.lift_pure, lift_discard]
  have hwalk : (Path.filter q id f).walk s =
      q.walk s >>= fun r => (do discard <| f.walk s; return r) >>= note id := by
    rw [walk]
    simp only [bind_assoc, pure_bind]
  exact chain_extend rfl rfl hwalk (h _ _ _ hq (Nat.le_succ_of_le hheight.1)) hstep hvisit

theorem Followed.select {o : Outputs} (h : q.Followed s entries) (ho : o.Followed s entries) :
    (Path.select q id o).Followed s entries := by
  intro next fuel current hstored hheight
  obtain ⟨hq, houtputs, hstep⟩ := hstored
  rw [height, Nat.max_le] at hheight
  have hvisit : ∀ r, visit s (operand s entries fuel) id r (.select o.heads) =
      OptionT.lift (o.walk s) := fun r => ho fuel houtputs hheight.2
  have hwalk : (Path.select q id o).walk s = q.walk s >>= fun _ => o.walk s >>= note id := by
    rw [walk, discard_bind]
  exact chain_extend rfl rfl hwalk (h _ _ _ hq (Nat.le_succ_of_le hheight.1)) hstep hvisit

end Path

/-- The first step of a path is the relation that the path starts at, or else a reference. -/
theorem Path.stepAt_of_storedIn : ∀ (p : Path) {next : Option Nat}, p.StoredIn entries next →
    ∃ kind next, StepAt entries p.headId kind next ∧ kind.isTree = false ∧
      ∀ relation, p.relation? = some relation → kind = .table relation
  | .table .., _, h => ⟨_, _, h, rfl, fun _ hrelation => by rw [Option.some.inj hrelation]⟩
  | .reference .., _, h => ⟨_, _, h, rfl, fun _ hrelation => by cases hrelation⟩
  | .association init .., _, h => init.stepAt_of_storedIn h.1
  | .column init .., _, h => init.stepAt_of_storedIn h.1
  | .output init .., _, h => init.stepAt_of_storedIn h.1
  | .select init .., _, h => init.stepAt_of_storedIn h.1
  | .filter init .., _, h => init.stepAt_of_storedIn h.1

/-! ## Outputs -/

/-- Outputs with names are a record. -/
theorem Listing.project_named {operand : Nat → Visiting Resolved}
    {outputs : List (Option String × Nat)} (h : ∀ output ∈ outputs, output.1.isSome) :
    project operand outputs = do
      return .record (← outputs.mapM fun output =>
        return (output.1.getD "", ← operand output.2)) := by
  rw [project]
  refine bind_congr fun values => ?_
  split
  · exact absurd (h _ List.mem_cons_self) Bool.false_ne_true
  · rfl

theorem FlowFields.isSome_of_mem_heads : ∀ (fs : FlowFields), ∀ output ∈ fs.heads, output.1.isSome
  | .nil, _, houtput => absurd houtput List.not_mem_nil
  | .cons _ _ rest, output, houtput => by
    rcases List.mem_cons.1 houtput with rfl | houtput
    · rfl
    · exact rest.isSome_of_mem_heads output houtput

theorem Outputs.followed_single {f : Flow} (h : f.Followed s entries) :
    (Outputs.single f).Followed s entries := by
  intro fuel hstored hheight
  rw [heads, project, List.mapM_cons, h fuel hstored hheight, walk]
  simp only [List.mapM_nil, bind_assoc, pure_bind, bind_pure]

theorem Outputs.followed_record {fs : FlowFields} (h : fs.Followed s entries) :
    (Outputs.record fs).Followed s entries := by
  intro fuel hstored hheight
  rw [heads, project_named fs.isSome_of_mem_heads, h fuel hstored hheight, walk]
  simp only [OptionT.lift_bind, OptionT.lift_pure]

theorem FlowFields.followed_nil : FlowFields.nil.Followed s entries := by
  intro fuel _ _
  rw [heads, walk, List.mapM_nil, OptionT.lift_pure]

theorem FlowFields.Followed.cons {name : String} {f : Flow} {fs : FlowFields}
    (hf : f.Followed s entries) (h : fs.Followed s entries) :
    (FlowFields.cons name f fs).Followed s entries := by
  intro fuel hstored hheight
  rw [height, Nat.max_le] at hheight
  rw [heads, walk, List.mapM_cons, h fuel hstored.2 hheight.2, hf fuel hstored.1 hheight.1]
  simp only [OptionT.lift_bind, OptionT.lift_pure, bind_assoc, pure_bind, Option.getD_some]

/-! ## Operands -/

namespace Flow

variable {f lhs rhs : Flow} {id : Nat}

/-- Whether a stored flow is fixed is found out from its entries. -/
theorem isFixed_listed : ∀ (f : Flow) {fuel : Nat}, f.StoredIn entries → f.height ≤ fuel →
    Listing.isFixed entries fuel f.headId = pure f.isFixed
  | .path p, fuel, h, hheight => by
    obtain ⟨kind, next, ⟨previous, parent, hentry⟩, htree, -⟩ := p.stepAt_of_storedIn h
    obtain ⟨fuel, rfl⟩ := Nat.exists_eq_succ_of_ne_zero (Nat.ne_zero_of_lt hheight)
    rw [headId, Listing.isFixed, entryAt_eq hentry, pure_bind]
    cases kind with
    | binary | unary | fixed => exact absurd htree Bool.false_ne_true.symm
    | _ => rfl
  | .binary id op lhs rhs, fuel, h, hheight => by
    obtain ⟨hlhs, hrhs, previous, parent, hentry⟩ := h
    obtain ⟨fuel, rfl⟩ := Nat.exists_eq_succ_of_ne_zero (Nat.ne_zero_of_lt hheight)
    rw [height, Nat.succ_le_succ_iff, Nat.max_le] at hheight
    rw [headId, Listing.isFixed, entryAt_eq hentry, pure_bind]
    simp only [lhs.isFixed_listed hlhs hheight.1, rhs.isFixed_listed hrhs hheight.2, pure_bind]
    rfl
  | .unary id op operand, fuel, h, hheight => by
    obtain ⟨hoperand, previous, parent, hentry⟩ := h
    obtain ⟨fuel, rfl⟩ := Nat.exists_eq_succ_of_ne_zero (Nat.ne_zero_of_lt hheight)
    rw [height, Nat.succ_le_succ_iff] at hheight
    rw [headId, Listing.isFixed, entryAt_eq hentry, pure_bind]
    exact operand.isFixed_listed hoperand hheight
  | .fixed id, fuel, h, hheight => by
    obtain ⟨previous, parent, hentry⟩ := h
    obtain ⟨fuel, rfl⟩ := Nat.exists_eq_succ_of_ne_zero (Nat.ne_zero_of_lt hheight)
    rw [headId, Listing.isFixed, entryAt_eq hentry, pure_bind]
    rfl

theorem followed_path {p : Path} (h : p.Followed s entries) : (Flow.path p).Followed s entries := by
  intro fuel hstored hheight
  obtain ⟨kind, next, ⟨previous, parent, hentry⟩, htree, -⟩ := p.stepAt_of_storedIn hstored
  obtain ⟨fuel', rfl⟩ := Nat.exists_eq_add_of_le hheight
  have hfuel : p.height + p.stepIds.length + 1 + fuel' =
      p.height + fuel' + p.stepIds.length + 1 := by omega
  have hchain := h none (p.height + fuel') .scalar hstored (Nat.le_add_right _ _)
  rw [height, hfuel, headId, operand, entryAt_eq hentry, pure_bind, htree,
    if_neg Bool.false_ne_true, hchain, walk]
  exact bind_pure _

theorem followed_fixed : (Flow.fixed id).Followed s entries := by
  intro fuel hstored hheight
  obtain ⟨fuel, rfl⟩ := Nat.exists_eq_succ_of_ne_zero (Nat.ne_zero_of_lt hheight)
  rw [headId, operand_succ hstored rfl, operate, pure_bind, walk, OptionT.lift_pure]

theorem Followed.unary {op : UnaryOp} (h : f.Followed s entries) :
    (Flow.unary id op f).Followed s entries := by
  intro fuel hstored hheight
  obtain ⟨hf, hop⟩ := hstored
  obtain ⟨fuel, rfl⟩ := Nat.exists_eq_succ_of_ne_zero (Nat.ne_zero_of_lt hheight)
  rw [height, Nat.succ_le_succ_iff] at hheight
  rw [headId, operand_succ hop rfl, operate, h fuel hf hheight, walk, OptionT.lift_bind,
    lift_discard]
  rfl

theorem Followed.binary {op : BinaryOp} (hl : lhs.Followed s entries)
    (hr : rhs.Followed s entries) : (Flow.binary id op lhs rhs).Followed s entries := by
  intro fuel hstored hheight
  obtain ⟨hlhs, hrhs, hop⟩ := hstored
  obtain ⟨fuel, rfl⟩ := Nat.exists_eq_succ_of_ne_zero (Nat.ne_zero_of_lt hheight)
  rw [height, Nat.succ_le_succ_iff, Nat.max_le] at hheight
  rw [headId, operand_succ hop rfl, operate, lhs.isFixed_listed hlhs hheight.1, pure_bind,
    rhs.isFixed_listed hrhs hheight.2, pure_bind, hl fuel hlhs hheight.1, hr fuel hrhs hheight.2,
    walk]
  split
  · simp only [OptionT.lift_bind, OptionT.lift_pure, liftM_eq_lift, bind_assoc]
  · cases lhs.isFixed <;> cases rhs.isFixed <;>
      simp only [if_true, Bool.false_eq_true, if_false, OptionT.lift_bind, OptionT.lift_pure,
        lift_discard, bind_assoc, pure_bind]

end Flow

/-! ## Following a whole flow -/

mutual

/-- Following a stored flow is walking it. -/
theorem Flow.followed (s : Schema) (entries : List Entry) : ∀ f : Flow, f.Followed s entries
  | .path p => Flow.followed_path (p.followed s entries)
  | .binary _ _ lhs rhs => Flow.Followed.binary (lhs.followed s entries) (rhs.followed s entries)
  | .unary _ _ operand => Flow.Followed.unary (operand.followed s entries)
  | .fixed _ => Flow.followed_fixed

/-- See `Flow.followed`. -/
theorem Path.followed (s : Schema) (entries : List Entry) : ∀ p : Path, p.Followed s entries
  | .table .. => Path.followed_table
  | .reference .. => Path.followed_reference
  | .association init .. => Path.Followed.association (init.followed s entries)
  -- An output is read as a column is.
  | .column init .. | .output init .. => Path.Followed.column (init.followed s entries)
  | .select init _ outputs =>
    Path.Followed.select (init.followed s entries) (outputs.followed s entries)
  | .filter init _ inner =>
    Path.Followed.filter (init.followed s entries) (inner.followed s entries)

/-- See `Flow.followed`. -/
theorem Outputs.followed (s : Schema) (entries : List Entry) : ∀ o : Outputs,
    o.Followed s entries
  | .single inner => Outputs.followed_single (inner.followed s entries)
  | .record fields => Outputs.followed_record (fields.followed s entries)

/-- See `Flow.followed`. -/
theorem FlowFields.followed (s : Schema) (entries : List Entry) : ∀ fs : FlowFields,
    fs.Followed s entries
  | .nil => FlowFields.followed_nil
  | .cons _ inner rest =>
    FlowFields.Followed.cons (inner.followed s entries) (rest.followed s entries)

end

/-! ## Graphs -/

variable {e : Expr} {q : NumberedPath}

/-- The first entry of the listing of a query is the relation that the query starts at. -/
theorem Expr.head_listing (h : e.toPath = .ok q) : ∃ relation, q.path.relation? = some relation ∧
    (q.path.listing[0]?).map Entry.kind = some (.table relation) := by
  obtain ⟨c, -, hstart, hp⟩ := toPath_eq_ok.1 h
  obtain ⟨relation, hrelation⟩ := c.startsAtTable_iff.1 hstart
  rw [← c.relation?_of_run_path hp] at hrelation
  obtain ⟨kind, next, ⟨previous, parent, hentry⟩, -, hkind⟩ :=
    q.path.stepAt_of_storedIn (e.storedIn_listing h)
  rw [(Expr.numbered h).headId_eq] at hentry
  refine ⟨relation, hrelation, ?_⟩
  rw [hentry, Option.map_some, hkind relation hrelation]

/-- Following the listing of a query is walking its path. -/
theorem Expr.chain_listing (h : e.toPath = .ok q) :
    chain s q.path.listing (2 * q.path.listing.length) 0 .scalar =
      OptionT.lift (q.path.walk s) := by
  have hheight : q.path.height + 2 * q.path.stepIds.length ≤ 2 * q.path.listing.length :=
    q.path.height_le none none
  obtain ⟨fuel, hfuel⟩ := Nat.exists_eq_add_of_le'
    (show q.path.stepIds.length ≤ 2 * q.path.listing.length by omega)
  have hfollowed := q.path.followed s q.path.listing none fuel .scalar (e.storedIn_listing h)
    (by omega)
  rw [(Expr.numbered h).headId_eq] at hfollowed
  rw [hfuel, hfollowed]
  exact bind_pure _

namespace JoinGraph

theorem draftOfListing_eq (h : e.toPath = .ok q) :
    draftOfListing s q.path.listing = OptionT.lift (draftOfPath s q.path) := by
  obtain ⟨relation, hrelation, hhead⟩ := e.head_listing h
  simp only [draftOfListing, draftOfPath, hrelation, hhead, e.chain_listing h, liftM_except,
    lift_discard, liftM_eq_lift, OptionT.lift_bind, OptionT.run_lift, StateT.run_bind,
    StateT.run_pure, OptionT.lift_pure, bind_assoc, pure_bind]

theorem ofListing_eq (h : e.toPath = .ok q) :
    ofListing s q.path.listing = OptionT.lift (ofPath s q.path) := by
  rw [ofListing, ofPath, draftOfListing_eq h, OptionT.lift_bind]
  exact bind_congr fun draft => liftM_eq_lift _

end JoinGraph

end FetchPlan
