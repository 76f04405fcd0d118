import FetchPlan.Flow.Listing
import FetchPlan.Proofs.Flow.Numbered

/-!
# Where the entries of a flow are

The entries of a flow are listed in the order of their numbers, so that the number of an entry is
its place in the listing (`Flow.Numbered.listed`). What is stored in a listing is described part by
part, without regard to the places (`Flow.StoredIn`).
-/

namespace FetchPlan

variable {entries block rest : List Entry} {n m k : Nat} {next : Option Nat}

/-! ## Stored flows -/

/-- The step of this number is listed, and `next` comes after it. -/
def StepAt (entries : List Entry) (id : Nat) (kind : EntryKind) (next : Option Nat) : Prop :=
  ∃ previous parent, entries[id]? = some { kind, previous, next, parent }

/-- The operation of this number is listed, and nothing comes after it. -/
def OperationAt (entries : List Entry) (id : Nat) (kind : EntryKind) (isFixed : Bool) : Prop :=
  ∃ previous parent,
    entries[id]? = some { kind, previous, next := none, parent, isFixed, isTree := true }

mutual

/-- Every step and operation of the flow is listed under its number. -/
def Flow.StoredIn (entries : List Entry) : Flow → Prop
  | .path p => p.StoredIn entries none
  | .binary id op lhs rhs =>
    lhs.StoredIn entries ∧ rhs.StoredIn entries ∧
      OperationAt entries id (.binary op lhs.headId rhs.headId) (lhs.isFixed && rhs.isFixed)
  | .unary id op operand =>
    operand.StoredIn entries ∧ OperationAt entries id (.unary op operand.headId) operand.isFixed
  | .fixed id => OperationAt entries id .fixed true

/-- See `Flow.StoredIn`. The path goes on with `next`. -/
def Path.StoredIn (entries : List Entry) (next : Option Nat) : Path → Prop
  | .table id relation => StepAt entries id (.table relation) next
  | .reference id target => StepAt entries id (.reference target) next
  | .association init id column relation key =>
    init.StoredIn entries (some id) ∧ StepAt entries id (.association column relation key) next
  | .column init id name | .output init id name =>
    init.StoredIn entries (some id) ∧ StepAt entries id (.column name) next
  | .select init id outputs =>
    init.StoredIn entries (some id) ∧ outputs.StoredIn entries ∧
      StepAt entries id (.select outputs.heads) next
  | .filter init id inner =>
    init.StoredIn entries (some id) ∧ inner.StoredIn entries ∧
      StepAt entries id (.filter inner.headId) next

/-- See `Flow.StoredIn`. -/
def Outputs.StoredIn (entries : List Entry) : Outputs → Prop
  | .single inner => inner.StoredIn entries
  | .record fields => fields.StoredIn entries

/-- See `Flow.StoredIn`. -/
def FlowFields.StoredIn (entries : List Entry) : FlowFields → Prop
  | .nil => True
  | .cons _ inner rest => inner.StoredIn entries ∧ rest.StoredIn entries

end

/-! ## Places -/

/-- The entries of the block are listed one after the other, from the number `n` on. -/
def Placed (entries : List Entry) (n : Nat) (block : List Entry) : Prop :=
  ∀ (i : Nat) (entry : Entry), block[i]? = some entry → entries[n + i]? = some entry

theorem placed_self : Placed entries 0 entries := by
  intro i entry h
  rwa [Nat.zero_add]

theorem Placed.left (h : Placed entries n (block ++ rest)) : Placed entries n block := by
  intro i entry hi
  refine h i entry ?_
  obtain ⟨hlt, -⟩ := List.getElem?_eq_some_iff.1 hi
  rwa [List.getElem?_append_left hlt]

theorem Placed.right (h : Placed entries n (block ++ rest)) (hm : n + block.length = m) :
    Placed entries m rest := by
  intro i entry hi
  have hplace := h (block.length + i) entry
  rw [List.getElem?_append_right (Nat.le_add_right _ _), Nat.add_sub_cancel_left] at hplace
  rw [← hm, Nat.add_assoc]
  exact hplace hi

theorem Placed.entry {entry : Entry} (h : Placed entries n [entry]) :
    entries[n]? = some entry := h 0 entry rfl

theorem add_length_append {α : Type} {block rest : List α} (h : n + block.length = k)
    (hrest : k + rest.length = m) : n + (block ++ rest).length = m := by
  rw [List.length_append, ← Nat.add_assoc, h, hrest]

/-- The entries of the flow are listed under the numbers from `n` on, and `m` is the next one. -/
structure Flow.Listed (f : Flow) (n m : Nat) : Prop where
  length : ∀ parent, n + (f.entries parent).length = m
  stored : ∀ parent entries, Placed entries n (f.entries parent) → f.StoredIn entries

/-- See `Flow.Listed`. -/
structure Path.Listed (p : Path) (n m : Nat) : Prop where
  length : ∀ parent next, n + (p.entries parent next).length = m
  stored : ∀ parent next entries, Placed entries n (p.entries parent next) →
    p.StoredIn entries next

/-- See `Flow.Listed`. -/
structure Outputs.Listed (o : Outputs) (n m : Nat) : Prop where
  length : ∀ id, n + (o.entries id).length = m
  stored : ∀ id entries, Placed entries n (o.entries id) → o.StoredIn entries

/-- See `Flow.Listed`. -/
structure FlowFields.Listed (fs : FlowFields) (n m : Nat) : Prop where
  length : ∀ id, n + (fs.entries id).length = m
  stored : ∀ id entries, Placed entries n (fs.entries id) → fs.StoredIn entries

/-! ### Operands -/

namespace Flow

variable {lhs rhs operand : Flow} {p : Path}

theorem listed_fixed : (Flow.fixed n).Listed n (n + 1) :=
  ⟨fun _ => rfl, fun _ _ h => ⟨_, _, h.entry⟩⟩

theorem Listed.binary {op : BinaryOp} (hl : lhs.Listed n k) (hr : rhs.Listed k m) :
    (Flow.binary m op lhs rhs).Listed n (m + 1) := by
  have hlength : ∀ parent, n + (lhs.entries parent ++ rhs.entries parent).length = m :=
    fun parent => add_length_append (hl.length _) (hr.length _)
  refine ⟨fun parent => add_length_append (hlength _) rfl, ?_⟩
  intro parent entries h
  rw [Flow.entries] at h
  have hlhs := hl.stored _ _ h.left.left
  have hrhs := hr.stored _ _ (h.left.right (hl.length _))
  exact ⟨hlhs, hrhs, _, _, (h.right (hlength _)).entry⟩

theorem Listed.unary {op : UnaryOp} (h : operand.Listed n m) :
    (Flow.unary m op operand).Listed n (m + 1) := by
  refine ⟨fun parent => add_length_append (h.length _) rfl, ?_⟩
  intro parent entries hplaced
  rw [Flow.entries] at hplaced
  exact ⟨h.stored _ _ hplaced.left, _, _, (hplaced.right (h.length _)).entry⟩

theorem listed_path (h : p.Listed n m) : (Flow.path p).Listed n m :=
  ⟨fun parent => h.length parent none, fun parent => h.stored parent none⟩

end Flow

/-! ### Paths -/

namespace Path

variable {q : Path}

theorem listed_table {relation : String} : (Path.table n relation).Listed n (n + 1) :=
  ⟨fun _ _ => rfl, fun _ _ _ h => ⟨_, _, h.entry⟩⟩

theorem listed_reference {target : Nat} : (Path.reference n target).Listed n (n + 1) :=
  ⟨fun _ _ => rfl, fun _ _ _ h => ⟨_, _, h.entry⟩⟩

theorem entries_step {m' : Member} {parent : Option Nat} : (q.step m m').entries parent next =
    q.entries parent (some m) ++
      [{ kind := stepKind m', previous := some q.lastId, next, parent := none }] := by
  cases m' with
  | _ => rfl

theorem storedIn_step {m' : Member} : (q.step m m').StoredIn entries next ↔
    q.StoredIn entries (some m) ∧ StepAt entries m (stepKind m') next := by
  cases m' with
  | _ => rfl

theorem Listed.step {m' : Member} (h : q.Listed n m) : (q.step m m').Listed n (m + 1) := by
  refine ⟨?_, ?_⟩
  · intro parent next
    rw [entries_step]
    exact add_length_append (h.length _ _) rfl
  · intro parent next entries hplaced
    rw [entries_step] at hplaced
    rw [storedIn_step]
    exact ⟨h.stored _ _ _ hplaced.left, _, _, (hplaced.right (h.length _ _)).entry⟩

theorem Listed.filter {f : Flow} (h : q.Listed n k) (hf : f.Listed k m) :
    (Path.filter q m f).Listed n (m + 1) := by
  have hlength : ∀ parent, n + (q.entries parent (some m) ++ f.entries (some m)).length = m :=
    fun parent => add_length_append (h.length _ _) (hf.length _)
  refine ⟨fun parent next => add_length_append (hlength _) rfl, ?_⟩
  intro parent next entries hplaced
  rw [Path.entries] at hplaced
  have hq := h.stored _ _ _ hplaced.left.left
  have hinner := hf.stored _ _ (hplaced.left.right (h.length _ _))
  exact ⟨hq, hinner, _, _, (hplaced.right (hlength _)).entry⟩

theorem Listed.select {o : Outputs} (h : q.Listed n k) (ho : o.Listed k m) :
    (Path.select q m o).Listed n (m + 1) := by
  have hlength : ∀ parent, n + (q.entries parent (some m) ++ o.entries m).length = m :=
    fun parent => add_length_append (h.length _ _) (ho.length _)
  refine ⟨fun parent next => add_length_append (hlength _) rfl, ?_⟩
  intro parent next entries hplaced
  rw [Path.entries] at hplaced
  have hq := h.stored _ _ _ hplaced.left.left
  have houtputs := ho.stored _ _ (hplaced.left.right (h.length _ _))
  exact ⟨hq, houtputs, _, _, (hplaced.right (hlength _)).entry⟩

end Path

/-! ### Outputs -/

theorem Outputs.listed_single {f : Flow} (h : f.Listed n m) : (Outputs.single f).Listed n m :=
  ⟨fun id => h.length (some id), fun id => h.stored (some id)⟩

theorem Outputs.listed_record {fs : FlowFields} (h : fs.Listed n m) :
    (Outputs.record fs).Listed n m := ⟨h.length, h.stored⟩

theorem FlowFields.listed_nil : FlowFields.nil.Listed n n := ⟨fun _ => rfl, fun _ _ _ => trivial⟩

theorem FlowFields.Listed.cons {name : String} {f : Flow} {fs : FlowFields} (hf : f.Listed n k)
    (h : fs.Listed k m) : (FlowFields.cons name f fs).Listed n m := by
  refine ⟨fun id => add_length_append (hf.length _) (h.length _), ?_⟩
  intro id entries hplaced
  rw [FlowFields.entries] at hplaced
  exact ⟨hf.stored _ _ hplaced.left, h.stored _ _ (hplaced.right (hf.length _))⟩

/-! ## Numbered flows are listed -/

mutual

/-- What is numbered from `n` on is listed from `n` on. -/
theorem Flow.Numbered.listed {bound : List Nat} {f : Flow} {n m : Nat} :
    f.Numbered bound n m → f.Listed n m
  | .path h => Flow.listed_path h.listed
  | .binary hl hr => hl.listed.binary hr.listed
  | .unary h => h.listed.unary
  | .fixed => Flow.listed_fixed

/-- See `Flow.Numbered.listed`. -/
theorem Path.Numbered.listed {bound : List Nat} {p : Path} {n m : Nat} :
    p.Numbered bound n m → p.Listed n m
  | .table => Path.listed_table
  | .reference _ => Path.listed_reference
  | .step h => h.listed.step
  | .select h _ ho => h.listed.select ho.listed
  | .filter h _ hf => h.listed.filter hf.listed

/-- See `Flow.Numbered.listed`. -/
theorem Outputs.Numbered.listed {bound : List Nat} {o : Outputs} {n m : Nat} :
    o.Numbered bound n m → o.Listed n m
  | .single h => Outputs.listed_single h.listed
  | .record h => Outputs.listed_record h.listed

/-- See `Flow.Numbered.listed`. -/
theorem FlowFields.Numbered.listed {bound : List Nat} {fs : FlowFields} {n m : Nat} :
    fs.Numbered bound n m → fs.Listed n m
  | .nil => FlowFields.listed_nil
  | .cons hf h => .cons hf.listed h.listed

end

/-- The listing of a query has every step and operation under its number. -/
theorem Expr.storedIn_listing {e : Expr} {flow : NumberedPath} (h : e.toPath = .ok flow) :
    flow.path.StoredIn flow.path.listing none :=
  (Expr.numbered h).listed.stored none none _ placed_self

end FetchPlan
