import FetchPlan.Proofs.Flow.Linked
import FetchPlan.Proofs.JoinGraph.Targets
import Mathlib.Logic.Relation

/-!
# The flow of a query as a forest

The listing of a query is well linked (`Listing.Linked`), a walk along next steps and parts meets
every entry once, and every reference leads to an earlier step that gives rows and that a condition
or a projection around the reference is applied to (`Expr.wellFormed_listing`).
-/

namespace FetchPlan

variable {bound : List Nat} {n m k : Nat} {entries : List Entry} {next : Option Nat}

theorem Path.headId_step {p : Path} {m' : Member} : (p.step n m').headId = p.headId := by
  cases m' with
  | _ => rfl

/-! ## Walks -/

/-- A walk that starts with the entries in the first list meets those in the second one, in this
order: after an entry its parts, and then what comes after it. -/
inductive Listing.Walks (entries : List Entry) : List Nat → List Nat → Prop
  | done : Walks entries [] []
  | meet {i : Nat} {entry : Entry} {pending met : List Nat} (hentry : entries[i]? = some entry)
      (h : Walks entries (entry.parts ++ entry.after ++ pending) met) :
      Walks entries (i :: pending) (i :: met)

open Listing

/-- Started from `heads`, a walk meets the `numbers` before it goes on. -/
def Listing.Meets (entries : List Entry) (heads numbers pending met : List Nat) : Prop :=
  ∃ met', Walks entries (heads ++ pending) (met' ++ met) ∧ met'.Perm numbers

section Walks

variable {pending met numbers heads heads' numbers' : List Nat} {kind : EntryKind} {id : Nat}

theorem Listing.meets_nil (h : Walks entries pending met) : Meets entries [] [] pending met :=
  ⟨[], h, .nil⟩

/-- An entry is met before its parts. -/
theorem Listing.Meets.meet {entry : Entry} (hentry : entries[id]? = some entry)
    (h : Meets entries entry.parts numbers (entry.after ++ pending) met) :
    Meets entries [id] (numbers ++ [id]) pending met := by
  obtain ⟨met', hwalk, hperm⟩ := h
  rw [← List.append_assoc] at hwalk
  exact ⟨id :: met', .meet hentry hwalk,
    (hperm.cons id).trans (List.perm_append_singleton id numbers).symm⟩

/-- One walk after the other, the later one first. -/
theorem Listing.Meets.append
    (h : ∀ met', Walks entries (heads' ++ pending) (met' ++ met) →
      Meets entries heads numbers (heads' ++ pending) (met' ++ met))
    (h' : Meets entries heads' numbers' pending met) :
    Meets entries (heads ++ heads') (numbers ++ numbers') pending met := by
  obtain ⟨met', hwalk', hperm'⟩ := h'
  obtain ⟨met, hwalk, hperm⟩ := h met' hwalk'
  rw [← List.append_assoc, ← List.append_assoc] at hwalk
  exact ⟨met ++ met', hwalk, hperm.append hperm'⟩

/-- What comes before an entry is met before it. -/
theorem Listing.Meets.precede
    (h : ∀ met', Walks entries (id :: pending) met' → Meets entries heads numbers pending met')
    (h' : Meets entries [id] numbers' pending met) :
    Meets entries heads (numbers ++ numbers') pending met := by
  obtain ⟨met', hwalk', hperm'⟩ := h'
  obtain ⟨met, hwalk, hperm⟩ := h _ hwalk'
  rw [← List.append_assoc] at hwalk
  exact ⟨met ++ met', hwalk, hperm.append hperm'⟩

end Walks

mutual

/-- A walk from the head of a stored flow meets its steps and operations. -/
theorem Flow.Numbered.meets {bound : List Nat} {f : Flow} {n m : Nat} {entries : List Entry} :
    f.Numbered bound n m → f.StoredIn entries → ∀ {pending met}, Walks entries pending met →
      Meets entries [f.headId] f.numbers pending met
  | .path h, hstored, _, _, hwalk => h.meets hstored hwalk
  | .binary hl hr, ⟨hlhs, hrhs, _, _, hentry⟩, _, _, hwalk =>
    .meet hentry (.append (fun _ => hl.meets hlhs) (hr.meets hrhs hwalk))
  | .unary h, ⟨hoperand, _, _, hentry⟩, _, _, hwalk => .meet hentry (h.meets hoperand hwalk)
  | .fixed, ⟨_, _, hentry⟩, _, _, hwalk => .meet hentry (meets_nil hwalk)

/-- See `Flow.Numbered.meets`. The walk goes on with `next`. -/
theorem Path.Numbered.meets {bound : List Nat} {p : Path} {n m : Nat} {entries : List Entry}
    {next : Option Nat} : p.Numbered bound n m → p.StoredIn entries next → ∀ {pending met},
      Walks entries (next.toList ++ pending) met → Meets entries [p.headId] p.numbers pending met
  | .table, ⟨_, _, hentry⟩, _, _, hwalk => .meet hentry (meets_nil hwalk)
  | .reference _, ⟨_, _, hentry⟩, _, _, hwalk => .meet hentry (meets_nil hwalk)
  | .step (x := m') h, hstored, pending, met, hwalk => by
    obtain ⟨hq, _, _, hentry⟩ := Path.storedIn_step.1 hstored
    have hparts : Meets entries (Path.stepKind m').parts [] (next.toList ++ pending) met := by
      rw [Path.parts_stepKind]
      exact meets_nil hwalk
    rw [Path.headId_step, Path.numbers_step]
    exact .precede (fun _ => h.meets hq) (.meet hentry hparts)
  | .select h _ ho, ⟨hq, houtputs, _, _, hentry⟩, _, _, hwalk => by
    rw [Path.numbers, List.append_assoc]
    exact .precede (fun _ => h.meets hq) (.meet hentry (ho.meets houtputs hwalk))
  | .filter h _ hf, ⟨hq, hinner, _, _, hentry⟩, _, _, hwalk => by
    rw [Path.numbers, List.append_assoc]
    exact .precede (fun _ => h.meets hq) (.meet hentry (hf.meets hinner hwalk))

/-- See `Flow.Numbered.meets`. -/
theorem Outputs.Numbered.meets {bound : List Nat} {o : Outputs} {n m : Nat} {entries : List Entry} :
    o.Numbered bound n m → o.StoredIn entries → ∀ {pending met}, Walks entries pending met →
      Meets entries o.headIds o.numbers pending met
  | .single h, hstored, _, _, hwalk => h.meets hstored hwalk
  | .record h, hstored, _, _, hwalk => h.meets hstored hwalk

/-- See `Flow.Numbered.meets`. -/
theorem FlowFields.Numbered.meets {bound : List Nat} {fs : FlowFields} {n m : Nat}
    {entries : List Entry} : fs.Numbered bound n m → fs.StoredIn entries → ∀ {pending met},
      Walks entries pending met → Meets entries fs.headIds fs.numbers pending met
  | .nil, _, _, _, hwalk => meets_nil hwalk
  | .cons hf h, ⟨hinner, hrest⟩, _, _, hwalk =>
    show Meets _ ([_] ++ _) _ _ _ from
      .append (fun _ => hf.meets hinner) (h.meets hrest hwalk)

end

/-! ## Parts in the listing -/

/-- The kind of the last step of the path. -/
def Path.kind : Path → EntryKind
  | .table _ relation => .table relation
  | .reference _ target => .reference target
  | .association _ _ thisKey relation otherKey => .association thisKey relation otherKey
  | .column _ _ name | .output _ _ name => .column name
  | .select _ _ outputs => .select outputs.heads
  | .filter _ _ inner => .filter inner.headId

/-- The kind of the operation, or of the last step. -/
def Flow.kind : Flow → EntryKind
  | .path p => p.kind
  | .binary _ op lhs rhs => .binary op lhs.headId rhs.headId
  | .unary _ op operand => .unary op operand.headId
  | .fixed _ => .fixed

/-- The number of the operation, or of the last step. -/
def Flow.id : Flow → Nat
  | .path p => p.lastId
  | .binary id .. | .unary id .. | .fixed id => id

mutual

/-- The numbers of a flow are those of its parts. -/
theorem Flow.perm_parts : ∀ f : Flow, (f.parts.map Flow.id).Perm f.numbers
  | .path p => p.perm_parts
  | .binary id op lhs rhs => by
    rw [Flow.parts, List.map_cons, List.map_append]
    exact ((lhs.perm_parts.append rhs.perm_parts).cons id).trans
      (List.perm_append_singleton id _).symm
  | .unary id op operand =>
    (operand.perm_parts.cons id).trans (List.perm_append_singleton id _).symm
  | .fixed id => .refl [id]

/-- See `Flow.perm_parts`. -/
theorem Path.perm_parts : ∀ p : Path, (p.parts.map Flow.id).Perm p.numbers
  | .table id _ | .reference id _ => .refl [id]
  | .association init id .. | .column init id _ | .output init id _ =>
    (init.perm_parts.cons id).trans (List.perm_append_singleton id _).symm
  | .select init id outputs => by
    rw [Path.parts, List.map_cons, List.map_append]
    exact ((init.perm_parts.append outputs.perm_parts).cons id).trans
      (List.perm_append_singleton id _).symm
  | .filter init id inner => by
    rw [Path.parts, List.map_cons, List.map_append]
    exact ((init.perm_parts.append inner.perm_parts).cons id).trans
      (List.perm_append_singleton id _).symm

/-- See `Flow.perm_parts`. -/
theorem Outputs.perm_parts : ∀ o : Outputs, (o.parts.map Flow.id).Perm o.numbers
  | .single inner => inner.perm_parts
  | .record fields => fields.perm_parts

/-- See `Flow.perm_parts`. -/
theorem FlowFields.perm_parts : ∀ fs : FlowFields, (fs.parts.map Flow.id).Perm fs.numbers
  | .nil => .refl []
  | .cons _ inner rest => by
    rw [FlowFields.parts, List.map_append]
    exact inner.perm_parts.append rest.perm_parts

end

theorem Flow.id_mem_numbers {f part : Flow} (h : part ∈ f.parts) : part.id ∈ f.numbers :=
  f.perm_parts.mem_iff.1 (List.mem_map_of_mem h)

theorem Outputs.id_mem_numbers {o : Outputs} {part : Flow} (h : part ∈ o.parts) :
    part.id ∈ o.numbers := o.perm_parts.mem_iff.1 (List.mem_map_of_mem h)

/-- The part is listed under its number. -/
def Flow.ListedIn (entries : List Entry) (part : Flow) : Prop :=
  ∃ entry, entries[part.id]? = some entry ∧ entry.kind = part.kind

theorem StepAt.listedIn {p : Path} (h : StepAt entries p.lastId p.kind next) :
    (Flow.path p).ListedIn entries := by
  obtain ⟨_, _, hentry⟩ := h
  exact ⟨_, hentry, rfl⟩

theorem OperationAt.listedIn {f : Flow} {isFixed : Bool}
    (h : OperationAt entries f.id f.kind isFixed) : f.ListedIn entries := by
  obtain ⟨_, _, hentry⟩ := h
  exact ⟨_, hentry, rfl⟩

mutual

/-- The parts of a stored flow are listed. -/
theorem Flow.listedIn_parts {entries : List Entry} : ∀ f : Flow, f.StoredIn entries →
    ∀ part ∈ f.parts, part.ListedIn entries
  | .path p, h => p.listedIn_parts h
  | .binary _ _ lhs rhs, ⟨hl, hr, h⟩ => List.forall_mem_cons.2 ⟨h.listedIn,
      List.forall_mem_append.2 ⟨lhs.listedIn_parts hl, rhs.listedIn_parts hr⟩⟩
  | .unary _ _ operand, ⟨ho, h⟩ =>
    List.forall_mem_cons.2 ⟨h.listedIn, operand.listedIn_parts ho⟩
  | .fixed _, h => List.forall_mem_singleton.2 (OperationAt.listedIn (f := .fixed _) h)

/-- See `Flow.listedIn_parts`. -/
theorem Path.listedIn_parts {entries : List Entry} {next : Option Nat} : ∀ p : Path,
    p.StoredIn entries next → ∀ part ∈ p.parts, part.ListedIn entries
  | .table id relation, h =>
    List.forall_mem_singleton.2 (StepAt.listedIn (p := .table id relation) h)
  | .reference id target, h =>
    List.forall_mem_singleton.2 (StepAt.listedIn (p := .reference id target) h)
  | .association init _ _ _ _, ⟨hinit, h⟩ | .column init _ _, ⟨hinit, h⟩
  | .output init _ _, ⟨hinit, h⟩ =>
    List.forall_mem_cons.2 ⟨StepAt.listedIn h, init.listedIn_parts hinit⟩
  | .select init id outputs, ⟨hinit, houtputs, h⟩ => List.forall_mem_cons.2
      ⟨StepAt.listedIn (p := .select init id outputs) h, List.forall_mem_append.2
        ⟨init.listedIn_parts hinit, outputs.listedIn_parts houtputs⟩⟩
  | .filter init id inner, ⟨hinit, hinner, h⟩ => List.forall_mem_cons.2
      ⟨StepAt.listedIn (p := .filter init id inner) h, List.forall_mem_append.2
        ⟨init.listedIn_parts hinit, inner.listedIn_parts hinner⟩⟩

/-- See `Flow.listedIn_parts`. -/
theorem Outputs.listedIn_parts {entries : List Entry} : ∀ o : Outputs, o.StoredIn entries →
    ∀ part ∈ o.parts, part.ListedIn entries
  | .single inner, h => inner.listedIn_parts h
  | .record fields, h => fields.listedIn_parts h

/-- See `Flow.listedIn_parts`. -/
theorem FlowFields.listedIn_parts {entries : List Entry} : ∀ fs : FlowFields,
    fs.StoredIn entries → ∀ part ∈ fs.parts, part.ListedIn entries
  | .nil, _ => fun _ h => absurd h List.not_mem_nil
  | .cons _ inner rest, ⟨hinner, hrest⟩ => List.forall_mem_append.2
      ⟨inner.listedIn_parts hinner, rest.listedIn_parts hrest⟩

end

/-! ## Ways through the listing -/

/-- Conditions and projections are applied to the rows of the steps before them. -/
def EntryKind.isCall : EntryKind → Bool
  | select _ | filter _ => true
  | _ => false

namespace Listing

/-- `j` comes after `i`, or it is a part of it. -/
def Link (entries : List Entry) (i j : Nat) : Prop := next? entries i = some j ∨ j ∈ parts entries i

/-- The path of `i` goes on to `k`. -/
def Precedes (entries : List Entry) : Nat → Nat → Prop :=
  Relation.TransGen fun i j => next? entries i = some j

/-- The entry `i` is within `k`: a walk from a part of `k` leads to it. -/
def Encloses (entries : List Entry) (k i : Nat) : Prop :=
  ∃ part ∈ parts entries k, Relation.ReflTransGen (Link entries) part i

end Listing

theorem StepAt.next?_eq {id : Nat} {kind : EntryKind} (h : StepAt entries id kind next) :
    next? entries id = next := by
  obtain ⟨_, _, hentry⟩ := h
  rw [next?, hentry]
  rfl

theorem StepAt.parts_eq {id : Nat} {kind : EntryKind} (h : StepAt entries id kind next) :
    Listing.parts entries id = kind.parts := by
  obtain ⟨_, _, hentry⟩ := h
  rw [Listing.parts, hentry]
  rfl

theorem OperationAt.parts_eq {id : Nat} {kind : EntryKind} {isFixed : Bool}
    (h : OperationAt entries id kind isFixed) : Listing.parts entries id = kind.parts := by
  obtain ⟨_, _, hentry⟩ := h
  rw [Listing.parts, hentry]
  rfl

namespace Path

/-- A stored path goes on with `next` after its last step. -/
theorem next?_lastId : ∀ p : Path, p.StoredIn entries next → next? entries p.lastId = next
  | .table .., h | .reference .., h => h.next?_eq
  | .association .., h | .column .., h | .output .., h => h.2.next?_eq
  | .select .., h | .filter .., h => h.2.2.next?_eq

theorem stepIds_step {p : Path} {m' : Member} : (p.step n m').stepIds = p.stepIds ++ [n] := by
  cases m' with
  | _ => rfl

theorem stepIds_subset_numbers : ∀ p : Path, p.stepIds ⊆ p.numbers
  | .table .. | .reference .. => List.Subset.refl _
  | .association init .. | .column init .. | .output init .. =>
    List.append_subset.2 ⟨List.subset_append_of_subset_left _ init.stepIds_subset_numbers,
      List.subset_append_right _ _⟩
  | .select init .. | .filter init .. =>
    List.append_subset.2 ⟨List.subset_append_of_subset_left _
      (List.subset_append_of_subset_left _ init.stepIds_subset_numbers),
      List.subset_append_right _ _⟩

/-- Every step of a path precedes the step that the path goes on with. -/
theorem precedes : ∀ (p : Path) {k : Nat}, p.StoredIn entries (some k) →
    ∀ t ∈ p.stepIds, Precedes entries t k
  | .table .., k, h, t, ht | .reference .., k, h, t, ht => by
    obtain rfl := List.mem_singleton.1 ht
    exact .single h.next?_eq
  | .association init id .., k, ⟨hinit, h⟩, t, ht | .column init id _, k, ⟨hinit, h⟩, t, ht
  | .output init id _, k, ⟨hinit, h⟩, t, ht | .select init id _, k, ⟨hinit, _, h⟩, t, ht
  | .filter init id _, k, ⟨hinit, _, h⟩, t, ht => by
    rcases List.mem_append.1 ht with ht | ht
    · exact (init.precedes hinit t ht).tail h.next?_eq
    · obtain rfl := List.mem_singleton.1 ht
      exact .single h.next?_eq

end Path

/-- From one of the heads, a walk leads to each of the numbers. -/
def Listing.Reaches (entries : List Entry) (heads numbers : List Nat) : Prop :=
  ∀ i ∈ numbers, ∃ head ∈ heads, Relation.ReflTransGen (Link entries) head i

section Reaches

variable {heads heads' numbers numbers' : List Nat} {id : Nat}

theorem Listing.reaches_self : Listing.Reaches entries [id] [id] :=
  fun _ hi => ⟨id, List.mem_cons_self, List.mem_singleton.1 hi ▸ .refl⟩

/-- An operation leads to its operands. -/
theorem Listing.Reaches.close (h : Listing.Reaches entries (Listing.parts entries id) numbers) :
    Listing.Reaches entries [id] (numbers ++ [id]) := by
  intro i hi
  rcases List.mem_append.1 hi with hi | hi
  · obtain ⟨part, hpart, hreaches⟩ := h i hi
    exact ⟨id, List.mem_cons_self, .head (Or.inr hpart) hreaches⟩
  · exact Listing.reaches_self i hi

theorem Listing.Reaches.append (h : Listing.Reaches entries heads numbers)
    (h' : Listing.Reaches entries heads' numbers') :
    Listing.Reaches entries (heads ++ heads') (numbers ++ numbers') := by
  intro i hi
  rcases List.mem_append.1 hi with hi | hi
  · obtain ⟨head, hhead, hreaches⟩ := h i hi
    exact ⟨head, List.mem_append_left heads' hhead, hreaches⟩
  · obtain ⟨head, hhead, hreaches⟩ := h' i hi
    exact ⟨head, List.mem_append_right heads hhead, hreaches⟩

/-- A path leads from its head to its last step, and from there to the next one. -/
theorem Listing.Reaches.precede {p : Path} (hstored : p.StoredIn entries (some id))
    (h : Listing.Reaches entries [p.headId] p.numbers)
    (h' : Listing.Reaches entries [id] numbers') :
    Listing.Reaches entries [p.headId] (p.numbers ++ numbers') := by
  obtain ⟨_, hhead, hlast⟩ := h p.lastId p.lastId_mem_numbers
  obtain rfl := List.mem_singleton.1 hhead
  intro i hi
  rcases List.mem_append.1 hi with hi | hi
  · exact h i hi
  · obtain ⟨start, hstart, hreaches⟩ := h' i hi
    rw [List.mem_singleton.1 hstart] at hreaches
    have hstep : Link entries p.lastId id := Or.inl (p.next?_lastId hstored)
    exact ⟨p.headId, hhead, hlast.trans (.head hstep hreaches)⟩

end Reaches

mutual

/-- From the head of a stored flow, a walk leads to all its steps and operations. -/
theorem Flow.Numbered.reaches {bound : List Nat} {f : Flow} {n m : Nat} {entries : List Entry} :
    f.Numbered bound n m → f.StoredIn entries → Listing.Reaches entries [f.headId] f.numbers
  | .path h, hstored => h.reaches hstored
  | .binary hl hr, ⟨hlhs, hrhs, hop⟩ =>
    .close (hop.parts_eq ▸ (hl.reaches hlhs).append (hr.reaches hrhs))
  | .unary h, ⟨hoperand, hop⟩ => .close (hop.parts_eq ▸ h.reaches hoperand)
  | .fixed, _ => Listing.reaches_self

/-- See `Flow.Numbered.reaches`. -/
theorem Path.Numbered.reaches {bound : List Nat} {p : Path} {n m : Nat} {entries : List Entry}
    {next : Option Nat} : p.Numbered bound n m → p.StoredIn entries next →
      Listing.Reaches entries [p.headId] p.numbers
  | .table, _ | .reference _, _ => Listing.reaches_self
  | .step h, hstored => by
    rw [Path.headId_step, Path.numbers_step]
    have hq := (Path.storedIn_step.1 hstored).1
    exact .precede hq (h.reaches hq) Listing.reaches_self
  | .select h _ ho, ⟨hq, houtputs, hstep⟩ => by
    rw [Path.numbers, List.append_assoc]
    exact .precede hq (h.reaches hq) (.close (hstep.parts_eq ▸ ho.reaches houtputs))
  | .filter h _ hf, ⟨hq, hinner, hstep⟩ => by
    rw [Path.numbers, List.append_assoc]
    exact .precede hq (h.reaches hq) (.close (hstep.parts_eq ▸ hf.reaches hinner))

/-- See `Flow.Numbered.reaches`. -/
theorem Outputs.Numbered.reaches {bound : List Nat} {o : Outputs} {n m : Nat}
    {entries : List Entry} : o.Numbered bound n m → o.StoredIn entries →
      Listing.Reaches entries o.headIds o.numbers
  | .single h, hstored => h.reaches hstored
  | .record h, hstored => h.reaches hstored

/-- See `Flow.Numbered.reaches`. -/
theorem FlowFields.Numbered.reaches {bound : List Nat} {fs : FlowFields} {n m : Nat}
    {entries : List Entry} : fs.Numbered bound n m → fs.StoredIn entries →
      Listing.Reaches entries fs.headIds fs.numbers
  | .nil, _ => fun _ hi => absurd hi List.not_mem_nil
  | .cons hf h, ⟨hinner, hrest⟩ => (hf.reaches hinner).append (h.reaches hrest)

end

/-! ## References -/

/-- The last step of the path gives rows of its own. -/
inductive Path.GivesRows : Path → Prop
  | table {id : Nat} {relation : String} : GivesRows (.table id relation)
  | association {init : Path} {id : Nat} {column relation key : String} :
      GivesRows (.association init id column relation key)
  | output {init : Path} {id : Nat} {name : String} : GivesRows (.output init id name)
  | select {init : Path} {id : Nat} {outputs : Outputs} : GivesRows (.select init id outputs)

/-- The number is that of a step in the flow that gives rows. -/
def RowStep (parts : List Flow) (target : Nat) : Prop :=
  ∃ p : Path, .path p ∈ parts ∧ p.lastId = target ∧ p.GivesRows

theorem RowStep.mono {parts parts' : List Flow} {target : Nat} (h : RowStep parts target)
    (hparts : parts ⊆ parts') : RowStep parts' target := by
  obtain ⟨p, hp, hid, hrows⟩ := h
  exact ⟨p, hparts hp, hid, hrows⟩

/-- A parameter bound to a path stands for a step of this path that gives rows, or for what a
parameter from outside stands for. -/
theorem Path.Numbered.rowSource {bound : List Nat} {p : Path} {n m target : Nat} :
    p.Numbered bound n m → p.rowSource? = some target →
      target ∈ bound ∨ target ∈ p.stepIds ∧ RowStep p.parts target
  | .table, h => by
    obtain rfl := Option.some.inj h
    exact Or.inr ⟨List.mem_cons_self, _, List.mem_cons_self, rfl, .table⟩
  | .reference hbound, h => by
    obtain rfl := Option.some.inj h
    exact Or.inl hbound
  | .step (x := m') _, h => by
    rw [Path.stepIds_step, Path.parts_step]
    cases m' with
    | column name => cases h
    | projected name =>
      obtain rfl := Option.some.inj h
      exact Or.inr ⟨List.mem_append_right _ List.mem_cons_self, _, List.mem_cons_self, rfl, .output⟩
    | association a =>
      obtain rfl := Option.some.inj h
      exact Or.inr
        ⟨List.mem_append_right _ List.mem_cons_self, _, List.mem_cons_self, rfl, .association⟩
  | .select .., h => by
    obtain rfl := Option.some.inj h
    exact Or.inr ⟨List.mem_append_right _ List.mem_cons_self, _, List.mem_cons_self, rfl, .select⟩
  | .filter hp _ _, h => by
    refine (hp.rowSource h).imp_right fun hstep => ⟨List.mem_append_left _ hstep.1, ?_⟩
    exact hstep.2.mono fun _ hmem => List.mem_cons_of_mem _ (List.mem_append_left _ hmem)

/-- The parameters within a call stand for steps before its body. -/
theorem Path.Numbered.bound_lt {p : Path} {target : Nat} (h : p.Numbered bound n m)
    (hbound : ∀ id ∈ bound, id < n) (htarget : p.rowSource? = some target) :
    ∀ id ∈ target :: bound, id < m := by
  have hle : n ≤ m := h.ranges.le
  refine List.forall_mem_cons.2 ⟨?_, fun id hid => Nat.lt_of_lt_of_le (hbound id hid) hle⟩
  rcases h.rowSource htarget with hmem | ⟨hstep, -⟩
  · exact Nat.lt_of_lt_of_le (hbound target hmem) hle
  · exact (h.ranges.mem.1 (p.stepIds_subset_numbers hstep)).2

/-- A call that comes after the target encloses the reference. -/
def Listing.Binds (entries : List Entry) (target i : Nat) : Prop :=
  ∃ k kind next, StepAt entries k kind next ∧ kind.isCall ∧ Precedes entries target k ∧
    Encloses entries k i

/-- The references among the parts lead to earlier steps of `all` that give rows, namely to `bound`
or to what a call binds. -/
def ScopedIn (all : List Flow) (entries : List Entry) (bound : List Nat) (parts : List Flow) :
    Prop :=
  ∀ i target, .path (.reference i target) ∈ parts →
    target < i ∧ RowStep all target ∧ (target ∈ bound ∨ Listing.Binds entries target i)

/-- The steps that parameters from outside stand for. -/
def BoundBefore (all : List Flow) (bound : List Nat) (n : Nat) : Prop :=
  ∀ target ∈ bound, target < n ∧ RowStep all target

section Scoped

variable {all ps qs : List Flow} {f : Flow} {target : Nat}

theorem BoundBefore.mono (h : BoundBefore all bound n) (hle : n ≤ m) : BoundBefore all bound m :=
  fun target htarget => ⟨(h target htarget).1.trans_le hle, (h target htarget).2⟩

theorem ScopedIn.append (h : ScopedIn all entries bound ps) (h' : ScopedIn all entries bound qs) :
    ScopedIn all entries bound (ps ++ qs) :=
  fun i target hmem => (List.mem_append.1 hmem).elim (h i target) (h' i target)

theorem ScopedIn.cons (hf : ∀ i target, f ≠ .path (.reference i target))
    (h : ScopedIn all entries bound ps) : ScopedIn all entries bound (f :: ps) := by
  intro i target hmem
  rcases List.mem_cons.1 hmem with rfl | hmem
  · exact absurd rfl (hf i target)
  · exact h i target hmem

/-- What is bound within a call leads to a step that precedes it, or is bound outside. -/
theorem ScopedIn.call {p : Path} {id : Nat} {kind : EntryKind} {numbers : List Nat}
    (h : ScopedIn all entries (target :: bound) ps)
    (htarget : target ∈ bound ∨ target ∈ p.stepIds ∧ RowStep p.parts target)
    (hstored : p.StoredIn entries (some id)) (hstep : StepAt entries id kind next)
    (hcall : kind.isCall) (hreaches : Listing.Reaches entries kind.parts numbers)
    (hnumbers : ∀ part ∈ ps, part.id ∈ numbers) : ScopedIn all entries bound ps := by
  intro i target' hmem
  obtain ⟨hlt, hrows, hbinds⟩ := h i target' hmem
  refine ⟨hlt, hrows, ?_⟩
  rcases hbinds with hbound | hbinds
  · rcases List.mem_cons.1 hbound with rfl | hbound
    · refine htarget.imp_right fun hsteps => ?_
      have hencloses : Encloses entries id i := by
        rw [Encloses, hstep.parts_eq]
        exact hreaches i (hnumbers _ hmem)
      exact ⟨id, kind, next, hstep, hcall, p.precedes hstored target' hsteps.1, hencloses⟩
    · exact Or.inl hbound
  · exact Or.inr hbinds

/-- The step that a call binds its parameter to comes before the body of the call. -/
theorem BoundBefore.bind {p : Path} (h : BoundBefore all bound n) (hp : p.Numbered bound n k)
    (htarget : p.rowSource? = some target) (hall : p.parts ⊆ all) :
    BoundBefore all (target :: bound) k := by
  have hlt := hp.bound_lt (fun id hid => (h id hid).1) htarget
  refine List.forall_mem_cons.2 ⟨⟨hlt target List.mem_cons_self, ?_⟩, h.mono hp.ranges.le⟩
  rcases hp.rowSource htarget with hbound | ⟨-, hrows⟩
  · exact (h target hbound).2
  · exact hrows.mono hall

end Scoped

mutual

/-- The references of a numbered flow are scoped. -/
theorem Flow.Numbered.scoped {all : List Flow} {entries : List Entry} {bound : List Nat} {f : Flow}
    {n m : Nat} : f.Numbered bound n m → f.StoredIn entries → f.parts ⊆ all →
      BoundBefore all bound n → ScopedIn all entries bound f.parts
  | .path h, hstored, hall, hbound => h.scoped hstored hall hbound
  | .binary hl hr, ⟨hlhs, hrhs, _⟩, hall, hbound => by
    obtain ⟨hallLeft, hallRight⟩ := List.append_subset.1 (List.cons_subset.1 hall).2
    exact .cons (by simp) ((hl.scoped hlhs hallLeft hbound).append
      (hr.scoped hrhs hallRight (hbound.mono hl.ranges.le)))
  | .unary h, ⟨hoperand, _⟩, hall, hbound =>
    .cons (by simp) (h.scoped hoperand (List.cons_subset.1 hall).2 hbound)
  | .fixed, _, _, _ => .cons (by simp) fun _ _ hmem => absurd hmem List.not_mem_nil

/-- See `Flow.Numbered.scoped`. -/
theorem Path.Numbered.scoped {all : List Flow} {entries : List Entry} {bound : List Nat} {p : Path}
    {n m : Nat} {next : Option Nat} : p.Numbered bound n m → p.StoredIn entries next →
      p.parts ⊆ all → BoundBefore all bound n → ScopedIn all entries bound p.parts
  | .table, _, _, _ => .cons (by simp) fun _ _ hmem => absurd hmem List.not_mem_nil
  | .reference hmem, _, _, hbound => by
    intro i target htarget
    obtain ⟨rfl, rfl⟩ : i = n ∧ target = _ := by simpa [Path.parts] using htarget
    exact ⟨(hbound _ hmem).1, (hbound _ hmem).2, Or.inl hmem⟩
  | .step (x := m') h, hstored, hall, hbound => by
    rw [Path.parts_step] at hall ⊢
    refine .cons ?_ (h.scoped (Path.storedIn_step.1 hstored).1 (List.cons_subset.1 hall).2 hbound)
    cases m' with
    | _ => simp [Path.step]
  | .select h htarget ho, ⟨hq, houtputs, hstep⟩, hall, hbound => by
    obtain ⟨hallInit, hallOutputs⟩ := List.append_subset.1 (List.cons_subset.1 hall).2
    have hinner := ho.scoped houtputs hallOutputs (hbound.bind h htarget hallInit)
    exact .cons (by simp) ((h.scoped hq hallInit hbound).append
      (hinner.call (h.rowSource htarget) hq hstep rfl (ho.reaches houtputs)
        fun _ hmem => Outputs.id_mem_numbers hmem))
  | .filter h htarget hf, ⟨hq, hstored, hstep⟩, hall, hbound => by
    obtain ⟨hallInit, hallInner⟩ := List.append_subset.1 (List.cons_subset.1 hall).2
    have hinner := hf.scoped hstored hallInner (hbound.bind h htarget hallInit)
    exact .cons (by simp) ((h.scoped hq hallInit hbound).append
      (hinner.call (h.rowSource htarget) hq hstep rfl (hf.reaches hstored)
        fun _ hmem => Flow.id_mem_numbers hmem))

/-- See `Flow.Numbered.scoped`. -/
theorem Outputs.Numbered.scoped {all : List Flow} {entries : List Entry} {bound : List Nat}
    {o : Outputs} {n m : Nat} : o.Numbered bound n m → o.StoredIn entries → o.parts ⊆ all →
      BoundBefore all bound n → ScopedIn all entries bound o.parts
  | .single h, hstored, hall, hbound => h.scoped hstored hall hbound
  | .record h, hstored, hall, hbound => h.scoped hstored hall hbound

/-- See `Flow.Numbered.scoped`. -/
theorem FlowFields.Numbered.scoped {all : List Flow} {entries : List Entry} {bound : List Nat}
    {fs : FlowFields} {n m : Nat} : fs.Numbered bound n m → fs.StoredIn entries → fs.parts ⊆ all →
      BoundBefore all bound n → ScopedIn all entries bound fs.parts
  | .nil, _, _, _ => fun _ _ hmem => absurd hmem List.not_mem_nil
  | .cons hf h, ⟨hinner, hrest⟩, hall, hbound => by
    obtain ⟨hallInner, hallRest⟩ := List.append_subset.1 hall
    exact (hf.scoped hinner hallInner hbound).append
      (h.scoped hrest hallRest (hbound.mono hf.ranges.le))

end

/-! ## Listings of queries -/

theorem Listing.Walks.unique {pending met met' : List Nat} (h : Walks entries pending met)
    (h' : Walks entries pending met') : met = met' := by
  induction h generalizing met' with
  | done =>
    cases h' with
    | done => rfl
  | meet hentry _ ih =>
    cases h' with
    | meet hentry' hrest =>
      obtain rfl := Option.some.inj (hentry.symm.trans hentry')
      rw [ih hrest]

/-- The reference `i` leads to an earlier step that gives rows, and a call that comes after this
step encloses the reference. -/
def Listing.LeadsBack (all : List Flow) (entries : List Entry) (i target : Nat) : Prop :=
  target < i ∧
    (∃ p source, .path p ∈ all ∧ p.lastId = target ∧ p.GivesRows ∧ entries[target]? = some source ∧
      source.kind = p.kind) ∧
    ∃ k call, entries[k]? = some call ∧ call.kind.isCall ∧ Precedes entries target k ∧
      Encloses entries k i

/-- The entries of the steps and operations `all` are a forest that starts with a table: they are
linked in both directions, a walk from the first one meets each of them once, and references lead
back to the rows of a call around them. -/
structure Listing.WellFormed (all : List Flow) (entries : List Entry) : Prop where
  linked : Linked entries 0
  first : ∃ relation, (entries[0]?).map Entry.kind = some (.table relation)
  walk : ∃ met, Walks entries [0] met
  met_once : ∀ met, Walks entries [0] met → met.Perm (List.range entries.length)
  leadsBack : ∀ i entry target, entries[i]? = some entry → entry.kind = .reference target →
    LeadsBack all entries i target

namespace Path

variable {p : Path}

theorem eq_reference_of_kind {target : Nat} (h : p.kind = .reference target) :
    p = .reference p.lastId target := by
  cases p with
  | reference id target' =>
    obtain rfl := EntryKind.reference.inj h
    rfl
  | _ => cases h

theorem Numbered.numbers_eq (h : p.Numbered [] 0 m) : p.numbers = List.range p.listing.length := by
  obtain ⟨count, hnumbers, rfl⟩ := h.ranges
  have hlength : 0 + p.listing.length = 0 + count := h.listed.length none none
  rw [hnumbers, List.range_eq_range', Nat.add_left_cancel hlength]

theorem Numbered.linked_listing (h : p.Numbered [] 0 m) : Listing.Linked p.listing 0 := by
  have hblock := h.linked none none
  rw [h.headId_eq] at hblock
  exact linked_of_block hblock

theorem Numbered.meets_listing (h : p.Numbered [] 0 m) (hstored : p.StoredIn p.listing none) :
    ∃ met, Walks p.listing [0] met ∧ met.Perm (List.range p.listing.length) := by
  obtain ⟨met, hwalk, hperm⟩ : Meets p.listing [p.headId] p.numbers [] [] := h.meets hstored .done
  rw [List.append_nil, List.append_nil, h.headId_eq] at hwalk
  exact ⟨met, hwalk, h.numbers_eq ▸ hperm⟩

theorem Numbered.exists_part {i : Nat} (h : p.Numbered [] 0 m) (hi : i < p.listing.length) :
    ∃ part ∈ p.parts, part.id = i := by
  have hmem : i ∈ p.numbers := h.numbers_eq ▸ List.mem_range.2 hi
  exact List.mem_map.1 (p.perm_parts.mem_iff.2 hmem)

theorem Numbered.leadsBack {i target : Nat} {entry : Entry} (h : p.Numbered [] 0 m)
    (hstored : p.StoredIn p.listing none) (hentry : p.listing[i]? = some entry)
    (hkind : entry.kind = .reference target) : LeadsBack p.parts p.listing i target := by
  obtain ⟨hi, -⟩ := List.getElem?_eq_some_iff.1 hentry
  obtain ⟨part, hpart, rfl⟩ := h.exists_part hi
  obtain ⟨entry', hentry', hkind'⟩ := p.listedIn_parts hstored part hpart
  obtain rfl := Option.some.inj (hentry.symm.trans hentry')
  cases part with
  | path q =>
    have hq : q = .reference q.lastId target := eq_reference_of_kind (hkind'.symm.trans hkind)
    obtain ⟨hlt, ⟨source, hsource, rfl, hrows⟩, hbinds⟩ :=
      h.scoped hstored (List.Subset.refl _) (fun _ hmem => absurd hmem List.not_mem_nil)
        q.lastId target (hq ▸ hpart)
    obtain ⟨sourceEntry, hlisted⟩ := p.listedIn_parts hstored _ hsource
    obtain ⟨k, kind, next, ⟨previous, parent, hcall⟩, hbinds⟩ :=
      hbinds.resolve_left List.not_mem_nil
    exact ⟨hlt, ⟨source, sourceEntry, hsource, rfl, hrows, hlisted⟩, k, _, hcall, hbinds⟩
  | binary _ _ _ _ | unary _ _ _ | fixed _ => cases hkind'.symm.trans hkind

end Path

/-- The listing of every query that has a flow is well formed. -/
theorem Expr.wellFormed_listing {e : Expr} {flow : NumberedPath} (h : e.toPath = .ok flow) :
    Listing.WellFormed flow.path.parts flow.path.listing := by
  have hnumbered := Expr.numbered h
  have hstored := Expr.storedIn_listing h
  obtain ⟨relation, -, hfirst⟩ := Expr.head_listing h
  obtain ⟨met, hwalk, hperm⟩ := hnumbered.meets_listing hstored
  exact {
    linked := hnumbered.linked_listing
    first := ⟨relation, hfirst⟩
    walk := ⟨met, hwalk⟩
    met_once := fun met' hwalk' => hwalk.unique hwalk' ▸ hperm
    leadsBack := fun _ _ _ hentry hkind => hnumbered.leadsBack hstored hentry hkind }

theorem Expr.wellFormed_listing_returningOrders : ∃ flow,
    JoinGraph.returningOrders.toPath = .ok flow ∧
      Listing.WellFormed flow.path.parts flow.path.listing := by
  have hcheck : (JoinGraph.returningOrders.toPath >>= fun _ => .ok ()) = .ok () := by
    decide +kernel
  obtain ⟨flow, hflow, -⟩ := bind_eq_ok.1 hcheck
  exact ⟨flow, hflow, wellFormed_listing hflow⟩

end FetchPlan
