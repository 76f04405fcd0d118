import FetchPlan.Proofs.Flow.Numbering

/-!
# Numbered flows

What the numbering of a query says about its flow, without the query: the steps and operations are
numbered one after the other, the parts of each before it, and a reference leads to a step that a
lambda around it binds its parameter to (`Shape.numbered_of_run`).
-/

namespace FetchPlan

variable {bound : List Nat} {scope : Scope} {n m : Nat} {f : Flow} {p : Path} {o : Outputs}
  {fs : FlowFields}

/-! ## Parts -/

mutual

/-- All parts of the flow. Each step of a path counts as the path up to this step. -/
def Flow.parts : Flow → List Flow
  | .path p => p.parts
  | .binary id op lhs rhs => .binary id op lhs rhs :: (lhs.parts ++ rhs.parts)
  | .unary id op operand => .unary id op operand :: operand.parts
  | .fixed id => [.fixed id]

/-- See `Flow.parts`. -/
def Path.parts : Path → List Flow
  | .table id relation => [.path (.table id relation)]
  | .reference id target => [.path (.reference id target)]
  | .association init id column relation key =>
    .path (.association init id column relation key) :: init.parts
  | .column init id name => .path (.column init id name) :: init.parts
  | .output init id name => .path (.output init id name) :: init.parts
  | .select init id outputs => .path (.select init id outputs) :: (init.parts ++ outputs.parts)
  | .filter init id inner => .path (.filter init id inner) :: (init.parts ++ inner.parts)

/-- See `Flow.parts`. -/
def Outputs.parts : Outputs → List Flow
  | .single inner => inner.parts
  | .record fields => fields.parts

/-- See `Flow.parts`. -/
def FlowFields.parts : FlowFields → List Flow
  | .nil => []
  | .cons _ inner rest => inner.parts ++ rest.parts

end

theorem Path.parts_step {m' : Member} :
    (p.step n m').parts = .path (p.step n m') :: p.parts := by
  cases m' with
  | _ => rfl

/-- The parts of these parts are among them. -/
def PartsClosed (parts : List Flow) : Prop := ∀ part ∈ parts, part.parts ⊆ parts

section PartsClosed

variable {ps qs : List Flow}

theorem partsClosed_nil : PartsClosed [] := fun _ h => absurd h List.not_mem_nil

theorem PartsClosed.append (h : PartsClosed ps) (h' : PartsClosed qs) : PartsClosed (ps ++ qs) := by
  intro part hpart
  rcases List.mem_append.1 hpart with hpart | hpart
  · exact List.subset_append_of_subset_left qs (h part hpart)
  · exact List.subset_append_of_subset_right ps (h' part hpart)

theorem PartsClosed.cons (h : PartsClosed ps) (hf : f.parts = f :: ps) :
    PartsClosed (f :: ps) := by
  intro part hpart
  rcases List.mem_cons.1 hpart with rfl | hpart
  · rw [hf]
    exact List.Subset.refl _
  · exact List.subset_cons_of_subset f (h part hpart)

end PartsClosed

mutual

/-- The parts of a part are parts of the flow. -/
theorem Flow.partsClosed : ∀ f : Flow, PartsClosed f.parts
  | .path p => p.partsClosed
  | .binary _ _ lhs rhs => (lhs.partsClosed.append rhs.partsClosed).cons rfl
  | .unary _ _ operand => operand.partsClosed.cons rfl
  | .fixed _ => partsClosed_nil.cons rfl

/-- See `Flow.partsClosed`. -/
theorem Path.partsClosed : ∀ p : Path, PartsClosed p.parts
  | .table .. | .reference .. => partsClosed_nil.cons rfl
  | .association init .. | .column init .. | .output init .. => init.partsClosed.cons rfl
  | .select init _ outputs => (init.partsClosed.append outputs.partsClosed).cons rfl
  | .filter init _ inner => (init.partsClosed.append inner.partsClosed).cons rfl

/-- See `Flow.partsClosed`. -/
theorem Outputs.partsClosed : ∀ o : Outputs, PartsClosed o.parts
  | .single inner => inner.partsClosed
  | .record fields => fields.partsClosed

/-- See `Flow.partsClosed`. -/
theorem FlowFields.partsClosed : ∀ fs : FlowFields, PartsClosed fs.parts
  | .nil => partsClosed_nil
  | .cons _ inner rest => inner.partsClosed.append rest.partsClosed

end

mutual

/-- The numbers of the steps and operations of the flow, as they were given. -/
def Flow.numbers : Flow → List Nat
  | .path p => p.numbers
  | .binary id _ lhs rhs => lhs.numbers ++ rhs.numbers ++ [id]
  | .unary id _ operand => operand.numbers ++ [id]
  | .fixed id => [id]

/-- See `Flow.numbers`. -/
def Path.numbers : Path → List Nat
  | .table id _ | .reference id _ => [id]
  | .association init id .. | .column init id _ | .output init id _ => init.numbers ++ [id]
  | .select init id outputs => init.numbers ++ outputs.numbers ++ [id]
  | .filter init id inner => init.numbers ++ inner.numbers ++ [id]

/-- See `Flow.numbers`. -/
def Outputs.numbers : Outputs → List Nat
  | .single inner => inner.numbers
  | .record fields => fields.numbers

/-- See `Flow.numbers`. -/
def FlowFields.numbers : FlowFields → List Nat
  | .nil => []
  | .cons _ inner rest => inner.numbers ++ rest.numbers

end

theorem Path.numbers_step {m' : Member} : (p.step n m').numbers = p.numbers ++ [n] := by
  cases m' with
  | _ => rfl

theorem Path.lastId_step {m' : Member} : (p.step n m').lastId = n := by
  cases m' with
  | _ => rfl

theorem Path.lastId_mem_numbers (p : Path) : p.lastId ∈ p.numbers := by
  cases p with
  | table | reference => exact List.mem_cons_self
  | association | column | output | select | filter =>
    exact List.mem_append_right _ List.mem_cons_self

/-! ## Numbers -/

mutual

/-- The flow is numbered from `n` on, and `m` is the next number. Parameters from outside stand for
the steps `bound`. -/
inductive Flow.Numbered : List Nat → Flow → Nat → Nat → Prop
  | path {bound : List Nat} {p : Path} {n m : Nat} (h : Path.Numbered bound p n m) :
      Flow.Numbered bound (.path p) n m
  | binary {bound : List Nat} {op : BinaryOp} {lhs rhs : Flow} {n k m : Nat}
      (hl : Flow.Numbered bound lhs n k) (hr : Flow.Numbered bound rhs k m) :
      Flow.Numbered bound (.binary m op lhs rhs) n (m + 1)
  | unary {bound : List Nat} {op : UnaryOp} {operand : Flow} {n m : Nat}
      (h : Flow.Numbered bound operand n m) : Flow.Numbered bound (.unary m op operand) n (m + 1)
  | fixed {bound : List Nat} {n : Nat} : Flow.Numbered bound (.fixed n) n (n + 1)

/-- See `Flow.Numbered`. -/
inductive Path.Numbered : List Nat → Path → Nat → Nat → Prop
  | table {bound : List Nat} {relation : String} {n : Nat} :
      Path.Numbered bound (.table n relation) n (n + 1)
  | reference {bound : List Nat} {n target : Nat} (h : target ∈ bound) :
      Path.Numbered bound (.reference n target) n (n + 1)
  | step {bound : List Nat} {p : Path} {n m : Nat} {x : Member} (h : Path.Numbered bound p n m) :
      Path.Numbered bound (p.step m x) n (m + 1)
  | select {bound : List Nat} {p : Path} {o : Outputs} {target n k m : Nat}
      (h : Path.Numbered bound p n k) (htarget : p.rowSource? = some target)
      (ho : Outputs.Numbered (target :: bound) o k m) :
      Path.Numbered bound (.select p m o) n (m + 1)
  | filter {bound : List Nat} {p : Path} {f : Flow} {target n k m : Nat}
      (h : Path.Numbered bound p n k) (htarget : p.rowSource? = some target)
      (hf : Flow.Numbered (target :: bound) f k m) :
      Path.Numbered bound (.filter p m f) n (m + 1)

/-- See `Flow.Numbered`. -/
inductive Outputs.Numbered : List Nat → Outputs → Nat → Nat → Prop
  | single {bound : List Nat} {f : Flow} {n m : Nat} (h : Flow.Numbered bound f n m) :
      Outputs.Numbered bound (.single f) n m
  | record {bound : List Nat} {fs : FlowFields} {n m : Nat} (h : FlowFields.Numbered bound fs n m) :
      Outputs.Numbered bound (.record fs) n m

/-- See `Flow.Numbered`. -/
inductive FlowFields.Numbered : List Nat → FlowFields → Nat → Nat → Prop
  | nil {bound : List Nat} {n : Nat} : FlowFields.Numbered bound .nil n n
  | cons {bound : List Nat} {name : String} {f : Flow} {fs : FlowFields} {n k m : Nat}
      (hf : Flow.Numbered bound f n k) (h : FlowFields.Numbered bound fs k m) :
      FlowFields.Numbered bound (.cons name f fs) n m

end

/-- Parameters stand for the steps that the scope gives for them. -/
theorem Scope.mem_of_resolve? {x : String} {target : Nat} (h : scope.resolve? x = some target) :
    target ∈ scope.map Prod.snd := by
  induction scope with
  | nil => exact absurd h (by simp [Scope.resolve?])
  | cons binding scope ih =>
    obtain ⟨y, bound⟩ := binding
    rw [Scope.resolve?, List.lookup_cons] at h
    split at h
    · obtain rfl := Option.some.inj h
      exact List.mem_cons_self
    · exact List.mem_cons_of_mem _ (ih h)

mutual

/-- Every operand that is numbered is numbered like this. -/
theorem Shape.numbered_of_run : ∀ (shape : Shape) {scope : Scope} {n m : Nat} {f : Flow},
    (shape.flow scope).run n = .ok (f, m) → f.Numbered (scope.map Prod.snd) n m
  | .literal, scope, n, m, f, h => by
    obtain ⟨rfl, rfl⟩ := Shape.run_flow_literal.1 h
    exact .fixed
  | .captured, scope, n, m, f, h => by
    obtain ⟨rfl, rfl⟩ := Shape.run_flow_captured.1 h
    exact .fixed
  | .binary op lhs rhs, scope, n, m, f, h => by
    obtain ⟨-, f₁, k₁, f₂, k₂, hleft, hright, rfl, rfl⟩ := Shape.run_flow_binary.1 h
    exact .binary (lhs.numbered_of_run hleft) (rhs.numbered_of_run hright)
  | .unary op operand, scope, n, m, f, h => by
    obtain ⟨-, f', k, hoperand, rfl, rfl⟩ := Shape.run_flow_unary.1 h
    exact .unary (operand.numbered_of_run hoperand)
  | .chain c, scope, n, m, f, h => by
    obtain ⟨p, hp, rfl⟩ := Shape.run_flow_chain.1 h
    exact .path (c.numbered_of_run hp)
  | .lambda .., _, _, _, _, h => absurd h not_run_throw
  | .record _, _, _, _, _, h => absurd h not_run_throw
  | .converted _, _, _, _, _, h => absurd h not_run_throw
  | .broken _, _, _, _, _, h => absurd h not_run_throw

/-- See `Shape.numbered_of_run`. -/
theorem Chain.numbered_of_run : ∀ (c : Chain) {scope : Scope} {n m : Nat} {p : Path},
    (c.path scope).run n = .ok (p, m) → p.Numbered (scope.map Prod.snd) n m
  | .table relation, scope, n, m, p, h => by
    obtain ⟨rfl, rfl⟩ := Chain.run_path_table.1 h
    exact .table
  | .param x, scope, n, m, p, h => by
    obtain ⟨target, htarget, rfl, rfl⟩ := Chain.run_path_param.1 h
    exact .reference (Scope.mem_of_resolve? htarget)
  | .member source m', scope, n, m, p, h => by
    obtain ⟨q, k, hq, -, rfl, rfl⟩ := Chain.run_path_member.1 h
    exact .step (source.numbered_of_run hq)
  | .bare source _, scope, n, m, p, h => by
    rw [Chain.path] at h
    exact source.numbered_of_run h
  | .narrow source _ x body, scope, n, m, p, h => by
    obtain ⟨q, k, target, f, k', hq, htarget, -, hf, rfl, rfl⟩ := Chain.run_path_narrow.1 h
    exact .filter (source.numbered_of_run hq) htarget (body.numbered_of_run hf)
  | .project source _ x body, scope, n, m, p, h => by
    obtain ⟨q, k, target, outputs, k', hq, htarget, -, houtputs, rfl, rfl⟩ :=
      Chain.run_path_project.1 h
    match body, houtputs with
    | body, .single hf =>
      exact .select (source.numbered_of_run hq) htarget (.single (body.numbered_of_run hf))
    | .record fields, .record hfs =>
      exact .select (source.numbered_of_run hq) htarget (.record (fields.numbered_of_run hfs))

/-- See `Shape.numbered_of_run`. -/
theorem ShapeFields.numbered_of_run : ∀ (fields : ShapeFields) {scope : Scope} {n m : Nat}
    {fs : FlowFields}, (fields.flows scope).run n = .ok (fs, m) →
      fs.Numbered (scope.map Prod.snd) n m
  | .nil, scope, n, m, fs, h => by
    obtain ⟨rfl, rfl⟩ := ShapeFields.run_flows_nil.1 h
    exact .nil
  | .cons name value rest, scope, n, m, fs, h => by
    obtain ⟨f, k, fs', hf, hfs, rfl⟩ := ShapeFields.run_flows_cons.1 h
    exact .cons (value.numbered_of_run hf) (rest.numbered_of_run hfs)

end

/-- A query is numbered from zero. -/
theorem Expr.numbered {e : Expr} {flow : NumberedPath} (h : e.toPath = .ok flow) :
    flow.path.Numbered [] 0 flow.count := by
  obtain ⟨c, -, -, hp⟩ := toPath_eq_ok.1 h
  exact c.numbered_of_run hp

/-- A path starts with the step that is numbered first. -/
theorem Path.Numbered.headId_eq {bound : List Nat} {p : Path} {n m : Nat} :
    p.Numbered bound n m → p.headId = n
  | .table | .reference _ => rfl
  | .step (x := x) h => by
    cases x with
    | _ => exact h.headId_eq
  | .select h _ _ => h.headId_eq
  | .filter h _ _ => h.headId_eq

/-! ## Ranges of numbers -/

/-- The numbers from `n` on, up to the one before `m`. -/
def Ranges (numbers : List Nat) (n m : Nat) : Prop :=
  ∃ count, numbers = List.range' n count ∧ m = n + count

namespace Ranges

variable {numbers numbers' : List Nat} {k : Nat}

theorem nil : Ranges [] n n := ⟨0, rfl, rfl⟩

theorem single : Ranges [n] n (n + 1) := ⟨1, rfl, rfl⟩

theorem append (h : Ranges numbers n k) (h' : Ranges numbers' k m) :
    Ranges (numbers ++ numbers') n m := by
  obtain ⟨count, rfl, rfl⟩ := h
  obtain ⟨count', rfl, rfl⟩ := h'
  exact ⟨count + count', by rw [List.range'_append_1], Nat.add_assoc n count count'⟩

theorem mem (h : Ranges numbers n m) {i : Nat} : i ∈ numbers ↔ n ≤ i ∧ i < m := by
  obtain ⟨count, rfl, rfl⟩ := h
  rw [List.mem_range'_1]

theorem le (h : Ranges numbers n m) : n ≤ m := by
  obtain ⟨count, -, rfl⟩ := h
  exact Nat.le_add_right n count

end Ranges

mutual

/-- The numbers of a flow follow one another. -/
theorem Flow.Numbered.ranges {bound : List Nat} {f : Flow} {n m : Nat} :
    f.Numbered bound n m → Ranges f.numbers n m
  | .path h => h.ranges
  | .binary hl hr => (hl.ranges.append hr.ranges).append .single
  | .unary h => h.ranges.append .single
  | .fixed => .single

/-- See `Flow.Numbered.ranges`. -/
theorem Path.Numbered.ranges {bound : List Nat} {p : Path} {n m : Nat} :
    p.Numbered bound n m → Ranges p.numbers n m
  | .table => .single
  | .reference _ => .single
  | .step h => Path.numbers_step ▸ h.ranges.append .single
  | .select h _ ho => (h.ranges.append ho.ranges).append .single
  | .filter h _ hf => (h.ranges.append hf.ranges).append .single

/-- See `Flow.Numbered.ranges`. -/
theorem Outputs.Numbered.ranges {bound : List Nat} {o : Outputs} {n m : Nat} :
    o.Numbered bound n m → Ranges o.numbers n m
  | .single h => h.ranges
  | .record h => h.ranges

/-- See `Flow.Numbered.ranges`. -/
theorem FlowFields.Numbered.ranges {bound : List Nat} {fs : FlowFields} {n m : Nat} :
    fs.Numbered bound n m → Ranges fs.numbers n m
  | .nil => .nil
  | .cons hf h => hf.ranges.append h.ranges

end

theorem Path.Numbered.lastId_lt {bound : List Nat} {p : Path} {n m : Nat}
    (h : p.Numbered bound n m) : p.lastId < m := (h.ranges.mem.1 p.lastId_mem_numbers).2

end FetchPlan
