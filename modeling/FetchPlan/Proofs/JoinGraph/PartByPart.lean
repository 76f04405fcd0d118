import FetchPlan.Proofs.Flow.Scoped
import FetchPlan.Proofs.JoinGraph.Built
import FetchPlan.Proofs.JoinGraph.Oriented

/-!
# What a graph says, part by part

Each association, column and equality of a query says something of the graph (`Draft.Tells`), and
the graph of the query says nothing else (`JoinGraph.holds_ofPath`). What the parts say depends on
what the steps stand for, and this is related step by step (`Draft.Explains`).
-/

namespace FetchPlan

open Building JoinGraph

variable {s : Schema} {n m k a b id : Nat} {d d' e D : Draft} {f part : Flow} {p q : Path}
  {g g' : JoinGraph} {r v w : Resolved} {fields otherFields : List String} {ps qs : List Flow}
  {bound : List Nat} {fact : Fact} {ns : List (Nat × Resolved)}

/-! ## Comparisons -/

namespace Resolved

/-- A side of an equality compares the fields of one node. -/
theorem Compares.unique (h : v.Compares s g a fields) (h' : v.Compares s g b otherFields) :
    a = b ∧ fields = otherFields := by
  have hside : Yields (side s v) ⟨g, []⟩ (a, fields) ⟨g, []⟩ := yields_side.2 ⟨h, rfl⟩
  have hside' : Yields (side s v) ⟨g, []⟩ (b, otherFields) ⟨g, []⟩ := yields_side.2 ⟨h', rfl⟩
  exact Prod.mk.inj (hside.unique hside').1

theorem Grounded.lt {hop : Option Hop} (h : Resolved.Grounded s g (.rows a hop)) :
    a < g.size := by
  cases h with
  | rows lt _ => exact lt

/-- What a side compares depends on the relation of its node. -/
theorem Grounded.compares_iff (h : v.Grounded s g) (hg : g.Continues g') :
    v.Compares s g' a fields ↔ v.Compares s g a fields := by
  constructor
  · intro hc
    cases hc with
    | hop => exact .hop
    | key eq =>
      cases h with
      | rows lt _ => exact .key (hg.relation _ lt ▸ eq)
    | known eq =>
      cases h with
      | field lt _ _ => exact .known (hg.relation _ lt ▸ eq)
    | field other =>
      cases h with
      | field lt _ _ => exact .field (hg.relation _ lt ▸ other)
  · intro hc
    cases hc with
    | hop => exact .hop
    | key eq =>
      cases h with
      | rows lt _ => exact .key ((hg.relation _ lt).symm ▸ eq)
    | known eq =>
      cases h with
      | field lt _ _ => exact .known ((hg.relation _ lt).symm ▸ eq)
    | field other =>
      cases h with
      | field lt _ _ => exact .field ((hg.relation _ lt).symm ▸ other)

end Resolved

/-! ## What parts say -/

namespace Draft

/-- What the step stands for. -/
def value (d : Draft) (id : Nat) : Resolved := (d.sources.lookup id).getD .scalar

/-- What the part stands for follows from what the steps before it stand for, and the sides of an
equality compare equally many fields. -/
def Explains (s : Schema) (d : Draft) : Flow → Prop
  | .path (.reference id target) => d.value id = (d.value target).bound
  | .path (.association init id column _ key) => ∃ a hop b,
    d.value init.lastId = .rows a hop ∧ d.value id = .rows b (some ⟨a, column, key⟩)
  | .path (.column init id name) | .path (.output init id name) =>
    (∃ a hop, d.value init.lastId = .rows a hop ∧ d.value id = .field a name hop) ∨
      ∃ outputs, d.value init.lastId = .record outputs ∧ outputs.lookup name = some (d.value id)
  | .path (.filter init id _) => d.value id = d.value init.lastId
  | .binary _ op lhs rhs => ∀ p q, op = .eq → lhs = .path p → rhs = .path q →
    ∃ a fields b otherFields, (d.value p.lastId).Compares s d.graph a fields ∧
      (d.value q.lastId).Compares s d.graph b otherFields ∧ fields.length = otherFields.length
  | _ => True

/-- The part of the query says this of the graph. -/
inductive Tells (s : Schema) (d : Draft) : Flow → Fact → Prop
  /-- The rows that an association leads to are joined with those that it is followed from. -/
  | follow {init : Path} {id a b : Nat} {column relation key : String} {hop hop' : Option Hop}
      {fact : Fact} (source : d.value init.lastId = .rows a hop)
      (value : d.value id = .rows b hop') (told : Fact.Equality a [column] b [key] fact) :
      Tells s d (.path (.association init id column relation key)) fact
  /-- A column that is read is used. -/
  | column {init : Path} {id a : Nat} {name : String} {hop : Option Hop}
      (source : d.value init.lastId = .rows a hop) :
      Tells s d (.path (.column init id name)) (.used a name)
  | output {init : Path} {id a : Nat} {name : String} {hop : Option Hop}
      (source : d.value init.lastId = .rows a hop) :
      Tells s d (.path (.output init id name)) (.used a name)
  /-- What the sides of an equality compare is equal. -/
  | equality {id a b : Nat} {p q : Path} {fields otherFields : List String} {fact : Fact}
      (left : (d.value p.lastId).Compares s d.graph a fields)
      (right : (d.value q.lastId).Compares s d.graph b otherFields)
      (told : Fact.Equality a fields b otherFields fact) :
      Tells s d (.binary id .eq (.path p) (.path q)) fact

/-- The draft `D` is a later one: nodes have been added, and steps from `m` on noted. -/
structure Leads (m : Nat) (d D : Draft) : Prop where
  kept : ∀ id < m, D.value id = d.value id
  continues : d.graph.Continues D.graph

/-- From one draft to the other, the steps from `n` on to `m` have been noted, and the graph says
what the parts say in any later draft. -/
structure Accounts (s : Schema) (parts : List Flow) (n m : Nat) (d d' : Draft) : Prop where
  keeps : Keeps n m d d'
  explains : ∀ D, Leads m d' D → ∀ part ∈ parts, D.Explains s part
  grown : ∀ D, Leads m d' D →
    d.graph.Grown (fun fact => ∃ part ∈ parts, D.Tells s part fact) d'.graph

theorem Leads.refl : Leads m d d := ⟨fun _ _ => rfl, .refl⟩

theorem Keeps.value_eq (h : Keeps n m d d') {id : Nat} (hid : id < n) : d'.value id = d.value id :=
  congrArg (Option.getD · Resolved.scalar) (h.kept id hid)

theorem value_note : value ⟨g, (n, r) :: d.sources⟩ n = r :=
  congrArg (Option.getD · Resolved.scalar) List.lookup_cons_self

theorem Leads.value_note (h : Leads (n + 1) ⟨g, (n, r) :: d.sources⟩ D) : D.value n = r :=
  (h.kept n (Nat.lt_succ_self n)).trans Draft.value_note

/-- A draft that is later than the second one is later than the first one. -/
theorem Accounts.leads (h : Accounts s ps n m d d') (hD : Leads m d' D) : Leads n d D where
  kept id hid := (hD.kept id (Nat.lt_of_lt_of_le hid h.keeps.le)).trans (h.keeps.value_eq hid)
  continues := (h.grown D hD).continues.trans hD.continues

theorem Accounts.wired (h : Accounts s ps n m d d') : d'.graph.Wired := (h.grown d' .refl).wired

theorem accounts_nil (hw : d.graph.Wired) : Accounts s [] n n d d where
  keeps := .refl
  explains _ _ _ hpart := absurd hpart List.not_mem_nil
  grown _ _ := (Grown.refl hw).congr fun _ => by simp [Fact.none]

theorem Accounts.append (h : Accounts s ps n k d e) (h' : Accounts s qs k m e d') :
    Accounts s (ps ++ qs) n m d d' where
  keeps := h.keeps.trans h'.keeps
  explains D hD := List.forall_mem_append.2 ⟨h.explains D (h'.leads hD), h'.explains D hD⟩
  grown D hD := ((h.grown D (h'.leads hD)).trans (h'.grown D hD)).congr fun _ => by
    simp only [List.mem_append, or_and_right, exists_or]

/-- A step or an operation is numbered after its parts. -/
theorem Accounts.close (h : Accounts s ps n k d e) (h' : Accounts s [f] k m e d') :
    Accounts s (f :: ps) n m d d' where
  keeps := h.keeps.trans h'.keeps
  explains D hD := List.forall_mem_cons.2 ⟨h'.explains D hD f List.mem_cons_self,
    h.explains D (h'.leads hD)⟩
  grown D hD := ((h.grown D (h'.leads hD)).trans (h'.grown D hD)).congr fun _ => by
    rw [List.exists_mem_cons_iff, or_comm]
    simp

/-- What is added in one step is what the part says. -/
theorem accounts_singleton (keeps : Keeps n m d d')
    (explains : ∀ D, Leads m d' D → D.Explains s f) {F : Fact → Prop}
    (grown : d.graph.Grown F d'.graph)
    (told : ∀ D, Leads m d' D → ∀ fact, F fact ↔ D.Tells s f fact) : Accounts s [f] n m d d' where
  keeps := keeps
  explains D hD := List.forall_mem_singleton.2 (explains D hD)
  grown D hD := grown.congr fun fact => by
    rw [told D hD fact]
    simp

/-! ### Single steps -/

/-- Parts other than members and equalities say nothing. -/
theorem accounts_silent (keeps : Keeps n m d ⟨d.graph, ns⟩) (hw : d.graph.Wired)
    (explains : ∀ D, Leads m ⟨d.graph, ns⟩ D → D.Explains s f)
    (silent : ∀ D, Leads m ⟨d.graph, ns⟩ D → ∀ fact, ¬ D.Tells s f fact) :
    Accounts s [f] n m d ⟨d.graph, ns⟩ :=
  accounts_singleton keeps explains (Grown.refl hw) fun D hD fact =>
    iff_of_false id (silent D hD fact)

theorem accounts_table {relation : String} (hw : d.graph.Wired)
    (hy : Yields ((Path.table n relation).walk s) d r d') :
    Accounts s [.path (.table n relation)] n (n + 1) d d' := by
  by_cases hn : n = 0
  · subst hn
    obtain ⟨-, rfl⟩ := Path.yields_walk_root.1 hy
    exact accounts_silent Keeps.refl.note hw (fun _ _ => trivial) fun _ _ _ h => nomatch h
  · obtain ⟨_, -, -, rfl⟩ := (Path.yields_walk_table hn).1 hy
    exact accounts_singleton Keeps.refl.note (fun _ _ => trivial) (grown_addNode hw relation)
      fun D _ fact => iff_of_false id fun h => nomatch h

/-- A parameter stands for what the step that it is bound to stands for. -/
theorem accounts_reference {target : Nat} (hw : d.graph.Wired) (htarget : target < n)
    (hy : Yields ((Path.reference n target).walk s) d r d') :
    Accounts s [.path (.reference n target)] n (n + 1) d d' := by
  obtain ⟨v, hlookup, rfl, rfl⟩ := Path.yields_walk_reference.1 hy
  have hvalue : d.value target = v := congrArg (Option.getD · Resolved.scalar) hlookup
  refine accounts_silent Keeps.refl.note hw ?_ fun _ _ _ h => nomatch h
  intro D hD
  have hkept := hD.kept target (Nat.lt_succ_of_lt htarget)
  rw [Keeps.refl.note.value_eq htarget, hvalue] at hkept
  show D.value n = (D.value target).bound
  rw [hD.value_note, hkept]

section Named

variable {m' : Member} (named : ∀ a, m' ≠ .association a)

include named

theorem explains_named : d.Explains s (.path (p.step n m')) ↔
    (∃ a hop, d.value p.lastId = .rows a hop ∧ d.value n = .field a m'.name hop) ∨
      ∃ outputs, d.value p.lastId = .record outputs ∧
        outputs.lookup m'.name = some (d.value n) := by
  cases m' with
  | association a => exact absurd rfl (named a)
  | column _ => rfl
  | projected _ => rfl

theorem tells_named : d.Tells s (.path (p.step n m')) fact ↔
    ∃ a hop, d.value p.lastId = .rows a hop ∧ fact = .used a m'.name := by
  cases m' with
  | association a => exact absurd rfl (named a)
  | column name =>
    constructor
    · intro h
      cases h with
      | column source => exact ⟨_, _, source, rfl⟩
    · rintro ⟨a, hop, source, rfl⟩
      exact .column source
  | projected name =>
    constructor
    · intro h
      cases h with
      | output source => exact ⟨_, _, source, rfl⟩
    · rintro ⟨a, hop, source, rfl⟩
      exact .output source

end Named

/-- A member says what taking it adds to the graph. -/
theorem accounts_takes {m' : Member} (hw : d.graph.Wired) (hv : v.Grounded s d.graph)
    (hlt : p.lastId < n) (hsource : d.value p.lastId = v) (htakes : v.Takes s d.graph m' r g) :
    Accounts s [.path (p.step n m')] n (n + 1) d ⟨g, (n, r) :: d.sources⟩ := by
  have hvalues : ∀ D, Leads (n + 1) ⟨g, (n, r) :: d.sources⟩ D →
      D.value p.lastId = v ∧ D.value n = r := by
    intro D hD
    have hkept := hD.kept p.lastId (Nat.lt_succ_of_lt hlt)
    rw [Keeps.refl.note.value_eq hlt, hsource] at hkept
    exact ⟨hkept, hD.value_note⟩
  cases htakes with
  | @follow origin hop a _ _ =>
    refine accounts_singleton Keeps.refl.note ?_ (grown_follow hw hv.lt) ?_
    · intro D hD
      obtain ⟨hinit, hvalue⟩ := hvalues D hD
      exact ⟨origin, hop, d.graph.size, hinit, hvalue⟩
    · intro D hD fact
      obtain ⟨hinit, hvalue⟩ := hvalues D hD
      refine ⟨.follow hinit hvalue, ?_⟩
      intro h
      cases h with
      | follow source value told =>
        obtain ⟨rfl, -⟩ := Resolved.rows.inj (hinit.symm.trans source)
        obtain ⟨rfl, -⟩ := Resolved.rows.inj (hvalue.symm.trans value)
        exact told
  | @read a hop _ named _ =>
    refine accounts_singleton Keeps.refl.note ?_ (grown_use hw hv.lt _) ?_
    · intro D hD
      obtain ⟨hinit, hvalue⟩ := hvalues D hD
      exact (explains_named named).2 (Or.inl ⟨a, hop, hinit, hvalue⟩)
    · intro D hD fact
      obtain ⟨hinit, -⟩ := hvalues D hD
      rw [tells_named named]
      constructor
      · rintro ⟨x, hx, rfl⟩
        exact ⟨a, hop, hinit, List.mem_singleton.1 hx ▸ rfl⟩
      · rintro ⟨a', hop', source, rfl⟩
        obtain ⟨rfl, -⟩ := Resolved.rows.inj (hinit.symm.trans source)
        exact ⟨_, List.mem_cons_self, rfl⟩
  | @output outputs _ _ named found =>
    refine accounts_silent Keeps.refl.note hw ?_ ?_
    · intro D hD
      obtain ⟨hinit, hvalue⟩ := hvalues D hD
      exact (explains_named named).2 (Or.inr ⟨outputs, hinit, hvalue ▸ found⟩)
    · intro D hD fact htells
      obtain ⟨a, hop, source, -⟩ := (tells_named named).1 htells
      exact Resolved.noConfusion ((hvalues D hD).1.symm.trans source)

/-- An equality says that what its two sides compare is equal. -/
theorem tells_equality (hc : (d.value p.lastId).Compares s d.graph a fields)
    (hc' : (d.value q.lastId).Compares s d.graph b otherFields) :
    d.Tells s (.binary id .eq (.path p) (.path q)) fact ↔
      Fact.Equality a fields b otherFields fact := by
  refine ⟨?_, .equality hc hc'⟩
  intro h
  cases h with
  | equality left right told =>
    obtain ⟨rfl, rfl⟩ := hc.unique left
    obtain ⟨rfl, rfl⟩ := hc'.unique right
    exact told

theorem accounts_equate (hkey : s.KeysDeclared) (hw : d.graph.Wired)
    (hp : p.lastId < n) (hq : q.lastId < n) (hv : (d.value p.lastId).Grounded s d.graph)
    (hv' : (d.value q.lastId).Grounded s d.graph)
    (hc : (d.value p.lastId).Compares s d.graph a fields)
    (hc' : (d.value q.lastId).Compares s d.graph b otherFields)
    (hlen : fields.length = otherFields.length) :
    Accounts s [.binary n .eq (.path p) (.path q)] n (n + 1) d
      { d with graph := d.graph.equate a fields b otherFields } := by
  have hgrown : d.graph.Grown (Fact.Equality a fields b otherFields)
      (d.graph.equate a fields b otherFields) :=
    grown_equate hw (hv.compares hkey hc).lt (hv'.compares hkey hc').lt hlen
  have hsides : ∀ D, Leads (n + 1) { d with graph := d.graph.equate a fields b otherFields } D →
      (D.value p.lastId).Compares s D.graph a fields ∧
        (D.value q.lastId).Compares s D.graph b otherFields := by
    intro D hD
    have hcontinues : d.graph.Continues D.graph := hgrown.continues.trans hD.continues
    have hleft : D.value p.lastId = d.value p.lastId := hD.kept p.lastId (Nat.lt_succ_of_lt hp)
    have hright : D.value q.lastId = d.value q.lastId := hD.kept q.lastId (Nat.lt_succ_of_lt hq)
    rw [hleft, hright, hv.compares_iff hcontinues, hv'.compares_iff hcontinues]
    exact ⟨hc, hc'⟩
  refine accounts_singleton (Keeps.refl.graph _).succ ?_ hgrown ?_
  · intro D hD p' q' _ hp' hq'
    obtain rfl := Flow.path.inj hp'
    obtain rfl := Flow.path.inj hq'
    obtain ⟨hleft, hright⟩ := hsides D hD
    exact ⟨a, fields, b, otherFields, hleft, hright, hlen⟩
  · intro D hD fact
    obtain ⟨hleft, hright⟩ := hsides D hD
    exact (tells_equality hleft hright).symm

end Draft

/-! ### Walks -/

open Draft

/-- A path stands for what its last step is noted to stand for. -/
theorem Path.value_lastId_of_walk (hy : Yields (p.walk s) d r d') : d'.value p.lastId = r := by
  cases p with
  | table id relation =>
    by_cases hid : id = 0
    · subst hid
      obtain ⟨-, rfl⟩ := Path.yields_walk_root.1 hy
      exact value_note
    · obtain ⟨_, -, -, rfl⟩ := (Path.yields_walk_table hid).1 hy
      exact value_note
  | reference id target =>
    obtain ⟨_, -, -, rfl⟩ := Path.yields_walk_reference.1 hy
    exact value_note
  | association init id column relation key =>
    obtain ⟨_, _, _, -, -, rfl⟩ :=
      (Path.yields_walk_step (m := .association ⟨"", column, relation, key⟩)).1 hy
    exact value_note
  | column init id name =>
    obtain ⟨_, _, _, -, -, rfl⟩ := (Path.yields_walk_step (m := .column name)).1 hy
    exact value_note
  | output init id name =>
    obtain ⟨_, _, _, -, -, rfl⟩ := (Path.yields_walk_step (m := .projected name)).1 hy
    exact value_note
  | select init id outputs =>
    obtain ⟨_, _, _, -, -, rfl⟩ := Path.yields_walk_select.1 hy
    exact value_note
  | filter init id inner =>
    obtain ⟨_, _, _, -, -, rfl⟩ := Path.yields_walk_filter.1 hy
    exact value_note

/-- Operations stand for nothing that an equality compares. -/
theorem Flow.exists_path_of_compares (hy : Yields (f.walk s) d v d')
    (hc : v.Compares s g a fields) : ∃ p, f = .path p := by
  have hscalar : v ≠ .scalar := by
    rintro rfl
    cases hc
  cases f with
  | path p => exact ⟨p, rfl⟩
  | binary id op lhs rhs =>
    obtain ⟨_, _, _, _, -, -, rfl, -⟩ := Flow.yields_walk_binary.1 hy
    exact absurd rfl hscalar
  | unary id op operand =>
    obtain ⟨_, -, rfl⟩ := Flow.yields_walk_unary.1 hy
    exact absurd rfl hscalar
  | fixed id =>
    obtain ⟨rfl, -⟩ := Flow.yields_walk_fixed.1 hy
    exact absurd rfl hscalar

theorem Flow.steps_of_walk (hkey : s.KeysDeclared) (h : d.Valid s)
    (hy : Yields (f.walk s) d r d') : Grows s (Step s) d d' r :=
  f.grows_of_walk hkey (fun _ _ => Or.inl) (Or.inr fun _ _ => Or.inr) h hy

theorem Path.steps_of_walk (hkey : s.KeysDeclared) (h : d.Valid s)
    (hy : Yields (p.walk s) d r d') : Grows s (Step s) d d' r :=
  p.grows_of_walk hkey (fun _ _ => Or.inl) (Or.inr fun _ _ => Or.inr) h hy

/-- An operation other than an equality of paths says nothing. -/
theorem accounts_binary {op : BinaryOp} {lhs rhs : Flow} (hkey : s.KeysDeclared)
    (hl : lhs.Numbered bound n k) (hr : rhs.Numbered bound k m) (hd : d.Valid s)
    (hleft : Yields (lhs.walk s) d v e) (hright : Yields (rhs.walk s) e w d')
    (hkeeps : Keeps k m e d') (hw : d'.graph.Wired)
    (hjoin : (op = .eq ∧ lhs.isFixed = false ∧ rhs.isFixed = false ∧
      Yields (equate s v w) d' () D) ∨ ((op = .eq → lhs.isFixed ∨ rhs.isFixed) ∧ D = d')) :
    Accounts s [.binary m op lhs rhs] m (m + 1) d' D := by
  have gl := Flow.steps_of_walk hkey hd hleft
  have gr := Flow.steps_of_walk hkey gl.valid hright
  rcases hjoin with ⟨rfl, -, -, hequate⟩ | ⟨hfixed, rfl⟩
  · obtain ⟨a, fields, b, otherFields, ha, hb, hlen, rfl⟩ := yields_equate.1 hequate
    obtain ⟨p, rfl⟩ := Flow.exists_path_of_compares hleft ha
    obtain ⟨q, rfl⟩ := Flow.exists_path_of_compares hright hb
    cases hl with
    | path hp =>
      cases hr with
      | path hq =>
        have hv : d'.value p.lastId = v :=
          (hkeeps.value_eq hp.lastId_lt).trans (Path.value_lastId_of_walk hleft)
        have hw' : d'.value q.lastId = w := Path.value_lastId_of_walk hright
        refine accounts_equate hkey hw (Nat.lt_of_lt_of_le hp.lastId_lt hkeeps.le) hq.lastId_lt
          ?_ ?_ ?_ ?_ hlen
        · exact hv ▸ gl.grounded.mono gr.continues
        · exact hw' ▸ gr.grounded
        · exact hv ▸ ha
        · exact hw' ▸ hb
  · have hnot : ∀ p q, op = .eq → lhs = .path p → rhs ≠ .path q := by
      rintro p q rfl rfl rfl
      exact absurd (hfixed rfl) (by simp [Flow.isFixed])
    refine accounts_silent Keeps.refl.succ hw ?_ ?_
    · intro D _ p q hop hl hr
      exact absurd hr (hnot p q hop hl)
    · intro D _ fact htells
      cases htells with
      | equality _ _ _ => exact hnot _ _ rfl rfl rfl

mutual

/-- What the walk of a flow adds to the graph is what the parts of the flow say. -/
theorem Flow.Numbered.accounts {s : Schema} (hkey : s.KeysDeclared) {bound : List Nat} {f : Flow}
    {n m : Nat} : f.Numbered bound n m → ∀ {d d' : Draft} {r : Resolved},
      (∀ id ∈ bound, id < n) → d.Valid s → d.graph.Wired → Yields (f.walk s) d r d' →
      Accounts s f.parts n m d d'
  | .path h, d, d', r, hbound, hd, hw, hy => h.accounts hkey hbound hd hw hy
  | .binary hl hr, d, d', r, hbound, hd, hw, hy => by
    obtain ⟨v, e, w, e', hleft, hright, -, hjoin⟩ := Flow.yields_walk_binary.1 hy
    have hlhs := hl.accounts hkey hbound hd hw hleft
    have hrhs := hr.accounts hkey (fun id hid => Nat.lt_of_lt_of_le (hbound id hid) hl.ranges.le)
      (Flow.steps_of_walk hkey hd hleft).valid hlhs.wired hright
    exact (hlhs.append hrhs).close
      (accounts_binary hkey hl hr hd hleft hright hrhs.keeps hrhs.wired hjoin)
  | .unary h, d, d', r, hbound, hd, hw, hy => by
    obtain ⟨_, hwalk, -⟩ := Flow.yields_walk_unary.1 hy
    have hoperand := h.accounts hkey hbound hd hw hwalk
    exact hoperand.close (accounts_silent Keeps.refl.succ hoperand.wired (fun _ _ => trivial)
      fun _ _ _ htells => nomatch htells)
  | .fixed, d, d', r, hbound, hd, hw, hy => by
    obtain ⟨-, rfl⟩ := Flow.yields_walk_fixed.1 hy
    exact accounts_silent Keeps.refl.succ hw (fun _ _ => trivial) fun _ _ _ htells => nomatch htells

/-- See `Flow.Numbered.accounts`. -/
theorem Path.Numbered.accounts {s : Schema} (hkey : s.KeysDeclared) {bound : List Nat} {p : Path}
    {n m : Nat} : p.Numbered bound n m → ∀ {d d' : Draft} {r : Resolved},
      (∀ id ∈ bound, id < n) → d.Valid s → d.graph.Wired → Yields (p.walk s) d r d' →
      Accounts s p.parts n m d d'
  | .table, d, d', r, hbound, hd, hw, hy => accounts_table hw hy
  | .reference hmem, d, d', r, hbound, hd, hw, hy => accounts_reference hw (hbound _ hmem) hy
  | .step h, d, d', r, hbound, hd, hw, hy => by
    obtain ⟨v, e, g, hwalk, htakes, rfl⟩ := Path.yields_walk_step.1 hy
    have hinit := h.accounts hkey hbound hd hw hwalk
    rw [Path.parts_step]
    exact hinit.close (accounts_takes hinit.wired (Path.steps_of_walk hkey hd hwalk).grounded
      h.lastId_lt (Path.value_lastId_of_walk hwalk) htakes)
  | .select h htarget ho, d, d', r, hbound, hd, hw, hy => by
    obtain ⟨_, e, e', hwalk, houtputs, rfl⟩ := Path.yields_walk_select.1 hy
    have hinit := h.accounts hkey hbound hd hw hwalk
    have hinner := ho.accounts hkey (h.bound_lt hbound htarget)
      (Path.steps_of_walk hkey hd hwalk).valid hinit.wired houtputs
    exact (hinit.append hinner).close (accounts_silent Keeps.refl.note hinner.wired
      (fun _ _ => trivial) fun _ _ _ htells => nomatch htells)
  | .filter (p := q) h htarget hf, d, d', r, hbound, hd, hw, hy => by
    obtain ⟨e, _, e', hwalk, hinner, rfl⟩ := Path.yields_walk_filter.1 hy
    have hinit := h.accounts hkey hbound hd hw hwalk
    have hcondition := hf.accounts hkey (h.bound_lt hbound htarget)
      (Path.steps_of_walk hkey hd hwalk).valid hinit.wired hinner
    refine (hinit.append hcondition).close (accounts_silent Keeps.refl.note hcondition.wired ?_
      fun _ _ _ htells => nomatch htells)
    intro D hD
    have hlt := Nat.lt_of_lt_of_le h.lastId_lt hcondition.keeps.le
    have hvalue : D.value q.lastId = r := by
      rw [hD.kept q.lastId (Nat.lt_succ_of_lt hlt), Keeps.refl.note.value_eq hlt,
        hcondition.keeps.value_eq h.lastId_lt, Path.value_lastId_of_walk hwalk]
    exact hD.value_note.trans hvalue.symm

/-- See `Flow.Numbered.accounts`. -/
theorem Outputs.Numbered.accounts {s : Schema} (hkey : s.KeysDeclared) {bound : List Nat}
    {o : Outputs} {n m : Nat} : o.Numbered bound n m → ∀ {d d' : Draft} {r : Resolved},
      (∀ id ∈ bound, id < n) → d.Valid s → d.graph.Wired → Yields (o.walk s) d r d' →
      Accounts s o.parts n m d d'
  | .single h, d, d', r, hbound, hd, hw, hy => h.accounts hkey hbound hd hw hy
  | .record h, d, d', r, hbound, hd, hw, hy => by
    obtain ⟨_, hfields, -⟩ := Outputs.yields_walk_record.1 hy
    exact h.accounts hkey hbound hd hw hfields

/-- See `Flow.Numbered.accounts`. -/
theorem FlowFields.Numbered.accounts {s : Schema} (hkey : s.KeysDeclared) {bound : List Nat}
    {fs : FlowFields} {n m : Nat} : fs.Numbered bound n m →
      ∀ {d d' : Draft} {outputs : List (String × Resolved)}, (∀ id ∈ bound, id < n) →
      d.Valid s → d.graph.Wired → Yields (fs.walk s) d outputs d' → Accounts s fs.parts n m d d'
  | .nil, d, d', outputs, hbound, hd, hw, hy => by
    rw [FlowFields.walk] at hy
    obtain ⟨-, rfl⟩ := yields_pure.1 hy
    exact accounts_nil hw
  | .cons hf h, d, d', outputs, hbound, hd, hw, hy => by
    obtain ⟨_, e, _, hinner, hrest, -⟩ := FlowFields.yields_walk_cons.1 hy
    have hfirst := hf.accounts hkey hbound hd hw hinner
    exact hfirst.append (h.accounts hkey
      (fun id hid => Nat.lt_of_lt_of_le (hbound id hid) hf.ranges.le)
      (Flow.steps_of_walk hkey hd hinner).valid hfirst.wired hrest)

end

/-! ## Graphs of queries -/

/-- The walk of a query ends with this draft. -/
def Path.Drafts (s : Schema) (p : Path) (d : Draft) : Prop :=
  ∃ relation r, p.relation? = some relation ∧ Yields (p.walk s) { graph := ofRoot relation } r d

namespace JoinGraph

variable {rs : List FetchPlan.Relation} {query : Expr} {flow : NumberedPath}

/-- The graph of one relation says nothing. -/
theorem not_holds_ofRoot {relation : String} : ¬ (ofRoot relation).Holds fact := by
  cases fact with
  | used id x => simp [Holds, used_ofRoot]
  | joined a b p => simp [Holds, JoinsOn, connections_ofRoot]

/-- The graph of a query says what the parts of the query say. -/
theorem holds_ofPath (hs : Schema.ofRelations rs = .ok s) (hflow : query.toPath = .ok flow)
    (hg : (ofPath s flow.path).result = .ok g) (hd : flow.path.Drafts s d) :
    (∀ part ∈ flow.path.parts, d.Explains s part) ∧ (∀ id, g.relation id = d.graph.relation id) ∧
      ∀ fact, g.Holds fact ↔ ∃ part ∈ flow.path.parts, d.Tells s part fact := by
  obtain ⟨relation, r, hrelation, hwalk⟩ := hd
  obtain ⟨draft, hdraft, rfl, -⟩ := ofPath_eq_ok.1 hg
  obtain ⟨relation', key, r', d', hrelation', -, hwalk', rfl⟩ := draftOfPath_eq_ok.1 hdraft
  obtain rfl := Option.some.inj (hrelation.symm.trans hrelation')
  obtain ⟨-, rfl⟩ := hwalk.unique hwalk'
  have hvalid : Draft.Valid s { graph := ofRoot relation } :=
    ⟨Nat.one_pos, fun n hn => absurd hn List.not_mem_nil⟩
  have haccounts := (Expr.numbered hflow).accounts (Schema.keysDeclared_of_ofRelations hs)
    (fun id hid => absurd hid List.not_mem_nil) hvalid wired_ofRoot hwalk
  refine ⟨haccounts.explains d .refl, fun _ => relation_orient, ?_⟩
  intro fact
  rw [holds_orient haccounts.wired, (haccounts.grown d .refl).adds fact,
    or_iff_right not_holds_ofRoot]

end JoinGraph

end FetchPlan
