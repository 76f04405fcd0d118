import FetchPlan.Proofs.JoinGraph.PartByPart
import FetchPlan.Proofs.Planned

/-!
# Rows that are compared with rows

An equality between rows that an association leads to and the rows of a parameter joins the column
that the association leaves from to the primary key of the parameter's relation. These are the
columns of the association if it leads to the primary key; otherwise the graph has those columns
only if another part of the query joins them (`JoinGraph.joinsOn_association_iff`).
-/

namespace FetchPlan

open JoinGraph

variable {s : Schema} {d : Draft} {g : JoinGraph} {init : Path} {lhs rhs : Flow} {a b : Nat}
  {id hopId rowId target : Nat} {column relation key : String} {hop hop' : Option Hop}
  {fact : Fact}

namespace Draft

/-- Rows that an association leads to stand for the column that it leaves from. -/
theorem Explains.compares_association
    (h : d.Explains s (.path (.association init hopId column relation key)))
    (ha : d.value init.lastId = .rows a hop) :
    (d.value hopId).Compares s d.graph a [column] := by
  obtain ⟨a', hop', b', hinit, hvalue⟩ := h
  obtain ⟨rfl, -⟩ := Resolved.rows.inj (ha.symm.trans hinit)
  rw [hvalue]
  exact .hop

/-- The rows of a parameter stand for their primary key. -/
theorem Explains.compares_reference (h : d.Explains s (.path (.reference rowId target)))
    (hb : d.value rowId = .rows b hop) {fields : List String} {c : Nat}
    (hc : (d.value rowId).Compares s d.graph c fields) :
    c = b ∧ s.primaryKey (d.graph.relation b) = .ok fields := by
  have hbound : d.value rowId = (d.value target).bound := h
  cases htarget : d.value target with
  | rows b' hop' =>
    rw [hbound, htarget] at hb hc
    obtain ⟨rfl, -⟩ := Resolved.rows.inj hb
    cases hc with
    | key eq => exact ⟨rfl, eq⟩
  | field _ _ _ | record _ | scalar =>
    rw [hbound, htarget] at hb
    cases hb

end Draft

/-- One side of the equality are the rows that an association leads to from the path `init`, the
other one those of a parameter. -/
inductive RowSides (init : Path) (hopId : Nat) (column relation key : String) (rowId target : Nat) :
    Flow → Flow → Prop
  | forth : RowSides init hopId column relation key rowId target
      (.path (.association init hopId column relation key)) (.path (.reference rowId target))
  | back : RowSides init hopId column relation key rowId target
      (.path (.reference rowId target)) (.path (.association init hopId column relation key))

theorem RowSides.mem_parts (h : RowSides init hopId column relation key rowId target lhs rhs)
    (id : Nat) :
    .path (.association init hopId column relation key) ∈ (Flow.binary id .eq lhs rhs).parts ∧
      .path (.reference rowId target) ∈ (Flow.binary id .eq lhs rhs).parts := by
  cases h with
  | _ => simp [Flow.parts, Path.parts]

/-- Such an equality says that the column that the association leaves from is the primary key. -/
theorem RowSides.tells (h : RowSides init hopId column relation key rowId target lhs rhs)
    (hnav : d.Explains s (.path (.association init hopId column relation key)))
    (hrow : d.Explains s (.path (.reference rowId target)))
    (heq : d.Explains s (.binary id .eq lhs rhs))
    (ha : d.value init.lastId = .rows a hop) (hb : d.value rowId = .rows b hop') :
    ∃ k, s.primaryKey (d.graph.relation b) = .ok [k] ∧
      ∀ fact, d.Tells s (.binary id .eq lhs rhs) fact ↔ Fact.Equality a [column] b [k] fact := by
  have hc := hnav.compares_association ha
  cases h with
  | forth =>
    obtain ⟨_, _, _, otherFields, hleft, hright, hlen⟩ := heq _ _ rfl rfl rfl
    obtain ⟨rfl, rfl⟩ := hc.unique hleft
    obtain ⟨rfl, hkey⟩ := hrow.compares_reference hb hright
    obtain ⟨k, rfl⟩ := List.length_eq_one_iff.1 hlen.symm
    exact ⟨k, hkey, fun fact => Draft.tells_equality hleft hright⟩
  | back =>
    obtain ⟨_, fields, _, _, hleft, hright, hlen⟩ := heq _ _ rfl rfl rfl
    obtain ⟨rfl, rfl⟩ := hc.unique hright
    obtain ⟨rfl, hkey⟩ := hrow.compares_reference hb hleft
    obtain ⟨k, rfl⟩ := List.length_eq_one_iff.1 hlen
    exact ⟨k, hkey, fun fact => (Draft.tells_equality hleft hright).trans Fact.Equality.comm⟩

namespace JoinGraph

variable {rs : List FetchPlan.Relation} {query : Expr} {flow : NumberedPath}

/-- Rows that an association leads to from `a`, compared with those of `b`, join `a` to the primary
key of `b`. The two are joined on the columns of the association exactly if it leads to the primary
key, or if another part of the query joins them so. -/
theorem joinsOn_association_iff (hs : Schema.ofRelations rs = .ok s)
    (hflow : query.toPath = .ok flow) (hg : (ofPath s flow.path).result = .ok g)
    (hd : flow.path.Drafts s d) (hpart : .binary id .eq lhs rhs ∈ flow.path.parts)
    (hsides : RowSides init hopId column relation key rowId target lhs rhs)
    (ha : d.value init.lastId = .rows a hop) (hb : d.value rowId = .rows b hop') (hne : a ≠ b)
    (hrelation : g.relation b = relation) :
    (∃ k, s.primaryKey relation = .ok [k] ∧ g.JoinsOn a b ⟨column, k⟩) ∧
      (g.JoinsOn a b ⟨column, key⟩ ↔ s.primaryKey relation = .ok [key] ∨
        ∃ part ∈ flow.path.parts, part ≠ .binary id .eq lhs rhs ∧
          d.Tells s part (.joined a b ⟨column, key⟩)) := by
  obtain ⟨hexplains, hrelations, hholds⟩ := holds_ofPath hs hflow hg hd
  have hsub := flow.path.partsClosed _ hpart
  obtain ⟨hnav, hrow⟩ := hsides.mem_parts id
  obtain ⟨k, hkey, htells⟩ := hsides.tells (hexplains _ (hsub hnav)) (hexplains _ (hsub hrow))
    (hexplains _ hpart) ha hb
  rw [← hrelations, hrelation] at hkey
  have hjoined : ∀ x, d.Tells s (.binary id .eq lhs rhs) (.joined a b ⟨column, x⟩) ↔ x = k := by
    intro x
    rw [htells]
    constructor
    · intro hfact
      cases hfact with
      | forth _ mem => exact (Prod.mk.inj (List.mem_singleton.1 mem)).2
      | back ne _ => exact absurd rfl ne
    · rintro rfl
      exact .forth hne List.mem_cons_self
  refine ⟨⟨k, hkey, ?_⟩, ?_⟩
  · exact (hholds (.joined a b ⟨column, k⟩)).2 ⟨_, hpart, (hjoined k).2 rfl⟩
  · have hprimary : s.primaryKey relation = .ok [key] ↔ key = k := by
      rw [hkey, Except.ok.injEq, List.singleton_inj, eq_comm]
    rw [hprimary]
    refine (hholds (.joined a b ⟨column, key⟩)).trans ⟨?_, ?_⟩
    · rintro ⟨part, hmem, hpartTells⟩
      by_cases heq : part = .binary id .eq lhs rhs
      · exact Or.inl ((hjoined key).1 (heq ▸ hpartTells))
      · exact Or.inr ⟨part, hmem, heq, hpartTells⟩
    · rintro (rfl | ⟨part, hmem, -, hpartTells⟩)
      · exact ⟨_, hpart, (hjoined key).2 rfl⟩
      · exact ⟨part, hmem, hpartTells⟩

end JoinGraph

/-! ## Users and profiles -/

/-- Users lead to their profile by a column that is not its primary key. -/
def profileRelations : List Relation :=
  [{ name := "User", columns := [⟨"Id", "int"⟩, ⟨"Name", "text"⟩], primaryKey := ["Id"]
     associations := [⟨"Profile", "Id", "Profile", "UserId"⟩] },
    { name := "Profile", columns := [⟨"Id", "int"⟩, ⟨"UserId", "int"⟩], primaryKey := ["Id"] }]

/-- The schema of users and profiles. -/
def profiles : Schema := ⟨profileRelations⟩

/-- The profiles that are the profile of a user. -/
def ownedProfiles : Expr :=
  .filter (.table "Profile") <| .lambda ["p"] <| .any (.table "User") <| .lambda ["u"] <|
    .binary .eq (.member (.param "u") (.association ⟨"Profile", "Id", "Profile", "UserId"⟩))
      (.param "p")

/-- The equality of the query. -/
def sameProfile : Flow :=
  .binary 5 .eq (.path (.association (.reference 2 1) 3 "Id" "Profile" "UserId"))
    (.path (.reference 4 0))

/-- The path of the query. -/
def ownedPath : Path :=
  .filter (.table 0 "Profile") 7 (.path (.filter (.table 1 "User") 6 sameProfile))

/-- The step stands for rows of this node. -/
def Draft.standsForRows (d : Draft) (id a : Nat) : Bool :=
  match d.value id with
  | .rows a' _ => a' = a
  | _ => false

theorem Draft.exists_of_standsForRows (h : d.standsForRows id a) :
    ∃ hop, d.value id = .rows a hop := by
  unfold standsForRows at h
  split at h
  · next hvalue => exact ⟨_, of_decide_eq_true h ▸ hvalue⟩
  · cases h

namespace JoinGraph

/-- The query compares the profile of node 1, the users, with the root. -/
theorem exists_graph_profiles : ∃ g d, Schema.ofRelations profileRelations = .ok profiles ∧
    ownedProfiles.toPath = .ok ⟨ownedPath, 8⟩ ∧ (ofPath profiles ownedPath).result = .ok g ∧
    ownedPath.Drafts profiles d ∧ sameProfile ∈ ownedPath.parts ∧
    (∃ hop, d.value 2 = .rows 1 hop) ∧ (∃ hop, d.value 4 = .rows root hop) ∧
    g.relation root = "Profile" := by
  have hgraph : ((ofPath profiles ownedPath).result >>= fun g =>
      .ok (decide (g.relation root = "Profile"))) = .ok true := by decide +kernel
  have hdraft : (((ownedPath.walk profiles).run { graph := ofRoot "Profile" }).result >>= fun r =>
      .ok (r.2.standsForRows 2 1 && r.2.standsForRows 4 root)) = .ok true := by decide +kernel
  obtain ⟨g, hg, hgraph⟩ := bind_eq_ok.1 hgraph
  obtain ⟨⟨r, d⟩, hwalk, hdraft⟩ := bind_eq_ok.1 hdraft
  obtain ⟨ha, hb⟩ := Bool.and_eq_true_iff.1 (Except.ok.inj hdraft)
  exact ⟨g, d, by decide +kernel, rfl, hg, ⟨"Profile", r, rfl, hwalk⟩,
    by simp [ownedPath, sameProfile, Path.parts, Flow.parts],
    Draft.exists_of_standsForRows ha, Draft.exists_of_standsForRows hb,
    of_decide_eq_true (Except.ok.inj hgraph)⟩

theorem joinsOn_association_iff_profiles : ∃ g d,
    (ofPath profiles ownedPath).result = .ok g ∧ ownedPath.Drafts profiles d ∧
    (∃ k, profiles.primaryKey "Profile" = .ok [k] ∧ g.JoinsOn 1 root ⟨"Id", k⟩) ∧
    (g.JoinsOn 1 root ⟨"Id", "UserId"⟩ ↔ profiles.primaryKey "Profile" = .ok ["UserId"] ∨
      ∃ part ∈ ownedPath.parts, part ≠ sameProfile ∧
        d.Tells profiles part (.joined 1 root ⟨"Id", "UserId"⟩)) := by
  obtain ⟨g, d, hs, hflow, hg, hd, hpart, ⟨_, ha⟩, ⟨_, hb⟩, hrelation⟩ := exists_graph_profiles
  exact ⟨g, d, hg, hd,
    joinsOn_association_iff hs hflow hg hd hpart .forth ha hb (by decide) hrelation⟩

/-- The users are not joined to the profiles by the column that leads to them. -/
theorem not_joinsOn_association_profiles : ∃ g d,
    Schema.ofRelations profileRelations = .ok profiles ∧
    ownedProfiles.toPath = .ok ⟨ownedPath, 8⟩ ∧ (ofPath profiles ownedPath).result = .ok g ∧
    ownedPath.Drafts profiles d ∧ sameProfile ∈ ownedPath.parts ∧
    (∃ hop, d.value 2 = .rows 1 hop) ∧ (∃ hop, d.value 4 = .rows root hop) ∧
    g.relation root = "Profile" ∧ ¬ g.JoinsOn 1 root ⟨"Id", "UserId"⟩ := by
  have hcheck : ((ofPath profiles ownedPath).result >>= fun g =>
      .ok (decide (g.JoinsOn 1 root ⟨"Id", "UserId"⟩))) = .ok false := by decide +kernel
  obtain ⟨g, d, hs, hflow, hg, hd, hpart, ha, hb, hrelation⟩ := exists_graph_profiles
  rw [hg] at hcheck
  exact ⟨g, d, hs, hflow, hg, hd, hpart, ha, hb, hrelation,
    of_decide_eq_false (Except.ok.inj hcheck)⟩

end JoinGraph

end FetchPlan
