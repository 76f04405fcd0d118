import Mathlib.Data.List.Infix
import FetchPlan.Batch.Sql
import FetchPlan.Proofs.Text.Delimited

/-!
# The SQL text determines the batch

Names are written as they are, so they must not have the characters that stand between them, and
types are written before a comma and a space or the end of their declaration. Then every part of
a batch tells where it ends (`Delimited`), and two batches with the same text are equal
(`Batch.sql_inj`).
-/

namespace FetchPlan

/-! ## Names and types -/

/-- The characters that stand next to names. -/
def delimiters : List Char := [' ', ',', '(', ')', ';']

/-- A name that can be told from what is around it. Names without whitespace, commas, parentheses
and semicolons are such names. -/
def IsName (s : String) : Prop := s ≠ "" ∧ ∀ c ∈ s.toList, c ∉ delimiters

/-- A type that can be told from what comes after it. It may have brackets and commas, as
`decimal(10,2)` has. -/
def IsType (s : String) : Prop := ';' ∉ s.toList ∧ ¬ [',', ' '] <:+: s.toList

/-- A text that begins with a delimiter, so that a name before it ends. -/
def Bounds (r : String) : Prop := ∃ c ∈ delimiters, Begins c r

-- The instances are named because characters are also a finite type, and neither a search through
-- all characters nor the other search for an infix can be evaluated.
instance (s : String) : Decidable (IsName s) :=
  haveI := List.decidableBAll (· ∉ delimiters) s.toList
  inferInstanceAs (Decidable (s ≠ "" ∧ ∀ c ∈ s.toList, c ∉ delimiters))

instance (s : String) : Decidable (IsType s) :=
  haveI := List.decidableInfix [',', ' '] s.toList
  inferInstanceAs (Decidable (';' ∉ s.toList ∧ ¬ [',', ' '] <:+: s.toList))

instance (r : String) : Decidable (Bounds r) :=
  List.decidableBEx (Begins · r) delimiters

theorem Begins.bounds {c : Char} {r : String} (h : Begins c r) (hc : c ∈ delimiters) : Bounds r :=
  ⟨c, hc, h⟩

theorem Bounds.append {t : String} (h : Bounds t) (r : String) : Bounds (t ++ r) := by
  obtain ⟨c, hc, hbegins⟩ := h
  exact ⟨c, hc, hbegins.append r⟩

/-- A name ends before a delimiter. -/
theorem delimited_name : Delimited id IsName Bounds := by
  refine (delimited_word (· ∉ delimiters)).mono ?_ ?_
  · exact fun u hu c hc => decide_eq_true (hu.2 c hc)
  · rintro r ⟨d, hd, hbegins⟩ c hc
    rw [hc.eq hbegins]
    exact decide_eq_false (not_not_intro hd)

/-- A name does not begin with a delimiter. -/
theorem IsName.exists_begins {a : String} (ha : IsName a) : ∃ c, Begins c a ∧ c ∉ delimiters := by
  cases hlist : a.toList with
  | nil => exact absurd (String.toList_eq_nil_iff.1 hlist) ha.1
  | cons c cs =>
    exact ⟨c, by rw [Begins, hlist]; rfl, ha.2 c (hlist ▸ List.mem_cons_self)⟩

/-- Nothing, or a comma and a space with something after them. -/
def EndsType (r : String) : Prop := r = "" ∨ ∃ t, r = ", " ++ t

private theorem eq_nil_of_endsType {u w r s : List Char} (hr : r = [] ∨ ∃ t, r = ',' :: ' ' :: t)
    (hs : s = [] ∨ ∃ t, s = ',' :: ' ' :: t) (hfree : ¬ [',', ' '] <:+: u ++ w)
    (heq : r = w ++ s) : w = [] := by
  cases w with
  | nil => rfl
  | cons c w =>
    obtain rfl | ⟨t, rfl⟩ := hr
    · exact absurd heq (by simp)
    obtain ⟨rfl, htail⟩ := List.cons.inj heq
    cases w with
    | nil =>
      -- the comma ends the one type, and the other one would end before the space
      obtain rfl | ⟨t', rfl⟩ := hs
      · exact absurd htail (by simp)
      · exact absurd (List.cons.inj htail).1 (by decide)
    | cons d w =>
      obtain ⟨rfl, -⟩ := List.cons.inj htail
      exact absurd ⟨u, w, by simp⟩ hfree

theorem delimited_type : Delimited id IsType EndsType := by
  have hchars : ∀ {r : String}, EndsType r → r.toList = [] ∨ ∃ t, r.toList = ',' :: ' ' :: t := by
    rintro r (rfl | ⟨t, rfl⟩)
    · exact Or.inl rfl
    · exact Or.inr ⟨t.toList, by rw [String.toList_append]; rfl⟩
  intro u v r s hu hv hr hs heq
  have hlist := congrArg String.toList heq
  rw [String.toList_append, String.toList_append, List.append_eq_append_iff] at hlist
  have huv : u.toList = v.toList := by
    rcases hlist with ⟨w, hw, hrest⟩ | ⟨w, hw, hrest⟩
    · have hnil := eq_nil_of_endsType (hchars hr) (hchars hs) (hw ▸ hv.2) hrest
      rw [hnil, List.append_nil] at hw
      exact hw.symm
    · have hnil := eq_nil_of_endsType (hchars hs) (hchars hr) (hw ▸ hu.2) hrest
      rw [hnil, List.append_nil] at hw
      exact hw
  obtain rfl := String.toList_inj.1 huv
  exact ⟨rfl, (String.append_right_inj u).1 heq⟩

/-! ## Declarations -/

/-- The column can be told from what is around it. -/
def ColumnDef.IsLegible (c : ColumnDef) : Prop := IsName c.name ∧ IsType c.type

instance (c : ColumnDef) : Decidable c.IsLegible :=
  inferInstanceAs (Decidable (IsName c.name ∧ IsType c.type))

structure Declaration.IsLegible (d : Declaration) : Prop where
  var : IsName d.var
  columns : ∀ c ∈ d.columns, c.IsLegible

instance (d : Declaration) : Decidable d.IsLegible :=
  decidable_of_iff (IsName d.var ∧ ∀ c ∈ d.columns, c.IsLegible)
    ⟨fun ⟨hvar, hcolumns⟩ => ⟨hvar, hcolumns⟩, fun h => ⟨h.var, h.columns⟩⟩

theorem ColumnDef.delimited_sql : Delimited ColumnDef.sql ColumnDef.IsLegible EndsType := by
  rintro ⟨name, type⟩ ⟨name', type'⟩ r s ⟨hname, htype⟩ ⟨hname', htype'⟩ hr hs heq
  simp only [sql, String.append_assoc] at heq
  obtain ⟨rfl, htypes⟩ := delimited_name.before hname hname' (Bounds.append (by decide)) heq
  obtain ⟨rfl, hrest⟩ := delimited_type htype htype' hr hs htypes
  exact ⟨rfl, hrest⟩

theorem ColumnDef.semicolon_not_mem {c : ColumnDef} (hc : c.IsLegible) : ';' ∉ c.sql.toList := by
  have hname : ';' ∉ c.name.toList := fun h => hc.1.2 ';' h (by decide)
  simp [sql, hname, hc.2.1]

theorem semicolon_not_mem_columns {cs : List ColumnDef} (hcs : ∀ c ∈ cs, c.IsLegible) :
    ';' ∉ (", ".intercalate (cs.map ColumnDef.sql) ++ ")").toList := by
  rw [String.toList_append, List.mem_append]
  rintro (hmem | hmem)
  · obtain hmem | ⟨t, ht, hmem⟩ := mem_intercalate hmem
    · exact absurd hmem (by decide)
    · obtain ⟨c, hc, rfl⟩ := List.mem_map.1 ht
      exact ColumnDef.semicolon_not_mem (hcs c hc) hmem
  · exact absurd hmem (by decide)

theorem delimited_columnDefs :
    Delimited (fun cs : List ColumnDef => ", ".intercalate (cs.map ColumnDef.sql))
      (fun cs => ∀ c ∈ cs, c.IsLegible) (· = "") := by
  refine ColumnDef.delimited_sql.intercalate (fun r => Or.inr ⟨r, rfl⟩) (fun r hr => Or.inl hr)
    (fun c r _ h => ?_) (fun c r hc h => ?_)
  · exact absurd (congrArg String.toList h) (by simp)
  · have hname : c.name = "" := by simp_all [ColumnDef.sql]
    exact hc.1.1 hname

/-- Types can have closing brackets, so that the columns of a declaration end before the semicolon
and not before the bracket. -/
theorem delimited_columns :
    Delimited (fun cs : List ColumnDef => ", ".intercalate (cs.map ColumnDef.sql) ++ ")")
      (fun cs => ∀ c ∈ cs, c.IsLegible) (Begins ';') := by
  have hword : ∀ cs : List ColumnDef, (∀ c ∈ cs, c.IsLegible) →
      ∀ c ∈ (", ".intercalate (cs.map ColumnDef.sql) ++ ")").toList, decide (c ≠ ';') = true :=
    fun cs hcs c hc => decide_eq_true (ne_of_mem_of_not_mem hc (semicolon_not_mem_columns hcs))
  have hstop : ∀ r : String, Begins ';' r → ∀ c, Begins c r → decide (c ≠ ';') = false :=
    fun r hr c hc => decide_eq_false (not_not_intro (hc.eq hr))
  intro cs ds r s hcs hds hr hs heq
  obtain ⟨htext, hrest⟩ := delimited_word (fun c => decide (c ≠ ';')) (hword cs hcs) (hword ds hds)
    (hstop r hr) (hstop s hs) heq
  have hcolumns := (String.append_left_inj ")").1 htext
  exact ⟨(delimited_columnDefs hcs hds rfl rfl (congrArg (· ++ "") hcolumns)).1, hrest⟩

theorem Statement.sql_declare (d : Declaration) : (declare d).sql = d.sql ++ ";" := rfl

theorem Declaration.delimited_sql :
    Delimited (fun d => (Statement.declare d).sql) Declaration.IsLegible fun _ => True := by
  rintro ⟨var, columns⟩ ⟨var', columns'⟩ r s ⟨hvar, hcolumns⟩ ⟨hvar', hcolumns'⟩ - - heq
  simp only [Statement.sql_declare, sql, String.append_assoc] at heq
  obtain ⟨rfl, hcols⟩ := delimited_name.before hvar hvar' (Bounds.append (by decide))
    ((String.append_right_inj _).1 heq)
  obtain ⟨rfl, hrest⟩ := delimited_columns.before (t := ";") hcolumns hcolumns'
    (Begins.append (by decide)) (by simpa only [String.append_assoc] using hcols)
  exact ⟨rfl, hrest⟩

/-! ## Fetches -/

def KeyFilter.IsLegible (f : KeyFilter) : Prop := IsName f.column ∧ IsName f.param

def Previous.IsLegible : Previous → Prop
  | var name => IsName name
  | distinct name columns => IsName name ∧ ∀ c ∈ columns, IsName c

def Source.IsLegible : Source → Prop
  | key filters => ∀ f ∈ filters, f.IsLegible
  | join previous on => previous.IsLegible ∧ ∀ pair ∈ on, IsName pair.1 ∧ IsName pair.2

/-- The names of the fetch can be told from what is around them. -/
structure Fetch.IsLegible (f : Fetch) : Prop where
  target : IsName f.target
  columns : ∀ c ∈ f.columns, IsName c
  relation : IsName f.relation
  source : f.source.IsLegible

instance (f : KeyFilter) : Decidable f.IsLegible :=
  inferInstanceAs (Decidable (IsName f.column ∧ IsName f.param))

instance : (p : Previous) → Decidable p.IsLegible
  | .var name => inferInstanceAs (Decidable (IsName name))
  | .distinct name columns => inferInstanceAs (Decidable (IsName name ∧ ∀ c ∈ columns, IsName c))

instance : (s : Source) → Decidable s.IsLegible
  | .key filters => inferInstanceAs (Decidable (∀ f ∈ filters, f.IsLegible))
  | .join previous on =>
    inferInstanceAs (Decidable (previous.IsLegible ∧ ∀ pair ∈ on, IsName pair.1 ∧ IsName pair.2))

instance (f : Fetch) : Decidable f.IsLegible :=
  decidable_of_iff
    (IsName f.target ∧ (∀ c ∈ f.columns, IsName c) ∧ IsName f.relation ∧ f.source.IsLegible)
    ⟨fun ⟨htarget, hcolumns, hrelation, hsource⟩ => ⟨htarget, hcolumns, hrelation, hsource⟩,
      fun h => ⟨h.target, h.columns, h.relation, h.source⟩⟩

theorem delimited_currentColumn : Delimited currentColumn IsName Bounds :=
  delimited_name.prefixed "current."

theorem delimited_previousColumn : Delimited previousColumn IsName Bounds :=
  delimited_name.prefixed "previous."

theorem KeyFilter.delimited_sql : Delimited KeyFilter.sql KeyFilter.IsLegible Bounds := by
  rintro ⟨column, param⟩ ⟨column', param'⟩ r s ⟨hcolumn, hparam⟩ ⟨hcolumn', hparam'⟩ hr hs heq
  simp only [sql, String.append_assoc] at heq
  obtain ⟨rfl, hparams⟩ :=
    delimited_currentColumn.before hcolumn hcolumn' (Bounds.append (by decide)) heq
  obtain ⟨rfl, hrest⟩ := delimited_name hparam hparam' hr hs hparams
  exact ⟨rfl, hrest⟩

theorem delimited_joinSql :
    Delimited joinSql (fun pair => IsName pair.1 ∧ IsName pair.2) Bounds := by
  rintro ⟨current, previous⟩ ⟨current', previous'⟩ r s ⟨hcur, hprev⟩ ⟨hcur', hprev'⟩ hr hs heq
  simp only [joinSql, String.append_assoc] at heq
  obtain ⟨rfl, hpreviouses⟩ :=
    delimited_currentColumn.before hcur hcur' (Bounds.append (by decide)) heq
  obtain ⟨rfl, hrest⟩ := delimited_previousColumn hprev hprev' hr hs hpreviouses
  exact ⟨rfl, hrest⟩

section Lists

variable {α : Type} {text : α → String} {good : α → Prop} {sep : String} {c d : Char}

/-- A list ends where `c` begins if neither the separator nor an item begins with `c`. -/
theorem Delimited.intercalate_until (item : Delimited text good Bounds) (hc : c ∈ delimiters)
    (hd : d ∈ delimiters) (hsep : Begins d sep) (hne : d ≠ c)
    (hitem : ∀ a, good a → ∃ e, Begins e (text a) ∧ e ≠ c) :
    Delimited (fun as : List α => sep.intercalate (as.map text)) (fun as => ∀ a ∈ as, good a)
      (Begins c) := by
  refine item.intercalate (fun r => (hsep.append r).bounds hd) (fun r hr => hr.bounds hc) ?_ ?_
  · exact fun a r _ => hsep.not_append hne _
  · intro a r ha
    obtain ⟨e, he, hec⟩ := hitem a ha
    exact he.not_append hec r

end Lists

theorem delimited_currentColumns :
    Delimited (fun columns : List String => ", ".intercalate (columns.map currentColumn))
      (fun columns => ∀ c ∈ columns, IsName c) (Begins ' ') :=
  delimited_currentColumn.intercalate_until (d := ',') (by decide) (by decide) (by decide)
    (by decide) fun name _ => ⟨'c', Begins.append (by decide) name, by decide⟩

theorem delimited_filters :
    Delimited (fun filters : List KeyFilter => " AND ".intercalate (filters.map KeyFilter.sql))
      (fun filters => ∀ f ∈ filters, f.IsLegible) (Begins ';') := by
  refine KeyFilter.delimited_sql.intercalate_until (d := ' ') (by decide) (by decide) (by decide)
    (by decide) fun f _ => ⟨'c', ?_, by decide⟩
  simp only [KeyFilter.sql, currentColumn, String.append_assoc]
  exact Begins.append (by decide) _

theorem delimited_joinPairs :
    Delimited (fun on : List (String × String) => " AND ".intercalate (on.map joinSql))
      (fun on => ∀ pair ∈ on, IsName pair.1 ∧ IsName pair.2) (Begins ';') := by
  refine delimited_joinSql.intercalate_until (d := ' ') (by decide) (by decide) (by decide)
    (by decide) fun pair _ => ⟨'c', ?_, by decide⟩
  simp only [joinSql, currentColumn, String.append_assoc]
  exact Begins.append (by decide) _

theorem delimited_columnNames :
    Delimited (fun columns : List String => ", ".intercalate columns)
      (fun columns => ∀ c ∈ columns, IsName c) (Begins ' ') := by
  have hmap : Delimited (fun columns : List String => ", ".intercalate (columns.map id))
      (fun columns => ∀ c ∈ columns, IsName c) (Begins ' ') := by
    refine delimited_name.intercalate_until (d := ',') (by decide) (by decide) (by decide)
      (by decide) fun a ha => ?_
    obtain ⟨c, hc, hdelim⟩ := ha.exists_begins
    exact ⟨c, hc, fun h => hdelim (h ▸ by decide)⟩
  simpa only [List.map_id] using hmap

theorem Previous.sql_distinct (name : String) (columns : List String) :
    (distinct name columns).sql =
      "(SELECT DISTINCT " ++ ", ".intercalate columns ++ " FROM " ++ name ++ ")" := rfl

theorem Previous.delimited_sql : Delimited Previous.sql Previous.IsLegible (Begins ' ') := by
  have hne : ∀ {name name' : String} {columns : List String} {r s : String}, IsName name →
      (var name).sql ++ r ≠ (distinct name' columns).sql ++ s := by
    intro name name' columns r s hname heq
    obtain ⟨c, hc, hdelim⟩ := hname.exists_begins
    have hbracket : Begins '(' ((distinct name' columns).sql ++ s) := by
      simp only [sql_distinct, String.append_assoc]
      exact Begins.append (by decide) _
    obtain rfl : c = '(' := (heq ▸ hc.append r).eq hbracket
    exact hdelim (by decide)
  intro a b r s ha hb hr hs heq
  cases a with
  | var name =>
    cases b with
    | var name' =>
      obtain ⟨rfl, hrest⟩ :=
        delimited_name ha hb (hr.bounds (by decide)) (hs.bounds (by decide)) heq
      exact ⟨rfl, hrest⟩
    | distinct name' columns' => exact absurd heq (hne ha)
  | distinct name columns =>
    cases b with
    | var name' => exact absurd heq.symm (hne hb)
    | distinct name' columns' =>
      simp only [sql_distinct, String.append_assoc] at heq
      obtain ⟨rfl, hname⟩ := delimited_columnNames.before ha.2 hb.2 (Begins.append (by decide))
        ((String.append_right_inj _).1 heq)
      obtain ⟨rfl, hrest⟩ := delimited_name.before ha.1 hb.1 (Bounds.append (by decide)) hname
      exact ⟨rfl, hrest⟩

theorem Source.sql_key (filters : List KeyFilter) :
    (key filters).sql = " WHERE " ++ " AND ".intercalate (filters.map KeyFilter.sql) := rfl

theorem Source.sql_join (previous : Previous) (on : List (String × String)) :
    (join previous on).sql = " INNER JOIN " ++ previous.sql ++ " AS previous ON " ++
      " AND ".intercalate (on.map joinSql) := rfl

theorem Source.delimited_sql : Delimited Source.sql Source.IsLegible (Begins ';') := by
  have hne : ∀ {filters : List KeyFilter} {previous : Previous} {on : List (String × String)}
      {r s : String}, (key filters).sql ++ r ≠ (join previous on).sql ++ s := by
    intro filters previous on r s heq
    simp only [sql_key, sql_join, String.append_assoc] at heq
    exact absurd (congrArg String.toList heq) (by simp)
  intro a b r s ha hb hr hs heq
  cases a with
  | key filters =>
    cases b with
    | key filters' =>
      simp only [sql_key, String.append_assoc] at heq
      obtain ⟨rfl, hrest⟩ := delimited_filters ha hb hr hs ((String.append_right_inj _).1 heq)
      exact ⟨rfl, hrest⟩
    | join previous' on' => exact absurd heq hne
  | join previous on =>
    cases b with
    | key filters' => exact absurd heq.symm hne
    | join previous' on' =>
      simp only [sql_join, String.append_assoc] at heq
      obtain ⟨rfl, hons⟩ := Previous.delimited_sql.before ha.1 hb.1 (Begins.append (by decide))
        ((String.append_right_inj _).1 heq)
      obtain ⟨rfl, hrest⟩ := delimited_joinPairs ha.2 hb.2 hr hs hons
      exact ⟨rfl, hrest⟩

theorem Fetch.sql_eq (f : Fetch) :
    f.sql = "INSERT INTO " ++ f.target ++ " SELECT " ++
      ", ".intercalate (f.columns.map currentColumn) ++ " FROM " ++ f.relation ++ " AS current" ++
        f.source.sql := rfl

theorem Fetch.delimited_sql : Delimited Fetch.sql Fetch.IsLegible (Begins ';') := by
  rintro ⟨target, columns, relation, source⟩ ⟨target', columns', relation', source'⟩ r s ha hb hr
    hs heq
  simp only [sql_eq, String.append_assoc] at heq
  obtain ⟨rfl, hcolumns⟩ := delimited_name.before ha.target hb.target (Bounds.append (by decide))
    ((String.append_right_inj _).1 heq)
  obtain ⟨rfl, hrelation⟩ :=
    delimited_currentColumns.before ha.columns hb.columns (Begins.append (by decide)) hcolumns
  obtain ⟨rfl, hsource⟩ :=
    delimited_name.before ha.relation hb.relation (Bounds.append (by decide)) hrelation
  obtain ⟨rfl, hrest⟩ := Source.delimited_sql ha.source hb.source hr hs hsource
  exact ⟨rfl, hrest⟩

theorem Fetch.paragraph_eq (f : Fetch) :
    f.paragraph = f.sql ++ ";" ++ "\n" ++ ("SELECT * FROM " ++ f.target ++ ";") := rfl

theorem Fetch.delimited_paragraph : Delimited Fetch.paragraph Fetch.IsLegible fun _ => True := by
  intro a b r s ha hb _ _ heq
  simp only [paragraph_eq, String.append_assoc] at heq
  obtain ⟨rfl, hrest⟩ := Fetch.delimited_sql.before ha hb (Begins.append (by decide)) heq
  exact ⟨rfl, by simpa only [String.append_right_inj] using hrest⟩

/-! ## Batches -/

/-- Every name and every type of the batch can be told from what is around it. -/
structure Batch.IsLegible (b : Batch) : Prop where
  declarations : ∀ d ∈ b.declarations, d.IsLegible
  fetches : ∀ f ∈ b.fetches, f.IsLegible

instance (b : Batch) : Decidable b.IsLegible :=
  decidable_of_iff ((∀ d ∈ b.declarations, d.IsLegible) ∧ ∀ f ∈ b.fetches, f.IsLegible)
    ⟨fun ⟨hdeclarations, hfetches⟩ => ⟨hdeclarations, hfetches⟩,
      fun h => ⟨h.declarations, h.fetches⟩⟩

/-- Nothing, or a blank line with something after it. -/
def EndsDeclarations (r : String) : Prop := r = "" ∨ ∃ t, r = "\n\n" ++ t

theorem delimited_declarations :
    Delimited
      (fun ds : List Declaration => "\n".intercalate (ds.map fun d => (Statement.declare d).sql))
      (fun ds => ∀ d ∈ ds, d.IsLegible) EndsDeclarations := by
  have hd : ∀ (d : Declaration) (r : String), Begins 'D' ((Statement.declare d).sql ++ r) := by
    intro d r
    simp only [Statement.sql_declare, Declaration.sql, String.append_assoc]
    exact Begins.append (by decide) _
  refine Declaration.delimited_sql.intercalate (fun _ => trivial) (fun _ _ => trivial) ?_ ?_
  · rintro d r - (h | ⟨t, h⟩)
    · exact absurd (congrArg String.toList h) (by simp)
    · -- after the line break comes a declaration, and after the first one of a blank line another
      have hline : Begins '\n' ((Statement.declare d).sql ++ r) := by
        rw [show "\n\n" = "\n" ++ "\n" from rfl, String.append_assoc] at h
        rw [(String.append_right_inj "\n").1 h]
        exact Begins.append (by decide) t
      exact absurd (hline.eq (hd d r)) (by decide)
  · rintro d r - (h | ⟨t, h⟩)
    · exact absurd (h ▸ hd d r) (by decide)
    · exact absurd ((h ▸ hd d r).eq (Begins.append (c := '\n') (by decide) t)) (by decide)

theorem delimited_paragraphs :
    Delimited (fun fs : List Fetch => "\n\n".intercalate (fs.map Fetch.paragraph))
      (fun fs => ∀ f ∈ fs, f.IsLegible) (· = "") := by
  refine Fetch.delimited_paragraph.intercalate (fun _ => trivial) (fun _ _ => trivial) ?_ ?_
  · exact fun f r _ h => absurd (congrArg String.toList h) (by simp)
  · intro f r _ h
    simp only [Fetch.paragraph_eq, Fetch.sql_eq, String.append_assoc] at h
    exact absurd (congrArg String.toList h) (by simp)

namespace Batch

/-- The blank line and the paragraphs after the declarations. -/
def paragraphs : List Fetch → String
  | [] => ""
  | f :: fs => "\n\n" ++ "\n\n".intercalate ((f :: fs).map Fetch.paragraph)

theorem endsDeclarations_paragraphs (fs : List Fetch) : EndsDeclarations (paragraphs fs) := by
  cases fs with
  | nil => exact Or.inl rfl
  | cons f fs => exact Or.inr ⟨_, rfl⟩

theorem sql_eq (b : Batch) :
    b.sql = "\n".intercalate (b.declarations.map fun d => (Statement.declare d).sql) ++
      paragraphs b.fetches := by
  unfold sql
  cases b.fetches with
  | nil => exact String.append_empty.symm
  | cons f fs => exact String.append_assoc

theorem paragraphs_inj {fs gs : List Fetch} (hfs : ∀ f ∈ fs, f.IsLegible)
    (hgs : ∀ g ∈ gs, g.IsLegible) (h : paragraphs fs = paragraphs gs) : fs = gs := by
  cases fs with
  | nil =>
    cases gs with
    | nil => rfl
    | cons g gs => exact absurd (congrArg String.toList h) (by simp [paragraphs])
  | cons f fs =>
    cases gs with
    | nil => exact absurd (congrArg String.toList h) (by simp [paragraphs])
    | cons g gs =>
      have htext := (String.append_right_inj "\n\n").1 h
      exact (delimited_paragraphs hfs hgs rfl rfl (congrArg (· ++ "") htext)).1

/-- Two legible batches have the same text exactly if they are the same batch. -/
theorem sql_inj {b c : Batch} (hb : b.IsLegible) (hc : c.IsLegible) : b.sql = c.sql ↔ b = c := by
  refine ⟨fun h => ?_, congrArg sql⟩
  obtain ⟨ds, fs⟩ := b
  obtain ⟨ds', fs'⟩ := c
  rw [sql_eq, sql_eq] at h
  obtain ⟨rfl, hparagraphs⟩ := delimited_declarations hb.declarations hc.declarations
    (endsDeclarations_paragraphs fs) (endsDeclarations_paragraphs fs') h
  obtain rfl := paragraphs_inj hb.fetches hc.fetches hparagraphs
  rfl

/-- Orders by their key, then their items, joined with the given rows. -/
def orderItems (previous : Previous) : Batch where
  declarations := [
    ⟨"@orders", [⟨"id", "int"⟩, ⟨"total", "decimal(10,2)"⟩]⟩,
    ⟨"@items", [⟨"order_id", "int"⟩, ⟨"line", "int"⟩]⟩]
  fetches := [
    ⟨"@orders", ["id", "total"], "orders", .key [⟨"id", "@0"⟩]⟩,
    ⟨"@items", ["order_id", "line"], "items", .join previous [("order_id", "id")]⟩]

theorem sql_inj_orderItems :
    (orderItems (.var "@orders")).IsLegible ∧ (orderItems (.distinct "@orders" ["id"])).IsLegible ∧
      (orderItems (.var "@orders")).sql ≠ (orderItems (.distinct "@orders" ["id"])).sql := by
  have hvar : (orderItems (.var "@orders")).IsLegible := by decide
  have hdistinct : (orderItems (.distinct "@orders" ["id"])).IsLegible := by decide
  exact ⟨hvar, hdistinct, fun h => absurd ((sql_inj hvar hdistinct).1 h) (by decide)⟩

end Batch
end FetchPlan
