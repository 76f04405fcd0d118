import FetchPlan.Proofs.Json.Grammar
import FetchPlan.Proofs.Schema.Description

/-!
# The spellings of a description

Relations may be described in many ways: fields may come in any order and among others that mean
nothing, a record may be an array, associations may be left out if there are none, and every value
may be spelled in every way that JSON allows. All descriptions of the same relations have the same
result (`Schema.ofDescription_spelled`). Texts that give a field twice or not at all, or go on after
the description, are rejected.
-/

namespace FetchPlan

open JsonText

/-! ## Lists -/

section Lists

variable {α β : Type} {f : α → Option β} {as : List α} {bs : List β}

theorem exists_of_mapM {a : α} (h : as.mapM f = some bs) (ha : a ∈ as) :
    ∃ b, f a = some b ∧ (a, b) ∈ as.zip bs := by
  induction as generalizing bs with
  | nil => exact absurd ha List.not_mem_nil
  | cons a' as ih =>
    rw [List.mapM_cons] at h
    obtain ⟨b', hb, h⟩ := Option.bind_eq_some_iff.1 h
    obtain ⟨bs', hbs, h⟩ := Option.bind_eq_some_iff.1 h
    obtain rfl := Option.some.inj h
    rcases List.mem_cons.1 ha with rfl | ha
    · exact ⟨b', hb, List.mem_cons_self⟩
    · obtain ⟨b, hb, hmem⟩ := ih hbs ha
      exact ⟨b, hb, List.mem_cons_of_mem _ hmem⟩

end Lists

namespace JsonValue

/-! ## Records that give their fields -/

variable {v w : JsonValue} {name : String} {fields required : List String}
  {given : List (String × Option JsonValue)} {values : List (Option JsonValue)}
  {members unknown : List (Option String × JsonValue)} {items : List JsonValue}

/-- The fields that have a value, as members of an object. -/
def named (given : List (String × Option JsonValue)) : List (Option String × JsonValue) :=
  given.flatMap fun p => p.2.toList.map (some p.1, ·)

/-- The record gives every field its value, or none. The members of an object may come in any
order, also among others that are not fields. The values of an array are those of the first
fields. -/
inductive Gives (given : List (String × Option JsonValue)) : JsonValue → Prop
  | object {members unknown : List (Option String × JsonValue)}
      (hperm : members.Perm (named given ++ unknown))
      (hunknown : ∀ m ∈ unknown, ∃ name, m.1 = some name ∧ name ∉ given.map Prod.fst) :
      Gives given (.object members)
  | array {items : List JsonValue} {missing : Nat}
      (h : given.map Prod.snd = items.map some ++ List.replicate missing none) :
      Gives given (.array items)

theorem filter_named_of_not_mem (h : name ∉ given.map Prod.fst) :
    (named given).filter (·.1 = some name) = [] := by
  rw [List.filter_eq_nil_iff]
  intro m hm
  obtain ⟨p, hp, hm⟩ := List.mem_flatMap.1 hm
  obtain ⟨_, -, rfl⟩ := List.mem_map.1 hm
  simpa using fun hname : p.1 = name => h (hname ▸ List.mem_map_of_mem hp)

theorem filter_named {value : Option JsonValue} (hnodup : (given.map Prod.fst).Nodup)
    (h : (name, value) ∈ given) :
    (named given).filter (·.1 = some name) = value.toList.map (some name, ·) := by
  induction given with
  | nil => exact absurd h List.not_mem_nil
  | cons p given ih =>
    obtain ⟨hp, hnodup⟩ := List.nodup_cons.1 hnodup
    rw [named, List.flatMap_cons, ← named, List.filter_append]
    rcases List.mem_cons.1 h with rfl | h
    · rw [filter_named_of_not_mem hp, List.append_nil, List.filter_eq_self.2]
      intro m hm
      obtain ⟨_, -, rfl⟩ := List.mem_map.1 hm
      exact decide_eq_true rfl
    · have hne : p.1 ≠ name := fun hname => hp (hname ▸ List.mem_map_of_mem (f := Prod.fst) h)
      rw [ih hnodup h, List.filter_eq_nil_iff.2, List.nil_append]
      intro m hm
      obtain ⟨_, -, rfl⟩ := List.mem_map.1 hm
      simpa using hne

/-- A field is found by its name, wherever it is and whatever else is there. -/
theorem member?_of_perm {value : Option JsonValue} (hnodup : (given.map Prod.fst).Nodup)
    (hperm : members.Perm (named given ++ unknown))
    (hunknown : ∀ m ∈ unknown, ∃ name, m.1 = some name ∧ name ∉ given.map Prod.fst)
    (h : (name, value) ∈ given) : member? name members = some value := by
  have hnone : unknown.filter (·.1 = some name) = [] := by
    rw [List.filter_eq_nil_iff]
    intro m hm
    obtain ⟨other, hother, hnot⟩ := hunknown m hm
    have hne : other ≠ name := fun heq => hnot (heq ▸ List.mem_map_of_mem (f := Prod.fst) h)
    simpa [hother] using hne
  have hfilter := hperm.filter (·.1 = some name)
  rw [List.filter_append, filter_named hnodup h, hnone, List.append_nil] at hfilter
  cases value with
  | none => rw [member?, List.perm_nil.1 hfilter]
  | some v => rw [member?, List.perm_singleton.1 hfilter]

theorem record?_of_gives (h : Gives given v) (hnodup : (given.map Prod.fst).Nodup) :
    v.record? (given.map Prod.fst) = some (given.map Prod.snd) := by
  cases h with
  | @object members unknown hperm hunknown =>
    have hnamed : ∀ m ∈ members, m.1 ≠ none := by
      intro m hm
      rcases List.mem_append.1 (hperm.mem_iff.1 hm) with hm | hm
      · obtain ⟨p, -, hm⟩ := List.mem_flatMap.1 hm
        obtain ⟨_, -, rfl⟩ := List.mem_map.1 hm
        exact Option.some_ne_none p.1
      · obtain ⟨other, hother, -⟩ := hunknown m hm
        exact hother ▸ Option.some_ne_none other
    have hany : ¬ members.any (·.1 = none) := by
      intro h
      obtain ⟨m, hm, hnone⟩ := List.any_eq_true.1 h
      exact hnamed m hm (of_decide_eq_true hnone)
    rw [record?, if_neg hany]
    refine mapM_of_forall₂ (List.forall₂_map_left_iff.2 (List.forall₂_map_right_iff.2 ?_))
    exact List.forall₂_same.2 fun p hp => member?_of_perm hnodup hperm hunknown hp
  | @array items missing h =>
    have hlength := congrArg List.length h
    simp only [List.length_map, List.length_append, List.length_replicate] at hlength
    rw [record?, if_pos (by simp; omega), h, List.length_map, hlength, Nat.add_sub_cancel_left]

/-! ## Records that do not -/

/-- The record gives a field twice, lacks one that is required, or has more items than fields. -/
inductive Defective (fields required : List String) : JsonValue → Prop
  | repeated {name : String} {v w : JsonValue}
      {before between after : List (Option String × JsonValue)} (h : name ∈ fields) :
      Defective fields required
        (.object (before ++ (some name, v) :: (between ++ (some name, w) :: after)))
  | missing {name : String} {members : List (Option String × JsonValue)} (h : name ∈ required)
      (hmissing : ∀ m ∈ members, m.1 ≠ some name) : Defective fields required (.object members)
  | short {name : String} {items : List JsonValue} (h : name ∈ required)
      (hshort : name ∉ fields.take items.length) : Defective fields required (.array items)
  | long {items : List JsonValue} (h : fields.length < items.length) :
      Defective fields required (.array items)

/-- The record gives the field this value. -/
inductive HasField (fields : List String) (name : String) (w : JsonValue) : JsonValue → Prop
  | member {members : List (Option String × JsonValue)} (h : (some name, w) ∈ members) :
      HasField fields name w (.object members)
  | item {items : List JsonValue} (h : (name, w) ∈ fields.zip items) :
      HasField fields name w (.array items)

theorem record?_object (h : (object members).record? fields = some values) (hname : name ∈ fields) :
    ∃ value, member? name members = some value ∧ (name, value) ∈ fields.zip values := by
  rw [record?] at h
  split at h
  · exact absurd h (by simp)
  · exact exists_of_mapM h hname

theorem record?_array (h : (array items).record? fields = some values) :
    items.length ≤ fields.length ∧
      values = items.map some ++ List.replicate (fields.length - items.length) none := by
  rw [record?] at h
  split at h
  · next hle => exact ⟨hle, (Option.some.inj h).symm⟩
  · exact absurd h (by simp)

/-- The value of a member is the value of the field. -/
theorem member?_of_mem {value : Option JsonValue} (h : (some name, w) ∈ members)
    (hvalue : member? name members = some value) : value = some w := by
  have hmem : (some name, w) ∈ members.filter (·.1 = some name) :=
    List.mem_filter.2 ⟨h, decide_eq_true rfl⟩
  unfold member? at hvalue
  split at hvalue
  · next hnil => exact absurd hmem (hnil ▸ List.not_mem_nil)
  · next hsingle =>
    obtain rfl := Option.some.inj hvalue
    rw [hsingle, List.mem_singleton] at hmem
    rw [(Prod.mk.inj hmem).2]
  · exact absurd hvalue (by simp)

theorem HasField.mem_zip (h : HasField fields name w v) (hname : name ∈ fields)
    (hvalues : v.record? fields = some values) : (name, some w) ∈ fields.zip values := by
  cases h with
  | member h =>
    obtain ⟨value, hvalue, hmem⟩ := record?_object hvalues hname
    rwa [← member?_of_mem h hvalue]
  | @item items h =>
    obtain ⟨-, rfl⟩ := record?_array hvalues
    obtain ⟨i, hi, heq⟩ := List.mem_iff_getElem.1 h
    have hitem : i < items.length := List.lt_length_right_of_zip hi
    rw [List.getElem_zip] at heq
    obtain ⟨rfl, rfl⟩ := Prod.mk.inj heq
    refine List.mem_iff_getElem.2 ⟨i, by simp at hi ⊢; omega, ?_⟩
    rw [List.getElem_zip, List.getElem_append_left (by simpa using hitem), List.getElem_map]

/-- A defective record is no record, or a field that is required has no value. -/
theorem Defective.mem_zip (h : Defective fields required v) (hrequired : required ⊆ fields)
    (hvalues : v.record? fields = some values) :
    ∃ name ∈ required, (name, none) ∈ fields.zip values := by
  cases h with
  | @repeated name v w before between after h =>
    obtain ⟨value, hvalue, -⟩ := record?_object hvalues h
    have htwice : 2 ≤ ((before ++ (some name, v) :: (between ++ (some name, w) :: after)).filter
        (·.1 = some name)).length := by
      simp
      omega
    unfold member? at hvalue
    split at hvalue
    · next hnil => exact absurd htwice (by rw [hnil]; decide)
    · next hsingle => exact absurd htwice (by rw [hsingle]; simp)
    · exact absurd hvalue (by simp)
  | @missing name members h hmissing =>
    obtain ⟨value, hvalue, hmem⟩ := record?_object hvalues (hrequired h)
    have hnil : members.filter (·.1 = some name) = [] :=
      List.filter_eq_nil_iff.2 fun m hm => by simpa using hmissing m hm
    rw [member?, hnil] at hvalue
    exact ⟨name, h, Option.some.inj hvalue ▸ hmem⟩
  | @short name items h hshort =>
    obtain ⟨hle, rfl⟩ := record?_array hvalues
    refine ⟨name, h, ?_⟩
    obtain ⟨i, hi, rfl⟩ := List.mem_iff_getElem.1 (hrequired h)
    have hbeyond : items.length ≤ i := by
      by_contra hlt
      exact hshort (List.mem_take_iff_getElem.2 ⟨i, by omega, rfl⟩)
    refine List.mem_iff_getElem.2 ⟨i, by simp; omega, ?_⟩
    rw [List.getElem_zip, List.getElem_append_right (by simpa using hbeyond),
      List.getElem_replicate]
  | long h =>
    obtain ⟨hle, -⟩ := record?_array hvalues
    omega

theorem list?_of_forall₂ {α : Type} {read : JsonValue → Option α} {l : List α}
    (h : List.Forall₂ (fun a v => read v = some a) l items) :
    (array items).list? read = some l :=
  mapM_of_forall₂ h.flip

theorem exists_of_list? {α : Type} {read : JsonValue → Option α} {l : List α}
    (h : (array items).list? read = some l) (hv : v ∈ items) : ∃ a, read v = some a := by
  obtain ⟨a, ha, -⟩ := exists_of_mapM h hv
  exact ⟨a, ha⟩

end JsonValue

open JsonValue

/-! ## Columns and associations -/

namespace Column

variable {c : Column} {v : JsonValue}

/-- The record describes the column. -/
def DescribedBy (c : Column) (v : JsonValue) : Prop :=
  Gives [("name", some (.string c.name)), ("sql_type", some (.string c.sqlType))] v

/-- The record describes no column. -/
def Malformed (v : JsonValue) : Prop := Defective fields fields v

theorem ofJson?_of_describedBy (h : c.DescribedBy v) : ofJson? v = some c := by
  have hnodup : fields.Nodup := by decide
  have hrecord : v.record? fields = _ := record?_of_gives h hnodup
  rw [ofJson?, hrecord]
  rfl

theorem ofJson?_of_malformed (h : Malformed v) : ofJson? v = none := by
  refine Option.eq_none_iff_forall_ne_some.2 fun c hc => ?_
  obtain ⟨values, hvalues, hc⟩ := Option.bind_eq_some_iff.1 hc
  obtain ⟨name, -, hmem⟩ := h.mem_zip (List.Subset.refl fields) hvalues
  split at hc
  · simp [fields] at hmem
  · cases hc

end Column

namespace Association

variable {a : Association} {v : JsonValue}

/-- The record describes the association. -/
def DescribedBy (a : Association) (v : JsonValue) : Prop :=
  Gives [("name", some (.string a.name)), ("this_key", some (.string a.thisKey)),
    ("other_relation", some (.string a.otherRelation)),
    ("other_key", some (.string a.otherKey))] v

/-- The record describes no association. -/
def Malformed (v : JsonValue) : Prop := Defective fields fields v

theorem ofJson?_of_describedBy (h : a.DescribedBy v) : ofJson? v = some a := by
  have hnodup : fields.Nodup := by decide
  have hrecord : v.record? fields = _ := record?_of_gives h hnodup
  rw [ofJson?, hrecord]
  rfl

theorem ofJson?_of_malformed (h : Malformed v) : ofJson? v = none := by
  refine Option.eq_none_iff_forall_ne_some.2 fun a ha => ?_
  obtain ⟨values, hvalues, ha⟩ := Option.bind_eq_some_iff.1 ha
  obtain ⟨name, -, hmem⟩ := h.mem_zip (List.Subset.refl fields) hvalues
  split at ha
  · simp [fields] at hmem
  · cases ha

end Association

/-! ## Relations -/

namespace Relation

variable {r : Relation} {v : JsonValue}

/-- The value describes the associations of a relation, which may be missing if there are none. -/
inductive ListsAssociations (l : List Association) : Option JsonValue → Prop
  | given {items : List JsonValue} (h : List.Forall₂ Association.DescribedBy l items) :
      ListsAssociations l (some (.array items))
  | omitted (h : l = []) : ListsAssociations l none

/-- The record describes the relation. -/
inductive DescribedBy (r : Relation) (v : JsonValue) : Prop
  | intro {columns : List JsonValue} {associations : Option JsonValue}
      (hcolumns : List.Forall₂ Column.DescribedBy r.columns columns)
      (hassociations : ListsAssociations r.associations associations)
      (h : Gives [("name", some (.string r.name)), ("columns", some (.array columns)),
        ("primary_key", some (.array (r.primaryKey.map fun field => .string (some field)))),
        ("associations", associations)] v)

/-- The fields that must be there. -/
def required : List String := ["name", "columns", "primary_key"]

/-- The record describes no relation. -/
inductive Malformed (v : JsonValue) : Prop
  | record (h : Defective fields required v)
  | column {items : List JsonValue} {c : JsonValue}
      (hfield : HasField fields "columns" (.array items) v) (hmem : c ∈ items)
      (h : Column.Malformed c)
  | null (hfield : HasField fields "associations" .null v)
  | association {items : List JsonValue} {a : JsonValue}
      (hfield : HasField fields "associations" (.array items) v) (hmem : a ∈ items)
      (h : Association.Malformed a)

theorem ofJson?_of_describedBy (h : r.DescribedBy v) : ofJson? v = some r := by
  obtain @⟨columns, associations, hcolumns, hassociations, h⟩ := h
  have hnodup : fields.Nodup := by decide
  have hrecord : v.record? fields = _ := record?_of_gives h hnodup
  have hcolumns : (array columns).list? Column.ofJson? = some r.columns :=
    list?_of_forall₂ (hcolumns.imp fun _ _ => Column.ofJson?_of_describedBy)
  have hkey := @list?_map String JsonValue.string? (fun field => .string (some field))
    (fun _ => rfl) r.primaryKey
  cases hassociations with
  | @given items hitems =>
    have hassociations : (array items).list? Association.ofJson? = some r.associations :=
      list?_of_forall₂ (hitems.imp fun _ _ => Association.ofJson?_of_describedBy)
    simp only [ofJson?, hrecord, List.map_cons, List.map_nil, hcolumns, hkey, hassociations,
      JsonValue.string?, Option.bind_eq_bind, Option.bind_some, Option.pure_def]
  | omitted hnone =>
    simp only [ofJson?, hrecord, List.map_cons, List.map_nil, hcolumns, hkey, ← hnone,
      JsonValue.string?, Option.bind_eq_bind, Option.bind_some, Option.pure_def]

/-- What a record has given if it describes a relation. -/
theorem ofJson?_eq_some (h : ofJson? v = some r) : ∃ name columns key associations,
    v.record? fields = some [some name, some columns, some key, associations] ∧
      columns.list? Column.ofJson? = some r.columns ∧
      ∀ w ∈ associations, w.list? Association.ofJson? = some r.associations := by
  obtain ⟨values, hvalues, h⟩ := Option.bind_eq_some_iff.1 h
  split at h
  · next name columns key associations =>
    refine ⟨name, columns, key, associations, hvalues, ?_⟩
    obtain ⟨name', -, h⟩ := Option.bind_eq_some_iff.1 h
    obtain ⟨columns', hcolumns, h⟩ := Option.bind_eq_some_iff.1 h
    obtain ⟨key', -, h⟩ := Option.bind_eq_some_iff.1 h
    cases associations with
    | none =>
      obtain rfl := Option.some.inj h
      exact ⟨hcolumns, fun w hw => absurd hw (Option.not_mem_none w)⟩
    | some w =>
      obtain ⟨associations', hassociations, h⟩ := Option.bind_eq_some_iff.1 h
      obtain rfl := Option.some.inj h
      exact ⟨hcolumns, fun w' hw => Option.some.inj hw ▸ hassociations⟩
  · cases h

theorem ofJson?_of_malformed (h : Malformed v) : ofJson? v = none := by
  refine Option.eq_none_iff_forall_ne_some.2 fun r hr => ?_
  obtain ⟨name, columns, key, associations, hvalues, hcolumns, hassociations⟩ :=
    ofJson?_eq_some hr
  cases h with
  | record h =>
    obtain ⟨field, hfield, hmem⟩ := h.mem_zip (by decide) hvalues
    obtain ⟨rfl, -⟩ : field = "associations" ∧ none = associations := by
      simpa [fields] using hmem
    exact absurd hfield (by decide)
  | column hfield hmem h =>
    have hzip := hfield.mem_zip (by decide) hvalues
    obtain rfl : columns = .array _ := by simpa [fields, eq_comm] using hzip
    obtain ⟨c, hc⟩ := exists_of_list? hcolumns hmem
    exact absurd (Column.ofJson?_of_malformed h) (by simp [hc])
  | null hfield =>
    have hzip := hfield.mem_zip (by decide) hvalues
    obtain rfl : associations = some .null := by simpa [fields, eq_comm] using hzip
    exact absurd (hassociations _ rfl) (by simp [list?])
  | association hfield hmem h =>
    have hzip := hfield.mem_zip (by decide) hvalues
    obtain rfl : associations = some (.array _) := by simpa [fields, eq_comm] using hzip
    obtain ⟨a, ha⟩ := exists_of_list? (hassociations _ rfl) hmem
    exact absurd (Association.ofJson?_of_malformed h) (by simp [ha])

end Relation

/-! ## Schemas -/

namespace Schema

variable {rs : List Relation} {v : JsonValue}

/-- The record describes the relations. -/
def DescribedBy (rs : List Relation) (v : JsonValue) : Prop :=
  ∃ items, List.Forall₂ Relation.DescribedBy rs items ∧ Gives [("relations", some (.array items))] v

/-- The record describes no relations. -/
inductive Malformed (v : JsonValue) : Prop
  | record (h : Defective fields fields v)
  | relation {items : List JsonValue} {r : JsonValue}
      (hfield : HasField fields "relations" (.array items) v) (hmem : r ∈ items)
      (h : Relation.Malformed r)

theorem relationsOfJson?_of_describedBy (h : DescribedBy rs v) : relationsOfJson? v = some rs := by
  obtain ⟨items, hitems, h⟩ := h
  have hnodup : fields.Nodup := by decide
  have hrecord : v.record? fields = _ := record?_of_gives h hnodup
  rw [relationsOfJson?, hrecord]
  exact list?_of_forall₂ (hitems.imp fun _ _ => Relation.ofJson?_of_describedBy)

theorem relationsOfJson?_of_malformed (h : Malformed v) : relationsOfJson? v = none := by
  refine Option.eq_none_iff_forall_ne_some.2 fun rs hrs => ?_
  obtain ⟨values, hvalues, hrs⟩ := Option.bind_eq_some_iff.1 hrs
  split at hrs
  · next relations =>
    cases h with
    | record h =>
      obtain ⟨field, -, hmem⟩ := h.mem_zip (List.Subset.refl fields) hvalues
      simp [fields] at hmem
    | relation hfield hmem h =>
      have hzip := hfield.mem_zip (by decide) hvalues
      obtain rfl : relations = .array _ := by simpa [fields, eq_comm] using hzip
      obtain ⟨r, hr⟩ := exists_of_list? hrs hmem
      exact absurd (Relation.ofJson?_of_malformed h) (by simp [hr])
  · cases hrs

/-- The text describes the relations. -/
def Describes (text : String) (rs : List Relation) : Prop :=
  ∃ v, Spells v text.toList ∧ DescribedBy rs v

/-- The error for texts that are no description. -/
def Rejected (text : String) : Prop :=
  ofDescription text = .error (Cause.foreign "the text does not describe a schema")

theorem rejected_of_none {text : String}
    (h : ∀ v, parse text = some v → relationsOfJson? v = none) : Rejected text := by
  have hnone : (parse text).bind relationsOfJson? = none := Option.bind_eq_none_iff.2 h
  rw [Rejected, ofDescription, hnone]

/-- All descriptions of the same relations have the same result, that of verification. A text is
rejected if a record in it is malformed, or if more than blanks follow a value. -/
theorem ofDescription_spelled :
    (∀ text rs, Describes text rs → ofDescription text = ofRelations rs) ∧
      (∀ text v, Spells v text.toList → Malformed v → Rejected text) ∧
      ∀ (text after : String) (v : JsonValue), Spells v text.toList →
        (∃ c ∈ after.toList, isBlank c = false) → Rejected (text ++ after) := by
  refine ⟨?_, ?_, ?_⟩
  · rintro text rs ⟨v, hspells, hdescribed⟩
    have hread : (parse text).bind relationsOfJson? = some rs := by
      rw [parse_of_spells hspells]
      exact relationsOfJson?_of_describedBy hdescribed
    rw [ofDescription, hread]
  · intro text v hspells hmalformed
    refine rejected_of_none fun w hw => ?_
    obtain rfl := Option.some.inj ((parse_of_spells hspells).symm.trans hw)
    exact relationsOfJson?_of_malformed hmalformed
  · rintro text after v hspells ⟨c, hc, hblank⟩
    refine rejected_of_none fun w hw => ?_
    obtain ⟨n, rfl⟩ := parse_of_spells_append hspells hc hblank hw
    rfl

/-- The schema and its column are arrays. The relation gives its columns first, then its name, a
field that is unknown, and its key, which is spelled with an escape. It has no associations. After
this description a comma is too much. -/
theorem ofDescription_spelled_oddly :
    let relation : Relation := ⟨"A", [⟨"B", "int"⟩], ["B"], []⟩
    let text := "[[\x7b\"columns\":[[\"B\",\"int\"]],\"name\":\"A\",\"?\":-1.5e3 ," ++
      "\"primary_key\":[\"\\u0042\"]\x7d]]"
    ofDescription text = ofRelations [relation] ∧ Rejected (text ++ " ,") := by
  intro relation text
  have hplain : (["columns", "B", "int", "name", "A", "?", "primary_key"].all fun s =>
      s.toList.all fun c => c ≠ '"' && c ≠ '\\' && 32 ≤ c.toNat) = true := by decide +kernel
  have hstring : ∀ s ∈ ["columns", "B", "int", "name", "A", "?", "primary_key"],
      Spells (.string (some s)) ('"' :: (s.toList ++ ['"'])) :=
    fun s hs => spells_string s (by simpa [and_assoc] using List.all_eq_true.1 hplain s hs)
  have hcolumns : Spells (.array [.array [.string (some "B"), .string (some "int")]]) _ :=
    .array (.last (.array (.cons (hstring "B" (by simp)) (.last (hstring "int" (by simp))))))
  have hdigits : ['1', '5', '3'].all Char.isDigit = true := by decide +kernel
  have hdigit : ∀ c ∈ ['1', '5', '3'], Digits [c] := fun c hc =>
    ⟨List.cons_ne_nil c [], List.forall_mem_singleton.2 (List.all_eq_true.1 hdigits c hc)⟩
  have hnumber : Spells (.number "-1.5e3") ['-', '1', '.', '5', 'e', '3'] :=
    .number (.negative ⟨['1'], ['.', '5'], ['e', '3'],
      .digits (by simp) (hdigit '1' (by simp)), .point (hdigit '5' (by simp)),
      .unsigned (by simp) (hdigit '3' (by simp)), rfl⟩)
  have hunit : PieceText (.unit 66) ['\\', 'u', '0', '0', '4', '2'] := .unit rfl
  have hkey : Spells (.array [.string (some "B")]) _ :=
    .array (.last (.string (.cons hunit .nil)))
  have hmembers := SpellsMembers.cons (hstring "columns" (by simp)) hcolumns
    (.cons (hstring "name" (by simp)) (hstring "A" (by simp))
      (.cons (hstring "?" (by simp)) (.after (c := ' ') rfl hnumber)
        (.last (hstring "primary_key" (by simp)) hkey)))
  obtain ⟨chars, hspells, rfl⟩ : ∃ chars, Spells (.array [.array [.object _]]) chars ∧
      chars = text.toList :=
    ⟨_, .array (.last (.array (.last (.object hmembers)))), by decide +kernel⟩
  have hcolumn : Column.DescribedBy ⟨"B", "int"⟩
      (.array [.string (some "B"), .string (some "int")]) :=
    .array (show _ = List.map some _ ++ List.replicate 0 none from rfl)
  have hrelation : relation.DescribedBy (.object _) :=
    .intro (.cons hcolumn .nil) (.omitted rfl)
      (.object (show List.Perm _ (named _ ++ [(some "?", .number "-1.5e3")]) from
        (List.Perm.swap _ _ _).trans (.cons _ (.cons _ (.swap _ _ _)))) (by simp))
  have hdescribes : Describes text [relation] :=
    ⟨_, hspells, _, .cons hrelation .nil,
      .array (show _ = List.map some _ ++ List.replicate 0 none from rfl)⟩
  exact ⟨ofDescription_spelled.1 text _ hdescribes,
    ofDescription_spelled.2.2 text " ," _ hspells ⟨',', by decide, rfl⟩⟩

end Schema
end FetchPlan
