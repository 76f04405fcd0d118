import FetchPlan.Json.Parser
import FetchPlan.Proofs.Json.Lexing

/-!
# Reading back a value that is written

A value is written as the parts it is made of, and these parts make up the value again. So the text
of every value whose numbers are numbers is read as this value (`parse_pretty`).
-/

namespace FetchPlan

/-- Every number of the value is written as one. -/
inductive JsonValue.Writable : JsonValue → Prop
  | null : Writable null
  | bool (b : Bool) : Writable (bool b)
  | number {text : String} (h : JsonText.IsNumber text.toList) : Writable (number text)
  | string (text : Option String) : Writable (string text)
  | array {items : List JsonValue} (all : ∀ v ∈ items, Writable v) : Writable (array items)
  | object {members : List (Option String × JsonValue)} (all : ∀ m ∈ members, Writable m.2) :
      Writable (object members)

namespace JsonText

/-! ## Parts of a value -/

/-- Parts between brackets, separated by commas. -/
def enclose (opening closing : JsonToken) (parts : List (List JsonToken)) : List JsonToken :=
  opening :: [.comma].intercalate parts ++ [closing]

mutual

/-- The parts that a value is made of, in order. -/
def parts : JsonValue → List JsonToken
  | .array items => enclose .beginArray .endArray (itemParts items)
  | .object members => enclose .beginObject .endObject (memberParts members)
  | v => [.atom v]

/-- The parts of each item. -/
def itemParts : List JsonValue → List (List JsonToken)
  | [] => []
  | v :: vs => parts v :: itemParts vs

/-- The parts of each member. -/
def memberParts : List (Option String × JsonValue) → List (List JsonToken)
  | [] => []
  | (name, v) :: ms => (.atom (.string name) :: .colon :: parts v) :: memberParts ms

end

variable {lines : List String} {pss : List (List JsonToken)} {depth : Nat}

/-! ## Cutting a written value into its parts -/

/-- The line is cut into these parts. -/
abbrev LineLexes (line : String) (ts : List JsonToken) : Prop := Lexes line.toList ts

theorem isBlank_of_mem_indent : ∀ c ∈ (indent depth).toList, isBlank c := by
  intro c hc
  rw [indent, String.toList_ofList] at hc
  rw [List.eq_of_mem_replicate hc]
  rfl

/-- A line may be indented. -/
theorem Lexes.indent {line : String} {after : List Char} {ts : List JsonToken}
    (h : Lexes (line.toList ++ after) ts) (depth : Nat) :
    Lexes ((JsonText.indent depth ++ line).toList ++ after) ts := by
  rw [String.toList_append, List.append_assoc]
  exact h.blanks _ isBlank_of_mem_indent

/-- Lines with commas between them. -/
theorem lexes_lines (depth : Nat) {line : String} {ps ts : List JsonToken} {after : List Char}
    (hafter : Lexes after ts) (hend : EndsNumber after)
    (h : List.Forall₂ LineLexes (line :: lines) (ps :: pss)) :
    Lexes ((",\n".intercalate ((line :: lines).map (indent depth ++ ·))).toList ++ after)
      ([.comma].intercalate (ps :: pss) ++ ts) := by
  induction lines generalizing line ps pss with
  | nil =>
    obtain ⟨hline, hnil⟩ := List.forall₂_cons.1 h
    obtain rfl := List.forall₂_nil_left_iff.1 hnil
    rw [List.intercalate_singleton]
    exact (hline.append hafter hend).indent depth
  | cons next lines ih =>
    obtain ⟨hline, hrest⟩ := List.forall₂_cons.1 h
    obtain ⟨ps', pss', -, -, rfl⟩ := List.forall₂_cons_left_iff.1 hrest
    have hnewline := (ih hrest).blank (c := '\n') rfl
    have hcomma := hline.append (hnewline.punctuation (c := ',') rfl) (endsNumber_cons rfl)
    have hindented := hcomma.indent depth
    have hseparator : ",\n".toList = [',', '\n'] := rfl
    rw [List.map_cons, List.map_cons, String.intercalate_cons_cons, List.intercalate_cons_cons]
    simpa only [String.toList_append, List.append_assoc, List.cons_append, List.nil_append,
      List.map_cons, hseparator] using hindented

/-- Lines between brackets, each on its own, or nothing between them. -/
theorem lexes_block {opening closing : String} {o c : Char} {t t' : JsonToken}
    (hopening : opening.toList = [o]) (ho : punctuation? o = some t)
    (hclosing : closing.toList = [c]) (hc : punctuation? c = some t')
    (h : List.Forall₂ LineLexes lines pss) :
    Lexes (block opening closing depth lines).toList (enclose t t' pss) := by
  have hclose : Lexes closing.toList [t'] := hclosing ▸ lexes_nil.punctuation hc
  cases h with
  | nil =>
    show Lexes (opening ++ closing).toList [t, t']
    rw [String.toList_append, hopening]
    exact hclose.punctuation ho
  | @cons line ps lines pss hline hlines =>
    have hafter := (hclose.blanks (indent depth).toList isBlank_of_mem_indent).blank (c := '\n') rfl
    have hinner := lexes_lines (depth + 1) hafter (endsNumber_cons rfl) (.cons hline hlines)
    have houter := (hinner.blank (c := '\n') rfl).punctuation ho
    have hnewline : "\n".toList = ['\n'] := rfl
    rw [block, if_neg (by simp)]
    simpa only [String.toList_append, List.append_assoc, List.cons_append, List.nil_append,
      hopening, hnewline, enclose] using houter

mutual

/-- A written value is cut into its parts. -/
theorem lexes_print : ∀ (v : JsonValue) (depth : Nat), v.Writable →
    Lexes (print depth v).toList (parts v)
  | .null, depth, _ => by
    rw [print]
    show Lexes ['n', 'u', 'l', 'l'] [.atom .null]
    exact lexes_part rfl fun _ _ => rfl
  | .bool true, depth, _ => by
    rw [print]
    show Lexes ['t', 'r', 'u', 'e'] [.atom (.bool true)]
    exact lexes_part rfl fun _ _ => rfl
  | .bool false, depth, _ => by
    rw [print]
    show Lexes ['f', 'a', 'l', 's', 'e'] [.atom (.bool false)]
    exact lexes_part rfl fun _ _ => rfl
  | .number text, depth, h => by
    cases h with
    | number h =>
      have hlexes := lexes_number h
      rwa [String.ofList_toList] at hlexes
  | .string text, depth, _ => lexes_printString text
  | .array items, depth, h => by
    cases h with
    | array all =>
      rw [print, parts]
      exact lexes_block rfl rfl rfl rfl (lexes_printItems items (depth + 1) all)
  | .object members, depth, h => by
    cases h with
    | object all =>
      rw [print, parts]
      exact lexes_block rfl rfl rfl rfl (lexes_printMembers members (depth + 1) all)

theorem lexes_printItems : ∀ (vs : List JsonValue) (depth : Nat), (∀ v ∈ vs, v.Writable) →
    List.Forall₂ LineLexes (printItems depth vs) (itemParts vs)
  | [], _, _ => .nil
  | v :: vs, depth, h => .cons (lexes_print v depth (h v List.mem_cons_self))
      (lexes_printItems vs depth fun w hw => h w (List.mem_cons_of_mem v hw))

theorem lexes_printMembers : ∀ (ms : List (Option String × JsonValue)) (depth : Nat),
    (∀ m ∈ ms, m.2.Writable) →
    List.Forall₂ LineLexes (printMembers depth ms) (memberParts ms)
  | [], _, _ => .nil
  | (name, v) :: ms, depth, h => by
    have hvalue := lexes_print v depth (h (name, v) List.mem_cons_self)
    have hcolon := (hvalue.blank (c := ' ') rfl).punctuation (c := ':') rfl
    have hmember := (lexes_printString name).append hcolon (endsNumber_cons rfl)
    have hseparator : ": ".toList = [':', ' '] := rfl
    refine .cons ?_ (lexes_printMembers ms depth fun m hm => h m (List.mem_cons_of_mem _ hm))
    simpa only [LineLexes, String.toList_append, List.append_assoc, List.cons_append,
      List.nil_append, hseparator] using hmember

end

/-! ## The value that parts make up -/

variable {frames : List Frame} {ts : List JsonToken}

/-- Parts lead from one place to another, whatever parts follow. -/
def Leads (ts : List JsonToken) (start stop : Place × List Frame) : Prop :=
  ts.foldlM step start = some stop

theorem Leads.append {ts ts' : List JsonToken} {x y z : Place × List Frame} (h : Leads ts x y)
    (h' : Leads ts' y z) : Leads (ts ++ ts') x z := by
  rw [Leads, List.foldlM_append, h]
  exact h'

theorem leads_cons {t : JsonToken} {x y z : Place × List Frame} (h : step x t = some y)
    (h' : Leads ts y z) : Leads (t :: ts) x z := by
  rw [Leads, List.foldlM_cons, h]
  exact h'

/-- The parts of the value make it up wherever a value may come. -/
def MadeUp (v : JsonValue) : Prop :=
  ∀ frames : List Frame, Leads (parts v) (.value, frames) (.done v, frames)

/-- The items of an array from `v` on are put behind those before. -/
theorem leads_items {v : JsonValue} {vs : List JsonValue} (h : ∀ w ∈ v :: vs, MadeUp w)
    (before : List JsonValue) (frames : List Frame) :
    Leads ([.comma].intercalate (parts v :: itemParts vs) ++ [.endArray])
      (.value, .array before :: frames) (.done (.array (before.reverse ++ v :: vs)), frames) := by
  have hv := h v List.mem_cons_self (.array before :: frames)
  induction vs generalizing v before with
  | nil =>
    have hend : Leads [.endArray] (.done v, .array before :: frames)
        (.done (.array (v :: before).reverse), frames) := rfl
    rw [List.reverse_cons] at hend
    rw [itemParts, List.intercalate_singleton]
    exact hv.append hend
  | cons w vs ih =>
    have hw := h w (List.mem_cons_of_mem v List.mem_cons_self) (.array (v :: before) :: frames)
    have hrest := ih (fun w hw => h w (List.mem_cons_of_mem v hw)) (v :: before) hw
    rw [List.reverse_cons, List.append_assoc] at hrest
    rw [itemParts, List.intercalate_cons_cons, List.append_assoc, List.append_assoc]
    exact hv.append (leads_cons rfl hrest)

/-- The first item of an array is read like any value. -/
theorem leads_firstItem {v : JsonValue} {y : Place × List Frame}
    (h : Leads ([.comma].intercalate (parts v :: pss) ++ ts) (.value, .array [] :: frames) y) :
    Leads ([.comma].intercalate (parts v :: pss) ++ ts) (.firstItem, frames) y := by
  have hfirst : ∃ rest, [.comma].intercalate (parts v :: pss) ++ ts = parts v ++ rest := by
    cases pss with
    | nil => exact ⟨ts, by rw [List.intercalate_singleton]⟩
    | cons ps pss =>
      exact ⟨_, by rw [List.intercalate_cons_cons, List.append_assoc, List.append_assoc]⟩
  obtain ⟨rest, hrest⟩ := hfirst
  rw [hrest] at h ⊢
  cases v <;> exact h

theorem madeUp_array {vs : List JsonValue} (h : ∀ v ∈ vs, MadeUp v) : MadeUp (.array vs) := by
  intro frames
  cases vs with
  | nil => rfl
  | cons v vs =>
    have hitems := leads_firstItem (leads_items h [] frames)
    exact leads_cons (y := (.firstItem, frames)) rfl hitems

/-- The members of an object from `name` on are put behind those before. -/
theorem leads_members {name : Option String} {v : JsonValue}
    {ms : List (Option String × JsonValue)} (h : ∀ m ∈ (name, v) :: ms, MadeUp m.2)
    (before : List (Option String × JsonValue)) (frames : List Frame) :
    Leads ([.comma].intercalate (memberParts ((name, v) :: ms)) ++ [.endObject])
      (.name before, frames) (.done (.object (before.reverse ++ (name, v) :: ms)), frames) := by
  have hv := h (name, v) List.mem_cons_self (.object before name :: frames)
  induction ms generalizing name v before with
  | nil =>
    have hend : Leads [.endObject] (.done v, .object before name :: frames)
        (.done (.object ((name, v) :: before).reverse), frames) := rfl
    rw [List.reverse_cons] at hend
    rw [memberParts, memberParts, List.intercalate_singleton]
    exact leads_cons rfl (leads_cons rfl (hv.append hend))
  | cons m ms ih =>
    have hm := h m (List.mem_cons_of_mem _ List.mem_cons_self)
      (.object ((name, v) :: before) m.1 :: frames)
    have hrest := ih (fun m hm => h m (List.mem_cons_of_mem _ hm)) ((name, v) :: before) hm
    rw [List.reverse_cons, List.append_assoc] at hrest
    rw [memberParts, memberParts, List.intercalate_cons_cons, List.append_assoc, List.append_assoc]
    exact leads_cons rfl (leads_cons rfl (hv.append (leads_cons rfl hrest)))

theorem madeUp_object {ms : List (Option String × JsonValue)} (h : ∀ m ∈ ms, MadeUp m.2) :
    MadeUp (.object ms) := by
  intro frames
  cases ms with
  | nil => rfl
  | cons m ms =>
    refine leads_cons (y := (.firstName, frames)) rfl ?_
    have hmembers := leads_members h [] frames
    -- A first name leads to the same place as a name that comes after members.
    cases ms with
    | _ => exact hmembers

mutual

/-- The parts of a value make it up. -/
theorem madeUp : ∀ v : JsonValue, MadeUp v
  | .null | .bool _ | .number _ | .string _ => fun _ => rfl
  | .array items => madeUp_array (madeUp_items items)
  | .object members => madeUp_object (madeUp_members members)

theorem madeUp_items : ∀ (vs : List JsonValue), ∀ v ∈ vs, MadeUp v
  | v :: vs => List.forall_mem_cons.2 ⟨madeUp v, madeUp_items vs⟩
  | [] => fun _ hv => absurd hv List.not_mem_nil

theorem madeUp_members : ∀ (ms : List (Option String × JsonValue)), ∀ m ∈ ms, MadeUp m.2
  | (_, v) :: ms => List.forall_mem_cons.2 ⟨madeUp v, madeUp_members ms⟩
  | [] => fun _ hm => absurd hm List.not_mem_nil

end

theorem valueOf_parts (v : JsonValue) : valueOf (parts v) = some v := by
  rw [valueOf, madeUp v []]

/-- The text of a value is read as this value. -/
theorem parse_pretty {v : JsonValue} (h : v.Writable) : parse (pretty v) = some v := by
  rw [parse, pretty, (lexes_print v 0 h).tokens_eq]
  exact valueOf_parts v

end JsonText
end FetchPlan
