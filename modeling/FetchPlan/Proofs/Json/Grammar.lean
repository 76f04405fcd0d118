import FetchPlan.Proofs.Json.RoundTrip

/-!
# The spellings of a JSON value

`Spells` is the grammar of JSON: blanks may stand before and after every value and name, characters
of a string may be escaped in several ways, and numbers are written in any of their forms. All
spellings of a value are read as this value (`parse_of_spells`). A text that goes on after a value
is not read as an array or an object (`parse_of_spells_append`).
-/

namespace FetchPlan.JsonText

/-! ## Grammar -/

/-- One digit or more. -/
def Digits (text : List Char) : Prop := text ≠ [] ∧ ∀ c ∈ text, c.isDigit

/-- The whole part of a number, without a zero in front. -/
inductive WholeText : List Char → Prop
  | zero : WholeText ['0']
  | digits {c : Char} {text : List Char} (hc : c ≠ '0') (h : Digits (c :: text)) :
      WholeText (c :: text)

/-- The digits after the point. -/
inductive FractionText : List Char → Prop
  | none : FractionText []
  | point {text : List Char} (h : Digits text) : FractionText ('.' :: text)

/-- The exponent, with or without a sign. -/
inductive ExponentText : List Char → Prop
  | none : ExponentText []
  | unsigned {c : Char} {text : List Char} (hc : c = 'e' ∨ c = 'E') (h : Digits text) :
      ExponentText (c :: text)
  | signed {c d : Char} {text : List Char} (hc : c = 'e' ∨ c = 'E') (hd : d = '+' ∨ d = '-')
      (h : Digits text) : ExponentText (c :: d :: text)

/-- A number without its sign. -/
def UnsignedText (text : List Char) : Prop :=
  ∃ whole fraction exponent, WholeText whole ∧ FractionText fraction ∧ ExponentText exponent ∧
    text = whole ++ (fraction ++ exponent)

/-- A number. -/
inductive NumberText : List Char → Prop
  | positive {text : List Char} (h : UnsignedText text) : NumberText text
  | negative {text : List Char} (h : UnsignedText text) : NumberText ('-' :: text)

/-- What may be written between quotes for a piece of a string. -/
inductive PieceText : Piece → List Char → Prop
  | plain {c : Char} (hquote : c ≠ '"') (hslash : c ≠ '\\') (h : 32 ≤ c.toNat) :
      PieceText (.char c) [c]
  | escaped {c d : Char} (h : unescape? d = some c) : PieceText (.char c) ['\\', d]
  | unit {w x y z : Char} {n : Nat} (h : unit? w x y z = some n) :
      PieceText (.unit n) ['\\', 'u', w, x, y, z]

/-- What may be written between quotes. -/
inductive PiecesText : List Piece → List Char → Prop
  | nil : PiecesText [] []
  | cons {p : Piece} {ps : List Piece} {text text' : List Char} (h : PieceText p text)
      (hs : PiecesText ps text') : PiecesText (p :: ps) (text ++ text')

mutual

/-- The text is a spelling of the value. -/
inductive Spells : JsonValue → List Char → Prop
  | before {v : JsonValue} {c : Char} {text : List Char} (hc : isBlank c) (h : Spells v text) :
      Spells v (c :: text)
  | after {v : JsonValue} {c : Char} {text : List Char} (hc : isBlank c) (h : Spells v text) :
      Spells v (text ++ [c])
  | null : Spells .null ['n', 'u', 'l', 'l']
  | true : Spells (.bool true) ['t', 'r', 'u', 'e']
  | false : Spells (.bool false) ['f', 'a', 'l', 's', 'e']
  | number {text : List Char} (h : NumberText text) : Spells (.number (String.ofList text)) text
  | string {ps : List Piece} {text : List Char} (h : PiecesText ps text) :
      Spells (.string (denoted ps)) ('"' :: (text ++ ['"']))
  | emptyArray {text : List Char} (h : ∀ c ∈ text, isBlank c) :
      Spells (.array []) ('[' :: (text ++ [']']))
  | array {vs : List JsonValue} {text : List Char} (h : SpellsItems vs text) :
      Spells (.array vs) ('[' :: (text ++ [']']))
  | emptyObject {text : List Char} (h : ∀ c ∈ text, isBlank c) :
      Spells (.object []) ('{' :: (text ++ ['}']))
  | object {ms : List (Option String × JsonValue)} {text : List Char} (h : SpellsMembers ms text) :
      Spells (.object ms) ('{' :: (text ++ ['}']))

/-- The text is a spelling of the items of an array that is not empty. -/
inductive SpellsItems : List JsonValue → List Char → Prop
  | last {v : JsonValue} {text : List Char} (h : Spells v text) : SpellsItems [v] text
  | cons {v : JsonValue} {vs : List JsonValue} {text text' : List Char} (h : Spells v text)
      (hs : SpellsItems vs text') : SpellsItems (v :: vs) (text ++ ',' :: text')

/-- The text is a spelling of the members of an object that is not empty. -/
inductive SpellsMembers : List (Option String × JsonValue) → List Char → Prop
  | last {name : Option String} {v : JsonValue} {text text' : List Char}
      (hname : Spells (.string name) text) (h : Spells v text') :
      SpellsMembers [(name, v)] (text ++ ':' :: text')
  | cons {name : Option String} {v : JsonValue} {ms : List (Option String × JsonValue)}
      {text text' text'' : List Char} (hname : Spells (.string name) text) (h : Spells v text')
      (hs : SpellsMembers ms text'') :
      SpellsMembers ((name, v) :: ms) (text ++ ':' :: (text' ++ ',' :: text''))

end

variable {c d : Char} {text text' rest : List Char}

/-! ## Numbers -/

/-- Digits are read up to the first character that is none. -/
theorem Digits.read (h : Digits text) (hrest : ∀ c ∈ rest.head?, c.isDigit = false) :
    readDigits (text ++ rest) = some (text, rest) := by
  obtain ⟨hne, hdigits⟩ := h
  have hspan : rest.takeWhile Char.isDigit = [] ∧ rest.dropWhile Char.isDigit = rest := by
    cases rest with
    | nil => exact ⟨rfl, rfl⟩
    | cons c cs => simp [hrest c rfl]
  have htake : (text ++ rest).takeWhile Char.isDigit = text := by
    rw [List.takeWhile_append_of_pos hdigits, hspan.1, List.append_nil]
  have hdrop : (text ++ rest).dropWhile Char.isDigit = rest := by
    rw [List.dropWhile_append_of_pos hdigits, hspan.2]
  unfold readDigits
  rw [htake, hdrop]
  split
  · exact absurd rfl hne
  · rfl

theorem WholeText.read (h : WholeText text) (hrest : ∀ c ∈ rest.head?, c.isDigit = false) :
    readWhole (text ++ rest) = some (text, rest) := by
  cases h with
  | zero => rfl
  | digits hc h =>
    rw [readWhole, h.read hrest]
    exact fun _ heq => hc (List.cons.inj heq).1

theorem ExponentText.read (h : ExponentText text) : readExponent text = some (text, []) := by
  have hend : ∀ c ∈ ([] : List Char).head?, c.isDigit = false := fun c hc =>
    absurd hc (Option.not_mem_none c)
  cases h with
  | none => rfl
  | @unsigned c cs hc h =>
    have hsign : readSign cs = ([], cs) := by
      obtain ⟨hne, hdigits⟩ := h
      unfold readSign
      split
      · exact absurd (hdigits _ List.mem_cons_self) (by decide)
      · exact absurd (hdigits _ List.mem_cons_self) (by decide)
      · rfl
    have hread := h.read hend
    rw [List.append_nil] at hread
    rw [readExponent, if_pos hc, hsign, hread]
    rfl
  | @signed c d cs hc hd h =>
    have hsign : readSign (d :: cs) = ([d], cs) := by
      rcases hd with rfl | rfl <;> rfl
    have hread := h.read hend
    rw [List.append_nil] at hread
    rw [readExponent, if_pos hc, hsign, hread]
    rfl

/-- An exponent begins with its letter. -/
theorem ExponentText.head (h : ExponentText text) : ∀ c ∈ text.head?, c = 'e' ∨ c = 'E' := by
  intro c hc
  cases h with
  | none => exact absurd hc (Option.not_mem_none c)
  | unsigned he _ => exact Option.some.inj hc ▸ he
  | signed he _ _ => exact Option.some.inj hc ▸ he

theorem ExponentText.head_isDigit (h : ExponentText text) :
    ∀ c ∈ text.head?, c.isDigit = false := by
  intro c hc
  rcases h.head c hc with rfl | rfl <;> rfl

theorem FractionText.read (h : FractionText text) (hrest : ExponentText rest) :
    readFraction (text ++ rest) = some (text, rest) := by
  cases h with
  | none =>
    rw [List.nil_append, readFraction]
    rintro cs rfl
    rcases hrest.head '.' rfl with h | h <;> exact absurd h (by decide)
  | point h =>
    rw [List.cons_append, readFraction, h.read hrest.head_isDigit]
    rfl

theorem FractionText.head_isDigit (h : FractionText text) (hrest : ExponentText rest) :
    ∀ c ∈ (text ++ rest).head?, c.isDigit = false := by
  cases h with
  | none => exact hrest.head_isDigit
  | point _ => exact fun c hc => Option.some.inj hc ▸ rfl

theorem UnsignedText.read (h : UnsignedText text) : readUnsigned text = some (text, []) := by
  obtain ⟨whole, fraction, exponent, hwhole, hfraction, hexponent, rfl⟩ := h
  simp only [readUnsigned, hwhole.read (hfraction.head_isDigit hexponent),
    hfraction.read hexponent, hexponent.read, Option.bind_eq_bind, Option.bind_some,
    Option.pure_def, List.append_assoc]

theorem NumberText.isNumber (h : NumberText text) : IsNumber text := by
  cases h with
  | positive h =>
    rw [IsNumber, readNumber, h.read]
    -- A number without a sign begins with a digit.
    rintro cs rfl
    obtain ⟨whole, _, _, hwhole, -, -, heq⟩ := h
    cases hwhole with
    | zero => exact absurd (List.cons.inj heq).1 (by decide)
    | digits _ h =>
      obtain ⟨rfl, -⟩ := List.cons.inj heq
      exact absurd (h.2 _ List.mem_cons_self) (by decide)
  | negative h =>
    rw [IsNumber, readNumber, h.read]
    rfl

/-! ## Strings -/

theorem PieceText.readFrom {p : Piece} (h : PieceText p text) : p.ReadFrom text := by
  cases h with
  | plain hquote hslash h => exact Piece.readFrom_singleton hquote hslash (Nat.not_lt.2 h)
  | @escaped d _ h =>
    refine Piece.readFrom_unescape ?_ h
    rintro rfl
    exact absurd h (by simp [unescape?])
  | unit h => exact Piece.readFrom_unit h

theorem PiecesText.read {ps : List Piece} (h : PiecesText ps text) (rest : List Char) :
    readPieces (text ++ '"' :: rest) = some (ps, rest) := by
  induction h with
  | nil => rw [List.nil_append, readPieces]
  | cons h _ ih =>
    rw [List.append_assoc]
    exact h.readFrom _ _ _ ih

/-- A string without quotes, backslashes and controls may be spelled as it is. -/
theorem spells_string (s : String)
    (h : ∀ c ∈ s.toList, c ≠ '"' ∧ c ≠ '\\' ∧ 32 ≤ c.toNat) :
    Spells (.string (some s)) ('"' :: (s.toList ++ ['"'])) := by
  have hpieces : ∀ cs : List Char, (∀ c ∈ cs, c ≠ '"' ∧ c ≠ '\\' ∧ 32 ≤ c.toNat) →
      PiecesText (cs.map .char) cs ∧ assemble (cs.map .char) = some cs := by
    intro cs hcs
    induction cs with
    | nil => exact ⟨.nil, rfl⟩
    | cons c cs ih =>
      obtain ⟨hc, hcs⟩ := List.forall_mem_cons.1 hcs
      obtain ⟨htext, hassemble⟩ := ih hcs
      refine ⟨.cons (.plain hc.1 hc.2.1 hc.2.2) htext, ?_⟩
      exact Piece.standsFor_char c _ _ hassemble
  obtain ⟨htext, hassemble⟩ := hpieces s.toList h
  have hdenoted : denoted (s.toList.map .char) = some s := by
    rw [denoted, hassemble, Option.map_some, String.ofList_toList]
  exact hdenoted ▸ Spells.string htext

/-! ## Parts -/

variable {v : JsonValue}

theorem lexes_blanks (h : ∀ c ∈ text, isBlank c) : Lexes text [] := by
  have hnil := lexes_nil.blanks text h
  rwa [List.append_nil] at hnil

theorem endsNumber_blank (hc : isBlank c) : EndsNumber (c :: rest) := by
  refine endsNumber_cons ?_
  obtain ((rfl | rfl) | rfl) | rfl : ((c = ' ' ∨ c = '\n') ∨ c = '\t') ∨ c = '\r' := by
    simpa [isBlank] using hc
  all_goals rfl

/-- A text between brackets, whatever follows. -/
theorem Lexes.enclosed {o : Char} {t t' : JsonToken} {ts : List JsonToken} (h : Lexes text ts)
    (ho : punctuation? o = some t) (hc : punctuation? c = some t')
    (hend : continuesNumber c = Bool.false) (rest : List Char) :
    tokens (o :: (text ++ [c]) ++ rest) = (tokens rest).map (t :: ts ++ [t'] ++ ·) := by
  rw [List.cons_append, List.append_assoc, List.singleton_append, tokens_punctuation ho,
    h _ (endsNumber_cons hend), tokens_punctuation hc, Option.map_map, Option.map_map]
  congr 1
  funext us
  simp

theorem SpellsItems.ne_nil {vs : List JsonValue} (h : SpellsItems vs text) :
    itemParts vs ≠ [] := by
  cases h <;> exact List.cons_ne_nil _ _

theorem SpellsMembers.ne_nil {ms : List (Option String × JsonValue)} (h : SpellsMembers ms text) :
    memberParts ms ≠ [] := by
  cases h <;> exact List.cons_ne_nil _ _

mutual

/-- A spelling of a value is cut into the parts of the value. Unless the value is a number, this
does not depend on what follows. -/
theorem tokens_of_spells {v : JsonValue} {text : List Char} : Spells v text →
    ∀ rest, (EndsNumber rest ∨ ∀ n, v ≠ .number n) →
      tokens (text ++ rest) = (tokens rest).map (parts v ++ ·)
  | .before hc h, rest, hrest => by
    rw [List.cons_append, tokens_blank hc]
    exact tokens_of_spells h rest hrest
  | .after hc h, rest, _ => by
    rw [List.append_assoc, List.singleton_append,
      tokens_of_spells h _ (Or.inl (endsNumber_blank hc)), tokens_blank hc]
  | .null, _, _ => tokens_part rfl rfl
  | .true, _, _ => tokens_part rfl rfl
  | .false, _, _ => tokens_part rfl rfl
  | .number h, rest, hrest =>
    lexes_number h.isNumber rest (hrest.resolve_right fun hne => hne _ rfl)
  | .string h, rest, _ => by
    refine tokens_part rfl ?_
    show readToken ('"' :: (_ ++ ['"'] ++ rest)) = _
    rw [List.append_assoc, List.singleton_append, readToken, h.read]
    rfl
  | .emptyArray h, rest, _ => (lexes_blanks h).enclosed rfl rfl rfl rest
  | .array h, rest, _ => (lexes_of_spellsItems h).enclosed rfl rfl rfl rest
  | .emptyObject h, rest, _ => (lexes_blanks h).enclosed rfl rfl rfl rest
  | .object h, rest, _ => (lexes_of_spellsMembers h).enclosed rfl rfl rfl rest

/-- See `tokens_of_spells`. -/
theorem lexes_of_spellsItems {vs : List JsonValue} {text : List Char} :
    SpellsItems vs text → Lexes text ([.comma].intercalate (itemParts vs))
  | .last h => by
    rw [itemParts, itemParts, List.intercalate_singleton]
    exact fun rest hrest => tokens_of_spells h rest (Or.inl hrest)
  | .cons h hs => by
    have hvalue : Lexes _ _ := fun rest hrest => tokens_of_spells h rest (Or.inl hrest)
    have hrest := (lexes_of_spellsItems hs).punctuation (c := ',') rfl
    rw [itemParts, List.intercalate_cons_of_ne_nil hs.ne_nil, List.append_assoc]
    exact hvalue.append hrest (endsNumber_cons rfl)

/-- See `tokens_of_spells`. -/
theorem lexes_of_spellsMembers {ms : List (Option String × JsonValue)} {text : List Char} :
    SpellsMembers ms text → Lexes text ([.comma].intercalate (memberParts ms))
  | .last hname h => by
    have hkey : Lexes _ _ := fun rest hrest => tokens_of_spells hname rest (Or.inl hrest)
    have hvalue : Lexes _ _ := fun rest hrest => tokens_of_spells h rest (Or.inl hrest)
    rw [memberParts, memberParts, List.intercalate_singleton]
    exact hkey.append (hvalue.punctuation (c := ':') rfl) (endsNumber_cons rfl)
  | .cons hname h hs => by
    have hkey : Lexes _ _ := fun rest hrest => tokens_of_spells hname rest (Or.inl hrest)
    have hvalue : Lexes _ _ := fun rest hrest => tokens_of_spells h rest (Or.inl hrest)
    have hrest := (lexes_of_spellsMembers hs).punctuation (c := ',') rfl
    have hmember := (hvalue.append hrest (endsNumber_cons rfl)).punctuation (c := ':') rfl
    have hall := hkey.append hmember (endsNumber_cons rfl)
    rw [memberParts, List.intercalate_cons_of_ne_nil hs.ne_nil, List.append_assoc]
    exact hall

end

/-! ## Reading -/

/-- Every spelling of a value is read as this value. -/
theorem parse_of_spells {text : String} (h : Spells v text.toList) : parse text = some v := by
  have htokens := tokens_of_spells h [] (Or.inl endsNumber_nil)
  rw [List.append_nil, tokens, Option.map_some, List.append_nil] at htokens
  rw [parse, htokens]
  exact valueOf_parts v

/-- Only blanks have no parts. -/
theorem isBlank_of_tokens_eq_nil (h : tokens text = some []) : ∀ c ∈ text, isBlank c := by
  induction text with
  | nil => exact fun c hc => absurd hc List.not_mem_nil
  | cons c cs ih =>
    rw [tokens] at h
    split at h
    · next hc => exact List.forall_mem_cons.2 ⟨hc, ih h⟩
    · split at h
      · obtain ⟨ts, -, hts⟩ := Option.bind_eq_some_iff.1 h
        exact absurd hts (by simp)
      · exact absurd h (by simp)

/-- Nothing may follow the parts of a value. -/
theorem valueOf_parts_append (v : JsonValue) (t : JsonToken) (ts : List JsonToken) :
    valueOf (parts v ++ t :: ts) = none := by
  have hend : step (.done v, []) t = none := by cases t <;> rfl
  have hfold : (parts v ++ t :: ts).foldlM step (.value, []) = none := by
    rw [List.foldlM_append, madeUp v []]
    show (t :: ts).foldlM step (.done v, []) = none
    rw [List.foldlM_cons, hend]
    rfl
  rw [valueOf, hfold]

/-- What begins like a number is cut as a number first, if it can be cut at all. -/
theorem tokens_number {n : String} {text : List Char} : Spells (.number n) text → ∀ rest ts,
    tokens (text ++ rest) = some ts → ∃ m ts', ts = .atom (.number m) :: ts'
  | .before hc h, rest, ts, hts => by
    rw [List.cons_append, tokens_blank hc] at hts
    exact tokens_number h rest ts hts
  | .after hc h, rest, ts, hts => by
    rw [List.append_assoc] at hts
    exact tokens_number h _ ts hts
  | .number h, rest, ts, hts => by
    cases text with
    | nil => exact absurd h.isNumber not_isNumber_nil
    | cons c cs =>
      obtain ⟨hblank, hread⟩ : isBlank c = false ∧ readToken (c :: (cs ++ rest)) = _ :=
        readToken_number h.isNumber.head
      rw [List.cons_append, tokens, if_neg (by simp [hblank])] at hts
      split at hts
      · next t rest' ht =>
        obtain ⟨p, -, hp⟩ := Option.map_eq_some_iff.1 (hread.symm.trans ht)
        obtain ⟨rfl, -⟩ := Prod.mk.inj hp
        obtain ⟨ts', -, hts⟩ := Option.bind_eq_some_iff.1 hts
        exact ⟨_, ts', (Option.some.inj hts).symm⟩
      · exact absurd hts (by simp)
termination_by text.length
decreasing_by all_goals simp

/-- A text that goes on after a value can only be a longer number. -/
theorem parse_of_spells_append {text after : String} (h : Spells v text.toList) {c : Char}
    (hc : c ∈ after.toList) (hblank : isBlank c = Bool.false) {w : JsonValue}
    (hw : parse (text ++ after) = some w) : ∃ n, w = .number n := by
  obtain ⟨ts, hts, hvalue⟩ := Option.bind_eq_some_iff.1 hw
  rw [String.toList_append] at hts
  by_cases hnumber : ∃ n, v = .number n
  · obtain ⟨n, rfl⟩ := hnumber
    obtain ⟨m, ts', rfl⟩ := tokens_number h _ ts hts
    cases ts' with
    | nil =>
      rw [show [JsonToken.atom (.number m)] = parts (.number m) from rfl, valueOf_parts] at hvalue
      exact ⟨m, (Option.some.inj hvalue).symm⟩
    | cons t ts' =>
      rw [show JsonToken.atom (.number m) :: t :: ts' = parts (.number m) ++ t :: ts' from rfl,
        valueOf_parts_append] at hvalue
      exact absurd hvalue (by simp)
  · rw [tokens_of_spells h _ (Or.inr (not_exists.1 hnumber))] at hts
    obtain ⟨us, hus, rfl⟩ := Option.map_eq_some_iff.1 hts
    cases us with
    | nil => exact absurd (isBlank_of_tokens_eq_nil hus c hc) (by simp [hblank])
    | cons t us => exact absurd hvalue (by rw [valueOf_parts_append]; simp)

end FetchPlan.JsonText
