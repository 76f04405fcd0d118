import FetchPlan.Json.StringText
import FetchPlan.Json.Value

/-!
# The parts of a JSON text

A text is cut into punctuation, words, numbers and strings. Blanks separate parts and mean
nothing else.
-/

namespace FetchPlan.JsonText

/-- Spaces, tabs and line ends may stand between parts. -/
def isBlank (c : Char) : Bool := c = ' ' || c = '\n' || c = '\t' || c = '\r'

/-- The part that a punctuation character is. -/
def punctuation? : Char → Option JsonToken
  | '[' => some .beginArray
  | ']' => some .endArray
  | '{' => some .beginObject
  | '}' => some .endObject
  | ',' => some .comma
  | ':' => some .colon
  | _ => none

/-! ## Numbers -/

/-- One digit or more, and what follows. -/
def readDigits (cs : List Char) : Option (List Char × List Char) :=
  match cs.takeWhile Char.isDigit with
  | [] => none
  | digits => some (digits, cs.dropWhile Char.isDigit)

/-- The whole part of a number, which starts with zero only if it is zero. -/
def readWhole : List Char → Option (List Char × List Char)
  | '0' :: rest => some (['0'], rest)
  | cs => readDigits cs

/-- The digits after a point, if there is a point. -/
def readFraction : List Char → Option (List Char × List Char)
  | '.' :: rest => do
    let (digits, rest) ← readDigits rest
    return ('.' :: digits, rest)
  | cs => some ([], cs)

/-- A sign, if there is one. -/
def readSign : List Char → List Char × List Char
  | '+' :: rest => (['+'], rest)
  | '-' :: rest => (['-'], rest)
  | cs => ([], cs)

/-- The exponent, if there is one. -/
def readExponent : List Char → Option (List Char × List Char)
  | c :: rest =>
    if c = 'e' ∨ c = 'E' then do
      let (digits, after) ← readDigits (readSign rest).2
      return (c :: (readSign rest).1 ++ digits, after)
    else some ([], c :: rest)
  | [] => some ([], [])

/-- A number without its sign. -/
def readUnsigned (cs : List Char) : Option (List Char × List Char) := do
  let (whole, rest) ← readWhole cs
  let (fraction, rest) ← readFraction rest
  let (exponent, rest) ← readExponent rest
  return (whole ++ fraction ++ exponent, rest)

/-- A number, and what follows. -/
def readNumber : List Char → Option (List Char × List Char)
  | '-' :: rest => do
    let (digits, rest) ← readUnsigned rest
    return ('-' :: digits, rest)
  | cs => readUnsigned cs

theorem append_of_readDigits {cs digits rest : List Char}
    (h : readDigits cs = some (digits, rest)) : digits ++ rest = cs ∧ digits ≠ [] := by
  unfold readDigits at h
  split at h
  · simp at h
  · obtain ⟨rfl, rfl⟩ : _ ∧ _ := by simpa using h
    exact ⟨List.takeWhile_append_dropWhile, by assumption⟩

theorem append_of_readWhole {cs digits rest : List Char}
    (h : readWhole cs = some (digits, rest)) : digits ++ rest = cs ∧ digits ≠ [] := by
  unfold readWhole at h
  split at h
  · obtain ⟨rfl, rfl⟩ : _ ∧ _ := by simpa using h
    simp
  · exact append_of_readDigits h

theorem append_of_readFraction {cs digits rest : List Char}
    (h : readFraction cs = some (digits, rest)) : digits ++ rest = cs := by
  unfold readFraction at h
  split at h
  · obtain ⟨⟨ds, r⟩, hr, h⟩ := Option.bind_eq_some_iff.1 h
    obtain ⟨rfl, rfl⟩ : _ ∧ _ := by simpa using h
    simp [append_of_readDigits hr]
  · obtain ⟨rfl, rfl⟩ : _ ∧ _ := by simpa using h
    rfl

theorem append_readSign (cs : List Char) : (readSign cs).1 ++ (readSign cs).2 = cs := by
  unfold readSign
  split <;> rfl

theorem append_of_readExponent {cs digits rest : List Char}
    (h : readExponent cs = some (digits, rest)) : digits ++ rest = cs := by
  unfold readExponent at h
  split at h
  · split at h
    · obtain ⟨⟨ds, r⟩, hr, h⟩ := Option.bind_eq_some_iff.1 h
      obtain ⟨rfl, rfl⟩ : _ ∧ _ := by simpa using h
      simp [append_of_readDigits hr, append_readSign]
    · obtain ⟨rfl, rfl⟩ : _ ∧ _ := by simpa using h
      rfl
  · obtain ⟨rfl, rfl⟩ : _ ∧ _ := by simpa using h
    rfl

theorem append_of_readUnsigned {cs digits rest : List Char}
    (h : readUnsigned cs = some (digits, rest)) : digits ++ rest = cs ∧ digits ≠ [] := by
  obtain ⟨⟨a, r⟩, ha, h⟩ := Option.bind_eq_some_iff.1 h
  obtain ⟨⟨b, s⟩, hb, h⟩ := Option.bind_eq_some_iff.1 h
  obtain ⟨⟨c, t⟩, hc, h⟩ := Option.bind_eq_some_iff.1 h
  obtain ⟨rfl, rfl⟩ : _ ∧ _ := by simpa using h
  obtain ⟨rfl, hne⟩ := append_of_readWhole ha
  obtain rfl := append_of_readFraction hb
  obtain rfl := append_of_readExponent hc
  simp [hne]

/-- A number is the part of the text that is read. -/
theorem append_of_readNumber {cs digits rest : List Char}
    (h : readNumber cs = some (digits, rest)) : digits ++ rest = cs ∧ digits ≠ [] := by
  unfold readNumber at h
  split at h
  · obtain ⟨⟨a, r⟩, ha, h⟩ := Option.bind_eq_some_iff.1 h
    obtain ⟨rfl, rfl⟩ : _ ∧ _ := by simpa using h
    simp [append_of_readUnsigned ha]
  · exact append_of_readUnsigned h

/-! ## Parts -/

/-- The first part of a text that does not start with a blank, and what follows. -/
def readToken : List Char → Option (JsonToken × List Char)
  | '"' :: rest => do
    let (pieces, rest) ← readPieces rest
    return (.atom (.string (denoted pieces)), rest)
  | 'n' :: 'u' :: 'l' :: 'l' :: rest => some (.atom .null, rest)
  | 't' :: 'r' :: 'u' :: 'e' :: rest => some (.atom (.bool true), rest)
  | 'f' :: 'a' :: 'l' :: 's' :: 'e' :: rest => some (.atom (.bool false), rest)
  | c :: rest =>
    match punctuation? c with
    | some t => some (t, rest)
    | none => do
      let (digits, rest) ← readNumber (c :: rest)
      return (.atom (.number (String.ofList digits)), rest)
  | [] => none

/-- Reading a part takes something off the text. -/
theorem length_readToken {cs rest : List Char} {t : JsonToken}
    (h : readToken cs = some (t, rest)) : rest.length < cs.length := by
  unfold readToken at h
  split at h
  · obtain ⟨⟨pieces, r⟩, hr, h⟩ := Option.bind_eq_some_iff.1 h
    obtain ⟨rfl, rfl⟩ : _ ∧ _ := by simpa using h
    have := length_readPieces hr
    simp
    omega
  · obtain ⟨rfl, rfl⟩ : _ ∧ _ := by simpa using h
    simp
    omega
  · obtain ⟨rfl, rfl⟩ : _ ∧ _ := by simpa using h
    simp
    omega
  · obtain ⟨rfl, rfl⟩ : _ ∧ _ := by simpa using h
    simp
    omega
  · split at h
    · obtain ⟨rfl, rfl⟩ : _ ∧ _ := by simpa using h
      simp
    · obtain ⟨⟨digits, r⟩, hr, h⟩ := Option.bind_eq_some_iff.1 h
      obtain ⟨rfl, rfl⟩ : _ ∧ _ := by simpa using h
      obtain ⟨happend, hne⟩ := append_of_readNumber hr
      have hlength := congrArg List.length happend
      have hpos := List.length_pos_iff.2 hne
      simp only [List.length_append] at hlength
      omega
  · simp at h

/-- The parts of a text, in order. -/
def tokens : List Char → Option (List JsonToken)
  | [] => some []
  | c :: cs =>
    if isBlank c then tokens cs
    else match _ : readToken (c :: cs) with
      | some (t, rest) => return t :: (← tokens rest)
      | none => none
termination_by cs => cs.length
decreasing_by
  · simp
  · exact length_readToken (by assumption)

end FetchPlan.JsonText
