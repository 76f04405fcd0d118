import FetchPlan.Json.Lexer
import FetchPlan.Json.Printer
import FetchPlan.Proofs.Json.StringText
import Mathlib.Data.List.Forall2

/-!
# The parts of a text that is written

A written value is cut into exactly the parts that it is made of (`lexes_print`). Only the end of a
number is not seen from the number itself: it ends where a character follows that does not continue
it.
-/

namespace FetchPlan.JsonText

variable {c : Char} {cs digits rest after text text' : List Char} {t : JsonToken}
  {ts ts' : List JsonToken}

/-! ## Numbers -/

/-- The character may be a part of a number that has begun. -/
def continuesNumber (c : Char) : Bool := c.isDigit || c = '.' || c = 'e' || c = 'E'

/-- A number before this text ends where the text begins. -/
def EndsNumber (rest : List Char) : Prop := ∀ c ∈ rest.head?, continuesNumber c = false

theorem endsNumber_nil : EndsNumber [] := fun _ hc => absurd hc (Option.not_mem_none _)

theorem endsNumber_cons (h : continuesNumber c = false) : EndsNumber (c :: cs) := by
  intro d hd
  obtain rfl := Option.some.inj hd
  exact h

theorem EndsNumber.append (h : EndsNumber text) (hrest : EndsNumber rest) :
    EndsNumber (text ++ rest) := by
  cases text with
  | nil => exact hrest
  | cons c cs => exact endsNumber_cons (h c rfl)

theorem EndsNumber.ne (h : EndsNumber (c :: cs)) :
    c.isDigit = false ∧ c ≠ '.' ∧ c ≠ 'e' ∧ c ≠ 'E' := by
  have hc := h c rfl
  simpa [continuesNumber, and_assoc] using hc

theorem span_isDigit_append (h : EndsNumber rest) (cs : List Char) :
    (cs ++ rest).takeWhile Char.isDigit = cs.takeWhile Char.isDigit ∧
      (cs ++ rest).dropWhile Char.isDigit = cs.dropWhile Char.isDigit ++ rest := by
  induction cs with
  | nil =>
    cases rest with
    | nil => exact ⟨rfl, rfl⟩
    | cons c cs => simp [h.ne.1]
  | cons c cs ih =>
    by_cases hc : c.isDigit
    · simp [hc, ih]
    · simp [hc]

/-- A sign is seen from the digits that follow it. -/
theorem readSign_append (rest : List Char) (hcs : (readDigits (readSign cs).2).isSome) :
    readSign (cs ++ rest) = ((readSign cs).1, (readSign cs).2 ++ rest) := by
  cases cs with
  | nil => exact absurd hcs (by simp [readSign, readDigits])
  | cons c cs =>
    rw [List.cons_append]
    unfold readSign
    split <;> simp_all

section Numbers

variable (h : EndsNumber rest)
include h

theorem readDigits_append (hcs : readDigits cs = some (digits, after)) :
    readDigits (cs ++ rest) = some (digits, after ++ rest) := by
  obtain ⟨htake, hdrop⟩ := span_isDigit_append h cs
  unfold readDigits at hcs ⊢
  rw [htake, hdrop]
  split at hcs
  · exact absurd hcs (by simp)
  · obtain ⟨rfl, rfl⟩ : _ ∧ _ := by simpa using hcs
    rfl

theorem readWhole_append (hcs : readWhole cs = some (digits, after)) :
    readWhole (cs ++ rest) = some (digits, after ++ rest) := by
  unfold readWhole at hcs
  split at hcs
  · obtain ⟨rfl, rfl⟩ : _ ∧ _ := by simpa using hcs
    rfl
  · next hzero =>
    rw [readWhole, readDigits_append h hcs]
    -- Without a digit nothing was read, so the first digit is that of `cs`.
    intro after' heq
    cases cs with
    | nil => exact absurd hcs (by simp [readDigits])
    | cons c cs =>
      obtain ⟨rfl, -⟩ := List.cons.inj heq
      exact hzero cs rfl

theorem readFraction_append (hcs : readFraction cs = some (digits, after)) :
    readFraction (cs ++ rest) = some (digits, after ++ rest) := by
  unfold readFraction at hcs
  split at hcs
  · obtain ⟨⟨ds, r⟩, hds, hcs⟩ := Option.bind_eq_some_iff.1 hcs
    obtain ⟨rfl, rfl⟩ : _ ∧ _ := by simpa using hcs
    rw [List.cons_append, readFraction, readDigits_append h hds]
    rfl
  · next hpoint =>
    obtain ⟨rfl, rfl⟩ : _ ∧ _ := by simpa using hcs
    rw [readFraction]
    intro after' heq
    cases cs with
    | nil =>
      obtain rfl : rest = '.' :: after' := heq
      exact h.ne.2.1 rfl
    | cons c cs =>
      obtain ⟨rfl, -⟩ := List.cons.inj heq
      exact hpoint cs rfl

theorem readExponent_append (hcs : readExponent cs = some (digits, after)) :
    readExponent (cs ++ rest) = some (digits, after ++ rest) := by
  cases cs with
  | nil =>
    obtain ⟨rfl, rfl⟩ : _ ∧ _ := by simpa [readExponent] using hcs
    cases rest with
    | nil => rfl
    | cons c cs => rw [List.nil_append, readExponent, if_neg (not_or.2 h.ne.2.2)]
  | cons c cs =>
    rw [readExponent] at hcs
    rw [List.cons_append, readExponent]
    split at hcs
    · next hexponent =>
      obtain ⟨⟨ds, r⟩, hds, hcs⟩ := Option.bind_eq_some_iff.1 hcs
      obtain ⟨rfl, rfl⟩ : _ ∧ _ := by simpa using hcs
      have hsign := readSign_append rest (Option.isSome_of_eq_some hds)
      rw [if_pos hexponent, hsign, readDigits_append h hds]
      rfl
    · next hexponent =>
      obtain ⟨rfl, rfl⟩ : _ ∧ _ := by simpa using hcs
      rw [if_neg hexponent]
      rfl

theorem readUnsigned_append (hcs : readUnsigned cs = some (digits, after)) :
    readUnsigned (cs ++ rest) = some (digits, after ++ rest) := by
  obtain ⟨⟨a, r⟩, ha, hcs⟩ := Option.bind_eq_some_iff.1 hcs
  obtain ⟨⟨b, s⟩, hb, hcs⟩ := Option.bind_eq_some_iff.1 hcs
  obtain ⟨⟨e, u⟩, he, hcs⟩ := Option.bind_eq_some_iff.1 hcs
  obtain ⟨rfl, rfl⟩ : _ ∧ _ := by simpa using hcs
  simp only [readUnsigned, readWhole_append h ha, readFraction_append h hb,
    readExponent_append h he, Option.bind_eq_bind, Option.bind_some, Option.pure_def,
    List.append_assoc]

/-- A number is read alike if a text follows that ends it. -/
theorem readNumber_append (hcs : readNumber cs = some (digits, after)) :
    readNumber (cs ++ rest) = some (digits, after ++ rest) := by
  unfold readNumber at hcs
  split at hcs
  · obtain ⟨⟨ds, r⟩, hds, hcs⟩ := Option.bind_eq_some_iff.1 hcs
    obtain ⟨rfl, rfl⟩ : _ ∧ _ := by simpa using hcs
    rw [List.cons_append, readNumber, readUnsigned_append h hds]
    rfl
  · next hminus =>
    rw [readNumber, readUnsigned_append h hcs]
    intro after' heq
    cases cs with
    | nil => exact absurd hcs (by simp [readUnsigned, readWhole, readDigits])
    | cons c cs =>
      obtain ⟨rfl, -⟩ := List.cons.inj heq
      exact hminus cs rfl

end Numbers

/-! ## Parts -/

theorem tokens_blank (h : isBlank c) : tokens (c :: cs) = tokens cs := by
  rw [tokens, if_pos h]

theorem tokens_part (hc : isBlank c = false) (h : readToken (c :: cs) = some (t, rest)) :
    tokens (c :: cs) = (tokens rest).map (t :: ·) := by
  rw [tokens, if_neg (hc ▸ Bool.false_ne_true)]
  split
  · next t' rest' h' =>
    obtain ⟨rfl, rfl⟩ : t' = t ∧ rest' = rest := by simpa using h'.symm.trans h
    cases tokens rest' with
    | _ => rfl
  · next h' => exact absurd (h'.symm.trans h) (by simp)

theorem tokens_punctuation (hc : punctuation? c = some t) :
    tokens (c :: cs) = (tokens cs).map (t :: ·) := by
  unfold punctuation? at hc
  split at hc <;> cases hc <;> exact tokens_part rfl rfl

/-- The text is cut into these parts, whatever follows that continues no number. -/
def Lexes (text : List Char) (ts : List JsonToken) : Prop :=
  ∀ rest, EndsNumber rest → tokens (text ++ rest) = (tokens rest).map (ts ++ ·)

theorem Lexes.tokens_eq (h : Lexes text ts) : tokens text = some ts := by
  have hrest := h [] endsNumber_nil
  rwa [List.append_nil, tokens, Option.map_some, List.append_nil] at hrest

theorem Lexes.append (h : Lexes text ts) (h' : Lexes text' ts') (hend : EndsNumber text') :
    Lexes (text ++ text') (ts ++ ts') := by
  intro rest hrest
  rw [List.append_assoc, h _ (hend.append hrest), h' _ hrest, Option.map_map]
  congr 1
  funext us
  exact (List.append_assoc ts ts' us).symm

/-- A first part that is seen from its own text. -/
theorem lexes_part (hc : isBlank c = false)
    (h : ∀ rest, EndsNumber rest → readToken (c :: cs ++ rest) = some (t, rest)) :
    Lexes (c :: cs) [t] :=
  fun rest hrest => tokens_part hc (h rest hrest)

theorem lexes_nil : Lexes [] [] := by
  intro rest hrest
  show tokens rest = (tokens rest).map fun ts => ts
  rw [Option.map_id']

/-- A blank makes no difference. -/
theorem Lexes.blank (h : Lexes text ts) (hc : isBlank c) : Lexes (c :: text) ts := by
  intro rest hrest
  rw [List.cons_append, tokens_blank hc]
  exact h rest hrest

theorem Lexes.blanks (h : Lexes text ts) (blanks : List Char) (hblanks : ∀ c ∈ blanks, isBlank c) :
    Lexes (blanks ++ text) ts := by
  induction blanks with
  | nil => exact h
  | cons c cs ih =>
    have hrest := ih fun d hd => hblanks d (List.mem_cons_of_mem c hd)
    exact hrest.blank (hblanks c List.mem_cons_self)

theorem Lexes.punctuation (h : Lexes text ts) (hc : punctuation? c = some t) :
    Lexes (c :: text) (t :: ts) := by
  intro rest hrest
  rw [List.cons_append, tokens_punctuation hc, h rest hrest, Option.map_map]
  rfl

/-- A string is one part. A string that denotes no characters is written as half of a pair, which
is read as such again. -/
theorem lexes_printString (s : Option String) :
    Lexes (printString s).toList [.atom (.string s)] := by
  cases s with
  | none =>
    refine lexes_part rfl fun rest _ => ?_
    have hread : readPieces ("\\ud800\"".toList ++ rest) = some ([.unit 0xD800], rest) :=
      Piece.readFrom_unit rfl ('"' :: rest) rest [] (by rw [readPieces])
    show (readPieces ("\\ud800\"".toList ++ rest) >>= fun _ => _) = _
    rw [hread]
    rfl
  | some s =>
    rw [printString, quote, String.toList_ofList]
    refine lexes_part rfl fun rest _ => ?_
    obtain ⟨pieces, hread, hdenotes⟩ := readPieces_flatMap_escape s.toList rest
    have hs : denoted pieces = some s := by
      rw [denoted, hdenotes, Option.map_some, String.ofList_toList]
    show (readPieces (s.toList.flatMap escape ++ ['"'] ++ rest) >>= fun _ => _) = _
    rw [List.append_assoc, List.singleton_append, hread]
    simp only [Option.bind_eq_bind, Option.bind_some, Option.pure_def, hs]

/-- The text of a number. -/
def IsNumber (text : List Char) : Prop := readNumber text = some (text, [])

theorem not_isNumber_nil : ¬ IsNumber [] := by
  simp [IsNumber, readNumber, readUnsigned, readWhole, readDigits]

/-- A number begins with its sign or with a digit. -/
theorem IsNumber.head (h : IsNumber (c :: cs)) : c = '-' ∨ c.isDigit := by
  by_contra hc
  obtain ⟨hminus, hdigit⟩ := not_or.1 hc
  have hzero : c ≠ '0' := fun hzero => hdigit (hzero ▸ rfl)
  have hwhole : readWhole (c :: cs) = none := by
    rw [readWhole, readDigits, List.takeWhile_cons_of_neg hdigit]
    exact fun _ heq => hzero (List.cons.inj heq).1
  rw [IsNumber, readNumber, readUnsigned, hwhole] at h
  · exact absurd h (by simp)
  · exact fun _ heq => hminus (List.cons.inj heq).1

/-- A text that begins like a number is cut as one. -/
theorem readToken_number (h : c = '-' ∨ c.isDigit) :
    isBlank c = false ∧ readToken (c :: cs) = (readNumber (c :: cs)).map fun p =>
      (.atom (.number (String.ofList p.1)), p.2) := by
  have hne : ∀ d : Char, d ≠ '-' → d.isDigit = false → c ≠ d := by
    rintro d hminus hdigit rfl
    rcases h with rfl | hc
    · exact hminus rfl
    · exact absurd (hdigit.symm.trans hc) Bool.false_ne_true
  have hblank : isBlank c = false := by
    simp [isBlank, hne ' ' (by decide) rfl, hne '\n' (by decide) rfl, hne '\t' (by decide) rfl,
      hne '\r' (by decide) rfl]
  have hpunctuation : punctuation? c = none := by
    unfold punctuation?
    split <;> first | rfl | exact absurd rfl (hne _ (by decide) rfl)
  refine ⟨hblank, ?_⟩
  rw [readToken, hpunctuation, Option.map_eq_bind]
  · rfl
  · exact hne '"' (by decide) rfl
  · exact fun _ hn _ => hne 'n' (by decide) rfl hn
  · exact fun _ ht _ => hne 't' (by decide) rfl ht
  · exact fun _ hf _ => hne 'f' (by decide) rfl hf

theorem lexes_number (h : IsNumber text) : Lexes text [.atom (.number (String.ofList text))] := by
  cases text with
  | nil => exact absurd h not_isNumber_nil
  | cons c cs =>
    have hread : ∀ cs, isBlank c = false ∧ readToken (c :: cs) = _ :=
      fun _ => readToken_number h.head
    refine lexes_part (hread cs).1 fun rest hrest => ?_
    rw [List.cons_append, (hread (cs ++ rest)).2, ← List.cons_append, readNumber_append hrest h]
    rfl

end FetchPlan.JsonText
