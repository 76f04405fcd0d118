import FetchPlan.Json.StringText
import Mathlib.Tactic.SplitIfs

/-!
# Reading back a quoted string

What is written for a character is read back as this character, whatever follows. So the text of a
string is read up to its closing quote, and what is read denotes the string
(`readPieces_flatMap_escape`).
-/

namespace FetchPlan.JsonText

variable {c d : Char}

/-! ## Pieces -/

/-- The piece stands for a character, whatever pieces follow. -/
def Piece.StandsFor (p : Piece) (c : Char) : Prop :=
  ∀ (pieces : List Piece) (cs : List Char), assemble pieces = some cs →
    assemble (p :: pieces) = some (c :: cs)

theorem Piece.standsFor_char (c : Char) : (char c).StandsFor c := by
  intro pieces cs h
  rw [assemble, h]
  rfl

/-- A unit that is no half of a surrogate pair stands for its character, also before another
unit. -/
theorem Piece.standsFor_unit (h : c.toNat < 0xD800) : (unit c.toNat).StandsFor c := by
  have hlead : isLeading c.toNat = false := by
    rw [isLeading, decide_eq_false (Nat.not_le.2 h), Bool.false_and]
  have htrail : isTrailing c.toNat = false := by
    rw [isTrailing, decide_eq_false (by omega), Bool.false_and]
  intro pieces cs hcs
  have hstep : assemble (unit c.toNat :: pieces) = do return c :: (← assemble pieces) := by
    match pieces with
    | [] | .char _ :: _ | .unit _ :: _ => simp [assemble, hlead, htrail]
  rw [hstep, hcs]
  rfl

/-- The text is read as the piece, whatever follows. -/
def Piece.ReadFrom (p : Piece) (text : List Char) : Prop :=
  ∀ (rest after : List Char) (pieces : List Piece), readPieces rest = some (pieces, after) →
    readPieces (text ++ rest) = some (p :: pieces, after)

theorem Piece.readFrom_unescape (hu : d ≠ 'u') (hd : unescape? d = some c) :
    (char c).ReadFrom ['\\', d] := by
  intro rest after pieces h
  show readPieces ('\\' :: d :: rest) = _
  rw [readPieces, hd, h]
  · rfl
  · exact fun _ _ _ _ _ hd' _ => hu hd'

theorem Piece.readFrom_singleton (hquote : c ≠ '"') (hslash : c ≠ '\\') (h : ¬ c.toNat < 32) :
    (char c).ReadFrom [c] := by
  intro rest after pieces hrest
  show readPieces (c :: rest) = _
  rw [readPieces, if_neg (not_or.2 ⟨h, hslash⟩), hrest]
  · rfl
  · exact hquote
  · exact fun _ _ _ _ _ hc _ => hslash hc
  · exact fun _ _ hc _ => hslash hc

theorem Piece.readFrom_unit {w x y z : Char} {n : Nat} (h : unit? w x y z = some n) :
    (unit n).ReadFrom ['\\', 'u', w, x, y, z] := by
  intro rest after pieces hrest
  simp only [List.cons_append, List.nil_append]
  rw [readPieces, h, hrest]
  rfl

/-- A hexadecimal digit is read back. -/
theorem hexValue?_hexDigit : ∀ n < 16, hexValue? (hexDigit n) = some n := by decide

/-- The number of a control is read back from its two digits. -/
theorem unit?_hexDigit {n : Nat} (h : n < 256) :
    unit? '0' '0' (hexDigit (n / 16)) (hexDigit (n % 16)) = some n := by
  have hhigh := hexValue?_hexDigit (n / 16) (by omega)
  have hlow := hexValue?_hexDigit (n % 16) (by omega)
  have hzero : hexValue? '0' = some 0 := rfl
  simp only [unit?, hzero, hhigh, hlow, Option.bind_eq_bind, Option.bind_some, Option.pure_def]
  congr 1
  omega

/-! ## Strings -/

/-- What is written for a character is read as a piece that stands for it. -/
theorem exists_readFrom_escape (c : Char) : ∃ p : Piece, p.StandsFor c ∧ p.ReadFrom (escape c) := by
  have hchar : ∀ {text : List Char}, (Piece.char c).ReadFrom text →
      ∃ p : Piece, p.StandsFor c ∧ p.ReadFrom text := fun h => ⟨_, Piece.standsFor_char c, h⟩
  unfold escape
  split_ifs with hquote hslash hn hr ht hb hf hcontrol
  · exact hchar (Piece.readFrom_unescape (by decide) (by rw [hquote]; rfl))
  · exact hchar (Piece.readFrom_unescape (by decide) (by rw [hslash]; rfl))
  · exact hchar (Piece.readFrom_unescape (by decide) (hn ▸ rfl))
  · exact hchar (Piece.readFrom_unescape (by decide) (hr ▸ rfl))
  · exact hchar (Piece.readFrom_unescape (by decide) (ht ▸ rfl))
  · exact hchar (Piece.readFrom_unescape (by decide) (hb ▸ rfl))
  · exact hchar (Piece.readFrom_unescape (by decide) (hf ▸ rfl))
  · exact ⟨_, Piece.standsFor_unit (by omega), Piece.readFrom_unit (unit?_hexDigit (by omega))⟩
  · exact hchar (Piece.readFrom_singleton hquote hslash hcontrol)

/-- A string is read up to its closing quote, and what is read denotes it. -/
theorem readPieces_flatMap_escape (cs rest : List Char) :
    ∃ pieces, readPieces (cs.flatMap escape ++ '"' :: rest) = some (pieces, rest) ∧
      assemble pieces = some cs := by
  induction cs with
  | nil => exact ⟨[], by rw [List.flatMap_nil, List.nil_append, readPieces], rfl⟩
  | cons c cs ih =>
    obtain ⟨pieces, hread, hdenotes⟩ := ih
    obtain ⟨p, hstands, hescape⟩ := exists_readFrom_escape c
    refine ⟨p :: pieces, ?_, hstands pieces cs hdenotes⟩
    rw [List.flatMap_cons, List.append_assoc]
    exact hescape _ rest pieces hread

end FetchPlan.JsonText
