import Mathlib.Data.List.TakeWhile

/-!
# Texts that tell where they end

Texts of values are `Delimited` before certain continuations if a text and its continuation
determine the value and the continuation. Words end before any character that is not in a word;
lists whose items are delimited, and that are joined by a separator, are delimited where neither an
item nor the separator with an item can go on (`Delimited.intercalate`).
-/

namespace FetchPlan

variable {α : Type} {text : α → String} {good good' : α → Prop} {next next' : String → Prop}

/-- Equal texts of good values, with what follows them, are of the same value, and the same
follows. -/
def Delimited (text : α → String) (good : α → Prop) (next : String → Prop) : Prop :=
  ∀ ⦃a b : α⦄ ⦃r s : String⦄, good a → good b → next r → next s → text a ++ r = text b ++ s →
    a = b ∧ r = s

theorem Delimited.mono (h : Delimited text good next) (hgood : ∀ a, good' a → good a)
    (hnext : ∀ r, next' r → next r) : Delimited text good' next' :=
  fun a b r s ha hb hr hs heq => h (hgood a ha) (hgood b hb) (hnext r hr) (hnext s hs) heq

/-- Where the same text `t` follows two values, they are equal and the same comes after it. -/
theorem Delimited.before (h : Delimited text good next) {a b : α} {t r s : String} (ha : good a)
    (hb : good b) (hnext : ∀ r, next (t ++ r)) (heq : text a ++ (t ++ r) = text b ++ (t ++ s)) :
    a = b ∧ r = s := by
  obtain ⟨hab, hrest⟩ := h ha hb (hnext r) (hnext s) heq
  exact ⟨hab, (String.append_right_inj t).1 hrest⟩

theorem Delimited.prefixed (h : Delimited text good next) (t : String) :
    Delimited (fun a => t ++ text a) good next := by
  intro a b r s ha hb hr hs heq
  simp only [String.append_assoc, String.append_right_inj] at heq
  exact h ha hb hr hs heq

/-! ## How a text goes on -/

/-- The first character of a text. -/
def Begins (c : Char) (r : String) : Prop := r.toList.head? = some c

instance (c : Char) (r : String) : Decidable (Begins c r) :=
  inferInstanceAs (Decidable (r.toList.head? = some c))

theorem Begins.append {c : Char} {t : String} (h : Begins c t) (r : String) :
    Begins c (t ++ r) := by
  unfold Begins at h ⊢
  rw [String.toList_append, List.head?_append, h]
  rfl

theorem Begins.eq {c d : Char} {r : String} (hc : Begins c r) (hd : Begins d r) : c = d :=
  Option.some.inj (hc.symm.trans hd)

theorem Begins.not_append {c d : Char} {t : String} (h : Begins d t) (hne : d ≠ c) (r : String) :
    ¬ Begins c (t ++ r) :=
  fun hc => hne ((h.append r).eq hc)

/-! ## Words -/

/-- A word ends before a character that is not in a word. -/
theorem delimited_word (p : Char → Bool) :
    Delimited id (fun u => ∀ c ∈ u.toList, p c = true)
      (fun r => ∀ c, Begins c r → p c = false) := by
  have key : ∀ u r : String, (∀ c ∈ u.toList, p c = true) → (∀ c, Begins c r → p c = false) →
      (u ++ r).toList.takeWhile p = u.toList := by
    intro u r hu hr
    rw [String.toList_append, List.takeWhile_append_of_pos hu]
    cases hlist : r.toList with
    | nil => simp
    | cons c cs =>
      have hc := hr c (by rw [Begins, hlist]; rfl)
      rw [List.takeWhile_cons_of_neg (by simp [hc]), List.append_nil]
  intro u v r s hu hv hr hs heq
  have huv : u.toList = v.toList := by
    rw [← key u r hu hr, ← key v s hv hs]
    exact congrArg _ (congrArg String.toList heq)
  obtain rfl := String.toList_inj.1 huv
  exact ⟨rfl, (String.append_right_inj u).1 heq⟩

/-! ## Lists -/

/-- The items after the first one, each with the separator before it. -/
def following (text : α → String) (sep : String) : List α → String
  | [] => ""
  | a :: as => sep ++ (text a ++ following text sep as)

theorem intercalate_cons (text : α → String) (sep : String) (a : α) (as : List α) :
    sep.intercalate ((a :: as).map text) = text a ++ following text sep as := by
  induction as generalizing a with
  | nil => rw [List.map_singleton, String.intercalate_singleton, following, String.append_empty]
  | cons b as ih =>
    rw [List.map_cons, List.map_cons, String.intercalate_cons_cons, ← List.map_cons, ih, following,
      String.append_assoc]

theorem mem_intercalate {sep : String} {texts : List String} {c : Char}
    (hc : c ∈ (sep.intercalate texts).toList) : c ∈ sep.toList ∨ ∃ t ∈ texts, c ∈ t.toList := by
  induction texts with
  | nil => exact absurd hc (by simp)
  | cons t rest ih =>
    cases rest with
    | nil =>
      rw [String.intercalate_singleton] at hc
      exact Or.inr ⟨t, List.mem_cons_self, hc⟩
    | cons u rest =>
      simp only [String.intercalate_cons_cons, String.toList_append, List.mem_append] at hc
      obtain (hc | hc) | hc := hc
      · exact Or.inr ⟨t, List.mem_cons_self, hc⟩
      · exact Or.inl hc
      · exact (ih hc).imp_right fun ⟨t', ht', hc'⟩ => ⟨t', List.mem_cons_of_mem _ ht', hc'⟩

section Lists

variable {sep : String} {follow : String → Prop} (item : Delimited text good follow)
  (hsep : ∀ r, follow (sep ++ r)) (hend : ∀ r, next r → follow r)
  (hlast : ∀ a r, good a → ¬ next (sep ++ (text a ++ r)))

/-- An item ends before the items that come after it. -/
theorem follow_following (hsep : ∀ r, follow (sep ++ r)) (hend : ∀ r, next r → follow r)
    (as : List α) {r : String} (hr : next r) : follow (following text sep as ++ r) := by
  cases as with
  | nil => exact hend _ (by rwa [following, String.empty_append])
  | cons a as =>
    rw [following, String.append_assoc]
    exact hsep _

include item hsep hend hlast

theorem delimited_following :
    Delimited (following text sep) (fun as => ∀ a ∈ as, good a) next := by
  intro as bs r s has hbs hr hs heq
  induction as generalizing bs with
  | nil =>
    rw [following, String.empty_append] at heq
    cases bs with
    | nil => exact ⟨rfl, by rwa [following, String.empty_append] at heq⟩
    | cons b bs =>
      rw [following, String.append_assoc, String.append_assoc] at heq
      exact absurd (heq ▸ hr) (hlast b _ (hbs b List.mem_cons_self))
  | cons a as ih =>
    rw [following, String.append_assoc, String.append_assoc] at heq
    obtain ⟨ha, has⟩ := List.forall_mem_cons.1 has
    cases bs with
    | nil =>
      rw [following, String.empty_append] at heq
      exact absurd (heq ▸ hs) (hlast a _ ha)
    | cons b bs =>
      rw [following, String.append_assoc, String.append_assoc,
        String.append_right_inj] at heq
      obtain ⟨hb, htail⟩ := List.forall_mem_cons.1 hbs
      obtain ⟨rfl, hrest⟩ := item ha hb (follow_following hsep hend as hr)
        (follow_following hsep hend bs hs) heq
      obtain ⟨rfl, rfl⟩ := ih has htail hrest
      exact ⟨rfl, rfl⟩

/-- A list of delimited items with a separator between them is delimited where neither an item nor
the separator with one can follow. -/
theorem Delimited.intercalate (hnone : ∀ a r, good a → ¬ next (text a ++ r)) :
    Delimited (fun as : List α => sep.intercalate (as.map text)) (fun as => ∀ a ∈ as, good a)
      next := by
  have hempty : sep.intercalate (([] : List α).map text) = "" := String.intercalate_nil
  intro as bs r s has hbs hr hs heq
  cases as with
  | nil =>
    cases bs with
    | nil => exact ⟨rfl, (String.append_right_inj _).1 heq⟩
    | cons b bs =>
      simp only [hempty, String.empty_append, intercalate_cons, String.append_assoc] at heq
      exact absurd (heq ▸ hr) (hnone b _ (hbs b List.mem_cons_self))
  | cons a as =>
    cases bs with
    | nil =>
      simp only [hempty, String.empty_append, intercalate_cons, String.append_assoc] at heq
      exact absurd (heq ▸ hs) (hnone a _ (has a List.mem_cons_self))
    | cons b bs =>
      simp only [intercalate_cons, String.append_assoc] at heq
      obtain ⟨ha, has⟩ := List.forall_mem_cons.1 has
      obtain ⟨hb, htail⟩ := List.forall_mem_cons.1 hbs
      obtain ⟨rfl, hrest⟩ := item ha hb (follow_following hsep hend as hr)
        (follow_following hsep hend bs hs) heq
      obtain ⟨rfl, rfl⟩ := delimited_following item hsep hend hlast has htail hr hs hrest
      exact ⟨rfl, rfl⟩

end Lists

end FetchPlan
