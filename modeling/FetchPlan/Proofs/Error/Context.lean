import FetchPlan.Error.Shelf
import Mathlib.Logic.Function.Basic
import Mathlib.Logic.Relation

/-!
# Nothing of an error is lost behind a context

An error behind a context shows the message of the context, and after it all that the error
showed before. Its causes and its kinds stay, and no kind comes from elsewhere (`IsBehind`). This
holds whether the context is extended in place or gives way to its message.

`Shelf.Step` is what can be done with errors. However they come about, all errors on a shelf can
be read off one memory with a single cell for each mark (`Shelf.Reached.stored`): what the marks
tell to be shared is shared, and a context that is extended in place belongs to no other error.
-/

namespace FetchPlan

/-! ## One error behind another -/

namespace Error

/-- `n` is the error `e` behind the context `c`. -/
structure IsBehind (n e c : Error) : Prop where
  message : n.message = c.message ++ ": " ++ e.message
  causes : n.behind = e.causes
  keeps : ∀ k, e.hasKind k = true → n.hasKind k = true
  only : ∀ k, n.hasKind k = true → e.hasKind k = true ∨ c.hasKind k = true

variable {e c : Error} {shared : Bool} {k : ErrorKind}

theorem behind_context : (e.context c shared).behind = e.causes := by
  unfold context
  split
  · rfl
  · rfl

theorem message_mk (cause : Cause) (e : Error) :
    message ⟨cause, e.causes⟩ = cause.message ++ ": " ++ e.message := by
  unfold message
  rw [causes, List.map_cons, String.intercalate_cons_of_ne_nil]
  simp [causes]

theorem message_context : (e.context c shared).message = c.message ++ ": " ++ e.message := by
  by_cases hopen : c.isOpen shared = true
  · have hnil : c.behind = [] := by
      rw [isOpen, Bool.and_eq_true, List.isEmpty_iff] at hopen
      exact hopen.2
    have hc : c.message = c.outermost.message := by
      rw [message, causes, hnil]
      exact String.intercalate_singleton
    rw [context, if_pos hopen, message_mk, hc]
  · rw [context, if_neg hopen]
    exact message_mk (.plain c.message) e

/-- The kinds of an error behind a context are those of the error, and those of the context if it
is extended. -/
theorem hasKind_context : (e.context c shared).hasKind k = true ↔
    (c.isOpen shared = true ∧ c.outermost.kind? = some k) ∨ e.hasKind k = true := by
  unfold context
  split
  · next hopen => simp [hasKind, causes, hopen]
  · next hclosed => simp [hasKind, causes, hclosed, Cause.kind?]

theorem isBehind_context (e c : Error) (shared : Bool) : (e.context c shared).IsBehind e c where
  message := message_context
  causes := behind_context
  keeps k hk := hasKind_context.2 (Or.inr hk)
  only k hk := by
    rcases hasKind_context.1 hk with ⟨-, hc⟩ | he
    · exact Or.inr (by simp [hasKind, causes, hc])
    · exact Or.inl he

/-- A context without causes that is not shared keeps its kind. -/
theorem hasKind_context_of_hasKind (hnil : c.behind = []) (hk : c.hasKind k = true) :
    (e.context c false).hasKind k = true := by
  have hc : c.outermost.kind? = some k := by simpa [hasKind, causes, hnil] using hk
  exact hasKind_context.2 (Or.inl ⟨by simp [isOpen, hnil], hc⟩)

end Error

/-! ## What can be done with errors -/

namespace Shelf

/-- An error is on the shelf. -/
def Has (s : Shelf) (h : Held) : Prop := some h ∈ s.slots

/-- An error of the shelf is held a second time, in the next slot. -/
def clone? (s : Shelf) (i : Nat) : Option Shelf := do
  let h ← s.slot? i
  return { s with slots := s.slots ++ [some h] }

/-- An error is let go. -/
def drop (s : Shelf) (i : Nat) : Shelf := { s with slots := s.slots.set i none }

/-- One step with the errors of a shelf. -/
inductive Step : Shelf → Shelf → Prop
  | add {s : Shelf} (c : Cause) : Step s (s.add c)
  | clone {s s' : Shelf} {i : Nat} (h : s.clone? i = some s') : Step s s'
  | drop {s : Shelf} (i : Nat) : Step s (s.drop i)
  | within {s s' : Shelf} {i : Nat} {c : Cause} (h : s.within? i c = some s') : Step s s'
  | withinShared {s s' : Shelf} {i j : Nat} (h : s.withinShared? i j = some s') : Step s s'
  | withinTaken {s s' : Shelf} {i j : Nat} (h : s.withinTaken? i j = some s') : Step s s'

/-- The shelves that come about step by step. -/
def Reached (s : Shelf) : Prop := Relation.ReflTransGen Step {} s

/-- Nothing but the error in slot `j` holds its outermost cause, neither an error in another slot
nor the one of slot `i` that is to be put behind it. -/
def IsAlone (s : Shelf) (i j : Nat) (c : Held) : Prop :=
  i ≠ j ∧ ∀ (n : Nat) (h : Held), n ≠ j → s.slot? n = some h → c.mark ∉ h.marks

variable {s s' : Shelf} {h e c : Held} {i j : Nat} {cause : Cause} {shared : Bool}

theorem slot?_eq_some : s.slot? i = some h ↔ s.slots[i]? = some (some h) := by
  unfold slot?
  exact Option.join_eq_some_iff

theorem has_of_slot? (hi : s.slot? i = some h) : s.Has h :=
  List.mem_of_getElem? (slot?_eq_some.1 hi)

theorem has_of_has_drop (hh : (s.drop i).Has h) : s.Has h := by
  rcases List.mem_or_eq_of_mem_set hh with hh | hh
  · exact hh
  · exact absurd hh (by simp)

theorem slot?_drop_of_ne (hne : i ≠ j) (hi : s.slot? i = some h) : (s.drop j).slot? i = some h := by
  rw [slot?_eq_some] at hi ⊢
  show (s.slots.set j none)[i]? = _
  rw [List.getElem?_set_ne hne.symm]
  exact hi

theorem isHeldElsewhere_eq_false :
    s.isHeldElsewhere j c = false ↔ ∀ h, (s.drop j).Has h → c.mark ∉ h.marks := by
  unfold isHeldElsewhere
  rw [List.any_eq_false]
  constructor
  · intro hall h hh hmark
    exact hall (some h) hh (decide_eq_true hmark)
  · rintro hall (_ | h) hh
    · simp
    · simpa using hall h hh

theorem last?_addContext :
    (s.addContext e c shared).last? = some (e.error.context c.error shared) := by
  simp [last?, addContext]

/-! ## One memory for all errors -/

/-- What is kept under a mark: a cause, and the mark of the cause behind it. -/
structure Cell where
  cause : Cause
  behind : Option Nat

/-- The cells of all marks. -/
abbrev Memory := Nat → Cell

/-- Causes with their marks, each read off its cell and leading on to the next. -/
inductive Memory.Reads (m : Memory) : List Nat → List Cause → Prop
  | root {n : Nat} {c : Cause} (cell : m n = ⟨c, none⟩) : Reads m [n] [c]
  | link {n n' : Nat} {ns : List Nat} {c : Cause} {cs : List Cause} (cell : m n = ⟨c, some n'⟩)
      (rest : Reads m (n' :: ns) cs) : Reads m (n :: n' :: ns) (c :: cs)

/-- A cell that is not read may change. -/
theorem Memory.Reads.update {m : Memory} {ns : List Nat} {cs : List Cause} {n : Nat} {cell : Cell}
    (h : m.Reads ns cs) (hn : n ∉ ns) : Memory.Reads (Function.update m n cell) ns cs := by
  induction h with
  | root hcell =>
    have hne := List.ne_of_not_mem_cons hn
    exact .root (by rw [Function.update_of_ne hne.symm, hcell])
  | link hcell _ ih =>
    obtain ⟨hne, hrest⟩ := List.ne_and_not_mem_of_not_mem_cons hn
    exact .link (by rw [Function.update_of_ne hne.symm, hcell]) (ih hrest)

/-- An error is read off a memory, and its marks are in use. -/
structure Memory.Keeps (m : Memory) (next : Nat) (h : Held) : Prop where
  reads : m.Reads h.marks h.error.causes
  used : ∀ n ∈ h.marks, n < next

/-- All errors of a shelf are read off one memory. -/
def StoredIn (s : Shelf) (m : Memory) : Prop := ∀ h, s.Has h → m.Keeps s.nextMark h

variable {m : Memory}

theorem Memory.Keeps.nextMark_not_mem (h : m.Keeps s.nextMark e) : s.nextMark ∉ e.marks :=
  fun hmem => Nat.lt_irrefl _ (h.used _ hmem)

theorem StoredIn.drop (hs : s.StoredIn m) : (s.drop i).StoredIn m :=
  fun h hh => hs h (has_of_has_drop hh)

theorem StoredIn.clone (hs : s.StoredIn m) (h : s.clone? i = some s') : s'.StoredIn m := by
  unfold clone? at h
  obtain ⟨e, he, h⟩ := Option.bind_eq_some_iff.1 h
  obtain rfl := Option.some.inj h
  intro o hh
  rcases List.mem_append.1 hh with hh | hh
  · exact hs o hh
  · obtain rfl := Option.some.inj (List.mem_singleton.1 hh)
    exact hs o (has_of_slot? he)

/-- A new error whose outermost cause has a mark that no error has: only its cell is written. -/
theorem StoredIn.push (hs : s.StoredIn m) (hmark : h.mark ≤ s.nextMark)
    (hfree : ∀ o, s.Has o → h.mark ∉ o.marks)
    (hbehind : (h.behind = [] ∧ h.error.behind = []) ∨ ∃ e, m.Keeps s.nextMark e ∧
      h.mark ∉ e.marks ∧ h.behind = e.marks ∧ h.error.behind = e.error.causes) :
    ∃ m', StoredIn ⟨s.slots ++ [some h], s.nextMark + 1⟩ m' := by
  refine ⟨Function.update m h.mark ⟨h.error.outermost, h.behind.head?⟩, ?_⟩
  have hcell : Function.update m h.mark ⟨h.error.outermost, h.behind.head?⟩ h.mark =
      ⟨h.error.outermost, h.behind.head?⟩ := Function.update_self ..
  intro o ho
  rcases List.mem_append.1 ho with ho | ho
  · exact ⟨(hs o ho).reads.update (hfree o ho), fun n hn => Nat.lt_succ_of_lt ((hs o ho).used n hn)⟩
  obtain rfl := Option.some.inj (List.mem_singleton.1 ho)
  obtain ⟨hnil, hcauses⟩ | ⟨e, he, hnot, hmarks, hcauses⟩ := hbehind
  · rw [hnil] at hcell
    constructor
    · rw [Held.marks, Error.causes, hnil, hcauses]
      exact .root hcell
    · intro n hn
      rw [Held.marks, hnil, List.mem_singleton] at hn
      show n < s.nextMark + 1
      omega
  · rw [hmarks] at hcell
    constructor
    · rw [Held.marks, Error.causes, hmarks, hcauses]
      exact .link hcell (he.reads.update hnot)
    · intro n hn
      show n < s.nextMark + 1
      rcases List.mem_cons.1 hn with rfl | hn
      · omega
      · rw [hmarks] at hn
        exact Nat.lt_succ_of_lt (he.used n hn)

theorem StoredIn.add (hs : s.StoredIn m) : ∃ m', (s.add cause).StoredIn m' :=
  hs.push (Nat.le_refl _) (fun o ho => (hs o ho).nextMark_not_mem) (Or.inl ⟨rfl, rfl⟩)

/-- A context is written to its own cell, which no other error may have, or to a new one. -/
theorem StoredIn.addContext (hs : s.StoredIn m) (he : m.Keeps s.nextMark e)
    (hopen : c.error.isOpen shared = true →
      c.mark ≤ s.nextMark ∧ c.mark ∉ e.marks ∧ ∀ o, s.Has o → c.mark ∉ o.marks) :
    ∃ m', (s.addContext e c shared).StoredIn m' := by
  have hbehind : (e.error.context c.error shared).behind = e.error.causes := Error.behind_context
  unfold Shelf.addContext
  by_cases ho : c.error.isOpen shared = true
  · obtain ⟨hle, hnot, hfree⟩ := hopen ho
    simp only [if_pos ho]
    exact hs.push hle hfree (Or.inr ⟨e, he, hnot, rfl, hbehind⟩)
  · simp only [if_neg ho]
    exact hs.push (Nat.le_refl _) (fun o ho => (hs o ho).nextMark_not_mem)
      (Or.inr ⟨e, he, he.nextMark_not_mem, rfl, hbehind⟩)

theorem StoredIn.within (hs : s.StoredIn m) (h : s.within? i cause = some s') :
    ∃ m', s'.StoredIn m' := by
  obtain ⟨e, he, h⟩ := Option.bind_eq_some_iff.1 h
  obtain rfl := Option.some.inj h
  have hkeeps := hs e (has_of_slot? he)
  refine hs.addContext hkeeps fun _ => ⟨Nat.le_refl _, hkeeps.nextMark_not_mem, ?_⟩
  exact fun o ho => (hs o ho).nextMark_not_mem

theorem StoredIn.withinShared (hs : s.StoredIn m) (h : s.withinShared? i j = some s') :
    ∃ m', s'.StoredIn m' := by
  obtain ⟨e, he, h⟩ := Option.bind_eq_some_iff.1 h
  obtain ⟨c, -, h⟩ := Option.bind_eq_some_iff.1 h
  obtain rfl := Option.some.inj h
  exact hs.addContext (hs e (has_of_slot? he)) fun hopen => absurd hopen (by simp [Error.isOpen])

theorem StoredIn.withinTaken (hs : s.StoredIn m) (h : s.withinTaken? i j = some s') :
    ∃ m', s'.StoredIn m' := by
  obtain ⟨e, he, h⟩ := Option.bind_eq_some_iff.1 h
  obtain ⟨c, hc, h⟩ := Option.bind_eq_some_iff.1 h
  obtain rfl := Option.some.inj h
  have hkeeps := hs e (has_of_slot? he)
  refine (hs.drop (i := j)).addContext hkeeps fun hopen => ?_
  rw [Error.isOpen, Bool.and_eq_true, Bool.not_eq_true', Bool.or_eq_false_iff,
    decide_eq_false_iff_not, isHeldElsewhere_eq_false] at hopen
  obtain ⟨⟨hij, hfree⟩, -⟩ := hopen
  have hmark := (hs c (has_of_slot? hc)).used c.mark List.mem_cons_self
  exact ⟨Nat.le_of_lt hmark, hfree e (has_of_slot? (slot?_drop_of_ne hij he)), hfree⟩

theorem Step.stored (h : Step s s') (hs : s.StoredIn m) : ∃ m', s'.StoredIn m' := by
  cases h with
  | add c => exact hs.add
  | clone h => exact ⟨m, hs.clone h⟩
  | drop i => exact ⟨m, hs.drop⟩
  | within h => exact hs.within h
  | withinShared h => exact hs.withinShared h
  | withinTaken h => exact hs.withinTaken h

/-- However they come about, all errors are read off one memory. -/
theorem Reached.stored (h : s.Reached) : ∃ m, s.StoredIn m := by
  induction h with
  | refl => exact ⟨fun _ => ⟨.plain "", none⟩, fun h hh => absurd hh List.not_mem_nil⟩
  | tail _ hstep ih =>
    obtain ⟨m, hm⟩ := ih
    exact hstep.stored hm

/-! ## Errors behind contexts -/

theorem exists_within (he : s.slot? i = some e) (cause : Cause) :
    ∃ s', s.within? i cause = some s' ∧ s'.last? = some (e.error.context cause false) :=
  ⟨_, by rw [within?, he]; rfl, last?_addContext⟩

theorem exists_withinShared (he : s.slot? i = some e) (hc : s.slot? j = some c) :
    ∃ s', s.withinShared? i j = some s' ∧ s'.last? = some (e.error.context c.error true) :=
  ⟨_, by rw [withinShared?, he, hc]; rfl, last?_addContext⟩

theorem exists_withinTaken (he : s.slot? i = some e) (hc : s.slot? j = some c) :
    ∃ s' shared, s.withinTaken? i j = some s' ∧
      s'.last? = some (e.error.context c.error shared) ∧ (s.IsAlone i j c → shared = false) := by
  refine ⟨_, decide (i = j) || s.isHeldElsewhere j c, by rw [withinTaken?, he, hc]; rfl,
    last?_addContext, ?_⟩
  rintro ⟨hij, halone⟩
  rw [Bool.or_eq_false_iff, decide_eq_false_iff_not, isHeldElsewhere_eq_false]
  refine ⟨hij, fun h hh => ?_⟩
  obtain ⟨n, hn⟩ := List.getElem?_of_mem hh
  have hne : n ≠ j := by
    rintro rfl
    rw [drop, List.getElem?_set_self'] at hn
    simp [Option.map_eq_some_iff] at hn
  refine halone n h hne (slot?_eq_some.2 ?_)
  rwa [drop, List.getElem?_set_ne hne.symm] at hn

/-- Nothing of an error is lost behind a context. The context is a new one, or one that stays in its
slot and so is shared, or one that is taken out of its slot. A new context, and one that nothing
else holds and that has no causes, lends its kinds to the error. -/
theorem isBehind_of_reached (hs : s.Reached) (he : s.slot? i = some e) :
    (∃ m, s.StoredIn m) ∧
    (∀ c : Cause, ∃ s' n, s.within? i c = some s' ∧ s'.last? = some n ∧
      n.IsBehind e.error c ∧ ∀ k, c.kind? = some k → n.hasKind k = true) ∧
    ∀ j c, s.slot? j = some c →
      (∃ s' n, s.withinShared? i j = some s' ∧ s'.last? = some n ∧ n.IsBehind e.error c.error) ∧
      ∃ s' n, s.withinTaken? i j = some s' ∧ s'.last? = some n ∧ n.IsBehind e.error c.error ∧
        (s.IsAlone i j c → c.error.behind = [] → ∀ k, c.error.hasKind k = true →
          n.hasKind k = true) := by
  refine ⟨hs.stored, ?_, ?_⟩
  · intro c
    obtain ⟨s', hs', hlast⟩ := exists_within he c
    refine ⟨s', _, hs', hlast, Error.isBehind_context _ _ _, fun k hk => ?_⟩
    exact Error.hasKind_context_of_hasKind rfl (by simp [Error.hasKind, Error.causes, hk])
  · intro j c hc
    obtain ⟨s', hs', hlast⟩ := exists_withinShared he hc
    obtain ⟨s'', shared, hs'', hlast', hshared⟩ := exists_withinTaken he hc
    refine ⟨⟨s', _, hs', hlast, Error.isBehind_context _ _ _⟩,
      s'', _, hs'', hlast', Error.isBehind_context _ _ _, fun halone hnil k hk => ?_⟩
    rw [hshared halone]
    exact Error.hasKind_context_of_hasKind hnil hk

/-- A context that is held a second time gives way to its message. -/
theorem isBehind_relationHeldTwice :
    ∃ s s' n, Reached s ∧ s.slot? 2 = s.slot? 1 ∧ s.withinTaken? 0 1 = some s' ∧
      s'.last? = some n ∧ n.hasKind .unknownMetadata = true ∧
      n.message =
        "no connection condition found for relation Order: unknown relation `Invoice`" := by
  let s₁ : Shelf :=
    (({} : Shelf).add (.unknownRelation "Invoice")).add (.disconnectedRelation "Order")
  obtain ⟨s, hs⟩ : ∃ s, s₁.clone? 1 = some s := ⟨_, rfl⟩
  have hreached : s.Reached :=
    (((Relation.ReflTransGen.refl).tail (.add _)).tail (.add _)).tail (.clone hs)
  obtain rfl := Option.some.inj hs
  obtain ⟨-, -, hgiven⟩ := isBehind_of_reached hreached (i := 0)
    (e := ⟨⟨.unknownRelation "Invoice", []⟩, 0, []⟩) rfl
  obtain ⟨-, s', n, hs', hlast, hbehind, -⟩ :=
    hgiven 1 ⟨⟨.disconnectedRelation "Order", []⟩, 1, []⟩ rfl
  refine ⟨_, s', n, hreached, rfl, hs', hlast, hbehind.keeps _ (by decide), ?_⟩
  rw [hbehind.message]
  rfl

end Shelf
end FetchPlan
