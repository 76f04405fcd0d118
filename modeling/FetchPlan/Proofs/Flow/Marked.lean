import FetchPlan.Proofs.Flow.Arena
import FetchPlan.Proofs.JoinGraph.Listed

/-!
# What the entries of a listing are marked as

An entry says of itself whether it is an operation or a fixed value, and whether only fixed values
take part in it. Both follow from the kinds of the entries (`Expr.marked_listing`), so the arena of
a query determines its listing (`Expr.listing_eq_of_slots`).
-/

namespace FetchPlan

variable {n m fuel : Nat} {parent next : Option Nat} {p : Path} {kind : EntryKind} {entry : Entry}
  {entries block rest : List Entry}

namespace Listing

/-- Each entry of the block is marked as an operation if its kind is one, and as fixed if only fixed
values take part in it. The block starts at the number `n`. -/
def Marked (entries : List Entry) (fuel n : Nat) (block : List Entry) : Prop :=
  ∀ (i : Nat) (entry : Entry), block[i]? = some entry →
    entry.isTree = entry.kind.isTree ∧ isFixed entries fuel (n + i) = pure entry.isFixed

theorem marked_nil : Marked entries fuel n [] := by
  intro i entry h
  exact absurd h (by simp)

theorem Marked.append (h : Marked entries fuel n block) (hm : n + block.length = m)
    (hrest : Marked entries fuel m rest) : Marked entries fuel n (block ++ rest) := by
  intro i entry hi
  rcases Nat.lt_or_ge i block.length with hlt | hle
  · rw [List.getElem?_append_left hlt] at hi
    exact h i entry hi
  · rw [List.getElem?_append_right hle] at hi
    have hplace : m + (i - block.length) = n + i := by omega
    exact hplace ▸ hrest _ entry hi

theorem Marked.append_append {k : Nat} {block' : List Entry} (h : Marked entries fuel n block)
    (hk : n + block.length = k) (h' : Marked entries fuel k block') (hm : k + block'.length = m)
    (hrest : Marked entries fuel m rest) : Marked entries fuel n (block ++ block' ++ rest) :=
  (h.append hk h').append (add_length_append hk hm) hrest

theorem marked_singleton (htree : entry.isTree = entry.kind.isTree)
    (hfixed : isFixed entries fuel n = pure entry.isFixed) : Marked entries fuel n [entry] := by
  intro i entry' hi
  obtain ⟨hlt, rfl⟩ := List.getElem?_eq_some_iff.1 hi
  obtain rfl := Nat.lt_one_iff.1 hlt
  exact ⟨htree, hfixed⟩

/-- Steps are neither operations nor fixed. -/
theorem marked_step {previous : Option Nat} (hkind : kind.isTree = false) (hfuel : 0 < fuel)
    (h : Placed entries n [{ kind, previous, next, parent }]) :
    Marked entries fuel n [{ kind, previous, next, parent }] := by
  refine marked_singleton hkind.symm ?_
  obtain ⟨fuel, rfl⟩ := Nat.exists_eq_succ_of_ne_zero (Nat.ne_zero_of_lt hfuel)
  rw [isFixed, entryAt_eq h.entry, pure_bind]
  cases kind with
  | binary | unary | fixed => exact absurd hkind Bool.false_ne_true.symm
  | _ => rfl

end Listing

theorem Path.isTree_stepKind {x : Member} : (stepKind x).isTree = false := by
  cases x with
  | _ => rfl

theorem Path.height_step {x : Member} : (p.step n x).height = p.height := by
  cases x with
  | _ => rfl

open Listing

mutual

/-- The entries of a numbered flow are marked as the walk over them finds. -/
theorem Flow.Numbered.marked {bound : List Nat} {f : Flow} {n m fuel : Nat} {parent : Option Nat}
    {entries : List Entry} : f.Numbered bound n m → Placed entries n (f.entries parent) →
      f.height ≤ fuel → Marked entries fuel n (f.entries parent)
  | .path h, hplaced, hheight =>
    h.marked hplaced (Nat.lt_of_le_of_lt (Nat.le_add_right _ _) hheight)
  | .binary (m := m) hl hr, hplaced, hheight => by
    have hstored := (Flow.Numbered.binary hl hr).listed.stored _ _ hplaced
    have hmarked := Flow.isFixed_listed _ hstored hheight
    rw [Flow.height, Nat.succ_le_iff, Nat.max_lt] at hheight
    rw [Flow.entries] at hplaced ⊢
    have hlength := hl.listed.length (some m)
    have hlhs := hl.marked hplaced.left.left (Nat.le_of_lt hheight.1)
    have hrhs := hr.marked (hplaced.left.right hlength) (Nat.le_of_lt hheight.2)
    exact hlhs.append_append hlength hrhs (hr.listed.length _) (marked_singleton rfl hmarked)
  | .unary h, hplaced, hheight => by
    have hstored := (Flow.Numbered.unary h).listed.stored _ _ hplaced
    have hmarked := Flow.isFixed_listed _ hstored hheight
    rw [Flow.height, Nat.succ_le_iff] at hheight
    rw [Flow.entries] at hplaced ⊢
    have hoperand := h.marked hplaced.left (Nat.le_of_lt hheight)
    exact hoperand.append (h.listed.length _) (marked_singleton rfl hmarked)
  | .fixed, hplaced, hheight =>
    marked_singleton rfl
      (Flow.isFixed_listed _ (Flow.listed_fixed.stored _ _ hplaced) hheight)

/-- See `Flow.Numbered.marked`. -/
theorem Path.Numbered.marked {bound : List Nat} {p : Path} {n m fuel : Nat}
    {parent next : Option Nat} {entries : List Entry} : p.Numbered bound n m →
      Placed entries n (p.entries parent next) → p.height < fuel →
        Marked entries fuel n (p.entries parent next)
  | .table, hplaced, hheight | .reference _, hplaced, hheight =>
    marked_step rfl (Nat.zero_lt_of_lt hheight) hplaced
  | .step h, hplaced, hheight => by
    rw [Path.height_step] at hheight
    rw [Path.entries_step] at hplaced ⊢
    exact (h.marked hplaced.left hheight).append (h.listed.length _ _)
      (marked_step Path.isTree_stepKind (Nat.zero_lt_of_lt hheight)
        (hplaced.right (h.listed.length _ _)))
  | .select (m := m) h _ ho, hplaced, hheight => by
    rw [Path.height, Nat.max_lt] at hheight
    rw [Path.entries] at hplaced ⊢
    have hlength := h.listed.length parent (some m)
    have hlength' := ho.listed.length m
    have hsource := h.marked hplaced.left.left hheight.1
    have houtputs := ho.marked (hplaced.left.right hlength) (Nat.le_of_lt hheight.2)
    have hlast := hplaced.right (add_length_append hlength hlength')
    exact hsource.append_append hlength houtputs hlength'
      (marked_step rfl (Nat.zero_lt_of_lt hheight.1) hlast)
  | .filter (m := m) h _ hf, hplaced, hheight => by
    rw [Path.height, Nat.max_lt] at hheight
    rw [Path.entries] at hplaced ⊢
    have hlength := h.listed.length parent (some m)
    have hlength' := hf.listed.length (some m)
    have hsource := h.marked hplaced.left.left hheight.1
    have hinner := hf.marked (hplaced.left.right hlength) (Nat.le_of_lt hheight.2)
    have hlast := hplaced.right (add_length_append hlength hlength')
    exact hsource.append_append hlength hinner hlength'
      (marked_step rfl (Nat.zero_lt_of_lt hheight.1) hlast)

/-- See `Flow.Numbered.marked`. -/
theorem Outputs.Numbered.marked {bound : List Nat} {o : Outputs} {n m fuel id : Nat}
    {entries : List Entry} : o.Numbered bound n m → Placed entries n (o.entries id) →
      o.height ≤ fuel → Marked entries fuel n (o.entries id)
  | .single h, hplaced, hheight => h.marked hplaced hheight
  | .record h, hplaced, hheight => h.marked hplaced hheight

/-- See `Flow.Numbered.marked`. -/
theorem FlowFields.Numbered.marked {bound : List Nat} {fs : FlowFields} {n m fuel id : Nat}
    {entries : List Entry} : fs.Numbered bound n m → Placed entries n (fs.entries id) →
      fs.height ≤ fuel → Marked entries fuel n (fs.entries id)
  | .nil, _, _ => marked_nil
  | .cons hf h, hplaced, hheight => by
    rw [FlowFields.height, Nat.max_le] at hheight
    rw [FlowFields.entries] at hplaced ⊢
    exact (hf.marked hplaced.left hheight.1).append (hf.listed.length _)
      (h.marked (hplaced.right (hf.listed.length _)) hheight.2)

end

/-- The marks of the entries of a query follow from the kinds. -/
theorem Expr.marked_listing {e : Expr} {q : NumberedPath} (h : e.toPath = .ok q) :
    Marked q.path.listing (2 * q.path.listing.length) 0 q.path.listing := by
  have hheight : q.path.height + 2 * q.path.stepIds.length ≤ 2 * q.path.listing.length :=
    q.path.height_le none none
  have hpos := q.path.length_stepIds_pos
  exact (Expr.numbered h).marked placed_self (by omega)

theorem Entry.eq_of_slot {entry entry' : Entry} (hslot : entry.slot = entry'.slot)
    (hfixed : entry.isFixed = entry'.isFixed) (htree : entry.isTree = entry'.isTree) :
    entry = entry' := by
  cases entry
  cases entry'
  obtain ⟨rfl, rfl, rfl, rfl⟩ := Slot.mk.inj hslot
  obtain rfl := hfixed
  obtain rfl := htree
  rfl

namespace Listing

variable {entries' : List Entry}

/-- Of the entries, the walk reads only the kinds. -/
theorem isFixed_congr (h : entries.map Entry.kind = entries'.map Entry.kind) (id : Nat) :
    isFixed entries fuel id = isFixed entries' fuel id := by
  induction fuel generalizing id with
  | zero => rfl
  | succ fuel ih =>
    have hkind : entries[id]?.map Entry.kind = entries'[id]?.map Entry.kind := by
      rw [← List.getElem?_map, h, List.getElem?_map]
    rw [isFixed, isFixed, entryAt, entryAt]
    cases hentry : entries[id]? with
    | none =>
      rw [hentry, Option.map_none, eq_comm, Option.map_eq_none_iff] at hkind
      rw [hkind]
      rfl
    | some entry =>
      rw [hentry, Option.map_some, eq_comm, Option.map_eq_some_iff] at hkind
      obtain ⟨entry', hentry', hkind⟩ := hkind
      rw [hentry', pure_bind, pure_bind, hkind]
      simp only [ih]

theorem eq_of_pure_eq {a b : Bool} (h : (pure a : Visiting Bool) = pure b) : a = b :=
  Option.some.inj <| congrArg Prod.fst <| Except.ok.inj <|
    congrArg Traced.result (congrFun h { graph := JoinGraph.ofRoot "" })

/-- Marked entries are known from what is stored of them. -/
theorem Marked.eq_of_slots (h : Marked entries fuel 0 entries)
    (h' : Marked entries' fuel 0 entries')
    (hslots : entries.map Entry.slot = entries'.map Entry.slot) : entries = entries' := by
  have hkinds : entries.map Entry.kind = entries'.map Entry.kind := by
    simpa only [List.map_map, Function.comp_def, Entry.slot] using
      congrArg (List.map Slot.kind) hslots
  have hlength : entries.length = entries'.length := by
    simpa only [List.length_map] using congrArg List.length hslots
  refine List.ext_getElem hlength fun i hi hi' => ?_
  obtain ⟨htree, hfixed⟩ := h i _ (List.getElem?_eq_getElem hi)
  obtain ⟨htree', hfixed'⟩ := h' i _ (List.getElem?_eq_getElem hi')
  have hslot : entries[i].slot = entries'[i].slot := by
    simpa only [List.getElem?_map, List.getElem?_eq_getElem hi, List.getElem?_eq_getElem hi',
      Option.map_some, Option.some.injEq] using congrArg (·[i]?) hslots
  rw [isFixed_congr hkinds, hfixed'] at hfixed
  refine Entry.eq_of_slot hslot (eq_of_pure_eq hfixed).symm ?_
  rw [htree, htree', show entries[i].kind = entries'[i].kind from congrArg Slot.kind hslot]

end Listing

/-- The listing is what the arena holds: no other marked entries have its slots. -/
theorem Expr.listing_eq_of_slots {e : Expr} {a : Arena} (ha : e.toArena.run = .ok (some a))
    (hslots : entries.map Entry.slot = a.slots)
    (h : Marked entries (2 * entries.length) 0 entries) :
    ∃ q, e.toPath = .ok q ∧ q.path.listing = entries := by
  rw [e.toArena_eq, OptionT.run_lift] at ha
  cases hq : e.toPath with
  | error reason =>
    rw [hq] at ha
    exact nomatch ha
  | ok q =>
    rw [hq] at ha
    obtain rfl := Option.some.inj (Except.ok.inj ha)
    have hlength : entries.length = q.path.listing.length := by
      simpa only [List.length_map] using congrArg List.length hslots
    rw [hlength] at h
    exact ⟨q, rfl, (Expr.marked_listing hq).eq_of_slots h hslots.symm⟩

end FetchPlan
