import FetchPlan.Proofs.Flow.Stored
import Mathlib.Algebra.Order.Group.Multiset
import Mathlib.Tactic.Abel

/-!
# Links between the entries of a flow

Entries refer to each other in both directions: to the step before and the step after, and to the
parts and to what they are parts of. All links of one kind are collected in a multiset. The links
of both directions are the same, and every entry but the first is linked to once
(`Path.Numbered.linked`).
-/

namespace FetchPlan

variable {n m k : Nat}

/-- The entries that the operation, condition or projection is made of, by number. -/
def EntryKind.parts : EntryKind → List Nat
  | table _ | association .. | column _ | reference _ | fixed => []
  | select outputs => outputs.map Prod.snd
  | filter inner => [inner]
  | binary _ lhs rhs => [lhs, rhs]
  | unary _ operand => [operand]

namespace Entry

/-- The entry after this one, if there is one. -/
def after (entry : Entry) : List Nat := entry.next.toList

/-- The entry before this one, if there is one. -/
def before (entry : Entry) : List Nat := entry.previous.toList

/-- The entry that this one is a part of, if there is one. -/
def owners (entry : Entry) : List Nat := entry.parent.toList

/-- The parts of this entry. -/
def parts (entry : Entry) : List Nat := entry.kind.parts

end Entry

/-! ## Collected links -/

/-- The links of the entries of a block, numbered from `n` on: the number of each entry with the
numbers that `of` gives for it. -/
def links (of : Entry → List Nat) (n : Nat) (block : List Entry) : Multiset (Nat × Nat) :=
  ((block.zipIdx n).flatMap fun entry => (of entry.1).map (entry.2, ·) : List (Nat × Nat))

section Links

variable {of : Entry → List Nat} {block block' : List Entry} {entry : Entry} {i j : Nat}

theorem links_singleton : links of n [entry] = ((of entry).map (n, ·) : List (Nat × Nat)) := by
  simp [links]

theorem links_append (h : n + block.length = k) :
    links of n (block ++ block') = links of n block + links of k block' := by
  rw [links, List.zipIdx_append, List.flatMap_append, h, ← Multiset.coe_add]
  rfl

theorem lt_of_mem_links (h : (i, j) ∈ links of n block) : i < n + block.length := by
  obtain ⟨⟨entry, i'⟩, hentry, hj⟩ := List.mem_flatMap.1 (Multiset.mem_coe.1 h)
  obtain ⟨j', -, heq⟩ := List.mem_map.1 hj
  obtain ⟨rfl, rfl⟩ := Prod.mk.inj heq
  exact List.snd_lt_add_of_mem_zipIdx hentry

theorem mem_links : (i, j) ∈ links of 0 block ↔
    ∃ entry, block[i]? = some entry ∧ j ∈ of entry := by
  rw [links, Multiset.mem_coe, List.mem_flatMap]
  constructor
  · rintro ⟨⟨entry, i'⟩, hentry, hj⟩
    obtain ⟨j', hj', heq⟩ := List.mem_map.1 hj
    obtain ⟨rfl, rfl⟩ := Prod.mk.inj heq
    exact ⟨entry, List.mem_zipIdx_iff_getElem?.1 hentry, hj'⟩
  · rintro ⟨entry, hentry, hj⟩
    exact ⟨(entry, i), List.mem_zipIdx_iff_getElem?.2 hentry, List.mem_map_of_mem hj⟩

end Links

/-- The entries of a block, numbered from `n` on up to the one before `m`, agree on the links within
the block, and all of these lead from lower to higher numbers. Outside of it, `leaving` goes on to
next entries and `owned` to those that entries are parts of. The entries that nothing in the block
leads to are `heads`. -/
structure Block (n m : Nat) (block : List Entry) (leaving owned : Multiset (Nat × Nat))
    (heads : Multiset Nat) : Prop where
  length : n + block.length = m
  next : links Entry.after n block = (links Entry.before n block).map Prod.swap + leaving
  parent : links Entry.owners n block = (links Entry.parts n block).map Prod.swap + owned
  entered : (links Entry.before n block).map Prod.fst +
    (links Entry.parts n block).map Prod.snd + heads = (List.range' n block.length : List Nat)
  previous_lt : ∀ link ∈ links Entry.before n block, link.2 < link.1
  part_lt : ∀ link ∈ links Entry.parts n block, link.2 < link.1

namespace Block

variable {block block' : List Entry} {leaving leaving' owned owned' : Multiset (Nat × Nat)}
  {heads heads' : Multiset Nat} {entry : Entry}

theorem nil : Block n n [] 0 0 0 := by
  refine ⟨rfl, rfl, rfl, rfl, ?_, ?_⟩ <;> exact fun link h => absurd h (Multiset.notMem_zero link)

theorem append (h : Block n k block leaving owned heads)
    (h' : Block k m block' leaving' owned' heads') :
    Block n m (block ++ block') (leaving + leaving') (owned + owned') (heads + heads') where
  length := add_length_append h.length h'.length
  next := by
    rw [links_append h.length, links_append h.length, h.next, h'.next, Multiset.map_add]
    abel
  parent := by
    rw [links_append h.length, links_append h.length, h.parent, h'.parent, Multiset.map_add]
    abel
  entered := by
    have hrange := List.range'_append_1 (s := n) (m := block.length) (n := block'.length)
    rw [h.length] at hrange
    rw [links_append h.length, links_append h.length, Multiset.map_add, Multiset.map_add,
      List.length_append, ← hrange, ← Multiset.coe_add, ← h.entered, ← h'.entered]
    abel
  previous_lt := by
    rw [links_append h.length]
    intro link hlink
    exact (Multiset.mem_add.1 hlink).elim (h.previous_lt link) (h'.previous_lt link)
  part_lt := by
    rw [links_append h.length]
    intro link hlink
    exact (Multiset.mem_add.1 hlink).elim (h.part_lt link) (h'.part_lt link)

/-- The entry after the block is linked to what leaves the block for it and to heads of the block.
It is a head itself unless it comes after an entry. -/
theorem close (h : Block n m block (entry.before.map (·, m) : List (Nat × Nat))
      ((entry.parts.map (·, m) : List (Nat × Nat)) + owned) (entry.parts + heads))
    (hheads : (entry.before.map fun _ => m : List Nat) + heads' = heads + {m}) :
    Block n (m + 1) (block ++ [entry]) (entry.after.map (m, ·) : List (Nat × Nat))
      (owned + (entry.owners.map (m, ·) : List (Nat × Nat))) heads' where
  length := add_length_append h.length rfl
  next := by
    rw [links_append h.length, links_append h.length, links_singleton, links_singleton, h.next,
      Multiset.map_add, Multiset.map_coe, List.map_map]
    rfl
  parent := by
    rw [links_append h.length, links_append h.length, links_singleton, links_singleton, h.parent,
      Multiset.map_add, Multiset.map_coe, List.map_map]
    simp only [add_assoc]
    rfl
  entered := by
    have hrange := List.range'_append_1 (s := n) (m := block.length) (n := 1)
    have hparts : entry.parts.map (Prod.snd ∘ (m, ·)) = entry.parts := List.map_id _
    rw [h.length] at hrange
    rw [links_append h.length, links_append h.length, links_singleton, links_singleton,
      Multiset.map_add, Multiset.map_add, Multiset.map_coe, Multiset.map_coe, List.map_map,
      List.map_map, hparts, List.length_append, List.length_singleton, ← hrange,
      ← Multiset.coe_add, ← h.entered]
    calc
      _ = (links Entry.before n block).map Prod.fst + (links Entry.parts n block).map Prod.snd +
          entry.parts + ((entry.before.map fun _ => m : List Nat) + heads') := by
        simp only [Function.comp_def]
        abel
      _ = _ := by
        rw [hheads, List.range'_one, Multiset.coe_singleton]
        abel
  previous_lt := by
    rw [links_append h.length, links_singleton]
    intro link hlink
    rcases Multiset.mem_add.1 hlink with hlink | hlink
    · exact h.previous_lt link hlink
    · obtain ⟨i, hi, rfl⟩ := List.mem_map.1 (Multiset.mem_coe.1 hlink)
      -- What leaves the block comes from within the block.
      have hleaving : (i, m) ∈ links Entry.after n block := by
        rw [h.next]
        exact Multiset.mem_add.2 (Or.inr (Multiset.mem_coe.2 (List.mem_map_of_mem hi)))
      exact h.length ▸ lt_of_mem_links hleaving
  part_lt := by
    rw [links_append h.length, links_singleton]
    intro link hlink
    rcases Multiset.mem_add.1 hlink with hlink | hlink
    · exact h.part_lt link hlink
    · obtain ⟨i, hi, rfl⟩ := List.mem_map.1 (Multiset.mem_coe.1 hlink)
      have howned : (i, m) ∈ links Entry.owners n block := by
        rw [h.parent]
        refine Multiset.mem_add.2 (Or.inr (Multiset.mem_add.2 (Or.inl ?_)))
        exact Multiset.mem_coe.2 (List.mem_map_of_mem hi)
      exact h.length ▸ lt_of_mem_links howned

/-- An operation comes after all its parts, and after no other entry. -/
theorem operation (h : Block n m block 0 (entry.parts.map (·, m) : List (Nat × Nat)) entry.parts)
    (hbefore : entry.previous = none) :
    Block n (m + 1) (block ++ [entry]) (entry.after.map (m, ·) : List (Nat × Nat))
      (entry.owners.map (m, ·) : List (Nat × Nat)) {m} := by
  have hopen : Block n m block (entry.before.map (·, m) : List (Nat × Nat))
      ((entry.parts.map (·, m) : List (Nat × Nat)) + 0) (entry.parts + 0) := by
    rw [Entry.before, hbefore, add_zero, add_zero]
    exact h
  have hhead : (entry.before.map fun _ => m : List Nat) + ({m} : Multiset Nat) = 0 + {m} := by
    rw [Entry.before, hbefore]
    rfl
  have hclosed := hopen.close hhead
  rwa [zero_add] at hclosed

/-- An entry without parts that comes after no other. -/
theorem single (hbefore : entry.previous = none) (hparts : entry.kind.parts = []) :
    Block n (n + 1) [entry] (entry.after.map (n, ·) : List (Nat × Nat))
      (entry.owners.map (n, ·) : List (Nat × Nat)) {n} := by
  have hnil : Block n n [] 0 (entry.parts.map (·, n) : List (Nat × Nat)) entry.parts := by
    rw [Entry.parts, hparts]
    exact nil
  exact hnil.operation hbefore

end Block

/-! ## Flows -/

/-- The entries of the flow are a block. -/
def Flow.Linked (f : Flow) (n m : Nat) : Prop := ∀ parent,
  Block n m (f.entries parent) 0 (parent.toList.map (f.headId, ·) : List (Nat × Nat)) {f.headId}

/-- The entries of the path are a block. -/
def Path.Linked (p : Path) (n m : Nat) : Prop := ∀ parent next,
  Block n m (p.entries parent next) (next.toList.map (p.lastId, ·) : List (Nat × Nat))
    (parent.toList.map (p.headId, ·) : List (Nat × Nat)) {p.headId}

/-- The numbers of what the outputs hold. -/
def Outputs.headIds (o : Outputs) : List Nat := o.heads.map Prod.snd

/-- The numbers of what the fields hold. -/
def FlowFields.headIds (fs : FlowFields) : List Nat := fs.heads.map Prod.snd

/-- The entries of the outputs are a block. -/
def Outputs.Linked (o : Outputs) (n m : Nat) : Prop := ∀ id,
  Block n m (o.entries id) 0 (o.headIds.map (·, id) : List (Nat × Nat)) o.headIds

/-- The entries of the fields are a block. -/
def FlowFields.Linked (fs : FlowFields) (n m : Nat) : Prop := ∀ id,
  Block n m (fs.entries id) 0 (fs.headIds.map (·, id) : List (Nat × Nat)) fs.headIds

namespace Flow

variable {lhs rhs operand : Flow} {p : Path}

theorem linked_fixed : (Flow.fixed n).Linked n (n + 1) := fun _ => Block.single rfl rfl

theorem Linked.binary {op : BinaryOp} (hl : lhs.Linked n k) (hr : rhs.Linked k m) :
    (Flow.binary m op lhs rhs).Linked n (m + 1) := by
  intro parent
  have hblock := (hl (some m)).append (hr (some m))
  exact Block.operation hblock rfl

theorem Linked.unary {op : UnaryOp} (h : operand.Linked n m) :
    (Flow.unary m op operand).Linked n (m + 1) :=
  fun _ => Block.operation (h (some m)) rfl

theorem linked_path (h : p.Linked n m) : (Flow.path p).Linked n m :=
  fun parent => h parent none

end Flow

namespace Path

variable {p : Path}

theorem linked_table {relation : String} : (Path.table n relation).Linked n (n + 1) :=
  fun _ _ => Block.single rfl rfl

theorem linked_reference {target : Nat} : (Path.reference n target).Linked n (n + 1) :=
  fun _ _ => Block.single rfl rfl

/-- A step goes on from the last step before. Its parts are listed between the two. -/
theorem Linked.close {block : List Entry} {kind : EntryKind} (h : p.Linked n k)
    (hblock : Block k m block 0 (kind.parts.map (·, m) : List (Nat × Nat)) kind.parts)
    (parent next : Option Nat) :
    Block n (m + 1) (p.entries parent (some m) ++ block ++
        [{ kind, previous := some p.lastId, next, parent := none }])
      (next.toList.map (m, ·) : List (Nat × Nat))
      (parent.toList.map (p.headId, ·) : List (Nat × Nat)) {p.headId} := by
  have happend := (h parent (some m)).append hblock
  rw [add_zero, add_comm _ (kind.parts.map (·, m) : Multiset (Nat × Nat)),
    add_comm _ (kind.parts : Multiset Nat)] at happend
  have hclosed : Block n (m + 1) (p.entries parent (some m) ++ block ++
      [{ kind, previous := some p.lastId, next, parent := none }])
      (next.toList.map (m, ·) : List (Nat × Nat))
      ((parent.toList.map (p.headId, ·) : List (Nat × Nat)) + 0) {p.headId} :=
    happend.close (add_comm _ _)
  rwa [add_zero] at hclosed

theorem parts_stepKind {m' : Member} : (stepKind m').parts = [] := by
  cases m' with
  | _ => rfl

theorem Linked.step {m' : Member} (h : p.Linked n m) : (p.step m m').Linked n (m + 1) := by
  intro parent next
  have hnil : Block m m [] 0 ((stepKind m').parts.map (·, m) : List (Nat × Nat))
      (stepKind m').parts := parts_stepKind ▸ Block.nil
  have hblock := h.close hnil parent next
  rw [List.append_nil, ← entries_step] at hblock
  cases m' with
  | _ => exact hblock

theorem Linked.filter {f : Flow} (h : p.Linked n k) (hf : f.Linked k m) :
    (Path.filter p m f).Linked n (m + 1) :=
  fun parent next => Linked.close h (hf (some m)) parent next

theorem Linked.select {o : Outputs} (h : p.Linked n k) (ho : o.Linked k m) :
    (Path.select p m o).Linked n (m + 1) :=
  fun parent next => Linked.close h (ho m) parent next

end Path

theorem Outputs.linked_single {f : Flow} (h : f.Linked n m) : (Outputs.single f).Linked n m :=
  fun id => h (some id)

theorem Outputs.linked_record {fs : FlowFields} (h : fs.Linked n m) :
    (Outputs.record fs).Linked n m := h

theorem FlowFields.linked_nil : FlowFields.nil.Linked n n := fun _ => Block.nil

theorem FlowFields.Linked.cons {name : String} {f : Flow} {fs : FlowFields} (hf : f.Linked n k)
    (h : fs.Linked k m) : (FlowFields.cons name f fs).Linked n m :=
  fun id => (hf (some id)).append (h id)

mutual

/-- The entries of a numbered flow are a block. -/
theorem Flow.Numbered.linked {bound : List Nat} {f : Flow} {n m : Nat} :
    f.Numbered bound n m → f.Linked n m
  | .path h => Flow.linked_path h.linked
  | .binary hl hr => hl.linked.binary hr.linked
  | .unary h => h.linked.unary
  | .fixed => Flow.linked_fixed

/-- See `Flow.Numbered.linked`. -/
theorem Path.Numbered.linked {bound : List Nat} {p : Path} {n m : Nat} :
    p.Numbered bound n m → p.Linked n m
  | .table => Path.linked_table
  | .reference _ => Path.linked_reference
  | .step h => h.linked.step
  | .select h _ ho => h.linked.select ho.linked
  | .filter h _ hf => h.linked.filter hf.linked

/-- See `Flow.Numbered.linked`. -/
theorem Outputs.Numbered.linked {bound : List Nat} {o : Outputs} {n m : Nat} :
    o.Numbered bound n m → o.Linked n m
  | .single h => Outputs.linked_single h.linked
  | .record h => Outputs.linked_record h.linked

/-- See `Flow.Numbered.linked`. -/
theorem FlowFields.Numbered.linked {bound : List Nat} {fs : FlowFields} {n m : Nat} :
    fs.Numbered bound n m → fs.Linked n m
  | .nil => FlowFields.linked_nil
  | .cons hf h => .cons hf.linked h.linked

end

/-! ## Listings -/

namespace Listing

/-- The entry after `i`. -/
def next? (entries : List Entry) (i : Nat) : Option Nat := entries[i]?.bind Entry.next

/-- The entry before `i`. -/
def previous? (entries : List Entry) (i : Nat) : Option Nat := entries[i]?.bind Entry.previous

/-- The entry that `i` is a part of. -/
def parent? (entries : List Entry) (i : Nat) : Option Nat := entries[i]?.bind Entry.parent

/-- The parts of `i`. -/
def parts (entries : List Entry) (i : Nat) : List Nat := entries[i]?.elim [] Entry.parts

/-- The links of a listing lead in both directions, and to every entry but `root` in one way: from
the entry before it, or from the one it is a part of. -/
structure Linked (entries : List Entry) (root : Nat) : Prop where
  next_iff : ∀ i j, next? entries i = some j ↔ previous? entries j = some i
  next_lt : ∀ i j, next? entries i = some j → i < j
  parent_iff : ∀ i k, parent? entries i = some k ↔ i ∈ parts entries k
  parts_nodup : ∀ k, (parts entries k).Nodup
  parent_lt : ∀ i k, parent? entries i = some k → i < k
  entered : ∀ i < entries.length, i ≠ root →
    ((previous? entries i).isSome ↔ parent? entries i = none)
  root_lt : root < entries.length
  root_first : previous? entries root = none ∧ parent? entries root = none

variable {entries : List Entry} {i j : Nat}

theorem mem_links_after : (i, j) ∈ links Entry.after 0 entries ↔ next? entries i = some j := by
  rw [mem_links, next?, Option.bind_eq_some_iff]
  simp only [Entry.after, Option.mem_toList]

theorem mem_links_before :
    (i, j) ∈ links Entry.before 0 entries ↔ previous? entries i = some j := by
  rw [mem_links, previous?, Option.bind_eq_some_iff]
  simp only [Entry.before, Option.mem_toList]

theorem mem_links_owners : (i, j) ∈ links Entry.owners 0 entries ↔ parent? entries i = some j := by
  rw [mem_links, parent?, Option.bind_eq_some_iff]
  simp only [Entry.owners, Option.mem_toList]

theorem mem_links_parts : (i, j) ∈ links Entry.parts 0 entries ↔ j ∈ parts entries i := by
  rw [mem_links, parts]
  cases entries[i]? with
  | none => simp
  | some entry => simp

theorem parts_le_links (k : Nat) :
    (parts entries k : Multiset Nat) ≤ (links Entry.parts 0 entries).map Prod.snd := by
  rw [parts]
  cases hentry : entries[k]? with
  | none => exact Multiset.zero_le _
  | some entry =>
    obtain ⟨hk, rfl⟩ := List.getElem?_eq_some_iff.1 hentry
    have hsplit : entries.take k ++ ([entries[k]] ++ entries.drop (k + 1)) = entries := by
      rw [List.singleton_append, ← List.drop_eq_getElem_cons hk, List.take_append_drop]
    have hlength : 0 + (entries.take k).length = k := by
      rw [List.length_take, Nat.zero_add, Nat.min_eq_left (Nat.le_of_lt hk)]
    have hlinks : links Entry.parts 0 entries = links Entry.parts 0 (entries.take k) +
        (links Entry.parts k [entries[k]] + links Entry.parts (k + 1) (entries.drop (k + 1))) := by
      rw [← links_append (k := k + 1) rfl, ← links_append hlength, hsplit]
    have hpart : (links Entry.parts k [entries[k]]).map Prod.snd = entries[k].parts := by
      rw [links_singleton, Multiset.map_coe, List.map_map]
      exact congrArg _ (List.map_id _)
    rw [hlinks, Multiset.map_add, Multiset.map_add, hpart]
    exact (Multiset.le_add_right _ _).trans (Multiset.le_add_left _ _)

/-- The entries of a whole path are linked from its first step. -/
theorem linked_of_block {m root : Nat} (h : Block 0 m entries 0 0 {root}) :
    Linked entries root := by
  have hnext : ∀ i j, next? entries i = some j ↔ previous? entries j = some i := by
    intro i j
    rw [← mem_links_after, ← mem_links_before, h.next, add_zero]
    exact Multiset.mem_map_of_injective Prod.swap_injective (a := (j, i))
  have hparent : ∀ i k, parent? entries i = some k ↔ i ∈ parts entries k := by
    intro i k
    rw [← mem_links_owners, ← mem_links_parts, h.parent, add_zero]
    exact Multiset.mem_map_of_injective Prod.swap_injective (a := (k, i))
  have hnodup : ((links Entry.before 0 entries).map Prod.fst +
      (links Entry.parts 0 entries).map Prod.snd + {root}).Nodup := by
    rw [h.entered]
    exact List.nodup_range'
  obtain ⟨hboth, -, hroot⟩ := Multiset.nodup_add.1 hnodup
  obtain ⟨-, hparts, hdisjoint⟩ := Multiset.nodup_add.1 hboth
  have hbefore : ∀ i, i ∈ (links Entry.before 0 entries).map Prod.fst ↔
      (previous? entries i).isSome := by
    intro i
    rw [Multiset.mem_map, Option.isSome_iff_exists]
    constructor
    · rintro ⟨⟨i', j⟩, hlink, rfl⟩
      exact ⟨j, mem_links_before.1 hlink⟩
    · rintro ⟨j, hj⟩
      exact ⟨(i, j), mem_links_before.2 hj, rfl⟩
  have howned : ∀ i, i ∈ (links Entry.parts 0 entries).map Prod.snd ↔
      (parent? entries i).isSome := by
    intro i
    rw [Multiset.mem_map, Option.isSome_iff_exists]
    constructor
    · rintro ⟨⟨k, i'⟩, hlink, rfl⟩
      exact ⟨k, (hparent i' k).2 (mem_links_parts.1 hlink)⟩
    · rintro ⟨k, hk⟩
      exact ⟨(k, i), mem_links_parts.2 ((hparent i k).1 hk), rfl⟩
  have hfirst : root ∉ (links Entry.before 0 entries).map Prod.fst +
      (links Entry.parts 0 entries).map Prod.snd :=
    Multiset.disjoint_right.1 hroot (Multiset.mem_singleton_self root)
  rw [Multiset.mem_add, hbefore, howned, not_or, Option.not_isSome_iff_eq_none,
    Option.not_isSome_iff_eq_none] at hfirst
  refine ⟨hnext, ?_, hparent, ?_, ?_, ?_, ?_, hfirst⟩
  · intro i j hij
    exact h.previous_lt (j, i) (mem_links_before.2 ((hnext i j).1 hij))
  · intro k
    exact Multiset.coe_nodup.1 (Multiset.nodup_of_le (parts_le_links k) hparts)
  · intro i k hik
    exact h.part_lt (k, i) (mem_links_parts.2 ((hparent i k).1 hik))
  · intro i hi hne
    have hmem : i ∈ (links Entry.before 0 entries).map Prod.fst +
        (links Entry.parts 0 entries).map Prod.snd + {root} := by
      rw [h.entered]
      exact Multiset.mem_coe.2 (List.mem_range'_1.2 ⟨Nat.zero_le i, by omega⟩)
    rw [Multiset.mem_add, Multiset.mem_add, hbefore, howned, Multiset.mem_singleton,
      or_iff_left hne] at hmem
    rw [← Option.not_isSome_iff_eq_none]
    constructor
    · intro hprevious howner
      exact Multiset.disjoint_left.1 hdisjoint ((hbefore i).2 hprevious) ((howned i).2 howner)
    · exact fun hno => hmem.resolve_right hno
  · have hmem : root ∈ (List.range' 0 entries.length : Multiset Nat) := by
      rw [← h.entered]
      exact Multiset.mem_add.2 (Or.inr (Multiset.mem_singleton_self root))
    have hrange := List.mem_range'_1.1 (Multiset.mem_coe.1 hmem)
    omega

end Listing

end FetchPlan
