import FetchPlan.Flow.Arena
import FetchPlan.Proofs.Flow.Stored

/-!
# The listing is what is built

Started on any slots, storing an operand leaves those slots as they are and appends the slots of
its flow (`Shape.stores`); it refuses what `Shape.flow` refuses, for the same reason, and does not
get stuck. So the arena of a query holds the entries of its listing (`Expr.toArena_eq`).
-/

namespace FetchPlan

open Storing

variable {bound bound' : List Nat} {n m k id : Nat} {scope : Scope} {left right block : List Slot}
  {parent next : Option Nat} {f f' : Flow} {p : Path} {o : Outputs} {fs : FlowFields}
  {kind : EntryKind}

/-! ## The slots of a flow -/

/-- The slots of an operand of `parent`. -/
def Flow.slots (parent : Option Nat) (f : Flow) : List Slot := (f.entries parent).map Entry.slot

/-- The slots of a path that is a part of `parent` and goes on with the step `next`. -/
def Path.slots (parent next : Option Nat) (p : Path) : List Slot :=
  (p.entries parent next).map Entry.slot

/-- The slots of the fields of a record while they are parts of nothing. -/
def FlowFields.slots : FlowFields → List Slot
  | .nil => []
  | .cons _ inner rest => inner.slots none ++ rest.slots

/-- The slots of outputs while they are parts of nothing. -/
def Outputs.slots : Outputs → List Slot
  | .single inner => inner.slots none
  | .record fields => fields.slots

theorem Flow.slots_binary {op : BinaryOp} : (Flow.binary id op f f').slots parent =
    f.slots (some id) ++ f'.slots (some id) ++
      [{ kind := .binary op f.headId f'.headId, parent }] := by
  simp only [slots, entries, List.map_append]
  rfl

theorem Flow.slots_unary {op : UnaryOp} : (Flow.unary id op f).slots parent =
    f.slots (some id) ++ [{ kind := .unary op f.headId, parent }] := by
  simp only [slots, entries, List.map_append]
  rfl

theorem Path.slots_step {x : Member} : (p.step id x).slots parent next =
    p.slots parent (some id) ++ [{ kind := stepKind x, previous := some p.lastId, next }] := by
  simp only [slots, entries_step, List.map_append]
  rfl

theorem Path.slots_filter : (Path.filter p id f).slots parent next =
    p.slots parent (some id) ++ f.slots (some id) ++
      [{ kind := .filter f.headId, previous := some p.lastId, next }] := by
  simp only [slots, Flow.slots, entries, List.map_append]
  rfl

theorem Path.slots_select : (Path.select p id o).slots parent next =
    p.slots parent (some id) ++ (o.entries id).map Entry.slot ++
      [{ kind := .select o.heads, previous := some p.lastId, next }] := by
  simp only [slots, entries, List.map_append]
  rfl

theorem Flow.Numbered.length_slots (h : f.Numbered bound n m) :
    n + (f.slots parent).length = m := by
  rw [Flow.slots, List.length_map]
  exact h.listed.length parent

theorem Path.Numbered.length_slots (h : p.Numbered bound n m) :
    n + (p.slots parent next).length = m := by
  rw [Path.slots, List.length_map]
  exact h.listed.length parent next

theorem FlowFields.Numbered.length_slots (h : fs.Numbered bound n m) :
    n + fs.slots.length = m := by
  fun_induction FlowFields.slots fs generalizing n with
  | case1 =>
    cases h with
    | nil => rfl
  | case2 _ inner rest ih =>
    cases h with
    | cons hf h => exact add_length_append hf.length_slots (ih h)

theorem Outputs.Numbered.length_slots (h : o.Numbered bound n m) : n + o.slots.length = m := by
  cases h with
  | single h => exact h.length_slots
  | record h => exact h.length_slots

theorem Outputs.Numbered.length_entries (h : o.Numbered bound n m) :
    n + ((o.entries id).map Entry.slot).length = m := by
  rw [List.length_map]
  exact h.listed.length id

theorem length_append_block (hn : left.length = n) (hblock : n + block.length = m) :
    (left ++ block).length = m := by
  rw [List.length_append, hn, hblock]

/-! ## Runs -/

namespace Storing

variable {α β γ δ : Type}

theorem run_push_bind {x : Nat → Storing α} :
    (push kind >>= x).run left = (x left.length).run (left ++ [{ kind := kind }]) := rfl

theorem run_bind_of_eq_pure {x : Storing α} {y : α → Storing β} {a : α}
    (hx : x.run left = pure (a, right)) : (x >>= y).run left = (y a).run right := by
  rw [StateT.run_bind, hx, pure_bind]

section Slots

variable {slot : Slot} (block)

theorem append_concat_eq :
    left ++ (block ++ [slot] ++ right) = left ++ block ++ slot :: right := by
  simp only [List.append_assoc, List.cons_append, List.nil_append]

theorem run_slotAt (hn : left.length = n) (hid : n + block.length = id) :
    (slotAt id).run (left ++ (block ++ [slot] ++ right)) =
      pure (slot, left ++ (block ++ [slot] ++ right)) := by
  have hslot : (left ++ (block ++ [slot] ++ right))[id]? = some slot := by
    rw [append_concat_eq, ← length_append_block hn hid,
      List.getElem?_append_right (Nat.le_refl _), Nat.sub_self]
    rfl
  rw [slotAt, StateT.run_bind, StateT.run_get, pure_bind, hslot]
  rfl

/-- A change to the last slot of a block stays in the block. -/
theorem run_update {g : Slot → Slot} (hn : left.length = n) (hid : n + block.length = id) :
    (update id g).run (left ++ (block ++ [slot] ++ right)) =
      pure ((), left ++ (block ++ [g slot] ++ right)) := by
  have hset : (left ++ (block ++ [slot] ++ right)).set id (g slot) =
      left ++ (block ++ [g slot] ++ right) := by
    rw [append_concat_eq, append_concat_eq, ← length_append_block hn hid,
      List.set_append_right _ _ (Nat.le_refl _), Nat.sub_self]
    rfl
  rw [update, run_bind_of_eq_pure (run_slotAt block hn hid), ← hset]
  rfl

theorem run_resolveSource (hn : left.length = n) (hid : n + block.length = id) :
    (resolveSource id).run (left ++ (block ++ [slot] ++ right)) =
      pure (slot.kind.referent id, left ++ (block ++ [slot] ++ right)) :=
  run_bind_of_eq_pure (run_slotAt block hn hid)

theorem run_setParent {parent : Nat} (hslot : slot.parent = none) (hn : left.length = n)
    (hid : n + block.length = id) :
    (setParent id parent).run (left ++ (block ++ [slot] ++ right)) =
      pure ((), left ++ (block ++ [{ slot with parent := some parent }] ++ right)) := by
  rw [setParent, run_bind_of_eq_pure (run_slotAt block hn hid), hslot]
  exact run_update block hn hid

end Slots

variable {store : α → Storing β} {number : γ → Numbering δ}
  {result : δ × Nat → β × List Slot}

/-- Storing goes on as numbering does, or both are refused. -/
theorem run_bind_eq_lift {x : Storing α} {y : Numbering γ} {stored : γ × Nat → α × List Slot}
    (hx : x.run left = OptionT.lift (stored <$> y.run n))
    (hrest : ∀ c m, y.run n = .ok (c, m) →
      (store (stored (c, m)).1).run (stored (c, m)).2 =
        OptionT.lift (result <$> (number c).run m)) :
    (x >>= store).run left = OptionT.lift (result <$> (y >>= number).run n) := by
  rw [StateT.run_bind, StateT.run_bind, hx]
  cases hy : y.run n with
  | error e => rfl
  | ok r => exact hrest r.1 r.2 hy

theorem run_liftM {x : Except Error γ} :
    (liftM x : Storing γ).run left = OptionT.lift ((fun c => (c, left)) <$> x) := by
  cases x with
  | error _ => rfl
  | ok _ => rfl

/-- Where nothing is stored, nothing is numbered. -/
theorem run_bind_liftM_eq_lift {store : γ → Storing β} {x : Storing γ} {y : Except Error γ}
    (hx : x.run left = OptionT.lift ((fun c => (c, left)) <$> y))
    (hrest : ∀ c, (store c).run left = OptionT.lift (result <$> (number c).run n)) :
    (x >>= store).run left =
      OptionT.lift (result <$> ((liftM y : Numbering γ) >>= number).run n) := by
  rw [StateT.run_bind, hx]
  cases y with
  | error e => rfl
  | ok c => exact hrest c

end Storing

/-! ## Links -/

/-- The first slot of a path says what the path is a part of. -/
theorem Path.Numbered.run_setParent {p : Path} {m : Nat} {next : Option Nat} {right : List Slot} :
    p.Numbered bound n m → left.length = n →
      (setParent n id).run (left ++ (p.slots none next ++ right)) =
        pure ((), left ++ (p.slots (some id) next ++ right))
  | .table, hn | .reference _, hn => Storing.run_setParent [] rfl hn rfl
  | .step h, hn => by
    simp only [Path.slots_step, List.append_assoc]
    exact h.run_setParent hn
  | .select h _ _, hn => by
    simp only [Path.slots_select, List.append_assoc]
    exact h.run_setParent hn
  | .filter h _ _, hn => by
    simp only [Path.slots_filter, List.append_assoc]
    exact h.run_setParent hn

/-- The head of an operand says what the operand is a part of. -/
theorem Flow.Numbered.run_setParent (h : f.Numbered bound n m) (hn : left.length = n) :
    (setParent f.headId id).run (left ++ (f.slots none ++ right)) =
      pure ((), left ++ (f.slots (some id) ++ right)) := by
  cases h with
  | path h =>
    rw [Flow.headId, h.headId_eq]
    exact h.run_setParent hn
  | binary hl hr =>
    rw [Flow.slots_binary, Flow.slots_binary]
    exact Storing.run_setParent _ rfl hn (add_length_append hl.length_slots hr.length_slots)
  | unary h =>
    rw [Flow.slots_unary, Flow.slots_unary]
    exact Storing.run_setParent _ rfl hn h.length_slots
  | fixed => exact Storing.run_setParent [] rfl hn rfl

/-- The last slot of a path says how the path goes on. -/
theorem Path.Numbered.run_setNext (h : p.Numbered bound n m) (hn : left.length = n) :
    (update p.lastId fun slot => { slot with next := some id }).run
        (left ++ (p.slots parent none ++ right)) =
      pure ((), left ++ (p.slots parent (some id) ++ right)) := by
  cases h with
  | table => exact run_update [] hn rfl
  | reference _ => exact run_update [] hn rfl
  | step h =>
    rw [Path.slots_step, Path.slots_step, Path.lastId_step]
    exact run_update _ hn h.length_slots
  | select h _ ho =>
    rw [Path.slots_select, Path.slots_select]
    exact run_update _ hn (add_length_append h.length_slots ho.length_entries)
  | filter h _ hf =>
    rw [Path.slots_filter, Path.slots_filter]
    exact run_update _ hn (add_length_append h.length_slots hf.length_slots)

/-! ## Operations -/

/-- What is there once the operand is stored, and the number by which it is referred to. -/
def Flow.stored (left : List Slot) (f : Flow) : Nat × List Slot := (f.headId, left ++ f.slots none)

theorem Flow.Numbered.run_binary {op : BinaryOp} (hf : f.Numbered bound n k)
    (hf' : f'.Numbered bound' k m) (hn : left.length = n) :
    (Storing.binary op f.headId f'.headId).run (left ++ f.slots none ++ f'.slots none) =
      pure ((Flow.binary m op f f').stored left) := by
  let slot : Slot := { kind := .binary op f.headId f'.headId }
  have hlength : (left ++ f.slots none ++ f'.slots none).length = m :=
    length_append_block (length_append_block hn hf.length_slots) hf'.length_slots
  have hleft : (setParent f.headId m).run (left ++ f.slots none ++ f'.slots none ++ [slot]) =
      pure ((), left ++ f.slots (some m) ++ (f'.slots none ++ [slot])) := by
    simpa only [List.append_assoc] using hf.run_setParent hn
  have hright : (setParent f'.headId m).run
      (left ++ f.slots (some m) ++ (f'.slots none ++ [slot])) =
        pure ((), left ++ (Flow.binary m op f f').slots none) := by
    rw [Flow.slots_binary, List.append_assoc (f.slots _), ← List.append_assoc left]
    exact hf'.run_setParent (length_append_block hn hf.length_slots)
  rw [Storing.binary, run_push_bind, hlength, run_bind_of_eq_pure hleft, run_bind_of_eq_pure hright]
  rfl

theorem Flow.Numbered.run_unary {op : UnaryOp} (hf : f.Numbered bound n m)
    (hn : left.length = n) : (Storing.unary op f.headId).run (left ++ f.slots none) =
      pure ((Flow.unary m op f).stored left) := by
  let slot : Slot := { kind := .unary op f.headId }
  have hparent : (setParent f.headId m).run (left ++ f.slots none ++ [slot]) =
      pure ((), left ++ (Flow.unary m op f).slots none) := by
    rw [List.append_assoc, Flow.slots_unary]
    exact hf.run_setParent hn
  rw [Storing.unary, run_push_bind, length_append_block hn hf.length_slots,
    run_bind_of_eq_pure hparent]
  rfl

/-! ## Cursors -/

/-- The step that gives the rows of the path. If it is a reference, `rowSource?` is the step that it
leads to. -/
def Path.rowStep? : Path → Option Nat
  | .table id _ | .reference id _ | .association _ id .. | .output _ id _ | .select _ id _ =>
    some id
  | .column .. => none
  | .filter init .. => init.rowStep?

/-- The cursor of the chain that the path comes from. -/
def Path.cursor (p : Path) : Cursor :=
  { head := some p.headId, tail := some p.lastId, rowSource := p.rowStep? }

/-- What is there once the chain is stored, and how far it is built. -/
def Path.stored (left : List Slot) (p : Path) : Cursor × List Slot :=
  (p.cursor, left ++ p.slots none none)

theorem Path.isNone_rowStep? (p : Path) : p.rowStep?.isNone = p.rowSource?.isNone := by
  fun_induction Path.rowStep? p with
  | case7 init id inner ih => exact ih
  | _ => rfl

/-- A parameter bound to the row step stands for the row source. -/
theorem Path.Numbered.run_resolveSource {p : Path} {m id : Nat} {next : Option Nat} :
    p.Numbered bound n m → left.length = n → p.rowStep? = some id →
      ∃ target, p.rowSource? = some target ∧ ∀ right,
        (resolveSource id).run (left ++ (p.slots parent next ++ right)) =
          pure (target, left ++ (p.slots parent next ++ right))
  | .table, hn, hid | .reference _, hn, hid => by
    obtain rfl := Option.some.inj hid
    exact ⟨_, rfl, fun _ => Storing.run_resolveSource [] hn rfl⟩
  | .step (x := x) h, hn, hid => by
    rw [Path.slots_step]
    cases x with
    | column name => exact absurd hid (Option.some_ne_none id).symm
    | projected name | association a =>
      obtain rfl := Option.some.inj hid
      exact ⟨_, rfl, fun _ => Storing.run_resolveSource _ hn h.length_slots⟩
  | .select h _ ho, hn, hid => by
    obtain rfl := Option.some.inj hid
    rw [Path.slots_select]
    exact ⟨_, rfl, fun _ => Storing.run_resolveSource _ hn
      (add_length_append h.length_slots ho.length_entries)⟩
  | .filter h _ _, hn, hid => by
    obtain ⟨target, htarget, hrun⟩ := h.run_resolveSource hn hid
    refine ⟨target, htarget, fun right => ?_⟩
    rw [Path.slots_filter, List.append_assoc, List.append_assoc]
    exact hrun _

theorem Path.Numbered.run_binding {call : String} (h : p.Numbered bound n m)
    (hn : left.length = n) : (p.cursor.binding call).run (left ++ p.slots parent next) =
      OptionT.lift ((fun target => (target, left ++ p.slots parent next)) <$> p.binding call) := by
  rw [Cursor.binding, Path.binding]
  cases hid : p.rowStep? with
  | none =>
    have hnone : p.rowSource? = none := by
      rw [← Option.isNone_iff_eq_none, ← p.isNone_rowStep?, hid, Option.isNone_none]
    rw [hnone, Path.cursor, hid]
    rfl
  | some id =>
    obtain ⟨target, htarget, hrun⟩ := h.run_resolveSource hn hid
    have hrun := hrun []
    rw [List.append_nil] at hrun
    rw [htarget, Path.cursor, hid]
    exact hrun

/-- The next step of a path is stored behind all slots, and the last step before it leads to it. -/
theorem Path.Numbered.run_append (h : p.Numbered bound n m) (hn : left.length = n)
    (hid : m + block.length = id) :
    (p.cursor.append kind).run (left ++ p.slots parent none ++ block) =
      pure ((id, { p.cursor with tail := some id }),
        left ++ (p.slots parent (some id) ++ block ++ [{ kind, previous := some p.lastId }])) := by
  let slot : Slot := { kind := kind }
  have hlength : (left ++ p.slots parent none ++ block).length = id :=
    length_append_block (length_append_block hn h.length_slots) hid
  have hnext : (update p.lastId fun slot => { slot with next := some id }).run
      (left ++ p.slots parent none ++ block ++ [slot]) =
        pure ((), left ++ (p.slots parent (some id) ++ block ++ [slot] ++ [])) := by
    simpa only [List.append_assoc, List.append_nil] using h.run_setNext hn
  have hprevious : (update id fun slot => { slot with previous := some p.lastId }).run
      (left ++ (p.slots parent (some id) ++ block ++ [slot] ++ [])) =
        pure ((), left ++ (p.slots parent (some id) ++ block ++
          [{ kind, previous := some p.lastId }] ++ [])) :=
    run_update _ hn (add_length_append h.length_slots hid)
  rw [Cursor.append, run_push_bind, hlength]
  show (update p.lastId _ >>= fun _ => update id _ >>= fun _ => pure _ : Storing _).run _ = _
  rw [run_bind_of_eq_pure hnext, run_bind_of_eq_pure hprevious, List.append_nil]
  rfl

/-! ## Steps -/

/-- Storing a member access takes the step that `Path.access` takes. -/
theorem Path.Numbered.run_access {x : Member} (h : p.Numbered bound n m) (hn : left.length = n) :
    (p.cursor.access x).run (left ++ p.slots none none) =
      OptionT.lift ((fun r => r.1.stored left) <$> (p.access x).run m) := by
  have happend : (p.cursor.append (stepKind x)).run (left ++ p.slots none none) =
      pure ((m, { p.cursor with tail := some m }), left ++ (p.step m x).slots none none) := by
    have hid : m + ([] : List Slot).length = m := rfl
    rw [slots_step]
    simpa only [List.append_nil] using h.run_append hn hid
  have hnone : p.cursor.rowSource.isNone = p.rowSource?.isNone := p.isNone_rowStep?
  rw [Cursor.access, Path.access, hnone]
  cases p.rowSource?.isNone with
  | true => rfl
  | false =>
    show (p.cursor.append (stepKind x) >>= _).run _ = _
    rw [run_bind_of_eq_pure happend]
    cases x with
    | _ => rfl

/-- A call is stored behind its parts, and they become its parts only then. -/
theorem Path.Numbered.run_append_link {block' : List Slot} {finish : Nat × Cursor → Cursor}
    (link : Nat → Storing Unit) (h : p.Numbered bound n k) (hn : left.length = n)
    (hm : k + block.length = m)
    (hlink : ∀ {left : List Slot} (right : List Slot), left.length = k →
      (link m).run (left ++ (block ++ right)) = pure ((), left ++ (block' ++ right))) :
    (p.cursor.append kind >>= fun r => link r.1 >>= fun _ => pure (finish r) : Storing Cursor).run
        (left ++ p.slots none none ++ block) =
      pure (finish (m, { p.cursor with tail := some m }),
        left ++ (p.slots none (some m) ++ block' ++ [{ kind, previous := some p.lastId }])) := by
  let slot : Slot := { kind, previous := some p.lastId }
  have hlinked : (link m).run (left ++ (p.slots none (some m) ++ block ++ [slot])) =
      pure ((), left ++ (p.slots none (some m) ++ block' ++ [slot])) := by
    have hk : (left ++ p.slots none (some m)).length = k := length_append_block hn h.length_slots
    simpa only [List.append_assoc] using hlink [slot] hk
  rw [run_bind_of_eq_pure (h.run_append hn hm), run_bind_of_eq_pure hlinked]
  rfl

theorem Path.Numbered.run_filter (h : p.Numbered bound n k) (hf : f.Numbered bound' k m)
    (hn : left.length = n) :
    (p.cursor.filter f.headId).run (left ++ p.slots none none ++ f.slots none) =
      pure ((Path.filter p m f).stored left) := by
  rw [Path.stored, Path.slots_filter]
  exact h.run_append_link (setParent f.headId) hn hf.length_slots fun _ => hf.run_setParent

/-- The values of a record become parts of the projection one after the other. -/
theorem FlowFields.Numbered.run_setParents (h : fs.Numbered bound n m) (hn : left.length = n) :
    (fs.heads.forM fun output => setParent output.2 id).run (left ++ (fs.slots ++ right)) =
      pure ((), left ++ ((fs.entries id).map Entry.slot ++ right)) := by
  fun_induction FlowFields.slots fs generalizing n left with
  | case1 => rfl
  | case2 _ inner rest ih =>
    cases h with
    | cons hf h =>
      have hinner : (setParent inner.headId id).run
          (left ++ (inner.slots none ++ rest.slots ++ right)) =
            pure ((), left ++ inner.slots (some id) ++ (rest.slots ++ right)) := by
        rw [List.append_assoc, List.append_assoc]
        exact hf.run_setParent hn
      show (setParent inner.headId id >>= fun _ => rest.heads.forM _ : Storing _).run _ = _
      rw [run_bind_of_eq_pure hinner, ih h (length_append_block hn hf.length_slots),
        FlowFields.entries, List.map_append]
      simp only [List.append_assoc]
      rfl

theorem Outputs.Numbered.run_setParents (h : o.Numbered bound n m) (hn : left.length = n) :
    (o.heads.forM fun output => setParent output.2 id).run (left ++ (o.slots ++ right)) =
      pure ((), left ++ ((o.entries id).map Entry.slot ++ right)) := by
  cases h with
  | single h =>
    show (setParent _ id >>= fun _ => pure _ : Storing _).run _ = _
    exact run_bind_of_eq_pure (h.run_setParent hn)
  | record h => exact h.run_setParents hn

theorem Path.Numbered.run_select (h : p.Numbered bound n k) (ho : o.Numbered bound' k m)
    (hn : left.length = n) :
    (p.cursor.select o.heads).run (left ++ p.slots none none ++ o.slots) =
      pure ((Path.select p m o).stored left) := by
  rw [Path.stored, Path.slots_select]
  exact h.run_append_link (fun id => o.heads.forM fun output => setParent output.2 id) hn
    ho.length_slots fun _ => ho.run_setParents

/-! ## Whole chains and operands -/

/-- What is there once the fields are stored, and the numbers by which they are referred to. -/
def FlowFields.stored (left : List Slot) (fs : FlowFields) :
    List (Option String × Nat) × List Slot := (fs.heads, left ++ fs.slots)

/-- Started on any slots, storing does not get stuck: it ends with what `stored` says of the result
of numbering, or it is refused for the reason that numbering is refused for. -/
def Stores {α γ : Type} (x : Storing α) (y : Numbering γ)
    (stored : List Slot → γ → α × List Slot) : Prop :=
  ∀ left, x.run left = OptionT.lift ((fun r => stored left r.1) <$> y.run left.length)

namespace Chain

variable {source : Chain} {x : String} {body : Shape}

/-- A call is refused with its source, and where its parameter cannot be bound to the rows of the
source. -/
theorem stores_call {call : String} {store : Cursor → Scope → Storing Cursor}
    {number : Path → Scope → Numbering Path}
    (hsource : Stores (source.store scope) (source.path scope) Path.stored)
    (hrest : ∀ left p k scope', p.Numbered (scope.map Prod.snd) left.length k →
      (left ++ p.slots none none).length = k →
        (store p.cursor scope').run (left ++ p.slots none none) =
          OptionT.lift ((fun r => r.1.stored left) <$> (number p scope').run k)) :
    Stores
      (do
        let cursor ← source.store scope
        let scope ← scope.bind x (← cursor.binding call)
        store cursor scope)
      (do
        let p ← source.path scope
        let scope ← scope.bind x (← p.binding call)
        number p scope) Path.stored := by
  intro left
  refine run_bind_eq_lift (hsource left) fun p k hp => ?_
  have h := source.numbered_of_run hp
  refine run_bind_liftM_eq_lift (h.run_binding rfl) fun target => ?_
  refine run_bind_liftM_eq_lift run_liftM fun scope' => ?_
  exact hrest left p k scope' h (length_append_block rfl h.length_slots)

/-- A projection to one value is stored like a condition. -/
theorem stores_project_of_ne {op : Projecting} (hne : ∀ fields, body ≠ .record fields)
    (hsource : Stores (source.store scope) (source.path scope) Path.stored)
    (hbody : ∀ scope, Stores (body.store scope) (body.flow scope) Flow.stored) :
    Stores ((Chain.project source op x body).store scope)
      ((Chain.project source op x body).path scope) Path.stored := by
  rw [store, path]
  · refine stores_call hsource fun left p k scope' h hlength => ?_
    refine run_bind_eq_lift (hlength ▸ hbody scope' _) fun f m hf => ?_
    have hselect := h.run_select (.single (body.numbered_of_run hf)) rfl
    exact hselect
  · exact hne
  · exact hne

end Chain

-- By induction on the shape, for all slots that are there already: the slots of one operand are
-- what the next one is stored behind. A later step writes to an operand only where it takes it in,
-- so an operand is described before that, as a part of nothing.
mutual

/-- Storing an operand appends the slots of its flow, or is refused for the same reason. -/
theorem Shape.stores : ∀ (shape : Shape) (scope : Scope),
    Stores (shape.store scope) (shape.flow scope) Flow.stored
  | .literal, scope | .captured, scope => by
    rw [Shape.store, Shape.flow]
    exact fun _ => rfl
  | .binary op lhs rhs, scope => by
    rw [Shape.store, Shape.flow]
    intro left
    cases op.isSupported with
    | false => rfl
    | true =>
      refine run_bind_eq_lift (lhs.stores scope left) fun f k hl => ?_
      have hf := lhs.numbered_of_run hl
      have hlength : (left ++ f.slots none).length = k := length_append_block rfl hf.length_slots
      refine run_bind_eq_lift (hlength ▸ rhs.stores scope _) fun f' m hr => ?_
      exact hf.run_binary (rhs.numbered_of_run hr) rfl
  | .unary op operand, scope => by
    rw [Shape.store, Shape.flow]
    intro left
    cases op.isSupported with
    | false => rfl
    | true =>
      refine run_bind_eq_lift (operand.stores scope left) fun f m ho => ?_
      exact (operand.numbered_of_run ho).run_unary rfl
  | .chain c, scope => by
    rw [Shape.store, Shape.flow]
    exact fun left => run_bind_eq_lift (c.stores scope left) fun p m hp => rfl
  | .lambda .., _ | .record _, _ | .converted _, _ | .broken _, _ => fun _ => rfl

/-- See `Shape.stores`. -/
theorem Chain.stores : ∀ (c : Chain) (scope : Scope),
    Stores (c.store scope) (c.path scope) Path.stored
  | .table relation, scope => by
    rw [Chain.store, Chain.path]
    exact fun _ => rfl
  | .param x, scope => by
    rw [Chain.store, Chain.path]
    cases scope.resolve? x with
    | none => exact fun _ => rfl
    | some target => exact fun _ => rfl
  | .member source x, scope => by
    rw [Chain.store, Chain.path]
    intro left
    refine run_bind_eq_lift (source.stores scope left) fun p m hp => ?_
    exact (source.numbered_of_run hp).run_access rfl
  | .bare source _, scope => by
    rw [Chain.store, Chain.path]
    exact source.stores scope
  | .narrow source op x body, scope => by
    rw [Chain.store, Chain.path]
    refine Chain.stores_call (source.stores scope) fun left p k scope' h hlength => ?_
    refine run_bind_eq_lift (hlength ▸ body.stores scope' _) fun f m hf => ?_
    exact h.run_filter (body.numbered_of_run hf) rfl
  | .project source op x body, scope => by
    have hbody : ∀ scope, Stores (body.store scope) (body.flow scope) Flow.stored :=
      body.stores
    cases body with
    | record fields =>
      rw [Chain.store, Chain.path]
      refine Chain.stores_call (source.stores scope) fun left p k scope' h hlength => ?_
      refine run_bind_eq_lift (hlength ▸ fields.stores scope' _) fun fs m hfs => ?_
      have hselect := h.run_select (.record (fields.numbered_of_run hfs)) rfl
      exact hselect
    | _ => exact Chain.stores_project_of_ne (fun _ => Shape.noConfusion) (source.stores scope) hbody

/-- See `Shape.stores`. -/
theorem ShapeFields.stores : ∀ (fields : ShapeFields) (scope : Scope),
    Stores (fields.store scope) (fields.flows scope) FlowFields.stored
  | .nil, scope => by
    rw [ShapeFields.store, ShapeFields.flows]
    intro left
    show (pure ([], left) : OptionT (Except Error) _) = pure ([], left ++ [])
    rw [List.append_nil]
  | .cons name value rest, scope => by
    rw [ShapeFields.store, ShapeFields.flows]
    intro left
    refine run_bind_eq_lift (value.stores scope left) fun f k hf => ?_
    have hlength : (left ++ f.slots none).length = k :=
      length_append_block rfl (value.numbered_of_run hf).length_slots
    refine run_bind_eq_lift (hlength ▸ rest.stores scope _) fun fs m _ => ?_
    show (pure (_, left ++ f.slots none ++ fs.slots) : OptionT (Except Error) _) =
      pure (_, left ++ (f.slots none ++ fs.slots))
    rw [List.append_assoc]
    rfl

end

/-- What is built of a query are the entries of its listing, from the first one on. If the query is
refused, so is its path, for the same reason, and building does not get stuck. -/
theorem Expr.toArena_eq (e : Expr) : e.toArena =
    OptionT.lift ((fun q => Arena.mk (q.path.listing.map Entry.slot) 0) <$> e.toPath) := by
  rw [toArena, toPath]
  dsimp only
  cases e.shape with
  | chain c =>
    have hstore := (Shape.chain c).stores [] []
    dsimp only [Shape.refusal?]
    cases c.startsAtTable with
    | false => rfl
    | true =>
      show (((Shape.chain c).store []).run [] >>= _ : OptionT (Except Error) Arena) =
        OptionT.lift (_ <$> ((c.path []).run 0 >>= _))
      rw [hstore, Shape.flow, StateT.run_bind]
      cases hp : (c.path []).run 0 with
      | error _ => rfl
      | ok r =>
        have hhead : r.1.headId = 0 := (c.numbered_of_run hp).headId_eq
        show (pure (Arena.mk (r.1.listing.map Entry.slot) r.1.headId) : OptionT (Except Error) _) =
          pure (Arena.mk _ 0)
        rw [hhead]
  | binary op _ _ | unary op _ =>
    cases hop : op.isSupported with
    | _ =>
      simp only [Shape.refusal?, hop]
      rfl
  | _ => rfl

end FetchPlan
