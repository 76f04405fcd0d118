import FetchPlan.JoinGraph.Basic

/-!
# Events of a planning run

What a planning run reports, and how each event is worded.
-/

namespace FetchPlan

/-- A node as it is named in a report. -/
structure NodeName where
  relation : String
  id : Nat
deriving DecidableEq

/-- The relation and the number of a node. -/
def NodeName.text (n : NodeName) : String := s!"{n.relation}#{n.id}"

/-- The name of a node of a graph. -/
def JoinGraph.name (g : JoinGraph) (id : Nat) : NodeName := ⟨g.relation id, id⟩

/-- How closely one has to look to see an event. -/
inductive Level
  | debug | trace
deriving DecidableEq, Repr

/-- Something that happened during a run. -/
inductive Event
  | builtFlow (count : Nat)
  | connected (owner target : NodeName) (fields : FieldPairs)
  | extended (owner target : NodeName) (pair : FieldPair)
  | comparedWithin (node : NodeName)
  | turned (owner target : NodeName) (fields : FieldPairs)
  | builtGraph (root : String) (nodes connections : Nat)
  | merged (dropped : NodeName) (kept : Nat) (via : NodeName)
  | lifted (node via back : NodeName)
  | optimized (contractions sweeps : Nat)
  | declared (var : String) (node : NodeName)
  | alreadyFetched (node owner : NodeName)
  | emitted (declarations fetches : Nat)
deriving DecidableEq

namespace Event

/-- The finished stages are reported at a glance, the steps within them in detail. -/
def level : Event → Level
  | builtFlow _ | builtGraph .. | optimized .. | emitted .. => .debug
  | _ => .trace

/-- The wording of an event. -/
def text : Event → String
  | builtFlow count => s!"built IR; nodes={count}"
  | connected owner target fields =>
    s!"connect {owner.text} -> {target.text} on {fields.text}"
  | extended owner target pair =>
    s!"extend {owner.text} -> {target.text} with {pair.source} = {pair.target}"
  | comparedWithin node => s!"comparison within {node.text}; no connection"
  | turned owner target fields =>
    s!"reorient {owner.text} -> {target.text} on {fields.text}"
  | builtGraph root nodes connections =>
    s!"built join graph; root={root} nodes={nodes} connections={connections}"
  | merged dropped kept via =>
    s!"merge duplicate {dropped.text} into #{kept} (via {via.text})"
  | lifted node via back => s!"lift {node.text} -> {via.text} -> {back.text}"
  | optimized contractions sweeps =>
    s!"optimized join graph; rewrites={contractions} sweeps={sweeps}"
  | declared var node => s!"declare {var} for {node.text}"
  | alreadyFetched node owner =>
    s!"{node.text} already fetched; skipping connection from {owner.text}"
  | emitted declarations fetches =>
    s!"emitted batch; declarations={declarations} fetches={fetches}"

end Event

end FetchPlan
