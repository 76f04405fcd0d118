import FetchPlan.Event.Basic
import FetchPlan.JoinGraph.Optimize

/-!
# Events of an optimization

An optimization tells which contractions it did. What is reported of them follows from doing them
once more, one after the other, on the graph it started from.
-/

namespace FetchPlan.JoinGraph

/-- What is reported of connections that lead on from `owner`, as far as they are new. -/
def connectAllEvents (owner : Nat) : JoinGraph → List Connection → List Event
  | _, [] => []
  | g, c :: cs =>
    match g.connect? owner c with
    | some g' =>
      .connected (g.name owner) (g.name c.target) c.fields :: connectAllEvents owner g' cs
    | none => connectAllEvents owner g cs

/-- What is reported of a contraction itself. -/
def contractionEvent (g : JoinGraph) : Contraction → Event
  | .duplicate id _ kept dropped => .merged (g.name dropped) kept (g.name id)
  | .roundTrip id via _ back => .lifted (g.name id) (g.name via) (g.name back)

/-- What is reported of a contraction and of the connections that move with it. -/
def contractionEvents (g : JoinGraph) (x : Contraction) : List Event :=
  g.contractionEvent x :: match x.folded? with
    | none => []
    | some (kept, dropped) =>
      let g := x.trim g
      connectAllEvents kept (g.strip kept dropped) (g.inherited kept dropped)

/-- What is reported of a series of contractions. -/
def contractionsEvents : JoinGraph → List Contraction → List Event
  | _, [] => []
  | g, x :: xs => g.contractionEvents x ++ (x.apply g).contractionsEvents xs

end FetchPlan.JoinGraph
