import FetchPlan.Error.Reason

/-!
# Errors

An error is a nonempty list of causes: the context added last comes first and the root cause
comes last. A kind of error holds of it as soon as one of its causes is of that kind.
-/

namespace FetchPlan

/-- One link of an error. -/
inductive Cause
  | unsupportedExpression (reason : Unsupported)
  | unresolvedReference (reason : Unresolved)
  | disconnectedRelation (relation : String)
  | invalidJoin (source : String) (sourceFields : List String) (target : String)
      (targetFields : List String)
  | unknownRelation (relation : String)
  | unknownColumn (relation column : String)
  | invalidSchema (reason : Inconsistency)
  /-- A message that belongs to no kind. -/
  | plain (message : String)
  /-- An error raised outside the library, known by its text. -/
  | foreign (message : String)
deriving DecidableEq

/-- What an error can be recognized by. -/
inductive ErrorKind
  | unsupportedExpression
  | unresolvedReference
  | disconnectedRelation
  | invalidJoin
  | unknownMetadata
  | invalidSchema
deriving DecidableEq, Repr

/-- The kinds, in the order in which they are listed. -/
def ErrorKind.all : List ErrorKind :=
  [unsupportedExpression, unresolvedReference, disconnectedRelation, invalidJoin,
    unknownMetadata, invalidSchema]

namespace Cause

/-- The kind of a cause. Plain and foreign messages have none. -/
def kind? : Cause → Option ErrorKind
  | unsupportedExpression _ => some .unsupportedExpression
  | unresolvedReference _ => some .unresolvedReference
  | disconnectedRelation _ => some .disconnectedRelation
  | invalidJoin .. => some .invalidJoin
  | unknownRelation _ | unknownColumn .. => some .unknownMetadata
  | invalidSchema _ => some .invalidSchema
  | plain _ | foreign _ => none

/-- The wording of a cause. -/
def message : Cause → String
  | unsupportedExpression reason => "unsupported expression: " ++ reason.message
  | unresolvedReference reason => "unresolved reference: " ++ reason.message
  | disconnectedRelation relation => s!"no connection condition found for relation {relation}"
  | invalidJoin source sourceFields target targetFields =>
    let sourceList := ", ".intercalate sourceFields
    let targetList := ", ".intercalate targetFields
    "invalid join: neither side is a primary-key join " ++
      s!"({source}({sourceList}) -> {target}({targetList}))"
  | unknownRelation relation => s!"unknown relation `{relation}`"
  | unknownColumn relation column => s!"unknown column `{relation}.{column}`"
  | invalidSchema reason => "invalid schema: " ++ reason.message
  | plain message => message
  | foreign message => message

end Cause

/-- A cause and the causes behind it, down to the root cause. -/
structure Error where
  outermost : Cause
  behind : List Cause := []
deriving DecidableEq

namespace Error

instance : Coe Cause Error := ⟨fun c => ⟨c, []⟩⟩

/-- All causes, the outermost first. -/
def causes (e : Error) : List Cause := e.outermost :: e.behind

/-- The messages of all causes, the outermost first. -/
def message (e : Error) : String := ": ".intercalate (e.causes.map Cause.message)

/-- A kind holds if any cause is of it. -/
def hasKind (e : Error) (k : ErrorKind) : Bool := e.causes.any (·.kind? = some k)

/-- The kinds that hold. -/
def kinds (e : Error) : List ErrorKind := ErrorKind.all.filter e.hasKind

/-- The text of an error raised outside the library, if it is the outermost cause. -/
def source? (e : Error) : Option String :=
  match e.outermost with
  | .foreign message => some message
  | _ => none

/-- Whether causes can be put behind a context: no one else holds it, and it has none yet. -/
def isOpen (c : Error) (shared : Bool) : Bool := !shared && c.behind.isEmpty

/-- Puts `e` behind the context `c`. If `c` is not open, its message stands in for it. -/
def context (e c : Error) (shared : Bool) : Error :=
  if c.isOpen shared then ⟨c.outermost, e.causes⟩ else ⟨.plain c.message, e.causes⟩

/-- Puts `e` behind a context that no one else holds. -/
def within (e : Error) (c : Cause) : Error := e.context c false

end Error

namespace Unsupported

/-- The error for an expression outside the query language. -/
def error (reason : Unsupported) : Error := Cause.unsupportedExpression reason

end Unsupported

namespace Unresolved

/-- The error for a name that leads nowhere. -/
def error (reason : Unresolved) : Error := Cause.unresolvedReference reason

end Unresolved

end FetchPlan
