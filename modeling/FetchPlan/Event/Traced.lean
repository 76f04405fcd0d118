import FetchPlan.Event.Basic

/-!
# Computations that report events

A computation ends with a result or an error, and the events it reported until then are kept in
both cases. The result depends on the results of the parts alone: `Traced.result` takes a
sequence of computations to the sequence of their results.
-/

namespace FetchPlan

/-- The outcome of a computation with the events reported until it ended, in order. -/
structure Traced (α : Type) where
  events : List Event
  result : Except Error α

namespace Traced

variable {α β : Type}

instance : Monad Traced where
  pure a := ⟨[], .ok a⟩
  bind x f :=
    match x.result with
    | .error e => ⟨x.events, .error e⟩
    | .ok a => ⟨x.events ++ (f a).events, (f a).result⟩

instance : MonadLift (Except Error) Traced := ⟨fun r => ⟨[], r⟩⟩

/-- Reports events. -/
def report (events : List Event) : Traced Unit := ⟨events, .ok ()⟩

/-- Fails. -/
def fail (e : Error) : Traced α := ⟨[], .error e⟩

@[simp] theorem result_pure (a : α) : (pure a : Traced α).result = .ok a := rfl

@[simp] theorem result_bind (x : Traced α) (f : α → Traced β) :
    (x >>= f).result = x.result >>= fun a => (f a).result := by
  obtain ⟨events, _ | a⟩ := x <;> rfl

@[simp] theorem result_report (events : List Event) : (report events).result = .ok () := rfl

@[simp] theorem result_fail (e : Error) : (fail e : Traced α).result = .error e := rfl

@[simp] theorem result_lift (r : Except Error α) :
    (liftM r : Traced α).result = r := rfl

end Traced
end FetchPlan
