/-!
# Answers that come later

A `Future` is an answer that is there, or one that has to be asked for again.  `Future.map` leaves
the number of questions as it is.
-/

namespace RequestSigning

/-- an answer after some number of vain questions -/
inductive Future (α : Type) where
  | ready (answer : α)
  | pending (next : Future α)

namespace Future

def await {α : Type} : Future α → α
  | ready answer => answer
  | pending next => next.await

/-- the number of vain questions -/
def delay {α : Type} : Future α → Nat
  | ready _ => 0
  | pending next => next.delay + 1

def map {α β : Type} (f : α → β) : Future α → Future β
  | ready answer => ready (f answer)
  | pending next => pending (next.map f)

theorem await_map {α β : Type} (f : α → β) (x : Future α) : (x.map f).await = f x.await := by
  induction x with
  | ready answer => rfl
  | pending next ih => exact ih

theorem delay_map {α β : Type} (f : α → β) (x : Future α) : (x.map f).delay = x.delay := by
  induction x with
  | ready answer => rfl
  | pending next ih => exact congrArg (· + 1) ih

end Future

end RequestSigning
