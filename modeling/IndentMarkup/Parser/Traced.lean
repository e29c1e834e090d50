import IndentMarkup.Parser.Failure

/-! Parsing with a log. A traced computation gives a result or a failure, and in either case the
events on the way. Its outcome does not depend on the log: `outcome_bind` says that outcomes
compose by themselves. -/
namespace IndentMarkup.Parser

/-- What the parser has come upon. -/
inductive Event.Kind where
  /-- The place of an item of a block, whether or not there is one. -/
  | item
  | comment
  | textItem
  /-- The base and the shorthands of an element have been read. -/
  | element
  /-- The word of a control flow line has been read. -/
  | instruction (word : String)
  deriving DecidableEq, Repr

/-- An event and the input left when it happened. -/
structure Event (α : Type) where
  kind : Event.Kind
  rest : Source α

/-- A computation that may fail, with the events on its way. -/
structure Traced (α β : Type) where
  events : List (Event α)
  outcome : Except (Failure α) β

namespace Traced

variable {α β γ : Type}

/-- Two computations in turn; the second only if the first has a result. -/
protected def bind (first : Traced α β) (next : β → Traced α γ) : Traced α γ :=
  match first.outcome with
  | .error failure => ⟨first.events, .error failure⟩
  | .ok value =>
    let second := next value
    ⟨first.events ++ second.events, second.outcome⟩

instance : Monad (Traced α) where
  pure value := ⟨[], .ok value⟩
  bind := Traced.bind

def note (kind : Event.Kind) (rest : Source α) : Traced α Unit :=
  ⟨[⟨kind, rest⟩], .ok ()⟩

/-- Fails with a cause at the given input. -/
def fail (cause : Cause) (rest : Source α) : Traced α β :=
  ⟨[], .error ⟨cause, rest⟩⟩

/-- Fails as another computation has failed. -/
def failWith (failure : Failure α) : Traced α β :=
  ⟨[], .error failure⟩

@[simp] theorem outcome_pure (value : β) : (pure value : Traced α β).outcome = .ok value := rfl

@[simp] theorem outcome_bind (first : Traced α β) (next : β → Traced α γ) :
    (first >>= next).outcome = first.outcome >>= fun value => (next value).outcome := by
  show (Traced.bind first next).outcome = _
  unfold Traced.bind
  cases first.outcome <;> rfl

@[simp] theorem outcome_note (kind : Event.Kind) (rest : Source α) :
    (note kind rest).outcome = .ok () := rfl

@[simp] theorem outcome_fail (cause : Cause) (rest : Source α) :
    (fail cause rest : Traced α β).outcome = .error ⟨cause, rest⟩ := rfl

@[simp] theorem outcome_failWith (failure : Failure α) :
    (failWith failure : Traced α β).outcome = .error failure := rfl

end Traced

end IndentMarkup.Parser
