import FuzzyInference.Controller.Configure
import FuzzyInference.Controller.Defuzzify

/-!
# Histories

A `Command` is one of the operations that can change a controller, with
its arguments. `Controller.perform` carries it out and says how it went;
a history is a list of commands, and `Controller.after` is the controller
at its end.
-/

namespace FuzzyInference

/-- **An operation on a controller**, with its arguments. -/
inductive Command (α : Type) where
  /-- Choose a norm, or a number of points. -/
  | choose (setting : Setting)
  /-- Choose a method of defuzzification. -/
  | chooseMethod (method : Defuzzifier)
  /-- Bind a term. -/
  | bindTerm (binding : Binding α)
  /-- Give weights to the first rules. -/
  | setWeights (weights : List α)
  /-- Let all rules count in full. -/
  | clearWeights
  /-- Set the value of an input. -/
  | setInput (tag : Nat) (value : α)
  /-- Fuzzify the inputs. -/
  | fuzzify
  /-- Infer what follows from a rule stream. -/
  | infer (tokens : List Token)
  /-- Give the outputs their crisp values. -/
  | defuzzify
  /-- Run a whole cycle. -/
  | evaluate (tokens : List Token) (values : List α)

namespace Controller

variable {α : Type} [Scalar α]

/-- How a command went: a fault, or the number of rules where there is one
to tell. -/
abbrev Outcome (α : Type) := Except (Fault α) (Option Nat)

/-- The outcome of an operation that has nothing to tell; if it fails the
controller stays as it was. -/
def settle (c : Controller α) : Except (Fault α) (Controller α) → Outcome α × Controller α
  | .ok after => (.ok none, after)
  | .error f => (.error f, c)

/-- **Carry out a command.** -/
def perform (c : Controller α) : Command α → Outcome α × Controller α
  | .choose setting => c.settle (c.choose setting)
  | .chooseMethod method => c.settle (c.chooseMethod method)
  | .bindTerm binding => c.settle (c.bindTerm binding)
  | .setWeights weights => c.settle (c.setWeights weights)
  | .clearWeights => (.ok none, c.clearWeights)
  | .setInput tag value => c.settle (c.setInput tag value)
  | .fuzzify => c.settle c.fuzzify
  | .infer tokens =>
    let (outcome, after) := c.infer tokens
    (outcome.map some, after)
  | .defuzzify => c.settle c.defuzzify
  | .evaluate tokens values =>
    let (outcome, after) := c.evaluate tokens values
    (outcome.map some, after)

/-- **The controller after a history.** -/
def after (c : Controller α) (history : List (Command α)) : Controller α :=
  history.foldl (fun c command => (c.perform command).2) c

end Controller

end FuzzyInference
