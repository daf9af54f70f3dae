/-
  ComponentFlow.Layers.Schedule — how often a random action replaces the chosen one: a
  probability that falls linearly over a number of steps and then stays.
-/
import ComponentFlow.Json.Reader

namespace ComponentFlow

structure Schedule where
  numActions : Nat
  first : Float32
  last : Float32
  decaySteps : Nat
  seed : UInt64

namespace Schedule

/-- The number of decay steps, at least one, as a payload value. -/
def decay (s : Schedule) : Float32 := Scalar.ofNat (Nat.max s.decaySteps 1)

/-- The probability at a time step. -/
def probability (s : Schedule) (step : Nat) : Float32 :=
  let progress := Scalar.minimum (Scalar.ofNat step / s.decay) 1
  s.first - (s.first - s.last) * progress

def standardFirst : Float32 := 1

def standardLast : Float32 := 0.1

def fieldReaders : List (String × Json.Reader Unit) :=
  [("num_actions", Json.checked Json.count), ("epsilon_start", Json.checked Json.single),
    ("epsilon_end", Json.checked Json.single), ("decay_steps", Json.checked Json.word32),
    ("seed", Json.checked Json.word64)]

/-- Reads a schedule; all but the number of actions have defaults. -/
def ofFields (fields : Json.Fields) : Except Json.ReadError Schedule := do
  Json.checkFields fieldReaders fields
  .ok {
    numActions := ← Json.required fields "num_actions" Json.count
    first := ← Json.withDefault fields "epsilon_start" Json.single standardFirst
    last := ← Json.withDefault fields "epsilon_end" Json.single standardLast
    decaySteps := ← Json.withDefault fields "decay_steps" Json.word32 10000
    seed := ← Json.withDefault fields "seed" Json.word64 0 }

/-- The names of the fields in the order in which an array lists them. -/
def fieldNames : List String := fieldReaders.map Prod.fst

/-- Reads a schedule from an object, or from an array of its fields, where those at the end may be
missing. -/
def ofJson? : Json → Option Schedule
  | .object fields => (ofFields fields).toOption
  | .array items =>
    if items.length ≤ fieldNames.length then (ofFields (fieldNames.zip items)).toOption else none
  | _ => none

def toJson (s : Schedule) : Json :=
  .object [("decay_steps", .int s.decaySteps), ("epsilon_end", Json.ofSingle s.last),
    ("epsilon_start", Json.ofSingle s.first), ("num_actions", .int s.numActions),
    ("seed", .int s.seed.toNat)]

end Schedule

end ComponentFlow
