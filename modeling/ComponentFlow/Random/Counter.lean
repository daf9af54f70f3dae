/-
  ComponentFlow.Random.Counter — uniform samples without state: the value is a function of a
  seed, a step and an element index, so running a graph twice on one step draws the same values.
-/

namespace ComponentFlow.Random

/-- Where the three arguments meet. -/
def counterWord (seed step index : UInt64) : UInt64 :=
  seed ^^^ step * 0x9E3779B97F4A7C15 ^^^ index * 0xD1B54A32D192ED03

/-- Folds the high bits down by `shift`, then multiplies. -/
def fold (shift factor z : UInt64) : UInt64 := (z ^^^ (z >>> shift)) * factor

/-- Spreads every bit over the whole word. -/
def mix (z : UInt64) : UInt64 :=
  let z := z + 0x9E3779B97F4A7C15
  let z := fold 30 0xBF58476D1CE4E5B9 z
  let z := fold 27 0x94D049BB133111EB z
  z ^^^ (z >>> 31)

/-- The word from which a sample takes its top 24 bits. -/
def sampleWord (seed step index : UInt64) : UInt64 := mix (counterWord seed step index)

/-- A sample in `[0, 1)`. -/
def uniform (seed step index : UInt64) : Float32 :=
  (sampleWord seed step index >>> 40).toFloat32 / (16777216 : UInt64).toFloat32

end ComponentFlow.Random
