/-
  ComponentFlow.Random.Normal — normally distributed tensors. Two uniform values give two normal
  ones: the first sets their distance from zero, the second their angle. Where the uniform values
  come from is left open; nothing that is proved of drawn tensors depends on it.
-/
import ComponentFlow.Random.Stream
import ComponentFlow.Tensor.Basic

namespace ComponentFlow

namespace Random

def twoPi : Float32 := Float32.ofBits 0x40c90fdb

/-- The least positive normal value. -/
def leastNormal : Float32 := Float32.ofBits 0x00800000

/-- A source of uniform values: for a seed, the first ones, at least as many as asked for. -/
abbrev Generator := UInt64 → Nat → Array Float32

/-- The generator on the seeded stream of words. -/
def seeded : Generator := fun seed n => (stream seed n).map unit

/-- Element `i` of a sequence of normal values with deviation `std`, from uniform values: elements
`2 k` and `2 k + 1` come from values `2 k` and `2 k + 1`. -/
def normal (samples : Array Float32) (std : Float32) (i : Nat) : Float32 :=
  let u := Scalar.maximum (samples.getD (2 * (i / 2)) 0) leastNormal
  let v := samples.getD (2 * (i / 2) + 1) 0
  let radius := ((-2 : Float32) * u.log).sqrt
  let angle := twoPi * v
  radius * (if i % 2 = 0 then angle.cos else angle.sin) * std

end Random

/-- A tensor of normal values with mean zero and deviation `std`, a function of the seed. -/
def Tensor.randn (seed : UInt64) (shape : Shape) (std : Float32)
    (generator : Random.Generator := Random.seeded) : Tensor :=
  let samples := generator seed (shape.count + 1)
  ⟨.f32, shape, Array.ofFn fun i : Fin shape.count => Random.normal samples std i.val, by simp⟩

end ComponentFlow
