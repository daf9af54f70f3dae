/-
  ComponentFlow.Catalogue — the registry of all constructors, in the order of their tags.
-/
import ComponentFlow.Layers.Actor
import ComponentFlow.Layers.Advantage
import ComponentFlow.Layers.Policy
import ComponentFlow.Layers.Preprocess
import ComponentFlow.Script.Definition

namespace ComponentFlow.Registry

/-- The constructors of the layers of this library, which draw weights from a generator. -/
def layers (generator : Random.Generator := Random.seeded) : Registry :=
  [Layers.Actor.constructor, Layers.clipConstructor, Layers.toFloatConstructor,
    Layers.denseConstructor generator, Layers.Exploration.constructor, Layers.Advantage.constructor,
    Layers.stackConstructor .network, Layers.Policy.constructor generator,
    Layers.stackConstructor .preprocessor, Layers.scaleConstructor]

/-- Those of the layers, and the one of components defined in JSON. -/
def standard : Registry := layers ++ [Script.constructor]

end ComponentFlow.Registry
