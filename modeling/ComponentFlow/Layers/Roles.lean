/-
  ComponentFlow.Layers.Roles — the parts that the shipped components play for each other: the
  names of the methods that a part must have, and the named axes of their contracts.
-/
import ComponentFlow.Component.Basic

namespace ComponentFlow

namespace Layers

/-- The axis over the elements of a batch. -/
def batch : Dim := .named "B"

/-- Maps one input to one output. -/
def call : String := "call"

def preprocess : String := "preprocess"

def getAction : String := "get_action"

def getDistribution : String := "get_logits_parameters_log_probs"

def pickAction : String := "get_action_from_logits_and_probabilities"

def calcAdvantages : String := "calc_gae_values"

def actGreedily : String := "get_preprocessed_state_and_action"

def actWithProbabilities : String := "get_preprocessed_state_action_and_action_probs"

end Layers

namespace Capability

def layer : Capability := ⟨"layer", [Layers.call]⟩

def preprocessor : Capability := ⟨"preprocessor", [Layers.preprocess]⟩

/-- Maps network inputs to choices of actions. -/
def policy : Capability :=
  ⟨"policy", [Layers.getAction, Layers.getDistribution, Layers.pickAction]⟩

def exploration : Capability := ⟨"exploration", [Layers.getAction]⟩

def actor : Capability := ⟨"actor", [Layers.actGreedily, Layers.actWithProbabilities]⟩

def advantageEstimator : Capability := ⟨"advantage_estimator", [Layers.calcAdvantages]⟩

end Capability

end ComponentFlow
