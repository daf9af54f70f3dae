import ComponentFlow.Agreement
import ComponentFlow.Backend
import ComponentFlow.Catalogue
import ComponentFlow.Component.Basic
import ComponentFlow.Component.Body
import ComponentFlow.Component.Handler
import ComponentFlow.Component.Signature
import ComponentFlow.Decimal.Layout
import ComponentFlow.Decimal.Shortest
import ComponentFlow.Effect
import ComponentFlow.Error
import ComponentFlow.Graph.Artifact
import ComponentFlow.Graph.Basic
import ComponentFlow.Graph.Execute
import ComponentFlow.Graph.Invocation
import ComponentFlow.Graph.Plan
import ComponentFlow.Graph.Resolve
import ComponentFlow.Json.Basic
import ComponentFlow.Json.Number
import ComponentFlow.Json.Parser
import ComponentFlow.Json.Printer
import ComponentFlow.Json.Reader
import ComponentFlow.Kernel.Axis
import ComponentFlow.Kernel.Basic
import ComponentFlow.Kernel.Catalogue
import ComponentFlow.Kernel.Elementwise
import ComponentFlow.Kernel.MatMul
import ComponentFlow.Kernel.Reference
import ComponentFlow.Kernel.Sequence
import ComponentFlow.Kernel.Tally
import ComponentFlow.Layers.Actor
import ComponentFlow.Layers.Advantage
import ComponentFlow.Layers.Dense
import ComponentFlow.Layers.Exploration
import ComponentFlow.Layers.Policy
import ComponentFlow.Layers.Preprocess
import ComponentFlow.Layers.Roles
import ComponentFlow.Layers.Schedule
import ComponentFlow.Layers.Stack
import ComponentFlow.Mode
import ComponentFlow.Primitive.Basic
import ComponentFlow.Primitive.Broadcast
import ComponentFlow.Primitive.Infer
import ComponentFlow.Primitive.Json
import ComponentFlow.Proofs.Acting
import ComponentFlow.Proofs.Answer
import ComponentFlow.Proofs.Assembled
import ComponentFlow.Proofs.Atomic
import ComponentFlow.Proofs.Backward
import ComponentFlow.Proofs.Batching
import ComponentFlow.Proofs.Broadcasting
import ComponentFlow.Proofs.Build
import ComponentFlow.Proofs.Cached
import ComponentFlow.Proofs.Choosing
import ComponentFlow.Proofs.Clipping
import ComponentFlow.Proofs.Completing
import ComponentFlow.Proofs.Composition
import ComponentFlow.Proofs.Construction
import ComponentFlow.Proofs.Contract
import ComponentFlow.Proofs.Counting
import ComponentFlow.Proofs.Covering
import ComponentFlow.Proofs.Dangling
import ComponentFlow.Proofs.DeadEnd
import ComponentFlow.Proofs.Deferral
import ComponentFlow.Proofs.Demand
import ComponentFlow.Proofs.Discounting
import ComponentFlow.Proofs.Editing
import ComponentFlow.Proofs.Effect
import ComponentFlow.Proofs.Estimating
import ComponentFlow.Proofs.Execute
import ComponentFlow.Proofs.Exploring
import ComponentFlow.Proofs.Extension
import ComponentFlow.Proofs.Extent
import ComponentFlow.Proofs.Forest
import ComponentFlow.Proofs.Formation
import ComponentFlow.Proofs.Immediate
import ComponentFlow.Proofs.InPlace
import ComponentFlow.Proofs.Increment
import ComponentFlow.Proofs.Index
import ComponentFlow.Proofs.Inference
import ComponentFlow.Proofs.Influence
import ComponentFlow.Proofs.Intact
import ComponentFlow.Proofs.Keeping
import ComponentFlow.Proofs.Lanes
import ComponentFlow.Proofs.Largest
import ComponentFlow.Proofs.Ledger
import ComponentFlow.Proofs.Linking
import ComponentFlow.Proofs.Locality
import ComponentFlow.Proofs.Lockstep
import ComponentFlow.Proofs.Meaning
import ComponentFlow.Proofs.Merging
import ComponentFlow.Proofs.Naming
import ComponentFlow.Proofs.Nesting
import ComponentFlow.Proofs.Number
import ComponentFlow.Proofs.Order
import ComponentFlow.Proofs.Payload
import ComponentFlow.Proofs.Places
import ComponentFlow.Proofs.Plan
import ComponentFlow.Proofs.Pointwise
import ComponentFlow.Proofs.Preorder
import ComponentFlow.Proofs.Printed
import ComponentFlow.Proofs.Product
import ComponentFlow.Proofs.Program
import ComponentFlow.Proofs.Promise
import ComponentFlow.Proofs.Record
import ComponentFlow.Proofs.Rectangular
import ComponentFlow.Proofs.Reference
import ComponentFlow.Proofs.Refusal
import ComponentFlow.Proofs.Replay
import ComponentFlow.Proofs.Resolve
import ComponentFlow.Proofs.Rounding
import ComponentFlow.Proofs.Rowwise
import ComponentFlow.Proofs.Sampling
import ComponentFlow.Proofs.Scope
import ComponentFlow.Proofs.Sequences
import ComponentFlow.Proofs.Session
import ComponentFlow.Proofs.Shape
import ComponentFlow.Proofs.Sharing
import ComponentFlow.Proofs.Staging
import ComponentFlow.Proofs.Walk
import ComponentFlow.Proofs.Whole
import ComponentFlow.Proofs.Words
import ComponentFlow.Random.Counter
import ComponentFlow.Random.Normal
import ComponentFlow.Random.Stream
import ComponentFlow.Scalar.Basic
import ComponentFlow.Scalar.Width
import ComponentFlow.Script.Body
import ComponentFlow.Script.Definition
import ComponentFlow.Spec.Arguments
import ComponentFlow.Spec.Basic
import ComponentFlow.Spec.Constructor
import ComponentFlow.Tensor.Basic
import ComponentFlow.Tensor.Close
import ComponentFlow.Tensor.DType
import ComponentFlow.Tensor.Json
import ComponentFlow.Tensor.Mismatch
import ComponentFlow.Tensor.Shape
import ComponentFlow.Tensor.Spec
import ComponentFlow.Tensor.SpecText
import ComponentFlow.Text.Blank
import ComponentFlow.Text.Quoted
import ComponentFlow.Text.Split
import ComponentFlow.Text.Visible
import ComponentFlow.Tree.Basic
import ComponentFlow.Tree.Cached
import ComponentFlow.Tree.Edit
import ComponentFlow.Tree.Invoke
import ComponentFlow.Value
