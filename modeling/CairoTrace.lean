import CairoTrace.Air
import CairoTrace.Builtin
import CairoTrace.Builtin.Bitwise
import CairoTrace.Builtin.Dilution
import CairoTrace.Builtin.EcOp
import CairoTrace.Builtin.Ecdsa
import CairoTrace.Builtin.Error
import CairoTrace.Builtin.Pedersen
import CairoTrace.Builtin.RangeCheck
import CairoTrace.CommandLine
import CairoTrace.CommandLine.Arguments
import CairoTrace.CommandLine.Page
import CairoTrace.CommandLine.Request
import CairoTrace.Component
import CairoTrace.Component.Basic
import CairoTrace.Component.BitwiseCells
import CairoTrace.Component.Cpu
import CairoTrace.Component.DilutedCheck
import CairoTrace.Component.EcOpCells
import CairoTrace.Component.EcdsaCells
import CairoTrace.Component.MemoryCheck
import CairoTrace.Component.PedersenCells
import CairoTrace.Component.RangeCheck16
import CairoTrace.Component.RangeCheckCells
import CairoTrace.Component.SubsetSum
import CairoTrace.Constraint.Basic
import CairoTrace.Constraint.Check
import CairoTrace.Constraint.Composition
import CairoTrace.Constraint.Error
import CairoTrace.Constraint.Expr
import CairoTrace.Constraint.Fraction
import CairoTrace.Constraint.Rows
import CairoTrace.Curve.Point
import CairoTrace.Curve.Steps
import CairoTrace.Felt
import CairoTrace.InputError
import CairoTrace.Json.DoubleRange
import CairoTrace.Json.Reader
import CairoTrace.Json.Text
import CairoTrace.Json.Writer
import CairoTrace.Layout.Basic
import CairoTrace.Layout.Binding
import CairoTrace.Layout.Config
import CairoTrace.Layout.Error
import CairoTrace.Layout.Slots
import CairoTrace.Machine.Instruction
import CairoTrace.Machine.Memory
import CairoTrace.Machine.Operands
import CairoTrace.Machine.RunFile
import CairoTrace.Machine.Storage
import CairoTrace.Main
import CairoTrace.Numeral
import CairoTrace.Polynomial.Periodic
import CairoTrace.Polynomial.Transform
import CairoTrace.Pool.Basic
import CairoTrace.Pool.DilutedPool
import CairoTrace.Pool.MemoryPool
import CairoTrace.Pool.Permutation
import CairoTrace.Pool.RangeCheckPool
import CairoTrace.Residue
import CairoTrace.Run.PrivateInput
import CairoTrace.Run.PublicInput
import CairoTrace.Text.Extending
import CairoTrace.Text.Quoted
import CairoTrace.Text.Unprintable
import CairoTrace.Trace.Basic
import CairoTrace.Trace.Filling
import CairoTrace.Proofs.StarkField
import CairoTrace.Proofs.Binding
import CairoTrace.Proofs.Check
import CairoTrace.Proofs.Composition.Acceptance
import CairoTrace.Proofs.Composition.CosetEvaluation
import CairoTrace.Proofs.Composition.LowDegree
import CairoTrace.Proofs.Component.Core
import CairoTrace.Proofs.Component.PointSums
import CairoTrace.Proofs.Component.WordCells
import CairoTrace.Proofs.Layout.Assembly
import CairoTrace.Proofs.Layout.Binding
import CairoTrace.Proofs.Permutation
import CairoTrace.Proofs.RowValue
import CairoTrace.Proofs.Component.PoolRows
import CairoTrace.Proofs.Soundness.RangeCheck
import CairoTrace.Proofs.Soundness.Memory
import CairoTrace.Proofs.Aggregate
import CairoTrace.Proofs.Dilution
import CairoTrace.Proofs.Soundness.Diluted
import CairoTrace.Proofs.Component.CycleRows
import CairoTrace.Proofs.Soundness.Processor
import CairoTrace.Proofs.Word
import CairoTrace.Proofs.Soundness.Decoding
import CairoTrace.Proofs.Soundness.Bitwise
import CairoTrace.Proofs.Soundness.EcOp
import CairoTrace.Proofs.Soundness.Ecdsa
import CairoTrace.Proofs.Soundness.Unpacking
import CairoTrace.Proofs.Pool.Pushes
import CairoTrace.Proofs.Pool.Gaps
import CairoTrace.Proofs.Pool.Numbers
import CairoTrace.Proofs.Pool.MemoryPool
import CairoTrace.Proofs.Pool.SingleValued
import CairoTrace.Proofs.Pool.Finish
import CairoTrace.Proofs.Pool.Refusals
import CairoTrace.Proofs.Trace.Writes
import CairoTrace.Proofs.Trace.Interaction
import CairoTrace.Proofs.Completeness.Products
import CairoTrace.Proofs.Completeness.RangeCheck
import CairoTrace.Proofs.Completeness.Diluted
import CairoTrace.Proofs.Completeness.Memory
import CairoTrace.Proofs.Machine.Operands
import CairoTrace.Proofs.Completeness.Processor
import CairoTrace.Proofs.Layout.PointColumns
import CairoTrace.Proofs.Layout.Allotment
import CairoTrace.Proofs.Component.AddressRows
import CairoTrace.Proofs.Trace.Addresses
import CairoTrace.Proofs.Trace.Places
import CairoTrace.Proofs.Trace.InstancePlaces
import CairoTrace.Proofs.Curve.StepCounts
import CairoTrace.Proofs.Trace.Witnesses
import CairoTrace.Proofs.Trace.ComponentPlaces
import CairoTrace.Proofs.Trace.ScriptPlaces
import CairoTrace.Proofs.Trace.Pooled
import CairoTrace.Proofs.Trace.Completion
import CairoTrace.Proofs.Curve.SumSteps
import CairoTrace.Proofs.Completeness.EcOp
import CairoTrace.Proofs.Curve.DigitSums
import CairoTrace.Proofs.Curve.PedersenSteps
import CairoTrace.Proofs.Component.HashRows
import CairoTrace.Proofs.Completeness.Pedersen
import CairoTrace.Proofs.Layout.Carry
import CairoTrace.Proofs.Partition
import CairoTrace.Proofs.Completeness.Bitwise
import CairoTrace.Proofs.Curve.Lift
import CairoTrace.Proofs.Curve.Homogeneous
import CairoTrace.Proofs.Completeness.Signature
import CairoTrace.Proofs.Completeness.Ecdsa
import CairoTrace.Proofs.Machine.RunFile
import CairoTrace.Proofs.Numeral
import CairoTrace.Proofs.Json.Text
import CairoTrace.Proofs.Json.Reader
import CairoTrace.Proofs.Run.PublicInput
import CairoTrace.Proofs.Layout.SlotCalls
import CairoTrace.Proofs.Completeness.Multiple
import CairoTrace.Proofs.Curve.Order
import CairoTrace.Proofs.Completeness.Verification
import CairoTrace.Proofs.RowSets
import CairoTrace.Proofs.Composition.Masks
import CairoTrace.Proofs.Trace.Instances
import CairoTrace.Proofs.Parts
import CairoTrace.Proofs.Completeness.Parts
import CairoTrace.Proofs.Curve.Slopes
