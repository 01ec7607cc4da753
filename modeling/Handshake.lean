import Handshake.Text.Lines
import Handshake.Text.Identifier
import Handshake.Text.Unprintable
import Handshake.Text.Quoted
import Handshake.Verilog.Expr
import Handshake.Verilog.Module
import Handshake.Verilog.Render
import Handshake.Verilog.Wiring
import Handshake.Shape
import Handshake.Error
import Handshake.ExtraSignals
import Handshake.Identity
import Handshake.Word
import Handshake.Lookup
import Handshake.Layout
import Handshake.PortGroup
import Handshake.Smv
import Handshake.OrderedMap
import Handshake.Json.Token
import Handshake.Json.Value
import Handshake.Json.Text
import Handshake.Params
import Handshake.Request
import Handshake.Variant
import Handshake.Artifact.Basic
import Handshake.Artifact.Accumulator
import Handshake.Manager.Ports
import Handshake.Manager.Concat
import Handshake.Manager.DelayLine
import Handshake.Manager.Bypass
import Handshake.Units.PassThrough
import Handshake.Units.Join
import Handshake.Units.PriorityMerge
import Handshake.Units.ReadyBreak
import Handshake.Units.DataBreak
import Handshake.Units.Buffer
import Handshake.Units.Merge
import Handshake.Units.DelayBuffer
import Handshake.Units.Operator
import Handshake.Units.Multiplier
import Handshake.Units.FloatOperator
import Handshake.Units.Catalog
import Handshake.Simulation.Literal
import Handshake.Simulation.Fault
import Handshake.Simulation.Eval
import Handshake.Simulation.Simulator
import Handshake.Simulation.Flatten
import Handshake.Proofs.Naming
import Handshake.Proofs.Closure
import Handshake.Proofs.Absorption
import Handshake.Proofs.Assembly
import Handshake.Proofs.Generated
import Handshake.Proofs.Layouts
import Handshake.Proofs.Declarations
import Handshake.Proofs.Requests
import Handshake.Proofs.Denotation
import Handshake.Proofs.Writing
import Handshake.Proofs.Solutions
import Handshake.Proofs.Settling
import Handshake.Proofs.Clocking
import Handshake.Proofs.Behaviour
import Handshake.Proofs.Inlining
import Handshake.Proofs.Composition
import Handshake.Proofs.Pipelines
import Handshake.Proofs.Registers
import Handshake.Proofs.Gates
import Handshake.Proofs.Leaves
import Handshake.Proofs.Slots
import Handshake.Proofs.Selects
import Handshake.Proofs.Packing
import Handshake.Proofs.Arbitration
import Handshake.Proofs.Operators
import Handshake.Proofs.OperatorModules
import Handshake.Proofs.Bypassing
import Handshake.Proofs.WrappedOperators
import Handshake.Proofs.ExtraSignalPairing
import Handshake.Proofs.Multiplication
import Handshake.Proofs.Reading
import Handshake.Proofs.Feasibility
import Handshake.Proofs.Acceptance
import Handshake.Proofs.Accumulation
import Handshake.Proofs.Locality
import Handshake.Proofs.Convergence
import Handshake.Proofs.Quiescence
import Handshake.Proofs.Bundles
import Handshake.Proofs.Enclosure
import Handshake.Proofs.Concatenation
import Handshake.Proofs.Hosting
import Handshake.Proofs.Isolation
import Handshake.Proofs.Merging
import Handshake.Proofs.Encasing
import Handshake.Proofs.Unfolding
import Handshake.Proofs.Simulability
import Handshake.Proofs.TokenOrder
import Handshake.Proofs.Latency
import Handshake.Proofs.Blocks
import Handshake.Proofs.Identifiers
import Handshake.Proofs.Widths
import Handshake.Proofs.Netlists
import Handshake.Proofs.Tilings
import Handshake.Proofs.Drivers
import Handshake.Proofs.WrittenJson
import Handshake.Proofs.Serialization
import Handshake.Proofs.DelayLines
import Handshake.Proofs.Wrapping
import Handshake.Proofs.Persistence
import Handshake.Proofs.Buffering
import Handshake.Proofs.Handover
import Handshake.Proofs.CutPaths
import Handshake.Proofs.Reordering
import Handshake.Proofs.Leftovers
import Handshake.Proofs.Grouping
import Handshake.Proofs.Legibility
import Handshake.Proofs.Fitting
import Handshake.Proofs.Footprints
import Handshake.Proofs.Lockstep
import Handshake.Proofs.Readback
