import Sequencer.Arena
import Sequencer.Bits
import Sequencer.Boolean.Cover
import Sequencer.Boolean.Diagram
import Sequencer.Boolean.Formula
import Sequencer.Character.Ignorable
import Sequencer.Character.Mark
import Sequencer.Character.Ranges
import Sequencer.Character.Unprinted
import Sequencer.Comb.Basic
import Sequencer.Comb.Defaults
import Sequencer.Comb.Text
import Sequencer.Compile
import Sequencer.Compile.Json
import Sequencer.Condition.Network
import Sequencer.Condition.StateSpace
import Sequencer.Condition.Table
import Sequencer.Control.Basic
import Sequencer.Control.Draft
import Sequencer.Control.Text
import Sequencer.DataType.Basic
import Sequencer.DataType.Text
import Sequencer.DataType.Unify
import Sequencer.DataType.Width
import Sequencer.Expr.Basic
import Sequencer.Expr.Fold
import Sequencer.Expr.Simplify
import Sequencer.Expr.Spelling
import Sequencer.Expr.Text
import Sequencer.Fault
import Sequencer.Graph.Search
import Sequencer.Graph.Transition
import Sequencer.Json
import Sequencer.Listing
import Sequencer.Lowering.Aspect
import Sequencer.Lowering.Session
import Sequencer.Lowering.Walk
import Sequencer.Name
import Sequencer.Proofs.Boolean.Cover
import Sequencer.Proofs.Boolean.Diagram
import Sequencer.Proofs.Checked
import Sequencer.Proofs.Comb.Control
import Sequencer.Proofs.Comb.Defaults
import Sequencer.Proofs.Comb.Execution
import Sequencer.Proofs.Compile
import Sequencer.Proofs.Condition.Exit
import Sequencer.Proofs.Condition.Network
import Sequencer.Proofs.Condition.Solution
import Sequencer.Proofs.Condition.StateSpace
import Sequencer.Proofs.Condition.Table
import Sequencer.Proofs.Control.Program
import Sequencer.Proofs.Control.Tree
import Sequencer.Proofs.Expr.Interpretation
import Sequencer.Proofs.Expr.Leaves
import Sequencer.Proofs.Expr.Simplify
import Sequencer.Proofs.Graph.Search
import Sequencer.Proofs.Listing
import Sequencer.Proofs.Lowering.Drivers
import Sequencer.Proofs.Lowering.Free
import Sequencer.Proofs.Lowering.Handover
import Sequencer.Proofs.Lowering.Inputs
import Sequencer.Proofs.Lowering.Machine
import Sequencer.Proofs.Lowering.Outputs
import Sequencer.Proofs.Lowering.Reachability
import Sequencer.Proofs.Lowering.Segment
import Sequencer.Proofs.Lowering.Session
import Sequencer.Proofs.Lowering.Straight
import Sequencer.Proofs.Lowering.Transitions
import Sequencer.Proofs.Lowering.Variables
import Sequencer.Proofs.Lowering.Walk
import Sequencer.Proofs.Name
import Sequencer.Proofs.Outline
import Sequencer.Proofs.Schedule.Faithful
import Sequencer.Proofs.Schedule.Ids
import Sequencer.Proofs.Schedule.Intervals
import Sequencer.Proofs.Schedule.Layout
import Sequencer.Proofs.Schedule.Live
import Sequencer.Proofs.Schedule.Marks
import Sequencer.Proofs.Schedule.Plan
import Sequencer.Proofs.Schedule.Progress
import Sequencer.Proofs.Schedule.Staged
import Sequencer.Proofs.Schedule.States
import Sequencer.Proofs.Schedule.Straight
import Sequencer.Schedule.Basic
import Sequencer.Schedule.Plan
import Sequencer.Schedule.Reads
import Sequencer.Schedule.States
import Sequencer.Schedule.Text
import Sequencer.Settings.Pass
import Sequencer.Settings.Passes
import Sequencer.Settings.Value
import Sequencer.Proofs.Condition.Cycle
import Sequencer.Proofs.Lowering.Registers
import Sequencer.Proofs.Schedule.Followers
import Sequencer.Proofs.Lowering.Leaving
import Sequencer.Proofs.Lowering.Entering
import Sequencer.Proofs.Comb.Order
import Sequencer.Proofs.Comb.Propagation
import Sequencer.Proofs.Condition.Descent
import Sequencer.Proofs.Lowering.Captured
import Sequencer.Proofs.Lowering.ProgramOrder
import Sequencer.Proofs.Lowering.Independence
import Sequencer.Proofs.Lowering.Stack
import Sequencer.Proofs.Expr.Truth
import Sequencer.Proofs.Boolean.Canonical
import Sequencer.Proofs.Expr.Canonical
import Sequencer.Proofs.Schedule.Holding
import Sequencer.Proofs.Schedule.Flow
import Sequencer.Proofs.Schedule.Reads
import Sequencer.Proofs.Comb.Placement
import Sequencer.Proofs.Comb.Settling
import Sequencer.Proofs.Condition.Segments
import Sequencer.Proofs.Comb.Uniform
import Sequencer.Proofs.Control.Acceptance
import Sequencer.Proofs.Control.Declarations
import Sequencer.Proofs.Schedule.Stalling
import Sequencer.Proofs.Condition.Aliases
import Sequencer.Proofs.DataType.Matching
import Sequencer.Proofs.DataType.Width
import Sequencer.Proofs.Lowering.Completion
import Sequencer.Proofs.Condition.Folding
import Sequencer.Proofs.Settings
import Sequencer.Proofs.Condition.StateRegister
