import ShortCircuit.Main
import ShortCircuit.Proofs.Formula
import ShortCircuit.Proofs.Decision.Graph
import ShortCircuit.Proofs.Decision.Step
import ShortCircuit.Proofs.Decision.Walk
import ShortCircuit.Proofs.Decision.Meaning
import ShortCircuit.Proofs.Recovery.Collection
import ShortCircuit.Proofs.Recovery.Run
import ShortCircuit.Proofs.Recovery.Test
import ShortCircuit.Proofs.Decision.Circuit
import ShortCircuit.Proofs.Decision.Contraction
import ShortCircuit.Proofs.Recovery.Compiled
import ShortCircuit.Proofs.Recovery.Scan
import ShortCircuit.Proofs.Recovery.Pass
import ShortCircuit.Proofs.Recovery.RoundTrip
import ShortCircuit.Proofs.Decision.Tail
import ShortCircuit.Proofs.Recovery.Path
import ShortCircuit.Proofs.Recovery.Scope
import ShortCircuit.Proofs.Recovery.Value
import ShortCircuit.Proofs.Decision.Selection
import ShortCircuit.Proofs.Decision.Texts
import ShortCircuit.Proofs.Recovery.Texts
import ShortCircuit.Proofs.Decision.Folding
import ShortCircuit.Proofs.Decision.Alike
import ShortCircuit.Proofs.Decision.Diamond
import ShortCircuit.Proofs.Decision.Confluence
import ShortCircuit.Proofs.Prototype
import ShortCircuit.Proofs.Text.Utf8
import ShortCircuit.Proofs.Instruction.Word
import ShortCircuit.Proofs.Chunk.Reading
import ShortCircuit.Proofs.Chunk.Dump
import ShortCircuit.Proofs.Decision.Diagram.Basic
import ShortCircuit.Proofs.Decision.Diagram.Contraction
import ShortCircuit.Proofs.Decision.Diagram.Reduction
import ShortCircuit.Proofs.Decision.Idle
import ShortCircuit.Proofs.Decision.Integrity
import ShortCircuit.Proofs.Recovery.Stage
import ShortCircuit.Proofs.Recovery.Exits
import ShortCircuit.Proofs.Recovery.Failure
import ShortCircuit.Proofs.Recovery.Flow
import ShortCircuit.Proofs.Recovery.Writes
import ShortCircuit.Proofs.Expression.Grammar
import ShortCircuit.Proofs.Formula.Reading
import ShortCircuit.Proofs.Expression.Lexer
import ShortCircuit.Proofs.Recovery.Negation
import ShortCircuit.Proofs.Registers.Arithmetic
import ShortCircuit.Proofs.Decision.Relabel
import ShortCircuit.Proofs.Recovery.Shape
import ShortCircuit.Proofs.Text.Quoted
import ShortCircuit.Proofs.Registers.Effects
import ShortCircuit.Proofs.Decision.Pruning
import ShortCircuit.Proofs.Text.Negation
