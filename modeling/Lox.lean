import Lox.Main
import Lox.CommandLine.FileSystem
import Lox.Session.Script
import Lox.Symbol
import Lox.Proofs.Grammar
import Lox.Proofs.Parse.Fuel
import Lox.Proofs.Parse.Reading
import Lox.Proofs.Parse.Sound
import Lox.Proofs.Parse
import Lox.Proofs.Desugar.Alike
import Lox.Proofs.Desugar.Simulation
import Lox.Proofs.Desugar
import Lox.Proofs.Eval.Fuel
import Lox.Proofs.Scan
import Lox.Proofs.Session.Concatenation
import Lox.Proofs.Session.Expression
import Lox.Proofs.Eval.Ensures
import Lox.Proofs.Eval.Names
import Lox.Proofs.Parse.Regular
import Lox.Proofs.Soundness.State
import Lox.Proofs.Soundness.Safe
import Lox.Proofs.Soundness.Eval
import Lox.Proofs.Soundness
import Lox.Proofs.Eval.Confinement
import Lox.Proofs.Renaming.Parse
import Lox.Proofs.Renaming.Text
import Lox.Proofs.Renaming.Check
import Lox.Proofs.Renaming.Simulation
import Lox.Proofs.Renaming.Session
import Lox.Proofs.Renaming
import Lox.Proofs.Unmentioned
import Lox.Proofs.Scan.Lexeme
import Lox.Proofs.Scan.Exact
import Lox.Proofs.Scan.Seam
import Lox.Proofs.Number
import Lox.Proofs.Printing.Derived
import Lox.Proofs.Check.Reserved
import Lox.Proofs.Printing
import Lox.Proofs.Output.Records
import Lox.Proofs.Output
import Lox.Proofs.Nesting.Eval
import Lox.Proofs.Nesting.Chain
import Lox.Proofs.Nesting
import Lox.Proofs.Part
import Lox.Proofs.Rules
import Lox.Proofs.Desugar.Loops
import Lox.Proofs.Parse.Loops
import Lox.Proofs.Eval.Blank
import Lox.Proofs.Eval.Ends
import Lox.Proofs.Loop.Reference
import Lox.Proofs.Loop.Rounds
import Lox.Proofs.Loop
import Lox.Proofs.Session.Traceless
import Lox.Proofs.Course.Work
import Lox.Proofs.Course.Contract
import Lox.Proofs.Course.Session
import Lox.Proofs.Classes.Method
import Lox.Proofs.Classes.State
import Lox.Proofs.Classes.Eval
import Lox.Proofs.Classes.Session
import Lox.Proofs.Classes.Bound
import Lox.Proofs.Classes.Super
import Lox.Proofs.Classes.Construction
import Lox.Proofs.Classes.Arity
import Lox.Proofs.Classes.Properties
import Lox.Proofs.Scoping
import Lox.Proofs.Check.Loops
import Lox.Proofs.Frames
import Lox.Proofs.Parse.Prefix
import Lox.Proofs.Frames.Writes
import Lox.Proofs.Session.Globals
import Lox.Proofs.Rules.Initializer
import Lox.Proofs.Symbol.Map
