import FuzzyInference.Controller.Basic
import FuzzyInference.Controller.Command
import FuzzyInference.Controller.Configure
import FuzzyInference.Controller.Defuzzify
import FuzzyInference.Controller.Infer
import FuzzyInference.Controller.InPlace
import FuzzyInference.Controller.Table
import FuzzyInference.Decimal.Basic
import FuzzyInference.Decimal.Shortest
import FuzzyInference.Defuzzify.Method
import FuzzyInference.Defuzzify.Samples
import FuzzyInference.Description.Basic
import FuzzyInference.Description.Build
import FuzzyInference.Description.Document
import FuzzyInference.Description.InPlace
import FuzzyInference.Fault
import FuzzyInference.Json.Basic
import FuzzyInference.Json.Codec
import FuzzyInference.Json.Parse
import FuzzyInference.Json.Print
import FuzzyInference.Json.Single
import FuzzyInference.Json.Token
import FuzzyInference.Language.Fault
import FuzzyInference.Language.Lexeme
import FuzzyInference.Language.Names
import FuzzyInference.Language.Read
import FuzzyInference.Language.Scan
import FuzzyInference.Norm.Basic
import FuzzyInference.Norm.Setting
import FuzzyInference.Rule.Basic
import FuzzyInference.Scalar
import FuzzyInference.Scalar.Form
import FuzzyInference.Scalar.Single
import FuzzyInference.Shape.Basic
import FuzzyInference.Shape.Curve
import FuzzyInference.Shape.Eval
import FuzzyInference.Shape.Term
import FuzzyInference.Stream.Cursor
import FuzzyInference.Stream.Encode
import FuzzyInference.Stream.Fault
import FuzzyInference.Stream.Step
import FuzzyInference.Stream.Token
import FuzzyInference.Stream.Width
import FuzzyInference.Style
import FuzzyInference.Variable
import FuzzyInference.Proofs.Sequence
import FuzzyInference.Proofs.Stream.Codec
import FuzzyInference.Proofs.Stream.Reading
import FuzzyInference.Proofs.Stream.Acceptance
import FuzzyInference.Proofs.Stream.Expectation
import FuzzyInference.Proofs.Stream.FirstBad
import FuzzyInference.Proofs.Scalar.Order
import FuzzyInference.Proofs.Shape.Term
import FuzzyInference.Proofs.Controller.Frame
import FuzzyInference.Proofs.Controller.Reachable
import FuzzyInference.Proofs.Controller.Acceptance
import FuzzyInference.Proofs.Controller.Firing
import FuzzyInference.Proofs.Controller.Meaning
import FuzzyInference.Proofs.Controller.Cycle
import FuzzyInference.Proofs.Description.Names
import FuzzyInference.Proofs.Description.Build
import FuzzyInference.Proofs.Description.Evaluate
import FuzzyInference.Proofs.Language.Grammar
import FuzzyInference.Proofs.Language.Reading
import FuzzyInference.Proofs.Language.Writing
import FuzzyInference.Proofs.Language.Scanning
import FuzzyInference.Proofs.Language.Misplaced
import FuzzyInference.Proofs.Language.Unknown
import FuzzyInference.Proofs.Language.Layout
import FuzzyInference.Proofs.Scalar.Linear
import FuzzyInference.Proofs.Scalar.Real
import FuzzyInference.Proofs.Formula
import FuzzyInference.Proofs.Shape.Formula
import FuzzyInference.Proofs.Shape.Division
import FuzzyInference.Proofs.Defuzzify.Division
import FuzzyInference.Proofs.Controller.Configured
import FuzzyInference.Proofs.Controller.Bounds
import FuzzyInference.Proofs.Controller.Division
import FuzzyInference.Proofs.Controller.Progress
import FuzzyInference.Proofs.Stream.Reread
import FuzzyInference.Proofs.Controller.Isolation
import FuzzyInference.Proofs.Stream.Table
import FuzzyInference.Proofs.Controller.Width
import FuzzyInference.Proofs.Controller.InPlace
import FuzzyInference.Proofs.Controller.Snapshot
import FuzzyInference.Proofs.Controller.Stepwise
import FuzzyInference.Proofs.Description.Slots
import FuzzyInference.Proofs.Description.Tables
import FuzzyInference.Proofs.Description.Agreement
import FuzzyInference.Proofs.Controller.Intact
import FuzzyInference.Proofs.Description.Intact
import FuzzyInference.Proofs.Norm.Exact
import FuzzyInference.Proofs.Controller.RuleOrder
import FuzzyInference.Proofs.Controller.Strength
import FuzzyInference.Proofs.Controller.Count
import FuzzyInference.Proofs.Scalar.Strict
import FuzzyInference.Proofs.Controller.Saturation
import FuzzyInference.Proofs.Scalar.Exact
import FuzzyInference.Proofs.Shape.Exact
import FuzzyInference.Proofs.Controller.Exact
import FuzzyInference.Proofs.Norm.Laws
import FuzzyInference.Proofs.Norm.Degree
import FuzzyInference.Proofs.Controller.Silent
import FuzzyInference.Proofs.Decimal
import FuzzyInference.Proofs.Json.Token
import FuzzyInference.Proofs.Json.Document
import FuzzyInference.Proofs.Json.Codec
import FuzzyInference.Proofs.Json.Single
import FuzzyInference.Proofs.Description.Document
import FuzzyInference.Proofs.Shape.Inverse
import FuzzyInference.Proofs.Defuzzify.Bisector
import FuzzyInference.Proofs.Stream.Wrap
import FuzzyInference.Proofs.Controller.Degree
import FuzzyInference.Proofs.Defuzzify.Points
import FuzzyInference.Proofs.Defuzzify.Plateau
import FuzzyInference.Proofs.Defuzzify.Maximum
import FuzzyInference.Proofs.Defuzzify.Exact
import FuzzyInference.Proofs.Defuzzify.Average
import FuzzyInference.Proofs.Defuzzify.Support
import FuzzyInference.Proofs.Controller.Average
import FuzzyInference.Proofs.Controller.Region
import FuzzyInference.Proofs.Shape.Monotone
import FuzzyInference.Proofs.Scalar.Number
import FuzzyInference.Proofs.Shape.Degree
import FuzzyInference.Proofs.Stream.Tiling
