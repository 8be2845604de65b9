import ByteLayout.Number.Power
import ByteLayout.Number.Binary64
import ByteLayout.Number.Shortest
import ByteLayout.Number.Decimal
import ByteLayout.Number.Word
import ByteLayout.Syntax.Builtin
import ByteLayout.Syntax.Token
import ByteLayout.Syntax.Lexer
import ByteLayout.Syntax.Tree
import ByteLayout.Syntax.Parser.Basic
import ByteLayout.Syntax.Parser.Expr
import ByteLayout.Syntax.Parser.Stmt
import ByteLayout.Syntax.Source
import ByteLayout.Text.Radix
import ByteLayout.Eval.Fault
import ByteLayout.Layout.Node
import ByteLayout.Value.Basic
import ByteLayout.Value.Arith
import ByteLayout.Value.Cast
import ByteLayout.Text.Escape
import ByteLayout.Text.Utf16
import ByteLayout.Layout.Decode
import ByteLayout.Eval.Config
import ByteLayout.Eval.Scope
import ByteLayout.Eval.Machine
import ByteLayout.Eval.Template
import ByteLayout.Eval.Intrinsic
import ByteLayout.Eval.Attribute
import ByteLayout.Eval.Interp
import ByteLayout.Eval.Run
import ByteLayout.Dump.Toml
import ByteLayout.Dump.Settings
import ByteLayout.Dump.Tree
import ByteLayout.Main
import ByteLayout.Proofs.Eval.Wp
import ByteLayout.Proofs.Eval.Footprint
import ByteLayout.Proofs.Eval.Limits
import ByteLayout.Proofs.Layout.Region
import ByteLayout.Proofs.Layout.Splice
import ByteLayout.Proofs.Layout.Build
import ByteLayout.Proofs.Syntax.Wp
import ByteLayout.Proofs.Syntax.Frame
import ByteLayout.Proofs.Syntax.Placement
import ByteLayout.Proofs.Syntax.Lexer
import ByteLayout.Proofs.Layout.Parsed
import ByteLayout.Proofs.Syntax.Pieces
import ByteLayout.Proofs.Syntax.Valid
import ByteLayout.Proofs.Syntax.Program
import ByteLayout.Proofs.Eval.Contextual
import ByteLayout.Proofs.Eval.InPlace
import ByteLayout.Proofs.Number.Word
import ByteLayout.Proofs.Value.Operators
import ByteLayout.Proofs.Layout.Decode
import ByteLayout.Proofs.Layout.Fits
import ByteLayout.Proofs.Syntax.Printer
import ByteLayout.Proofs.Syntax.Relex
import ByteLayout.Proofs.Layout.Elements
import ByteLayout.Proofs.Layout.Bitfield
import ByteLayout.Proofs.Layout.Enum
import ByteLayout.Proofs.Eval.NodeCount
import ByteLayout.Proofs.Layout.Strings
import ByteLayout.Proofs.Value.Typed
import ByteLayout.Proofs.Eval.Invariant
import ByteLayout.Proofs.Eval.Variables
import ByteLayout.Proofs.Layout.Cursor
import ByteLayout.Proofs.Layout.Endian
import ByteLayout.Proofs.Syntax.Returns
import ByteLayout.Proofs.Syntax.Reparse
import ByteLayout.Proofs.Layout.Relocate
import ByteLayout.Proofs.Layout.StringRead
import ByteLayout.Proofs.Eval.Control
import ByteLayout.Proofs.Layout.Count
import ByteLayout.Proofs.Eval.Template
import ByteLayout.Proofs.Dump.Tree
import ByteLayout.Proofs.Syntax.Order
import ByteLayout.Proofs.Syntax.Depth
import ByteLayout.Proofs.Eval.Shallow
import ByteLayout.Proofs.Syntax.Descent
import ByteLayout.Proofs.Eval.Termination
