import FlexStyle.Binary.Format
import FlexStyle.Binary
import FlexStyle.Binary.Arithmetic
import FlexStyle.Decimal
import FlexStyle.Decimal.Numeral
import FlexStyle.Decimal.Shortest
import FlexStyle.Text
import FlexStyle.Change
import FlexStyle.Forest
import FlexStyle.Token.Name
import FlexStyle.Token
import FlexStyle.Token.Number
import FlexStyle.Token.Extent
import FlexStyle.Token.Lexer
import FlexStyle.Token.Cursor
import FlexStyle.Keyword
import FlexStyle.Color
import FlexStyle.Length
import FlexStyle.Value
import FlexStyle.Value.Reader
import FlexStyle.Value.Raw
import FlexStyle.Declaration
import FlexStyle.Config
import FlexStyle.TextStyle
import FlexStyle.Box.Dimension
import FlexStyle.Box.Style
import FlexStyle.Box.Store
import FlexStyle.Property
import FlexStyle.Property.TextEffect
import FlexStyle.Property.BoxEffect
import FlexStyle.Table.Entry
import FlexStyle.Table
import FlexStyle.Table.Application
import FlexStyle.Tree
import FlexStyle.Tree.Structure
import FlexStyle.Tree.Write
import FlexStyle.Tree.Flush
import FlexStyle.Tree.Handle
import FlexStyle.Proofs.Binary
import FlexStyle.Proofs.Binary.Sign
import FlexStyle.Proofs.Binary.Whole
import FlexStyle.Proofs.Decimal
import FlexStyle.Proofs.Text
import FlexStyle.Proofs.Forest
import FlexStyle.Proofs.Forest.Lineage
import FlexStyle.Proofs.Forest.Children
import FlexStyle.Proofs.Token
import FlexStyle.Proofs.Token.Written
import FlexStyle.Proofs.Value.Reader
import FlexStyle.Proofs.Value.Grammar
import FlexStyle.Proofs.Value.Text
import FlexStyle.Proofs.Value.RoundTrip
import FlexStyle.Proofs.Value.Comment
import FlexStyle.Proofs.Value.Hexadecimal
import FlexStyle.Proofs.Declaration
import FlexStyle.Proofs.Declaration.Reading
import FlexStyle.Proofs.Box
import FlexStyle.Proofs.Box.Agreement
import FlexStyle.Proofs.Store
import FlexStyle.Proofs.Store.Run
import FlexStyle.Proofs.Table
import FlexStyle.Proofs.Table.Evolution
import FlexStyle.Proofs.Table.Order
import FlexStyle.Proofs.Table.Calls
import FlexStyle.Proofs.Table.NetChange
import FlexStyle.Proofs.Table.WriteOrder
import FlexStyle.Proofs.Property
import FlexStyle.Proofs.Arguments
import FlexStyle.Proofs.Value.Range
import FlexStyle.Proofs.Property.Ownership
import FlexStyle.Proofs.Property.Dimensions
import FlexStyle.Proofs.Table.Application
import FlexStyle.Proofs.Tree
import FlexStyle.Proofs.Tree.Evolution
import FlexStyle.Proofs.Tree.Structure
import FlexStyle.Proofs.Tree.Flush
import FlexStyle.Proofs.Tree.Run
import FlexStyle.Proofs.Tree.Visits
import FlexStyle.Proofs.Tree.Edits
import FlexStyle.Proofs.Tree.History
import FlexStyle.Proofs.Tree.Commute
import FlexStyle.Proofs.Appending
import FlexStyle.Proofs.Writing
import FlexStyle.Proofs.InlineText
import FlexStyle.Proofs.InlineDeclarations
import FlexStyle.Proofs.Scheduling
import FlexStyle.Proofs.Queue
import FlexStyle.Proofs.Passes
import FlexStyle.Proofs.Independence
import FlexStyle.Proofs.Housing
import FlexStyle.Proofs.Removal
import FlexStyle.Proofs.Handles
import FlexStyle.Proofs.Marks
import FlexStyle.Proofs.Cascade
import FlexStyle.Proofs.Flow
import FlexStyle.Proofs.Inheritance
import FlexStyle.Proofs.Reapplication
import FlexStyle.Proofs.Invalidation
import FlexStyle.Proofs.Measuring

/-!
# Flex styles

Styles of nodes in a forest, from the texts in which they are written to the records of boxes.

- Numbers and texts: binary numbers, numerals, forests of names.
- Tokens and values: what texts are read as, and how values are written.
- Properties, tables and boxes: what a node is asked for, and what that makes of its box.
- Trees: writes, changes of shape, flushes, and the handles by which hosts name nodes.

The modules under `FlexStyle.Proofs` follow the same layers. The laws of whole trees come last.
-/
