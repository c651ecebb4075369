import SqlTree.Dialect.Config
import SqlTree.Expression
import SqlTree.Json.Reader
import SqlTree.Path
import SqlTree.Proofs.Assigned
import SqlTree.Proofs.Blank.Node
import SqlTree.Proofs.Combined.Scope
import SqlTree.Proofs.Filtered.Node
import SqlTree.Proofs.Fragment.Node
import SqlTree.Proofs.Grammar.Values
import SqlTree.Proofs.Grouping.Node
import SqlTree.Proofs.Inlined.Node
import SqlTree.Proofs.Integers.Bound
import SqlTree.Proofs.Invalidation.Node
import SqlTree.Proofs.Joins.Cross
import SqlTree.Proofs.Layout.Node
import SqlTree.Proofs.Literals
import SqlTree.Proofs.Markers.Bound
import SqlTree.Proofs.Membership.Node
import SqlTree.Proofs.Names.Alias
import SqlTree.Proofs.Names.Reader
import SqlTree.Proofs.Names.Sealed
import SqlTree.Proofs.Neutral.Node
import SqlTree.Proofs.Paging.Node
import SqlTree.Proofs.Paging.Range
import SqlTree.Proofs.Pending
import SqlTree.Proofs.Positional.Node
import SqlTree.Proofs.Prefixes.Laws
import SqlTree.Proofs.Rows.Rectangular
import SqlTree.Proofs.Sections.Index
import SqlTree.Proofs.SortTerms
import SqlTree.Proofs.Templates.Inline
import SqlTree.Proofs.ValueQuotes.Node
import SqlTree.Proofs.Verbatim.Node
import SqlTree.Select
import SqlTree.Wire
