import SqlTree.Json.Printer
import SqlTree.Keyword

/-!
# SqlTree.Error

Why a tree cannot be built or compiled.  Each constructor of `Error` is one
cause and holds what the cause is about; `Error.message` is the wording.
`Error.category` tells faults of an argument, found while a tree is built,
from faults of the finished tree or its dialect.
-/

namespace SqlTree

/-- What is wrong with a template and its substitutions. -/
inductive TemplateFault where
  | blank
  | unused (name : String)
  | repeated (name : String)
  | unfilled (name : String)

/-- The wording of a template's fault. -/
def TemplateFault.message : TemplateFault → String
  | .blank => "template is empty"
  | .unused name => s!"`{name}` is not used"
  | .repeated name => s!"`{name}` is given twice"
  | .unfilled name => s!"`\x7b{name}\x7d` has no substitution"

/-- What is wrong with the JSON specification of a predicate. -/
inductive SpecFault where
  | loneConnective
  | notOneMember
  | groupWithoutList
  | emptyList
  | connectiveArity
  | unknownOperator (text : String)
  | unrecognised
  | notScalar
  | notList
  | oneBound
  | escapeLength
  | escapeNotText
  | tooManyElements
  | notTruth

/-- The wording of a specification's fault. -/
def SpecFault.message : SpecFault → String
  | .loneConnective => "a logical operator needs a specification"
  | .notOneMember => "an object must have exactly one key"
  | .groupWithoutList => "a group must hold an array"
  | .emptyList => "an empty list"
  | .connectiveArity => "a logical operator takes exactly one specification"
  | .unknownOperator text => s!"unknown operator `{text}`"
  | .unrecognised => "not a predicate specification"
  | .notScalar => "expected a scalar value"
  | .notList => "expected an array of values"
  | .oneBound => "BETWEEN needs two bounds"
  | .escapeLength => "escape must be one character"
  | .escapeNotText => "escape must be a string"
  | .tooManyElements => "too many elements"
  | .notTruth => "IS takes null, a boolean or UNKNOWN"

/-- How a row misses the columns of its insert. -/
inductive RowFault where
  | columnCount (columns values : Nat)
  | valueCount (expected got : Nat)
  | empty
  | repeatedColumn (name : String)
  | otherColumns (expected : List String)
  | missingColumn (name : String)

/-- The wording of a row's fault. -/
def RowFault.message : RowFault → String
  | .columnCount columns values => s!"{columns} columns for rows of {values} values"
  | .valueCount expected got => s!"expected {expected} values, got {got}"
  | .empty => "empty row"
  | .repeatedColumn name => s!"column `{name}` given twice"
  | .otherColumns expected => "expected columns " ++ joined ", " expected
  | .missingColumn name => s!"missing column `{name}`"

/-- What a dialect may be unable to say. -/
inductive Feature where
  | pagination
  | multiRowInsert
deriving DecidableEq

/-- The feature as messages name it. -/
def Feature.label : Feature → String
  | .pagination => "LIMIT/OFFSET"
  | .multiRowInsert => "multi-row INSERT"

/-- Why building or compiling fails. -/
inductive Error where
  | invalidIdentifier (name : String)
  | invalidAlias (name : String)
  | blankLiteral
  | unknownOperator (text : String)
  | crossJoinCondition
  | nullComparison (op : Comparison)
  | nullBound
  | compoundBound
  | emptyInList
  | nullPattern
  | notTruth (word : String)
  | countOutOfRange (count : Nat)
  | noFloatLiteral (x : Double)
  | template (text : String) (fault : TemplateFault)
  | spec (json : Json) (fault : SpecFault)
  | missingTable (statement : StatementKind)
  | missingFilter (statement : StatementKind)
  | missingValues (statement : StatementKind)
  | tableAlreadySet (name : String)
  | combineConflict (existing requested : SetOperation)
  | row (fault : RowFault)
  | rowsAndSource
  | unsupported (dialect : String) (feature : Feature)
  | noConnection (dialect : String)

/-- Whose fault an error is. -/
inductive ErrorCategory where
  /-- A malformed argument, refused while the tree is built. -/
  | argument
  /-- The assembled tree, or a dialect that cannot express it. -/
  | statement
deriving DecidableEq

namespace Error

/-- The category of an error. -/
def category : Error → ErrorCategory
  | .invalidIdentifier _ | .invalidAlias _ | .blankLiteral | .unknownOperator _ | .crossJoinCondition
  | .nullComparison _ | .nullBound | .compoundBound | .emptyInList | .nullPattern | .notTruth _
  | .countOutOfRange _ | .noFloatLiteral _ | .template _ _ | .spec _ _ => .argument
  | .missingTable _ | .missingFilter _ | .missingValues _ | .tableAlreadySet _ | .combineConflict _ _
  | .row _ | .rowsAndSource | .unsupported _ _ | .noConnection _ => .statement

/-- The wording of an error. -/
def message : Error → String
  | .invalidIdentifier name => s!"invalid identifier `{name}`"
  | .invalidAlias name => s!"invalid alias `{name}`"
  | .blankLiteral => "invalid literal: literal is empty"
  | .unknownOperator text => s!"invalid operator `{text}`"
  | .crossJoinCondition => "invalid operator `ON with CROSS JOIN`"
  | .nullComparison op => s!"invalid value: NULL cannot be compared with `{op.symbol}`"
  | .nullBound => "invalid value: BETWEEN bound is NULL"
  | .compoundBound => "invalid value: BETWEEN bounds must be values or literals"
  | .emptyInList => "invalid value: IN list is empty"
  | .nullPattern => "invalid value: LIKE pattern is NULL"
  | .notTruth word => s!"invalid value: `{word}` cannot follow IS"
  | .countOutOfRange count => s!"invalid value: row count {count} is out of range"
  | .noFloatLiteral x => s!"invalid value: {x.text} has no SQL literal"
  | .template text fault => s!"invalid expression `{text}`: {fault.message}"
  | .spec json fault => s!"invalid predicate spec {json.text}: {fault.message}"
  | .missingTable statement => s!"{statement.keyword} statement has no table"
  | .missingFilter statement => s!"{statement.keyword} statement requires a non-empty WHERE clause"
  | .missingValues statement => s!"{statement.keyword} statement has nothing to write"
  | .tableAlreadySet name => s!"table is already set to `{name}`"
  | .combineConflict existing requested => s!"cannot use {requested.keyword} while {existing.keyword} is set"
  | .row fault => s!"row does not match the insert columns: {fault.message}"
  | .rowsAndSource => "insert cannot have both explicit rows and a source select"
  | .unsupported dialect feature => s!"driver `{dialect}` does not support {feature.label}"
  | .noConnection dialect => s!"driver `{dialect}` cannot quote string values without a connection"

end Error

/-! ## Laws -/

/-- The bind of two steps that went well. -/
theorem exists_of_bind_eq_ok {α β : Type} {x : Except Error α} {f : α → Except Error β} {b : β}
    (h : (x >>= f) = .ok b) : ∃ a, x = .ok a ∧ f a = .ok b := by
  cases x with
  | error e => cases h
  | ok a => exact ⟨a, rfl, h⟩

/-- The map of a step that went well. -/
theorem exists_of_map_eq_ok {α β : Type} {x : Except Error α} {f : α → β} {b : β}
    (h : x.map f = .ok b) : ∃ a, x = .ok a ∧ f a = b := by
  cases x with
  | error e => cases h
  | ok a => exact ⟨a, rfl, Except.ok.inj h⟩

/-- What is found as an option has gone well. -/
theorem eq_ok_of_toOption {α : Type} {x : Except Error α} {a : α} (h : x.toOption = some a) :
    x = .ok a := by
  cases x with
  | error e => cases h
  | ok b => exact congrArg Except.ok (Option.some.inj h)

end SqlTree
