/-!
# SqlTree.Keyword

The closed vocabularies of SQL: comparison operators, connectives,
quantifiers, sort directions, and the words that head statements, clauses,
joins and set operations.  Each type has `symbol` or `keyword`, the text
that it compiles to.
-/

namespace SqlTree

/-- Operators between two values. -/
inductive Comparison where
  | eq
  | ne
  | lt
  | le
  | gt
  | ge
deriving DecidableEq, Inhabited

namespace Comparison

/-- The operator in SQL. -/
def symbol : Comparison → String
  | .eq => "="
  | .ne => "!="
  | .lt => "<"
  | .le => "<="
  | .gt => ">"
  | .ge => ">="

/-- Markers of values compared with the operator are named after it. -/
def hint : Comparison → String
  | .eq => "eq"
  | .ne => "ne"
  | .lt => "lt"
  | .le => "lte"
  | .gt => "gt"
  | .ge => "gte"

end Comparison

/-- What joins the entries of a group. -/
inductive Connective where
  | and
  | or
deriving DecidableEq, Inhabited

/-- The connective in SQL. -/
def Connective.keyword : Connective → String
  | .and => "AND"
  | .or => "OR"

/-- What can follow `IS`. -/
inductive Truth where
  | null
  | true
  | false
  | unknown
deriving DecidableEq, Inhabited

/-- The word after `IS`. -/
def Truth.keyword : Truth → String
  | .null => "NULL"
  | .true => "TRUE"
  | .false => "FALSE"
  | .unknown => "UNKNOWN"

/-- How many rows of a subquery a comparison speaks of. -/
inductive Quantifier where
  | all
  | any
  | some
deriving DecidableEq, Inhabited

/-- The quantifier in SQL. -/
def Quantifier.keyword : Quantifier → String
  | .all => "ALL"
  | .any => "ANY"
  | .some => "SOME"

/-- Sort direction of an `ORDER BY` term. -/
inductive Direction where
  | ascending
  | descending
deriving DecidableEq, Inhabited

/-- The direction in SQL. -/
def Direction.keyword : Direction → String
  | .ascending => "ASC"
  | .descending => "DESC"

/-- The four statements. -/
inductive StatementKind where
  | select
  | insert
  | update
  | delete
deriving DecidableEq, Inhabited

/-- The first word of a statement. -/
def StatementKind.keyword : StatementKind → String
  | .select => "SELECT"
  | .insert => "INSERT"
  | .update => "UPDATE"
  | .delete => "DELETE"

/-- The clauses that hold predicates. -/
inductive ClauseKind where
  | filter
  | having
  | on
deriving DecidableEq, Inhabited

/-- The word that heads a clause. -/
def ClauseKind.keyword : ClauseKind → String
  | .filter => "WHERE"
  | .having => "HAVING"
  | .on => "ON"

/-- The five joins. -/
inductive JoinKind where
  | inner
  | left
  | right
  | full
  | cross
deriving DecidableEq, Inhabited

/-- The words that head a join. -/
def JoinKind.keyword : JoinKind → String
  | .inner => "INNER JOIN"
  | .left => "LEFT JOIN"
  | .right => "RIGHT JOIN"
  | .full => "FULL JOIN"
  | .cross => "CROSS JOIN"

/-- Operations between the rows of two selects. -/
inductive SetOperation where
  | union
  | unionAll
  | intersect
deriving DecidableEq, Inhabited

/-- The words between the two selects. -/
def SetOperation.keyword : SetOperation → String
  | .union => "UNION"
  | .unionAll => "UNION ALL"
  | .intersect => "INTERSECT"

end SqlTree
