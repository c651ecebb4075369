import SqlTree.Dialect.Shipped
import SqlTree.Tree.Basic

/-!
# SqlTree.Compile.Text

How the texts of the parts of a node make up its text.  Nothing here binds
a value or looks at a cache: these are the shapes of predicates, groups,
clauses, joins and selects, given the texts of what they contain.
-/

namespace SqlTree

/-- A text in its place after others, nothing if it is empty. -/
def spaced (text : String) : String := if text = "" then "" else " " ++ text

/-- A subquery stands between parentheses. -/
def enclosed (sql : String) : String := "(" ++ sql ++ ")"

/-! ## Predicates -/

/-- The word that turns a test around. -/
def notWord (negated : Bool) : String := if negated then "NOT " else ""

/-- A comparison. -/
def comparisonText (left : String) (op : Comparison) (right : String) : String :=
  left ++ " " ++ op.symbol ++ " " ++ right

/-- A range test. -/
def betweenText (left : String) (negated : Bool) (low high : String) : String :=
  left ++ " " ++ notWord negated ++ "BETWEEN " ++ low ++ " AND " ++ high

/-- A test against what the parentheses hold. -/
def inText (left : String) (negated : Bool) (inner : String) : String :=
  left ++ " " ++ notWord negated ++ "IN " ++ enclosed inner

/-- A test for null or another truth value. -/
def truthText (left : String) (negated : Bool) (word : Truth) : String :=
  left ++ " IS " ++ notWord negated ++ word.keyword

/-- A test against a list.  Null equals nothing, not even itself, so it is
tested by itself: a value is in the list if it equals a member or is null,
and outside if it differs from all members and is not null. -/
def inListText (left : String) (negated : Bool) (markers : List String) (orNull : Bool) : String :=
  if markers.isEmpty then truthText left negated .null
  else
    let list := inText left negated (joined ", " markers)
    if orNull then
      enclosed (list ++ (if negated then " AND " else " OR ") ++ truthText left negated .null)
    else list

/-- A character as a literal, doubled if it is the quote itself. -/
def charLiteral (quote c : Char) : String :=
  String.ofList (if c = quote then [quote, c, c, quote] else [quote, c, quote])

/-- A pattern test. -/
def likeText (d : Dialect) (left : String) (negated : Bool) (pattern : String) (escape : Option Char) : String :=
  left ++ " " ++ notWord negated ++ "LIKE " ++ pattern ++
    match escape with
    | some c => " ESCAPE " ++ charLiteral d.valueQuote c
    | none => ""

/-- A test for rows. -/
def existenceText (negated : Bool) (sql : String) : String :=
  notWord negated ++ "EXISTS " ++ enclosed sql

/-- A comparison with the rows of a subquery. -/
def quantifiedText (left : String) (op : Comparison) (quantifier : Quantifier) (sql : String) : String :=
  left ++ " " ++ op.symbol ++ " " ++ quantifier.keyword ++ " " ++ enclosed sql

/-! ## Groups and clauses -/

/-- Terms that follow others, each after its connective. -/
def followingText : List (Connective × String) → String
  | [] => ""
  | (connective, text) :: rest => " " ++ connective.keyword ++ " " ++ text ++ followingText rest

/-- Terms one after the other; the first one has nothing to be joined to. -/
def termsText : List (Connective × String) → String
  | [] => ""
  | (_, text) :: rest => text ++ followingText rest

/-- Empty terms are left out with their connectives; what is left of a
nested group is one unit. -/
def groupText (nested : Bool) (terms : List (Connective × String)) : String :=
  let live := terms.filter fun t => t.2 ≠ ""
  if nested ∧ 1 < live.length then enclosed (termsText live) else termsText live

/-- A clause without predicates is empty. -/
def clauseText (kind : ClauseKind) (sql : String) : String :=
  if sql = "" then "" else kind.keyword ++ " " ++ sql

/-! ## Joins -/

/-- An alias in its place after a name. -/
def aliasText (d : Dialect) (alias? : Option Alias) : String :=
  match alias? with
  | some a => " " ++ a.quoted d
  | none => ""

/-- A join. -/
def joinText (d : Dialect) (kind : JoinKind) (target : String) (alias? : Option Alias) (on : String) : String :=
  kind.keyword ++ " " ++ target ++ aliasText d alias? ++ spaced on

/-! ## Selects -/

/-- The star of a select, qualified by the alias of its origin. -/
def starText (d : Dialect) (alias? : Option String) : String :=
  match alias? with
  | some a => d.quoteAlias a ++ ".*"
  | none => "*"

/-- A column under its alias. -/
def columnText (d : Dialect) (alias? : Option Alias) (sql : String) : String :=
  match alias? with
  | some a => sql ++ " AS " ++ a.quoted d
  | none => sql

/-- Blanks for the given number of levels. -/
def indent (levels : Nat) : String := String.ofList (List.replicate (4 * levels) ' ')

/-- A table that rows come from. -/
def tableOriginText (d : Dialect) (name : Identifier) (alias? : Option Alias) : String :=
  " FROM " ++ name.quoted d ++ aliasText d alias?

/-- A subquery that rows come from, on lines of its own if it is to look
pretty; `outer` and `inner` are the levels of the two selects. -/
def subqueryOriginText (d : Dialect) (pretty : Bool) (outer inner : Nat) (a : Alias) (sql : String) : String :=
  if pretty then " FROM (\n" ++ indent inner ++ sql ++ "\n" ++ indent outer ++ ") " ++ a.quoted d
  else " FROM (" ++ sql ++ ") " ++ a.quoted d

/-- The joins, each after a blank. -/
def joinsText : List String → String
  | [] => ""
  | join :: joins => " " ++ join ++ joinsText joins

/-- A list of terms after its keyword, nothing if there are none. -/
def termListText (keyword : String) (terms : List String) : String :=
  if terms.isEmpty then "" else keyword ++ joined ", " terms

/-- The terms that rows are grouped by. -/
def groupByText (d : Dialect) (terms : List Reference) : String :=
  termListText " GROUP BY " (terms.map (·.quoted d))

/-- The terms that rows are ordered by. -/
def orderByText (d : Dialect) (terms : List (Reference × Direction)) : String :=
  termListText " ORDER BY " (terms.map fun t => t.1.quoted d ++ " " ++ t.2.keyword)

/-- The table that the rows are written into. -/
def intoText (d : Dialect) (into? : Option Identifier) : String :=
  match into? with
  | some name => " INTO " ++ name.quoted d
  | none => ""

/-- The texts of the parts of a select, in order. -/
structure SelectTexts where
  head : String
  columns : List String
  into : String
  origin : String
  joins : List String
  filter : String
  groupBy : String
  having : String
  combined : String
  orderBy : String
  page : String

/-- A select from the texts of its parts. -/
def SelectTexts.text (t : SelectTexts) : String :=
  "SELECT " ++ t.head ++ joined ", " t.columns ++ t.into ++ t.origin ++ joinsText t.joins ++ spaced t.filter ++
    t.groupBy ++ spaced t.having ++ t.combined ++ t.orderBy ++ spaced t.page

/-- The page that is asked for within the select.  Where rows are numbered
around it, that is all of them. -/
def Dialect.innerPage (d : Dialect) (page : Page) : Page :=
  if d.rowNumbers then Page.all else page

/-- The clause for the inner page, nothing for all rows. -/
def Dialect.innerPageClause (d : Dialect) (page : Page) (ordered : Bool) : Collecting String :=
  if (d.innerPage page).isPartial then d.pageClause (d.innerPage page) ordered else pure ""

/-- The select with its rows numbered where that is how pages are cut. -/
def Dialect.aroundSelect (d : Dialect) (sql : String) (page : Page) : Collecting String :=
  if d.rowNumbers then numberRows sql page else pure sql

/-! ## Names that a select knows -/

namespace Origin

/-- The table, unless it is a subquery. -/
def tableName? : Origin → Option String
  | .table name _ => some name.text
  | .subquery _ _ => none

/-- The alias of a table or a subquery. -/
def aliasName? : Origin → Option String
  | .table _ alias? => alias?.map Alias.text
  | .subquery _ a => some a.text

end Origin

namespace Join

/-- The joined table, unless it is a subquery. -/
def tableName? (j : Join) : Option String :=
  match j.target with
  | .table name => some name.text
  | .subquery _ => none

/-- The alias of a join. -/
def aliasName? (j : Join) : Option String := j.alias?.map Alias.text

/-- The names that a join brings in. -/
def names (j : Join) : List String := j.tableName?.toList ++ j.aliasName?.toList

end Join

/-- The names that an origin and joins bring in. -/
def knownNames (origin? : Option Origin) (joins : List Join) : List String :=
  (origin?.bind Origin.tableName?).toList ++ (origin?.bind Origin.aliasName?).toList ++ joins.flatMap Join.names

namespace Select

/-- The table that rows come from, unless it is a subquery. -/
def tableName? (s : Select) : Option String := s.origin?.bind Origin.tableName?

/-- The alias of the origin. -/
def aliasName? (s : Select) : Option String := s.origin?.bind Origin.aliasName?

end Select

end SqlTree
