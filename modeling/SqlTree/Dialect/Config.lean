import SqlTree.Dialect.Shipped

/-!
# SqlTree.Dialect.Config

A dialect from configuration data.  A `Config` holds the settings in which
a standard dialect can vary; `Config.ofJson?` reads them from an object,
where a setting left out keeps its standard value and others are ignored,
or from a list in the order of the fields, which may end early.  What
`Config.toJson` writes reads back as the same settings.
-/

namespace SqlTree

/-- The settings of a standard dialect. -/
structure Config where
  name : String
  leftQuote : Char
  rightQuote : Char
  style : MarkerStyle
  limitOffset : Bool
  multiRowInsert : Bool
deriving DecidableEq

namespace Config

/-- The settings of standard SQL. -/
def standard : Config := ⟨"ansi", '"', '"', .named, true, true⟩

/-- The dialect with these settings. -/
def dialect (c : Config) : Dialect :=
  { Dialect.ansi with
    name := c.name
    leftQuote := c.leftQuote
    rightQuote := c.rightQuote
    style := c.style
    limitOffset := c.limitOffset
    multiRowInsert := c.multiRowInsert }

/-! ## Settings from JSON -/

/-- A text setting. -/
def text? : Json → Option String
  | .str s => some s
  | _ => none

/-- A character setting: a text of one character. -/
def char? : Json → Option Char
  | .str s =>
    match s.toList with
    | [c] => some c
    | _ => none
  | _ => none

/-- A yes or no. -/
def flag? : Json → Option Bool
  | .bool b => some b
  | _ => none

/-- The name of a marker style. -/
def styleName : MarkerStyle → String
  | .named => "named"
  | .positional => "positional"

/-- The marker style of a name. -/
def styleOfName? (s : String) : Option MarkerStyle :=
  if s = "named" then some .named else if s = "positional" then some .positional else none

/-- A marker style by its name, or as an object with that name and
nothing under it. -/
def style? : Json → Option MarkerStyle
  | .str s => styleOfName? s
  | .obj [(s, .null)] => styleOfName? s
  | _ => none

/-- A setting that is there must be well formed; one that is not keeps its
standard value. -/
def setting {α : Type} (read : Json → Option α) (standard : α) : Option Json → Option α
  | none => some standard
  | some j => read j

/-- The settings, each found by `field`, which is given its name and its
place. -/
def ofFields? (field : String → Nat → Option Json) : Option Config := do
  let name ← setting text? standard.name (field "name" 0)
  let leftQuote ← setting char? standard.leftQuote (field "quote_left" 1)
  let rightQuote ← setting char? standard.rightQuote (field "quote_right" 2)
  let style ← setting style? standard.style (field "param_style" 3)
  let limitOffset ← setting flag? standard.limitOffset (field "limit_offset" 4)
  let multiRowInsert ← setting flag? standard.multiRowInsert (field "multi_row_insert" 5)
  return { name, leftQuote, rightQuote, style, limitOffset, multiRowInsert }

/-- The settings in an object or a list. -/
def ofJson? : Json → Option Config
  | .obj members => ofFields? fun name _ => Json.findMember? name members
  | .arr items => if items.length ≤ 6 then ofFields? fun _ i => items[i]? else none
  | _ => none

/-- The settings as an object. -/
def toJson (c : Config) : Json :=
  .obj [
    ("limit_offset", .bool c.limitOffset),
    ("multi_row_insert", .bool c.multiRowInsert),
    ("name", .str c.name),
    ("param_style", .str (styleName c.style)),
    ("quote_left", .str (String.singleton c.leftQuote)),
    ("quote_right", .str (String.singleton c.rightQuote))]

/-! ## Laws -/

theorem styleOfName?_styleName (s : MarkerStyle) : styleOfName? (styleName s) = some s := by
  cases s <;> rfl

theorem ofJson?_toJson (c : Config) : ofJson? c.toJson = some c := by
  simp [ofJson?, toJson, ofFields?, Json.findMember?, setting, text?, char?, flag?, style?, styleOfName?_styleName]

end Config

end SqlTree
