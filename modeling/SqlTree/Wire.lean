import SqlTree.Collector
import SqlTree.Json.Printer

/-!
# SqlTree.Wire

The values of a statement as they are sent to whoever executes it: a JSON
object with a member for each entry, in the order of the entries and not of
their names.  A position is written as the name of its member.
-/

namespace SqlTree

/-- The name of the member for a key. -/
def Key.wireName : Key → String
  | .named marker => marker
  | .position n => toString n

/-- The value and the type of an entry, in this order. -/
def Entry.wireText (e : Entry) : String :=
  "\x7b" ++ Json.memberText "value" e.value.toJson.text ++ "," ++
    Json.memberText "type" (Json.quoteText e.type.label) ++ "\x7d"

/-- The entries of a collector. -/
def Collector.wireText (c : Collector) : String :=
  "\x7b" ++ joined "," (c.entries.map fun e => Json.memberText e.key.wireName e.wireText) ++ "\x7d"

end SqlTree
