import SqlTree.Node

/-!
# SqlTree.Proofs.Raw

The raw SQL in a tree.  Literals and the templates of expressions are the
two ways in which SQL that nobody has looked at gets into a text;
`Node.raws` lists them for a node with everything below it.
-/

namespace SqlTree

/-- SQL that is written as it is. -/
inductive RawSql where
  | literal (l : Literal)
  | template (text : String)

/-- The SQL itself. -/
def RawSql.text : RawSql → String
  | .literal l => l.text
  | .template text => text

/-- This may come after a placeholder: nothing, or a character that neither
continues a word nor opens a placeholder. -/
def endsPlaceholder (next : Option Char) : Bool := next.all fun c => !isWordChar c && c != '\x7b'

/-- Every placeholder has nothing but that behind it. -/
def placeholdersEnd : List Piece → Bool
  | [] => true
  | .text _ :: parts => placeholdersEnd parts
  | .slot _ :: parts => endsPlaceholder (parts.flatMap Piece.source).head? && placeholdersEnd parts

/-- The raw SQL satisfies `P`, a template in each of its parts, and no
placeholder of it runs into a word. -/
def RawSql.Allows (P : String → Prop) : RawSql → Prop
  | .literal l => P l.text
  | .template text => placeholdersEnd (pieces text) = true ∧ ∀ part ∈ pieces text,
      P (String.ofList part.source)

/-- The raw SQL of a reference. -/
def Reference.raws : Reference → List RawSql
  | .literal l => [.literal l]
  | .identifier _ | .alias _ => []

mutual

/-- The raw SQL in an operand. -/
def Operand.raws : Operand → List RawSql
  | .value _ | .identifier _ => []
  | .literal l => [.literal l]
  | .expression e => e.raws
  | .subquery s => s.raws

/-- The raw SQL in a filling. -/
def Filling.raws : Filling → List RawSql
  | .value _ | .identifier _ | .alias _ => []
  | .literal l => [.literal l]
  | .subquery s => s.raws

/-- The raw SQL in slots. -/
def slotRaws : List Slot → List RawSql
  | [] => []
  | ⟨_, filling⟩ :: slots => filling.raws ++ slotRaws slots

/-- The raw SQL in an expression, its template first. -/
def Expression.raws : Expression → List RawSql
  | ⟨template, slots⟩ => .template template :: slotRaws slots

/-- The raw SQL in a predicate. -/
def Predicate.raws : Predicate → List RawSql
  | .comparison left _ right => left.raws ++ right.raws
  | .between left _ low high => left.raws ++ (low.raws ++ high.raws)
  | .inValues left _ _ _ => left.raws
  | .inSelect left _ s => left.raws ++ s.raws
  | .like left _ pattern _ => left.raws ++ pattern.raws
  | .truth left _ _ => left.raws
  | .existence _ s => s.raws
  | .quantified left _ _ s => left.raws ++ s.raws
  | .literal l => [.literal l]
  | .expression e => e.raws
  | .group g => g.raws

/-- The raw SQL in terms. -/
def termRaws : List Term → List RawSql
  | [] => []
  | ⟨_, p⟩ :: terms => p.raws ++ termRaws terms

/-- The raw SQL in a group. -/
def Group.raws : Group → List RawSql
  | ⟨terms, _, _, _, _⟩ => termRaws terms

/-- The raw SQL in a clause. -/
def Clause.raws : Clause → List RawSql
  | ⟨_, none⟩ => []
  | ⟨_, some g⟩ => g.raws

/-- The raw SQL in a join target. -/
def JoinTarget.raws : JoinTarget → List RawSql
  | .table _ => []
  | .subquery s => s.raws

/-- The raw SQL in a join. -/
def Join.raws : Join → List RawSql
  | ⟨_, target, _, on, _⟩ => target.raws ++ on.raws

/-- The raw SQL in joins. -/
def joinRaws : List Join → List RawSql
  | [] => []
  | j :: joins => j.raws ++ joinRaws joins

/-- The raw SQL in a column source. -/
def ColumnSource.raws : ColumnSource → List RawSql
  | .reference r => r.raws
  | .expression e => e.raws
  | .subquery s => s.raws

/-- The raw SQL in columns. -/
def columnRaws : List Column → List RawSql
  | [] => []
  | ⟨source, _⟩ :: columns => source.raws ++ columnRaws columns

/-- The raw SQL in an origin. -/
def originRaws : Option Origin → List RawSql
  | none | some (.table _ _) => []
  | some (.subquery s _) => s.raws

/-- The raw SQL in a combined select. -/
def combinedRaws : Option (SetOperation × Select) → List RawSql
  | none => []
  | some (_, s) => s.raws

/-- The raw SQL in a select. -/
def Select.raws : Select → List RawSql
  | ⟨_, columns, _, origin?, joins, filter, groupBy, having, combined?, orderBy, _, _,
      _, _, _, _⟩ =>
    columnRaws columns ++
      (originRaws origin? ++ (joinRaws joins ++ (filter.raws ++ (groupBy.flatMap Reference.raws ++
      (having.raws ++ (combinedRaws combined? ++ orderBy.flatMap fun t => t.1.raws))))))

end

/-- The raw SQL in a node of any kind. -/
def Node.raws : (k : Kind) → Node k → List RawSql
  | .select, s => Select.raws s
  | .insert, i => (Insert.rows i).flatten.flatMap Operand.raws ++
      (Insert.source? i).toList.flatMap Select.raws
  | .update, u => (Update.assignments u).flatMap (fun a => a.value.raws) ++ (Update.filter u).raws
  | .delete, del => (Delete.filter del).raws
  | .group, g => Group.raws g
  | .clause, c => Clause.raws c
  | .join, j => Join.raws j
  | .predicate, p => Predicate.raws p
  | .expression, e => Expression.raws e
  | .reference, r => Reference.raws r

end SqlTree
