import SqlTree.Dialect.Config
import SqlTree.Proofs.Draft.Page

/-!
# SqlTree.Proofs.Shipped

The dialects that can be had: configured ones, the others by name, and any
of them on a connection.  What is kept for later is found again by a
fingerprint, which says less than a dialect.  Among shipped dialects it says
enough: those with one fingerprint have the same constructs
(`Shipped.constructs_eq`), and every draft reads the same in them
(`Draft.text_congr`).
-/

namespace SqlTree

/-- The dialects that can be had: a configured standard one or one of the
others, each perhaps on a connection. -/
inductive Dialect.Shipped : Dialect → Prop where
  | config (c : Config) : Shipped c.dialect
  | mysql : Shipped Dialect.mysql
  | oracle : Shipped Dialect.oracle
  | sqlServer : Shipped Dialect.sqlServer
  | sqlite (style : MarkerStyle) : Shipped (Dialect.sqlite style)
  | withConnection {d : Dialect} (h : Shipped d) (connection : Connection) :
      Shipped (d.withConnection connection)

namespace Dialect

variable {d d' : Dialect}

theorem withConnection_eq (d : Dialect) (connection : Connection) :
    ∃ connection?, d.withConnection connection = { d with connection := connection? } := by
  unfold withConnection
  split
  · exact ⟨d.connection, rfl⟩
  · exact ⟨some connection, rfl⟩

/-- Names are quoted by double quotes, backticks or brackets. -/
def HasUsualQuotes (d : Dialect) : Prop :=
  (d.leftQuote, d.rightQuote) ∈ [('"', '"'), ('\x60', '\x60'), ('[', ']')]

theorem Shipped.valueQuote_eq (h : d.Shipped) : d.valueQuote = '\'' := by
  induction h with
  | withConnection h connection ih =>
    obtain ⟨connection?, hd⟩ := withConnection_eq _ connection
    rw [hd]
    exact ih
  | _ => rfl

/-- The syntax of pages goes with the name of the dialect. -/
def pageSyntaxOf (name : String) : PageSyntax :=
  if name = "mysql" then .limitOffset "18446744073709551615"
  else if name = "sqlsrv" then .offsetFetch
  else .limitOffset "-1"

theorem Shipped.pageSyntax_eq (h : d.Shipped) :
    d.pageSyntax = if d.pageSyntax.isSome then some (pageSyntaxOf d.name) else none := by
  induction h with
  | withConnection h connection ih =>
    obtain ⟨connection?, hd⟩ := withConnection_eq _ connection
    rw [hd]
    exact ih
  | _ => rfl

/-- What stands for no limit is the greatest number of rows or a negative one. -/
theorem Shipped.unbounded_eq (h : d.Shipped) {unbounded : String}
    (hkind : d.pageSyntax = some (.limitOffset unbounded)) :
    unbounded = "18446744073709551615" ∨ unbounded = "-1" := by
  have hpages := h.pageSyntax_eq
  rw [hkind, Option.isSome_some, if_pos rfl, pageSyntaxOf] at hpages
  split at hpages
  · cases hpages
    exact .inl rfl
  · split at hpages <;> cases hpages
    exact .inr rfl

/-- A fingerprint says less than a dialect, and enough of a shipped one. -/
theorem Shipped.constructs_eq (h : d.Shipped) (h' : d'.Shipped)
    (hfp : d.fingerprint = d'.fingerprint) : d.constructs = d'.constructs := by
  simp only [fingerprint, Fingerprint.mk.injEq] at hfp
  obtain ⟨hname, -, -, -, -, hlimit, hrow, hpages, hinsert, hcolumns, hselect⟩ := hfp
  have hsyntax : d.pageSyntax = d'.pageSyntax := by
    rw [h.pageSyntax_eq, h'.pageSyntax_eq, hpages, hname]
  simp only [constructs, hname, hlimit, hrow, hsyntax, hinsert, hcolumns, hselect]

theorem style_eq_of_fingerprint_eq (hfp : d.fingerprint = d'.fingerprint) : d.style = d'.style :=
  congrArg Fingerprint.style hfp

theorem quoteIdentifier_congr (hleft : d.leftQuote = d'.leftQuote)
    (hright : d.rightQuote = d'.rightQuote) (name : String) :
    d.quoteIdentifier name = d'.quoteIdentifier name := by
  unfold quoteIdentifier
  rw [hleft, hright]

theorem quoteAlias_congr (hleft : d.leftQuote = d'.leftQuote)
    (hright : d.rightQuote = d'.rightQuote) (name : String) :
    d.quoteAlias name = d'.quoteAlias name := by
  unfold quoteAlias
  rw [hleft, hright]

theorem quotePrefixesFrom_congr (hleft : d.leftQuote = d'.leftQuote)
    (hright : d.rightQuote = d'.rightQuote) (hvalue : d.valueQuote = d'.valueQuote)
    (names : List (List Char)) (position : Scan) (cs : List Char) :
    d.quotePrefixesFrom names position cs = d'.quotePrefixesFrom names position cs := by
  induction cs generalizing position with
  | nil => simp only [quotePrefixesFrom]
  | cons c cs ih =>
    cases position with
    | inside close => simp only [quotePrefixesFrom, ih]
    | within n last => simp only [quotePrefixesFrom, ih]
    | outside previous =>
      simp only [quotePrefixesFrom, closer?, ih, hleft, hright, hvalue,
        quoteIdentifier_congr hleft hright]

end Dialect

/-- How a draft is written depends on the quotes only. -/
theorem Draft.text_congr_quotes {d d' : Dialect} (hleft : d.leftQuote = d'.leftQuote)
    (hright : d.rightQuote = d'.rightQuote) (hvalue : d.valueQuote = d'.valueQuote) (p : Draft)
    (c : Collector) : p.text d c = p.text d' c := by
  induction p generalizing c with
  | identifier i => exact Dialect.quoteIdentifier_congr hleft hright i.text
  | label a => exact Dialect.quoteAlias_congr hleft hright a.text
  | quotedChar ch => simp only [text_quotedChar, hvalue]
  | append p q ihp ihq =>
    change p.text d c ++ q.text d _ = p.text d' c ++ q.text d' _
    rw [ihp, ihq]
  | requoted names p ih =>
    rw [text_requoted, text_requoted, ih, Dialect.quotePrefixes, Dialect.quotePrefixes,
      Dialect.quotePrefixesFrom_congr hleft hright hvalue]
  | _ => rfl

theorem Draft.text_congr {d d' : Dialect} (hfp : d.fingerprint = d'.fingerprint) (p : Draft)
    (c : Collector) : p.text d c = p.text d' c := by
  simp only [Dialect.fingerprint, Dialect.Fingerprint.mk.injEq] at hfp
  obtain ⟨-, hleft, hright, hvalue, -⟩ := hfp
  exact Draft.text_congr_quotes hleft hright hvalue p c

end SqlTree
