import ChangeCapture.Dictionary
import ChangeCapture.Entry
import ChangeCapture.Schema.Cache
import ChangeCapture.Schema.Reader
import ChangeCapture.TypeSpec

/-! What is known of tables, and how entries add to it: schema documents, and columns that a change
entry describes itself. An entry that is refused adds nothing. -/
namespace ChangeCapture

structure Catalog where
  dictionary : Dictionary
  schemas : SchemaCache
deriving DecidableEq, Repr

namespace Catalog

def empty : Catalog := ⟨.empty, .empty⟩

/-- Takes over what a copy of this catalog has learned since. -/
def merge (c other : Catalog) : Catalog :=
  ⟨c.dictionary.merge other.dictionary, c.schemas.merge other.schemas⟩

/-- Takes in a document, unless it is not newer than the one at hand, and gives it as it is then
known. Both parts of the catalog have to accept it. -/
def applyDocument (c : Catalog) (d : SchemaDocument) :
    Except Failure (Catalog × Option SchemaDocument) := do
  if c.schemas.hasAsNew d then return (c, none)
  else
    if let some t := d.table? then c.dictionary.check t
    c.schemas.check d
    let dictionary ← match d.table? with
      | some t => (c.dictionary.apply t).map Prod.fst
      | none => .ok c.dictionary
    let (schemas, _) ← c.schemas.apply d
    return (⟨dictionary, schemas⟩, schemas.get? d.qualifiedName)

/-- What a metadata entry adds. -/
def applyMetadata (c : Catalog) (e : Entry) : Except Failure (Catalog × Option SchemaDocument) := do
  match ← e.text? .ddlJson with
  | none => .error (.malformedEntry e.offset .noDocument)
  | some json => c.applyDocument (← SchemaDocument.parse json)

/-- A column as a change entry describes it. -/
structure InlineColumn where
  ordinal : Nat
  name : String
  spec : String
deriving DecidableEq, Repr

/-- The definition, which keeps what else is known of a column with that name and type. -/
def InlineColumn.succeed (i : InlineColumn) (cached : Column) : Column :=
  let column := (TypeSpec.parse i.spec).column i.ordinal i.name
  if cached.signature = column.signature then
    { column with isKey := cached.isKey, nullable := cached.nullable }
  else column

/-- Puts a column at its place; ordinals left out before it get placeholders. -/
def placeInline (columns : List Column) (i : InlineColumn) : List Column :=
  match columnIndex? i.ordinal with
  | none => columns
  | some index =>
    match columns[index]? with
    | some cached => columns.set index (i.succeed cached)
    | none =>
      columns ++
        (List.range' columns.length (index - columns.length)).map
          (fun place => Column.placeholder (columnOrdinal place)) ++
        [(TypeSpec.parse i.spec).column i.ordinal i.name]

/-- The columns that an entry describes, by ordinal. -/
def inlineColumns (ordinals : List Nat) (names specs : List Tag) :
    Except Failure (List InlineColumn) := do
  let found ← (ordinals.zip (names.zip specs)).mapM
    (fun (ordinal, name, spec) => return ⟨ordinal, ← name.text, ← spec.text⟩)
  return found.mergeSort (fun a b => a.ordinal ≤ b.ordinal)

/-- What the column tags of a change entry add to the dictionary. -/
def learn (d : Dictionary) (e : Entry) (tableId : Nat) (ordinals : List Nat) :
    Except Failure Dictionary := do
  let names := e.tagsOf .columnName
  let specs := e.tagsOf .columnType
  if names.length ≠ ordinals.length ∨ specs.length ≠ ordinals.length then
    .error (.tagCountMismatch tableId ordinals.length names.length specs.length)
  else
    let known := d.get? tableId
    let owner := (← e.text? .objectOwner).getD ((known.map Table.owner).getD "")
    let name := (← e.text? .objectName).getD ((known.map Table.name).getD "")
    let inline ← inlineColumns ordinals names specs
    let columns := inline.foldl placeInline ((known.map Table.columns).getD [])
    return (← d.apply (.new tableId owner name columns)).1

/-- Name of the table that an entry is about, from its own tags or by its table id. -/
def entrySchema (d : Dictionary) (e : Entry) : Except Failure (Option String) := do
  match ← e.text? .objectOwner, ← e.text? .objectName with
  | some owner, some name => return some (qualifiedName owner name)
  | _, _ => return ((← e.word? .objectId).bind d.get?).map Table.qualifiedName

end Catalog

end ChangeCapture
