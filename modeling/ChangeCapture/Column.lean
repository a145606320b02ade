import ChangeCapture.DataType

/-! Columns and tables. A column of ordinal `n` stands at place `n - 1` of its table; ordinal 0 is the
virtual column, which has no place. -/
namespace ChangeCapture

/-- Place of an ordinal in a list of columns. -/
def columnIndex? : Nat → Option Nat
  | 0 => none
  | n + 1 => some n

def columnOrdinal (index : Nat) : Nat := index + 1

structure Column where
  /-- The ordinal. -/
  id : Nat
  name : String
  dataType : DataType
  precision : Int
  scale : Int
  nullable : Bool
  isKey : Bool
deriving DecidableEq, Repr

namespace Column

def ofType (id : Nat) (name : String) (dataType : DataType) : Column :=
  ⟨id, name, dataType, 0, 0, true, false⟩

/-- Stands for an ordinal that no definition has named yet. -/
def placeholder (id : Nat) : Column := ofType id "" .unknown

def isPlaceholder (c : Column) : Bool := c.dataType = .unknown

/-- Versions of a column agree when their names and types do. -/
def signature (c : Column) : String × DataType := (c.name, c.dataType)

/-- Name and type as messages give them. -/
def described (c : Column) : String := s!"{c.name} {c.dataType.name}"

/-- The types whose declaration shows one size. -/
def hasSize (t : DataType) : Bool :=
  t = .char || t = .varchar || t = .nchar || t = .nvarchar || t = .raw || t = .float

/-- The type as a definition declares it. -/
def typeSpec (c : Column) : String :=
  if 0 < c.precision ∧ c.dataType = .number then s!"NUMBER({c.precision},{c.scale})"
  else if 0 < c.precision ∧ hasSize c.dataType then s!"{c.dataType.name}({c.precision})"
  else c.dataType.name

end Column

def qualifiedName (owner name : String) : String := s!"{owner}.{name}"

/-- Sets the key flag of the columns with the given ordinals. -/
def markKeyColumns (columns : List Column) (ordinals : List Nat) : List Column :=
  columns.mapIdx (fun i c => if columnOrdinal i ∈ ordinals then { c with isKey := true } else c)

/-- Columns, and whether one of them belongs to the key. The flag is kept beside the columns: it is
right as long as it is set anew whenever they change. -/
structure KeyedColumns where
  columns : List Column
  hasKey : Bool
deriving DecidableEq, Repr

namespace KeyedColumns

def of (columns : List Column) : KeyedColumns := ⟨columns, columns.any Column.isKey⟩

instance : Coe (List Column) KeyedColumns := ⟨of⟩

end KeyedColumns

structure Table where
  id : Nat
  owner : String
  name : String
  keyed : KeyedColumns
deriving DecidableEq, Repr

namespace Table

def new (id : Nat) (owner name : String) (columns : List Column) : Table :=
  ⟨id, owner, name, .of columns⟩

def columns (t : Table) : List Column := t.keyed.columns
def hasKey (t : Table) : Bool := t.keyed.hasKey

/-- The table with other columns. -/
def withColumns (t : Table) (columns : List Column) : Table := new t.id t.owner t.name columns

def markKeyColumns (t : Table) (ordinals : List Nat) : Table :=
  t.withColumns (ChangeCapture.markKeyColumns t.columns ordinals)

@[simp] theorem columns_new (id : Nat) (owner name : String) (columns : List Column) :
    (new id owner name columns).columns = columns := rfl

@[simp] theorem hasKey_new (id : Nat) (owner name : String) (columns : List Column) :
    (new id owner name columns).hasKey = columns.any Column.isKey := rfl

def qualifiedName (t : Table) : String := ChangeCapture.qualifiedName t.owner t.name

section withColumns

variable (t : Table) (columns : List Column)

@[simp] theorem columns_withColumns : (t.withColumns columns).columns = columns := rfl
@[simp] theorem id_withColumns : (t.withColumns columns).id = t.id := rfl
@[simp] theorem owner_withColumns : (t.withColumns columns).owner = t.owner := rfl
@[simp] theorem name_withColumns : (t.withColumns columns).name = t.name := rfl

@[simp] theorem qualifiedName_withColumns :
    (t.withColumns columns).qualifiedName = t.qualifiedName := rfl

@[simp] theorem hasKey_withColumns :
    (t.withColumns columns).hasKey = columns.any Column.isKey := rfl

theorem withColumns_inj {t : Table} {columns more : List Column} :
    t.withColumns more = t.withColumns columns ↔ more = columns :=
  ⟨congrArg Table.columns, congrArg t.withColumns⟩

end withColumns

def column? (t : Table) (ordinal : Nat) : Option Column :=
  (columnIndex? ordinal).bind (fun i => t.columns[i]?)

def hasLobColumns (t : Table) : Bool := t.columns.any (fun c => c.dataType.isLob)

end Table

/-- The full definition of a table, valid from `validSince` on. -/
structure SchemaDocument where
  owner : String
  name : String
  objectId : Option Nat
  columns : List Column
  /-- System change number from which the definition holds. -/
  validSince : Nat
  /-- Whether the definition says of every column if it belongs to the key. -/
  hasKeyFlags : Bool
deriving DecidableEq, Repr

namespace SchemaDocument

def qualifiedName (d : SchemaDocument) : String := ChangeCapture.qualifiedName d.owner d.name

/-- The compact form, for a document that names its table's id. -/
def table? (d : SchemaDocument) : Option Table :=
  d.objectId.map (fun id => .new id d.owner d.name d.columns)

end SchemaDocument

end ChangeCapture
