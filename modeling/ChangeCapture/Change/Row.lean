import ChangeCapture.Change.Images

/-! Rows out of images. The image after a change wins over the images before it, and of images of one
rank the last. -/
namespace ChangeCapture

/-- A value that a slot holds, and the rank of the image that gave it. -/
structure RowSlot where
  value : ColumnValue
  rank : Nat
deriving DecidableEq, Repr

namespace RowSlot

def ofColumn (c : Column) : RowSlot := ⟨.ofColumn c .null, 0⟩

/-- Key and old images stand for the row before a change. -/
def rankOf : TagType → Nat
  | .keyImage | .oldImage => 1
  | _ => 2

def take (slot : RowSlot) (type : TagType) (field : Field) : RowSlot :=
  let slot := if slot.rank ≤ rankOf type
    then ⟨{ slot.value with value := field }, rankOf type⟩ else slot
  if type = .keyImage then { slot with value := { slot.value with isSupplementalKey := true } }
  else slot

/-- A slot of `column` after one more image or location. -/
def add (column : Column) (slot : Option RowSlot) (tag : Tag) : Except Failure RowSlot :=
  if tag.type.isLocation then do
    let slot := slot.getD (ofColumn column)
    return { slot with value := ← ColumnImage.applyLocation tag slot.value }
  else do
    let field ← ColumnImage.field column tag
    return (slot.getD (ofColumn column)).take tag.type field

end RowSlot

/-- The slots of a table after one more image; an image without a column has no effect. -/
def placeImage (table : Table) (slots : List (Option RowSlot)) (image : ColumnImage) :
    Except Failure (List (Option RowSlot)) :=
  match columnIndex? image.ordinal with
  | none => .ok slots
  | some index =>
    match table.columns[index]? with
    | none => .ok slots
    | some column => do
      let slot ← RowSlot.add column (slots[index]?).join image.tag
      return slots.set index (some slot)

def ChangeRecord.ofImages (header : ChangeHeader) (table : Table) (images : List ColumnImage) :
    Except Failure ChangeRecord := do
  let slots ← images.foldlM (placeImage table) (List.replicate table.columns.length none)
  return ⟨header, slots.map (Option.map RowSlot.value), false, true⟩

end ChangeCapture
