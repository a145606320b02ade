import ChangeCapture.Change.Images

/-! Vectors out of images: a list for each sort of image, in encoded order. Data and location of a large
object are one value, whichever comes first. -/
namespace ChangeCapture

/-- Changes the last element that `p` holds of; `none` where there is none. -/
def changeLast? (p : α → Bool) (f : α → Except Failure α) :
    List α → Option (Except Failure (List α))
  | [] => none
  | a :: rest =>
    match changeLast? p f rest with
    | some changed => some (changed.map (a :: ·))
    | none => if p a then some ((f a).map (· :: rest)) else none

namespace ChangeVector

def addLocation (v : ChangeVector) (column : Column) (tag : Tag) : Except Failure ChangeVector :=
  match changeLast? (fun l => l.id = column.id) (ColumnImage.applyLocation tag) v.lob with
  | some changed => changed.map (fun lob => { v with lob })
  | none =>
    (ColumnImage.applyLocation tag (.ofColumn column .null)).map
      (fun l => { v with lob := v.lob ++ [l] })

/-- Fills the last value of the column if that has only a location yet. -/
def addData (v : ChangeVector) (value : ColumnValue) : ChangeVector :=
  match v.lob.reverse.find? (fun l => l.id = value.id) with
  | some last =>
    if last.value.isNull then
      match changeLast? (fun l => l.id = value.id) (fun l => .ok { l with value := value.value })
          v.lob with
      | some (.ok lob) => { v with lob }
      | _ => v
    else { v with lob := v.lob ++ [value] }
  | none => { v with lob := v.lob ++ [value] }

def addImage (v : ChangeVector) (type : TagType) (value : ColumnValue) : ChangeVector :=
  match type with
  | .keyImage => { v with key := v.key ++ [{ value with isSupplementalKey := true }] }
  | .oldImage => { v with old := v.old ++ [value] }
  | .newImage => { v with new := v.new ++ [value] }
  | _ => v.addData value

/-- The vector after one more image; an image without a column has no effect. -/
def add (table : Table) (v : ChangeVector) (image : ColumnImage) : Except Failure ChangeVector :=
  match table.column? image.ordinal with
  | none => .ok v
  | some column =>
    if image.tag.type.isLocation then v.addLocation column image.tag
    else do
      let field ← ColumnImage.field column image.tag
      return v.addImage image.tag.type (.ofColumn column field)

def ofImages (header : ChangeHeader) (table : Table) (images : List ColumnImage) :
    Except Failure ChangeVector :=
  images.foldlM (add table) (empty header)

end ChangeVector

end ChangeCapture
