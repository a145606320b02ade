import ChangeCapture.Change
import ChangeCapture.Entry
import ChangeCapture.Image
import ChangeCapture.Warning

/-! The column images of a change entry. An image or a location belongs to the nearest column id tag
before it. -/
namespace ChangeCapture

/-- A value or location tag and the ordinal of its column. -/
structure ColumnImage where
  ordinal : Nat
  tag : Tag
deriving DecidableEq, Repr

namespace ColumnImage

/-- The types of tag that belong to a column. -/
def types : List TagType :=
  [.keyImage, .oldImage, .newImage, .lobData, .lobOffset, .lobLength, .lobPosition]

/-- The ordinals that the column id tags of an entry give. -/
def ordinals (e : Entry) : Except Failure (List Nat) := (e.tagsOf .columnId).mapM Tag.word

/-- The column of a tag, out of the column id tags in order. -/
def owner? (columns : List (Tag × Nat)) (tag : Tag) : Option Nat :=
  ((columns.takeWhile (fun c => c.1.seq < tag.seq)).getLast?).map Prod.snd

def ofTag (columns : List (Tag × Nat)) (tag : Tag) : Except Failure ColumnImage :=
  match owner? columns tag with
  | some ordinal => .ok ⟨ordinal, tag⟩
  | none => tag.malformed .orphanValue

/-- All images of an entry in encoded order. -/
def ofEntry (e : Entry) (ordinals : List Nat) : Except Failure (List ColumnImage) :=
  let tags := (types.flatMap e.tagsOf).mergeSort (fun a b => a.seq ≤ b.seq)
  tags.mapM (ofTag ((e.tagsOf .columnId).zip ordinals))

/-- The value of an image, by the type of its column. -/
def field (column : Column) (tag : Tag) : Except Failure Field := do
  match ← tag.value with
  | some bytes => Image.decode column bytes
  | none => return .null

/-- What a location tag says, added to what others said. -/
def locate (location : LobLocation) (tag : Tag) : Except Failure LobLocation :=
  match tag.type with
  | .lobOffset => tag.wide.map (fun n => { location with offset := n })
  | .lobLength => tag.wide.map (fun n => { location with length := n })
  | .lobPosition => tag.word.map (fun n => { location with position := n })
  | _ => .ok location

/-- A value with what a location tag says of it. -/
def applyLocation (tag : Tag) (v : ColumnValue) : Except Failure ColumnValue :=
  (locate (v.lob.getD .start) tag).map (fun l => { v with lob := some l })

/-- The column of an image, if the table has one at its place. -/
def column? (table : Table) (i : ColumnImage) : Option Column := table.column? i.ordinal

/-- Whether the image can be taken up; one without a column always can. -/
def readable (table : Table) (i : ColumnImage) : Bool :=
  match i.column? table with
  | none => true
  | some column =>
    if i.tag.type.isLocation then (locate .start i.tag).isOk else (field column i.tag).isOk

/-- Images beyond the columns of the table are passed over; the virtual column is no such image. -/
def warning? (table : Table) (i : ColumnImage) : Option Warning :=
  if i.ordinal ≠ 0 ∧ (i.column? table).isNone then
    some (.unknownColumn i.ordinal table.qualifiedName table.columns.length)
  else none

/-- What is said of the images up to the first that cannot be taken up. -/
def warnings (table : Table) (images : List ColumnImage) : List Warning :=
  (images.takeWhile (readable table)).filterMap (warning? table)

end ColumnImage

end ChangeCapture
