import ChangeCapture.Change.Assembly
import ChangeCapture.Json.Members
import ChangeCapture.Json.Reader

/-! How a stream is to be read. Every setting may be left out. -/
namespace ChangeCapture

structure Config where
  /-- Records in a batch, before it is handed out. -/
  batchSize : Option Nat
  /-- Puts rows together that come in parts. -/
  mergeMultipart : Bool
  view : ChangeView
  /-- Refuses changes in files that do not declare the features to decode them. -/
  requireFeatures : Bool
deriving DecidableEq, Repr

def ChangeView.ofName? : String → Option ChangeView
  | "row" => some .row
  | "vector" => some .vector
  | _ => none

namespace Config

def defaultBatchSize : Nat := 1000

def default : Config := ⟨none, false, .row, true⟩

/-- A batch has room for one record at least. -/
def effectiveBatchSize (c : Config) : Nat := max 1 (c.batchSize.getD defaultBatchSize)

def names : List String := ["batch_size", "merge_multipart", "view", "require_features"]

def ofJson? (j : Json) : Option Config := do
  let m ← Json.Members.of? names j
  return {
    batchSize := ← m.defaulted "batch_size" default.batchSize (Json.nullable? (Json.nat? 64))
    mergeMultipart := ← m.defaulted "merge_multipart" default.mergeMultipart Json.bool?
    view := ← m.defaulted "view" default.view (fun v => (Json.unit? v).bind ChangeView.ofName?)
    requireFeatures := ← m.defaulted "require_features" default.requireFeatures Json.bool? }

def ofJsonText? (text : String) : Option Config := (Json.parse? text).bind ofJson?

end Config

end ChangeCapture
