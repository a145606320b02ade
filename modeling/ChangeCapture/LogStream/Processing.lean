import ChangeCapture.Change.Assembly
import ChangeCapture.Entry.Reader
import ChangeCapture.LogStream.Desk

/-! What each kind of entry does to a stream. Whatever is held goes out before any entry but a
large-object write; a change is counted in its transaction before its record goes out. -/
namespace ChangeCapture

/-- A file with what is left of it to read. -/
structure OpenFile where
  reader : ChunkReader
  state : FileState
deriving DecidableEq, Repr

/-- A file that is read on behalf of the one that includes it. -/
structure Included extends OpenFile where
  /-- No more records will come; some may still wait in the batch. -/
  exhausted : Bool
  /-- Data records handed on so far. -/
  delivered : Nat
deriving DecidableEq, Repr

namespace Desk

variable (o : StreamOptions)

/-- Asks the parse gate. -/
def parses (input : GateInput) : Action Desk Bool := do
  modify (fun d => d.asked o.gates .parse input)
  return o.gates .parse input

def observe (e : Entry) (observation : Observation) : Action Desk Unit := do
  let (t, finished) ← .ofExcept ((← get).transactions.observe e observation)
  modify (fun d => d.withTransactions o.gates t finished)

/-- The features that a header entry declares. -/
def header (e : Entry) : Action Desk Unit := do
  let bits ← .ofExcept (e.word? .features)
  modify (fun d => { d with state := { d.state with features := ⟨.ofNat (bits.getD 0)⟩ } })

def metadata (e : Entry) (offset : StreamOffset) : Action Desk Unit := do
  let catalog := (← get).state.cache.catalog
  let schema ← .ofExcept (Catalog.entrySchema catalog.dictionary e)
  if ← parses o ⟨e.kind, schema, offset⟩ then
    let (catalog, document) ← .ofExcept (catalog.applyMetadata e)
    modify (fun d => d.withCatalog catalog)
    if let some document := document then
      modify (fun d => d.emit o.gates ⟨offset, .metadata document⟩)

def assemble (e : Entry) (id : RecordId) : Action Desk Change := do
  let assembly := (← get).state.cache.catalog.assemble o.config.view id e
  modify (fun d => (d.withCatalog assembly.catalog).warn assembly.warnings)
  .ofExcept assembly.result

/-- Offers a row to the records that are held, where rows are put together. -/
def offer (offset : StreamOffset) (c : Change) : Action Desk (Offered Change) := do
  match c with
  | .row record =>
    if o.config.mergeMultipart then
      let (cache, offered) := (← get).state.cache.offer offset record
      modify (fun d => d.withCache cache)
      return (← .ofExcept offered).map .row
    else return .emitted c
  | .vector _ => return .emitted c

def change (e : Entry) (id : RecordId) (offset : StreamOffset) : Action Desk Unit := do
  let state := (← get).state
  if o.config.requireFeatures && !state.features.supportsData then throw .unsupportedFeatures
  else
    let schema ← .ofExcept (Catalog.entrySchema state.cache.catalog.dictionary e)
    let observation : Observation := ⟨state.file.uid, id, offset, schema⟩
    if ← parses o ⟨e.kind, schema, offset⟩ then
      match ← offer o offset (← assemble o e id) with
      | .fragment => return ()
      | .held => observe o e observation
      | .emitted change =>
        observe o e observation
        modify (fun d => d.emit o.gates ⟨offset, .change change⟩)
    else observe o e observation

/-- Compares what the statistics announce with what the last included file delivered. -/
def includeStats (e : Entry) : Action Desk Unit := do
  if let some announced ← .ofExcept (e.wide? .includeRows) then
    let state := (← get).state
    modify (fun d => { d with state := { d.state with includedRecords := none } })
    match state.includedRecords with
    | none => modify (fun d => d.warn [.statsWithoutFile e.offset state.file])
    | some delivered =>
      if delivered ≠ announced then modify (fun d => d.warn [.rowCount announced delivered])

/-- The included file, which starts from what its parent knows. -/
def includedFile (parent : FileState) (e : Entry) (offset : StreamOffset) :
    Except Failure Included := do
  let fileId := (← e.wide? .includeFileId).getD 0
  let name := (← e.text? .includeFileName).getD ""
  let start := (← e.word? .includeStart).getD 0
  let file := LogFile.ofUid fileId name
  match o.includes with
  | none => .error (.missingIncludeSource file.name)
  | some includes =>
    let source ← includes.find file
    match ChunkReader.fileHeader (.ofSource source) with
    | (.error f, _) => .error f
    | (.ok _, reader) =>
      return {
        reader
        state := {
          file
          phase := .headerRead
          cache := parent.cache
          features := parent.features
          entrySeq := start - 1
          reportAt := some offset
          batch := []
          includedRecords := none }
        exhausted := false
        delivered := 0 }

def includeFile (e : Entry) (offset : StreamOffset) : Action Desk Included := do
  let included ← .ofExcept (includedFile o (← get).state e offset)
  modify (fun d => { d with state := { d.state with phase := .paused, includedRecords := none } })
  return included

/-- Gives the next entry its number, and the offset that its records are reported at. -/
def number (e : Entry) : Action Desk (RecordId × StreamOffset) := do
  modify counted
  let state := (← get).state
  return (⟨state.file.sequence, state.entrySeq⟩,
    state.reportAt.getD ⟨state.file.uid, e.offset⟩)

/-- Processes an entry, which may open another file. -/
def process (e : Entry) : Action Desk (Option Included) := do
  let (id, offset) ← number e
  if e.kind ≠ .lobWrite then modify (release o.gates)
  match e.kind with
  | .unknown =>
    modify (fun d => d.warn
      [.unknownEntry e.major.toNat e.subtype.toNat e.offset d.state.file])
    return none
  | .header => header e; return none
  | .footer =>
    modify (fun d => { d with state := { d.state with phase := .done } })
    return none
  | .metadata => metadata o e offset; return none
  | .commit =>
    observe o e ⟨(← get).state.file.uid, id, offset, none⟩
    return none
  | .includeFile => return some (← includeFile o e offset)
  | .includeStats => includeStats e; return none
  | _ => change o e id offset; return none

end Desk

end ChangeCapture
