import ChangeCapture.Proofs.Draining
import ChangeCapture.Proofs.Overlooking
import ChangeCapture.Proofs.Tallies

/-! An entry where everything is decoded, and where only the entries of some tables are. The desk of
the second reading shadows that of the first: it is at the same place, has the changes of the
selected tables, and knows what the first one knows but for what overlooked entries teach. -/
namespace ChangeCapture

/-- The same options for some tables only. -/
def StreamOptions.choosing (o : StreamOptions) (names : List String) : StreamOptions :=
  { o with gates := .tables names }

def DomainRecord.isChange (r : DomainRecord) : Bool := r.change?.isSome

/-- Whether a record belongs to one of some tables, or to none. -/
def DomainRecord.isOf (names : List String) (r : DomainRecord) : Bool :=
  r.schema?.all names.contains

namespace Processed

/-- Whether an entry is decoded where only some tables are. -/
def isSelected (names : List String) (p : Processed) : Bool :=
  (Catalog.entrySchema p.desk.known.dictionary p.entry).toOption.join.all names.contains

theorem isSelected_eq {names : List String} {p : Processed} {schema : Option String}
    (named : Catalog.entrySchema p.desk.known.dictionary p.entry = .ok schema) :
    p.isSelected names = schema.all names.contains := by
  rw [isSelected, named]
  rfl

end Processed

/-- What a reading that decodes everything has processed, seen from one of some tables only. -/
structure Overview where
  options : StreamOptions
  names : List String
  processed : List Processed

namespace Overview

variable (v : Overview)

/-- Whether an entry is overlooked: a change or a definition of a table that is not selected. -/
def overlooks (p : Processed) : Bool :=
  (p.entry.kind.isChange || p.entry.kind = .metadata) && !p.isSelected v.names

/-- Whether an entry moves what is known of a table. -/
def teaches (p : Processed) (id : Nat) : Bool :=
  p.desk.known.dictionary.get? id ≠ (p.after v.options).known.dictionary.get? id

/-- Whether an overlooked entry adds to what is known of a table. -/
def taught (id : Nat) : Bool := v.processed.any (fun p => v.overlooks p && v.teaches p id)

/-- Whether an entry describes a table that nothing was known of. -/
def introduces (p : Processed) (id : Nat) : Bool :=
  v.teaches p id && (p.desk.known.dictionary.get? id).isNone

/-- Whether an entry defines a table by a name that is selected. -/
def defines (p : Processed) (id : Nat) : Bool :=
  p.entry.kind = .metadata && (Catalog.documentOf p.entry).toOption.any
    (fun d => d.objectId = some id && v.names.contains d.qualifiedName)

/-- Whether a table may be unknown, or known by a selected name, only because entries were
overlooked. -/
def misled (id : Nat) : Bool :=
  v.processed.any (fun p => v.overlooks p && v.introduces p id || v.defines p id)

/-- Whether an overlooked definition adds to the document of a name. -/
def hidden (name : String) : Bool :=
  v.processed.any (fun p => v.overlooks p && p.entry.kind = .metadata &&
    p.desk.known.schemas.get? name ≠ (p.after v.options).known.schemas.get? name)

/-- Whether no overlooked definition is of the name of the one that an entry carries. -/
def shows (p : Processed) : Bool :=
  (Catalog.documentOf p.entry).toOption.all (fun d => !v.hidden d.qualifiedName)

/-- An entry of which a reading of the selected tables makes the same, or which it overlooks without
being any the worse for it. -/
structure Separates (p : Processed) : Prop where
  /-- Selected changes are decoded by what no overlooked entry has a part in. -/
  decoded : p.entry.kind.isChange → p.isSelected v.names → v.taught p.entry.tableId = false ∧
    ∀ t ∈ (p.after v.options).known.dictionary.get? p.entry.tableId,
      v.hidden t.qualifiedName = false
  /-- Entries that are to be overlooked are known to be so, or are old definitions. -/
  overlooked : v.overlooks p → (∀ id ∈ p.entry.lookup?, v.taught id → v.misled id = false) ∨
    p.entry.kind = .metadata ∧ (p.after v.options).known = p.desk.known ∧ v.shows p
  /-- The record of a change belongs to the table that it is selected by. -/
  named : p.entry.kind.isChange → ∀ r ∈ p.records v.options, r.isChange →
    r.isOf v.names = p.isSelected v.names
  /-- Selected definitions are known to be so, and follow those that they follow in the whole file. -/
  defined : p.entry.kind = .metadata → p.isSelected v.names →
    (∀ id ∈ p.entry.lookup?, v.taught id = false) ∧ v.shows p

instance (p : Processed) : Decidable (v.Separates p) :=
  decidable_of_iff (_ ∧ _ ∧ _ ∧ _)
    ⟨fun ⟨decoded, overlooked, named, defined⟩ => ⟨decoded, overlooked, named, defined⟩,
      fun ⟨decoded, overlooked, named, defined⟩ => ⟨decoded, overlooked, named, defined⟩⟩

variable {v} {p : Processed}

theorem same_of_untaught (member : p ∈ v.processed) (overlooked : v.overlooks p) {id : Nat}
    (untaught : ¬ v.taught id) :
    (p.after v.options).known.dictionary.get? id = p.desk.known.dictionary.get? id := by
  by_contra moved
  exact untaught (List.any_eq_true.mpr ⟨p, member, by simp [overlooked, teaches, Ne.symm moved]⟩)

theorem misled_of_introduced (member : p ∈ v.processed) (overlooked : v.overlooks p) {id : Nat}
    (before : p.desk.known.dictionary.get? id = none)
    (after : (p.after v.options).known.dictionary.get? id ≠ none) : v.misled id :=
  List.any_eq_true.mpr ⟨p, member, by simp [overlooked, introduces, teaches, before, after.symm]⟩

theorem misled_of_defined (member : p ∈ v.processed) (metadata : p.entry.kind = .metadata)
    {d : SchemaDocument} {id : Nat} (carried : Catalog.documentOf p.entry = .ok d)
    (numbered : d.objectId = some id) (selected : v.names.contains d.qualifiedName) :
    v.misled id := by
  refine List.any_eq_true.mpr ⟨p, member, ?_⟩
  have defined : v.defines p id := by
    rw [defines, carried]
    simpa [metadata, numbered, Except.toOption] using selected
  simp [defined]

theorem same_of_shown (member : p ∈ v.processed) (overlooked : v.overlooks p)
    (metadata : p.entry.kind = .metadata) {name : String} (shown : ¬ v.hidden name) :
    (p.after v.options).known.schemas.get? name = p.desk.known.schemas.get? name := by
  by_contra moved
  exact shown (List.any_eq_true.mpr ⟨p, member, by simp [overlooked, metadata, Ne.symm moved]⟩)

theorem shown_of_shows (shows : v.shows p) {d : SchemaDocument}
    (carried : Catalog.documentOf p.entry = .ok d) : ¬ v.hidden d.qualifiedName := by
  rw [Overview.shows, carried] at shows
  simpa [Except.toOption] using shows

theorem documents_lag (member : p ∈ v.processed) (overlooked : v.overlooks p)
    (metadata : p.entry.kind = .metadata) :
    SchemaCache.Lags (fun name => v.hidden name) (p.after v.options).known.schemas
      p.desk.known.schemas := by
  intro name shown
  have same : SchemaCache.Lags (fun name => v.hidden name) p.desk.known.schemas
    p.desk.known.schemas := .refl _
  rw [same_of_shown member overlooked metadata shown]
  exact same name shown

/-- What an entry does that is overlooked, if it does the same to documents that are not hidden. -/
theorem overlooks_after (member : p ∈ v.processed) (overlooked : v.overlooks p)
    (documents : SchemaCache.Lags (fun name => v.hidden name) (p.after v.options).known.schemas
      p.desk.known.schemas) :
    Catalog.Overlooks (fun id => v.taught id) (fun id => v.misled id) (fun name => v.hidden name)
      p.desk.known (p.after v.options).known where
  develops := p.develops v.options
  same _ untaught := same_of_untaught member overlooked untaught
  introduced _ before after := misled_of_introduced member overlooked before after
  documents := documents

end Overview

namespace Desk

open ChangeCapture.Action

/-- What is left of a desk without transactions, notices and what becomes of included files. -/
structure Shape where
  place : FileState
  parts : Parts
  known : Catalog
  changes : List DomainRecord

def shape (d : Desk) : Shape where
  place := { d.state with cache := .empty, batch := [], includedRecords := none }
  parts := d.state.cache.parts
  known := d.known
  changes := d.state.batch.filter DomainRecord.isChange

@[simp] theorem shape_warn (d : Desk) (warnings : List Warning) :
    (d.warn warnings).shape = d.shape := by
  induction warnings generalizing d with
  | nil => rfl
  | cons w warnings ih => exact ih (d.say (.warning w))

theorem shape_addRecord (d : Desk) (r : DomainRecord) :
    (d.addRecord r).shape = { d.shape with
      changes := d.shape.changes ++ [r].filter DomainRecord.isChange } := by
  simp [shape, addRecord, known, List.filter_append]

variable {o : StreamOptions}

theorem shape_emit (delivering : o.Delivering) (d : Desk) (r : DomainRecord) :
    (d.emit o.gates r).shape = { d.shape with
      changes := d.shape.changes ++ [r].filter DomainRecord.isChange } := by
  obtain ⟨persists, passes⟩ := delivering (.ofRecord r)
  unfold emit
  dsimp only
  rw [if_pos persists, if_pos passes]
  exact shape_addRecord _ r

theorem shape_emit_other (delivering : o.Delivering) (d : Desk) {r : DomainRecord}
    (other : r.isChange = false) : (d.emit o.gates r).shape = d.shape := by
  rw [shape_emit delivering, List.filter_cons_of_neg (by simp [other]), List.filter_nil,
    List.append_nil]

theorem shape_withTransactions (delivering : o.Delivering) (d : Desk) (t : Transactions)
    (finished : Option TransactionSummary) :
    (d.withTransactions o.gates t finished).shape = d.shape := by
  cases finished with
  | none => rfl
  | some s => exact shape_emit_other delivering _ rfl

theorem shape_settle (e : Entry) (announced : Nat) (d : Desk) :
    (settle e announced d).shape = d.shape := by
  unfold settle
  dsimp only
  split
  · exact shape_warn _ _
  · split
    · exact shape_warn _ _
    · rfl

theorem shape_observe (delivering : o.Delivering) (e : Entry) (n : Observation) :
    Keeps shape (observe o e n) := by
  intro d
  rw [observe_run]
  split
  · rfl
  · exact shape_withTransactions delivering ..

theorem observe_ok {o' : StreamOptions} {e : Entry} {n : Observation} (n' : Observation) {d : Desk}
    (d' : Desk) (ok : (observe o e n d).1 = .ok ()) : (observe o' e n' d').1 = .ok () := by
  rw [observe_run, Transactions.observe_eq] at ok ⊢
  have readable : ∃ x, Sighting.read e n' = .ok x := by
    cases read : Sighting.read e n with
    | error f =>
      rw [read] at ok
      cases ok
    | ok x =>
      obtain ⟨xid, named, read⟩ := bind_ok read
      rw [Sighting.read, named]
      cases xid with
      | none => exact ⟨_, rfl⟩
      | some xid =>
        obtain ⟨scn, numbered, read⟩ := bind_ok read
        obtain ⟨time, timed, read⟩ := bind_ok read
        refine ⟨some ⟨xid, e, n', scn, time.bind Timestamp.ofUnix?⟩, ?_⟩
        show (e.wide? .scn >>= fun scn => e.wide? .timestamp >>= fun time => _) = _
        rw [numbered, timed]
        rfl
  obtain ⟨x, read⟩ := readable
  rw [read]
  cases x <;> rfl

theorem release_eq {d : Desk} (nothing : d.state.cache.parts = ∅) : d.release o.gates = d := by
  obtain ⟨⟨file, phase, ⟨catalog, parts, current⟩, features, seq, at_, batch, counted⟩, j⟩ := d
  obtain rfl : parts = ∅ := nothing
  rfl

theorem cleared_eq {d : Desk} (nothing : d.state.cache.parts = ∅) (e : Entry) :
    d.cleared o e = d.counted := by
  unfold cleared
  split
  · exact release_eq nothing
  · rfl

/-- The desk of a reading of some tables, next to that of a reading that decodes everything. -/
structure Shape.Shadows (v : Overview) (a b : Shape) : Prop where
  place : b.place = a.place
  nothing : a.parts = ∅
  nothing' : b.parts = ∅
  known : Catalog.Lags v.names (fun id => v.taught id) (fun id => v.misled id)
    (fun name => v.hidden name) a.known b.known
  changes : b.changes = a.changes.filter (DomainRecord.isOf v.names)

theorem Shape.Shadows.move {v : Overview} {a b : Shape} (shadows : Shape.Shadows v a b)
    (f : FileState → FileState) :
    Shape.Shadows v { a with place := f a.place } { b with place := f b.place } :=
  { shadows with place := congrArg f shadows.place }

theorem offer_apart (apart : o.config.mergeMultipart = false) (offset : StreamOffset) (c : Change) :
    offer o offset c = pure (.emitted c) := by
  cases c with
  | vector => rfl
  | row r => exact if_neg (by simp [apart])

theorem change_apart (apart : o.config.mergeMultipart = false) {e : Entry} {id : RecordId}
    {offset : StreamOffset} {d : Desk} {schema : Option String}
    (able : (o.config.requireFeatures && !d.state.features.supportsData) = false)
    (named : Catalog.entrySchema d.known.dictionary e = .ok schema) :
    change o e id offset d =
      (if o.gates .parse ⟨e.kind, schema, offset⟩ then assemble o e id >>= fun c =>
          observe o e ⟨d.state.file.uid, id, offset, schema⟩ >>= fun _ =>
            modify (fun d => d.emit o.gates ⟨offset, .change c⟩)
        else observe o e ⟨d.state.file.uid, id, offset, schema⟩)
        (d.asked o.gates .parse ⟨e.kind, schema, offset⟩) := by
  have named : Catalog.entrySchema d.state.cache.catalog.dictionary e = .ok schema := named
  unfold change
  rw [bind_apply]
  show (if (o.config.requireFeatures && !d.state.features.supportsData) = true then _ else _ :
    Action Desk Unit) d = _
  rw [if_neg (by simp [able]), bind_apply, named, ofExcept_apply]
  dsimp only
  rw [bind_apply, parses_apply]
  dsimp only
  split
  · simp only [offer_apart apart, pure_bind]
  · rfl

/-- A change entry goes through only where its file can be decoded and its table is named. -/
theorem change_able {e : Entry} {id : RecordId} {offset : StreamOffset} {d m : Desk}
    (done : change o e id offset d = (.ok (), m)) :
    (o.config.requireFeatures && !d.state.features.supportsData) = false ∧
      ∃ schema, Catalog.entrySchema d.known.dictionary e = .ok schema := by
  obtain ⟨_, _, got, done⟩ := Action.bind_ok done
  cases got
  dsimp only at done
  split at done
  · cases done
  next able =>
    obtain ⟨schema, _, named, -⟩ := Action.bind_ok done
    exact ⟨Bool.eq_false_iff.mpr able, schema, (ofExcept_run named).1⟩

section Change

variable {e : Entry} {id : RecordId} {offset : StreamOffset} {d m : Desk} {c : Change}

/-- The desk after the record of a change has gone out. -/
def Shape.withChange (a : Shape) (offset : StreamOffset) (c : Change) (known : Catalog) : Shape :=
  { a with known, changes := a.changes ++ [⟨offset, .change c⟩] }

theorem assemble_ok {k : Desk} (assembled : assemble o e id d = (.ok c, k)) :
    (d.known.assemble o.config.view id e).result = .ok c ∧
      k.shape = { d.shape with known := (d.known.assemble o.config.view id e).catalog } := by
  rw [assemble_run] at assembled
  obtain ⟨result, rfl⟩ := Prod.mk.inj assembled
  exact ⟨result, shape_warn _ _⟩

theorem shape_delivered (delivering : o.Delivering) {n : Observation}
    (done : (observe o e n >>= fun _ => modify (fun d => d.emit o.gates ⟨offset, .change c⟩)) d =
      (.ok (), m)) : m.shape = d.shape.withChange offset c d.shape.known := by
  obtain ⟨_, k, observed, done⟩ := Action.bind_ok done
  cases done
  rw [shape_emit delivering, (shape_observe delivering e n).eq observed]
  rfl

theorem change_decoded (delivering : o.Delivering) (apart : o.config.mergeMultipart = false)
    {schema : Option String} (named : Catalog.entrySchema d.known.dictionary e = .ok schema)
    (passes : o.gates .parse ⟨e.kind, schema, offset⟩ = true)
    (done : change o e id offset d = (.ok (), m)) :
    ∃ c, (d.known.assemble o.config.view id e).result = .ok c ∧
      (∃ n k, (observe o e n k).1 = .ok ()) ∧
      m.shape = d.shape.withChange offset c (d.known.assemble o.config.view id e).catalog := by
  rw [change_apart apart (change_able done).1 named, if_pos passes] at done
  obtain ⟨c, k, assembled, done⟩ := Action.bind_ok done
  obtain ⟨result, shape⟩ := assemble_ok assembled
  have delivered := shape_delivered delivering done
  obtain ⟨_, _, observed, -⟩ := Action.bind_ok done
  refine ⟨c, result, ⟨_, k, by rw [observed]⟩, ?_⟩
  rw [delivered, shape]
  rfl

variable (offset) in
theorem change_of_decoded (delivering : o.Delivering) (apart : o.config.mergeMultipart = false)
    (able : (o.config.requireFeatures && !d.state.features.supportsData) = false)
    {schema : Option String} (named : Catalog.entrySchema d.known.dictionary e = .ok schema)
    (passes : o.gates .parse ⟨e.kind, schema, offset⟩ = true)
    (result : (d.known.assemble o.config.view id e).result = .ok c)
    (observable : ∀ n k, (observe o e n k).1 = .ok ()) :
    ∃ m, change o e id offset d = (.ok (), m) ∧
      m.shape = d.shape.withChange offset c (d.known.assemble o.config.view id e).catalog := by
  have runs : ∃ m, change o e id offset d = (.ok (), m) := by
    let asked := d.asked o.gates .parse ⟨e.kind, schema, offset⟩
    have assembled : assemble o e id asked = (.ok c, (assemble o e id asked).2) :=
      Prod.ext result rfl
    have observed := observable ⟨d.state.file.uid, id, offset, schema⟩ (assemble o e id asked).2
    rw [change_apart apart able named, if_pos passes, bind_apply, assembled]
    dsimp only
    rw [bind_apply]
    split
    · exact ⟨_, rfl⟩
    next failed =>
      rw [failed] at observed
      cases observed
  obtain ⟨m, done⟩ := runs
  obtain ⟨c', result', -, shape⟩ := change_decoded delivering apart named passes done
  rw [result] at result'
  cases result'
  exact ⟨m, done, shape⟩

variable (offset) in
/-- A change entry that is not decoded leaves the desk to the next one. -/
theorem change_refused (delivering : o.Delivering) (apart : o.config.mergeMultipart = false)
    (able : (o.config.requireFeatures && !d.state.features.supportsData) = false)
    {schema : Option String} (named : Catalog.entrySchema d.known.dictionary e = .ok schema)
    (refuses : o.gates .parse ⟨e.kind, schema, offset⟩ = false)
    (observable : ∀ n k, (observe o e n k).1 = .ok ()) :
    ∃ m, change o e id offset d = (.ok (), m) ∧ m.shape = d.shape := by
  let n : Observation := ⟨d.state.file.uid, id, offset, schema⟩
  let asked := d.asked o.gates .parse ⟨e.kind, schema, offset⟩
  refine ⟨(observe o e n asked).2, ?_, shape_observe delivering e n asked⟩
  rw [change_apart apart able named, if_neg (by simp [refuses])]
  exact Prod.ext (observable n asked) rfl

end Change

section Metadata

variable {e : Entry} {offset : StreamOffset} {d : Desk} {schema : Option String}

theorem metadata_named (named : Catalog.entrySchema d.known.dictionary e = .ok schema) :
    metadata o e offset d =
      (if o.gates .parse ⟨e.kind, schema, offset⟩ then
          Action.ofExcept (d.known.applyMetadata e) >>= fun taken => do
            modify (fun d => d.withCatalog taken.1)
            if let some document := taken.2 then
              modify (fun d => d.emit o.gates ⟨offset, .metadata document⟩)
        else pure ()) (d.asked o.gates .parse ⟨e.kind, schema, offset⟩) := by
  have named : Catalog.entrySchema d.state.cache.catalog.dictionary e = .ok schema := named
  unfold metadata
  rw [bind_apply]
  show (Action.ofExcept _ >>= _ : Action Desk Unit) d = _
  rw [bind_apply, named, ofExcept_apply]
  dsimp only
  rw [bind_apply, parses_apply]
  rfl

theorem metadata_decoded (delivering : o.Delivering)
    (named : Catalog.entrySchema d.known.dictionary e = .ok schema)
    (passes : o.gates .parse ⟨e.kind, schema, offset⟩ = true) {known : Catalog}
    {found : Option SchemaDocument} (applied : d.known.applyMetadata e = .ok (known, found)) :
    ∃ m, metadata o e offset d = (.ok (), m) ∧ m.shape = { d.shape with known } := by
  rw [metadata_named named, if_pos passes, bind_apply, applied, ofExcept_apply]
  cases found with
  | none => exact ⟨_, rfl, rfl⟩
  | some document => exact ⟨_, rfl, shape_emit_other delivering _ rfl⟩

variable (offset) in
theorem metadata_refused (named : Catalog.entrySchema d.known.dictionary e = .ok schema)
    (refuses : o.gates .parse ⟨e.kind, schema, offset⟩ = false) :
    ∃ m, metadata o e offset d = (.ok (), m) ∧ m.shape = d.shape := by
  rw [metadata_named named, if_neg (by simp [refuses])]
  exact ⟨_, rfl, rfl⟩

/-- A definition goes through only where its table is named, and where it is accepted if it is
decoded. -/
theorem metadata_able {m : Desk} (accepting : o.Accepting)
    (done : metadata o e offset d = (.ok (), m)) :
    ∃ schema known found, Catalog.entrySchema d.known.dictionary e = .ok schema ∧
      d.known.applyMetadata e = .ok (known, found) := by
  obtain ⟨_, _, got, done⟩ := Action.bind_ok done
  cases got
  obtain ⟨schema, _, named, done⟩ := Action.bind_ok done
  obtain ⟨named, rfl⟩ := ofExcept_run named
  rw [bind_apply, parses_apply] at done
  dsimp only at done
  rw [accepting, if_pos rfl] at done
  obtain ⟨⟨known, found⟩, _, applied, -⟩ := Action.bind_ok done
  exact ⟨schema, known, found, named, (ofExcept_run applied).1⟩

end Metadata

section Shadowing

variable {v : Overview} {p : Processed} {d d' m : Desk}

theorem features_eq (shadows : Shape.Shadows v d.shape d'.shape) :
    d'.state.features = d.state.features :=
  (congrArg FileState.features shadows.place :)

theorem delivering_choosing (o : StreamOptions) (names : List String) :
    (o.choosing names).Delivering := fun _ => ⟨rfl, rfl⟩

theorem change_shadows (accepting : v.options.Accepting)
    (apart : v.options.config.mergeMultipart = false) (row : p.entry.kind.isChange)
    (member : p ∈ v.processed) (separates : v.Separates p) (before : p.desk.known = d.known)
    (after : (p.after v.options).shape = m.shape) (shadows : Shape.Shadows v d.shape d'.shape)
    {id : RecordId} {offset : StreamOffset}
    (done : change v.options p.entry id offset d = (.ok (), m)) :
    ∃ m', change (v.options.choosing v.names) p.entry id offset d' = (.ok (), m') ∧
      Shape.Shadows v m.shape m'.shape := by
  obtain ⟨able, schema, named⟩ := change_able done
  have features := features_eq shadows
  obtain ⟨c, result, ⟨_, _, observed⟩, shape⟩ :=
    change_decoded accepting.delivering apart named (accepting _ _) done
  have delivering := delivering_choosing v.options v.names
  have selects : p.isSelected v.names = schema.all v.names.contains :=
    Processed.isSelected_eq (before ▸ named)
  have own : DomainRecord.isOf v.names ⟨offset, .change c⟩ = schema.all v.names.contains := by
    have out : (⟨offset, .change c⟩ : DomainRecord) ∈
        (p.after v.options).shape.changes := by
      rw [after, shape]
      exact List.mem_append_right _ (List.mem_singleton.mpr rfl)
    obtain ⟨out, change⟩ := List.mem_filter.mp out
    exact (separates.named row _ out change).trans selects
  have learned : (p.after v.options).known =
      (d.known.assemble v.options.config.view id p.entry).catalog :=
    congrArg Shape.known (after.trans shape)
  cases chosen : schema.all v.names.contains with
  | true =>
    obtain ⟨untaught, shown⟩ := separates.decoded row (selects.trans chosen)
    rw [learned] at shown
    replace untaught : ¬ v.taught p.entry.tableId := by simp [untaught]
    have named' := shadows.known.entrySchema named fun id lookup =>
      Entry.tableId_of_lookup? lookup ▸ untaught
    obtain ⟨result', lags⟩ :=
      shadows.known.assemble untaught (fun table found => by simp [shown table found]) result
    obtain ⟨m', done', shape'⟩ := change_of_decoded offset delivering apart
      (features ▸ able) named' chosen result' fun n k => observe_ok n k observed
    refine ⟨m', done', ?_⟩
    rw [shape, shape']
    refine ⟨shadows.place, shadows.nothing, shadows.nothing', lags, ?_⟩
    rw [Shape.withChange, Shape.withChange, List.filter_append, shadows.changes,
      List.filter_cons_of_pos (own.trans chosen), List.filter_nil]
  | false =>
    have overlooked : v.overlooks p := by simp [Overview.overlooks, row, selects, chosen]
    have aware : ∀ id ∈ p.entry.lookup?, v.taught id → v.misled id = false := by
      refine (separates.overlooked overlooked).resolve_right fun ⟨metadata, _⟩ => ?_
      rw [metadata] at row
      cases row
    obtain ⟨schema', named', refused⟩ := shadows.known.refuses named chosen fun id lookup told =>
      by simp [aware id lookup told]
    obtain ⟨m', done', shape'⟩ := change_refused offset delivering apart
      (features ▸ able) named' refused fun n k => observe_ok n k observed
    refine ⟨m', done', ?_⟩
    rw [shape, shape']
    refine ⟨shadows.place, shadows.nothing, shadows.nothing', ?_, ?_⟩
    · have overlooks := Overview.overlooks_after member overlooked
      rw [before, learned] at overlooks
      have confined := Catalog.confined_assemble d.known v.options.config.view id p.entry
      exact shadows.known.overlook (overlooks fun name _ => confined.documents name not_false)
    · rw [Shape.withChange, List.filter_append, shadows.changes,
        List.filter_cons_of_neg (by simp [own, chosen]), List.filter_nil, List.append_nil]

/-- A definition that both readings decode. -/
theorem decoded_shadows (definition : p.entry.kind = .metadata) (member : p ∈ v.processed)
    (shows : v.shows p) (shadows : Shape.Shadows v d.shape d'.shape) {offset : StreamOffset}
    {known : Catalog} {found : Option SchemaDocument}
    (applied : d.known.applyMetadata p.entry = .ok (known, found)) {schema : Option String}
    (named : Catalog.entrySchema d'.known.dictionary p.entry = .ok schema)
    (passes : schema.all v.names.contains = true) :
    ∃ m', metadata (v.options.choosing v.names) p.entry offset d' = (.ok (), m') ∧
      Shape.Shadows v { d.shape with known } m'.shape := by
  obtain ⟨known', found', applied', lags⟩ := shadows.known.applyMetadata
    (fun document id carried numbered _ => by
      cases selected : v.names.contains document.qualifiedName with
      | true => exact .inl (Overview.misled_of_defined member definition carried numbered selected)
      | false => exact .inr rfl) (fun _ => Overview.shown_of_shows shows) applied
  obtain ⟨m', done, shape⟩ :=
    metadata_decoded (delivering_choosing v.options v.names) named passes applied'
  refine ⟨m', done, ?_⟩
  rw [shape]
  exact ⟨shadows.place, shadows.nothing, shadows.nothing', lags, shadows.changes⟩

/-- A definition that the second reading refuses, if that leaves it behind what the first one learns. -/
theorem refused_shadows {offset : StreamOffset} {schema : Option String}
    (named : Catalog.entrySchema d'.known.dictionary p.entry = .ok schema)
    (refuses : schema.all v.names.contains = false) {known : Catalog}
    (shadows : Shape.Shadows v { d.shape with known } d'.shape) :
    ∃ m', metadata (v.options.choosing v.names) p.entry offset d' = (.ok (), m') ∧
      Shape.Shadows v { d.shape with known } m'.shape := by
  obtain ⟨m', done, shape⟩ :=
    metadata_refused offset (o := v.options.choosing v.names) named refuses
  exact ⟨m', done, shape ▸ shadows⟩

theorem metadata_shadows (accepting : v.options.Accepting) (definition : p.entry.kind = .metadata)
    (member : p ∈ v.processed) (separates : v.Separates p) (before : p.desk.known = d.known)
    (after : (p.after v.options).shape = m.shape) (shadows : Shape.Shadows v d.shape d'.shape)
    {offset : StreamOffset} (done : metadata v.options p.entry offset d = (.ok (), m)) :
    ∃ m', metadata (v.options.choosing v.names) p.entry offset d' = (.ok (), m') ∧
      Shape.Shadows v m.shape m'.shape := by
  obtain ⟨schema, known, found, named, applied⟩ := metadata_able accepting done
  have selects : p.isSelected v.names = schema.all v.names.contains :=
    Processed.isSelected_eq (before ▸ named)
  have shape : m.shape = { d.shape with known } := by
    obtain ⟨_, done', shape⟩ :=
      metadata_decoded accepting.delivering named (accepting _ ⟨_, _, offset⟩) applied
    rw [done] at done'
    cases done'
    exact shape
  have learned : (p.after v.options).known = known := congrArg Shape.known (after.trans shape)
  rw [shape]
  cases chosen : schema.all v.names.contains with
  | true =>
    obtain ⟨untaught, shows⟩ := separates.defined definition (selects.trans chosen)
    have named' := shadows.known.entrySchema named fun id lookup => by simp [untaught id lookup]
    exact decoded_shadows definition member shows shadows applied named' chosen
  | false =>
    have overlooked : v.overlooks p := by simp [Overview.overlooks, definition, selects, chosen]
    rcases separates.overlooked overlooked with aware | ⟨-, stale, shows⟩
    · obtain ⟨schema', named', refuses⟩ := shadows.known.refuses named chosen
        fun id lookup told => by simp [aware id lookup told]
      have overlooks := Overview.overlooks_after member overlooked
        (Overview.documents_lag member overlooked definition)
      rw [before, learned] at overlooks
      exact refused_shadows named' refuses ⟨shadows.place, shadows.nothing, shadows.nothing',
        shadows.known.overlook overlooks, shadows.changes⟩
    · obtain ⟨schema', named'⟩ : ∃ schema', Catalog.entrySchema d'.known.dictionary p.entry =
          .ok schema' := by
        obtain ⟨-, given⟩ | ⟨id, -, found⟩ := Catalog.entrySchema_ok named
        · exact ⟨_, given _⟩
        · exact ⟨_, found _⟩
      cases passes : schema'.all v.names.contains with
      | true => exact decoded_shadows definition member shows shadows applied named' passes
      | false =>
        have nothing : known = d.known := by rw [← learned, stale, before]
        exact refused_shadows named' passes (nothing ▸ shadows)

theorem header_shadows (shadows : Shape.Shadows v d.shape d'.shape) (e : Entry)
    (done : header e d = (.ok (), m)) :
    ∃ m', header e d' = (.ok (), m') ∧ Shape.Shadows v m.shape m'.shape := by
  obtain ⟨bits, _, found, declared⟩ := Action.bind_ok done
  obtain ⟨given, rfl⟩ := ofExcept_run found
  cases declared
  refine ⟨{ d' with state := { d'.state with features := ⟨.ofNat (bits.getD 0)⟩ } }, ?_,
    shadows.move fun f => { f with features := ⟨.ofNat (bits.getD 0)⟩ }⟩
  rw [header, bind_apply, given, ofExcept_apply]
  rfl

theorem observe_shadows (accepting : v.options.Accepting)
    (shadows : Shape.Shadows v d.shape d'.shape) {e : Entry} {n n' : Observation}
    (done : observe v.options e n d = (.ok (), m)) :
    ∃ m', observe (v.options.choosing v.names) e n' d' = (.ok (), m') ∧
      Shape.Shadows v m.shape m'.shape := by
  have kept := shape_observe (delivering_choosing v.options v.names) e n' d'
  refine ⟨_, Prod.ext (observe_ok n' d' (congrArg Prod.fst done)) rfl, ?_⟩
  rw [kept, (shape_observe accepting.delivering e n).eq done]
  exact shadows

theorem includeStats_shadows (shadows : Shape.Shadows v d.shape d'.shape) (e : Entry)
    (done : includeStats e d = (.ok (), m)) :
    ∃ m', includeStats e d' = (.ok (), m') ∧ Shape.Shadows v m.shape m'.shape := by
  rw [includeStats_eq] at done ⊢
  obtain ⟨announced, _, found, compared⟩ := Action.bind_ok done
  obtain ⟨given, rfl⟩ := ofExcept_run found
  rw [ofExcept_bind_apply, given]
  cases announced with
  | none =>
    cases compared
    exact ⟨_, rfl, shadows⟩
  | some n =>
    cases compared
    refine ⟨_, rfl, ?_⟩
    rwa [shape_settle, shape_settle]

/-- Included files of both readings, which differ in no more than what they start from. -/
structure Opened (i i' : Included) : Prop where
  reader : i'.reader = i.reader
  place : (Desk.mk i'.state .empty).shape.place = (Desk.mk i.state .empty).shape.place

theorem includedFile_shadows {o' : StreamOptions} (same : o'.includes = o.includes)
    {parent parent' : FileState} {e : Entry} {offset : StreamOffset} {i : Included}
    (features : parent'.features = parent.features)
    (opened : includedFile o parent e offset = .ok i) :
    ∃ i', includedFile o' parent' e offset = .ok i' ∧ Opened i i' := by
  obtain ⟨fileId, name, start, includes, source, header, identified, called, started, given, found,
    read, state⟩ := includedFile_ok opened
  have given' : o'.includes = some includes := same.trans given
  refine ⟨⟨⟨i.reader, { i.state with cache := parent'.cache }⟩, false, 0⟩, ?_, rfl, rfl⟩
  rw [state, ← features]
  simp only [includedFile, identified, called, started, given', found, read, bind, Except.bind]
  rfl

/-- What an entry comes to in both readings. -/
def Ends (v : Overview) (m : Desk) (opened : Option Included)
    (x : Except Failure (Option Included) × Desk) : Prop :=
  ∃ opened' m', x = (.ok opened', m') ∧ Shape.Shadows v m.shape m'.shape ∧
    Option.Rel Opened opened opened'

theorem ends_of_unit {x y : Action Desk Unit} {opened : Option Included}
    (keeps : x d = (.ok (), m) → ∃ m', y d' = (.ok (), m') ∧ Shape.Shadows v m.shape m'.shape)
    (done : (x >>= fun _ => pure none) d = (.ok opened, m)) :
    Ends v m opened ((y >>= fun _ => pure none) d') := by
  obtain ⟨_, _, first, ended⟩ := Action.bind_ok done
  cases ended
  obtain ⟨m', second, shadows⟩ := keeps first
  refine ⟨none, m', ?_, shadows, .none⟩
  rw [bind_apply, second]
  rfl

theorem perform_shadows (accepting : v.options.Accepting)
    (apart : v.options.config.mergeMultipart = false) (member : p ∈ v.processed)
    (separates : v.Separates p) (before : p.desk.known = d.known)
    (after : (p.after v.options).shape = m.shape) (shadows : Shape.Shadows v d.shape d'.shape)
    {id : RecordId} {offset : StreamOffset} {opened : Option Included}
    (done : perform v.options p.entry id offset d = (.ok opened, m)) :
    Ends v m opened (perform (v.options.choosing v.names) p.entry id offset d') := by
  by_cases row : p.entry.kind.isChange
  · rw [perform_change _ row] at done ⊢
    exact ends_of_unit
      (change_shadows accepting apart row member separates before after shadows) done
  cases kind : p.entry.kind with
  | insert | update | delete | lobWrite | lobErase | lobTrim | ddl | noOp =>
    simp [kind, EntryKind.isChange, EntryKind.isDataBearing] at row
  | metadata =>
    rw [perform_metadata _ kind] at done ⊢
    exact ends_of_unit (metadata_shadows accepting kind member separates before after shadows) done
  | footer =>
    rw [perform_footer _ kind] at done ⊢
    cases done
    exact ⟨none, _, rfl, shadows.move fun f => { f with phase := .done }, .none⟩
  | header =>
    rw [perform_header _ kind] at done ⊢
    exact ends_of_unit (header_shadows shadows p.entry) done
  | commit =>
    rw [perform_commit _ kind] at done ⊢
    exact ends_of_unit (observe_shadows accepting shadows) done
  | includeFile =>
    rw [perform_includeFile _ kind] at done ⊢
    split at done
    next i opens =>
      cases done
      have includes : (v.options.choosing v.names).includes = v.options.includes := rfl
      obtain ⟨i', opens', same⟩ := includedFile_shadows includes (features_eq shadows) opens
      rw [opens']
      exact ⟨some i', _, rfl, shadows.move fun f => { f with phase := .paused }, .some same⟩
    next => cases done
  | includeStats =>
    rw [perform_includeStats _ kind] at done ⊢
    exact ends_of_unit (includeStats_shadows shadows p.entry) done
  | unknown =>
    rw [perform_unknown _ kind] at done ⊢
    refine ends_of_unit (fun read => ?_) done
    cases read
    refine ⟨_, rfl, ?_⟩
    rwa [shape_warn, shape_warn]

/-- An entry in both readings. -/
theorem process_shadows (accepting : v.options.Accepting)
    (apart : v.options.config.mergeMultipart = false) (member : p ∈ v.processed)
    (separates : v.Separates p) (shadows : Shape.Shadows v p.desk.shape d'.shape)
    {opened : Option Included} (done : p.result v.options = .ok opened) :
    Ends v (p.after v.options) opened
      (process (v.options.choosing v.names) p.entry d') := by
  have next : d'.nextId = p.desk.nextId :=
    (congrArg (fun f : FileState => RecordId.mk f.file.sequence f.counted.entrySeq) shadows.place :)
  have reported : d'.reported p.entry = p.desk.reported p.entry :=
    (congrArg (fun f : FileState => f.reportAt.getD ⟨f.file.uid, p.entry.offset⟩) shadows.place :)
  have run : process v.options p.entry p.desk = (.ok opened, p.after v.options) := Prod.ext done rfl
  rw [process_apply, cleared_eq shadows.nothing] at run
  rw [process_apply, cleared_eq shadows.nothing', next, reported]
  have moved : Shape.Shadows v p.desk.counted.shape d'.counted.shape :=
    shadows.move FileState.counted
  exact perform_shadows accepting apart member separates (d := p.desk.counted) rfl rfl moved run

end Shadowing

end Desk

end ChangeCapture
