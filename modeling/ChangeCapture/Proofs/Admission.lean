import ChangeCapture.Proofs.Effects

/-! Definitions are taken in as a whole or not at all. The checks foretell what the updates do, so
that a metadata entry which updates one part of the catalog after the other, with nothing ever
undone, cannot stop half way. -/
namespace ChangeCapture

theorem evolveColumns_eq (table : String) (cached columns : List Column) :
    evolveColumns table cached columns =
      (checkColumns table cached columns).map (fun _ =>
        (reconcileColumns cached columns, Evolution.ofLengths cached.length columns.length)) := by
  unfold evolveColumns
  cases checkColumns table cached columns <;> rfl

theorem evolveColumns_ok {table : String} {cached columns result : List Column}
    {evolution : Evolution} (ok : evolveColumns table cached columns = .ok (result, evolution)) :
    checkColumns table cached columns = .ok () ∧ result = reconcileColumns cached columns := by
  rw [evolveColumns_eq] at ok
  cases checked : checkColumns table cached columns <;> rw [checked] at ok <;> cases ok
  exact ⟨rfl, rfl⟩

/-- The columns that are kept once a definition was taken in, next to those that were known. -/
def Reconciles (table : String) (known : Option (List Column)) (columns result : List Column) :
    Prop :=
  match known with
  | none => result = columns
  | some cached => ∃ evolution, evolveColumns table cached columns = .ok (result, evolution)

namespace Dictionary

/-- Takes in a definition step by step. -/
def take (t : Table) : Action Dictionary Bool := do
  match (← get).get? t.id with
  | none =>
    modify (put · t)
    return true
  | some cached =>
    let (columns, evolution) ←
      .ofExcept (evolveColumns t.qualifiedName cached.columns t.columns)
    if evolution = .unchanged ∧ columns = cached.columns ∧ cached.owner = t.owner ∧
        cached.name = t.name then
      return false
    else
      modify (put · (t.withColumns columns))
      return true

theorem take_eq (t : Table) : take t = Action.outright (apply · t) := by
  funext d
  show (match d.get? t.id with
    | none => _
    | some cached => _ : Action Dictionary Bool) d = _
  dsimp only [Action.outright, apply]
  cases d.get? t.id with
  | none => rfl
  | some cached =>
    dsimp only
    rw [Action.ofExcept_bind_apply]
    rcases evolveColumns t.qualifiedName cached.columns t.columns with f | ⟨columns, evolution⟩
    · rfl
    · dsimp only [bind, Except.bind]
      split <;> rfl

theorem check_eq_error_iff (d : Dictionary) (t : Table) (f : Failure) :
    d.check t = .error f ↔ d.apply t = .error f := by
  unfold check apply
  cases d.get? t.id with
  | none => exact ⟨nofun, nofun⟩
  | some cached =>
    dsimp only
    rw [evolveColumns_eq]
    cases checkColumns t.qualifiedName cached.columns t.columns with
    | error g => exact ⟨by rintro ⟨⟩; rfl, by rintro ⟨⟩; rfl⟩
    | ok =>
      dsimp only [Except.map, bind, Except.bind]
      split <;> exact ⟨nofun, nofun⟩

theorem get?_put (d : Dictionary) (t : Table) (id : Nat) :
    (d.put t).get? id = if id = t.id then some t else d.get? id := Registry.get?_insert ..

theorem get?_apply {d d' : Dictionary} {t : Table} {changed : Bool}
    (ok : d.apply t = .ok (d', changed)) :
    (∃ known, d'.get? t.id = some known ∧ known.owner = t.owner ∧ known.name = t.name ∧
      Reconciles t.qualifiedName ((d.get? t.id).map Table.columns) t.columns known.columns) ∧
    ∀ id ≠ t.id, d'.get? id = d.get? id := by
  unfold apply at ok
  cases found : d.get? t.id with
  | none =>
    rw [found] at ok
    cases ok
    refine ⟨⟨t, by simp [get?_put], rfl, rfl, rfl⟩, fun id other => ?_⟩
    rw [get?_put, if_neg other]
  | some cached =>
    rw [found] at ok
    obtain ⟨⟨columns, evolution⟩, evolved, ok⟩ := bind_ok ok
    dsimp only at ok
    split at ok <;> cases ok
    next same =>
      obtain ⟨-, columns, owner, name⟩ := same
      exact ⟨⟨cached, found, owner, name, evolution, columns ▸ evolved⟩, fun _ _ => rfl⟩
    next =>
      refine ⟨⟨t.withColumns columns, by simp [get?_put], rfl, rfl, evolution, evolved⟩,
        fun id other => ?_⟩
      rw [get?_put, Table.id_withColumns, if_neg other]

end Dictionary

namespace SchemaCache

/-- Takes in a document step by step. -/
def take (d : SchemaDocument) : Action SchemaCache SchemaChange := do
  match (← get).get? d.qualifiedName with
  | none =>
    modify (put · d)
    return .created
  | some cached =>
    if d.validSince ≤ cached.validSince then return .stale
    else
      let (columns, evolution) ←
        .ofExcept (evolveColumns d.qualifiedName cached.columns d.columns)
      modify (put · { d with columns })
      return .ofEvolution evolution

theorem take_eq (d : SchemaDocument) : take d = Action.outright (apply · d) := by
  funext s
  show (match s.get? d.qualifiedName with
    | none => _
    | some cached => _ : Action SchemaCache SchemaChange) s = _
  dsimp only [Action.outright, apply]
  cases s.get? d.qualifiedName with
  | none => rfl
  | some cached =>
    dsimp only
    split
    · rfl
    · rw [Action.ofExcept_bind_apply]
      rcases evolveColumns d.qualifiedName cached.columns d.columns with f | ⟨columns, evolution⟩
        <;> rfl

theorem check_eq_error_iff (s : SchemaCache) (d : SchemaDocument) (f : Failure) :
    s.check d = .error f ↔ s.apply d = .error f := by
  unfold check apply
  cases s.get? d.qualifiedName with
  | none => exact ⟨nofun, nofun⟩
  | some cached =>
    dsimp only
    by_cases newer : cached.validSince < d.validSince
    · rw [if_pos newer, if_neg (Nat.not_le_of_lt newer), evolveColumns_eq]
      cases checkColumns d.qualifiedName cached.columns d.columns with
      | error g => exact ⟨by rintro ⟨⟩; rfl, by rintro ⟨⟩; rfl⟩
      | ok => exact ⟨nofun, nofun⟩
    · rw [if_neg newer, if_pos (Nat.le_of_not_lt newer)]
      exact ⟨nofun, nofun⟩

theorem hasAsNew_iff (s : SchemaCache) (d : SchemaDocument) :
    s.hasAsNew d ↔
      ∃ cached, s.get? d.qualifiedName = some cached ∧ d.validSince ≤ cached.validSince := by
  unfold hasAsNew
  cases s.get? d.qualifiedName <;> simp

theorem apply_newer {s s' : SchemaCache} {d : SchemaDocument} {change : SchemaChange}
    (newer : s.hasAsNew d = false) (ok : s.apply d = .ok (s', change)) :
    change ≠ .stale ∧ ∃ columns, s' = s.put { d with columns } ∧
      Reconciles d.qualifiedName ((s.get? d.qualifiedName).map (·.columns)) d.columns columns := by
  unfold hasAsNew at newer
  unfold apply at ok
  cases found : s.get? d.qualifiedName with
  | none =>
    rw [found] at ok
    cases ok
    exact ⟨nofun, d.columns, rfl, rfl⟩
  | some cached =>
    rw [found] at ok newer
    dsimp only at ok
    rw [if_neg (by simpa using newer)] at ok
    obtain ⟨⟨columns, evolution⟩, evolved, ok⟩ := bind_ok ok
    cases ok
    exact ⟨by cases evolution <;> nofun, columns, rfl, evolution, evolved⟩

theorem get?_put (s : SchemaCache) (d : SchemaDocument) (name : String) :
    (s.put d).get? name = if name = d.qualifiedName then some d else s.get? name :=
  Registry.get?_insert ..

end SchemaCache

namespace Catalog

/-- The document that a metadata entry carries. -/
def documentOf (e : Entry) : Except Failure SchemaDocument := do
  match ← e.text? .ddlJson with
  | none => .error (.malformedEntry e.offset .noDocument)
  | some json => SchemaDocument.parse json

theorem applyMetadata_eq (c : Catalog) (e : Entry) :
    c.applyMetadata e = documentOf e >>= c.applyDocument := by
  unfold applyMetadata documentOf
  rcases e.text? .ddlJson with f | _ | json
  · rfl
  · rfl
  · dsimp only [bind, Except.bind]

/-- Whether both parts accept a document. -/
def checkDocument (c : Catalog) (d : SchemaDocument) : Except Failure Unit := do
  if let some t := d.table? then c.dictionary.check t
  c.schemas.check d

def inDictionary (x : Action Dictionary α) : Action Catalog α := fun c =>
  ((x c.dictionary).1, { c with dictionary := (x c.dictionary).2 })

def inSchemas (x : Action SchemaCache α) : Action Catalog α := fun c =>
  ((x c.schemas).1, { c with schemas := (x c.schemas).2 })

def takeTable : Option Table → Action Catalog Unit
  | some t => do let _ ← inDictionary (Dictionary.take t)
  | none => return ()

def takeNewer (d : SchemaDocument) : Action Catalog (Option SchemaDocument) := do
  .ofExcept ((← get).checkDocument d)
  takeTable d.table?
  if (← inSchemas (SchemaCache.take d)) = .stale then return none
  else return (← get).schemas.get? d.qualifiedName

/-- Takes in a document step by step: what a step changed stays, whatever becomes of the next. -/
def takeDocument (d : SchemaDocument) : Action Catalog (Option SchemaDocument) := do
  if (← get).schemas.hasAsNew d then return none else takeNewer d

/-- Takes in the document of a metadata entry step by step. -/
def takeMetadata (e : Entry) : Action Catalog (Option SchemaDocument) := do
  takeDocument (← .ofExcept (documentOf e))

theorem inSchemas_take (d : SchemaDocument) (c : Catalog) :
    inSchemas (SchemaCache.take d) c = match c.schemas.apply d with
      | .ok (schemas, change) => (.ok change, { c with schemas })
      | .error f => (.error f, c) := by
  rw [inSchemas, SchemaCache.take_eq]
  dsimp only [Action.outright]
  cases c.schemas.apply d <;> rfl

/-- The dictionary with the table that a document names. -/
def dictionaryWith (c : Catalog) (d : SchemaDocument) : Except Failure Dictionary :=
  match d.table? with
  | some t => (c.dictionary.apply t).map Prod.fst
  | none => .ok c.dictionary

theorem takeTable_eq (d : SchemaDocument) (c : Catalog) :
    takeTable d.table? c = match c.dictionaryWith d with
      | .ok dictionary => (.ok (), { c with dictionary })
      | .error f => (.error f, c) := by
  unfold dictionaryWith
  cases d.table? with
  | none => rfl
  | some t =>
    rw [takeTable, Action.bind_apply, inDictionary, Dictionary.take_eq]
    dsimp only [Action.outright]
    cases c.dictionary.apply t <;> rfl

theorem applyDocument_eq (c : Catalog) (d : SchemaDocument) :
    c.applyDocument d = if c.schemas.hasAsNew d then .ok (c, none) else do
      c.checkDocument d
      let dictionary ← c.dictionaryWith d
      let (schemas, _) ← c.schemas.apply d
      return (⟨dictionary, schemas⟩, schemas.get? d.qualifiedName) := by
  unfold applyDocument checkDocument dictionaryWith
  split
  · rfl
  · cases d.table? with
    | none => rfl
    | some t =>
      dsimp only [bind, Except.bind]
      cases c.dictionary.check t <;> rfl

theorem ok_of_foretold {x : Except Failure α} {y : Except Failure β} {a : α}
    (foretold : ∀ f, x = .error f ↔ y = .error f) (passed : x = .ok a) : ∃ b, y = .ok b := by
  cases y with
  | ok b => exact ⟨b, rfl⟩
  | error f =>
    rw [(foretold f).mpr rfl] at passed
    cases passed

theorem accepted_of_check {c : Catalog} {d : SchemaDocument} (checked : c.checkDocument d = .ok ()) :
    (∃ dictionary, c.dictionaryWith d = .ok dictionary) ∧ ∃ schemas, c.schemas.apply d = .ok schemas := by
  unfold checkDocument at checked
  unfold dictionaryWith
  cases table : d.table? with
  | none =>
    rw [table] at checked
    exact ⟨⟨_, rfl⟩, ok_of_foretold (c.schemas.check_eq_error_iff d) checked⟩
  | some t =>
    rw [table] at checked
    obtain ⟨_, tableChecked, checked⟩ := bind_ok checked
    obtain ⟨applied, accepted⟩ := ok_of_foretold (c.dictionary.check_eq_error_iff t) tableChecked
    refine ⟨⟨applied.1, ?_⟩, ok_of_foretold (c.schemas.check_eq_error_iff d) checked⟩
    dsimp only
    rw [accepted]
    rfl

/-- What a catalog knows once it has taken in a document: of its table, what both versions come to,
and of all others what it knew before. -/
structure Takes (c : Catalog) (d : SchemaDocument) (c' : Catalog) (found : SchemaDocument) :
    Prop where
  cached : c'.schemas.get? d.qualifiedName = some found
  document : ∃ columns, found = { d with columns } ∧
    Reconciles d.qualifiedName ((c.schemas.get? d.qualifiedName).map (·.columns)) d.columns columns
  table : ∀ id, d.objectId = some id → ∃ t, c'.dictionary.get? id = some t ∧ t.owner = d.owner ∧
    t.name = d.name ∧
    Reconciles d.qualifiedName ((c.dictionary.get? id).map (·.columns)) d.columns t.columns
  otherDocuments : ∀ name ≠ d.qualifiedName, c'.schemas.get? name = c.schemas.get? name
  otherTables : ∀ id, d.objectId ≠ some id → c'.dictionary.get? id = c.dictionary.get? id

/-- How a document is taken in. -/
structure Accepts (c : Catalog) (d : SchemaDocument) (c' : Catalog) (found : SchemaDocument) :
    Prop where
  newer : c.schemas.hasAsNew d = false
  dictionary : c.dictionaryWith d = .ok c'.dictionary
  schemas : ∃ change, c.schemas.apply d = .ok (c'.schemas, change)
  found : c'.schemas.get? d.qualifiedName = some found

theorem apply_of_dictionaryWith {c : Catalog} {d : SchemaDocument} {dictionary : Dictionary}
    {t : Table} (table : d.table? = some t) (ok : c.dictionaryWith d = .ok dictionary) :
    ∃ changed, c.dictionary.apply t = .ok (dictionary, changed) := by
  rw [dictionaryWith, table] at ok
  dsimp only at ok
  rcases applied : c.dictionary.apply t with f | ⟨dictionary, changed⟩ <;> rw [applied] at ok <;>
    cases ok
  exact ⟨changed, rfl⟩

theorem Accepts.takes {c c' : Catalog} {d found : SchemaDocument} (accepts : Accepts c d c' found) :
    Takes c d c' found := by
  obtain ⟨newer, dictionary, ⟨change, schemas⟩, cached⟩ := accepts
  obtain ⟨-, columns, put, reconciled⟩ := SchemaCache.apply_newer newer schemas
  have named : ({ d with columns } : SchemaDocument).qualifiedName = d.qualifiedName := rfl
  constructor
  case cached => exact cached
  case document =>
    rw [put, SchemaCache.get?_put, if_pos named.symm] at cached
    cases cached
    exact ⟨columns, rfl, reconciled⟩
  case otherDocuments =>
    intro name other
    rw [put, SchemaCache.get?_put, if_neg (by rw [named]; exact other)]
  case table =>
    intro id identified
    have table : d.table? = some ⟨id, d.owner, d.name, d.columns⟩ := by
      rw [SchemaDocument.table?, identified]
      rfl
    obtain ⟨_, applied⟩ := apply_of_dictionaryWith table dictionary
    exact (Dictionary.get?_apply applied).1
  case otherTables =>
    intro id other
    cases identified : d.objectId with
    | none =>
      have table : d.table? = none := by rw [SchemaDocument.table?, identified]; rfl
      rw [dictionaryWith, table] at dictionary
      rw [← Except.ok.inj dictionary]
    | some own =>
      have table : d.table? = some ⟨own, d.owner, d.name, d.columns⟩ := by
        rw [SchemaDocument.table?, identified]
        rfl
      obtain ⟨_, applied⟩ := apply_of_dictionaryWith table dictionary
      exact (Dictionary.get?_apply applied).2 id fun same => other (by rw [identified, same])

/-- A document is refused by a check, or not newer than the one at hand, or taken in. -/
theorem applyDocument_cases (c : Catalog) (d : SchemaDocument) :
    (c.schemas.hasAsNew d ∧ c.applyDocument d = .ok (c, none)) ∨
    (c.schemas.hasAsNew d = false ∧
      ∃ f, c.checkDocument d = .error f ∧ c.applyDocument d = .error f) ∨
    ∃ c' found, c.checkDocument d = .ok () ∧ c.applyDocument d = .ok (c', some found) ∧
      Accepts c d c' found := by
  rw [applyDocument_eq]
  by_cases stale : c.schemas.hasAsNew d
  · exact .inl ⟨stale, if_pos stale⟩
  have newer : c.schemas.hasAsNew d = false := by simpa using stale
  rw [if_neg stale]
  cases checked : c.checkDocument d with
  | error f => exact .inr (.inl ⟨newer, f, rfl, rfl⟩)
  | ok =>
    obtain ⟨⟨dictionary, table⟩, ⟨schemas, change⟩, document⟩ := accepted_of_check checked
    obtain ⟨-, columns, put, -⟩ := SchemaCache.apply_newer newer document
    have found : schemas.get? d.qualifiedName = some { d with columns } := by
      rw [put, SchemaCache.get?_put]
      exact if_pos rfl
    refine .inr (.inr ⟨⟨dictionary, schemas⟩, { d with columns }, rfl, ?_, newer, table,
      ⟨change, document⟩, found⟩)
    rw [table, document]
    exact congrArg (fun found => Except.ok ((⟨dictionary, schemas⟩ : Catalog), found)) found

/-- Nothing is left half done: the updates one after the other come to the update as a whole. -/
theorem takeDocument_eq (d : SchemaDocument) :
    takeDocument d = Action.outright (applyDocument · d) := by
  funext c
  dsimp only [Action.outright]
  have start : takeDocument d c =
      (if c.schemas.hasAsNew d then pure none else takeNewer d : Action Catalog _) c := rfl
  have checks : takeNewer d c = (Action.ofExcept (c.checkDocument d) >>= fun _ => do
      takeTable d.table?
      if (← inSchemas (SchemaCache.take d)) = .stale then return none
      else return (← get).schemas.get? d.qualifiedName) c := rfl
  rw [start]
  rcases applyDocument_cases c d with ⟨stale, applied⟩ | ⟨newer, f, checked, applied⟩ |
    ⟨c', found, checked, applied, ⟨newer, dictionary, ⟨change, schemas⟩, cached⟩⟩
  · rw [if_pos stale, applied]
    rfl
  · rw [if_neg (by simp [newer]), applied, checks, checked]
    rfl
  · have fresh := (SchemaCache.apply_newer newer schemas).1
    rw [if_neg (by simp [newer]), applied, checks, checked, Action.bind_apply,
      Action.ofExcept_apply]
    dsimp only
    rw [Action.bind_apply, takeTable_eq, dictionary]
    dsimp only
    rw [Action.bind_apply, inSchemas_take, schemas]
    dsimp only
    rw [if_neg fresh]
    exact congrArg (fun x => (Except.ok x, c')) cached

theorem takeMetadata_eq (e : Entry) : takeMetadata e = Action.outright (applyMetadata · e) := by
  funext c
  rw [takeMetadata, Action.ofExcept_bind_apply]
  dsimp only [Action.outright]
  rw [applyMetadata_eq]
  cases documentOf e with
  | error f => rfl
  | ok d =>
    dsimp only
    rw [takeDocument_eq]
    rfl

theorem applyDocument_none {c c' : Catalog} {d : SchemaDocument}
    (passed : c.applyDocument d = .ok (c', none)) : c' = c ∧ c.schemas.hasAsNew d := by
  rcases applyDocument_cases c d with ⟨stale, applied⟩ | ⟨_, _, _, applied⟩ | ⟨_, _, _, applied, _⟩
    <;> rw [applied] at passed <;> cases passed
  exact ⟨rfl, stale⟩

theorem applyDocument_some {c c' : Catalog} {d found : SchemaDocument}
    (taken : c.applyDocument d = .ok (c', some found)) : Accepts c d c' found := by
  rcases applyDocument_cases c d with ⟨_, applied⟩ | ⟨_, _, _, applied⟩ |
    ⟨_, _, _, applied, accepts⟩ <;> rw [applied] at taken <;> cases taken
  exact accepts

theorem takeMetadata_ok {c c' : Catalog} {e : Entry} {found : Option SchemaDocument}
    (ok : takeMetadata e c = (.ok found, c')) :
    ∃ d, documentOf e = .ok d ∧ c.applyDocument d = .ok (c', found) := by
  rw [takeMetadata_eq] at ok
  have applied := Action.outright_ok ok
  rw [applyMetadata_eq] at applied
  exact bind_ok applied

theorem takeMetadata_none_iff (c : Catalog) (e : Entry) :
    (takeMetadata e c).1 = .ok none ↔
      ∃ d cached, documentOf e = .ok d ∧ c.schemas.get? d.qualifiedName = some cached ∧
        d.validSince ≤ cached.validSince := by
  constructor
  · intro passed
    have ended : takeMetadata e c = (.ok none, (takeMetadata e c).2) := Prod.ext passed rfl
    obtain ⟨d, carried, applied⟩ := takeMetadata_ok ended
    obtain ⟨cached, known, stale⟩ := (c.schemas.hasAsNew_iff d).mp (applyDocument_none applied).2
    exact ⟨d, cached, carried, known, stale⟩
  · rintro ⟨d, cached, carried, known, stale⟩
    have asNew : c.schemas.hasAsNew d := (c.schemas.hasAsNew_iff d).mpr ⟨cached, known, stale⟩
    have applied : c.applyMetadata e = .ok (c, none) := by
      rw [applyMetadata_eq, carried]
      exact (applyDocument_eq c d).trans (if_pos asNew)
    rw [takeMetadata_eq, Action.outright, applied]

/-- A metadata entry is refused and changes nothing; or it carries a document that is no newer than
the one at hand, is passed over and changes nothing; or its document is taken in. This holds of the
updates one after the other, since a check fails exactly when the update that it foretells does,
and then the update changes nothing. -/
theorem takeMetadata_atomic :
    (∀ (c c' : Catalog) (e : Entry),
      takeMetadata e = Action.outright (applyMetadata · e) ∧
      (∀ f, takeMetadata e c = (.error f, c') → c' = c) ∧
      (takeMetadata e c = (.ok none, c') → c' = c) ∧
      ((takeMetadata e c).1 = .ok none ↔
        ∃ d cached, documentOf e = .ok d ∧ c.schemas.get? d.qualifiedName = some cached ∧
          d.validSince ≤ cached.validSince) ∧
      ∀ found, takeMetadata e c = (.ok (some found), c') →
        ∃ d, documentOf e = .ok d ∧ found.validSince = d.validSince ∧ Takes c d c' found) ∧
    (∀ (d : Dictionary) (t : Table) (f : Failure),
      (d.check t = .error f ↔ (Dictionary.take t d).1 = .error f) ∧
        ((Dictionary.take t d).1 = .error f → (Dictionary.take t d).2 = d)) ∧
    ∀ (s : SchemaCache) (d : SchemaDocument) (f : Failure),
      (s.check d = .error f ↔ (SchemaCache.take d s).1 = .error f) ∧
        ((SchemaCache.take d s).1 = .error f → (SchemaCache.take d s).2 = s) := by
  refine ⟨fun c c' e => ⟨takeMetadata_eq e, fun f refused => ?_, fun passed => ?_,
    takeMetadata_none_iff c e, fun found taken => ?_⟩, fun d t f => ?_, fun s d f => ?_⟩
  · rw [takeMetadata_eq] at refused
    exact (Action.outright_error refused).2
  · obtain ⟨d, _, applied⟩ := takeMetadata_ok passed
    exact (applyDocument_none applied).1
  · obtain ⟨d, carried, applied⟩ := takeMetadata_ok taken
    have takes := (applyDocument_some applied).takes
    obtain ⟨columns, rfl, -⟩ := takes.document
    exact ⟨d, carried, rfl, takes⟩
  · rw [d.check_eq_error_iff, Dictionary.take_eq]
    exact Action.outright_refused (Dictionary.apply · t) d f
  · rw [s.check_eq_error_iff, SchemaCache.take_eq]
    exact Action.outright_refused (SchemaCache.apply · d) s f

end Catalog

end ChangeCapture
