import ChangeCapture.Proofs.Views

/-! Catalogs of two readings of a file, the second of which overlooks entries of tables that are not
selected. Of a table that no overlooked entry teaches anything both know the same; of any other one
the second reading knows an earlier version or nothing. -/
namespace ChangeCapture

theorem Outgrows.head {c : Column} {old new : List Column} (outgrows : Outgrows (c :: old) new) :
    ∃ c' new', new = c' :: new' ∧ (c.isPlaceholder = false → c'.signature = c.signature) ∧
      Outgrows old new' := by
  obtain ⟨length, described⟩ := outgrows
  cases new with
  | nil => simp at length
  | cons c' new' =>
    refine ⟨c', new', rfl, fun known => ?_, ⟨Nat.le_of_succ_le_succ length, fun found known =>
      described (i := _ + 1) found known⟩⟩
    obtain ⟨_, found, same⟩ := described (i := 0) rfl known
    cases found
    exact same

theorem check_of_outgrows {table : String} {old new columns : List Column}
    (outgrows : Outgrows old new) (checked : checkColumns table new columns = .ok ()) :
    checkColumns table old columns = .ok () := by
  induction columns generalizing old new with
  | nil => cases old <;> rfl
  | cons c columns ih =>
    cases old with
    | nil => rfl
    | cons a old =>
      obtain ⟨b, new, rfl, same, rest⟩ := outgrows.head
      rw [checkColumns] at checked ⊢
      split at checked
      next compatible =>
        rw [if_pos]
        · exact ih rest checked
        · cases known : a.isPlaceholder with
          | true => simp [Column.compatible, known]
          | false =>
            have signature := same known
            rw [Column.compatible, Column.isPlaceholder_of_signature signature,
              signature] at compatible
            exact compatible
      next => cases checked

/-- An earlier version stays behind when the same version follows both. -/
theorem outgrows_reconcile_both {old new columns : List Column} (outgrows : Outgrows old new) :
    Outgrows (reconcileColumns old columns) (reconcileColumns new columns) := by
  have loosened (columns : List Column) :
      (columns.map Column.loosened).map Column.signature = columns.map Column.signature := by
    simp [Column.loosened, Column.signature, Function.comp_def]
  induction columns generalizing old new with
  | nil =>
    have alone (columns : List Column) : reconcileColumns columns [] =
        columns.map Column.loosened := by cases columns <;> rfl
    rw [alone, alone]
    exact (Outgrows.of_map (loosened old).symm).trans (outgrows.trans (.of_map (loosened new)))
  | cons c columns ih =>
    cases old with
    | nil =>
      cases new with
      | nil => exact .refl _
      | cons b new =>
        have rest := ih (.nil new)
        have alone : reconcileColumns [] columns = columns.map Column.loosened := by
          cases columns <;> rfl
        rw [alone] at rest
        refine .cons (fun known => ?_) rest
        have known : c.isPlaceholder = false := known
        simp [Column.succeed, known, Column.loosened, Column.signature]
    | cons a old =>
      obtain ⟨b, new, rfl, same, rest⟩ := outgrows.head
      refine .cons (fun known => ?_) (ih rest)
      unfold Column.succeed at known ⊢
      split
      · rw [if_pos ‹_›] at known
        exact same known
      · rfl

/-- A version by itself is an earlier one of what it makes of another version. -/
theorem outgrows_reconcile_new (cached columns : List Column) :
    Outgrows columns (reconcileColumns cached columns) := by
  have alone : reconcileColumns [] columns = columns.map Column.loosened := by
    cases columns <;> rfl
  have loosened : Outgrows columns (columns.map Column.loosened) :=
    .of_map (by simp [Column.loosened, Column.signature, Function.comp_def])
  have both : Outgrows (reconcileColumns [] columns) (reconcileColumns cached columns) :=
    outgrows_reconcile_both (.nil cached)
  rw [alone] at both
  exact loosened.trans both

/-- What both readings know of a table that overlooked entries teach. The second one may know
nothing of it, or know it by a selected name, only if it is misled about it. -/
inductive Table.Lags (names : List String) (misled : Prop) :
    Option Table → Option Table → Prop where
  | unknown {known} : (known.isSome → misled) → Lags names misled known none
  | less {t t'} : Outgrows t'.columns t.columns →
      misled ∨ names.contains t'.qualifiedName = false → Lags names misled (some t) (some t')

/-- The same document, where fewer columns may be marked. -/
structure SchemaDocument.Lags (d d' : SchemaDocument) : Prop where
  validSince : d'.validSince = d.validSince
  hasKeyFlags : d'.hasKeyFlags = d.hasKeyFlags
  columns : Outgrows d'.columns d.columns

theorem SchemaDocument.Lags.refl (d : SchemaDocument) : Lags d d := ⟨rfl, rfl, .refl _⟩

theorem SchemaDocument.Lags.trans {d d' d'' : SchemaDocument} (first : Lags d d')
    (rest : Lags d' d'') : Lags d d'' :=
  ⟨rest.validSince.trans first.validSince, rest.hasKeyFlags.trans first.hasKeyFlags,
    rest.columns.trans first.columns⟩

namespace Dictionary

theorem apply_alike {d d' e : Dictionary} {t : Table} {changed : Bool}
    (same : d'.get? t.id = d.get? t.id) (ok : d.apply t = .ok (e, changed)) :
    ∃ e', d'.apply t = .ok (e', changed) ∧ e'.get? t.id = e.get? t.id := by
  unfold apply at ok ⊢
  rw [same]
  cases known : d.get? t.id with
  | none =>
    rw [known] at ok
    cases ok
    exact ⟨_, rfl, by simp [put, get?]⟩
  | some cached =>
    rw [known] at ok
    obtain ⟨⟨columns, evolution⟩, evolved, ok⟩ := bind_ok ok
    dsimp only at ok ⊢
    rw [evolved]
    split at ok
    next unchanged =>
      cases ok
      exact ⟨d', if_pos unchanged, same⟩
    next changes =>
      cases ok
      exact ⟨_, if_neg changes, by simp [put, get?]⟩

theorem check_of_apply {d : Dictionary} {t : Table} {x : Dictionary × Bool}
    (ok : d.apply t = .ok x) : d.check t = .ok () := by
  cases checks : d.check t with
  | ok => rfl
  | error f =>
    rw [(check_eq_error_iff d t f).mp checks] at ok
    cases ok

/-- A definition that is taken in by one dictionary is taken in by one that lags behind. -/
theorem apply_lags {names : List String} {misled : Prop} {d d' e : Dictionary} {t : Table}
    {changed : Bool} (lags : Table.Lags names misled (d.get? t.id) (d'.get? t.id))
    (named : misled ∨ names.contains t.qualifiedName = false)
    (ok : d.apply t = .ok (e, changed)) :
    ∃ e' changed', d'.apply t = .ok (e', changed') ∧
      Table.Lags names misled (e.get? t.id) (e'.get? t.id) := by
  have checked : d'.check t = .ok () := by
    have passed := check_of_apply ok
    unfold check at passed ⊢
    generalize d.get? t.id = known, d'.get? t.id = known' at lags passed
    cases lags with
    | unknown => rfl
    | less outgrows => exact check_of_outgrows outgrows passed
  obtain ⟨⟨e', changed'⟩, ok'⟩ :=
    Catalog.ok_of_foretold (check_eq_error_iff d' t) checked
  refine ⟨e', changed', ok', ?_⟩
  obtain ⟨⟨known, found, _, _, columns⟩, -⟩ := get?_apply ok
  obtain ⟨⟨known', found', owner, name, columns'⟩, -⟩ := get?_apply ok'
  rw [found, found']
  refine .less ?_ ?_
  · generalize d.get? t.id = before, d'.get? t.id = before' at lags columns columns'
    have evolves {cached result : List Column}
        (reconciles : Reconciles t.qualifiedName (some cached) t.columns result) :
        result = reconcileColumns cached t.columns := by
      obtain ⟨_, evolved⟩ := reconciles
      exact (evolveColumns_ok evolved).2
    cases lags with
    | @unknown before told =>
      rw [show known'.columns = t.columns from columns']
      cases before with
      | none =>
        rw [show known.columns = t.columns from columns]
        exact .refl _
      | some cached => exact evolves columns ▸ outgrows_reconcile_new ..
    | less outgrows =>
      rw [evolves columns, evolves columns']
      exact outgrows_reconcile_both outgrows
  · rwa [Table.qualifiedName, owner, name]

end Dictionary

namespace SchemaDocument.Lags

variable {d d' : SchemaDocument}

theorem mark (lags : Lags d d') (ordinals : List Nat) :
    Lags { d with columns := markKeyColumns d.columns ordinals } d' :=
  ⟨lags.validSince, lags.hasKeyFlags,
    lags.columns.trans (.of_map (signature_markKeyColumns d.columns ordinals))⟩

theorem mark_both (lags : Lags d d') (ordinals : List Nat) :
    Lags { d with columns := markKeyColumns d.columns ordinals }
      { d' with columns := markKeyColumns d'.columns ordinals } :=
  ⟨lags.validSince, lags.hasKeyFlags,
    .trans (.of_map (signature_markKeyColumns d'.columns ordinals).symm)
      (lags.mark ordinals).columns⟩

end SchemaDocument.Lags

/-- The same documents but for those of `hidden` names, where fewer columns may be marked. -/
def SchemaCache.Lags (hidden : String → Prop) (s s' : SchemaCache) : Prop :=
  ∀ name, ¬ hidden name → Option.Rel SchemaDocument.Lags (s.get? name) (s'.get? name)

namespace SchemaCache

variable {hidden : String → Prop}

theorem Lags.refl (s : SchemaCache) : Lags hidden s s := by
  intro name _
  cases s.get? name with
  | none => exact .none
  | some d => exact .some (.refl d)

theorem Lags.trans {s s' s'' : SchemaCache} (first : Lags hidden s s') (rest : Lags hidden s' s'') :
    Lags hidden s s'' := by
  intro name shown
  have related := first name shown
  have onward := rest name shown
  generalize s.get? name = a, s'.get? name = b, s''.get? name = c at related onward
  cases related with
  | none =>
    cases onward
    exact .none
  | some related =>
    cases onward with
    | some onward => exact .some (related.trans onward)

theorem get?_markKeyColumns (s : SchemaCache) (name : String) (ordinals : List Nat) (k : String) :
    (s.markKeyColumns name ordinals).get? k = if k = name
      then (s.get? name).map fun d =>
        { d with columns := ChangeCapture.markKeyColumns d.columns ordinals }
      else s.get? k := Registry.get?_modify ..

theorem lags_markKeyColumns (s : SchemaCache) (name : String) (ordinals : List Nat) :
    Lags hidden (s.markKeyColumns name ordinals) s := by
  intro k shown
  rw [get?_markKeyColumns]
  split
  next own =>
    subst own
    cases s.get? k with
    | none => exact .none
    | some d => exact .some ((SchemaDocument.Lags.refl d).mark ordinals)
  next => exact Lags.refl s k shown

theorem Lags.markKeyColumns {s s' : SchemaCache} (lags : Lags hidden s s') (name : String)
    (ordinals : List Nat) :
    Lags hidden (s.markKeyColumns name ordinals) (s'.markKeyColumns name ordinals) := by
  intro k shown
  have related := lags k shown
  rw [get?_markKeyColumns, get?_markKeyColumns]
  split
  next own =>
    subst own
    generalize s.get? k = a, s'.get? k = b at related
    cases related with
    | none => exact .none
    | some related => exact .some (related.mark_both ordinals)
  next => exact related

theorem Lags.hasAsNew {s s' : SchemaCache} (lags : Lags hidden s s') {d : SchemaDocument}
    (shown : ¬ hidden d.qualifiedName) : s'.hasAsNew d = s.hasAsNew d := by
  have related := lags d.qualifiedName shown
  unfold SchemaCache.hasAsNew
  generalize s.get? d.qualifiedName = a, s'.get? d.qualifiedName = b at related
  cases related with
  | none => rfl
  | some related =>
    dsimp only
    rw [related.validSince]

end SchemaCache

theorem SchemaCache.check_of_apply {s : SchemaCache} {d : SchemaDocument}
    {x : SchemaCache × SchemaChange} (ok : s.apply d = .ok x) : s.check d = .ok () := by
  cases checks : s.check d with
  | ok => rfl
  | error f =>
    rw [(check_eq_error_iff s d f).mp checks] at ok
    cases ok

theorem SchemaCache.apply_lags {hidden : String → Prop} {s s' t : SchemaCache} {d : SchemaDocument}
    {change : SchemaChange} (lags : Lags hidden s s') (shown : ¬ hidden d.qualifiedName)
    (newer : s.hasAsNew d = false) (ok : s.apply d = .ok (t, change)) :
    ∃ t' change', s'.apply d = .ok (t', change') ∧ Lags hidden t t' := by
  have put {a b : List Column} (outgrows : Outgrows b a) :
      Lags hidden (s.put { d with columns := a }) (s'.put { d with columns := b }) := by
    intro name shown
    rw [get?_put, get?_put]
    show Option.Rel SchemaDocument.Lags (if name = d.qualifiedName then _ else _)
      (if name = d.qualifiedName then _ else _)
    split
    · exact .some ⟨rfl, rfl, outgrows⟩
    · exact lags name shown
  have here := lags d.qualifiedName shown
  unfold hasAsNew at newer
  unfold apply at ok ⊢
  cases found : s.get? d.qualifiedName with
  | none =>
    rw [found] at ok here
    generalize s'.get? d.qualifiedName = known' at here
    cases here
    cases ok
    exact ⟨_, _, rfl, put (.refl d.columns)⟩
  | some cached =>
    rw [found] at ok here newer
    generalize s'.get? d.qualifiedName = known' at here
    cases here with
    | @some _ cached' older =>
      have later : ¬ d.validSince ≤ cached.validSince := by simpa using newer
      dsimp only at ok ⊢
      rw [if_neg later] at ok
      rw [if_neg (older.validSince ▸ later)]
      obtain ⟨⟨columns, evolution⟩, evolved, ok⟩ := bind_ok ok
      cases ok
      obtain ⟨checked, rfl⟩ := evolveColumns_ok evolved
      rw [evolveColumns_eq, check_of_outgrows older.columns checked]
      exact ⟨_, _, rfl, put (outgrows_reconcile_both older.columns)⟩

namespace Entry

/-- The id of the table that a change entry is about. -/
def tableId (e : Entry) : Nat := (e.word? .objectId).toOption.join.getD 0

/-- The id by which the name of an entry's table is looked up, unless the entry gives the name. -/
def lookup? (e : Entry) : Option Nat :=
  match e.text? .objectOwner, e.text? .objectName with
  | .ok (some _), .ok (some _) => none
  | _, _ => (e.word? .objectId).toOption.join

theorem tableId_of_lookup? {e : Entry} {id : Nat} (lookup : e.lookup? = some id) :
    e.tableId = id := by
  unfold lookup? at lookup
  split at lookup
  · cases lookup
  · rw [tableId, lookup, Option.getD_some]

end Entry

namespace Catalog

theorem entrySchema_ok {d : Dictionary} {e : Entry} {name : Option String}
    (ok : entrySchema d e = .ok name) :
    (e.lookup? = none ∧ ∀ d', entrySchema d' e = .ok name) ∨
      ∃ id, e.lookup? = some id ∧
        ∀ d', entrySchema d' e = .ok ((d'.get? id).map Table.qualifiedName) := by
  obtain ⟨owner, ownerRead, rest⟩ := bind_ok ok
  obtain ⟨table, tableRead, -⟩ := bind_ok rest
  by_cases named : owner.isSome ∧ table.isSome
  · obtain ⟨owner, rfl⟩ := Option.isSome_iff_exists.mp named.1
    obtain ⟨table, rfl⟩ := Option.isSome_iff_exists.mp named.2
    have given (d' : Dictionary) : entrySchema d' e = .ok (some (qualifiedName owner table)) := by
      rw [entrySchema, ownerRead, tableRead]
      rfl
    refine .inl ⟨?_, fun d' => by rw [given, ← ok, given]⟩
    rw [Entry.lookup?, ownerRead, tableRead]
  · have looked (d' : Dictionary) : entrySchema d' e =
        (e.word? .objectId).map fun id => (id.bind d'.get?).map Table.qualifiedName := by
      rw [entrySchema, ownerRead, tableRead]
      cases owner <;> cases table <;> first | rfl | exact absurd ⟨rfl, rfl⟩ named
    have lookup : e.lookup? = (e.word? .objectId).toOption.join := by
      rw [Entry.lookup?, ownerRead, tableRead]
      cases owner <;> cases table <;> first | rfl | exact absurd ⟨rfl, rfl⟩ named
    rw [looked] at ok
    obtain ⟨id, read, rfl⟩ := map_ok ok
    rw [lookup, read]
    cases id with
    | none => exact .inl ⟨rfl, fun d' => by rw [looked, read]; rfl⟩
    | some id => exact .inr ⟨id, rfl, fun d' => by rw [looked, read]; rfl⟩

theorem learn_alike {d d' learned : Dictionary} {e : Entry} {tableId : Nat} {ordinals : List Nat}
    (same : d'.get? tableId = d.get? tableId) (ok : learn d e tableId ordinals = .ok learned) :
    ∃ learned', learn d' e tableId ordinals = .ok learned' ∧
      learned'.get? tableId = learned.get? tableId ∧
      ∀ id ≠ tableId, learned'.get? id = d'.get? id := by
  unfold learn at ok ⊢
  dsimp only at ok ⊢
  split at ok
  · cases ok
  next counts =>
    obtain ⟨owner, ownerRead, ok⟩ := bind_ok ok
    obtain ⟨name, nameRead, ok⟩ := bind_ok ok
    obtain ⟨inline, placed, ok⟩ := bind_ok ok
    obtain ⟨⟨_, changed⟩, applied, ok⟩ := bind_ok ok
    cases ok
    obtain ⟨learned', applied', after⟩ := Dictionary.apply_alike same applied
    refine ⟨learned', ?_, after, (Dictionary.get?_apply applied').2⟩
    rw [if_neg counts, ownerRead, nameRead, placed, same]
    show (d'.apply _ >>= _) = _
    rw [applied']
    rfl

theorem describe_eq (d : Dictionary) (e : Entry) :
    describe d e = e.word? .objectId >>= fun id => ColumnImage.ordinals e >>= fun ordinals =>
      (if e.has .columnName ∨ e.has .columnType then learn d e (id.getD 0) ordinals else .ok d) >>=
        fun dictionary => .ok (id.getD 0, ordinals, dictionary) := by
  unfold describe
  congr 1
  funext id
  dsimp only
  congr 1
  funext ordinals
  split <;> rfl

theorem describe_alike {d d' dictionary : Dictionary} {e : Entry} {tableId : Nat}
    {ordinals : List Nat} (same : d'.get? e.tableId = d.get? e.tableId)
    (ok : describe d e = .ok (tableId, ordinals, dictionary)) :
    tableId = e.tableId ∧ ∃ dictionary', describe d' e = .ok (tableId, ordinals, dictionary') ∧
      dictionary'.get? tableId = dictionary.get? tableId ∧
      ∀ id ≠ tableId, dictionary'.get? id = d'.get? id := by
  simp only [describe_eq] at ok ⊢
  obtain ⟨id, read, ok⟩ := bind_ok ok
  obtain ⟨found, listed, ok⟩ := bind_ok ok
  obtain ⟨_, taught, ok⟩ := bind_ok ok
  cases ok
  have own : id.getD 0 = e.tableId := by rw [Entry.tableId, read]; rfl
  have alike : ∃ learned', (if e.has .columnName ∨ e.has .columnType
      then learn d' e (id.getD 0) ordinals else .ok d') = .ok learned' ∧
        learned'.get? (id.getD 0) = dictionary.get? (id.getD 0) ∧
        ∀ other ≠ id.getD 0, learned'.get? other = d'.get? other := by
    split at taught
    next describes =>
      rw [if_pos describes]
      rw [own] at taught ⊢
      exact learn_alike same taught
    next bare =>
      rw [if_neg bare]
      cases taught
      exact ⟨d', rfl, own ▸ same, fun _ _ => rfl⟩
  obtain ⟨learned', taught', after⟩ := alike
  refine ⟨own, learned', ?_, after⟩
  rw [read, listed]
  show (_ >>= fun dictionary => Except.ok (id.getD 0, ordinals, dictionary)) = _
  rw [taught']
  rfl

theorem describe_frame {d dictionary : Dictionary} {e : Entry} {tableId : Nat} {ordinals : List Nat}
    (ok : describe d e = .ok (tableId, ordinals, dictionary)) :
    tableId = e.tableId ∧ ∀ id ≠ tableId, dictionary.get? id = d.get? id := by
  obtain ⟨own, again, describedAgain, -, others⟩ := describe_alike rfl ok
  rw [ok] at describedAgain
  cases describedAgain
  exact ⟨own, others⟩

/-- What a change entry of some table may move. -/
structure Confined (tableId : Nat) (c c' : Catalog) : Prop where
  otherTables : ∀ id ≠ tableId, c'.dictionary.get? id = c.dictionary.get? id
  documents : SchemaCache.Lags (fun _ => False) c'.schemas c.schemas

theorem Confined.refl (tableId : Nat) (c : Catalog) : Confined tableId c c :=
  ⟨fun _ _ => rfl, .refl _⟩

theorem Confined.trans {tableId : Nat} {c c' c'' : Catalog} (first : Confined tableId c c')
    (rest : Confined tableId c' c'') : Confined tableId c c'' :=
  ⟨fun id other => (rest.otherTables id other).trans (first.otherTables id other),
    rest.documents.trans first.documents⟩

theorem get?_markKeyColumns (d : Dictionary) (tableId : Nat) (ordinals : List Nat) (id : Nat) :
    (d.markKeyColumns tableId ordinals).get? id = if id = tableId
      then (d.get? tableId).map (fun t => t.markKeyColumns ordinals)
      else d.get? id := Registry.get?_modify ..

theorem confined_retrofitKey (c : Catalog) (table : Table) (change : Change) :
    Confined change.header.tableId c (c.retrofitKey table change).catalog := by
  unfold retrofitKey
  dsimp only
  split
  · refine ⟨fun id other => ?_, SchemaCache.lags_markKeyColumns _ _ _⟩
    exact (get?_markKeyColumns ..).trans (if_neg other)
  · exact .refl ..

theorem confined_assembleKnown (c : Catalog) (view : ChangeView) (id : RecordId) (e : Entry)
    (table : Table) (tableId : Nat) (ordinals : List Nat) :
    Confined tableId c (c.assembleKnown view id e table tableId ordinals).catalog := by
  unfold assembleKnown
  dsimp only
  split
  · exact .refl ..
  next header images read =>
    split
    · exact .refl ..
    next change made =>
      obtain ⟨_, described, read⟩ := bind_ok read
      obtain ⟨_, _, read⟩ := bind_ok read
      cases read
      have own : change.header.tableId = tableId := by
        rw [(Change.of_ofImages made).1, ChangeHeader.tableId_ofEntry described]
      exact own ▸ confined_retrofitKey c table change

theorem named_retrofitKey {c : Catalog} {table : Table} {id : Nat} {known : Table}
    (found : c.dictionary.get? id = some known) (change : Change) :
    ∃ t ∈ (c.retrofitKey table change).catalog.dictionary.get? id,
      t.qualifiedName = known.qualifiedName := by
  unfold retrofitKey
  dsimp only
  split
  · dsimp only
    rw [get?_markKeyColumns]
    split
    next own =>
      rw [← own, found]
      exact ⟨_, rfl, rfl⟩
    next => exact ⟨known, found, rfl⟩
  · exact ⟨known, found, rfl⟩

theorem named_assembleKnown {c : Catalog} {tableId : Nat} {table : Table}
    (known : c.dictionary.get? tableId = some table) (view : ChangeView) (id : RecordId) (e : Entry)
    (ordinals : List Nat) :
    ∃ t ∈ (c.assembleKnown view id e table tableId ordinals).catalog.dictionary.get? tableId,
      t.qualifiedName = table.qualifiedName := by
  unfold assembleKnown
  dsimp only
  split
  · exact ⟨table, known, rfl⟩
  · split
    · exact ⟨table, known, rfl⟩
    · exact named_retrofitKey known _

/-- A change entry moves nothing but the table that it is about and the marks of columns. -/
theorem confined_assemble (c : Catalog) (view : ChangeView) (id : RecordId) (e : Entry) :
    Confined e.tableId c (c.assemble view id e).catalog := by
  unfold assemble
  split
  · exact .refl ..
  next tableId ordinals dictionary described =>
    obtain ⟨rfl, others⟩ := describe_frame described
    have learned : Confined e.tableId c { c with dictionary } := ⟨others, .refl _⟩
    dsimp only
    split
    · exact learned.trans (confined_assembleKnown ..)
    · exact learned

/-- What is known by a reading that overlooks entries, where another one that does not knows `c`. -/
structure Lags (names : List String) (taught misled : Nat → Prop) (hidden : String → Prop)
    (c c' : Catalog) : Prop where
  same : ∀ id, ¬ taught id → c'.dictionary.get? id = c.dictionary.get? id
  less : ∀ id, taught id →
    Table.Lags names (misled id) (c.dictionary.get? id) (c'.dictionary.get? id)
  documents : SchemaCache.Lags hidden c.schemas c'.schemas

/-- What an overlooked entry makes of a catalog. -/
structure Overlooks (taught misled : Nat → Prop) (hidden : String → Prop) (c c' : Catalog) :
    Prop where
  develops : c.Develops c'
  same : ∀ id, ¬ taught id → c'.dictionary.get? id = c.dictionary.get? id
  introduced : ∀ id, c.dictionary.get? id = none → c'.dictionary.get? id ≠ none → misled id
  documents : SchemaCache.Lags hidden c'.schemas c.schemas

namespace Lags

variable {names : List String} {taught misled : Nat → Prop} {hidden : String → Prop}
variable {c c' : Catalog}

theorem empty : Lags names taught misled hidden .empty .empty :=
  ⟨fun _ _ => rfl, fun _ _ => .unknown nofun, .refl _⟩

/-- The name that is looked up is the same where no overlooked entry has taught the table. -/
theorem entrySchema (lags : Lags names taught misled hidden c c') {e : Entry} {name : Option String}
    (ok : entrySchema c.dictionary e = .ok name) (untaught : ∀ id ∈ e.lookup?, ¬ taught id) :
    Catalog.entrySchema c'.dictionary e = .ok name := by
  obtain ⟨-, given⟩ | ⟨id, lookup, found⟩ := entrySchema_ok ok
  · exact given _
  · have name := (found _).symm.trans ok
    rw [found, lags.same id (untaught id lookup)]
    exact name

/-- A name that is not selected is looked up as one that is not selected, unless the second reading
is misled. -/
theorem refuses (lags : Lags names taught misled hidden c c') {e : Entry} {name : Option String}
    (ok : Catalog.entrySchema c.dictionary e = .ok name) (refused : name.all names.contains = false)
    (aware : ∀ id ∈ e.lookup?, taught id → ¬ misled id) :
    ∃ name', Catalog.entrySchema c'.dictionary e = .ok name' ∧
      name'.all names.contains = false := by
  obtain ⟨-, given⟩ | ⟨id, lookup, found⟩ := entrySchema_ok ok
  · exact ⟨name, given _, refused⟩
  refine ⟨_, found _, ?_⟩
  have own := (found _).symm.trans ok
  by_cases told : taught id
  · have related := lags.less id told
    generalize c.dictionary.get? id = known, c'.dictionary.get? id = known' at own related
    have aware := aware id lookup told
    cases related with
    | unknown introduced =>
      cases known with
      | none =>
        cases own
        cases refused
      | some t => exact absurd (introduced rfl) aware
    | less _ named => exact named.resolve_left aware
  · rw [lags.same id told, Except.ok.inj own]
    exact refused

theorem lacksKey (lags : Lags names taught misled hidden c c') {table : Table}
    (shown : ¬ hidden table.qualifiedName) : c'.lacksKey table = c.lacksKey table := by
  have related := lags.documents table.qualifiedName shown
  unfold Catalog.lacksKey
  generalize c.schemas.get? table.qualifiedName = a,
    c'.schemas.get? table.qualifiedName = b at related
  cases related with
  | none => rfl
  | some related => rw [Option.map_some, Option.map_some, related.hasKeyFlags]

theorem retrofitKey (lags : Lags names taught misled hidden c c') {table : Table} {change : Change}
    (untaught : ¬ taught change.header.tableId) (shown : ¬ hidden table.qualifiedName) :
    (c'.retrofitKey table change).result = (c.retrofitKey table change).result ∧
      Lags names taught misled hidden (c.retrofitKey table change).catalog
        (c'.retrofitKey table change).catalog := by
  unfold Catalog.retrofitKey
  dsimp only
  rw [lags.lacksKey shown]
  split
  · refine ⟨rfl, fun id other => ?_, fun id told => ?_, lags.documents.markKeyColumns _ _⟩
    · dsimp only
      rw [get?_markKeyColumns, get?_markKeyColumns, lags.same _ untaught, lags.same id other]
    · have other : id ≠ change.header.tableId := fun same => untaught (same ▸ told)
      dsimp only
      rw [get?_markKeyColumns, get?_markKeyColumns, if_neg other, if_neg other]
      exact lags.less id told
  · exact ⟨rfl, lags⟩

theorem assembleKnown (lags : Lags names taught misled hidden c c') {tableId : Nat} {table : Table}
    (untaught : ¬ taught tableId) (shown : ¬ hidden table.qualifiedName) (view : ChangeView)
    (id : RecordId) (e : Entry) (ordinals : List Nat) :
    (c'.assembleKnown view id e table tableId ordinals).result =
        (c.assembleKnown view id e table tableId ordinals).result ∧
      Lags names taught misled hidden (c.assembleKnown view id e table tableId ordinals).catalog
        (c'.assembleKnown view id e table tableId ordinals).catalog := by
  unfold Catalog.assembleKnown
  dsimp only
  split
  · exact ⟨rfl, lags⟩
  next header images read =>
    obtain ⟨_, described, read⟩ := bind_ok read
    obtain ⟨_, _, read⟩ := bind_ok read
    cases read
    split
    · exact ⟨rfl, lags⟩
    next change made =>
      have own : change.header.tableId = tableId := by
        rw [(Change.of_ofImages made).1, ChangeHeader.tableId_ofEntry described]
      exact lags.retrofitKey (own ▸ untaught) shown

/-- A change entry that both readings decode. -/
theorem assemble (lags : Lags names taught misled hidden c c') {view : ChangeView} {id : RecordId}
    {e : Entry} {change : Change} (untaught : ¬ taught e.tableId)
    (shown : ∀ table ∈ (c.assemble view id e).catalog.dictionary.get? e.tableId,
      ¬ hidden table.qualifiedName)
    (ok : (c.assemble view id e).result = .ok change) :
    (c'.assemble view id e).result = .ok change ∧
      Lags names taught misled hidden (c.assemble view id e).catalog (c'.assemble view id e).catalog := by
  unfold Catalog.assemble at ok shown ⊢
  cases described : describe c.dictionary e with
  | error f =>
    rw [described] at ok
    cases ok
  | ok found =>
    obtain ⟨tableId, ordinals, dictionary⟩ := found
    obtain ⟨rfl, dictionary', described', own, others'⟩ :=
      describe_alike (lags.same _ untaught) described
    have others := (describe_frame described).2
    have learned : Lags names taught misled hidden { c with dictionary }
        { c' with dictionary := dictionary' } := by
      refine ⟨fun other unmoved => ?_, fun other told => ?_, lags.documents⟩
      · by_cases same : other = e.tableId
        · exact same ▸ own
        · exact (others' other same).trans
            ((lags.same other unmoved).trans (others other same).symm)
      · have same : other ≠ e.tableId := fun same => untaught (same ▸ told)
        dsimp only
        rw [others other same, others' other same]
        exact lags.less other told
    rw [described] at ok shown
    rw [described']
    dsimp only at ok shown ⊢
    rw [own]
    cases known : dictionary.get? e.tableId with
    | none =>
      rw [known] at ok
      exact ⟨ok, learned⟩
    | some table =>
      rw [known] at ok shown
      obtain ⟨_, there, name⟩ :=
        named_assembleKnown (c := { c with dictionary }) known view id e ordinals
      obtain ⟨same, after⟩ :=
        learned.assembleKnown untaught (name ▸ shown _ there) view id e ordinals
      exact ⟨same.trans ok, after⟩

/-- An entry that the second reading overlooks. -/
theorem overlook (lags : Lags names taught misled hidden c c') {d : Catalog}
    (overlooks : Overlooks taught misled hidden c d) : Lags names taught misled hidden d c' := by
  refine ⟨fun id told => ?_, fun id told => ?_, overlooks.documents.trans lags.documents⟩
  · rw [lags.same id told, overlooks.same id told]
  · have related := lags.less id told
    have introduced := overlooks.introduced id
    generalize c'.dictionary.get? id = known' at related
    cases before : c.dictionary.get? id with
    | none =>
      rw [before] at related
      cases related
      exact .unknown fun now => introduced before (Option.isSome_iff_ne_none.mp now)
    | some t =>
      obtain ⟨t', after, follows⟩ := overlooks.develops.dictionary.values before
      rw [before] at related
      rw [show d.dictionary.get? id = some t' from after]
      cases related with
      | unknown introduced => exact .unknown fun _ => introduced rfl
      | less outgrows named => exact .less (outgrows.trans follows) named

theorem applyTable (lags : Lags names taught misled hidden c c') {t : Table} {d : Dictionary}
    {changed : Bool} (named : taught t.id → misled t.id ∨ names.contains t.qualifiedName = false)
    (ok : c.dictionary.apply t = .ok (d, changed)) :
    ∃ d' changed', c'.dictionary.apply t = .ok (d', changed') ∧
      (∀ id, ¬ taught id → d'.get? id = d.get? id) ∧
      ∀ id, taught id → Table.Lags names (misled id) (d.get? id) (d'.get? id) := by
  have others := (Dictionary.get?_apply ok).2
  by_cases told : taught t.id
  · obtain ⟨d', changed', ok', own⟩ := Dictionary.apply_lags (lags.less t.id told) (named told) ok
    have others' := (Dictionary.get?_apply ok').2
    refine ⟨d', changed', ok', fun id untaught => ?_, fun id taught => ?_⟩
    · have other : id ≠ t.id := fun same => untaught (same ▸ told)
      rw [others id other, others' id other]
      exact lags.same id untaught
    · by_cases same : id = t.id
      · subst same
        exact own
      · rw [others id same, others' id same]
        exact lags.less id taught
  · obtain ⟨d', ok', own⟩ := Dictionary.apply_alike (lags.same t.id told) ok
    have others' := (Dictionary.get?_apply ok').2
    refine ⟨d', changed, ok', fun id untaught => ?_, fun id taught => ?_⟩
    · by_cases same : id = t.id
      · subst same
        exact own
      · rw [others id same, others' id same]
        exact lags.same id untaught
    · have other : id ≠ t.id := fun same => told (same ▸ taught)
      rw [others id other, others' id other]
      exact lags.less id taught

theorem applyMetadata (lags : Lags names taught misled hidden c c') {e : Entry} {d : Catalog}
    {found : Option SchemaDocument}
    (named : ∀ document id, documentOf e = .ok document → document.objectId = some id →
      taught id → misled id ∨ names.contains document.qualifiedName = false)
    (shown : ∀ document, documentOf e = .ok document → ¬ hidden document.qualifiedName)
    (ok : c.applyMetadata e = .ok (d, found)) :
    ∃ d' found', c'.applyMetadata e = .ok (d', found') ∧ Lags names taught misled hidden d d' := by
  rw [applyMetadata_eq] at ok ⊢
  obtain ⟨document, carried, ok⟩ := bind_ok ok
  rw [carried]
  show ∃ d' found', c'.applyDocument document = _ ∧ _
  have shown := shown document carried
  rw [applyDocument_eq, lags.documents.hasAsNew shown]
  cases found with
  | none =>
    obtain ⟨rfl, stale⟩ := applyDocument_none ok
    exact ⟨c', none, if_pos stale, lags⟩
  | some found =>
    obtain ⟨newer, dictionary, ⟨_, schemas⟩, -⟩ := applyDocument_some ok
    obtain ⟨schemas', _, taken, documents⟩ := SchemaCache.apply_lags lags.documents shown newer schemas
    have passed := SchemaCache.check_of_apply taken
    rw [if_neg (by rw [newer]; decide), checkDocument]
    unfold dictionaryWith at dictionary ⊢
    cases table : document.table? with
    | none =>
      rw [table] at dictionary
      rw [passed, taken]
      refine ⟨_, _, rfl, ?_, ?_, documents⟩
      · rw [← Except.ok.inj dictionary]
        exact lags.same
      · rw [← Except.ok.inj dictionary]
        exact lags.less
    | some t =>
      obtain ⟨changed, applied⟩ := apply_of_dictionaryWith table dictionary
      obtain ⟨id, numbered, rfl⟩ := Option.map_eq_some_iff.mp table
      obtain ⟨d', changed', applied', same, less⟩ :=
        lags.applyTable (named document id carried numbered) applied
      dsimp only
      rw [Dictionary.check_of_apply applied', passed, applied', taken]
      exact ⟨_, _, rfl, same, less, documents⟩

end Lags

end Catalog

end ChangeCapture
