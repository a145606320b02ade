import ChangeCapture.Proofs.Overlooking

/-! What a change entry leaves behind in what is known: the columns that it describes, and the key
flags of the columns that its key images are of. -/
namespace ChangeCapture

/-- The same columns, where those of some ordinals belong to the key as well. -/
structure KeysAdded (keyed : Nat → Prop) (columns columns' : List Column) : Prop where
  length : columns'.length = columns.length
  flags : ∀ (n : Nat), ∀ c ∈ columns[n]?, ∃ c' ∈ columns'[n]?, c' = { c with isKey := c'.isKey } ∧
    (c'.isKey ↔ c.isKey ∨ keyed (columnOrdinal n))

variable {keyed : Nat → Prop} {columns columns' : List Column} {ordinals : List Nat}

theorem keysAdded_mark (same : ∀ n, n ∈ ordinals ↔ keyed n) (columns : List Column) :
    KeysAdded keyed columns (markKeyColumns columns ordinals) where
  length := List.length_mapIdx
  flags n c found := by
    rw [markKeyColumns, List.getElem?_mapIdx, Option.mem_def.mp found]
    refine ⟨_, rfl, ?_⟩
    rw [← same]
    split
    next marked => exact ⟨rfl, by simp [marked]⟩
    next unmarked => exact ⟨rfl, by simp [unmarked]⟩

/-- The same table, with more of its columns in the key, and its key flag as follows from them. -/
structure Table.Rekeyed (keyed : Nat → Prop) (t t' : Table) : Prop where
  same : t' = { t with keyed := t'.keyed }
  columns : KeysAdded keyed t.columns t'.columns
  hasKey : t'.hasKey ↔ ∃ column ∈ t'.columns, column.isKey

/-- The same document, with more of its columns in the key. -/
structure SchemaDocument.Rekeyed (keyed : Nat → Prop) (d d' : SchemaDocument) : Prop where
  same : d' = { d with columns := d'.columns }
  columns : KeysAdded keyed d.columns d'.columns

theorem Table.rekeyed_mark (same : ∀ n, n ∈ ordinals ↔ keyed n) (t : Table) :
    t.Rekeyed keyed (t.markKeyColumns ordinals) where
  same := rfl
  columns := keysAdded_mark same t.columns
  hasKey := List.any_eq_true

namespace Catalog

/-- The same catalog, where one table and one document have more columns in their keys. -/
structure Rekeyed (tableId : Nat) (name : String) (keyed : Nat → Prop) (c c' : Catalog) : Prop where
  table : Option.Rel (Table.Rekeyed keyed) (c.dictionary.get? tableId) (c'.dictionary.get? tableId)
  document : Option.Rel (SchemaDocument.Rekeyed keyed) (c.schemas.get? name) (c'.schemas.get? name)
  otherTables : ∀ id ≠ tableId, c'.dictionary.get? id = c.dictionary.get? id
  otherDocuments : ∀ other ≠ name, c'.schemas.get? other = c.schemas.get? other

theorem rekeyed_mark (same : ∀ n, n ∈ ordinals ↔ keyed n) (tableId : Nat) (name : String)
    (c : Catalog) : Rekeyed tableId name keyed c
      ⟨c.dictionary.markKeyColumns tableId ordinals, c.schemas.markKeyColumns name ordinals⟩ where
  table := by
    rw [get?_markKeyColumns, if_pos rfl]
    cases c.dictionary.get? tableId with
    | none => exact .none
    | some t => exact .some (t.rekeyed_mark same)
  document := by
    rw [SchemaCache.get?_markKeyColumns, if_pos rfl]
    cases c.schemas.get? name with
    | none => exact .none
    | some d => exact .some ⟨rfl, keysAdded_mark same d.columns⟩
  otherTables id other := by rw [get?_markKeyColumns, if_neg other]
  otherDocuments name other := by rw [SchemaCache.get?_markKeyColumns, if_neg other]

end Catalog

/-- Whether a key image is of the column that has an ordinal. -/
def KeyImage (table : Table) (images : List ColumnImage) (ordinal : Nat) : Prop :=
  ∃ image ∈ images, image.tag.type = .keyImage ∧
    ∃ column ∈ image.column? table, column.id = ordinal

theorem ChangeVector.supplemental_foldlM {table : Table} {images : List ColumnImage}
    {v v' : ChangeVector} (keyed : ∀ w ∈ v.key, w.isSupplementalKey)
    (ok : images.foldlM (add table) v = .ok v') (n : Nat) :
    v'.marks.supplemental n ↔ v.marks.supplemental n ∨ KeyImage table images n := by
  induction images generalizing v with
  | nil =>
    cases ok
    simp [KeyImage]
  | cons image images ih =>
    rw [List.foldlM_cons] at ok
    obtain ⟨u, added, ok⟩ := bind_ok ok
    have split : KeyImage table (image :: images) n ↔ (image.tag.type = .keyImage ∧
        ∃ column ∈ image.column? table, column.id = n) ∨ KeyImage table images n := by
      simp only [KeyImage, List.exists_mem_cons_iff]
    rw [split]
    cases found : table.column? image.ordinal with
    | none =>
      rw [add, found] at added
      cases added
      rw [ih keyed ok, ColumnImage.column?, found]
      simp
    | some column =>
      obtain ⟨keyed', marks⟩ := add_ok found keyed added
      rw [ih keyed' ok, marks, ColumnImage.column?, found, ← or_assoc]
      simp [Marks.add, and_comm, eq_comm (a := n)]

/-- The supplemental key of a change is what its key images are of. -/
theorem Change.mem_supplementalKey_ofImages {header : ChangeHeader} {table : Table}
    {images : List ColumnImage} {view : ChangeView} {change : Change}
    (ok : ofImages header table images view = .ok change) (n : Nat) :
    n ∈ change.supplementalKey.map ColumnValue.id ↔ KeyImage table images n := by
  have vector {v : ChangeVector} (made : ChangeVector.ofImages header table images = .ok v)
      (keyed : ∀ w ∈ v.key, w.isSupplementalKey) :
      n ∈ (Change.vector v).supplementalKey.map ColumnValue.id ↔ KeyImage table images n := by
    have marks := ChangeVector.supplemental_foldlM (v := .empty header)
      (by simp [ChangeVector.empty]) made n
    rw [supplementalKey, List.filter_eq_self.mpr keyed, List.mem_map]
    simpa [ChangeVector.marks, ChangeVector.empty] using marks
  have both := ofImages_alike header table images
  cases view with
  | row =>
    obtain ⟨r, made, rfl⟩ := map_ok ok
    rw [made] at both
    generalize made' : ChangeVector.ofImages header table images = y at both
    cases both with
    | @done _ v both =>
      exact (Catalog.mem_supplementalKey both.1 both.2.2 n).trans (vector made' both.2.2)
  | vector =>
    obtain ⟨v, made, rfl⟩ := map_ok ok
    rw [made] at both
    generalize ChangeRecord.ofImages header table images = x at both
    cases both with
    | done both => exact vector made both.2.2

namespace Catalog

/-- The key images of a change entry tell the key of its table if nothing else has told it: the key
flag that is kept with the table is off, whatever its columns say, and so is that of its document. -/
structure TellsKey (schemas : SchemaCache) (e : Entry) (table : Table) : Prop where
  kind : e.kind = .update ∨ e.kind = .delete
  keyless : table.hasKey = false
  unflagged : ∀ d ∈ schemas.get? table.qualifiedName, d.hasKeyFlags = false

/-- What a change entry leaves behind. Nothing is learned if the columns that it describes are
refused; once they are learned they stay. Keys are told by an entry that gives a change. -/
inductive Leaves (c : Catalog) (e : Entry) : Except Failure Change → Catalog → Prop where
  | refused {f : Failure} : describe c.dictionary e = .error f → Leaves c e (.error f) c
  | failed {f : Failure} {ordinals : List Nat} {learned : Dictionary} :
      describe c.dictionary e = .ok (e.tableId, ordinals, learned) →
      Leaves c e (.error f) ⟨learned, c.schemas⟩
  | unknown {change : Change} {ordinals : List Nat} {learned : Dictionary} :
      describe c.dictionary e = .ok (e.tableId, ordinals, learned) →
      learned.get? e.tableId = none → Leaves c e (.ok change) ⟨learned, c.schemas⟩
  | keyKnown {change : Change} {ordinals : List Nat} {learned : Dictionary} {table : Table} :
      describe c.dictionary e = .ok (e.tableId, ordinals, learned) →
      learned.get? e.tableId = some table → ¬ TellsKey c.schemas e table →
      Leaves c e (.ok change) ⟨learned, c.schemas⟩
  | keyless {change : Change} {ordinals : List Nat} {learned : Dictionary} {table : Table}
      {images : List ColumnImage} :
      describe c.dictionary e = .ok (e.tableId, ordinals, learned) →
      learned.get? e.tableId = some table → ColumnImage.ofEntry e ordinals = .ok images →
      (∀ n, ¬ KeyImage table images n) → Leaves c e (.ok change) ⟨learned, c.schemas⟩
  | keyTold {change : Change} {ordinals : List Nat} {learned : Dictionary} {table : Table}
      {images : List ColumnImage} {c' : Catalog} :
      describe c.dictionary e = .ok (e.tableId, ordinals, learned) →
      learned.get? e.tableId = some table → TellsKey c.schemas e table →
      ColumnImage.ofEntry e ordinals = .ok images → (∃ n, KeyImage table images n) →
      Rekeyed e.tableId table.qualifiedName (KeyImage table images) ⟨learned, c.schemas⟩ c' →
      Leaves c e (.ok change) c'

theorem lacksKey_iff {c : Catalog} {table : Table} : c.lacksKey table ↔ table.hasKey = false ∧
    ∀ d ∈ c.schemas.get? table.qualifiedName, d.hasKeyFlags = false := by
  rw [lacksKey, Bool.and_eq_true, Bool.not_eq_true']
  refine and_congr_right fun _ => ?_
  cases c.schemas.get? table.qualifiedName <;> simp

theorem keyedBySupplementalKey_iff {k : EntryKind} :
    (ChangeAction.ofKind k).keyedBySupplementalKey ↔ k = .update ∨ k = .delete := by
  cases k <;> decide

theorem tellsKey_iff {c : Catalog} {e : Entry} {table : Table} : TellsKey c.schemas e table ↔
    (ChangeAction.ofKind e.kind).keyedBySupplementalKey ∧ c.lacksKey table := by
  rw [keyedBySupplementalKey_iff, lacksKey_iff]
  exact ⟨fun told => ⟨told.kind, told.keyless, told.unflagged⟩,
    fun ⟨kind, keyless, unflagged⟩ => ⟨kind, keyless, unflagged⟩⟩

theorem action_ofEntry {e : Entry} {id : RecordId} {tableId : Nat} {table : Option Table}
    {header : ChangeHeader} (ok : ChangeHeader.ofEntry e id tableId table = .ok header) :
    header.action = .ofKind e.kind := by
  obtain ⟨_, _, ok⟩ := bind_ok ok
  obtain ⟨_, _, ok⟩ := bind_ok ok
  obtain ⟨_, _, ok⟩ := bind_ok ok
  obtain ⟨_, _, ok⟩ := bind_ok ok
  obtain ⟨_, _, ok⟩ := bind_ok ok
  obtain ⟨_, _, ok⟩ := bind_ok ok
  cases ok
  rfl

theorem retrofitKey_told {c : Catalog} {table : Table} {change : Change} {keyed : Nat → Prop}
    (told : change.header.action.keyedBySupplementalKey ∧ c.lacksKey table)
    (same : ∀ n, n ∈ change.supplementalKey.map ColumnValue.id ↔ keyed n) (some : ∃ n, keyed n) :
    Rekeyed change.header.tableId table.qualifiedName keyed c (c.retrofitKey table change).catalog := by
  simp only [← List.mem_eraseDups (l := change.supplementalKey.map ColumnValue.id)] at same
  obtain ⟨n, key⟩ := some
  have listed := List.ne_nil_of_mem ((same n).mpr key)
  unfold retrofitKey
  dsimp only
  rw [if_pos ⟨told.1, told.2, listed⟩]
  exact rekeyed_mark same ..

theorem retrofitKey_keyless {c : Catalog} {table : Table} {change : Change} {keyed : Nat → Prop}
    (same : ∀ n, n ∈ change.supplementalKey.map ColumnValue.id ↔ keyed n) (none : ∀ n, ¬ keyed n) :
    (c.retrofitKey table change).catalog = c := by
  have empty : change.supplementalKey.map ColumnValue.id = [] :=
    List.eq_nil_iff_forall_not_mem.mpr fun n member => none n ((same n).mp member)
  unfold retrofitKey
  dsimp only
  rw [if_neg fun told => told.2.2 (by rw [empty]; rfl)]

theorem retrofitKey_untold {c : Catalog} {table : Table} {change : Change}
    (untold : ¬ (change.header.action.keyedBySupplementalKey ∧ c.lacksKey table)) :
    (c.retrofitKey table change).catalog = c := by
  unfold retrofitKey
  dsimp only
  rw [if_neg fun told => untold ⟨told.1, told.2.1⟩]

theorem result_retrofitKey (c : Catalog) (table : Table) (change : Change) :
    ∃ change', (c.retrofitKey table change).result = .ok change' := by
  unfold retrofitKey
  dsimp only
  split <;> exact ⟨_, rfl⟩

theorem leaves_assembleKnown {c : Catalog} {e : Entry} {ordinals : List Nat} {learned : Dictionary}
    {table : Table} (described : describe c.dictionary e = .ok (e.tableId, ordinals, learned))
    (known : learned.get? e.tableId = some table) (view : ChangeView) (id : RecordId) :
    let done := assembleKnown ⟨learned, c.schemas⟩ view id e table e.tableId ordinals
    Leaves c e done.result done.catalog := by
  unfold assembleKnown
  dsimp only
  split
  · exact .failed described
  next header images read =>
    split
    · exact .failed described
    next change made =>
      obtain ⟨_, headed, read⟩ := bind_ok read
      obtain ⟨_, listed, read⟩ := bind_ok read
      cases read
      have header := (Change.of_ofImages made).1
      have own := ChangeHeader.tableId_ofEntry headed
      have action := action_ofEntry headed
      rw [← header] at own action
      have same := Change.mem_supplementalKey_ofImages made
      obtain ⟨change', done⟩ := result_retrofitKey ⟨learned, c.schemas⟩ table change
      rw [done]
      by_cases told : TellsKey c.schemas e table
      · have may := tellsKey_iff (c := ⟨learned, c.schemas⟩).mp told
        rw [← action] at may
        by_cases some : ∃ n, KeyImage table images n
        · have rekeyed := retrofitKey_told may same some
          rw [own] at rekeyed
          exact .keyTold described known told listed some rekeyed
        · have none := not_exists.mp some
          rw [retrofitKey_keyless same none]
          exact .keyless described known listed none
      · have mayNot := mt (tellsKey_iff (c := ⟨learned, c.schemas⟩)).mpr told
        rw [← action] at mayNot
        rw [retrofitKey_untold mayNot]
        exact .keyKnown described known told

theorem leaves_assemble (c : Catalog) (view : ChangeView) (id : RecordId) (e : Entry) :
    Leaves c e (c.assemble view id e).result (c.assemble view id e).catalog := by
  unfold assemble
  split
  next f refused => exact .refused refused
  next tableId ordinals learned described =>
    obtain rfl := (describe_frame described).1
    dsimp only
    split
    next table known => exact leaves_assembleKnown described known view id
    next unknown =>
      cases assembleUnknown view id e e.tableId ordinals with
      | error f => exact .failed described
      | ok change => exact .unknown described unknown

variable {c c' : Catalog} {e : Entry} {result : Except Failure Change}

theorem Leaves.otherTables (leaves : Leaves c e result c') :
    ∀ id ≠ e.tableId, c'.dictionary.get? id = c.dictionary.get? id := by
  cases leaves with
  | refused => exact fun _ _ => rfl
  | failed described => exact (describe_frame described).2
  | unknown described => exact (describe_frame described).2
  | keyKnown described => exact (describe_frame described).2
  | keyless described => exact (describe_frame described).2
  | keyTold described _ _ _ _ rekeyed =>
    exact fun id other => (rekeyed.otherTables id other).trans ((describe_frame described).2 id other)

theorem Leaves.otherDocuments (leaves : Leaves c e result c') {name : String}
    (changed : c'.schemas.get? name ≠ c.schemas.get? name) :
    ∃ table, c'.dictionary.get? e.tableId = some table ∧ table.qualifiedName = name := by
  cases leaves with
  | refused => exact absurd rfl changed
  | failed => exact absurd rfl changed
  | unknown => exact absurd rfl changed
  | keyKnown => exact absurd rfl changed
  | keyless => exact absurd rfl changed
  | @keyTold _ _ learned table _ _ _ known _ _ _ rekeyed =>
    have own : table.qualifiedName = name :=
      Classical.not_not.mp fun other => changed (rekeyed.otherDocuments name (Ne.symm other))
    have marked := rekeyed.table
    dsimp only at marked
    rw [known] at marked
    generalize c'.dictionary.get? e.tableId = after at marked
    cases marked with
    | @some _ table' same => exact ⟨table', rfl, by rw [same.same]; exact own⟩

end Catalog

namespace Desk

/-- A change entry changes nothing but what is known of the table of its id and the document of that
table's name, whatever becomes of it. If it is refused no document changes, and of the table no more
than the columns that the entry described. If it gives a change, more is changed only where the key
flags of the table and of its document are off and the entry is an update or a delete: the columns that
its key images are of then belong to the key of the table and of the document, and the key flag of the
table is set anew from its columns. Before that it may say anything. -/
theorem assemble_leaves (o : StreamOptions) (e : Entry) (id : RecordId) (d : Desk) :
    let c := d.state.cache.catalog
    let done := assemble o e id d
    let c' := done.2.state.cache.catalog
    done.2.state = { d.state with cache := { d.state.cache with catalog := c' } } ∧
      done.2.journal.summaries = d.journal.summaries ∧
      (∀ id ≠ e.tableId, c'.dictionary.get? id = c.dictionary.get? id) ∧
      (∀ name, c'.schemas.get? name ≠ c.schemas.get? name →
        ∃ table, c'.dictionary.get? e.tableId = some table ∧ table.qualifiedName = name) ∧
      Catalog.Leaves c e done.1 c' := by
  have leaves := d.state.cache.catalog.leaves_assemble o.config.view id e
  have frame := warn_frame
    (d.withCatalog (d.state.cache.catalog.assemble o.config.view id e).catalog)
    (d.state.cache.catalog.assemble o.config.view id e).warnings
  rw [assemble_run]
  dsimp only
  rw [frame.1, frame.2]
  exact ⟨rfl, rfl, leaves.otherTables, fun _ => leaves.otherDocuments, leaves⟩

end Desk

end ChangeCapture
