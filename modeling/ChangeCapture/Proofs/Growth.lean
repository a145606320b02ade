import ChangeCapture.Proofs.Admission
import ChangeCapture.Proofs.Merging
import ChangeCapture.Proofs.TransactionRuns

/-! What becomes of a catalog while entries are read. Tables and documents are never lost, their
columns stand at the places of their ordinals, and a column that was described keeps its name and
type. A catalog that has grown out of another replaces it whole when the two are merged. -/
namespace ChangeCapture

namespace Registry

variable {κ : Type u} {α : Type v} [DecidableEq κ]

theorem keys_place (key : κ) (a : α) (l : List (κ × α)) :
    l.map Prod.fst <+: (place key a l).map Prod.fst := by
  induction l with
  | nil => exact List.nil_prefix
  | cons e l ih =>
    obtain ⟨k, b⟩ := e
    by_cases hit : k = key
    · rw [place, if_pos hit]
      exact List.prefix_rfl
    · rw [place, if_neg hit, List.map_cons, List.map_cons]
      exact List.prefix_cons_inj _ |>.mpr ih

theorem keys_insert (r : Registry κ α) (key : κ) (a : α) : r.keys <+: (r.insert key a).keys :=
  keys_place key a r.entries

theorem place_append {key : κ} {done : List (κ × α)} (new : key ∉ done.map Prod.fst) (a : α)
    (old : List (κ × α)) : place key a (done ++ old) = done ++ place key a old := by
  induction done with
  | nil => rfl
  | cons e done ih =>
    obtain ⟨k, b⟩ := e
    simp only [List.map_cons, List.mem_cons, not_or] at new
    rw [List.cons_append, place, if_neg (Ne.symm new.1), ih new.2, List.cons_append]

theorem foldl_place {done old new : List (κ × α)}
    (distinct : ((done ++ new).map Prod.fst).Nodup)
    (first : old.map Prod.fst <+: new.map Prod.fst) :
    new.foldl (fun l e => place e.1 e.2 l) (done ++ old) = done ++ new := by
  induction new generalizing done old with
  | nil =>
    obtain rfl : old = [] := by simpa using first
    rfl
  | cons e new ih =>
    obtain ⟨k, a⟩ := e
    have fresh : k ∉ done.map Prod.fst := by
      rw [List.map_append] at distinct
      exact fun member => (List.nodup_append.mp distinct).2.2 k member k List.mem_cons_self rfl
    obtain ⟨rest, placed, shorter⟩ : ∃ rest, place k a old = (k, a) :: rest ∧
        rest.map Prod.fst <+: new.map Prod.fst := by
      cases old with
      | nil => exact ⟨[], rfl, List.nil_prefix⟩
      | cons e old =>
        obtain ⟨k', b⟩ := e
        obtain ⟨same, shorter⟩ := List.cons_prefix_cons.mp first
        obtain rfl : k' = k := same
        exact ⟨old, if_pos rfl, shorter⟩
    have onward : done ++ (k, a) :: rest = (done ++ [(k, a)]) ++ rest := by simp
    rw [List.foldl_cons, place_append fresh, placed, onward,
      ih (by simpa using distinct) shorter]
    simp

/-- Taking over every entry of a registry that has the same keys and more behind them gives that
registry. -/
theorem extend_eq {r other : Registry κ α} (first : r.keys <+: other.keys) :
    r.extend other = other := by
  have entries (l : List (κ × α)) (s : Registry κ α) :
      (l.foldl (fun acc e => acc.insert e.1 e.2) s).entries =
        l.foldl (fun l e => place e.1 e.2 l) s.entries := by
    induction l generalizing s with
    | nil => rfl
    | cons e l ih => exact ih (s.insert e.1 e.2)
  have taken := foldl_place (List.nil_append other.entries ▸ other.nodup) first
  refine ext ?_
  rw [extend, entries]
  exact taken

theorem get?_of_mem {r : Registry κ α} {e : κ × α} (member : e ∈ r.entries) :
    r.get? e.1 = some e.2 := by
  obtain ⟨l, distinct⟩ := r
  show find e.1 l = some e.2
  induction l with
  | nil => cases member
  | cons e' l ih =>
    obtain ⟨k, b⟩ := e'
    obtain ⟨fresh, distinct⟩ := List.nodup_cons.mp distinct
    rcases List.mem_cons.mp member with rfl | member
    · exact if_pos rfl
    · rw [find, if_neg fun (same : k = e.1) => fresh (same ▸ List.mem_map.mpr ⟨e, member, rfl⟩)]
      exact ih distinct member

/-- Keys keep their places, and their values only go on to related ones. -/
structure Grows (R : α → α → Prop) (r r' : Registry κ α) : Prop where
  keys : r.keys <+: r'.keys
  values : ∀ {key : κ} {a : α}, r.get? key = some a → ∃ a', r'.get? key = some a' ∧ R a a'

def All (P : α → Prop) (r : Registry κ α) : Prop := ∀ key a, r.get? key = some a → P a

/-- Grows, and stays sound. -/
structure Develops (R : α → α → Prop) (P : α → Prop) (r r' : Registry κ α) : Prop
    extends Grows R r r' where
  sound : All P r → All P r'

namespace Develops

variable {R : α → α → Prop} {P : α → Prop} {r r' r'' : Registry κ α}

theorem refl (same : ∀ a, R a a) (r : Registry κ α) : Develops R P r r :=
  ⟨⟨List.prefix_rfl, fun found => ⟨_, found, same _⟩⟩, id⟩

theorem trans (also : ∀ {a b c}, R a b → R b c → R a c) (first : Develops R P r r')
    (rest : Develops R P r' r'') : Develops R P r r'' := by
  refine ⟨⟨first.keys.trans rest.keys, fun found => ?_⟩, fun all => rest.sound (first.sound all)⟩
  obtain ⟨a', found', related⟩ := first.values found
  obtain ⟨a'', found'', related'⟩ := rest.values found'
  exact ⟨a'', found'', also related related'⟩

theorem insert (same : ∀ a, R a a) {key : κ} {b : α} (follows : ∀ a, r.get? key = some a → R a b)
    (sound : All P r → P b) : Develops R P r (r.insert key b) := by
  refine ⟨⟨r.keys_insert key b, fun {k a} found => ?_⟩, fun all k a found => ?_⟩
  · rw [get?_insert]
    split
    next here => exact ⟨b, rfl, follows a (here ▸ found)⟩
    next => exact ⟨a, found, same a⟩
  · rw [get?_insert] at found
    split at found
    · cases found
      exact sound all
    · exact all k a found

theorem modify (same : ∀ a, R a a) (r : Registry κ α) (key : κ) {f : α → α}
    (follows : ∀ a, R a (f a)) (sound : ∀ a, P a → P (f a)) : Develops R P r (r.modify key f) := by
  unfold Registry.modify
  split
  next a found =>
    exact insert same (fun b there => Option.some.inj (found.symm.trans there) ▸ follows a)
      fun all => sound a (all key a found)
  next => exact refl same r

end Develops

end Registry

/-- The columns of a later version: none is lost, and what was described keeps its name and type. -/
structure Outgrows (old new : List Column) : Prop where
  length : old.length ≤ new.length
  described : ∀ {i : Nat} {c : Column}, old[i]? = some c → c.isPlaceholder = false →
    ∃ c' : Column, new[i]? = some c' ∧ c'.signature = c.signature

theorem Column.isPlaceholder_of_signature {c c' : Column} (same : c'.signature = c.signature) :
    c'.isPlaceholder = c.isPlaceholder := by
  have type : c'.dataType = c.dataType := congrArg Prod.snd same
  rw [isPlaceholder, isPlaceholder, type]

namespace Outgrows

theorem refl (columns : List Column) : Outgrows columns columns :=
  ⟨Nat.le_refl _, fun found _ => ⟨_, found, rfl⟩⟩

theorem trans {old mid new : List Column} (first : Outgrows old mid) (rest : Outgrows mid new) :
    Outgrows old new := by
  refine ⟨first.length.trans rest.length, fun found described => ?_⟩
  obtain ⟨c', found', same⟩ := first.described found described
  obtain ⟨c'', found'', same'⟩ :=
    rest.described found' ((Column.isPlaceholder_of_signature same).trans described)
  exact ⟨c'', found'', same'.trans same⟩

theorem nil (new : List Column) : Outgrows [] new := ⟨Nat.zero_le _, nofun⟩

theorem cons {c c' : Column} {old new : List Column}
    (same : c.isPlaceholder = false → c'.signature = c.signature) (rest : Outgrows old new) :
    Outgrows (c :: old) (c' :: new) := by
  refine ⟨Nat.succ_le_succ rest.length, fun {i} _ found described => ?_⟩
  cases i with
  | zero =>
    cases found
    exact ⟨c', rfl, same described⟩
  | succ i => exact rest.described found described

theorem of_map {old new : List Column} (same : new.map Column.signature = old.map Column.signature) :
    Outgrows old new := by
  have lengths := congrArg List.length same
  rw [List.length_map, List.length_map] at lengths
  refine ⟨lengths.ge, fun {i c} found _ => ?_⟩
  have there : (new.map Column.signature)[i]? = some c.signature := by
    rw [same, List.getElem?_map, found]
    rfl
  rw [List.getElem?_map] at there
  obtain ⟨c', found', same⟩ := Option.map_eq_some_iff.mp there
  exact ⟨c', found', same⟩

end Outgrows

/-- Columns from place `index` on stand at the places of their ordinals. -/
def AlignedFrom (index : Nat) (columns : List Column) : Prop :=
  ∀ i c, columns[i]? = some c → c.id = columnOrdinal (index + i)

abbrev Aligned (columns : List Column) : Prop := AlignedFrom 0 columns

theorem alignedFrom_nil (index : Nat) : AlignedFrom index [] := nofun

theorem alignedFrom_cons {index : Nat} {c : Column} {columns : List Column} :
    AlignedFrom index (c :: columns) ↔
      c.id = columnOrdinal index ∧ AlignedFrom (index + 1) columns := by
  constructor
  · refine fun aligned => ⟨aligned 0 c rfl, fun i c' found => ?_⟩
    rw [aligned (i + 1) c' found, Nat.add_assoc, Nat.add_comm i]
  · rintro ⟨here, rest⟩ i c' found
    cases i with
    | zero =>
      cases found
      exact here
    | succ i => rw [rest i c' found, Nat.add_assoc, Nat.add_comm i]

theorem AlignedFrom.append {index : Nat} {columns more : List Column}
    (first : AlignedFrom index columns) (rest : AlignedFrom (index + columns.length) more) :
    AlignedFrom index (columns ++ more) := by
  intro i c found
  by_cases inside : i < columns.length
  · rw [List.getElem?_append_left inside] at found
    exact first i c found
  · rw [List.getElem?_append_right (Nat.le_of_not_lt inside)] at found
    rw [rest _ c found]
    congr 1
    omega

theorem AlignedFrom.of_map {index : Nat} {columns more : List Column}
    (aligned : AlignedFrom index columns) (same : more.map Column.id = columns.map Column.id) :
    AlignedFrom index more := by
  intro i c found
  have there : (columns.map Column.id)[i]? = some c.id := by
    rw [← same, List.getElem?_map, found]
    rfl
  rw [List.getElem?_map] at there
  obtain ⟨c', found', same⟩ := Option.map_eq_some_iff.mp there
  rw [← same, aligned i c' found']

theorem outgrows_reconcile {table : String} {cached columns : List Column}
    (checked : checkColumns table cached columns = .ok ()) :
    Outgrows cached (reconcileColumns cached columns) := by
  fun_induction reconcileColumns cached columns with
  | case1 => exact .nil _
  | case2 cached => exact .of_map (by simp [Column.loosened, Column.signature, Function.comp_def])
  | case3 old cached new columns ih =>
    rw [checkColumns] at checked
    split at checked
    next compatible =>
      refine .cons (fun described => ?_) (ih checked)
      simp only [Column.compatible, described, Bool.false_or, Bool.or_eq_true,
        decide_eq_true_eq] at compatible
      unfold Column.succeed
      split
      · rfl
      · exact (compatible.resolve_left ‹_›).symm
    next => cases checked

theorem aligned_reconcile {index : Nat} {cached columns : List Column}
    (known : AlignedFrom index cached) (new : AlignedFrom index columns) :
    AlignedFrom index (reconcileColumns cached columns) := by
  fun_induction reconcileColumns cached columns generalizing index with
  | case1 => exact new.of_map (by simp [Column.loosened, Function.comp_def])
  | case2 => exact known.of_map (by simp [Column.loosened, Function.comp_def])
  | case3 old cached c columns ih =>
    rw [alignedFrom_cons] at known new ⊢
    refine ⟨?_, ih known.2 new.2⟩
    unfold Column.succeed
    split
    · exact known.1
    · exact new.1

theorem signature_markKeyColumns (columns : List Column) (ordinals : List Nat) :
    (markKeyColumns columns ordinals).map Column.signature = columns.map Column.signature := by
  refine List.ext_getElem? fun i => ?_
  simp only [markKeyColumns, List.getElem?_map, List.getElem?_mapIdx, Option.map_map]
  congr 1
  funext c
  dsimp only [Function.comp]
  split <;> rfl

theorem id_markKeyColumns (columns : List Column) (ordinals : List Nat) :
    (markKeyColumns columns ordinals).map Column.id = columns.map Column.id := by
  refine List.ext_getElem? fun i => ?_
  simp only [markKeyColumns, List.getElem?_map, List.getElem?_mapIdx, Option.map_map]
  congr 1
  funext c
  dsimp only [Function.comp]
  split <;> rfl

namespace Catalog

theorem aligned_placeInline {columns : List Column} (aligned : Aligned columns) (i : InlineColumn) :
    Aligned (placeInline columns i) := by
  unfold placeInline
  cases ordinal : i.ordinal with
  | zero => exact aligned
  | succ index =>
    dsimp only [columnIndex?]
    cases found : columns[index]? with
    | some cached =>
      have id : (i.succeed cached).id = columnOrdinal index := by
        have own : (i.succeed cached).id = i.ordinal := by
          unfold InlineColumn.succeed
          dsimp only
          split <;> rfl
        rw [own, ordinal]
        rfl
      intro place c there
      rw [List.getElem?_set] at there
      split at there
      next same =>
        subst same
        split at there <;> cases there
        rw [id, Nat.zero_add]
      next => exact aligned place c there
    | none =>
      have gap : columns.length ≤ index := List.getElem?_eq_none_iff.mp found
      refine (aligned.append ?_).append ?_
      · intro place c there
        rw [List.getElem?_map] at there
        obtain ⟨n, ranged, rfl⟩ := Option.map_eq_some_iff.mp there
        have inside := (List.getElem?_eq_some_iff.mp ranged).1
        rw [List.length_range'] at inside
        rw [List.getElem?_range' inside] at ranged
        cases ranged
        simp [Column.placeholder, Column.ofType]
      · rw [alignedFrom_cons]
        refine ⟨?_, alignedFrom_nil _⟩
        simp only [TypeSpec.column, Column.ofType, columnOrdinal, List.length_append,
          List.length_map, List.length_range']
        omega

theorem aligned_foldl_placeInline {columns : List Column} (aligned : Aligned columns)
    (inline : List InlineColumn) : Aligned (inline.foldl placeInline columns) := by
  induction inline generalizing columns with
  | nil => exact aligned
  | cons i inline ih => exact ih (aligned_placeInline aligned i)

end Catalog

theorem SchemaText.aligned_numbered {table : String} {index : Nat}
    {descriptors : List ColumnDescriptor} {columns : List Column}
    (ok : numbered table index descriptors = .ok columns) : AlignedFrom index columns := by
  fun_induction numbered table index descriptors generalizing columns with
  | case1 =>
    cases ok
    exact alignedFrom_nil _
  | case2 index c rest here ih =>
    obtain ⟨more, numbered, ok⟩ := bind_ok ok
    cases ok
    exact alignedFrom_cons.mpr ⟨here, ih numbered⟩
  | case3 => cases ok

theorem SchemaDocument.aligned_parse {text : String} {d : SchemaDocument}
    (ok : parse text = .ok d) : Aligned d.columns := by
  unfold parse at ok
  split at ok
  next =>
    obtain ⟨columns, numbered, ok⟩ := bind_ok ok
    cases ok
    exact SchemaText.aligned_numbered numbered
  next => cases ok

/-- A later definition of a table. -/
def Table.Follows (t t' : Table) : Prop := Outgrows t.columns t'.columns

def Table.Aligned (t : Table) : Prop := ChangeCapture.Aligned t.columns

/-- Columns stand at their places, and the key flag is the one that follows from theirs. -/
structure Table.Sound (t : Table) : Prop where
  aligned : t.Aligned
  flagged : t.hasKey = t.columns.any Column.isKey

/-- What can be said of tables for as long as columns are written at their places. -/
structure Table.Lasting (P : Table → Prop) : Prop where
  aligned : ∀ t, P t → t.Aligned
  new : ∀ id owner name columns, ChangeCapture.Aligned columns → P (new id owner name columns)

theorem Table.lasting_aligned : Lasting Table.Aligned :=
  ⟨fun _ aligned => aligned, fun _ _ _ _ aligned => aligned⟩

theorem Table.lasting_sound : Lasting Table.Sound :=
  ⟨fun _ => Sound.aligned, fun _ _ _ _ aligned => ⟨aligned, rfl⟩⟩

/-- A later version of a document. -/
structure SchemaDocument.Follows (d d' : SchemaDocument) : Prop where
  validSince : d.validSince ≤ d'.validSince
  columns : Outgrows d.columns d'.columns

def SchemaDocument.Aligned (d : SchemaDocument) : Prop := ChangeCapture.Aligned d.columns

theorem Table.Follows.refl (t : Table) : t.Follows t := Outgrows.refl _

theorem SchemaDocument.Follows.refl (d : SchemaDocument) : d.Follows d := ⟨Nat.le_refl _, .refl _⟩

theorem SchemaDocument.Follows.trans {d d' d'' : SchemaDocument} (first : d.Follows d')
    (rest : d'.Follows d'') : d.Follows d'' :=
  ⟨first.validSince.trans rest.validSince, first.columns.trans rest.columns⟩

namespace Dictionary

abbrev Develops (P : Table → Prop) (d d' : Dictionary) : Prop :=
  d.tables.Develops Table.Follows P d'.tables

variable {P : Table → Prop}

theorem develops_apply (lasting : Table.Lasting P) {d d' : Dictionary} {t : Table} {changed : Bool}
    (ok : d.apply t = .ok (d', changed)) (sound : d.tables.All P → P t) : d.Develops P d' := by
  unfold apply at ok
  cases found : d.get? t.id with
  | none =>
    rw [found] at ok
    cases ok
    exact .insert Table.Follows.refl (fun known there => nomatch found.symm.trans there) sound
  | some cached =>
    rw [found] at ok
    obtain ⟨⟨columns, evolution⟩, evolved, ok⟩ := bind_ok ok
    obtain ⟨checked, rfl⟩ := evolveColumns_ok evolved
    dsimp only at ok
    split at ok <;> cases ok
    · exact .refl Table.Follows.refl _
    · refine .insert Table.Follows.refl (fun known there => ?_) fun all =>
        lasting.new _ _ _ _ (aligned_reconcile (lasting.aligned _ (all _ _ found))
          (lasting.aligned _ (sound all)))
      obtain rfl : cached = known := Option.some.inj (found.symm.trans there)
      exact outgrows_reconcile checked

theorem develops_markKeyColumns (lasting : Table.Lasting P) (d : Dictionary) (id : Nat)
    (ordinals : List Nat) : d.Develops P (d.markKeyColumns id ordinals) :=
  .modify Table.Follows.refl _ _ (fun _ => .of_map (signature_markKeyColumns ..))
    fun t sound => lasting.new _ _ _ _ ((lasting.aligned t sound).of_map (id_markKeyColumns ..))

end Dictionary

namespace SchemaCache

abbrev Develops (s s' : SchemaCache) : Prop :=
  s.documents.Develops SchemaDocument.Follows SchemaDocument.Aligned s'.documents

theorem develops_apply {s s' : SchemaCache} {d : SchemaDocument} {change : SchemaChange}
    (ok : s.apply d = .ok (s', change)) (aligned : d.Aligned) : s.Develops s' := by
  unfold apply at ok
  cases found : s.get? d.qualifiedName with
  | none =>
    rw [found] at ok
    cases ok
    exact .insert SchemaDocument.Follows.refl (fun known there => nomatch found.symm.trans there)
      fun _ => aligned
  | some cached =>
    rw [found] at ok
    dsimp only at ok
    split at ok
    next =>
      cases ok
      exact .refl SchemaDocument.Follows.refl _
    next newer =>
      obtain ⟨⟨columns, evolution⟩, evolved, ok⟩ := bind_ok ok
      obtain ⟨checked, rfl⟩ := evolveColumns_ok evolved
      cases ok
      refine .insert SchemaDocument.Follows.refl (fun known there => ?_) fun all =>
        aligned_reconcile (all _ _ found) aligned
      obtain rfl : cached = known := Option.some.inj (found.symm.trans there)
      exact ⟨Nat.le_of_not_le newer, outgrows_reconcile checked⟩

theorem develops_markKeyColumns (s : SchemaCache) (name : String) (ordinals : List Nat) :
    s.Develops (s.markKeyColumns name ordinals) :=
  .modify SchemaDocument.Follows.refl _ _
    (fun _ => ⟨Nat.le_refl _, .of_map (signature_markKeyColumns ..)⟩)
    fun _ aligned => aligned.of_map (id_markKeyColumns ..)

theorem foldl_takeNewer {entries : List (String × SchemaDocument)}
    {documents : Registry String SchemaDocument} (distinct : (entries.map Prod.fst).Nodup)
    (newer : ∀ e ∈ entries, ∀ d, documents.get? e.1 = some d → d.validSince ≤ e.2.validSince) :
    entries.foldl takeNewer documents =
      entries.foldl (fun acc e => acc.insert e.1 e.2) documents := by
  induction entries generalizing documents with
  | nil => rfl
  | cons e entries ih =>
    obtain ⟨fresh, distinct⟩ := List.nodup_cons.mp distinct
    have taken : takeNewer documents e = documents.insert e.1 e.2 := by
      unfold takeNewer
      split
      next d found => exact if_neg (Nat.not_lt_of_le (newer e List.mem_cons_self d found))
      next => rfl
    rw [List.foldl_cons, List.foldl_cons, taken]
    refine ih distinct fun e' member d found => ?_
    have other : e'.1 ≠ e.1 := fun same => fresh (same ▸ List.mem_map.mpr ⟨e', member, rfl⟩)
    rw [Registry.get?_insert, if_neg other] at found
    exact newer e' (List.mem_cons_of_mem _ member) d found

end SchemaCache

namespace Catalog

/-- What a catalog may become: no table and no document is lost, and only later versions take their
places. -/
structure Grows (c c' : Catalog) : Prop where
  tables : c.dictionary.tables.Grows Table.Follows c'.dictionary.tables
  documents : c.schemas.documents.Grows SchemaDocument.Follows c'.schemas.documents

/-- Every column stands at the place of its ordinal, and every key flag follows from the columns. -/
structure Sound (c : Catalog) : Prop where
  tables : c.dictionary.tables.All Table.Sound
  documents : c.schemas.documents.All SchemaDocument.Aligned

/-- What reading entries does to a catalog. -/
structure Develops (c c' : Catalog) : Prop where
  dictionary : c.dictionary.Develops Table.Sound c'.dictionary
  schemas : c.schemas.Develops c'.schemas

theorem Develops.refl (c : Catalog) : c.Develops c :=
  ⟨.refl Table.Follows.refl _, .refl SchemaDocument.Follows.refl _⟩

theorem Develops.trans {c c' c'' : Catalog} (first : c.Develops c') (rest : c'.Develops c'') :
    c.Develops c'' :=
  ⟨.trans Outgrows.trans first.dictionary rest.dictionary,
    .trans SchemaDocument.Follows.trans first.schemas rest.schemas⟩

theorem Develops.grows {c c' : Catalog} (develops : c.Develops c') : c.Grows c' :=
  ⟨develops.dictionary.toGrows, develops.schemas.toGrows⟩

theorem Develops.sound {c c' : Catalog} (develops : c.Develops c') (sound : c.Sound) : c'.Sound :=
  ⟨develops.dictionary.sound sound.tables, develops.schemas.sound sound.documents⟩

theorem sound_empty : empty.Sound := ⟨nofun, nofun⟩

/-- A copy that has grown is taken over as it is. -/
theorem merge_eq {c c' : Catalog} (grows : c.Grows c') : c.merge c' = c' := by
  have documents : c'.schemas.documents.entries.foldl SchemaCache.takeNewer c.schemas.documents =
      c.schemas.documents.extend c'.schemas.documents := by
    refine SchemaCache.foldl_takeNewer c'.schemas.documents.nodup fun e member d found => ?_
    obtain ⟨d', found', since, -⟩ := grows.documents.values found
    obtain rfl := Option.some.inj ((Registry.get?_of_mem member).symm.trans found')
    exact since
  rw [merge, Dictionary.merge, SchemaCache.merge, documents, Registry.extend_eq grows.tables.keys,
    Registry.extend_eq grows.documents.keys]

theorem aligned_documentOf {e : Entry} {d : SchemaDocument} (ok : documentOf e = .ok d) :
    d.Aligned := by
  obtain ⟨json, _, ok⟩ := bind_ok ok
  cases json with
  | none => cases ok
  | some json => exact SchemaDocument.aligned_parse ok

theorem Accepts.develops {c c' : Catalog} {d found : SchemaDocument} (accepts : Accepts c d c' found)
    (aligned : d.Aligned) : c.Develops c' := by
  obtain ⟨_, schemas⟩ := accepts.schemas
  refine ⟨?_, SchemaCache.develops_apply schemas aligned⟩
  have table := accepts.dictionary
  unfold dictionaryWith at table
  cases named : d.table? with
  | none =>
    rw [named] at table
    rw [← Except.ok.inj table]
    exact .refl Table.Follows.refl _
  | some t =>
    obtain ⟨_, applied⟩ := apply_of_dictionaryWith named accepts.dictionary
    obtain ⟨_, -, rfl⟩ := Option.map_eq_some_iff.mp named
    exact Dictionary.develops_apply Table.lasting_sound applied fun _ => ⟨aligned, rfl⟩

theorem develops_applyMetadata {c c' : Catalog} {e : Entry} {found : Option SchemaDocument}
    (ok : c.applyMetadata e = .ok (c', found)) : c.Develops c' := by
  rw [applyMetadata_eq] at ok
  obtain ⟨d, carried, ok⟩ := bind_ok ok
  cases found with
  | none =>
    rw [(applyDocument_none ok).1]
    exact .refl c
  | some found => exact (applyDocument_some ok).develops (aligned_documentOf carried)

theorem newer_of_applyMetadata {c c' : Catalog} {e : Entry} {found : Option SchemaDocument}
    (ok : c.applyMetadata e = .ok (c', found)) {name : String} {d d' : SchemaDocument}
    (before : c.schemas.get? name = some d) (after : c'.schemas.get? name = some d') :
    d' = d ∨ d.validSince < d'.validSince := by
  rw [applyMetadata_eq] at ok
  obtain ⟨new, _, ok⟩ := bind_ok ok
  cases found with
  | none =>
    rw [(applyDocument_none ok).1, before] at after
    exact .inl (Option.some.inj after).symm
  | some found =>
    have accepts := applyDocument_some ok
    by_cases own : name = new.qualifiedName
    · subst own
      have newer := accepts.newer
      obtain ⟨columns, rfl, -⟩ := accepts.takes.document
      rw [accepts.found] at after
      cases after
      rw [SchemaCache.hasAsNew, before] at newer
      exact .inr (by simpa using newer)
    · rw [accepts.takes.otherDocuments name own, before] at after
      exact .inl (Option.some.inj after).symm

theorem develops_learn {P : Table → Prop} (lasting : Table.Lasting P) {d d' : Dictionary}
    {e : Entry} {tableId : Nat} {ordinals : List Nat}
    (ok : learn d e tableId ordinals = .ok d') : d.Develops P d' := by
  unfold learn at ok
  dsimp only at ok
  split at ok
  · cases ok
  obtain ⟨owner, _, ok⟩ := bind_ok ok
  obtain ⟨name, _, ok⟩ := bind_ok ok
  obtain ⟨inline, _, ok⟩ := bind_ok ok
  obtain ⟨⟨dictionary, changed⟩, applied, ok⟩ := bind_ok ok
  cases ok
  refine Dictionary.develops_apply lasting applied fun all =>
    lasting.new _ _ _ _ (aligned_foldl_placeInline ?_ inline)
  cases known : d.get? tableId with
  | none => exact alignedFrom_nil 0
  | some t => exact lasting.aligned t (all tableId t known)

theorem develops_describe {P : Table → Prop} (lasting : Table.Lasting P) {d dictionary : Dictionary}
    {e : Entry} {tableId : Nat} {ordinals : List Nat}
    (ok : describe d e = .ok (tableId, ordinals, dictionary)) : d.Develops P dictionary := by
  obtain ⟨_, _, ok⟩ := bind_ok ok
  obtain ⟨_, _, ok⟩ := bind_ok ok
  dsimp only at ok
  split at ok
  · obtain ⟨_, learned, ok⟩ := bind_ok ok
    cases ok
    exact develops_learn lasting learned
  · cases ok
    exact .refl Table.Follows.refl _

theorem develops_retrofitKey (c : Catalog) (table : Table) (change : Change) :
    c.Develops (c.retrofitKey table change).catalog := by
  unfold retrofitKey
  dsimp only
  split
  · exact ⟨Dictionary.develops_markKeyColumns Table.lasting_sound ..,
      SchemaCache.develops_markKeyColumns ..⟩
  · exact .refl c

theorem develops_assembleKnown (c : Catalog) (view : ChangeView) (id : RecordId) (e : Entry)
    (table : Table) (tableId : Nat) (ordinals : List Nat) :
    c.Develops (c.assembleKnown view id e table tableId ordinals).catalog := by
  unfold assembleKnown
  dsimp only
  split
  · exact .refl c
  · split
    · exact .refl c
    · exact develops_retrofitKey ..

/-- What a change entry teaches stays, whether or not the entry can then be read. -/
theorem develops_assemble (c : Catalog) (view : ChangeView) (id : RecordId) (e : Entry) :
    c.Develops (c.assemble view id e).catalog := by
  unfold assemble
  split
  · exact .refl c
  next tableId ordinals dictionary described =>
    have learned : c.Develops { c with dictionary } :=
      ⟨develops_describe Table.lasting_sound described, .refl SchemaDocument.Follows.refl _⟩
    dsimp only
    split
    · exact learned.trans (develops_assembleKnown ..)
    · exact learned

end Catalog

end ChangeCapture
