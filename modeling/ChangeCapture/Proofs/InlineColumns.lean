import ChangeCapture.Proofs.Framing
import ChangeCapture.Proofs.Overlooking
import ChangeCapture.Proofs.Versions

/-! The columns that a change entry describes itself. However they are ordered in the entry, a table
has those that were known and those that are described, with placeholders in between; a described
column keeps only the flags of one of the same name and type. -/
namespace ChangeCapture

theorem DataType.ofName_ne_unknown (text : String) : ofName text ≠ .unknown := by
  unfold ofName
  dsimp only
  generalize String.ofList _ = name
  have listed : ∀ e ∈ named, e.2 ≠ .unknown := by decide
  cases found : named.lookup name with
  | none => nofun
  | some t =>
    obtain ⟨before, after, split, -⟩ := List.lookup_eq_some_iff.mp found
    exact listed (name, t) (by simp [split])

theorem TypeSpec.dataType_parse_ne_unknown (spec : String) : (parse spec).dataType ≠ .unknown := by
  have named := DataType.ofName_ne_unknown (String.ofList (Text.squeeze (scan 0 spec.toList).2))
  unfold parse
  dsimp only
  generalize DataType.ofName _ = type at named
  split <;> exact named

namespace Catalog

namespace InlineColumn

/-- The column as it is described, with the flags of one that nothing is known of. -/
def column (i : InlineColumn) : Column := (TypeSpec.parse i.spec).column i.ordinal i.name

/-- What becomes of a column that is described, where another one may have been known. -/
structure Gives (i : InlineColumn) (known : Option Column) (c : Column) : Prop where
  ordinal : c.id = i.ordinal
  name : c.name = i.name
  dataType : c.dataType = (TypeSpec.parse i.spec).dataType
  precision : c.precision = (TypeSpec.parse i.spec).precision
  scale : c.scale = (TypeSpec.parse i.spec).scale
  kept : ∀ old ∈ known, old.signature = c.signature → c.nullable = old.nullable ∧ c.isKey = old.isKey
  fresh : (∀ old ∈ known, old.signature ≠ c.signature) → c.nullable = true ∧ c.isKey = false

variable {i : InlineColumn} {known : Option Column} {c c' : Column}

theorem isPlaceholder_column (i : InlineColumn) : i.column.isPlaceholder = false :=
  decide_eq_false (TypeSpec.dataType_parse_ne_unknown i.spec)

theorem Gives.signature (gives : i.Gives known c) : c.signature = i.column.signature :=
  Prod.ext gives.name gives.dataType

theorem Gives.isPlaceholder (gives : i.Gives known c) : c.isPlaceholder = false := by
  rw [← i.isPlaceholder_column]
  exact Column.isPlaceholder_of_signature gives.signature

theorem Gives.unique (gives : i.Gives known c) (gives' : i.Gives known c') : c = c' := by
  have signature : c.signature = c'.signature := gives.signature.trans gives'.signature.symm
  have flags : c.nullable = c'.nullable ∧ c.isKey = c'.isKey := by
    by_cases same : ∃ old ∈ known, old.signature = c.signature
    · obtain ⟨old, found, same⟩ := same
      obtain ⟨nullable, isKey⟩ := gives.kept old found same
      obtain ⟨nullable', isKey'⟩ := gives'.kept old found (same.trans signature)
      exact ⟨nullable.trans nullable'.symm, isKey.trans isKey'.symm⟩
    · have other : ∀ old ∈ known, old.signature ≠ c.signature := fun old found matching =>
        same ⟨old, found, matching⟩
      obtain ⟨nullable, isKey⟩ := gives.fresh other
      obtain ⟨nullable', isKey'⟩ := gives'.fresh (signature ▸ other)
      exact ⟨nullable.trans nullable'.symm, isKey.trans isKey'.symm⟩
  obtain ⟨ordinal, name, dataType, precision, scale, -, -⟩ := gives
  obtain ⟨ordinal', name', dataType', precision', scale', -, -⟩ := gives'
  cases c
  cases c'
  simp_all

theorem gives_column (i : InlineColumn) : i.Gives none i.column :=
  ⟨rfl, rfl, rfl, rfl, rfl, nofun, fun _ => ⟨rfl, rfl⟩⟩

theorem gives_succeed (i : InlineColumn) (old : Column) : i.Gives (some old) (i.succeed old) := by
  unfold succeed
  dsimp only
  split
  next same =>
    exact ⟨rfl, rfl, rfl, rfl, rfl, fun _ found _ => by cases found; exact ⟨rfl, rfl⟩,
      fun other => absurd same (other old rfl)⟩
  next other =>
    exact ⟨rfl, rfl, rfl, rfl, rfl, fun _ found same => by cases found; exact absurd same other,
      fun _ => ⟨rfl, rfl⟩⟩

theorem succeed_placeholder (i : InlineColumn) (n : Nat) : i.succeed (.placeholder n) = i.column := by
  unfold succeed
  dsimp only
  rw [if_neg]
  · rfl
  · exact fun same => TypeSpec.dataType_parse_ne_unknown i.spec (congrArg Prod.snd same).symm

end InlineColumn

variable {cached columns columns' : List Column} {given given' : List InlineColumn}
  {i : InlineColumn} {n : Nat}

/-- The greatest ordinal that is described. -/
def greatest (given : List InlineColumn) : Nat := (given.map InlineColumn.ordinal).foldr max 0

theorem greatest_cons (i : InlineColumn) (given : List InlineColumn) :
    greatest (i :: given) = max i.ordinal (greatest given) := rfl

theorem lt_greatest_iff : n < greatest given ↔ ∃ i ∈ given, n < i.ordinal := by
  induction given with
  | nil => simp [greatest]
  | cons i given ih =>
    rw [greatest_cons, List.exists_mem_cons_iff, ← ih]
    omega

theorem length_placeInline (columns : List Column) (i : InlineColumn) :
    (placeInline columns i).length = max columns.length i.ordinal := by
  unfold placeInline
  cases i.ordinal with
  | zero => exact (Nat.max_zero _).symm
  | succ index =>
    dsimp only [columnIndex?]
    split
    next found =>
      have inside := (List.getElem?_eq_some_iff.mp found).1
      rw [List.length_set]
      omega
    next beyond =>
      have outside := List.getElem?_eq_none_iff.mp beyond
      simp only [List.length_append, List.length_map, List.length_range', List.length_singleton]
      omega

theorem getElem?_placeInline_own (own : i.ordinal = columnOrdinal n) :
    (placeInline columns i)[n]? = some ((columns[n]?.map i.succeed).getD i.column) := by
  unfold placeInline
  rw [own]
  dsimp only [columnIndex?, columnOrdinal]
  split
  next found =>
    have inside := (List.getElem?_eq_some_iff.mp found).1
    rw [List.getElem?_set_self inside, found]
    rfl
  next beyond =>
    have outside := List.getElem?_eq_none_iff.mp beyond
    rw [List.getElem?_append_right (by simp; omega), beyond]
    simp [InlineColumn.column, own, columnOrdinal, Nat.add_sub_cancel' outside]

theorem getElem?_placeInline_other (other : i.ordinal ≠ columnOrdinal n)
    (inside : n < max columns.length i.ordinal) :
    (placeInline columns i)[n]? = some (columns[n]?.getD (.placeholder (columnOrdinal n))) := by
  unfold placeInline
  cases ordinal : i.ordinal with
  | zero =>
    rw [ordinal, Nat.max_zero] at inside
    simp [columnIndex?, inside]
  | succ index =>
    rw [ordinal] at other inside
    have apart : index ≠ n := fun same => other (congrArg columnOrdinal same)
    dsimp only [columnIndex?]
    split
    next found =>
      have inside : n < columns.length := by
        have := (List.getElem?_eq_some_iff.mp found).1
        omega
      rw [List.getElem?_set_ne apart, List.getElem?_eq_getElem inside]
      rfl
    next beyond =>
      have outside := List.getElem?_eq_none_iff.mp beyond
      by_cases known : n < columns.length
      · rw [List.append_assoc, List.getElem?_append_left known, List.getElem?_eq_getElem known]
        rfl
      · have gap : n - columns.length < index - columns.length := by omega
        rw [List.getElem?_append_left (by simp; omega),
          List.getElem?_append_right (Nat.le_of_not_lt known), List.getElem?_map,
          List.getElem?_range' gap, List.getElem?_eq_none (Nat.le_of_not_lt known)]
        simp [Nat.add_sub_cancel' (Nat.le_of_not_lt known)]

theorem described_or_apart (given : List InlineColumn) (n : Nat) :
    (∃ i ∈ given, i.ordinal = columnOrdinal n) ∨ ∀ i ∈ given, i.ordinal ≠ columnOrdinal n :=
  Classical.or_iff_not_imp_left.mpr fun nowhere i member own => nowhere ⟨i, member, own⟩

/-- What the columns of a table are once some of them were described. A column of ordinal 0 has no
place among them. -/
structure Learns (cached : List Column) (given : List InlineColumn) (columns : List Column) :
    Prop where
  length : columns.length = max cached.length (greatest given)
  described : ∀ i ∈ given, ∀ n, i.ordinal = columnOrdinal n →
    ∃ c ∈ columns[n]?, i.Gives cached[n]? c
  others : ∀ (n : Nat), ∀ c ∈ columns[n]?, (∀ i ∈ given, i.ordinal ≠ columnOrdinal n) →
    c = cached[n]?.getD (.placeholder (columnOrdinal n))

namespace Learns

theorem nil (cached : List Column) : Learns cached [] cached where
  length := (Nat.max_zero _).symm
  described := nofun
  others n c found _ := by rw [Option.mem_def.mp found]; rfl

theorem unknown_of_none (learns : Learns cached given columns) (absent : columns[n]? = none) :
    cached[n]? = none := by
  have outside := List.getElem?_eq_none_iff.mp absent
  rw [learns.length] at outside
  exact List.getElem?_eq_none (by omega)

theorem place (learns : Learns cached given columns) (new : ∀ j ∈ given, j.ordinal ≠ i.ordinal) :
    Learns cached (i :: given) (placeInline columns i) := by
  constructor
  case length =>
    rw [length_placeInline, learns.length, greatest_cons]
    omega
  case described =>
    intro j member n own
    rcases List.mem_cons.mp member with rfl | member
    · rw [getElem?_placeInline_own own]
      refine ⟨_, rfl, ?_⟩
      cases found : columns[n]? with
      | none =>
        rw [learns.unknown_of_none found]
        exact j.gives_column
      | some c =>
        obtain rfl := learns.others n c found fun k there same => new k there (same.trans own.symm)
        cases cached[n]? with
        | none => simpa [InlineColumn.succeed_placeholder] using j.gives_column
        | some old => exact j.gives_succeed old
    · obtain ⟨c, found, gives⟩ := learns.described j member n own
      have inside := (List.getElem?_eq_some_iff.mp found).1
      rw [getElem?_placeInline_other fun same => new j member (own.trans same.symm)]
      · exact ⟨c, by rw [Option.mem_def.mp found]; rfl, gives⟩
      · omega
  case others =>
    intro n c found apart
    have inside := (List.getElem?_eq_some_iff.mp found).1
    rw [length_placeInline] at inside
    rw [getElem?_placeInline_other (apart i List.mem_cons_self) inside] at found
    cases found
    cases there : columns[n]? with
    | some c =>
      exact learns.others n c there fun j member => apart j (List.mem_cons_of_mem i member)
    | none => rw [learns.unknown_of_none there]

/-- Only which columns are described matters, and of those only the ones that have a place. -/
theorem congr (learns : Learns cached given columns)
    (same : ∀ i : InlineColumn, i.ordinal ≠ 0 → (i ∈ given ↔ i ∈ given')) :
    Learns cached given' columns where
  length := by
    have reach (n : Nat) : n < greatest given ↔ n < greatest given' := by
      simp only [lt_greatest_iff]
      exact exists_congr fun i => and_congr_left fun inside => same i (by omega)
    have below := reach (greatest given')
    have above := reach (greatest given)
    rw [learns.length]
    omega
  described i member n own :=
    learns.described i ((same i (by rw [own]; nofun)).mpr member) n own
  others n c found apart := learns.others n c found fun i member own =>
    apart i ((same i (by rw [own]; nofun)).mp member) own

theorem cases_at (learns : Learns cached given columns) {c : Column} (found : columns[n]? = some c) :
    (∃ i ∈ given, i.ordinal = columnOrdinal n ∧ i.Gives cached[n]? c) ∨
      c = cached[n]?.getD (.placeholder (columnOrdinal n)) := by
  rcases described_or_apart given n with ⟨i, member, own⟩ | apart
  · obtain ⟨c', found', gives⟩ := learns.described i member n own
    cases found.symm.trans found'
    exact .inl ⟨i, member, own, gives⟩
  · exact .inr (learns.others n c found apart)

theorem unique (learns : Learns cached given columns) (learns' : Learns cached given columns') :
    columns = columns' := by
  refine List.ext_getElem (learns.length.trans learns'.length.symm) fun n inside inside' => ?_
  have here := List.getElem?_eq_getElem inside
  have here' := List.getElem?_eq_getElem inside'
  rcases described_or_apart given n with ⟨i, member, own⟩ | apart
  · obtain ⟨c, found, gives⟩ := learns.described i member n own
    obtain ⟨c', found', gives'⟩ := learns'.described i member n own
    cases here.symm.trans found
    cases here'.symm.trans found'
    exact gives.unique gives'
  · exact (learns.others n _ here apart).trans (learns'.others n _ here' apart).symm

end Learns

theorem learns_foldl (distinct : (given.map InlineColumn.ordinal).Nodup) :
    Learns cached given (given.foldl placeInline cached) := by
  suffices ∀ done columns, Learns cached done columns →
      (∀ j ∈ done, ∀ i ∈ given, j.ordinal ≠ i.ordinal) →
      Learns cached (given.reverse ++ done) (given.foldl placeInline columns) by
    have all := this [] cached (.nil cached) nofun
    exact all.congr fun i _ => by simp
  induction given with
  | nil => exact fun done columns learns _ => learns
  | cons i given ih =>
    intro done columns learns apart
    rw [List.map_cons, List.nodup_cons] at distinct
    have next := ih distinct.2 (i :: done) (placeInline columns i)
      (learns.place fun j member => apart j member i List.mem_cons_self) ?_
    · rwa [List.reverse_cons, List.append_assoc]
    · intro j member k there
      rcases List.mem_cons.mp member with rfl | member
      · exact fun same => distinct.1 (List.mem_map.mpr ⟨k, there, same.symm⟩)
      · exact apart j member k (List.mem_cons_of_mem i there)

/-- A described column was known by another name or type. -/
structure Clash (cached : List Column) (given : List InlineColumn) (i : InlineColumn)
    (old : Column) : Prop where
  given : i ∈ given
  known : ∃ n, i.ordinal = columnOrdinal n ∧ cached[n]? = some old
  described : old.isPlaceholder = false
  other : old.signature ≠ i.column.signature

namespace Learns

/-- What was learned stays as it is when it follows what was known. -/
theorem reconcile (learns : Learns cached given columns) :
    reconcileColumns cached columns = columns := by
  refine List.ext_getElem? fun n => ?_
  rw [getElem?_reconcileColumns]
  cases found : columns[n]? with
  | none =>
    rw [learns.unknown_of_none found]
    rfl
  | some c =>
    obtain ⟨i, -, -, gives⟩ | kept := learns.cases_at found
    · cases known : cached[n]? with
      | none =>
        rw [known] at gives
        obtain ⟨nullable, -⟩ := gives.fresh nofun
        exact congrArg some (Column.loosened_eq_self_iff.mpr nullable)
      | some old => simp [Column.reconcile, Column.succeed, gives.isPlaceholder]
    · cases known : cached[n]? with
      | none =>
        rw [known] at kept
        subst kept
        rfl
      | some old =>
        rw [known] at kept
        subst kept
        exact congrArg some (Column.succeed_self c)

/-- A column that was learned clashes with the one that was known if it does in the entry. -/
theorem clash_of_incompatible (learns : Learns cached given columns) {old new : Column}
    (known : cached[n]? = some old) (found : columns[n]? = some new)
    (incompatible : old.compatible new = false) :
    ∃ i, Clash cached given i old ∧ new.described = i.column.described := by
  simp only [Column.compatible, Bool.or_eq_false_iff, decide_eq_false_iff_not] at incompatible
  obtain ⟨i, member, own, gives⟩ | rfl := learns.cases_at found
  · have signature := gives.signature
    refine ⟨i, ⟨member, ⟨n, own, known⟩, incompatible.1.1, signature ▸ incompatible.2⟩, ?_⟩
    obtain ⟨name, dataType⟩ := Prod.mk.inj signature
    rw [Column.described, Column.described, name, dataType]
  · exact absurd (by rw [known]; rfl) incompatible.2

theorem check_ok (learns : Learns cached given columns) {table : String}
    (checked : checkColumns table cached columns = .ok ()) (i : InlineColumn) (old : Column) :
    ¬ Clash cached given i old := by
  rintro ⟨member, ⟨n, own, known⟩, described, other⟩
  obtain ⟨c, found, gives⟩ := learns.described i member n own
  have compatible := checkColumns_eq_ok_iff.mp checked n old c known found
  simp only [Column.compatible, described, gives.isPlaceholder, Bool.false_or,
    decide_eq_true_eq] at compatible
  exact other (compatible.trans gives.signature)

end Learns

/-- The columns that an entry describes, in encoded order: ordinals, names and types go together
by their positions. -/
structure Describes (e : Entry) (given : List InlineColumn) : Prop where
  ordinals : ColumnImage.ordinals e = .ok (given.map InlineColumn.ordinal)
  names : (e.tagsOf .columnName).mapM Tag.text = .ok (given.map InlineColumn.name)
  specs : (e.tagsOf .columnType).mapM Tag.text = .ok (given.map InlineColumn.spec)

/-- A change entry that describes columns, none of them twice. -/
structure DescribesOnce (e : Entry) : Prop where
  carries : e.has .columnName ∨ e.has .columnType
  distinct : ∀ ordinals, ColumnImage.ordinals e = .ok ordinals → ordinals.Nodup

/-- Why nothing is learned from an entry. -/
inductive Refuses (cached : List Column) (e : Entry) : Failure → Prop where
  | tag (id : UInt32) (fault : TagFault) : Refuses cached e (.malformedTag id fault)
  | count {ordinals : List Nat} : ColumnImage.ordinals e = .ok ordinals →
      (e.tagsOf .columnName).length ≠ ordinals.length ∨
        (e.tagsOf .columnType).length ≠ ordinals.length →
      Refuses cached e (.tagCountMismatch e.tableId ordinals.length
        (e.tagsOf .columnName).length (e.tagsOf .columnType).length)
  | clash {given : List InlineColumn} {i : InlineColumn} {old : Column} (table : String) :
      Describes e given → Clash cached given i old →
      Refuses cached e (.incompatibleDdl table old.id old.described i.column.described)

theorem readInline_ok {ordinals : List Nat} {names specs : List Tag} {found : List InlineColumn}
    (lengths : names.length = ordinals.length ∧ specs.length = ordinals.length)
    (ok : (ordinals.zip (names.zip specs)).mapM
      (fun (ordinal, name, spec) => return ⟨ordinal, ← name.text, ← spec.text⟩) =
        (.ok found : Except Failure (List InlineColumn))) :
    found.map InlineColumn.ordinal = ordinals ∧
      names.mapM Tag.text = .ok (found.map InlineColumn.name) ∧
      specs.mapM Tag.text = .ok (found.map InlineColumn.spec) := by
  induction ordinals generalizing names specs found with
  | nil =>
    obtain rfl := List.eq_nil_of_length_eq_zero lengths.1
    obtain rfl := List.eq_nil_of_length_eq_zero lengths.2
    cases ok
    exact ⟨rfl, rfl, rfl⟩
  | cons ordinal ordinals ih =>
    obtain ⟨name, names, rfl⟩ := List.exists_cons_of_length_eq_add_one lengths.1
    obtain ⟨spec, specs, rfl⟩ := List.exists_cons_of_length_eq_add_one lengths.2
    rw [List.zip_cons_cons, List.zip_cons_cons, List.mapM_cons] at ok
    obtain ⟨i, first, ok⟩ := bind_ok ok
    obtain ⟨nameText, nameRead, first⟩ := bind_ok first
    obtain ⟨specText, specRead, first⟩ := bind_ok first
    cases first
    obtain ⟨rest, others, ok⟩ := bind_ok ok
    cases ok
    obtain ⟨same, namesRead, specsRead⟩ := ih (by simpa using lengths) others
    refine ⟨congrArg (ordinal :: ·) same, ?_, ?_⟩
    · rw [List.mapM_cons, nameRead, namesRead]
      rfl
    · rw [List.mapM_cons, specRead, specsRead]
      rfl

/-- Columns that are listed by ordinal are the ones that the entry describes. -/
theorem inlineColumns_ok {e : Entry} {ordinals : List Nat} {inline : List InlineColumn}
    (listed : ColumnImage.ordinals e = .ok ordinals)
    (lengths : (e.tagsOf .columnName).length = ordinals.length ∧
      (e.tagsOf .columnType).length = ordinals.length)
    (ok : inlineColumns ordinals (e.tagsOf .columnName) (e.tagsOf .columnType) = .ok inline) :
    ∃ given, inline.Perm given ∧ given.map InlineColumn.ordinal = ordinals ∧ Describes e given := by
  obtain ⟨given, read, ok⟩ := bind_ok ok
  cases ok
  obtain ⟨rfl, names, specs⟩ := readInline_ok lengths read
  exact ⟨given, List.mergeSort_perm .., rfl, listed, names, specs⟩

theorem learns_inline (cached : List Column) {inline : List InlineColumn}
    (perm : inline.Perm given) (distinct : (given.map InlineColumn.ordinal).Nodup) :
    Learns cached given (inline.foldl placeInline cached) :=
  (learns_foldl ((perm.map InlineColumn.ordinal).nodup_iff.mpr distinct)).congr fun _ _ => perm.mem_iff

/-- What is known of the columns of a table. -/
def columnsOf (d : Dictionary) (id : Nat) : List Column := ((d.get? id).map Table.columns).getD []

theorem apply_learned {d d' : Dictionary} {t : Table} {changed : Bool}
    (learns : Learns (columnsOf d t.id) given t.columns) (ok : d.apply t = .ok (d', changed)) :
    (∃ known, d'.get? t.id = some known ∧ known.columns = t.columns) ∧
      ∀ i old, ¬ Clash (columnsOf d t.id) given i old := by
  obtain ⟨⟨known, found, -, -, reconciled⟩, -⟩ := Dictionary.get?_apply ok
  unfold columnsOf at learns ⊢
  cases there : d.get? t.id with
  | none =>
    rw [there] at reconciled
    refine ⟨⟨known, found, reconciled⟩, fun i old clash => ?_⟩
    obtain ⟨n, -, found⟩ := clash.known
    cases found
  | some cached =>
    rw [there] at learns reconciled
    obtain ⟨evolution, evolved⟩ := reconciled
    obtain ⟨checked, columns⟩ := evolveColumns_ok evolved
    exact ⟨⟨known, found, columns.trans learns.reconcile⟩, learns.check_ok checked⟩

theorem apply_learned_error {d : Dictionary} {t : Table} {f : Failure}
    (learns : Learns (columnsOf d t.id) given t.columns) (refused : d.apply t = .error f) :
    ∃ i old, Clash (columnsOf d t.id) given i old ∧
      f = .incompatibleDdl t.qualifiedName old.id old.described i.column.described := by
  rw [← Dictionary.check_eq_error_iff, Dictionary.check] at refused
  unfold columnsOf at learns ⊢
  cases there : d.get? t.id with
  | none =>
    rw [there] at refused
    cases refused
  | some cached =>
    rw [there] at learns refused
    obtain ⟨n, old, new, known, found, incompatible, rfl⟩ := checkColumns_error refused
    obtain ⟨i, clash, same⟩ := learns.clash_of_incompatible known found incompatible
    exact ⟨i, old, clash, by rw [same]⟩

theorem learn_ok {d d' : Dictionary} {e : Entry} {tableId : Nat} {ordinals : List Nat}
    (listed : ColumnImage.ordinals e = .ok ordinals) (distinct : ordinals.Nodup)
    (ok : learn d e tableId ordinals = .ok d') :
    ∃ given t, Describes e given ∧ d'.get? tableId = some t ∧
      Learns (columnsOf d tableId) given t.columns ∧
      ∀ i old, ¬ Clash (columnsOf d tableId) given i old := by
  unfold learn at ok
  dsimp only at ok
  split at ok
  · cases ok
  next counts =>
    simp only [not_or, Classical.not_not] at counts
    obtain ⟨owner, -, ok⟩ := bind_ok ok
    obtain ⟨name, -, ok⟩ := bind_ok ok
    obtain ⟨inline, read, ok⟩ := bind_ok ok
    obtain ⟨⟨_, changed⟩, applied, ok⟩ := bind_ok ok
    cases ok
    obtain ⟨given, perm, rfl, describes⟩ := inlineColumns_ok listed counts read
    have learns := learns_inline (columnsOf d tableId) perm distinct
    obtain ⟨⟨t, found, same⟩, agree⟩ := apply_learned (t := ⟨tableId, _, _, _⟩) learns applied
    exact ⟨given, t, describes, found, same ▸ learns, agree⟩

theorem FailsInTags.refuses {x : Except Failure α} (fails : FailsInTags x) (cached : List Column)
    (e : Entry) : FailsIn (Refuses cached e) x := by
  intro f failed
  obtain ⟨id, fault, rfl⟩ := fails f failed
  exact .tag id fault

theorem refuses_learn {d : Dictionary} {e : Entry} {ordinals : List Nat}
    (listed : ColumnImage.ordinals e = .ok ordinals) (distinct : ordinals.Nodup) :
    FailsIn (Refuses (columnsOf d e.tableId) e) (learn d e e.tableId ordinals) := by
  have text (t : TagType) := FailsInTags.refuses (e.failsInTags_text? t) (columnsOf d e.tableId) e
  unfold learn
  dsimp only
  split
  next counts => exact .error (.count listed counts)
  next counts =>
    simp only [not_or, Classical.not_not] at counts
    refine (text _).bind fun owner _ => (text _).bind fun name _ => ?_
    refine FailsIn.bind ?_ fun inline read => FailsIn.bind ?_ fun _ _ => .ok _
    · refine FailsInTags.refuses (.bind (.mapM (fun (_, name, spec) => ?_) _) fun _ _ => .ok _) _ _
      exact (Tag.failsInTags_text name).bind fun _ _ =>
        (Tag.failsInTags_text spec).bind fun _ _ => .ok _
    · intro f refused
      obtain ⟨given, perm, rfl, describes⟩ := inlineColumns_ok listed counts read
      have learns := learns_inline (columnsOf d e.tableId) perm distinct
      obtain ⟨i, old, clash, rfl⟩ := apply_learned_error (t := .new e.tableId _ _ _) learns refused
      exact .clash _ describes clash

variable {c : Catalog} {e : Entry}

theorem describe_carrying {d : Dictionary} (once : DescribesOnce e) :
    describe d e = e.word? .objectId >>= fun id => ColumnImage.ordinals e >>= fun ordinals =>
      learn d e (id.getD 0) ordinals >>= fun dictionary => .ok (id.getD 0, ordinals, dictionary) := by
  simp only [describe_eq, if_pos once.carries]

theorem refuses_describe (d : Dictionary) (once : DescribesOnce e) :
    FailsIn (Refuses (columnsOf d e.tableId) e) (describe d e) := by
  rw [describe_carrying once]
  refine (FailsInTags.refuses (e.failsInTags_word? _) _ _).bind fun id read => ?_
  refine (FailsInTags.refuses (.mapM Tag.failsInTags_word _) _ _).bind fun ordinals listed => ?_
  have own : id.getD 0 = e.tableId := by rw [Entry.tableId, read]; rfl
  rw [own]
  exact (refuses_learn listed (once.distinct ordinals listed)).bind fun _ _ => .ok _

theorem describe_ok {d d' : Dictionary} {tableId : Nat} {ordinals : List Nat}
    (once : DescribesOnce e) (ok : describe d e = .ok (tableId, ordinals, d')) :
    ∃ given t, Describes e given ∧ d'.get? tableId = some t ∧
      Learns (columnsOf d tableId) given t.columns ∧
      ∀ i old, ¬ Clash (columnsOf d tableId) given i old := by
  rw [describe_carrying once] at ok
  obtain ⟨id, -, ok⟩ := bind_ok ok
  obtain ⟨_, listed, ok⟩ := bind_ok ok
  obtain ⟨_, learned, ok⟩ := bind_ok ok
  cases ok
  exact learn_ok listed (once.distinct _ listed) learned

theorem Describes.unique (describes : Describes e given) (describes' : Describes e given') :
    given = given' := by
  have ordinals := Except.ok.inj (describes.ordinals.symm.trans describes'.ordinals)
  have names := Except.ok.inj (describes.names.symm.trans describes'.names)
  have specs := Except.ok.inj (describes.specs.symm.trans describes'.specs)
  have length : given.length = given'.length := by simpa using congrArg List.length ordinals
  refine List.ext_getElem length fun n inside inside' => ?_
  have ordinal := congrArg (·[n]?) ordinals
  have name := congrArg (·[n]?) names
  have spec := congrArg (·[n]?) specs
  simp only [List.getElem?_map, List.getElem?_eq_getElem inside, List.getElem?_eq_getElem inside',
    Option.map_some, Option.some.injEq] at ordinal name spec
  generalize given[n] = i, given'[n] = j at ordinal name spec
  cases i
  cases j
  simp_all

/-- Learns what an entry describes step by step: what a step changed stays, whatever becomes of the
next. -/
def learning (e : Entry) (tableId : Nat) (ordinals : List Nat) : Action Dictionary Unit := do
  let names := e.tagsOf .columnName
  let specs := e.tagsOf .columnType
  if names.length ≠ ordinals.length ∨ specs.length ≠ ordinals.length then
    throw (.tagCountMismatch tableId ordinals.length names.length specs.length)
  else
    let known := (← get).get? tableId
    let owner := (← .ofExcept (e.text? .objectOwner)).getD ((known.map Table.owner).getD "")
    let name := (← .ofExcept (e.text? .objectName)).getD ((known.map Table.name).getD "")
    let inline ← .ofExcept (inlineColumns ordinals names specs)
    let _ ← Dictionary.take
      (.new tableId owner name (inline.foldl placeInline ((known.map Table.columns).getD [])))

theorem learning_apply (e : Entry) (tableId : Nat) (ordinals : List Nat) (d : Dictionary) :
    learning e tableId ordinals d = match learn d e tableId ordinals with
      | .ok learned => (.ok (), learned)
      | .error f => (.error f, d) := by
  unfold learning learn
  dsimp only
  split
  · rfl
  · rw [Action.get_bind_apply, Action.ofExcept_bind_apply]
    rcases e.text? .objectOwner with f | owner
    · rfl
    dsimp only
    rw [Action.ofExcept_bind_apply]
    rcases e.text? .objectName with f | name
    · rfl
    dsimp only
    rw [Action.ofExcept_bind_apply]
    rcases inlineColumns ordinals (e.tagsOf .columnName) (e.tagsOf .columnType) with f | inline
    · rfl
    dsimp only
    rw [Action.bind_apply, Dictionary.take_eq]
    dsimp only [Action.outright, bind, Except.bind]
    generalize d.apply _ = applied
    rcases applied with f | ⟨learned, changed⟩ <;> rfl

/-- Reads table id and ordinals, and learns what the entry describes. -/
def describing (e : Entry) : Action Dictionary (Nat × List Nat) := do
  let tableId := (← .ofExcept (e.word? .objectId)).getD 0
  let ordinals ← .ofExcept (ColumnImage.ordinals e)
  if e.has .columnName ∨ e.has .columnType then learning e tableId ordinals
  return (tableId, ordinals)

theorem describing_eq (e : Entry) : describing e = Action.outright (fun d =>
    (describe d e).map (fun (tableId, ordinals, learned) => (learned, tableId, ordinals))) := by
  funext d
  rw [describing, Action.ofExcept_bind_apply]
  dsimp only [Action.outright, describe]
  rcases e.word? .objectId with f | id
  · rfl
  dsimp only
  rw [Action.ofExcept_bind_apply]
  rcases ColumnImage.ordinals e with f | ordinals
  · rfl
  dsimp only
  split
  · rw [Action.bind_apply, learning_apply]
    dsimp only [bind, Except.bind]
    cases learn d e (id.getD 0) ordinals <;> rfl
  · rfl

/-- A change entry that describes columns, each ordinal once, teaches just these: whatever is
described has the name and type that the entry gives, with the flags of the column that was known
if that has the same name and type; all other columns are as they were known, or placeholders.
This does not depend on the order in which they are described, and a column of ordinal 0 does not
matter. What cannot be learned is not learned in part: the steps of learning, none of which is ever
undone, come to the update as a whole. -/
theorem describe_columns (aligned : c.dictionary.tables.All Table.Aligned) (once : DescribesOnce e) :
    (∀ tableId ordinals learned, describe c.dictionary e = .ok (tableId, ordinals, learned) →
      tableId = e.tableId ∧ (∀ id ≠ tableId, learned.get? id = c.dictionary.get? id) ∧
      ∃ given t, Describes e given ∧ learned.get? tableId = some t ∧ t.Aligned ∧
        Learns (columnsOf c.dictionary tableId) given t.columns ∧
        (∀ i old, ¬ Clash (columnsOf c.dictionary tableId) given i old) ∧
        ∀ e' given' ordinals' learned', DescribesOnce e' → Describes e' given' →
          (∀ i : InlineColumn, i.ordinal ≠ 0 → (i ∈ given ↔ i ∈ given')) →
          describe c.dictionary e' = .ok (tableId, ordinals', learned') →
          columnsOf learned' tableId = t.columns) ∧
    (∀ f, describe c.dictionary e = .error f → Refuses (columnsOf c.dictionary e.tableId) e f ∧
      ∀ view id, c.assemble view id e = ⟨c, [], .error f⟩) ∧
    describing e = Action.outright (fun d =>
      (describe d e).map (fun (tableId, ordinals, learned) => (learned, tableId, ordinals))) ∧
    ∀ f d', describing e c.dictionary = (.error f, d') →
      describe c.dictionary e = .error f ∧ d' = c.dictionary := by
  refine ⟨fun tableId ordinals learned ok => ?_, fun f failed => ⟨?_, fun view id => ?_⟩,
    describing_eq e, fun f d' failed => ?_⟩
  · obtain ⟨own, others⟩ := describe_frame ok
    obtain ⟨given, t, describes, found, learns, agree⟩ := describe_ok once ok
    have kept := (develops_describe Table.lasting_aligned ok).sound aligned
    refine ⟨own, others, given, t, describes, found, kept _ _ found, learns, agree, ?_⟩
    intro e' given' ordinals' learned' once' describes' same ok'
    obtain ⟨found', t', describes'', there, learns', -⟩ := describe_ok once' ok'
    obtain rfl := describes''.unique describes'
    rw [columnsOf, there]
    exact learns'.unique (learns.congr same)
  · exact refuses_describe c.dictionary once f failed
  · rw [assemble, failed]
  · rw [describing_eq] at failed
    obtain ⟨refused, rfl⟩ := Action.outright_error failed
    refine ⟨?_, rfl⟩
    generalize describe c.dictionary e = x at refused
    cases x <;> cases refused
    rfl

/-- Two columns in reverse, the first of them known with its flags, the other one behind a gap. -/
theorem describe_columns_reversed :
    let note : Column := ⟨2, "NOTE", .clob, 0, 0, true, false⟩
    let known : Table := .new 5 "APP" "EMP" [⟨1, "ID", .number, 9, 0, false, true⟩, note]
    let taught : Table := .new 5 "APP" "EMP" [⟨1, "ID", .number, 0, 0, false, true⟩, note,
      .placeholder 3, ⟨4, "CITY", .date, 0, 0, true, false⟩]
    let c : Catalog := ⟨Dictionary.empty.put known, .empty⟩
    let tags : List Tag := [⟨0x200, [5], 0⟩,
      ⟨0x300, [4], 1⟩, ⟨0x301, [4, 0x59544943], 2⟩, ⟨0x302, [4, 0x45544144], 3⟩,
      ⟨0x300, [1], 4⟩, ⟨0x301, [2, 0x4449], 5⟩, ⟨0x302, [6, 0x424d554e, 0x5245], 6⟩]
    let e : Entry := ⟨27, 2, 1, 16, tags.foldl Entry.addTag ∅⟩
    describe c.dictionary e = .ok (5, [4, 1], c.dictionary.put taught) ∧ taught.Aligned ∧
      ∃ given, Describes e given ∧ Learns known.columns given taught.columns := by
  intro note known taught c tags e
  have aligned : c.dictionary.tables.All Table.Aligned := by
    intro id t found
    rw [show c.dictionary.tables.get? id = _ from Dictionary.get?_put ..] at found
    split at found <;> cases found
    exact alignedFrom_cons.mpr ⟨rfl, alignedFrom_cons.mpr ⟨rfl, alignedFrom_nil _⟩⟩
  have once : DescribesOnce e := ⟨by decide, fun ordinals listed => by cases listed; decide⟩
  have inline : inlineColumns [4, 1] (e.tagsOf .columnName) (e.tagsOf .columnType) =
      .ok [⟨1, "ID", "NUMBER"⟩, ⟨4, "CITY", "DATE"⟩] := by
    have read : (List.zip [4, 1] ((e.tagsOf .columnName).zip (e.tagsOf .columnType))).mapM
        (fun (ordinal, name, spec) => return ⟨ordinal, ← name.text, ← spec.text⟩) =
          (.ok [⟨4, "CITY", "DATE"⟩, ⟨1, "ID", "NUMBER"⟩] : Except Failure (List InlineColumn)) := by
      decide +kernel
    unfold inlineColumns
    rw [read]
    exact congrArg Except.ok (Entry.mergeSort_of_perm (.swap ..) (by decide))
  have learned : learn c.dictionary e 5 [4, 1] = .ok (c.dictionary.put taught) := by
    unfold learn
    dsimp only
    rw [inline]
    decide +kernel
  have ok : describe c.dictionary e = .ok (5, [4, 1], c.dictionary.put taught) := by
    rw [describe_carrying once]
    show (learn c.dictionary e 5 [4, 1] >>= fun dictionary => .ok (5, [4, 1], dictionary)) = _
    rw [learned]
    rfl
  obtain ⟨-, -, given, t, describes, found, aligned, learns, -⟩ :=
    (describe_columns aligned once).1 _ _ _ ok
  cases found
  exact ⟨ok, aligned, given, describes, learns⟩

end Catalog

end ChangeCapture
