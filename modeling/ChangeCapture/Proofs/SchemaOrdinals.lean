import ChangeCapture.Schema.Reader
import Mathlib.Data.List.Sort

/-! The ordinals of a schema document. Those of real columns have to be 1 to n, in any order and each
of them once; then every column stands at the place of its ordinal. Otherwise the first place that has
another ordinal than its own, once they are in order, is what is reported. -/
namespace ChangeCapture

/-- The first place, from `index` on, that has another ordinal than its own, and that ordinal. -/
def misplaced? (index : Nat) : List Nat → Option (Nat × Nat)
  | [] => none
  | ordinal :: rest =>
    if ordinal = columnOrdinal index then misplaced? (index + 1) rest else some (index, ordinal)

theorem misplaced?_eq_none_iff {index : Nat} {ordinals : List Nat} :
    misplaced? index ordinals = none ↔
      ordinals = List.range' (columnOrdinal index) ordinals.length := by
  fun_induction misplaced? index ordinals with
  | case1 => simp
  | case2 index rest ih => simpa [List.range'_succ, columnOrdinal] using ih
  | case3 index ordinal rest other => simp [List.range'_succ, other]

theorem misplaced?_eq_some {index place found : Nat} {ordinals : List Nat}
    (wrong : misplaced? index ordinals = some (place, found)) :
    ∃ i, place = index + i ∧ ordinals[i]? = some found ∧ found ≠ columnOrdinal place ∧
      ∀ k < i, ordinals[k]? = some (columnOrdinal (index + k)) := by
  fun_induction misplaced? index ordinals with
  | case1 => cases wrong
  | case2 index rest ih =>
    obtain ⟨i, rfl, there, other, before⟩ := ih wrong
    refine ⟨i + 1, by omega, there, other, fun k less => ?_⟩
    cases k with
    | zero => rfl
    | succ k =>
      rw [List.getElem?_cons_succ, before k (by omega)]
      congr 2
      omega
  | case3 index ordinal rest other =>
    cases wrong
    exact ⟨0, rfl, rfl, other, fun k less => absurd less (Nat.not_lt_zero k)⟩

namespace SchemaText

open ColumnDescriptor

variable {s : SchemaText} {columns columns' : List ColumnDescriptor}

/-- The descriptors of real columns. -/
def real (columns : List ColumnDescriptor) : List ColumnDescriptor :=
  columns.filter (fun c => c.ordinal ≠ 0)

/-- Their ordinals in order. -/
def ordinals (columns : List ColumnDescriptor) : List Nat :=
  ((real columns).map ordinal).mergeSort (fun a b => a ≤ b)

theorem perm_sortedColumns (columns : List ColumnDescriptor) :
    (sortedColumns columns).Perm (real columns) :=
  List.mergeSort_perm _ _

theorem map_sortedColumns (columns : List ColumnDescriptor) :
    (sortedColumns columns).map ordinal = ordinals columns :=
  List.map_mergeSort fun _ _ _ _ => rfl

theorem pairwise_ordinals (columns : List ColumnDescriptor) :
    (ordinals columns).Pairwise (fun a b => a ≤ b) :=
  List.pairwise_mergeSort' (fun a b => a ≤ b) _

theorem ordinals_of_perm (perm : (real columns').Perm (real columns)) :
    ordinals columns' = ordinals columns := by
  refine List.Perm.eq_of_pairwise (fun _ _ _ _ => Nat.le_antisymm) (pairwise_ordinals columns')
    (pairwise_ordinals columns) ?_
  calc (ordinals columns').Perm ((real columns').map ordinal) := List.mergeSort_perm _ _
    _ |>.Perm ((real columns).map ordinal) := perm.map ordinal
    _ |>.Perm (ordinals columns) := (List.mergeSort_perm _ _).symm

/-- Nothing is misplaced exactly if the ordinals are 1 to n. -/
theorem misplaced?_ordinals (columns : List ColumnDescriptor) :
    misplaced? 0 (ordinals columns) = none ↔
      ∃ n, ((real columns).map ordinal).Perm (List.range' 1 n) := by
  have sorted : (ordinals columns).Perm ((real columns).map ordinal) := List.mergeSort_perm _ _
  rw [misplaced?_eq_none_iff]
  constructor
  · intro same
    exact ⟨_, same ▸ sorted.symm⟩
  · rintro ⟨n, perm⟩
    have increasing : (List.range' 1 n).Pairwise (fun a b => a ≤ b) :=
      (List.pairwise_lt_range' 1).imp Nat.le_of_lt
    have same : ordinals columns = List.range' 1 n :=
      List.Perm.eq_of_pairwise (fun _ _ _ _ => Nat.le_antisymm) (pairwise_ordinals columns)
        increasing (sorted.trans perm)
    rw [same, List.length_range']
    rfl

theorem numbered_eq (table : String) (index : Nat) (columns : List ColumnDescriptor) :
    numbered table index columns = match misplaced? index (columns.map ordinal) with
      | none => .ok (columns.map column)
      | some (place, found) => .error (.invalidSchema table (columnOrdinal place) found) := by
  fun_induction numbered table index columns with
  | case1 => rfl
  | case2 index c rest here ih =>
    rw [ih, List.map_cons, misplaced?, if_pos here]
    cases misplaced? (index + 1) (rest.map ordinal) <;> rfl
  | case3 index c rest other => rw [List.map_cons, misplaced?, if_neg other]

/-- The document whose columns are those of some descriptors. -/
def withColumns (s : SchemaText) (descriptors : List ColumnDescriptor) : SchemaDocument where
  owner := s.owner
  name := s.name
  objectId := s.objectId
  columns := descriptors.map column
  validSince := s.validSince
  hasKeyFlags := descriptors.all (fun c => c.primaryKey.isSome)

theorem document_eq (s : SchemaText) : s.document = match misplaced? 0 (ordinals s.columns) with
    | none => .ok (s.withColumns (sortedColumns s.columns))
    | some (place, found) =>
      .error (.invalidSchema (qualifiedName s.owner s.name) (columnOrdinal place) found) := by
  unfold document
  dsimp only
  rw [numbered_eq, map_sortedColumns]
  cases misplaced? 0 (ordinals s.columns) <;> rfl

theorem document_ok {d : SchemaDocument} (ok : s.document = .ok d) :
    misplaced? 0 (ordinals s.columns) = none ∧ d = s.withColumns (sortedColumns s.columns) := by
  rw [document_eq] at ok
  split at ok <;> cases ok
  exact ⟨‹_›, rfl⟩

theorem sortedColumns_range' (right : misplaced? 0 (ordinals columns) = none) :
    (sortedColumns columns).map ordinal = List.range' 1 (real columns).length := by
  have own := misplaced?_eq_none_iff.mp right
  rwa [← map_sortedColumns, List.length_map, (perm_sortedColumns columns).length_eq] at own

theorem ordinal_sortedColumns {i : Nat} {c : ColumnDescriptor}
    (right : misplaced? 0 (ordinals columns) = none) (there : (sortedColumns columns)[i]? = some c) :
    c.ordinal = i + 1 := by
  have within : i < (real columns).length := by
    rw [← (perm_sortedColumns columns).length_eq]
    exact (List.getElem?_eq_some_iff.mp there).1
  have own := congrArg (fun l => l[i]?) (sortedColumns_range' right)
  rw [List.getElem?_map, there, List.getElem?_range' within, Nat.one_mul, Nat.add_comm] at own
  exact Option.some.inj own

/-- Where nothing is misplaced, the order of the columns does not depend on how they are given. -/
theorem sortedColumns_of_perm (perm : (real columns').Perm (real columns))
    (right : misplaced? 0 (ordinals columns) = none) :
    sortedColumns columns' = sortedColumns columns := by
  have apart {l : List ColumnDescriptor} (same : l.map ordinal = ordinals columns) :
      l.Pairwise (fun a b => a.ordinal < b.ordinal) := by
    have increasing := List.pairwise_lt_range' (s := 1) (n := (real columns).length) 1
    rw [← sortedColumns_range' right, map_sortedColumns, ← same] at increasing
    exact List.pairwise_map.mp increasing
  have rises' := apart ((map_sortedColumns columns').trans (ordinals_of_perm perm))
  have rises := apart (map_sortedColumns columns)
  have same : (sortedColumns columns').Perm (sortedColumns columns) :=
    (perm_sortedColumns columns').trans (perm.trans (perm_sortedColumns columns).symm)
  exact same.eq_of_pairwise (fun a b _ _ less more => absurd more (Nat.lt_asymm less)) rises' rises

theorem document_of_perm (perm : (real columns).Perm (real s.columns)) :
    { s with columns }.document = s.document := by
  have same : ordinals columns = ordinals s.columns := ordinals_of_perm perm
  rw [document_eq, document_eq]
  dsimp only
  rw [same]
  split
  next right =>
    rw [sortedColumns_of_perm perm right]
    rfl
  · rfl

/-- A document is accepted exactly if the ordinals of its real columns are, in some order and without
repetition, 1 to n. Then it has these n columns, each at the place of its ordinal, and has key flags
exactly if every one of them says whether it is in the key. What comes of it depends neither on the
order of the descriptors nor on those of the virtual column. It is rejected for the least place that
has another ordinal than its own once the ordinals are in order, and for the ordinal found there. -/
theorem document_ordinals (s : SchemaText) :
    let table := qualifiedName s.owner s.name
    ((∃ d, s.document = .ok d) ↔ ∃ n, ((real s.columns).map ordinal).Perm (List.range' 1 n)) ∧
    (∀ d, s.document = .ok d →
      d.columns.map Column.id = List.range' 1 (real s.columns).length ∧
      (∀ i c, d.columns[i]? = some c → ∃ x ∈ real s.columns, x.ordinal = i + 1 ∧ c = x.column) ∧
      (d.hasKeyFlags = true ↔ ∀ c ∈ real s.columns, c.primaryKey.isSome) ∧
      (d.owner, d.name, d.objectId, d.validSince) = (s.owner, s.name, s.objectId, s.validSince)) ∧
    (∀ columns, (real columns).Perm (real s.columns) →
      { s with columns }.document = s.document) ∧
    (∀ f, s.document = .error f → ∃ i found, (ordinals s.columns)[i]? = some found ∧
      found ≠ i + 1 ∧ (∀ k < i, (ordinals s.columns)[k]? = some (k + 1)) ∧
      f = .invalidSchema table (i + 1) found ∧ f.message =
        s!"invalid schema document for {table}: expected column {i + 1}, found {found}") := by
  intro table
  refine ⟨?_, fun d ok => ?_, fun columns => document_of_perm, fun f failed => ?_⟩
  · rw [← misplaced?_ordinals, document_eq]
    cases misplaced? 0 (ordinals s.columns) <;> simp
  · obtain ⟨right, rfl⟩ := document_ok ok
    have perm := perm_sortedColumns s.columns
    refine ⟨?_, fun i c found => ?_, ?_, rfl⟩
    · rw [← sortedColumns_range' right, withColumns, List.map_map]
      rfl
    · rw [withColumns, List.getElem?_map] at found
      obtain ⟨x, there, rfl⟩ := Option.map_eq_some_iff.mp found
      exact ⟨x, perm.mem_iff.mp (List.mem_of_getElem? there), ordinal_sortedColumns right there, rfl⟩
    · simp only [withColumns, List.all_eq_true, perm.mem_iff]
  · rw [document_eq] at failed
    split at failed <;> cases failed
    next place found wrong =>
      obtain ⟨i, rfl, there, other, before⟩ := misplaced?_eq_some wrong
      rw [Nat.zero_add] at other ⊢
      refine ⟨i, found, there, other, fun k less => ?_, rfl, rfl⟩
      rw [before k less, Nat.zero_add, columnOrdinal]

/-- A gap in the ordinals, which are out of order, and the virtual column. -/
example :
    let named (ordinal : Nat) (name : String) : ColumnDescriptor :=
      ⟨ordinal, name, "NUMBER", none, none, none, none⟩
    SchemaText.document ⟨"S", "T", none, 0, [named 3 "C", named 0 "V", named 1 "A"]⟩ =
      .error (.invalidSchema "S.T" 2 3) := by
  cbv

end SchemaText

end ChangeCapture
