import ChangeCapture.Proofs.Growth
import ChangeCapture.Proofs.Versions

/-! What becomes of the columns of a table in its next version. A version is refused for the first column
that it describes otherwise; if there is none, every place of the result is told by what both versions
have there. -/
namespace ChangeCapture

/-- Both versions describe the column at place `i`, by different names or types. -/
structure ClashAt (cached columns : List Column) (i : Nat) (old new : Column) : Prop where
  known : cached[i]? = some old
  given : columns[i]? = some new
  described : old.dataType ≠ .unknown
  redescribed : new.dataType ≠ .unknown
  differs : old.name ≠ new.name ∨ old.dataType ≠ new.dataType

structure FirstClashAt (cached columns : List Column) (i : Nat) (old new : Column) : Prop where
  clash : ClashAt cached columns i old new
  first : ∀ j < i, ∀ old' new', ¬ ClashAt cached columns j old' new'

/-- What is known after a version that does not clash with the columns known before. -/
structure Evolved (cached columns result : List Column) (evolution : Evolution) : Prop where
  length : result.length = max cached.length columns.length
  ordinals : ∀ (i : Nat) (c : Column), result[i]? = some c → c.id = i + 1
  common : ∀ (i : Nat) (old new : Column), cached[i]? = some old → columns[i]? = some new →
    result[i]? = some (if new.dataType = .unknown then old else new)
  added : ∀ (i : Nat) (new : Column), cached.length ≤ i → columns[i]? = some new →
    result[i]? = some { new with nullable := true }
  kept : ∀ (i : Nat) (old : Column), columns.length ≤ i → cached[i]? = some old →
    result[i]? = some { old with nullable := true }
  described : ∀ (i : Nat) (old : Column), cached[i]? = some old → old.dataType ≠ .unknown →
    ∃ c : Column, result[i]? = some c ∧ c.name = old.name ∧ c.dataType = old.dataType
  unchanged : evolution = .unchanged ↔ columns.length = cached.length
  extended : evolution = .extended ↔ cached.length < columns.length
  truncated : evolution = .truncated ↔ columns.length < cached.length

namespace Column

theorem isPlaceholder_iff {c : Column} : c.isPlaceholder ↔ c.dataType = .unknown :=
  decide_eq_true_iff

theorem signature_eq_iff {c c' : Column} :
    c.signature = c'.signature ↔ c.name = c'.name ∧ c.dataType = c'.dataType := by
  simp [signature]

theorem not_compatible_iff {old new : Column} : ¬ old.compatible new ↔ old.dataType ≠ .unknown ∧
    new.dataType ≠ .unknown ∧ (old.name ≠ new.name ∨ old.dataType ≠ new.dataType) := by
  simp only [compatible, Bool.or_eq_true, isPlaceholder_iff, decide_eq_true_iff, signature_eq_iff]
  tauto

end Column

variable {cached columns : List Column} {old new o n : Column} {i : Nat} {table : String}

theorem clashAt_iff : ClashAt cached columns i old new ↔
    cached[i]? = some old ∧ columns[i]? = some new ∧ ¬ old.compatible new := by
  rw [Column.not_compatible_iff]
  constructor
  · intro clash
    exact ⟨clash.known, clash.given, clash.described, clash.redescribed, clash.differs⟩
  · rintro ⟨known, given, described, redescribed, differs⟩
    exact ⟨known, given, described, redescribed, differs⟩

theorem clashAt_succ : ClashAt (o :: cached) (n :: columns) (i + 1) old new ↔
    ClashAt cached columns i old new := by
  simp [clashAt_iff]

/-- A clash is the first one behind columns that go with each other if it is the first among the rest. -/
theorem FirstClashAt.behind (first : FirstClashAt cached columns i old new)
    (compatible : o.compatible n) : FirstClashAt (o :: cached) (n :: columns) (i + 1) old new := by
  refine ⟨clashAt_succ.mpr first.clash, ?_⟩
  intro j before old' new' clash
  cases j with
  | zero =>
    obtain ⟨known, given, incompatible⟩ := clashAt_iff.mp clash
    cases known
    cases given
    exact incompatible compatible
  | succ j => exact first.first j (by omega) old' new' (clashAt_succ.mp clash)

theorem checkColumns_first {f : Failure} (refused : checkColumns table cached columns = .error f) :
    ∃ i old new, FirstClashAt cached columns i old new ∧
      f = .incompatibleDdl table old.id old.described new.described := by
  fun_induction checkColumns table cached columns with
  | case1 o cached n columns compatible ih =>
    obtain ⟨i, old, new, first, rfl⟩ := ih refused
    exact ⟨i + 1, old, new, first.behind compatible, rfl⟩
  | case2 o cached n columns incompatible =>
    cases refused
    exact ⟨0, o, n, ⟨clashAt_iff.mpr ⟨rfl, rfl, incompatible⟩, by simp⟩, rfl⟩
  | case3 => cases refused

theorem isOk_evolveColumns_iff : (evolveColumns table cached columns).isOk ↔
    ∀ i old new, ¬ ClashAt cached columns i old new := by
  have allowed : (evolveColumns table cached columns).isOk ↔
      checkColumns table cached columns = .ok () := by
    rw [evolveColumns_eq]
    cases checkColumns table cached columns <;> simp [Except.map, Except.isOk, Except.toBool]
  simp only [allowed, checkColumns_eq_ok_iff, clashAt_iff, not_and, not_not]

theorem ofLengths_iff (m n : Nat) : (Evolution.ofLengths m n = .unchanged ↔ n = m) ∧
    (Evolution.ofLengths m n = .extended ↔ m < n) ∧
    (Evolution.ofLengths m n = .truncated ↔ n < m) := by
  unfold Evolution.ofLengths
  split
  · simp; omega
  · split <;> simp <;> omega

theorem evolved_reconcile (aligned : Aligned cached) (aligned' : Aligned columns)
    (checked : checkColumns table cached columns = .ok ()) :
    Evolved cached columns (reconcileColumns cached columns)
      (.ofLengths cached.length columns.length) := by
  obtain ⟨unchanged, extended, truncated⟩ := ofLengths_iff cached.length columns.length
  refine ⟨length_reconcileColumns _ _, ?_, ?_, ?_, ?_, ?_, unchanged, extended, truncated⟩
  · intro i c found
    simpa [columnOrdinal] using aligned_reconcile aligned aligned' i c found
  · intro i old new known given
    simp [getElem?_reconcileColumns, known, given, Column.reconcile, Column.succeed,
      Column.isPlaceholder]
  · intro i new beyond given
    have unknown : cached[i]? = none := List.getElem?_eq_none beyond
    simp [getElem?_reconcileColumns, unknown, given, Column.reconcile, Column.loosened]
  · intro i old beyond known
    have missing : columns[i]? = none := List.getElem?_eq_none beyond
    simp [getElem?_reconcileColumns, known, missing, Column.reconcile, Column.loosened]
  · intro i old known described
    obtain ⟨c, found, same⟩ :=
      (outgrows_reconcile checked).described known (by simpa [Column.isPlaceholder] using described)
    exact ⟨c, found, Column.signature_eq_iff.mp same⟩

/-- A version of the columns of a table is refused exactly if there is a place where both versions
describe a column by different names or types, and then for the first such column. Otherwise the
result has the columns of both versions: of each column in both, the new version, unless that leaves it
undescribed; of the others, the one there is, which need no longer have a value. -/
theorem evolveColumns_placewise (table : String) (cached columns : List Column)
    (aligned : Aligned cached) (aligned' : Aligned columns) :
    ((evolveColumns table cached columns).isOk ↔ ∀ i old new, ¬ ClashAt cached columns i old new) ∧
    (∀ f, evolveColumns table cached columns = .error f →
      ∃ i old new, FirstClashAt cached columns i old new ∧
        f = .incompatibleDdl table (i + 1) s!"{old.name} {old.dataType.name}"
          s!"{new.name} {new.dataType.name}") ∧
    ∀ result evolution, evolveColumns table cached columns = .ok (result, evolution) →
      Evolved cached columns result evolution := by
  refine ⟨isOk_evolveColumns_iff, ?_, ?_⟩
  · intro f refused
    rw [evolveColumns_eq] at refused
    cases checked : checkColumns table cached columns with
    | ok => simp [checked, Except.map] at refused
    | error g =>
      obtain rfl : g = f := by simpa [checked, Except.map] using refused
      obtain ⟨i, old, new, first, rfl⟩ := checkColumns_first checked
      have ordinal : old.id = i + 1 := by simpa [columnOrdinal] using aligned i old first.clash.known
      exact ⟨i, old, new, first, by simp [ordinal, Column.described]⟩
  · intro result evolution evolved
    rw [evolveColumns_eq] at evolved
    cases checked : checkColumns table cached columns with
    | error g => simp [checked, Except.map] at evolved
    | ok =>
      obtain ⟨rfl, rfl⟩ : reconcileColumns cached columns = result ∧
          Evolution.ofLengths cached.length columns.length = evolution := by
        simpa [checked, Except.map] using evolved
      exact evolved_reconcile aligned aligned' checked

/-- Placeholders on both sides, and a column that the later version leaves out. -/
theorem evolveColumns_placewise_placeholders :
    Aligned [.ofType 1 "A" .number, .placeholder 2, ⟨3, "C", .clob, 0, 0, false, false⟩] ∧
    Aligned [.placeholder 1, .ofType 2 "B" .varchar] ∧
    Evolved [.ofType 1 "A" .number, .placeholder 2, ⟨3, "C", .clob, 0, 0, false, false⟩]
      [.placeholder 1, .ofType 2 "B" .varchar]
      [.ofType 1 "A" .number, .ofType 2 "B" .varchar, .ofType 3 "C" .clob] .truncated := by
  have aligned :
      Aligned [.ofType 1 "A" .number, .placeholder 2, ⟨3, "C", .clob, 0, 0, false, false⟩] := by
    simp [alignedFrom_cons, alignedFrom_nil, Column.ofType, Column.placeholder, columnOrdinal]
  have aligned' : Aligned [.placeholder 1, .ofType 2 "B" .varchar] := by
    simp [alignedFrom_cons, alignedFrom_nil, Column.ofType, Column.placeholder, columnOrdinal]
  exact ⟨aligned, aligned', (evolveColumns_placewise "S.T" _ _ aligned aligned').2.2 _ _ (by decide)⟩

end ChangeCapture
