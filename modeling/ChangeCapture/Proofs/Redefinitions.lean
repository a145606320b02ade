import ChangeCapture.Proofs.Versions

/-! What a dictionary says of a definition that it takes in, and what becomes of the same definition
when it comes again. It is settled then, with two exceptions. A definition that leaves out columns is
said to change what is known every time, whether or not it does. Columns that it adds are nullable
at first; those that must have a value lose that when the definition comes again. -/
namespace ChangeCapture

namespace Column

/-- Described, and not nullable. -/
def IsRequired (c : Column) : Prop := c.isPlaceholder = false ∧ c.nullable = false

theorem succeed_again (old new : Column) : (old.succeed new).succeed new = old.succeed new := by
  unfold succeed
  split <;> rfl

theorem succeed_loosened_iff {c : Column} : c.loosened.succeed c = c.loosened ↔ ¬ c.IsRequired := by
  unfold succeed
  split
  next placeholder => simp [IsRequired, placeholder]
  next described => rw [eq_comm, loosened_eq_self_iff]; simp [IsRequired, described]

/-- A version that comes again changes only what was new, described and not nullable. -/
theorem reconcile_again_iff {known new : Option Column} :
    reconcile (reconcile known new) new = reconcile known new ↔
      (known = none → ∀ c ∈ new, ¬ c.IsRequired) := by
  cases known with
  | some old =>
    cases new with
    | some new => simp [reconcile, succeed_again]
    | none => simp [reconcile, loosened]
  | none =>
    cases new with
    | some new => simpa [reconcile] using succeed_loosened_iff
    | none => simp [reconcile]

end Column

theorem checkColumns_again (table : String) (cached columns : List Column) :
    checkColumns table (reconcileColumns cached columns) columns = .ok () := by
  refine checkColumns_eq_ok_iff.mpr fun i known new found given => ?_
  rw [getElem?_reconcileColumns, given] at found
  generalize cached[i]? = old at found
  cases old with
  | none =>
    cases found
    simp [Column.compatible, Column.loosened, Column.signature]
  | some old =>
    cases found
    exact old.compatible_succeed new

theorem reconcileColumns_self (columns : List Column) : reconcileColumns columns columns = columns := by
  induction columns with
  | nil => rfl
  | cons c columns ih => rw [reconcileColumns, c.succeed_self, ih]

theorem reconcileColumns_again_iff {cached columns : List Column} :
    reconcileColumns (reconcileColumns cached columns) columns = reconcileColumns cached columns ↔
      ∀ c ∈ columns.drop cached.length, ¬ c.IsRequired := by
  simp only [List.ext_getElem?_iff, getElem?_reconcileColumns, Column.reconcile_again_iff,
    List.getElem?_eq_none_iff, Option.mem_def, List.mem_iff_getElem?, List.getElem?_drop]
  constructor
  · rintro kept c ⟨i, found⟩
    exact kept (cached.length + i) (Nat.le_add_right _ _) c found
  · intro kept i beyond c found
    exact kept c ⟨i - cached.length, by rwa [Nat.add_sub_cancel' beyond]⟩

/-- From the second time on, a version changes nothing more. -/
theorem reconcileColumns_settled {cached columns : List Column}
    (longer : columns.length ≤ cached.length) :
    reconcileColumns (reconcileColumns cached columns) columns = reconcileColumns cached columns := by
  rw [reconcileColumns_again_iff, List.drop_of_length_le longer]
  nofun

namespace Dictionary

/-- Whether a definition leaves out columns that are known. -/
def LeavesOut (d : Dictionary) (t : Table) : Prop :=
  ∃ cached ∈ d.get? t.id, t.columns.length < cached.columns.length

/-- Whether a definition adds columns that must have a value to a table that is known. -/
def AddsRequired (d : Dictionary) (t : Table) : Prop :=
  ∃ cached ∈ d.get? t.id, ∃ c ∈ t.columns.drop cached.columns.length, c.IsRequired

/-- Whether a definition says just what is known. -/
structure Restates (cached t : Table) : Prop where
  length : cached.columns.length = t.columns.length
  columns : reconcileColumns cached.columns t.columns = cached.columns
  owner : cached.owner = t.owner
  name : cached.name = t.name

variable {d d' : Dictionary} {t cached : Table} {changed : Bool}

theorem restates_iff : Restates cached t ↔
    Evolution.ofLengths cached.columns.length t.columns.length = .unchanged ∧
      reconcileColumns cached.columns t.columns = cached.columns ∧ cached.owner = t.owner ∧
      cached.name = t.name := by
  have lengths : Evolution.ofLengths cached.columns.length t.columns.length = .unchanged ↔
      cached.columns.length = t.columns.length := by
    unfold Evolution.ofLengths
    split
    · simp [*]
    · split <;> simp <;> omega
  rw [lengths]
  exact ⟨fun same => ⟨same.length, same.columns, same.owner, same.name⟩,
    fun ⟨length, columns, owner, name⟩ => ⟨length, columns, owner, name⟩⟩

theorem apply_unknown (unknown : d.get? t.id = none) : d.apply t = .ok (d.put t, true) := by
  rw [apply, unknown]

theorem apply_restated (known : d.get? t.id = some cached) (same : Restates cached t) :
    d.apply t = .ok (d, false) := by
  have checked : checkColumns t.qualifiedName cached.columns t.columns = .ok () := by
    have again := checkColumns_again t.qualifiedName cached.columns t.columns
    rwa [same.columns] at again
  rw [apply, known]
  dsimp only
  rw [evolveColumns_eq, checked]
  exact if_pos (restates_iff.mp same)

theorem apply_revised (known : d.get? t.id = some cached)
    (checked : checkColumns t.qualifiedName cached.columns t.columns = .ok ())
    (other : ¬ Restates cached t) :
    d.apply t =
      .ok (d.put (t.withColumns (reconcileColumns cached.columns t.columns)), true) := by
  rw [apply, known]
  dsimp only
  rw [evolveColumns_eq, checked]
  exact if_neg (mt restates_iff.mpr other)

theorem get?_put_withColumns (d : Dictionary) (t : Table) (columns : List Column) :
    (d.put (t.withColumns columns)).get? t.id = some (t.withColumns columns) := by
  rw [get?_put, Table.id_withColumns, if_pos rfl]

theorem put_put_eq_iff {columns more : List Column} :
    (d.put (t.withColumns columns)).put (t.withColumns more) = d.put (t.withColumns columns) ↔
      more = columns := by
  have same := Registry.insert_eq_self_iff (b := t.withColumns more)
    (get?_put_withColumns d t columns)
  rw [← Table.withColumns_inj, ← same]
  exact ⟨congrArg Dictionary.tables, congrArg Dictionary.mk⟩

theorem apply_again {columns : List Column}
    (checked : checkColumns t.qualifiedName columns t.columns = .ok ()) :
    ∃ again, (d.put (t.withColumns columns)).apply t =
        .ok ((d.put (t.withColumns columns)).put
          (t.withColumns (reconcileColumns columns t.columns)), again) ∧
      (again = false ↔ columns.length = t.columns.length ∧
        reconcileColumns columns t.columns = columns) := by
  have known := get?_put_withColumns d t columns
  by_cases same : Restates (t.withColumns columns) t
  · refine ⟨false, ?_, by simpa using ⟨same.length, same.columns⟩⟩
    have kept : reconcileColumns columns t.columns = columns := same.columns
    rw [apply_restated known same, kept, put_put_eq_iff.mpr rfl]
  · refine ⟨true, apply_revised known checked same, ?_⟩
    simpa using fun length columns => same ⟨length, columns, rfl, rfl⟩

theorem apply_cases (ok : d.apply t = .ok (d', changed)) :
    (d.get? t.id = none ∧ d' = d.put t ∧ changed = true) ∨
      ∃ cached, d.get? t.id = some cached ∧ (Restates cached t ∧ d' = d ∧ changed = false ∨
        ¬ Restates cached t ∧
          checkColumns t.qualifiedName cached.columns t.columns = .ok () ∧
          d' = d.put (t.withColumns (reconcileColumns cached.columns t.columns)) ∧
          changed = true) := by
  cases known : d.get? t.id with
  | none =>
    cases (apply_unknown known).symm.trans ok
    exact .inl ⟨rfl, rfl, rfl⟩
  | some cached =>
    refine .inr ⟨cached, rfl, ?_⟩
    by_cases same : Restates cached t
    · cases (apply_restated known same).symm.trans ok
      exact .inl ⟨same, rfl, rfl⟩
    · have checked : checkColumns t.qualifiedName cached.columns t.columns = .ok () := by
        rw [apply, known] at ok
        obtain ⟨⟨_, _⟩, evolved, -⟩ := bind_ok ok
        exact (evolveColumns_ok evolved).1
      cases (apply_revised known checked same).symm.trans ok
      exact .inr ⟨same, checked, rfl, rfl⟩

theorem leavesOut_iff (known : d.get? t.id = some cached) :
    d.LeavesOut t ↔ t.columns.length < cached.columns.length := by
  simp [LeavesOut, known]

theorem addsRequired_iff (known : d.get? t.id = some cached) :
    d.AddsRequired t ↔
      reconcileColumns (reconcileColumns cached.columns t.columns) t.columns ≠
        reconcileColumns cached.columns t.columns := by
  rw [Ne, reconcileColumns_again_iff]
  simp [AddsRequired, known]

/-- Where a revised definition leaves an entry as it is, it leaves out columns. -/
theorem leavesOut_of_same (known : d.get? t.id = some cached) (other : ¬ Restates cached t)
    (same : t.withColumns (reconcileColumns cached.columns t.columns) = cached) :
    d.LeavesOut t := by
  rw [leavesOut_iff known]
  have reconciled : reconcileColumns cached.columns t.columns = cached.columns :=
    congrArg Table.columns same
  refine Nat.lt_of_not_le fun longer => other
    ⟨?_, reconciled, (congrArg Table.owner same).symm, (congrArg Table.name same).symm⟩
  have length := congrArg List.length reconciled
  rw [length_reconcileColumns] at length
  omega

/-- What becomes of a definition that comes again, and once more after that. -/
theorem apply_repeated {columns : List Column}
    (checked : checkColumns t.qualifiedName columns t.columns = .ok ())
    (longer : t.columns.length ≤ columns.length) :
    ∃ d'' again, (d.put (t.withColumns columns)).apply t = .ok (d'', again) ∧
      (again ↔ t.columns.length < columns.length ∨ reconcileColumns columns t.columns ≠ columns) ∧
      (d'' = d.put (t.withColumns columns) ↔ reconcileColumns columns t.columns = columns) ∧
      ∃ last, d''.apply t = .ok (d'', last) ∧ (last ↔ t.columns.length < columns.length) := by
  obtain ⟨again, second, quiet⟩ := apply_again (d := d) checked
  obtain ⟨last, third, quiet'⟩ := apply_again (d := d.put (t.withColumns columns))
    (checkColumns_again t.qualifiedName columns t.columns)
  have length := length_reconcileColumns columns t.columns
  rw [reconcileColumns_settled longer] at third quiet'
  rw [put_put_eq_iff.mpr rfl] at third
  refine ⟨_, again, second, ?_, ?_, last, third, ?_⟩
  · rw [← Bool.not_eq_false, quiet, Classical.not_and_iff_not_or_not]
    exact or_congr (by omega) .rfl
  · exact put_put_eq_iff
  · rw [← Bool.not_eq_false, quiet', and_iff_left rfl]
    omega

/-- A definition that is taken in is said to change what is known of its table just where it does, or
where it leaves columns out. When it comes again it is taken in again; it is then said to change
nothing, and changes nothing, but for what it leaves out, which is said to change something every
time, and for added columns that must have a value, which are no longer nullable after that. From
then on nothing changes. -/
theorem apply_reported (ok : d.apply t = .ok (d', changed)) :
    (changed ↔ d'.get? t.id ≠ d.get? t.id ∨ d.LeavesOut t) ∧
      ∃ d'' again, d'.apply t = .ok (d'', again) ∧ (again ↔ d.LeavesOut t ∨ d.AddsRequired t) ∧
        (d'' = d' ↔ ¬ d.AddsRequired t) ∧
        ∃ last, d''.apply t = .ok (d'', last) ∧ (last ↔ d.LeavesOut t) := by
  obtain ⟨unknown, rfl, rfl⟩ | ⟨cached, known, ⟨same, rfl, rfl⟩ | ⟨other, checked, rfl, rfl⟩⟩ :=
    apply_cases ok
  case inl =>
    have there : (d.put t).get? t.id = some t := by rw [get?_put, if_pos rfl]
    have repeated := apply_restated there ⟨rfl, reconcileColumns_self t.columns, rfl, rfl⟩
    have leaves : ¬ d.LeavesOut t := by simp [LeavesOut, unknown]
    have adds : ¬ d.AddsRequired t := by simp [AddsRequired, unknown]
    exact ⟨by simp [there, unknown], d.put t, false, repeated, by simp [leaves, adds],
      by simp [adds], false, repeated, by simp [leaves]⟩
  case inr.inl =>
    have leaves : ¬ d'.LeavesOut t := by simp [leavesOut_iff known, same.length]
    have adds : ¬ d'.AddsRequired t := by simp [addsRequired_iff known, same.columns]
    exact ⟨by simp [leaves], d', false, ok, by simp [leaves, adds], by simp [adds], false, ok,
      by simp [leaves]⟩
  case inr.inr =>
    have differs := mt (leavesOut_of_same known other)
    have length := length_reconcileColumns cached.columns t.columns
    have leaves : d.LeavesOut t ↔
        t.columns.length < (reconcileColumns cached.columns t.columns).length := by
      rw [leavesOut_iff known]
      omega
    rw [get?_put_withColumns, known, addsRequired_iff known, Classical.not_not, leaves]
    refine ⟨⟨fun _ => ?_, fun _ => rfl⟩,
      apply_repeated (checkColumns_again t.qualifiedName cached.columns t.columns) (by omega)⟩
    by_cases same : t.withColumns (reconcileColumns cached.columns t.columns) = cached
    · exact .inr (leaves.mp (leavesOut_of_same known other same))
    · exact .inl fun kept => same (Option.some.inj kept)

/-- A definition that fills a gap and adds a nullable column. -/
theorem apply_reported_gap :
    let column (id : Nat) (name : String) (nullable : Bool) : Column :=
      ⟨id, name, .varchar, 10, 0, nullable, false⟩
    let d := empty.put (.new 77 "SCOTT" "EMP" [column 1 "A" false, .placeholder 2])
    let t : Table := .new 77 "SCOTT" "EMP"
      [column 1 "A" false, column 2 "B" false, column 3 "C" true]
    ∃ d', d.apply t = .ok (d', true) ∧ d'.get? 77 ≠ d.get? 77 ∧ d'.apply t = .ok (d', false) := by
  intro column d t
  have ok : d.apply t = .ok (d.put t, true) := rfl
  have known : d.get? t.id = some (.new 77 "SCOTT" "EMP" [column 1 "A" false, .placeholder 2]) := rfl
  have leaves : ¬ d.LeavesOut t := by simp [leavesOut_iff known, t]
  have adds : ¬ d.AddsRequired t := by
    simp only [addsRequired_iff known, Classical.not_not]
    decide +kernel
  obtain ⟨reported, d'', again, second, repeated, kept, -⟩ := apply_reported ok
  obtain rfl := kept.mpr adds
  obtain rfl : again = false := by simpa [leaves, adds] using repeated
  exact ⟨d.put t, ok, (reported.mp rfl).resolve_right leaves, second⟩

/-- A definition that leaves out a column is said to change an entry that stays as it is; one that adds
a column that must have a value changes the entry a second time. -/
theorem said_and_done_again :
    let column (id : Nat) (name : String) (nullable : Bool) : Column :=
      ⟨id, name, .varchar, 10, 0, nullable, false⟩
    let one : Table := .new 77 "SCOTT" "EMP" [column 1 "A" true]
    let two (nullable : Bool) : Table :=
      .new 77 "SCOTT" "EMP" [column 1 "A" true, column 2 "B" nullable]
    (∃ d, empty.apply (two true) = .ok (d, true) ∧ d.apply one = .ok (d, true)) ∧
      ∃ d d' d'', empty.apply one = .ok (d, true) ∧ d.apply (two false) = .ok (d', true) ∧
        d'.apply (two false) = .ok (d'', true) ∧ d'' ≠ d' := by
  intro column one two
  exact ⟨⟨empty.put (two true), rfl, rfl⟩,
    empty.put one, empty.put (two true), empty.put (two false), rfl, rfl, rfl, by decide +kernel⟩

end Dictionary

end ChangeCapture
