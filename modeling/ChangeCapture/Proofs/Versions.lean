import ChangeCapture.Proofs.Admission

/-! Two versions of the columns of a table, place by place: when one may follow the other, and what is
known of each column then. -/
namespace ChangeCapture

namespace Column

/-- What is known of a column by an earlier version, a later one or both. -/
def reconcile : Option Column → Option Column → Option Column
  | some old, some new => some (old.succeed new)
  | some old, none => some old.loosened
  | none, new => new.map loosened

theorem compatible_self (c : Column) : c.compatible c := by simp [compatible]

theorem loosened_eq_self_iff {c : Column} : c.loosened = c ↔ c.nullable := by
  cases c
  simp [loosened, eq_comm]

theorem succeed_self (c : Column) : c.succeed c = c := ite_self c

theorem compatible_succeed (old new : Column) : (old.succeed new).compatible new := by
  unfold succeed
  split
  next placeholder => simp [compatible, placeholder]
  next => exact new.compatible_self

end Column

theorem getElem?_reconcileColumns (cached columns : List Column) (i : Nat) :
    (reconcileColumns cached columns)[i]? = Column.reconcile cached[i]? columns[i]? := by
  fun_induction reconcileColumns cached columns generalizing i with
  | case1 columns => rw [List.getElem?_map, List.getElem?_nil, Column.reconcile]
  | case2 cached =>
    rw [List.getElem?_map, List.getElem?_nil]
    cases cached[i]? <;> rfl
  | case3 old cached new columns ih =>
    cases i with
    | zero => rfl
    | succ i => exact ih i

theorem length_reconcileColumns (cached columns : List Column) :
    (reconcileColumns cached columns).length = max cached.length columns.length := by
  fun_induction reconcileColumns cached columns with
  | case1 => simp
  | case2 => simp
  | case3 _ _ _ _ ih => simp [ih]

/-- A version may follow another one if each column that is in both goes with itself. -/
theorem checkColumns_eq_ok_iff {table : String} {cached columns : List Column} :
    checkColumns table cached columns = .ok () ↔ ∀ (i : Nat) (old new : Column),
      cached[i]? = some old → columns[i]? = some new → old.compatible new := by
  induction cached generalizing columns with
  | nil => simp [checkColumns]
  | cons old cached ih =>
    cases columns with
    | nil => simp [checkColumns]
    | cons new columns =>
      rw [checkColumns]
      by_cases compatible : old.compatible new
      · rw [if_pos compatible, ih]
        constructor
        · intro rest i old' new' found found'
          cases i with
          | zero =>
            cases found
            cases found'
            exact compatible
          | succ i => exact rest i old' new' found found'
        · exact fun all i old' new' => all (i + 1) old' new'
      · rw [if_neg compatible]
        exact ⟨nofun, fun all => absurd (all 0 old new rfl rfl) compatible⟩

/-- A version is refused for a column that was described otherwise. -/
theorem checkColumns_error {table : String} {cached columns : List Column} {f : Failure}
    (refused : checkColumns table cached columns = .error f) : ∃ (i : Nat) (old new : Column),
      cached[i]? = some old ∧ columns[i]? = some new ∧ old.compatible new = false ∧
        f = .incompatibleDdl table old.id old.described new.described := by
  induction cached generalizing columns with
  | nil => cases refused
  | cons old cached ih =>
    cases columns with
    | nil => cases refused
    | cons new columns =>
      rw [checkColumns] at refused
      split at refused
      next =>
        obtain ⟨i, rest⟩ := ih refused
        exact ⟨i + 1, rest⟩
      next clash =>
        cases refused
        exact ⟨0, old, new, rfl, rfl, Bool.not_eq_true _ ▸ clash, rfl⟩

end ChangeCapture
