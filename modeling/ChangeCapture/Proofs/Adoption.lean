import ChangeCapture.Proofs.Conflicts
import Mathlib.Data.Nat.Find

/-! What a record takes from another one, slot by slot. A value comes to a slot that is empty or null, and
of two large-object writes to every slot; it is refused for the first slot that is of another column.
Whatever a row change has a value for, it has the same value for ever after. -/
namespace ChangeCapture

/-- The ordinal of the last slot that is taken, zero where none is. -/
def lastOrdinal (slots : List (Option ColumnValue)) : Nat :=
  (slots.mapIdx (fun i slot => if slot.isSome then i + 1 else 0)).foldr max 0

theorem foldr_max_le {numbers : List Nat} {n : Nat} :
    numbers.foldr max 0 ≤ n ↔ ∀ m ∈ numbers, m ≤ n := by
  induction numbers with
  | nil => simp
  | cons m numbers ih => rw [List.foldr_cons, Nat.max_le, ih, List.forall_mem_cons]

theorem lastOrdinal_le_iff {slots : List (Option ColumnValue)} {n : Nat} :
    lastOrdinal slots ≤ n ↔ ∀ k : Nat, n ≤ k → slots[k]?.join = none := by
  simp only [lastOrdinal, foldr_max_le, List.mem_mapIdx, forall_exists_index]
  constructor
  · intro small k beyond
    cases found : slots[k]? with
    | none => rfl
    | some slot =>
      obtain ⟨within, rfl⟩ := List.getElem?_eq_some_iff.mp found
      have here := small _ k within rfl
      cases taken : slots[k] with
      | none => rfl
      | some v =>
        simp [taken] at here
        omega
  · rintro empty _ k within rfl
    cases taken : slots[k] with
    | none => simp
    | some v =>
      by_contra beyond
      have nothing := empty k (by simp at beyond; omega)
      simp [within, taken] at nothing

theorem Clash.exists_first {overwrite : Bool} {into other : List (Option ColumnValue)} {place : Nat}
    {conflict : SlotConflict}
    (clash : Clash overwrite into[place]?.join other[place]?.join conflict) :
    ∃ place conflict, FirstClash overwrite into other place conflict := by
  classical
  have clashes : ∃ place : Nat, ∃ c, Clash overwrite into[place]?.join other[place]?.join c :=
    ⟨place, conflict, clash⟩
  obtain ⟨c, here⟩ := Nat.find_spec clashes
  refine ⟨Nat.find clashes, c, here, ?_⟩
  intro j before c' earlier
  exact Nat.find_min clashes before ⟨c', earlier⟩

namespace ChangeRecord

/-- What a record has at a place. -/
def slot (r : ChangeRecord) (place : Nat) : Option ColumnValue := r.columns[place]?.join

/-- Whether a value of a record gives way to one of another record. -/
def givesWay (r other : ChangeRecord) (u : ColumnValue) : Bool :=
  u.value.isNull || (r.isLobWrite && other.isLobWrite)

/-- What becomes of a record that adopts another one. -/
structure Adopted (r other r' : ChangeRecord) : Prop where
  header : r'.header = r.header
  multiPart : r'.multiPart = r.multiPart
  complete : r'.complete = r.complete
  filled : ∀ place, r.slot place = none → r'.slot place = other.slot place
  replaced : ∀ place u v, r.slot place = some u → other.slot place = some v → r.givesWay other u →
    r'.slot place = some { u with
      value := v.value
      lob := if v.lob.isSome then v.lob else u.lob
      isSupplementalKey := u.isSupplementalKey || v.isSupplementalKey }
  kept : ∀ place u, r.slot place = some u → other.slot place = none ∨ ¬ r.givesWay other u →
    r'.slot place = some u
  length : r'.columns.length = max r.columns.length (lastOrdinal other.columns)

/-- Whether a record still has what an earlier one has a value for. -/
structure Preserves (r r' : ChangeRecord) : Prop where
  header : r'.header = r.header
  value : ∀ place u, r.slot place = some u → ¬ u.value.isNull → r'.slot place = some u

variable {r r' other : ChangeRecord} {place : Nat} {u v : ColumnValue}

theorem clash_iff : Clash (r.isLobWrite && other.isLobWrite) (r.slot place) (other.slot place) ⟨u, v⟩ ↔
    r.slot place = some u ∧ other.slot place = some v ∧ r.givesWay other u ∧
      (u.name ≠ v.name ∨ u.dataType ≠ v.dataType) := by
  have differs : u.sameColumn v = false ↔ u.name ≠ v.name ∨ u.dataType ≠ v.dataType := by
    simp [ColumnValue.sameColumn, imp_iff_not_or]
  rw [← differs]
  constructor
  · intro clash
    exact ⟨clash.into, clash.other, clash.takes, clash.different⟩
  · rintro ⟨known, given, givesWay, different⟩
    exact ⟨known, given, givesWay, different⟩

theorem adopt_failed_iff {conflict : SlotConflict} :
    (r.adopt other).2 = some conflict ↔ ∃ place, r.ClashesAt other place conflict := by
  constructor
  · intro failed
    obtain ⟨place, clash, -⟩ := adopt_conflict_iff.mp (Prod.ext rfl failed)
    exact ⟨place, clash⟩
  · rintro ⟨place, clash⟩
    rw [adopt_conflict_iff.mpr ⟨place, clash, rfl⟩]

theorem slot_takeUpBefore (overwrite : Bool) (before place : Nat)
    (into other : List (Option ColumnValue)) :
    (takeUpBefore overwrite before into other)[place]?.join = into[place]?.join ∨
      (takeUpBefore overwrite before into other)[place]?.join =
        takeUp overwrite into[place]?.join other[place]?.join := by
  cases found : into[place]? with
  | none => simp [takeUpBefore, found]
  | some slot =>
    by_cases earlier : place < before
    · simp [takeUpBefore, found, earlier]
    · simp [takeUpBefore, found, earlier]

/-- Adopting takes a slot up or leaves it, and all of them are taken up unless it fails. -/
theorem slot_adopt (r other : ChangeRecord) (place : Nat) :
    (r.adopt other).1.slot place = r.slot place ∨
      (r.adopt other).1.slot place =
        takeUp (r.isLobWrite && other.isLobWrite) (r.slot place) (other.slot place) := by
  rcases adopted : r.adopt other with ⟨r', _ | conflict⟩
  · exact .inr ((adopts_of_adopt adopted).column (place + 1))
  · obtain ⟨before, -, rfl⟩ := adopt_conflict_iff.mp adopted
    exact slot_takeUpBefore _ before place r.columns other.columns

theorem adopted_of_adopt (ok : (r.adopt other).2 = none) : r.Adopted other (r.adopt other).1 := by
  have adopts : r.Adopts other (r.adopt other).1 := adopts_of_adopt (Prod.ext rfl ok)
  have slots (place : Nat) : (r.adopt other).1.slot place =
      takeUp (r.isLobWrite && other.isLobWrite) (r.slot place) (other.slot place) :=
    adopts.column (place + 1)
  refine ⟨adopts.header, rfl, adopts.complete, ?filled, ?replaced, ?kept, ?length⟩
  case filled =>
    intro place empty
    cases given : other.slot place <;> simp [slots, empty, given, takeUp]
  case replaced =>
    intro place u v known given givesWay
    rw [ChangeRecord.givesWay] at givesWay
    cases location : v.lob <;>
      simp [slots, known, given, takeUp, givesWay, ColumnValue.replacedBy, location]
  case kept =>
    rintro place u known (nothing | keeps)
    · simp [slots, known, nothing, takeUp]
    · rw [givesWay] at keeps
      cases given : other.slot place <;> simp [slots, known, given, takeUp, keeps]
  case length =>
    refine eq_of_forall_ge_iff fun n => ?_
    rw [adopts.length, empty_beyond, Nat.max_le, lastOrdinal_le_iff]

theorem Preserves.refl (r : ChangeRecord) : r.Preserves r := ⟨rfl, fun _ _ known _ => known⟩

theorem Preserves.trans {r'' : ChangeRecord} (first : r.Preserves r') (second : r'.Preserves r'') :
    r.Preserves r'' where
  header := second.header.trans first.header
  value place u known value := second.value place u (first.value place u known value) value

/-- A row change keeps its values through every record that it adopts, whether or not it adopts all of
it. -/
theorem preserves_adopt (row : r.header.action.isRowChange) (other : ChangeRecord) :
    r.Preserves (r.adopt other).1 := by
  refine ⟨rfl, fun place u known value => ?_⟩
  rcases slot_adopt r other place with same | taken
  · rw [same, known]
  · have has : hasValue (r.slot place) := by simpa [hasValue, known] using value
    rw [taken, not_lobWrite_of_row row, Bool.false_and, takeUp_hasValue has, known]

theorem preserves_foldl_adopt (row : r.header.action.isRowChange) (others : List ChangeRecord) :
    r.Preserves (others.foldl (fun m other => (m.adopt other).1) r) := by
  induction others using List.reverseRecOn with
  | nil => exact .refl r
  | append_singleton others other ih =>
    rw [List.foldl_append, List.foldl_cons, List.foldl_nil]
    exact ih.trans (preserves_adopt (ih.header ▸ row) other)

/-- One record adopts another one unless they have values of different columns in a slot where the first
one gives way; then it fails for the first such slot, and names both values. Otherwise it still has its
header and its flags, and each slot is filled from the other record, replaced by it, or as it was. In
no case does a row change lose a value, however many records it adopts. -/
theorem adopt_slotwise (r other : ChangeRecord) :
    ((r.adopt other).2.isSome ↔ ∃ place u v, r.slot place = some u ∧ other.slot place = some v ∧
      r.givesWay other u ∧ (u.name ≠ v.name ∨ u.dataType ≠ v.dataType)) ∧
    (∀ key heldInto f, (r.adopt other).2.map (fun c => c.failure key heldInto) = some f ↔
      ∃ place u v, r.ClashesAt other place ⟨u, v⟩ ∧
        f = if heldInto
          then .mergeMismatch key v.id s!"{u.name} {u.dataType.name}" s!"{v.name} {v.dataType.name}"
          else .mergeMismatch key v.id s!"{v.name} {v.dataType.name}" s!"{u.name} {u.dataType.name}") ∧
    ((r.adopt other).2 = none → r.Adopted other (r.adopt other).1) ∧
    (r.header.action.isRowChange → ∀ others : List ChangeRecord,
      r.Preserves (others.foldl (fun m other => (m.adopt other).1) r)) := by
  refine ⟨?fails, ?reports, adopted_of_adopt, preserves_foldl_adopt⟩
  case fails =>
    constructor
    · intro failed
      obtain ⟨⟨u, v⟩, conflict⟩ := Option.isSome_iff_exists.mp failed
      obtain ⟨place, first⟩ := adopt_failed_iff.mp conflict
      exact ⟨place, u, v, clash_iff.mp first.here⟩
    · rintro ⟨place, u, v, clash⟩
      obtain ⟨place, conflict, first⟩ := (clash_iff.mpr clash).exists_first
      exact Option.isSome_iff_exists.mpr ⟨conflict, adopt_failed_iff.mpr ⟨place, first⟩⟩
  case reports =>
    intro key heldInto f
    rw [Option.map_eq_some_iff]
    constructor
    · rintro ⟨⟨u, v⟩, conflict, rfl⟩
      obtain ⟨place, first⟩ := adopt_failed_iff.mp conflict
      exact ⟨place, u, v, first, by cases heldInto <;> rfl⟩
    · rintro ⟨place, u, v, first, rfl⟩
      exact ⟨⟨u, v⟩, adopt_failed_iff.mpr ⟨place, first⟩, by cases heldInto <;> rfl⟩

/-- A row with a large object that is null, and a write of that and of a column behind the row's last
slot. -/
theorem adopt_slotwise_beyond_the_row :
    let header (action : ChangeAction) : ChangeHeader :=
      ⟨action, ⟨3, 1⟩, some "1.2.3", 5, none, 7, "APP", "ORDERS", none⟩
    let id (n : Int) : ColumnValue := .ofColumn (.ofType 1 "ID" .number) (.int n)
    let body (value : Field) : ColumnValue := .ofColumn (.ofType 2 "BODY" .clob) value
    let note : ColumnValue := .ofColumn (.ofType 4 "NOTE" .clob) (.text "n")
    let located : ColumnValue := { body (.text "b") with lob := some .start }
    let r : ChangeRecord := ⟨header .insert, [some (id 4), some (body .null)], false, false⟩
    let w : ChangeRecord := ⟨header .lobWrite, [some (id 5), some located, none, some note, none],
      true, false⟩
    let merged : ChangeRecord :=
      { r with columns := [some (id 4), some located, none, some note] }
    r.adopt w = (merged, none) ∧ r.Adopted w merged ∧ r.Preserves ((merged.adopt w).1) := by
  intro header id body note located r w merged
  have adopted : r.adopt w = (merged, none) := by decide
  obtain ⟨-, -, whole, preserved⟩ := adopt_slotwise r w
  have twice := preserved rfl [w, w]
  rw [adopted] at whole
  rw [List.foldl_cons, List.foldl_cons, List.foldl_nil, adopted] at twice
  exact ⟨adopted, whole rfl, twice⟩

end ChangeRecord

end ChangeCapture
