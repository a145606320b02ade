import ChangeCapture.Proofs.Growth
import ChangeCapture.Proofs.Merging

/-! One entry in the two views. Both fail alike and teach the catalog the same; where they succeed,
the slots of the row and the lists of the vector tell of the same columns. -/
namespace ChangeCapture

/-- Two results that fail alike or succeed with values that belong together. -/
inductive Alike (R : α → β → Prop) : Except Failure α → Except Failure β → Prop
  | failed (f : Failure) : Alike R (.error f) (.error f)
  | done {a : α} {b : β} (related : R a b) : Alike R (.ok a) (.ok b)

/-- Whether a step succeeds, or how it fails. -/
def outcome (x : Except Failure α) : Except Failure Unit := x.map (fun _ => ())

namespace Alike

theorem of_outcome {R : α → β → Prop} {x : Except Failure α} {y : Except Failure β}
    (same : outcome x = outcome y) (related : ∀ a b, x = .ok a → y = .ok b → R a b) :
    Alike R x y := by
  cases x with
  | error f =>
    cases y with
    | error g =>
      cases same
      exact .failed f
    | ok b => cases same
  | ok a =>
    cases y with
    | error g => cases same
    | ok b => exact .done (related a b rfl rfl)

theorem foldlM {R : σ → τ → Prop} {step : σ → ι → Except Failure σ}
    {step' : τ → ι → Except Failure τ}
    (each : ∀ i s t, R s t → Alike R (step s i) (step' t i)) (l : List ι) {s : σ} {t : τ}
    (start : R s t) : Alike R (l.foldlM step s) (l.foldlM step' t) := by
  induction l generalizing s t with
  | nil => exact .done start
  | cons i l ih =>
    rw [List.foldlM_cons, List.foldlM_cons]
    have next := each i s t start
    generalize step s i = x, step' t i = y at next ⊢
    cases next with
    | failed f => exact .failed f
    | done related => exact ih related

end Alike

theorem outcome_map (x : Except Failure α) (f : α → β) : outcome (x.map f) = outcome x := by
  cases x <;> rfl

namespace ColumnImage

theorem outcome_applyLocation (tag : Tag) (v : ColumnValue) :
    outcome (applyLocation tag v) = outcome (locate .start tag) := by
  rw [applyLocation, outcome_map]
  unfold locate
  split <;> first | rw [outcome_map, outcome_map] | rfl

theorem applyLocation_ok {tag : Tag} {v l : ColumnValue} (ok : applyLocation tag v = .ok l) :
    ∃ location, l = { v with lob := some location } := by
  obtain ⟨location, -, rfl⟩ := map_ok ok
  exact ⟨location, rfl⟩

/-- Whether an image of a column can be taken up, or how that fails. -/
def taken (column : Column) (tag : Tag) : Except Failure Unit :=
  if tag.type.isLocation then outcome (locate .start tag) else outcome (field column tag)

end ColumnImage

/-- The columns that images tell of: all of them, those of key images, and those with a location. -/
@[ext]
structure Marks where
  told : Nat → Prop
  supplemental : Nat → Prop
  located : Nat → Prop

namespace Marks

/-- With one more image of a column. -/
def add (m : Marks) (id : Nat) (type : TagType) : Marks where
  told n := m.told n ∨ n = id
  supplemental n := m.supplemental n ∨ n = id ∧ type = .keyImage
  located n := m.located n ∨ n = id ∧ type.isLocation

end Marks

def ChangeVector.marks (v : ChangeVector) : Marks where
  told n := ∃ w ∈ v.key ++ v.old ++ v.new ++ v.lob, w.id = n
  supplemental n := ∃ w ∈ v.key, w.id = n
  located n := ∃ w ∈ v.lob, w.id = n ∧ w.lob.isSome

/-- The columns that the slots of a row tell of. -/
def slotMarks (slots : List (Option ColumnValue)) : Marks where
  told n := ∃ u, some u ∈ slots ∧ u.id = n
  supplemental n := ∃ u, some u ∈ slots ∧ u.id = n ∧ u.isSupplementalKey
  located n := ∃ u, some u ∈ slots ∧ u.id = n ∧ u.lob.isSome

theorem changeLast?_eq_none {p : α → Bool} {f : α → Except Failure α} {l : List α} :
    changeLast? p f l = none ↔ ∀ a ∈ l, p a = false := by
  induction l with
  | nil => simp [changeLast?]
  | cons a rest ih =>
    rw [changeLast?, List.forall_mem_cons, ← ih]
    cases changeLast? p f rest <;> cases p a <;> simp

/-- What became of the last element that can be changed, and of none of the others. -/
theorem changeLast?_eq_some {p : α → Bool} {f : α → Except Failure α} {l : List α}
    {x : Except Failure (List α)} (changed : changeLast? p f l = some x) :
    ∃ before a after, l = before ++ a :: after ∧ p a ∧
      x = (f a).map (fun b => before ++ b :: after) := by
  induction l generalizing x with
  | nil => cases changed
  | cons a rest ih =>
    rw [changeLast?] at changed
    rcases later : changeLast? p f rest with _ | y
    · simp only [later] at changed
      split at changed
      next hit =>
        cases changed
        exact ⟨[], a, rest, rfl, hit, rfl⟩
      next => cases changed
    · simp only [later, Option.some.injEq] at changed
      obtain ⟨before, b, after, rfl, hit, rfl⟩ := ih later
      refine ⟨a :: before, b, after, rfl, hit, ?_⟩
      rw [← changed]
      cases f b <;> rfl

theorem exists_mem_middle {before after : List α} {a : α} {p : α → Prop} :
    (∃ w ∈ before ++ a :: after, p w) ↔ (∃ w ∈ before ++ after, p w) ∨ p a := by
  simp only [List.mem_append, List.mem_cons, or_and_right, exists_or, exists_eq_left]
  rw [or_assoc, or_comm (a := p a)]

theorem exists_mem_concat {l : List α} {a : α} {p : α → Prop} :
    (∃ w ∈ l ++ [a], p w) ↔ (∃ w ∈ l, p w) ∨ p a := by
  rw [exists_mem_middle, List.append_nil]

namespace ChangeVector

theorem outcome_addLocation (v : ChangeVector) (column : Column) (tag : Tag) :
    outcome (v.addLocation column tag) = outcome (ColumnImage.locate .start tag) := by
  unfold addLocation
  split
  next changed found =>
    obtain ⟨before, a, after, -, -, rfl⟩ := changeLast?_eq_some found
    rw [outcome_map, outcome_map, ColumnImage.outcome_applyLocation]
  next => rw [outcome_map, ColumnImage.outcome_applyLocation]

/-- A location goes to a large object of the column, to a new one if there is none yet. -/
theorem addLocation_ok {v v' : ChangeVector} {column : Column} {tag : Tag}
    (ok : v.addLocation column tag = .ok v') : ∃ lob, v' = { v with lob } ∧
      (∀ n, (∃ w ∈ lob, w.id = n) ↔ (∃ w ∈ v.lob, w.id = n) ∨ n = column.id) ∧
      ∀ n, (∃ w ∈ lob, w.id = n ∧ w.lob.isSome) ↔
        (∃ w ∈ v.lob, w.id = n ∧ w.lob.isSome) ∨ n = column.id := by
  unfold addLocation at ok
  split at ok
  next changed found =>
    obtain ⟨before, a, after, there, hit, rfl⟩ := changeLast?_eq_some found
    obtain ⟨lob, changed, rfl⟩ := map_ok ok
    obtain ⟨l, located, rfl⟩ := map_ok changed
    obtain ⟨location, rfl⟩ := ColumnImage.applyLocation_ok located
    have same : a.id = column.id := of_decide_eq_true hit
    refine ⟨_, rfl, fun n => ?_, fun n => ?_⟩ <;>
      rw [there, exists_mem_middle, exists_mem_middle]
    · grind
    · grind
  next =>
    obtain ⟨l, located, rfl⟩ := map_ok ok
    obtain ⟨location, rfl⟩ := ColumnImage.applyLocation_ok located
    refine ⟨_, rfl, fun n => ?_, fun n => ?_⟩ <;> rw [exists_mem_concat]
    · rw [eq_comm (a := n)]
      rfl
    · simp [ColumnValue.ofColumn, eq_comm (a := n)]

theorem addData_eq (v : ChangeVector) (value : ColumnValue) (nowhere : value.lob = none) :
    ∃ lob, v.addData value = { v with lob } ∧
      (∀ n, (∃ w ∈ lob, w.id = n) ↔ (∃ w ∈ v.lob, w.id = n) ∨ n = value.id) ∧
      ∀ n, (∃ w ∈ lob, w.id = n ∧ w.lob.isSome) ↔ ∃ w ∈ v.lob, w.id = n ∧ w.lob.isSome := by
  have appended : (∀ n, (∃ w ∈ v.lob ++ [value], w.id = n) ↔
        (∃ w ∈ v.lob, w.id = n) ∨ n = value.id) ∧
      ∀ n, (∃ w ∈ v.lob ++ [value], w.id = n ∧ w.lob.isSome) ↔
        ∃ w ∈ v.lob, w.id = n ∧ w.lob.isSome := by
    constructor <;> intro n <;> rw [exists_mem_concat]
    · rw [eq_comm (a := n)]
    · simp [nowhere]
  unfold addData
  split
  next last found =>
    split
    · split
      next lob changed =>
        obtain ⟨before, a, after, there, hit, filled⟩ := changeLast?_eq_some changed
        cases filled
        have same : a.id = value.id := of_decide_eq_true hit
        refine ⟨_, rfl, fun n => ?_, fun n => ?_⟩ <;>
          rw [there, exists_mem_middle, exists_mem_middle]
        rw [or_assoc, same, eq_comm (a := n), or_self]
      next absent =>
        exfalso
        rcases changed : changeLast? (fun l => l.id = value.id)
            (fun l => .ok { l with value := value.value }) v.lob with _ | x
        · have unlike := changeLast?_eq_none.mp changed last
            (List.mem_reverse.mp (List.mem_of_find?_eq_some found))
          rw [List.find?_some found] at unlike
          cases unlike
        · obtain ⟨before, a, after, -, -, rfl⟩ := changeLast?_eq_some changed
          exact absent _ changed
    · exact ⟨_, rfl, appended⟩
  next => exact ⟨_, rfl, appended⟩

theorem told_iff {v : ChangeVector} {n : Nat} : v.marks.told n ↔ (∃ w ∈ v.key, w.id = n) ∨
    (∃ w ∈ v.old, w.id = n) ∨ (∃ w ∈ v.new, w.id = n) ∨ ∃ w ∈ v.lob, w.id = n := by
  simp only [marks, List.mem_append, or_and_right, exists_or, or_assoc]

theorem marks_addLocation {v v' : ChangeVector} {column : Column} {tag : Tag}
    (location : tag.type.isLocation) (ok : v.addLocation column tag = .ok v') :
    v'.marks = v.marks.add column.id tag.type := by
  obtain ⟨lob, rfl, told, located⟩ := addLocation_ok ok
  have noKey : tag.type ≠ .keyImage := by
    intro key
    rw [key] at location
    cases location
  refine Marks.ext (funext fun n => ?told) (funext fun n => ?supplemental)
    (funext fun n => ?located) <;> rw [eq_iff_iff]
  case told => simp only [Marks.add, told_iff, told, or_assoc]
  case supplemental => simp [Marks.add, marks, noKey]
  case located => simp [Marks.add, marks, located, location]

theorem marks_addImage (v : ChangeVector) {type : TagType} {value : ColumnValue}
    (location : type.isLocation = false) (nowhere : value.lob = none) :
    (v.addImage type value).marks = v.marks.add value.id type := by
  obtain ⟨lob, filled, told, located⟩ := v.addData_eq value nowhere
  refine Marks.ext (funext fun n => ?told) (funext fun n => ?supplemental)
    (funext fun n => ?located) <;> rw [eq_iff_iff] <;> unfold addImage <;> simp only [Marks.add]
  case told =>
    split <;> simp only [filled, told, told_iff, exists_mem_concat, eq_comm (a := value.id),
      or_assoc, or_comm, or_left_comm]
  case supplemental =>
    split <;> simp_all [marks, eq_comm (a := n), or_and_right, exists_or]
  case located =>
    split <;> simp_all [marks]

theorem key_addImage (v : ChangeVector) (type : TagType) (value : ColumnValue) :
    (v.addImage type value).key = v.key ∨
      (v.addImage type value).key = v.key ++ [{ value with isSupplementalKey := true }] := by
  unfold addImage addData
  split
  · exact .inr rfl
  · exact .inl rfl
  · exact .inl rfl
  · split
    · split
      · split <;> exact .inl rfl
      · exact .inl rfl
    · exact .inl rfl

variable {table : Table} {v v' : ChangeVector} {image : ColumnImage} {column : Column}

theorem add_column (found : table.column? image.ordinal = some column) :
    v.add table image =
      if image.tag.type.isLocation then v.addLocation column image.tag
      else (ColumnImage.field column image.tag).map fun field =>
        v.addImage image.tag.type (.ofColumn column field) := by
  rw [add, found]
  rfl

theorem outcome_add (found : table.column? image.ordinal = some column) :
    outcome (v.add table image) = ColumnImage.taken column image.tag := by
  rw [add_column found, ColumnImage.taken]
  split
  · exact outcome_addLocation v column image.tag
  · exact outcome_map _ _

theorem add_ok (found : table.column? image.ordinal = some column)
    (keyed : ∀ w ∈ v.key, w.isSupplementalKey) (ok : v.add table image = .ok v') :
    (∀ w ∈ v'.key, w.isSupplementalKey) ∧
      v'.marks = v.marks.add column.id image.tag.type := by
  rw [add_column found] at ok
  split at ok
  next location =>
    have marks := marks_addLocation location ok
    obtain ⟨lob, rfl, -⟩ := addLocation_ok ok
    exact ⟨keyed, marks⟩
  next data =>
    obtain ⟨field, -, rfl⟩ := map_ok ok
    refine ⟨?_, marks_addImage v (Bool.not_eq_true _ ▸ data) rfl⟩
    rcases v.key_addImage image.tag.type (.ofColumn column field) with key | key <;> rw [key]
    · exact keyed
    · simpa [or_imp, forall_and] using keyed

end ChangeVector

/-- A value in the place of the one that was there, or of a new one, which is of the same column and
has what that had, and `q` as well. -/
theorem exists_mem_set {slots : List (Option ColumnValue)} {index n : Nat} {base u : ColumnValue}
    {p : ColumnValue → Prop} {q : Prop} (inside : index < slots.length)
    (there : ∀ w, slots[index]?.join = some w → w = base)
    (fresh : slots[index]?.join = none → p base → q) (same : u.id = base.id)
    (grown : p u ↔ p base ∨ q) :
    (∃ w, some w ∈ slots.set index (some u) ∧ w.id = n ∧ p w) ↔
      (∃ w, some w ∈ slots ∧ w.id = n ∧ p w) ∨ n = base.id ∧ q := by
  constructor
  · rintro ⟨w, member, rfl, holds⟩
    rcases List.mem_or_eq_of_mem_set member with old | new
    · exact .inl ⟨w, old, rfl, holds⟩
    · cases new
      rcases grown.mp holds with had | given
      · rcases held : slots[index]?.join with _ | w
        · exact .inr ⟨same, fresh held had⟩
        · obtain rfl := there w held
          exact .inl ⟨w, List.mem_of_getElem? (Option.join_eq_some_iff.mp held), same.symm, had⟩
      · exact .inr ⟨same, given⟩
  · rintro (⟨w, member, rfl, holds⟩ | ⟨rfl, given⟩)
    · obtain ⟨place, found⟩ := List.mem_iff_getElem?.mp member
      by_cases here : index = place
      · subst here
        obtain rfl := there w (by rw [found]; rfl)
        exact ⟨u, List.mem_set inside _, same, grown.mpr (.inl holds)⟩
      · exact ⟨w, List.mem_of_getElem? ((List.getElem?_set_ne here).trans found), rfl, holds⟩
    · exact ⟨u, List.mem_set inside _, same, grown.mpr (.inr given)⟩

namespace RowSlot

theorem outcome_add (column : Column) (slot : Option RowSlot) (tag : Tag) :
    outcome (add column slot tag) = ColumnImage.taken column tag := by
  unfold add ColumnImage.taken
  split
  · exact (outcome_map _ _).trans (ColumnImage.outcome_applyLocation _ _)
  · exact outcome_map _ _

theorem id_getD {column : Column} {slot : Option RowSlot}
    (own : ∀ old, slot = some old → old.value.id = column.id) :
    (slot.getD (ofColumn column)).value.id = column.id := by
  cases slot with
  | none => rfl
  | some old => exact own old rfl

theorem add_ok {column : Column} {slot : Option RowSlot} {tag : Tag} {s : RowSlot}
    (ok : add column slot tag = .ok s) :
    s.value.id = (slot.getD (ofColumn column)).value.id ∧
      (s.value.isSupplementalKey ↔
        (slot.getD (ofColumn column)).value.isSupplementalKey ∨ tag.type = .keyImage) ∧
      (s.value.lob.isSome ↔
        (slot.getD (ofColumn column)).value.lob.isSome ∨ tag.type.isLocation) := by
  unfold add at ok
  split at ok
  next location =>
    obtain ⟨value, located, rfl⟩ := map_ok ok
    obtain ⟨l, rfl⟩ := ColumnImage.applyLocation_ok located
    have noKey : tag.type ≠ .keyImage := by
      intro key
      rw [key] at location
      cases location
    simp [location, noKey]
  next image =>
    obtain ⟨field, -, rfl⟩ := map_ok ok
    unfold take
    dsimp only
    split <;> split <;> simp_all

end RowSlot

theorem marks_place {slots : List (Option RowSlot)} {index : Nat} {column : Column} {tag : Tag}
    {s : RowSlot} (inside : index < slots.length)
    (own : ∀ old, slots[index]?.join = some old → old.value.id = column.id)
    (ok : RowSlot.add column slots[index]?.join tag = .ok s) :
    slotMarks ((slots.set index (some s)).map (Option.map RowSlot.value)) =
      (slotMarks (slots.map (Option.map RowSlot.value))).add column.id tag.type := by
  obtain ⟨id, supplemental, located⟩ := RowSlot.add_ok ok
  have held : (slots.map (Option.map RowSlot.value))[index]?.join =
      (slots[index]?.join).map RowSlot.value := by
    rw [List.getElem?_map]
    cases slots[index]? <;> rfl
  have inside : index < (slots.map (Option.map RowSlot.value)).length := by simpa using inside
  rw [List.map_set]
  generalize slots.map (Option.map RowSlot.value) = values at held inside ⊢
  generalize slots[index]?.join = old at own id supplemental located held
  have same : (old.getD (.ofColumn column)).value.id = column.id := RowSlot.id_getD own
  have there (w : ColumnValue) (found : values[index]?.join = some w) :
      w = (old.getD (.ofColumn column)).value := by
    rw [held] at found
    obtain ⟨old, rfl, rfl⟩ := Option.map_eq_some_iff.mp found
    rfl
  have fresh (nothing : values[index]?.join = none) : old = none := by simpa [held] using nothing
  refine Marks.ext (funext fun n => ?told) (funext fun n => ?supplemental)
    (funext fun n => ?located) <;> rw [eq_iff_iff]
  case told =>
    have set := exists_mem_set (n := n) (p := fun _ => True) (q := True) inside there
      (fun _ _ => trivial) id (by simp)
    simpa [slotMarks, Marks.add, same] using set
  case supplemental =>
    have set := exists_mem_set (n := n) (p := fun w => w.isSupplementalKey) inside there
      (fun nothing => by rw [fresh nothing]; exact nofun) id supplemental
    simpa [slotMarks, Marks.add, same] using set
  case located =>
    have set := exists_mem_set (n := n) (p := fun w => w.lob.isSome) inside there
      (fun nothing => by rw [fresh nothing]; exact nofun) id located
    simpa [slotMarks, Marks.add, same] using set

theorem placeImage_nowhere {table : Table} {image : ColumnImage}
    (nowhere : table.column? image.ordinal = none) (slots : List (Option RowSlot)) :
    placeImage table slots image = .ok slots := by
  rw [Table.column?] at nowhere
  rcases place : columnIndex? image.ordinal with _ | index <;> rw [place] at nowhere
  · rw [placeImage, place]
  · rw [Option.bind_some] at nowhere
    simp only [placeImage, place, nowhere]

theorem placeImage_column {table : Table} {image : ColumnImage} {index : Nat} {column : Column}
    (place : columnIndex? image.ordinal = some index) (there : table.columns[index]? = some column)
    (slots : List (Option RowSlot)) :
    placeImage table slots image =
      (RowSlot.add column slots[index]?.join image.tag).map fun s => slots.set index (some s) := by
  rw [placeImage, place]
  dsimp only
  rw [there]
  rfl

/-- What the images so far have made of a row and of a vector. -/
structure SideBySide (header : ChangeHeader) (table : Table) (slots : List (Option RowSlot))
    (v : ChangeVector) : Prop where
  header : v.header = header
  length : slots.length = table.columns.length
  own : ∀ (index : Nat) (s : RowSlot), slots[index]?.join = some s →
    (table.columns.map Column.id)[index]? = some s.value.id
  keyed : ∀ w ∈ v.key, w.isSupplementalKey
  marks : slotMarks (slots.map (Option.map RowSlot.value)) = v.marks

namespace SideBySide

variable {header : ChangeHeader} {table : Table} {slots : List (Option RowSlot)} {v : ChangeVector}

theorem empty (header : ChangeHeader) (table : Table) :
    SideBySide header table (List.replicate table.columns.length none) (.empty header) where
  header := rfl
  length := List.length_replicate
  own index s found := by
    rw [List.getElem?_replicate] at found
    split at found <;> cases found
  keyed := by simp [ChangeVector.empty]
  marks := by
    refine Marks.ext (funext fun n => ?_) (funext fun n => ?_) (funext fun n => ?_) <;>
      simp [slotMarks, ChangeVector.marks, ChangeVector.empty]

/-- One more image is refused by both for the same reason, or taken up by both. -/
theorem add (both : SideBySide header table slots v) (image : ColumnImage) :
    Alike (SideBySide header table) (placeImage table slots image) (v.add table image) := by
  rcases found : table.column? image.ordinal with _ | column
  · rw [placeImage_nowhere found, ChangeVector.add, found]
    exact .done both
  · obtain ⟨index, place, there⟩ := Option.bind_eq_some_iff.mp found
    have placed := placeImage_column place there slots
    refine .of_outcome ?outcome fun slots' v' ok ok' => ?related
    case outcome =>
      rw [placed, outcome_map, RowSlot.outcome_add, ChangeVector.outcome_add found]
    case related =>
      rw [placed] at ok
      obtain ⟨s, added, rfl⟩ := map_ok ok
      obtain ⟨keyed, marks⟩ := ChangeVector.add_ok found both.keyed ok'
      have header := (ChangeVector.header_add ok').trans both.header
      have inside : index < slots.length := both.length ▸ (List.getElem?_eq_some_iff.mp there).1
      have id : (table.columns.map Column.id)[index]? = some column.id := by
        rw [List.getElem?_map, there]
        rfl
      have own (old : RowSlot) (held : slots[index]?.join = some old) :
          old.value.id = column.id :=
        Option.some.inj ((both.own index old held).symm.trans id)
      refine ⟨header, by rw [List.length_set, both.length], ?_, keyed, ?_⟩
      · intro k u held
        by_cases here : index = k
        · subst here
          rw [List.getElem?_set_self inside] at held
          cases held
          rw [id, (RowSlot.add_ok added).1, RowSlot.id_getD own]
        · rw [List.getElem?_set_ne here] at held
          exact both.own k u held
      · rw [marks_place inside own added, both.marks, marks]

end SideBySide

namespace Change

@[simp] theorem id_flagKey (u : ColumnValue) : (flagKey u).id = u.id := by
  unfold flagKey
  split <;> rfl

@[simp] theorem isSupplementalKey_flagKey (u : ColumnValue) :
    (flagKey u).isSupplementalKey = u.isSupplementalKey := by
  unfold flagKey
  split <;> rfl

@[simp] theorem lob_flagKey (u : ColumnValue) : (flagKey u).lob = u.lob := by
  unfold flagKey
  split <;> rfl

end Change

/-- A row and a vector of one change of a table. Columns are told apart by their ids. -/
structure ChangeRecord.Shows (r : ChangeRecord) (t : Table) (v : ChangeVector) : Prop where
  header : r.header = v.header
  /-- There is a slot for each column of the table, which has a value of that column or none. -/
  length : r.columns.length = t.columns.length
  own : ∀ (index : Nat) (u : ColumnValue), r.columns[index]?.join = some u →
    (t.columns.map Column.id)[index]? = some u.id
  told : ∀ n, (∃ u, some u ∈ r.columns ∧ u.id = n) ↔
    ∃ w ∈ v.key ++ v.old ++ v.new ++ v.lob, w.id = n
  supplemental : ∀ n, (∃ u, some u ∈ r.columns ∧ u.id = n ∧ u.isSupplementalKey) ↔
    ∃ w ∈ v.key, w.id = n
  located : ∀ n, (∃ u, some u ∈ r.columns ∧ u.id = n ∧ u.lob.isSome) ↔
    ∃ w ∈ v.lob, w.id = n ∧ w.lob.isSome

/-- What a row and a vector tell of the column of an ordinal. -/
structure ChangeRecord.ShowsAt (r : ChangeRecord) (v : ChangeVector) (ordinal : Nat) : Prop where
  told : (r.column? ordinal).isSome ↔ ∃ w ∈ v.key ++ v.old ++ v.new ++ v.lob, w.id = ordinal
  supplemental : (∃ u, r.column? ordinal = some u ∧ u.isSupplementalKey) ↔
    ∃ w ∈ v.key, w.id = ordinal
  located : (∃ u, r.column? ordinal = some u ∧ u.lob.isSome) ↔
    ∃ w ∈ v.lob, w.id = ordinal ∧ w.lob.isSome

namespace ChangeRecord

variable {r : ChangeRecord} {t : Table} {v : ChangeVector}

theorem Shows.column?_eq_some_iff (both : r.Shows t v) (aligned : t.Aligned) {ordinal : Nat}
    {u : ColumnValue} : r.column? ordinal = some u ↔ some u ∈ r.columns ∧ u.id = ordinal := by
  have placed {index : Nat} (held : r.columns[index]?.join = some u) :
      u.id = columnOrdinal index := by
    have own := both.own index u held
    rw [List.getElem?_map] at own
    obtain ⟨column, there, same⟩ := Option.map_eq_some_iff.mp own
    rw [← same, aligned index column there, Nat.zero_add]
  constructor
  · intro found
    obtain ⟨index, place, held⟩ := Option.bind_eq_some_iff.mp found
    refine ⟨List.mem_of_getElem? (Option.join_eq_some_iff.mp held), ?_⟩
    cases ordinal with
    | zero => cases place
    | succ index =>
      cases place
      exact placed held
  · rintro ⟨member, rfl⟩
    obtain ⟨index, there⟩ := List.mem_iff_getElem?.mp member
    have held : r.columns[index]?.join = some u := by rw [there]; rfl
    rw [placed held]
    exact held

theorem Shows.showsAt (both : r.Shows t v) (aligned : t.Aligned) (ordinal : Nat) :
    r.ShowsAt v ordinal where
  told := by
    rw [← both.told, Option.isSome_iff_exists]
    exact exists_congr fun u => both.column?_eq_some_iff aligned
  supplemental := by
    rw [← both.supplemental]
    simp only [both.column?_eq_some_iff aligned, and_assoc]
  located := by
    rw [← both.located]
    simp only [both.column?_eq_some_iff aligned, and_assoc]

theorem exists_flagKey {slots : List (Option ColumnValue)} {p : ColumnValue → Prop}
    (blind : ∀ u, p (Change.flagKey u) ↔ p u) :
    (∃ u, some u ∈ slots.map (Option.map Change.flagKey) ∧ p u) ↔ ∃ u, some u ∈ slots ∧ p u := by
  constructor
  · rintro ⟨u, member, holds⟩
    obtain ⟨slot, there, flagged⟩ := List.mem_map.mp member
    obtain ⟨w, rfl, rfl⟩ := Option.map_eq_some_iff.mp flagged
    exact ⟨w, there, (blind w).mp holds⟩
  · rintro ⟨u, member, holds⟩
    exact ⟨_, List.mem_map_of_mem member, (blind u).mpr holds⟩

theorem Shows.flagKeys {u : Table} (both : r.Shows t v)
    (same : u.columns.map Column.id = t.columns.map Column.id) :
    ({ r with columns := r.columns.map (Option.map Change.flagKey) } : ChangeRecord).Shows u
      { v with key := v.key.map Change.flagKey } where
  header := both.header
  length := by
    have lengths := congrArg List.length same
    rw [List.length_map, List.length_map] at lengths
    rw [List.length_map, both.length, lengths]
  own index w held := by
    rw [List.getElem?_map] at held
    obtain ⟨slot, there, flagged⟩ := Option.map_eq_some_iff.mp (Option.join_eq_some_iff.mp held)
    obtain ⟨w, rfl, rfl⟩ := Option.map_eq_some_iff.mp flagged
    rw [same, Change.id_flagKey]
    exact both.own index w (by rw [there]; rfl)
  told n := by
    rw [exists_flagKey (by simp), both.told]
    simp [or_and_right, exists_or]
  supplemental n := by
    rw [exists_flagKey (by simp), both.supplemental]
    simp
  located n := by rw [exists_flagKey (by simp), both.located]

end ChangeRecord

theorem ofImages_alike (header : ChangeHeader) (table : Table) (images : List ColumnImage) :
    Alike (fun r v => r.Shows table v ∧ v.header = header ∧ ∀ w ∈ v.key, w.isSupplementalKey)
      (ChangeRecord.ofImages header table images) (ChangeVector.ofImages header table images) := by
  have both := Alike.foldlM (fun image slots v (both : SideBySide header table slots v) =>
    both.add image) images (.empty header table)
  unfold ChangeRecord.ofImages ChangeVector.ofImages
  generalize images.foldlM (placeImage table) _ = x at both ⊢
  generalize images.foldlM (ChangeVector.add table) _ = y at both ⊢
  cases both with
  | failed f => exact .failed f
  | @done slots v both =>
    refine .done ⟨?_, both.header, both.keyed⟩
    refine ⟨both.header.symm, ?_, fun index u held => ?_, fun n => ?_, fun n => ?_, fun n => ?_⟩
    · rw [List.length_map, both.length]
    · rw [List.getElem?_map] at held
      obtain ⟨slot, there, value⟩ := Option.map_eq_some_iff.mp (Option.join_eq_some_iff.mp held)
      obtain ⟨s, rfl, rfl⟩ := Option.map_eq_some_iff.mp value
      exact both.own index s (by rw [there]; rfl)
    · exact (congrFun (congrArg Marks.told both.marks) n).to_iff
    · exact (congrFun (congrArg Marks.supplemental both.marks) n).to_iff
    · exact (congrFun (congrArg Marks.located both.marks) n).to_iff

theorem markKeyColumns_congr {ordinals ordinals' : List Nat}
    (same : ∀ n, n ∈ ordinals ↔ n ∈ ordinals') (columns : List Column) :
    markKeyColumns columns ordinals = markKeyColumns columns ordinals' := by
  simp only [markKeyColumns, same]

theorem ChangeHeader.tableId_ofEntry {e : Entry} {id : RecordId} {tableId : Nat}
    {table : Option Table} {header : ChangeHeader} (ok : ofEntry e id tableId table = .ok header) :
    header.tableId = tableId := by
  obtain ⟨_, _, ok⟩ := bind_ok ok
  obtain ⟨_, _, ok⟩ := bind_ok ok
  obtain ⟨_, _, ok⟩ := bind_ok ok
  obtain ⟨_, _, ok⟩ := bind_ok ok
  obtain ⟨_, _, ok⟩ := bind_ok ok
  obtain ⟨_, _, ok⟩ := bind_ok ok
  cases ok
  rfl

/-- The same change in row view and in vector view. -/
inductive Change.Views (d : Dictionary) : Change → Change → Prop
  | views {r : ChangeRecord} {v : ChangeVector} (header : r.header = v.header)
    (known : ∀ t, d.get? r.header.tableId = some t →
      r.Shows t v ∧ (t.Aligned → ∀ ordinal, r.ShowsAt v ordinal)) :
    Views d (.row r) (.vector v)

namespace Catalog

theorem mem_supplementalKey {r : ChangeRecord} {v : ChangeVector} {t : Table} (both : r.Shows t v)
    (keyed : ∀ w ∈ v.key, w.isSupplementalKey) (n : Nat) :
    n ∈ (Change.row r).supplementalKey.map ColumnValue.id ↔
      n ∈ (Change.vector v).supplementalKey.map ColumnValue.id := by
  have row : n ∈ (Change.row r).supplementalKey.map ColumnValue.id ↔
      ∃ u, some u ∈ r.columns ∧ u.id = n ∧ u.isSupplementalKey := by
    simp [Change.supplementalKey, and_assoc, and_left_comm, and_comm]
  have vector : n ∈ (Change.vector v).supplementalKey.map ColumnValue.id ↔
      ∃ w ∈ v.key, w.id = n := by
    rw [Change.supplementalKey, List.filter_eq_self.mpr keyed, List.mem_map]
  rw [row, vector, both.supplemental]

theorem retrofitKey_alike {c : Catalog} {table : Table} {r : ChangeRecord} {v : ChangeVector}
    (both : r.Shows table v) (keyed : ∀ w ∈ v.key, w.isSupplementalKey)
    (known : c.dictionary.get? r.header.tableId = some table) :
    (c.retrofitKey table (.row r)).catalog = (c.retrofitKey table (.vector v)).catalog ∧
      Alike (Change.Views (c.retrofitKey table (.row r)).catalog.dictionary)
        (c.retrofitKey table (.row r)).result (c.retrofitKey table (.vector v)).result := by
  have same (n : Nat) : n ∈ ((Change.row r).supplementalKey.map ColumnValue.id).eraseDups ↔
      n ∈ ((Change.vector v).supplementalKey.map ColumnValue.id).eraseDups := by
    rw [List.mem_eraseDups, List.mem_eraseDups, mem_supplementalKey both keyed]
  unfold retrofitKey
  dsimp only
  generalize ((Change.row r).supplementalKey.map ColumnValue.id).eraseDups = ordinals at same ⊢
  generalize ((Change.vector v).supplementalKey.map ColumnValue.id).eraseDups = ordinals' at same ⊢
  have header : (Change.vector v).header = (Change.row r).header := both.header.symm
  have empty : ordinals' ≠ [] ↔ ordinals ≠ [] := by
    simp only [Ne, List.eq_nil_iff_forall_not_mem, same]
  by_cases retrofits : (Change.row r).header.action.keyedBySupplementalKey ∧ c.lacksKey table ∧
      ordinals ≠ []
  · rw [if_pos retrofits, if_pos (by rw [header, empty]; exact retrofits), header]
    refine ⟨?_, .done (.views both.header fun t found => ?_)⟩
    · simp only [Dictionary.markKeyColumns, SchemaCache.markKeyColumns, Table.markKeyColumns,
        markKeyColumns_congr same]
    · have marked : (c.dictionary.markKeyColumns r.header.tableId ordinals).get? r.header.tableId =
          some (table.markKeyColumns ordinals) := by
        rw [Dictionary.get?, Dictionary.markKeyColumns, Registry.get?_modify, if_pos rfl,
          ← Dictionary.get?, known]
        rfl
      obtain rfl := Option.some.inj (marked.symm.trans found)
      have flagged := both.flagKeys (u := table.markKeyColumns ordinals)
        (id_markKeyColumns table.columns ordinals)
      exact ⟨flagged, flagged.showsAt⟩
  · rw [if_neg retrofits, if_neg (by rw [header, empty]; exact retrofits)]
    refine ⟨rfl, .done (.views both.header fun t found => ?_)⟩
    obtain rfl := Option.some.inj (known.symm.trans found)
    exact ⟨both, both.showsAt⟩

theorem assembleKnown_alike {c : Catalog} {id : RecordId} {e : Entry} {table : Table}
    {tableId : Nat} {ordinals : List Nat} (known : c.dictionary.get? tableId = some table) :
    (c.assembleKnown .row id e table tableId ordinals).catalog =
        (c.assembleKnown .vector id e table tableId ordinals).catalog ∧
      Alike (Change.Views (c.assembleKnown .row id e table tableId ordinals).catalog.dictionary)
        (c.assembleKnown .row id e table tableId ordinals).result
        (c.assembleKnown .vector id e table tableId ordinals).result := by
  unfold assembleKnown
  dsimp only
  split
  next f _ => exact ⟨rfl, .failed f⟩
  next header images read =>
    obtain ⟨_, described, read⟩ := bind_ok read
    obtain ⟨_, _, read⟩ := bind_ok read
    cases read
    have both := ofImages_alike header table images
    unfold Change.ofImages
    dsimp only
    generalize ChangeRecord.ofImages header table images = x at both ⊢
    generalize ChangeVector.ofImages header table images = y at both ⊢
    cases both with
    | failed f => exact ⟨rfl, .failed f⟩
    | @done r v both =>
      obtain ⟨shows_, sameHeader, keyed⟩ := both
      refine retrofitKey_alike shows_ keyed ?_
      rw [shows_.header, sameHeader, ChangeHeader.tableId_ofEntry described, known]

theorem assembleUnknown_alike {d : Dictionary} {id : RecordId} {e : Entry} {tableId : Nat}
    {ordinals : List Nat} (unknown : d.get? tableId = none) :
    Alike (Change.Views d) (assembleUnknown .row id e tableId ordinals)
      (assembleUnknown .vector id e tableId ordinals) := by
  unfold assembleUnknown
  split
  · exact .failed _
  · rcases described : ChangeHeader.ofEntry e id tableId none with f | header
    · exact .failed f
    · refine .done (.views rfl fun t found => ?_)
      have nowhere : d.get? header.tableId = none :=
        ChangeHeader.tableId_ofEntry described ▸ unknown
      exact absurd (nowhere.symm.trans found) nofun

/-- Two views of an entry. -/
theorem assemble_alike (c : Catalog) (id : RecordId) (e : Entry) :
    (c.assemble .row id e).catalog = (c.assemble .vector id e).catalog ∧
      Alike (Change.Views (c.assemble .row id e).catalog.dictionary)
        (c.assemble .row id e).result (c.assemble .vector id e).result := by
  unfold assemble
  split
  next f _ => exact ⟨rfl, .failed f⟩
  next tableId ordinals dictionary _ =>
    dsimp only
    split
    next table known => exact assembleKnown_alike known
    next unknown => exact ⟨rfl, assembleUnknown_alike unknown⟩

end Catalog

/-- The options with another view. -/
def StreamOptions.viewing (o : StreamOptions) (view : ChangeView) : StreamOptions :=
  { o with config := { o.config with view } }

namespace Desk

theorem warn_frame (d : Desk) (warnings : List Warning) :
    (d.warn warnings).state = d.state ∧
      (d.warn warnings).journal.summaries = d.journal.summaries := by
  induction warnings generalizing d with
  | nil => exact ⟨rfl, rfl⟩
  | cons w warnings ih => exact ih (d.say (.warning w))

theorem assemble_run (o : StreamOptions) (e : Entry) (id : RecordId) (d : Desk) :
    assemble o e id d =
      ((d.state.cache.catalog.assemble o.config.view id e).result,
        (d.withCatalog (d.state.cache.catalog.assemble o.config.view id e).catalog).warn
          (d.state.cache.catalog.assemble o.config.view id e).warnings) := rfl

/-- The view changes nothing but the form of a change. Whatever is known and whatever is held, an
entry gives a change in both views or is refused for the same reason in both, and leaves the same
file, cache and summaries behind. The row and the vector have one header, and where their table is known
they tell of the same columns: there is a slot for each column that is in one of the lists, it is
supplemental if the column is in the key list, and located if one of its large objects is. -/
theorem assemble_views (o : StreamOptions) (e : Entry) (id : RecordId) (d : Desk) :
    let row := assemble (o.viewing .row) e id d
    let vector := assemble (o.viewing .vector) e id d
    row.2.state = vector.2.state ∧ row.2.journal.summaries = vector.2.journal.summaries ∧
      Alike (Change.Views row.2.state.cache.catalog.dictionary) row.1 vector.1 := by
  have alike := d.state.cache.catalog.assemble_alike id e
  rw [assemble_run, assemble_run]
  show _ ∧ _ ∧ Alike _ _ _
  dsimp only [StreamOptions.viewing]
  rw [(warn_frame _ _).1, (warn_frame _ _).1, (warn_frame _ _).2, (warn_frame _ _).2, ← alike.1]
  exact ⟨rfl, rfl, alike.2⟩

end Desk

end ChangeCapture
