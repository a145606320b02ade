import ChangeCapture.Proofs.Views

/-! Rows slot by slot. What a slot holds is told by the images of its column alone, in encoded
order: the last of those for the row after a change gives the value, and only where there is none
the last of those for the row before it. A row fails with the first image that cannot be taken
up. -/
namespace ChangeCapture

theorem outcome_eq_ok_iff {x : Except Failure α} : outcome x = .ok () ↔ ∃ a, x = .ok a := by
  cases x with
  | error f => simp [outcome, Except.map]
  | ok a => simp [outcome, Except.map]

theorem outcome_eq_error_iff {x : Except Failure α} {f : Failure} :
    outcome x = .error f ↔ x = .error f := by
  cases x with
  | error g => simp [outcome, Except.map]
  | ok a => simp [outcome, Except.map]

theorem outcome_foldlM {step : σ → ι → Except Failure σ} {check : ι → Except Failure Unit}
    (each : ∀ s i, outcome (step s i) = check i) (l : List ι) (s : σ) :
    outcome (l.foldlM step s) = forM l check := by
  induction l generalizing s with
  | nil => rfl
  | cons i l ih =>
    rw [List.foldlM_cons, List.forM_cons, ← each s i]
    cases step s i with
    | error f => rfl
    | ok t => exact ih t

theorem forM_eq_ok_iff {check : ι → Except Failure Unit} {l : List ι} :
    forM l check = .ok () ↔ ∀ i ∈ l, check i = .ok () := by
  induction l with
  | nil => simp [pure, Except.pure]
  | cons i l ih =>
    rw [List.forM_cons, List.forall_mem_cons, ← ih]
    cases check i with
    | error f => exact ⟨nofun, fun both => nomatch both.1⟩
    | ok => exact ⟨fun rest => ⟨rfl, rest⟩, fun both => both.2⟩

theorem forM_eq_error_iff {check : ι → Except Failure Unit} {l : List ι} {f : Failure} :
    forM l check = .error f ↔ ∃ before i after, l = before ++ i :: after ∧
      (∀ j ∈ before, check j = .ok ()) ∧ check i = .error f := by
  induction l with
  | nil => simp [pure, Except.pure]
  | cons i l ih =>
    rw [List.forM_cons]
    cases here : check i with
    | error g =>
      constructor
      · intro failed
        exact ⟨[], i, l, rfl, nofun, here.trans failed⟩
      · rintro ⟨before, j, after, split, passed, failed⟩
        obtain ⟨rfl, same⟩ | ⟨before, rfl, -⟩ := List.cons_eq_append_iff.mp split
        · cases same
          exact here.symm.trans failed
        · cases here.symm.trans (passed i List.mem_cons_self)
    | ok =>
      refine ih.trans ⟨?_, ?_⟩
      · rintro ⟨before, j, after, rfl, passed, failed⟩
        exact ⟨i :: before, j, after, rfl, List.forall_mem_cons.mpr ⟨here, passed⟩, failed⟩
      · rintro ⟨before, j, after, split, passed, failed⟩
        obtain ⟨rfl, same⟩ | ⟨before, rfl, rfl⟩ := List.cons_eq_append_iff.mp split
        · cases same
          cases here.symm.trans failed
        · exact ⟨before, j, after, rfl, (List.forall_mem_cons.mp passed).2, failed⟩

theorem foldlM_filter {step : σ → ι → Except Failure σ} {p : ι → Bool}
    (idle : ∀ s i, p i = false → step s i = .ok s) (l : List ι) (s : σ) :
    (l.filter p).foldlM step s = l.foldlM step s := by
  induction l generalizing s with
  | nil => rfl
  | cons i l ih =>
    rw [List.filter_cons, List.foldlM_cons]
    cases taken : p i with
    | false =>
      rw [idle s i taken]
      exact ih s
    | true =>
      rw [if_pos rfl, List.foldlM_cons]
      congr 1
      funext t
      exact ih t

namespace ColumnImage

/-- Images of the row after a change. -/
def after : List TagType := [.newImage, .lobData]

/-- Images of the row before a change. -/
def before : List TagType := [.keyImage, .oldImage]

/-- The last image that is of one of the types. -/
def last? (chosen : List TagType) (images : List ColumnImage) : Option ColumnImage :=
  images.reverse.find? (fun i => i.tag.type ∈ chosen)

/-- The image that gives the value of a slot. -/
def deciding? (images : List ColumnImage) : Option ColumnImage :=
  last? after images <|> last? before images

theorem last?_concat (chosen : List TagType) (images : List ColumnImage) (i : ColumnImage) :
    last? chosen (images ++ [i]) = if i.tag.type ∈ chosen then some i else last? chosen images := by
  rw [last?, List.reverse_append, List.reverse_singleton, List.singleton_append, List.find?_cons]
  by_cases member : i.tag.type ∈ chosen <;> simp [last?, member]

theorem last?_concat_of_mem {chosen : List TagType} {i : ColumnImage} (member : i.tag.type ∈ chosen)
    (images : List ColumnImage) : last? chosen (images ++ [i]) = some i := by
  rw [last?_concat, if_pos member]

theorem last?_concat_of_not_mem {chosen : List TagType} {i : ColumnImage}
    (other : i.tag.type ∉ chosen) (images : List ColumnImage) :
    last? chosen (images ++ [i]) = last? chosen images := by
  rw [last?_concat, if_neg other]

theorem type_of_last? {chosen : List TagType} {images : List ColumnImage} {i : ColumnImage}
    (found : last? chosen images = some i) : i.tag.type ∈ chosen := by
  simpa using List.find?_some found

/-- What an image says, or what holds without one. -/
def Says (read : Tag → Except Failure α) (default : α) (image : Option ColumnImage) (a : α) :
    Prop :=
  match image with
  | some i => read i.tag = .ok a
  | none => a = default

/-- Whether an image has a value or a location that can be read, or how that fails; an image without
a column is not looked at. -/
def check (table : Table) (i : ColumnImage) : Except Failure Unit :=
  match i.column? table with
  | some column => taken column i.tag
  | none => .ok ()

end ColumnImage

open ColumnImage

/-- A location as the location tags of its column give it. -/
structure LobLocation.GivenBy (images : List ColumnImage) (l : LobLocation) : Prop where
  offset : Says Tag.wide 0 (last? [.lobOffset] images) l.offset
  length : Says Tag.wide 0 (last? [.lobLength] images) l.length
  position : Says Tag.word 0 (last? [.lobPosition] images) l.position

/-- A value as the images of its column make it. -/
structure ColumnValue.MadeOf (column : Column) (images : List ColumnImage) (v : ColumnValue) :
    Prop where
  id : v.id = column.id
  name : v.name = column.name
  dataType : v.dataType = column.dataType
  isKey : v.isKey = column.isKey
  value : Says (field column) .null (deciding? images) v.value
  supplemental : v.isSupplementalKey ↔ ∃ i ∈ images, i.tag.type = .keyImage
  located : v.lob.isSome ↔ ∃ i ∈ images, i.tag.type.isLocation
  location : (v.lob.getD .start).GivenBy images

namespace RowSlot

/-- A slot whose rank is that of the image which gave its value. -/
structure MadeOf (column : Column) (images : List ColumnImage) (s : RowSlot) : Prop where
  value : s.value.MadeOf column images
  rank : s.rank = ((deciding? images).map fun i => rankOf i.tag.type).getD 0

theorem madeOf_ofColumn (column : Column) : (ofColumn column).MadeOf column [] where
  value := {
    id := rfl
    name := rfl
    dataType := rfl
    isKey := rfl
    value := rfl
    supplemental := by simp [ofColumn, ColumnValue.ofColumn]
    located := by simp [ofColumn, ColumnValue.ofColumn]
    location := ⟨rfl, rfl, rfl⟩ }
  rank := rfl

end RowSlot

theorem LobLocation.GivenBy.locate {images : List ColumnImage} {l l' : LobLocation}
    {i : ColumnImage} (given : l.GivenBy images) (ok : ColumnImage.locate l i.tag = .ok l') :
    l'.GivenBy (images ++ [i]) := by
  obtain ⟨offset, length, position⟩ := given
  unfold ColumnImage.locate at ok
  split at ok
  next type =>
    obtain ⟨n, read, rfl⟩ := map_ok ok
    constructor <;> simpa [last?_concat, type, Says]
  next type =>
    obtain ⟨n, read, rfl⟩ := map_ok ok
    constructor <;> simpa [last?_concat, type, Says]
  next type =>
    obtain ⟨n, read, rfl⟩ := map_ok ok
    constructor <;> simpa [last?_concat, type, Says]
  next noOffset noLength noPosition =>
    cases ok
    have other {type : TagType} (no : i.tag.type = type → False) : i.tag.type ∉ [type] := by simpa
    exact ⟨(last?_concat_of_not_mem (other noOffset) images).symm ▸ offset,
      (last?_concat_of_not_mem (other noLength) images).symm ▸ length,
      (last?_concat_of_not_mem (other noPosition) images).symm ▸ position⟩

namespace RowSlot

theorem value_take (s : RowSlot) (type : TagType) (f : Field) :
    (s.take type f).value = { s.value with
      value := if s.rank ≤ rankOf type then f else s.value.value
      isSupplementalKey := s.value.isSupplementalKey || type = .keyImage } := by
  unfold take
  split <;> split <;> simp_all

theorem rank_take (s : RowSlot) (type : TagType) (f : Field) :
    (s.take type f).rank = if s.rank ≤ rankOf type then rankOf type else s.rank := by
  unfold take
  split <;> split <;> simp_all

theorem rankOf_le (type : TagType) : rankOf type ≤ 2 := by
  cases type <;> decide

theorem rankOf_after {type : TagType} (late : type ∈ after) : rankOf type = 2 := by
  revert late
  cases type <;> decide

theorem rankOf_before {type : TagType} (early : type ∈ before) : rankOf type = 1 := by
  revert early
  cases type <;> decide

namespace MadeOf

variable {column : Column} {images : List ColumnImage} {s : RowSlot} {i : ColumnImage}

/-- Whether a new image comes to give the value, which its rank shows. -/
theorem deciding?_concat (made : s.MadeOf column images)
    (kind : i.tag.type ∈ after ∨ i.tag.type ∈ before) :
    (s.rank ≤ rankOf i.tag.type ∧ deciding? (images ++ [i]) = some i) ∨
      (rankOf i.tag.type < s.rank ∧ deciding? (images ++ [i]) = deciding? images) := by
  rcases kind with late | early
  · refine .inl ⟨?_, by rw [deciding?, last?_concat_of_mem late]; rfl⟩
    rw [rankOf_after late, made.rank]
    cases deciding? images with
    | none => decide
    | some j => exact rankOf_le j.tag.type
  · have notLate : i.tag.type ∉ after := fun late =>
      absurd ((rankOf_after late).symm.trans (rankOf_before early)) (by decide)
    rw [rankOf_before early, made.rank, deciding?, deciding?, last?_concat_of_mem early,
      last?_concat_of_not_mem notLate]
    cases late : last? after images with
    | some j => exact .inr ⟨(rankOf_after (type_of_last? late)).ge, rfl⟩
    | none =>
      refine .inl ⟨?_, rfl⟩
      cases early : last? before images with
      | none => exact Nat.zero_le 1
      | some j => exact (rankOf_before (type_of_last? early)).le

/-- An image of a value takes the slot unless one of higher rank has it. -/
theorem take (made : s.MadeOf column images) (kind : i.tag.type ∈ after ∨ i.tag.type ∈ before)
    {f : Field} (read : field column i.tag = .ok f) :
    (s.take i.tag.type f).MadeOf column (images ++ [i]) := by
  have old := made.value
  have noLocation : i.tag.type.isLocation = false := by
    revert kind
    cases i.tag.type <;> decide
  have noLocate (l : LobLocation) : locate l i.tag = .ok l := by
    unfold locate
    split <;> simp_all [TagType.isLocation]
  refine ⟨?value, ?rank⟩
  case rank =>
    rw [rank_take]
    rcases made.deciding?_concat kind with ⟨wins, now⟩ | ⟨loses, still⟩
    · rw [if_pos wins, now]
      rfl
    · rw [if_neg (Nat.not_le_of_lt loses), still]
      exact made.rank
  case value =>
    rw [value_take]
    refine ⟨old.id, old.name, old.dataType, old.isKey, ?value, ?supplemental, ?located,
      old.location.locate (noLocate _)⟩
    case value =>
      rcases made.deciding?_concat kind with ⟨wins, now⟩ | ⟨loses, still⟩
      · rw [if_pos wins, now]
        exact read
      · rw [if_neg (Nat.not_le_of_lt loses), still]
        exact old.value
    case supplemental =>
      rw [exists_mem_concat, ← old.supplemental, Bool.or_eq_true, decide_eq_true_eq]
    case located =>
      rw [exists_mem_concat, ← old.located, noLocation]
      simp

theorem locate (made : s.MadeOf column images) (location : i.tag.type.isLocation) {v : ColumnValue}
    (ok : applyLocation i.tag s.value = .ok v) :
    ({ s with value := v } : RowSlot).MadeOf column (images ++ [i]) := by
  have old := made.value
  obtain ⟨l, given, rfl⟩ := map_ok ok
  have noValue : i.tag.type ∉ after ∧ i.tag.type ∉ before := by
    revert location
    cases i.tag.type <;> decide
  have same : deciding? (images ++ [i]) = deciding? images := by
    rw [deciding?, last?_concat_of_not_mem noValue.1, last?_concat_of_not_mem noValue.2]
    rfl
  have noKey : i.tag.type ≠ .keyImage := by
    intro key
    rw [key] at location
    cases location
  refine ⟨⟨old.id, old.name, old.dataType, old.isKey, same ▸ old.value, ?supplemental, ?located,
    old.location.locate given⟩, same ▸ made.rank⟩
  case supplemental =>
    rw [exists_mem_concat, ← old.supplemental]
    simp [noKey]
  case located => simp [location]

theorem add {slot : Option RowSlot} (made : (slot.getD (ofColumn column)).MadeOf column images)
    (kind : i.tag.type ∈ types) (ok : RowSlot.add column slot i.tag = .ok s) :
    s.MadeOf column (images ++ [i]) := by
  unfold RowSlot.add at ok
  split at ok
  next location =>
    obtain ⟨v, located, rfl⟩ := map_ok ok
    exact made.locate location located
  next image =>
    obtain ⟨f, read, rfl⟩ := map_ok ok
    refine made.take ?_ read
    revert image kind
    cases i.tag.type <;> decide

end MadeOf

end RowSlot

/-- The images of the column at a place. -/
def ColumnImage.ofPlace (index : Nat) (images : List ColumnImage) : List ColumnImage :=
  images.filter (fun i => i.ordinal = columnOrdinal index)

theorem ofPlace_concat_own {index : Nat} {i : ColumnImage} (own : i.ordinal = columnOrdinal index)
    (images : List ColumnImage) : ofPlace index (images ++ [i]) = ofPlace index images ++ [i] := by
  simp [ofPlace, own]

theorem ofPlace_concat_other {index : Nat} {i : ColumnImage}
    (other : i.ordinal ≠ columnOrdinal index) (images : List ColumnImage) :
    ofPlace index (images ++ [i]) = ofPlace index images := by
  simp [ofPlace, other]

/-- The slots that images have made so far: one for each column, and nothing in it without an image
of that column. -/
structure Slots (table : Table) (images : List ColumnImage) (slots : List (Option RowSlot)) :
    Prop where
  length : slots.length = table.columns.length
  held : ∀ {index : Nat} {column : Column}, table.columns[index]? = some column →
    if ofPlace index images = [] then slots[index]? = some none
    else ∃ s, slots[index]? = some (some s) ∧ s.MadeOf column (ofPlace index images)

namespace Slots

variable {table : Table} {images : List ColumnImage} {slots slots' : List (Option RowSlot)}
  {image : ColumnImage}

theorem empty (table : Table) : Slots table [] (List.replicate table.columns.length none) where
  length := List.length_replicate
  held there := by
    rw [if_pos (by rfl), List.getElem?_replicate_of_lt (List.getElem?_eq_some_iff.mp there).1]

theorem getD (made : Slots table images slots) {index : Nat} {column : Column}
    (there : table.columns[index]? = some column) :
    (slots[index]?.join.getD (.ofColumn column)).MadeOf column (ofPlace index images) := by
  have held := made.held there
  split at held
  next none =>
    rw [held, none]
    exact RowSlot.madeOf_ofColumn column
  next =>
    obtain ⟨s, found, madeOf⟩ := held
    rw [found]
    exact madeOf

theorem place (made : Slots table images slots) (kind : image.tag.type ∈ types)
    (ok : placeImage table slots image = .ok slots') : Slots table (images ++ [image]) slots' := by
  cases found : table.column? image.ordinal with
  | none =>
    rw [placeImage_nowhere found] at ok
    cases ok
    refine ⟨made.length, fun {index column} there => ?_⟩
    have elsewhere : image.ordinal ≠ columnOrdinal index := by
      intro here
      rw [here] at found
      cases found.symm.trans there
    rw [ofPlace_concat_other elsewhere]
    exact made.held there
  | some own =>
    obtain ⟨place, at_, inside⟩ := Option.bind_eq_some_iff.mp found
    rw [placeImage_column at_ inside] at ok
    obtain ⟨s, added, rfl⟩ := map_ok ok
    have ordinal : image.ordinal = columnOrdinal place := by
      cases known : image.ordinal <;> rw [known] at at_ <;> cases at_
      rfl
    refine ⟨List.length_set.trans made.length, fun {index column} there => ?_⟩
    by_cases here : place = index
    · subst here
      cases inside.symm.trans there
      have bound : place < slots.length :=
        made.length ▸ (List.getElem?_eq_some_iff.mp there).1
      rw [ofPlace_concat_own ordinal, if_neg (by simp), List.getElem?_set_self bound]
      exact ⟨s, rfl, (made.getD there).add kind added⟩
    · have elsewhere : image.ordinal ≠ columnOrdinal index := fun same =>
        here (Nat.succ.inj (ordinal.symm.trans same))
      rw [ofPlace_concat_other elsewhere, List.getElem?_set_ne here]
      exact made.held there

/-- All images one after the other. -/
theorem run (kinds : ∀ i ∈ images, i.tag.type ∈ types)
    (ok : images.foldlM (placeImage table) (List.replicate table.columns.length none) = .ok slots) :
    Slots table images slots := by
  induction images using List.reverseRecOn generalizing slots with
  | nil =>
    cases ok
    exact empty table
  | append_singleton images image ih =>
    rw [List.foldlM_append] at ok
    obtain ⟨before, first, ok⟩ := bind_ok ok
    obtain ⟨_, last, ok⟩ := bind_ok ok
    cases ok
    obtain ⟨others, own⟩ := List.forall_mem_append.mp kinds
    exact (ih others first).place (own image (List.mem_singleton_self image)) last

end Slots

theorem outcome_placeImage (table : Table) (slots : List (Option RowSlot)) (image : ColumnImage) :
    outcome (placeImage table slots image) = image.check table := by
  rw [check, column?]
  cases found : table.column? image.ordinal with
  | none => rw [placeImage_nowhere found]; rfl
  | some column =>
    obtain ⟨index, place, there⟩ := Option.bind_eq_some_iff.mp found
    rw [placeImage_column place there, outcome_map, RowSlot.outcome_add]

namespace ChangeRecord

theorem ofImages_eq (header : ChangeHeader) (table : Table) (images : List ColumnImage) :
    ofImages header table images =
      (images.foldlM (placeImage table) (List.replicate table.columns.length none)).map
        fun slots => ⟨header, slots.map (Option.map RowSlot.value), false, true⟩ := rfl

theorem outcome_ofImages (header : ChangeHeader) (table : Table) (images : List ColumnImage) :
    outcome (ofImages header table images) = forM images (check table) := by
  rw [ofImages_eq, outcome_map]
  exact outcome_foldlM (outcome_placeImage table) images _

/-- A row is made of images in encoded order unless one of them cannot be taken up; then the first
of these is what is wrong. Images without a column of the table change nothing. There is a slot for
each column, empty if there is no image of it, and with the value of the last image of the row after
the change if there is one, else of the row before it. -/
theorem ofImages_slotwise (header : ChangeHeader) (table : Table) (images : List ColumnImage)
    (kinds : ∀ i ∈ images, i.tag.type ∈ types) :
    ((∃ r, ofImages header table images = .ok r) ↔ ∀ i ∈ images, i.check table = .ok ()) ∧
    (∀ f, ofImages header table images = .error f ↔ ∃ before i after,
      images = before ++ i :: after ∧ (∀ j ∈ before, j.check table = .ok ()) ∧
        i.check table = .error f) ∧
    ofImages header table images =
      ofImages header table (images.filter fun i => (i.column? table).isSome) ∧
    ∀ r, ofImages header table images = .ok r →
      r.header = header ∧ r.multiPart = false ∧ r.complete = true ∧
      r.columns.length = table.columns.length ∧
      ∀ index column, table.columns[index]? = some column →
        if ofPlace index images = [] then r.columns[index]? = some none
        else ∃ v, r.columns[index]? = some (some v) ∧ v.MadeOf column (ofPlace index images) := by
  refine ⟨?succeeds, fun f => ?fails, ?idle, fun r ok => ?slots⟩
  case succeeds =>
    rw [← forM_eq_ok_iff, ← outcome_ofImages header, outcome_eq_ok_iff]
  case fails =>
    rw [← forM_eq_error_iff, ← outcome_ofImages header, outcome_eq_error_iff]
  case idle =>
    rw [ofImages_eq, ofImages_eq, foldlM_filter]
    intro slots i nowhere
    have nowhere : i.column? table = none := by simpa using nowhere
    exact placeImage_nowhere nowhere slots
  case slots =>
    obtain ⟨slots, placed, rfl⟩ := map_ok ok
    have made := Slots.run kinds placed
    refine ⟨rfl, rfl, rfl, (List.length_map _).trans made.length, fun index column there => ?_⟩
    have held := made.held there
    rw [List.getElem?_map]
    split at held
    next none => rw [if_pos none, held]; rfl
    next some =>
      obtain ⟨s, found, madeOf⟩ := held
      rw [if_neg some, found]
      exact ⟨s.value, rfl, madeOf.value⟩

/-- A key image behind a new one, the length of a large object, and an image beyond the table. -/
theorem ofImages_slotwise_out_of_order :
    let note := Column.ofType 1 "NOTE" .raw
    let body := Column.ofType 2 "BODY" .blob
    let table : Table := .new 5 "APP" "DOCS" [note, body, .ofType 3 "REST" .raw]
    let header : ChangeHeader := ⟨.update, ⟨1, 2⟩, none, 7, none, 5, "APP", "DOCS", none⟩
    let images : List ColumnImage := [⟨1, ⟨0x0312, [1, 0x41], 1⟩⟩, ⟨2, ⟨0x0321, [4096, 0], 3⟩⟩,
      ⟨1, ⟨0x0310, [1, 0x42], 5⟩⟩, ⟨9, ⟨0x0312, [7], 7⟩⟩]
    (∀ i ∈ images, i.tag.type ∈ types) ∧
    ∃ u v, ofImages header table images = .ok ⟨header, [some u, some v, none], false, true⟩ ∧
      u.MadeOf note (ofPlace 0 images) ∧ v.MadeOf body (ofPlace 1 images) ∧
      u.value = .binary [0x41] ∧ u.isSupplementalKey ∧ v.lob = some ⟨0, 4096, 0⟩ := by
  intro note body table header images
  have kinds : ∀ i ∈ images, i.tag.type ∈ types := by decide
  obtain ⟨-, -, -, slots⟩ := ofImages_slotwise header table images kinds
  obtain ⟨-, -, -, -, held⟩ := slots
    ⟨header, [some ⟨1, "NOTE", .raw, .binary [0x41], none, true, false⟩,
      some ⟨2, "BODY", .blob, .null, some ⟨0, 4096, 0⟩, false, false⟩, none], false, true⟩ rfl
  have first := held 0 note rfl
  have second := held 1 body rfl
  rw [if_neg (by decide)] at first second
  obtain ⟨u, there, madeOf⟩ := first
  obtain ⟨v, there', madeOf'⟩ := second
  cases there
  cases there'
  exact ⟨kinds, _, _, rfl, madeOf, madeOf', rfl, rfl, rfl⟩

end ChangeRecord

end ChangeCapture
