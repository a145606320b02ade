import ChangeCapture.Proofs.EitherOrder
import ChangeCapture.Proofs.Isolation

/-! Merges that fail. Slots are taken up one by one as far as the first two that are values of
different columns. A large-object write leaves what it has given by then to the record that is held;
a row change leaves nothing of the large-object write that was held for it. -/
namespace ChangeCapture

namespace Registry

variable [DecidableEq κ] {r : Registry κ α} {key : κ} {a : α}

theorem erase_ne_self (known : r.get? key = some a) : r.erase key ≠ r := by
  intro same
  have gone := r.get?_erase key key
  rw [same, known] at gone
  simp at gone

end Registry

/-- Whether a slot would take a value that is of another column than its own. -/
structure Clash (overwrite : Bool) (into other : Option ColumnValue) (conflict : SlotConflict) :
    Prop where
  into : into = some conflict.into
  other : other = some conflict.other
  takes : conflict.into.value.isNull || overwrite
  different : conflict.into.sameColumn conflict.other = false

theorem adoptSlot_eq_error_iff {overwrite : Bool} {into other : Option ColumnValue}
    {conflict : SlotConflict} :
    adoptSlot overwrite into other = .error conflict ↔ Clash overwrite into other conflict := by
  constructor
  · intro refused
    cases into with
    | none => cases other <;> cases refused
    | some u =>
      cases other with
      | none => cases refused
      | some v =>
        unfold adoptSlot at refused
        dsimp only at refused
        split at refused
        next takes =>
          split at refused
          · cases refused
          next different =>
            cases refused
            exact ⟨rfl, rfl, takes, Bool.eq_false_iff.mpr different⟩
        next => cases refused
  · rintro ⟨rfl, rfl, takes, different⟩
    simp [adoptSlot, takes, different]

/-- Whether slots fit one another in front of a place and clash there. -/
structure FirstClash (overwrite : Bool) (into other : List (Option ColumnValue)) (place : Nat)
    (conflict : SlotConflict) : Prop where
  here : Clash overwrite into[place]?.join other[place]?.join conflict
  before : ∀ j < place, ∀ c, ¬ Clash overwrite into[j]?.join other[j]?.join c

/-- The slots once those in front of a place have taken up what the others have for them. -/
def takeUpBefore (overwrite : Bool) (place : Nat) (into other : List (Option ColumnValue)) :
    List (Option ColumnValue) :=
  into.mapIdx (fun j slot => if j < place then takeUp overwrite slot other[j]?.join else slot)

variable {overwrite : Bool} {into other slots : List (Option ColumnValue)} {place : Nat}
  {conflict : SlotConflict}

theorem firstClash_zero {u v : Option ColumnValue} :
    FirstClash overwrite (u :: into) (v :: other) 0 conflict ↔ Clash overwrite u v conflict :=
  ⟨fun first => first.here, fun clash => ⟨clash, nofun⟩⟩

theorem firstClash_succ {u v : Option ColumnValue} :
    FirstClash overwrite (u :: into) (v :: other) (place + 1) conflict ↔
      (∀ c, ¬ Clash overwrite u v c) ∧ FirstClash overwrite into other place conflict := by
  constructor
  · intro first
    exact ⟨first.before 0 (Nat.succ_pos _), first.here,
      fun j before => first.before (j + 1) (Nat.succ_lt_succ before)⟩
  · rintro ⟨fits, here, before⟩
    refine ⟨here, fun j earlier => ?_⟩
    cases j with
    | zero => exact fits
    | succ j => exact before j (Nat.lt_of_succ_lt_succ earlier)

theorem takeUpBefore_zero : takeUpBefore overwrite 0 into other = into := by
  refine List.ext_getElem? fun j => ?_
  simp [takeUpBefore]

theorem takeUpBefore_succ {u v : Option ColumnValue} :
    takeUpBefore overwrite (place + 1) (u :: into) (v :: other) =
      takeUp overwrite u v :: takeUpBefore overwrite place into other := by
  simp [takeUpBefore, List.mapIdx_cons]

/-- Adopting comes as far as the first clash. -/
theorem adoptSlots_conflict_iff :
    adoptSlots overwrite into other = (slots, some conflict) ↔
      ∃ place, FirstClash overwrite into other place conflict ∧
        slots = takeUpBefore overwrite place into other := by
  induction into generalizing other slots with
  | nil =>
    constructor
    · intro failed
      cases other <;> cases failed
    · rintro ⟨place, first, -⟩
      cases first.here.into
  | cons u into ih =>
    cases other with
    | nil =>
      constructor
      · rintro ⟨⟩
      · rintro ⟨place, first, -⟩
        cases first.here.other
    | cons v other =>
      rw [adoptSlots]
      cases taken : adoptSlot overwrite u v with
      | error found =>
        have clash := adoptSlot_eq_error_iff.mp taken
        constructor
        · rintro ⟨⟩
          exact ⟨0, firstClash_zero.mpr clash, takeUpBefore_zero.symm⟩
        · rintro ⟨place, first, rfl⟩
          cases place with
          | zero =>
            rw [takeUpBefore_zero]
            cases taken.symm.trans (adoptSlot_eq_error_iff.mpr (firstClash_zero.mp first))
            rfl
          | succ place => exact absurd clash ((firstClash_succ.mp first).1 _)
      | ok slot =>
        have fits (c : SlotConflict) : ¬ Clash overwrite u v c := by
          intro clash
          cases taken.symm.trans (adoptSlot_eq_error_iff.mpr clash)
        obtain rfl := takeUp_of_adoptSlot taken
        rcases rest : adoptSlots overwrite into other with ⟨others, failed⟩
        constructor
        · rintro ⟨⟩
          obtain ⟨place, first, rfl⟩ := ih.mp rest
          exact ⟨place + 1, firstClash_succ.mpr ⟨fits, first⟩, takeUpBefore_succ.symm⟩
        · rintro ⟨place, first, rfl⟩
          cases place with
          | zero => exact absurd (firstClash_zero.mp first) (fits _)
          | succ place =>
            cases rest.symm.trans (ih.mpr ⟨place, (firstClash_succ.mp first).2, rfl⟩)
            rw [takeUpBefore_succ]

/-- Nothing comes of taking up what every slot keeps itself from or has already. -/
theorem takeUpBefore_eq_self_iff (within : place ≤ into.length) :
    takeUpBefore overwrite place into other = into ↔
      ∀ j < place, takeUp overwrite into[j]?.join other[j]?.join = into[j]?.join := by
  have slotAt (j : Nat) : (takeUpBefore overwrite place into other)[j]? =
      into[j]?.map (fun slot => if j < place then takeUp overwrite slot other[j]?.join else slot) :=
    List.getElem?_mapIdx
  constructor
  · intro same j before
    have here := slotAt j
    rw [same, List.getElem?_eq_getElem (by omega), Option.map_some, if_pos before] at here
    rw [List.getElem?_eq_getElem (by omega)]
    exact (Option.some.inj here).symm
  · intro kept
    refine List.ext_getElem? fun j => ?_
    rw [slotAt]
    cases slot : into[j]? with
    | none => rfl
    | some u =>
      rw [Option.map_some]
      split
      next before =>
        have keeps := kept j before
        rw [slot] at keeps
        exact congrArg some keeps
      next => rfl

theorem FirstClash.within (first : FirstClash overwrite into other place conflict) :
    place < into.length := by
  by_contra beyond
  have here := first.here.into
  rw [List.getElem?_eq_none (by omega)] at here
  cases here

namespace ChangeRecord

/-- Whether one record adopts the slots of another one as far as a place and fails there. -/
def ClashesAt (r other : ChangeRecord) : Nat → SlotConflict → Prop :=
  FirstClash (r.isLobWrite && other.isLobWrite) r.columns other.columns

/-- The record after it has adopted the slots of another one in front of a place. -/
def adoptBefore (r other : ChangeRecord) (place : Nat) : ChangeRecord :=
  { r with columns := takeUpBefore (r.isLobWrite && other.isLobWrite) place r.columns other.columns }

theorem adopt_conflict_iff {r other r' : ChangeRecord} :
    r.adopt other = (r', some conflict) ↔
      ∃ place, r.ClashesAt other place conflict ∧ r' = r.adoptBefore other place := by
  rcases adopted : adoptSlots (r.isLobWrite && other.isLobWrite) r.columns other.columns
    with ⟨columns, failed⟩
  rw [adopt, adopted]
  constructor
  · rintro ⟨⟩
    obtain ⟨place, first, rfl⟩ := adoptSlots_conflict_iff.mp adopted
    exact ⟨place, first, rfl⟩
  · rintro ⟨place, first, rfl⟩
    cases adopted.symm.trans (adoptSlots_conflict_iff.mpr ⟨place, first, rfl⟩)
    rfl

/-- Whether a record has in front of a place what it would adopt there. -/
def KeepsBefore (r other : ChangeRecord) (place : Nat) : Prop :=
  ∀ j < place, takeUp (r.isLobWrite && other.isLobWrite) r.columns[j]?.join other.columns[j]?.join =
    r.columns[j]?.join

theorem adoptBefore_eq_self_iff {r other : ChangeRecord}
    (clash : r.ClashesAt other place conflict) :
    r.adoptBefore other place = r ↔ r.KeepsBefore other place := by
  rw [KeepsBefore, ← takeUpBefore_eq_self_iff clash.within.le]
  exact ⟨congrArg columns, fun same => by rw [adoptBefore, same]⟩

end ChangeRecord

namespace Cache

/-- The failures of merging a record, each with the cache that it leaves. -/
inductive Refuses (c : Cache) (r : ChangeRecord) : Cache → Failure → Prop where
  /-- The record that is held has adopted the slots of a large-object write up to the clash. -/
  | write {held : HeldRecord} {place : Nat} {conflict : SlotConflict} (lob : r.isLobWrite)
      (found : c.parts.get? (.ofRecord r) = some held)
      (clash : held.record.ClashesAt r place conflict) :
      c.Refuses r
        (c.holding (.ofRecord r) { held with record := held.record.adoptBefore r place })
        (conflict.failure r.uniqueKey true)
  /-- The large-object write that was held for a row change is gone. -/
  | row {held : HeldRecord} {place : Nat} {conflict : SlotConflict}
      (row : r.header.action.isRowChange) (found : c.parts.get? (.ofRecord r) = some held)
      (lob : held.record.isLobWrite) (clash : r.ClashesAt held.record place conflict) :
      c.Refuses r { c with parts := c.parts.erase (.ofRecord r) }
        (conflict.failure r.uniqueKey false)

variable {c c' : Cache} {offset : StreamOffset} {r : ChangeRecord} {f : Failure}

theorem refuses_write (lob : r.isLobWrite) (failed : c.offer offset r = (c', .error f)) :
    c.Refuses r c' f := by
  rw [offer, Parts.offer, if_pos lob, Parts.offerLobWrite] at failed
  cases found : c.parts.get? (.ofRecord r) with
  | none =>
    rw [found] at failed
    cases failed
  | some held =>
    rcases adopted : held.record.adopt r with ⟨m, _ | conflict⟩ <;>
      simp only [found, adopted] at failed <;> cases failed
    obtain ⟨place, clash, rfl⟩ := ChangeRecord.adopt_conflict_iff.mp adopted
    exact .write lob found clash

theorem refuses_row (row : r.header.action.isRowChange)
    (failed : c.offer offset r = (c', .error f)) : c.Refuses r c' f := by
  have apart : r.isLobWrite = false := ChangeRecord.not_lobWrite_of_row row
  rw [offer, Parts.offer, if_neg (by simp [apart]), if_pos row, Parts.offerRowChange] at failed
  cases found : (c.parts.get? (.ofRecord r)).filter (fun held => held.record.isLobWrite) with
  | none =>
    simp only [found] at failed
    split at failed <;> cases failed
  | some held =>
    rcases adopted : r.adopt held.record with ⟨m, _ | conflict⟩ <;>
      simp only [found, adopted] at failed <;> cases failed
    obtain ⟨place, clash, rfl⟩ := ChangeRecord.adopt_conflict_iff.mp adopted
    obtain ⟨found, lob⟩ := Option.filter_eq_some_iff.mp found
    exact .row row found lob clash

theorem Refuses.offer (refuses : c.Refuses r c' f) : c.offer offset r = (c', .error f) := by
  cases refuses with
  | write lob found clash =>
    have adopted := ChangeRecord.adopt_conflict_iff.mpr ⟨_, clash, rfl⟩
    rw [Cache.offer, Parts.offer, if_pos lob, Parts.offerLobWrite]
    simp only [found, adopted]
    rfl
  | row row found lob clash =>
    have apart : r.isLobWrite = false := ChangeRecord.not_lobWrite_of_row row
    have adopted := ChangeRecord.adopt_conflict_iff.mpr ⟨_, clash, rfl⟩
    rw [Cache.offer, Parts.offer, if_neg (by simp [apart]), if_pos row, Parts.offerRowChange, found,
      Option.filter_some, if_pos lob]
    simp only [adopted]
    rfl

theorem offer_eq_error_iff : c.offer offset r = (c', .error f) ↔ c.Refuses r c' f := by
  refine ⟨fun failed => ?_, Refuses.offer⟩
  by_cases lob : r.isLobWrite
  · exact refuses_write lob failed
  · by_cases row : r.header.action.isRowChange
    · exact refuses_row row failed
    · rw [Cache.offer, Parts.offer, if_neg lob, if_neg row] at failed
      cases failed

/-- Whether a large-object write clashes with the record that is held for its row before that has
adopted anything new. -/
def ClashesAtOnce (c : Cache) (r : ChangeRecord) : Prop :=
  r.isLobWrite ∧ ∃ held place conflict, c.parts.get? (.ofRecord r) = some held ∧
    held.record.ClashesAt r place conflict ∧ held.record.KeepsBefore r place

theorem Refuses.parts_eq_iff (refuses : c.Refuses r c' f) :
    c'.parts = c.parts ↔ c.ClashesAtOnce r := by
  constructor
  · intro same
    cases refuses with
    | write lob found clash =>
      have kept := congrArg HeldRecord.record ((Registry.insert_eq_self_iff found).mp same)
      exact ⟨lob, _, _, _, found, clash, (ChangeRecord.adoptBefore_eq_self_iff clash).mp kept⟩
    | row row found lob clash => exact absurd same (Registry.erase_ne_self found)
  · rintro ⟨lob, held, place, conflict, found, clash, keeps⟩
    have answers : c.offer .zero r = _ := (Refuses.write lob found clash).offer
    cases answers.symm.trans refuses.offer
    refine (Registry.insert_eq_self_iff found).mpr ?_
    rw [(ChangeRecord.adoptBefore_eq_self_iff clash).mpr keeps]

/-- A merge that fails changes nothing but what is held of the same row. That stays as it was if a
large-object write clashes before anything new of it has been adopted; otherwise the held record
keeps what it has adopted, or is gone together with the row change that it was held for. -/
theorem offer_failed (failed : c.offer offset r = (c', .error f)) :
    c.Refuses r c' f ∧ (c'.parts = c.parts ↔ c.ClashesAtOnce r) ∧
      (∀ key, key ≠ PartKey.ofRecord r → c'.parts.get? key = c.parts.get? key) ∧
      c' = { c with parts := c'.parts } := by
  have refuses := offer_eq_error_iff.mp failed
  obtain ⟨after, -⟩ := Prod.mk.inj failed
  refine ⟨refuses, refuses.parts_eq_iff, fun key other => ?_, ?_⟩
  · rw [← after]
    exact c.parts.get?_offer_other _ offset other.symm
  · rw [← after]

/-- A text written to the large object of a row, and then bytes as of another type. -/
theorem offer_failed_first_value :
    let header : ChangeHeader :=
      ⟨.lobWrite, ⟨3, 1⟩, some "1.2.3", 5, none, 7, "APP", "ORDERS", none⟩
    let id : ColumnValue := .ofColumn (.ofType 1 "ID" .number) (.int 4)
    let text : ColumnValue := .ofColumn (.ofType 2 "BODY" .clob) (.text "x")
    let bytes : ColumnValue := .ofColumn (.ofType 2 "BODY" .blob) (.binary [7])
    let held : HeldRecord := ⟨⟨1, 2⟩, ⟨header, [some id, some text], true, false⟩⟩
    let w : ChangeRecord := ⟨header, [some id, some bytes], false, true⟩
    let c := Cache.empty.holding (.ofRecord w) held
    let f : Failure := .mergeMismatch "1:4" 2 "BODY CLOB" "BODY BLOB"
    c.offer ⟨1, 3⟩ w = (c, .error f) ∧ c.Refuses w c f ∧ c.ClashesAtOnce w := by
  intro header id text bytes held w c f
  have failed : c.offer ⟨1, 3⟩ w = (c, .error f) := by decide +kernel
  obtain ⟨refuses, untouched, -⟩ := offer_failed failed
  exact ⟨failed, refuses, untouched.mp rfl⟩

/-- What a failed merge costs. The first of two values of a large-object write is in the held record
already as the second one clashes; and where a row change clashes, no later one finds the write
that was held for it. -/
theorem half_a_write_and_none :
    let header (action : ChangeAction) : ChangeHeader :=
      ⟨action, ⟨3, 1⟩, some "1.2.3", 5, none, 7, "APP", "ORDERS", none⟩
    let id : ColumnValue := .ofColumn (.ofType 1 "ID" .number) (.int 4)
    let body (text : String) : ColumnValue := .ofColumn (.ofType 2 "BODY" .clob) (.text text)
    let clob : ColumnValue := .ofColumn (.ofType 3 "NOTE" .clob) (.text "n")
    let blob : ColumnValue := .ofColumn (.ofType 3 "NOTE" .blob) .null
    let gathered (text : String) : ChangeRecord :=
      ⟨header .lobWrite, [some id, some (body text), some clob], true, false⟩
    let w : ChangeRecord := ⟨header .lobWrite, [some id, some (body "y"), some blob], false, true⟩
    let r : ChangeRecord := ⟨header .insert, [some id, none, some blob], false, true⟩
    let c (text : String) := Cache.empty.holding (.ofRecord w) ⟨⟨1, 2⟩, gathered text⟩
    let f : Failure := .mergeMismatch "1:4" 3 "NOTE CLOB" "NOTE BLOB"
    (c "x").offer ⟨1, 3⟩ w = (c "y", .error f) ∧ (c "y").parts ≠ (c "x").parts ∧
      (c "x").offer ⟨1, 3⟩ r = (.empty, .error f) ∧ Cache.empty.parts ≠ (c "x").parts := by
  decide +kernel

end Cache

end ChangeCapture
