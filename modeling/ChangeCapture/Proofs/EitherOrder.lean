import ChangeCapture.Proofs.Growth
import ChangeCapture.Proofs.Merging

/-! A row and the large-object writes that complete it, in either order. Where the row comes first a
column takes the first value that is written to it, where it comes last the newest one; as long as
no write follows another one that gave the same column a value, both are the same record. -/
namespace ChangeCapture

namespace Registry

variable {κ : Type u} {α : Type v} [DecidableEq κ]

theorem entries_insert_new {r : Registry κ α} {key : κ} (new : r.get? key = none) (a : α) :
    (r.insert key a).entries = r.entries ++ [(key, a)] := place_new new a

theorem insert_insert (r : Registry κ α) (key : κ) (a b : α) :
    (r.insert key a).insert key b = r.insert key b := by
  refine ext ?_
  show place key b (place key a r.entries) = place key b r.entries
  induction r.entries with
  | nil => simp [place]
  | cons e l ih =>
    obtain ⟨k, c⟩ := e
    by_cases hit : k = key
    · simp [place, hit]
    · rw [place, if_neg hit, place, if_neg hit, ih, place, if_neg hit]

theorem erase_insert_new {r : Registry κ α} {key : κ} (new : r.get? key = none) (a : α) :
    (r.insert key a).erase key = r := by
  refine ext ?_
  show (r.insert key a).entries.filter (fun e => e.1 ≠ key) = r.entries
  have kept : r.entries.filter (fun e => decide (e.1 ≠ key)) = r.entries := by
    refine List.filter_eq_self.mpr fun e member => decide_eq_true fun same => ?_
    have known := get?_of_mem member
    rw [same, new] at known
    cases known
  rw [entries_insert_new new, List.filter_append, kept]
  simp

end Registry

namespace Parts

theorem release_insert_row {p : Parts} {key : PartKey} {held : HeldRecord}
    (free : p.get? key = none) (row : held.record.header.action.isRowChange) :
    release (p.insert key held) =
      (p.release.1,
        p.release.2 ++ [{ held with record := { held.record with complete := true } }]) := by
  have entries := Registry.entries_insert_new free held
  refine Prod.ext (Registry.ext ?_) ?_
  · simp [release, Registry.filter, entries, row]
  · simp [release, Registry.filter, Registry.values, entries, row]

end Parts

/-- What adopting makes of a slot, if the two values are of one column. -/
def takeUp (overwrite : Bool) : Option ColumnValue → Option ColumnValue → Option ColumnValue
  | into, none => into
  | none, some v => some v
  | some u, some v => if u.value.isNull || overwrite then some (u.replacedBy v) else some u

theorem takeUp_of_adoptSlot {overwrite : Bool} {into other slot : Option ColumnValue}
    (ok : adoptSlot overwrite into other = .ok slot) : slot = takeUp overwrite into other := by
  cases into with
  | none =>
    cases other <;> cases ok <;> rfl
  | some u =>
    cases other with
    | none =>
      cases ok
      rfl
    | some v =>
      unfold adoptSlot at ok
      unfold takeUp
      dsimp only at ok ⊢
      split at ok
      next takes =>
        rw [if_pos takes]
        split at ok <;> cases ok
        rfl
      next keeps =>
        rw [if_neg keeps]
        cases ok
        rfl

theorem takeUp_none (overwrite : Bool) (into : Option ColumnValue) :
    takeUp overwrite into none = into := by
  cases into <;> rfl

theorem takeUp_eq_none_iff {overwrite : Bool} {into other : Option ColumnValue} :
    takeUp overwrite into other = none ↔ into = none ∧ other = none := by
  cases into with
  | none => cases other <;> simp [takeUp]
  | some u =>
    cases other with
    | none => simp [takeUp]
    | some v =>
      unfold takeUp
      dsimp only
      split <;> simp

/-- Whether a slot has a value other than null. -/
def hasValue (slot : Option ColumnValue) : Bool := slot.any (fun v => !v.value.isNull)

theorem takeUp_hasValue {into : Option ColumnValue} (has : hasValue into)
    (other : Option ColumnValue) : takeUp false into other = into := by
  cases into with
  | none => cases has
  | some u =>
    cases other with
    | none => rfl
    | some v =>
      have filled : u.value.isNull = false := by simpa [hasValue] using has
      simp [takeUp, filled]

theorem ColumnValue.replacedBy_assoc (u v w : ColumnValue) :
    (u.replacedBy v).replacedBy w = u.replacedBy (v.replacedBy w) := by
  simp only [replacedBy, Bool.or_assoc, ColumnValue.mk.injEq, and_true, true_and]
  cases w.lob <;> cases v.lob <;> rfl

/-- A value that comes to a slot after another one may as well come to that one first, unless the
slot keeps the other one. -/
theorem takeUp_takeUp {into first second : Option ColumnValue}
    (once : hasValue into ∨ (hasValue first → second = none)) :
    takeUp false (takeUp false into first) second =
      takeUp false into (takeUp true first second) := by
  rcases once with has | once
  · rw [takeUp_hasValue has, takeUp_hasValue has, takeUp_hasValue has]
  cases second with
  | none => rw [takeUp_none, takeUp_none]
  | some w =>
    cases first with
    | none => rw [takeUp_none]; rfl
    | some v =>
      have null : v.value.isNull = true := by simpa [hasValue] using once
      cases into with
      | none => simp [takeUp, null]
      | some u =>
        by_cases empty : u.value.isNull = true
        · have still : (u.replacedBy v).value.isNull = true := null
          simp [takeUp, empty, still, ColumnValue.replacedBy_assoc]
        · simp [takeUp, empty]

theorem trimEmpty_cons [DecidableEq α] (slot : Option α) (rest : List (Option α)) :
    trimEmpty (slot :: rest) =
      if slot = none ∧ trimEmpty rest = [] then [] else slot :: trimEmpty rest := by
  by_cases empty : slot = none ∧ trimEmpty rest = []
  · rw [if_pos empty, empty.1]
    simp [trimEmpty, empty.2]
  · rw [if_neg empty, trimEmpty]
    exact fun first others => empty ⟨first, others⟩

theorem empty_beyond_succ {slot : Option α} {rest : List (Option α)} {n : Nat} :
    (∀ k : Nat, n + 1 ≤ k → (slot :: rest)[k]?.join = none) ↔
      ∀ k : Nat, n ≤ k → rest[k]?.join = none := by
  constructor
  · exact fun empty k le => by simpa using empty (k + 1) (Nat.succ_le_succ le)
  · intro empty k le
    cases k with
    | zero => omega
    | succ k => simpa using empty k (Nat.le_of_succ_le_succ le)

theorem getElem?_trimEmpty (slots : List (Option ColumnValue)) (k : Nat) :
    (trimEmpty slots)[k]?.join = slots[k]?.join := by
  induction slots generalizing k with
  | nil => rfl
  | cons slot rest ih =>
    rw [trimEmpty_cons]
    split
    next empty =>
      obtain ⟨rfl, nothing⟩ := empty
      cases k with
      | zero => rfl
      | succ k => simpa [nothing] using ih k
    next =>
      cases k with
      | zero => rfl
      | succ k => simpa using ih k

theorem length_trimEmpty_le {slots : List (Option ColumnValue)} {n : Nat} :
    (trimEmpty slots).length ≤ n ↔ ∀ k : Nat, n ≤ k → slots[k]?.join = none := by
  induction slots generalizing n with
  | nil => simp [trimEmpty]
  | cons slot rest ih =>
    rw [trimEmpty_cons]
    cases n with
    | zero =>
      have nothing : trimEmpty rest = [] ↔ ∀ k : Nat, rest[k]?.join = none := by
        simpa using ih (n := 0)
      constructor
      · intro short k _
        split at short
        next empty =>
          cases k with
          | zero => simpa using empty.1
          | succ k => simpa using nothing.mp empty.2 k
        next => simp at short
      · intro empty
        have first : slot = none := by simpa using empty 0 (Nat.le_refl 0)
        have others := nothing.mpr fun k => by simpa using empty (k + 1) (Nat.zero_le _)
        simp [first, others]
    | succ n =>
      rw [empty_beyond_succ, ← ih]
      split
      next empty => simp [empty.2]
      next => simp

/-- Adopting goes slot by slot, and adds slots up to the last value that is adopted. -/
theorem adoptSlots_ok {overwrite : Bool} {into other slots : List (Option ColumnValue)}
    (ok : adoptSlots overwrite into other = (slots, none)) :
    (∀ k : Nat, slots[k]?.join = takeUp overwrite into[k]?.join other[k]?.join) ∧
      ∀ n, slots.length ≤ n ↔ into.length ≤ n ∧ ∀ k : Nat, n ≤ k → other[k]?.join = none := by
  induction into generalizing other slots with
  | nil =>
    cases other with
    | nil =>
      cases ok
      exact ⟨fun k => rfl, fun n => by simp⟩
    | cons v other =>
      cases ok
      refine ⟨fun k => ?_, fun n => ?_⟩
      · rw [getElem?_trimEmpty]
        cases (v :: other)[k]?.join <;> rfl
      · rw [length_trimEmpty_le]
        simp
  | cons u into ih =>
    cases other with
    | nil =>
      cases ok
      exact ⟨fun k => (takeUp_none _ _).symm, fun n => by simp⟩
    | cons v other =>
      rw [adoptSlots] at ok
      split at ok
      · cases ok
      next slot taken =>
        rcases adopted : adoptSlots overwrite into other with ⟨rest, conflict⟩
        rw [adopted] at ok
        cases ok
        obtain ⟨slots, length⟩ := ih adopted
        refine ⟨fun k => ?_, fun n => ?_⟩
        · cases k with
          | zero => exact takeUp_of_adoptSlot taken
          | succ k => exact slots k
        · cases n with
          | zero => simp
          | succ n =>
            rw [empty_beyond_succ]
            simpa using length n

namespace ChangeRecord

theorem not_lobWrite_of_row {r : ChangeRecord} (row : r.header.action.isRowChange) :
    r.isLobWrite = false := by
  cases action : r.header.action <;> rw [action] at row <;>
    first | exact absurd row (by decide) | simp [isLobWrite, action]

/-- What is left of two records of which one adopted the other. -/
structure Adopts (r other r' : ChangeRecord) : Prop where
  header : r'.header = r.header
  complete : r'.complete = r.complete
  column : ∀ ordinal,
    r'.column? ordinal = takeUp (r.isLobWrite && other.isLobWrite) (r.column? ordinal)
      (other.column? ordinal)
  length : ∀ n, r'.columns.length ≤ n ↔
    r.columns.length ≤ n ∧ ∀ ordinal, n < ordinal → other.column? ordinal = none

theorem column?_succ (r : ChangeRecord) (k : Nat) : r.column? (k + 1) = r.columns[k]?.join := rfl

theorem empty_beyond {r : ChangeRecord} {n : Nat} :
    (∀ ordinal, n < ordinal → r.column? ordinal = none) ↔
      ∀ k : Nat, n ≤ k → r.columns[k]?.join = none := by
  constructor
  · exact fun empty k le => empty (k + 1) (Nat.lt_succ_of_le le)
  · intro empty ordinal lt
    cases ordinal with
    | zero => omega
    | succ k => exact empty k (Nat.le_of_lt_succ lt)

theorem adopts_of_adopt {r other r' : ChangeRecord} (ok : r.adopt other = (r', none)) :
    r.Adopts other r' := by
  unfold adopt at ok
  rcases adopted : adoptSlots (r.isLobWrite && other.isLobWrite) r.columns other.columns with
    ⟨columns, conflict⟩
  rw [adopted] at ok
  cases ok
  obtain ⟨slots, length⟩ := adoptSlots_ok adopted
  refine ⟨rfl, rfl, fun ordinal => ?_, fun n => ?_⟩
  · cases ordinal with
    | zero => rfl
    | succ k => exact slots k
  · rw [empty_beyond]
    exact length n

theorem columns_ext {a b : ChangeRecord} (length : a.columns.length = b.columns.length)
    (same : ∀ ordinal, a.column? ordinal = b.column? ordinal) : a.columns = b.columns := by
  refine List.ext_getElem length fun k left right => ?_
  have slot := same (k + 1)
  rw [column?_succ, column?_succ, List.getElem?_eq_getElem left,
    List.getElem?_eq_getElem right] at slot
  simpa using slot

end ChangeRecord

theorem foldl_takeUp_hasValue {into : Option ColumnValue} (has : hasValue into)
    (slots : List (Option ColumnValue)) : slots.foldl (takeUp false) into = into := by
  induction slots with
  | nil => rfl
  | cons slot slots ih => rw [List.foldl_cons, takeUp_hasValue has, ih]

theorem hasValue_foldl_overwrite {into : Option ColumnValue} {slots : List (Option ColumnValue)}
    (has : hasValue (slots.foldl (takeUp true) into)) :
    hasValue into ∨ ∃ slot ∈ slots, hasValue slot := by
  induction slots generalizing into with
  | nil => exact .inl has
  | cons slot slots ih =>
    rcases ih has with has | ⟨later, member, has⟩
    · cases slot with
      | none => exact .inl (takeUp_none true into ▸ has)
      | some v =>
        refine .inr ⟨_, List.mem_cons_self, ?_⟩
        cases into with
        | none => exact has
        | some u => simpa [takeUp, hasValue, ColumnValue.replacedBy] using has
    · exact .inr ⟨later, List.mem_cons_of_mem _ member, has⟩

/-- Values that come one after the other may as well come all at once, unless one of them comes
after one that is kept. -/
theorem foldl_takeUp {into : Option ColumnValue} {slots : List (Option ColumnValue)}
    (once : hasValue into ∨ slots.Pairwise (fun slot later => hasValue slot → later = none)) :
    slots.foldl (takeUp false) into = takeUp false into (slots.foldl (takeUp true) none) := by
  rcases once with has | once
  · rw [foldl_takeUp_hasValue has, takeUp_hasValue has]
  induction slots using List.reverseRecOn with
  | nil => exact (takeUp_none false into).symm
  | append_singleton slots slot ih =>
    obtain ⟨once, -, apart⟩ := List.pairwise_append.mp once
    rw [List.foldl_append, List.foldl_append, List.foldl_cons, List.foldl_nil, ih once]
    refine takeUp_takeUp (.inr fun has => ?_)
    obtain nothing | ⟨earlier, member, has⟩ := hasValue_foldl_overwrite has
    · cases nothing
    · exact apart earlier member slot List.mem_cons_self has

theorem foldl_takeUp_eq_none_iff {overwrite : Bool} {into : Option ColumnValue}
    {slots : List (Option ColumnValue)} :
    slots.foldl (takeUp overwrite) into = none ↔ into = none ∧ ∀ slot ∈ slots, slot = none := by
  induction slots generalizing into with
  | nil => simp
  | cons slot slots ih => simp [ih, takeUp_eq_none_iff, and_assoc]

theorem value_takeUp {into : Option ColumnValue} (lacks : hasValue into = false)
    (other : Option ColumnValue) :
    (takeUp false into other).map ColumnValue.value =
      (other.map ColumnValue.value <|> into.map ColumnValue.value) := by
  cases other with
  | none => rw [takeUp_none]; rfl
  | some v =>
    cases into with
    | none => rfl
    | some u =>
      have null : u.value.isNull = true := by simpa [hasValue] using lacks
      simp [takeUp, null, ColumnValue.replacedBy]

/-- The newest value wins. -/
theorem value_foldl_overwrite (into : Option ColumnValue) (slots : List (Option ColumnValue)) :
    (slots.foldl (takeUp true) into).map ColumnValue.value =
      ((slots.filterMap (Option.map ColumnValue.value)).getLast? <|>
        into.map ColumnValue.value) := by
  induction slots generalizing into with
  | nil => rfl
  | cons slot slots ih =>
    rw [List.foldl_cons, ih]
    cases slot with
    | none => simp [takeUp_none]
    | some v =>
      have replaced : (takeUp true into (some v)).map ColumnValue.value = some v.value := by
        cases into <;> simp [takeUp, ColumnValue.replacedBy]
      rw [replaced]
      cases last : (slots.filterMap (Option.map ColumnValue.value)).getLast? <;>
        simp [List.getLast?_cons, last]

/-- The first value other than null wins. -/
theorem value_foldl_takeUp {into : Option ColumnValue} (lacks : hasValue into = false)
    (slots : List (Option ColumnValue)) :
    (slots.foldl (takeUp false) into).map ColumnValue.value =
      ((slots.filterMap (Option.map ColumnValue.value)).find? (fun value => !value.isNull) <|>
        (slots.filterMap (Option.map ColumnValue.value)).getLast? <|>
        into.map ColumnValue.value) := by
  induction slots generalizing into with
  | nil => rfl
  | cons slot slots ih =>
    cases slot with
    | none => simpa [takeUp_none] using ih lacks
    | some v =>
      have taken : (takeUp false into (some v)).map ColumnValue.value = some v.value :=
        value_takeUp lacks (some v)
      have same : hasValue (takeUp false into (some v)) = !v.value.isNull := by
        obtain ⟨w, found, value⟩ := Option.map_eq_some_iff.mp taken
        simp [hasValue, found, value]
      rw [List.foldl_cons]
      cases null : v.value.isNull with
      | false =>
        rw [foldl_takeUp_hasValue (by rw [same, null]; rfl), taken]
        simp [null]
      | true =>
        rw [ih (by rw [same, null]; rfl), taken]
        cases last : (slots.filterMap (Option.map ColumnValue.value)).getLast? <;>
          simp [List.getLast?_cons, last, null]

/-- Offers changes one after the other, up to the first that is refused. -/
def Cache.offerEach (c : Cache) :
    List (StreamOffset × ChangeRecord) → Except Failure (Cache × List (Offered ChangeRecord))
  | [] => .ok (c, [])
  | (offset, r) :: rest => do
    let offered ← (c.offer offset r).2
    let (last, more) ← (c.offer offset r).1.offerEach rest
    return (last, offered :: more)

namespace ChangeRecord

/-- What a record has become once it has adopted some large-object writes. -/
structure Gathers (r : ChangeRecord) (writes : List ChangeRecord) (g : ChangeRecord) : Prop where
  header : g.header = r.header
  complete : g.complete = r.complete
  multiPart : g.multiPart = (r.multiPart || !writes.isEmpty)
  column : ∀ ordinal, g.column? ordinal =
    (writes.map (fun w => w.column? ordinal)).foldl (takeUp r.isLobWrite) (r.column? ordinal)
  length : ∀ n, g.columns.length ≤ n ↔ r.columns.length ≤ n ∧
    ∀ w ∈ writes, ∀ ordinal, n < ordinal → w.column? ordinal = none

theorem Gathers.nil (r : ChangeRecord) : r.Gathers [] r where
  header := rfl
  complete := rfl
  multiPart := by simp
  column _ := rfl
  length := by simp

theorem Gathers.cons {r w m g : ChangeRecord} {writes : List ChangeRecord} (lob : w.isLobWrite)
    (first : r.Adopts w m) (rest : Gathers { m with multiPart := true } writes g) :
    r.Gathers (w :: writes) g where
  header := rest.header.trans first.header
  complete := rest.complete.trans first.complete
  multiPart := by simp [rest.multiPart]
  column ordinal := by
    have same : isLobWrite { m with multiPart := true } = r.isLobWrite := by
      simp [isLobWrite, first.header]
    have adopted : column? { m with multiPart := true } ordinal =
        takeUp r.isLobWrite (r.column? ordinal) (w.column? ordinal) := by
      rw [← Bool.and_true r.isLobWrite, ← lob]
      exact first.column ordinal
    rw [rest.column, same, adopted, List.map_cons, List.foldl_cons]
  length n := by
    have adopted : m.columns.length ≤ n ↔ _ := first.length n
    rw [rest.length]
    simp [adopted, and_assoc]

end ChangeRecord

namespace Cache

def holding (c : Cache) (key : PartKey) (held : HeldRecord) : Cache :=
  { c with parts := c.parts.insert key held }

theorem offer_lobWrite {c : Cache} {held : HeldRecord} {offset : StreamOffset} {w : ChangeRecord}
    {x : Offered ChangeRecord} (lob : w.isLobWrite)
    (ok : ((c.holding (.ofRecord w) held).offer offset w).2 = .ok x) :
    x = .fragment ∧ ∃ m, held.record.Adopts w m ∧
      ((c.holding (.ofRecord w) held).offer offset w).1 =
        c.holding (.ofRecord w) ⟨held.offset, { m with multiPart := true }⟩ := by
  rw [offer, Parts.offer, if_pos lob, Parts.offerLobWrite, holding,
    Registry.get?_insert_self] at ok ⊢
  dsimp only at ok ⊢
  rcases adopted : held.record.adopt w with ⟨m, _ | conflict⟩ <;> rw [adopted] at ok <;> cases ok
  refine ⟨rfl, m, ChangeRecord.adopts_of_adopt adopted, ?_⟩
  simp only [holding, Registry.insert_insert]

theorem offerEach_lobWrites {c last : Cache} {key : PartKey} {held : HeldRecord}
    {writes : List (StreamOffset × ChangeRecord)} {offered : List (Offered ChangeRecord)}
    (lobs : ∀ w ∈ writes, w.2.isLobWrite ∧ PartKey.ofRecord w.2 = key)
    (ok : (c.holding key held).offerEach writes = .ok (last, offered)) :
    ∃ g, held.record.Gathers (writes.map Prod.snd) g ∧
      last = c.holding key { held with record := g } ∧
      offered = List.replicate writes.length .fragment := by
  induction writes generalizing held offered with
  | nil =>
    cases ok
    exact ⟨held.record, .nil _, rfl, rfl⟩
  | cons w writes ih =>
    obtain ⟨offset, w⟩ := w
    obtain ⟨⟨lob, rfl⟩, others⟩ := List.forall_mem_cons.mp lobs
    obtain ⟨x, taken, ok⟩ := bind_ok ok
    obtain ⟨⟨_, more⟩, rest, ok⟩ := bind_ok ok
    cases ok
    obtain ⟨rfl, m, adopts, after⟩ := offer_lobWrite lob taken
    rw [after] at rest
    obtain ⟨g, gathers, rfl, rfl⟩ := ih others rest
    exact ⟨g, .cons lob adopts gathers, rfl, rfl⟩

theorem offerEach_append {c last : Cache} {changes more : List (StreamOffset × ChangeRecord)}
    {offered : List (Offered ChangeRecord)}
    (ok : c.offerEach (changes ++ more) = .ok (last, offered)) :
    ∃ middle first rest, c.offerEach changes = .ok (middle, first) ∧
      middle.offerEach more = .ok (last, rest) ∧ offered = first ++ rest := by
  induction changes generalizing c offered with
  | nil => exact ⟨c, [], offered, rfl, ok, rfl⟩
  | cons r changes ih =>
    obtain ⟨offset, r⟩ := r
    obtain ⟨x, taken, ok⟩ := bind_ok ok
    obtain ⟨⟨_, others⟩, later, ok⟩ := bind_ok ok
    cases ok
    obtain ⟨middle, first, rest, before, after, rfl⟩ := ih later
    refine ⟨middle, x :: first, rest, ?_, after, rfl⟩
    rw [offerEach, taken]
    show (((c.offer offset r).1.offerEach changes) >>= fun y => _) = _
    rw [before]
    rfl

theorem offer_firstLobWrite {c : Cache} {offset : StreamOffset} {w : ChangeRecord}
    (lob : w.isLobWrite) (free : c.parts.get? (.ofRecord w) = none) :
    c.offer offset w =
      (c.holding (.ofRecord w) ⟨offset, { w with multiPart := true, complete := false }⟩,
        .ok .fragment) := by
  rw [offer, Parts.offer, if_pos lob, Parts.offerLobWrite, free]
  rfl

/-- The large-object writes of a row that has not come yet are gathered in one record. -/
theorem offerEach_gathered {c last : Cache} {key : PartKey}
    {writes : List (StreamOffset × ChangeRecord)} {offered : List (Offered ChangeRecord)}
    (free : c.parts.get? key = none) (written : writes ≠ [])
    (lobs : ∀ w ∈ writes, w.2.isLobWrite ∧ PartKey.ofRecord w.2 = key)
    (ok : c.offerEach writes = .ok (last, offered)) :
    ∃ offset g, last = c.holding key ⟨offset, g⟩ ∧ g.isLobWrite ∧
      (∀ ordinal, g.column? ordinal =
        (writes.map (fun w => w.2.column? ordinal)).foldl (takeUp true) none) ∧
      offered = List.replicate writes.length .fragment := by
  cases writes with
  | nil => contradiction
  | cons w writes =>
    obtain ⟨offset, w⟩ := w
    obtain ⟨⟨lob, rfl⟩, others⟩ := List.forall_mem_cons.mp lobs
    obtain ⟨x, taken, ok⟩ := bind_ok ok
    obtain ⟨⟨_, more⟩, rest, ok⟩ := bind_ok ok
    cases ok
    rw [offer_firstLobWrite lob free] at taken rest
    cases taken
    obtain ⟨g, gathers, rfl, rfl⟩ := offerEach_lobWrites others rest
    have lobToo : g.isLobWrite := by
      rw [ChangeRecord.isLobWrite, gathers.header]
      exact lob
    refine ⟨offset, g, rfl, lobToo, fun ordinal => ?_, rfl⟩
    have first : takeUp true none (w.column? ordinal) = w.column? ordinal := by
      cases w.column? ordinal <;> rfl
    have overwrites :
        ChangeRecord.isLobWrite { w with multiPart := true, complete := false } = true := lob
    rw [gathers.column, overwrites, List.map_map, List.map_cons, List.foldl_cons, first]
    rfl

theorem offer_waitingRow {c : Cache} {t : Table} {offset : StreamOffset} {r : ChangeRecord}
    (row : r.header.action.isRowChange)
    (known : c.catalog.dictionary.get? r.header.tableId = some t) (lacks : r.lacksLob t)
    (free : c.parts.get? (.ofRecord r) = none) :
    c.offer offset r =
      (c.holding (.ofRecord r) ⟨offset, { r with complete := false }⟩, .ok .held) := by
  have apart : r.isLobWrite = false := ChangeRecord.not_lobWrite_of_row row
  rw [offer, Parts.offer, if_neg (by simp [apart]), if_pos row, Parts.offerRowChange, free, known]
  simp [lacks, holding]

/-- A row takes up what was gathered for it, and nothing of that is held any more. -/
theorem offer_completedRow {c : Cache} {offset offset' : StreamOffset} {r g : ChangeRecord}
    {x : Offered ChangeRecord} (row : r.header.action.isRowChange) (lob : g.isLobWrite)
    (free : c.parts.get? (.ofRecord r) = none)
    (ok : ((c.holding (.ofRecord r) ⟨offset, g⟩).offer offset' r).2 = .ok x) :
    ((c.holding (.ofRecord r) ⟨offset, g⟩).offer offset' r).1 = c ∧ ∃ m, r.Adopts g m ∧
      x = .emitted { m with multiPart := true, complete := true } := by
  have apart : r.isLobWrite = false := ChangeRecord.not_lobWrite_of_row row
  rw [offer, Parts.offer, if_neg (by simp [apart]), if_pos row, Parts.offerRowChange, holding,
    Registry.get?_insert_self, Option.filter_some, if_pos lob] at ok ⊢
  dsimp only at ok ⊢
  rcases adopted : r.adopt g with ⟨m, _ | conflict⟩ <;> rw [adopted] at ok <;> cases ok
  refine ⟨?_, m, ChangeRecord.adopts_of_adopt adopted, rfl⟩
  dsimp only
  rw [Registry.erase_insert_new free]

end Cache

namespace ChangeRecord

/-- No write of a column comes after one that gave it a value, unless the row itself has a value. -/
def WrittenOnce (r : ChangeRecord) (writes : List ChangeRecord) (ordinal : Nat) : Prop :=
  hasValue (r.column? ordinal) ∨ writes.Pairwise (fun w later =>
    hasValue (w.column? ordinal) → later.column? ordinal = none)

/-- The record of a row with other columns, which come from several entries. -/
def putTogether (r : ChangeRecord) (columns : List (Option ColumnValue)) : ChangeRecord :=
  { r with columns, multiPart := true, complete := true }

/-- What a row and its large-object writes come to: `a` if the row was there first, `b` if it came
last. -/
structure EitherOrder (r : ChangeRecord) (writes : List ChangeRecord) (a b : ChangeRecord) :
    Prop where
  first : a = r.putTogether a.columns
  last : b = r.putTogether b.columns
  length : a.columns.length = b.columns.length
  column : ∀ ordinal, r.WrittenOnce writes ordinal → a.column? ordinal = b.column? ordinal
  /-- A row that was there first takes up the first value that is written to a column, one that
  comes last the newest. -/
  value : ∀ ordinal, hasValue (r.column? ordinal) = false →
    let values := writes.filterMap (fun w => w.value? ordinal)
    a.value? ordinal =
      (values.find? (fun value => !value.isNull) <|> values.getLast? <|> r.value? ordinal) ∧
    b.value? ordinal = (values.getLast? <|> r.value? ordinal)

theorem EitherOrder.eq {r a b : ChangeRecord} {writes : List ChangeRecord}
    (either : r.EitherOrder writes a b) (once : ∀ ordinal, r.WrittenOnce writes ordinal) :
    a = b := by
  have columns : a.columns = b.columns :=
    columns_ext either.length fun ordinal => either.column ordinal (once ordinal)
  rw [either.first, either.last, columns]

/-- A row that gathers its large-object writes one by one, and one that adopts what was gathered of
them. -/
theorem eitherOrder_of_gathered {r g m last : ChangeRecord} {writes : List ChangeRecord}
    (row : r.isLobWrite = false) (gathers : Gathers { r with complete := false } writes g)
    (gathered : ∀ ordinal, m.column? ordinal =
      (writes.map (fun w => w.column? ordinal)).foldl (takeUp true) none)
    (adopts : r.Adopts m last) :
    r.EitherOrder writes (r.putTogether g.columns) (r.putTogether last.columns) := by
  have apart : isLobWrite { r with complete := false } = false := row
  have first (ordinal : Nat) : column? g ordinal =
      (writes.map (fun w => w.column? ordinal)).foldl (takeUp false) (r.column? ordinal) := by
    rw [gathers.column, apart]
    rfl
  have second (ordinal : Nat) : column? last ordinal =
      takeUp false (r.column? ordinal) (m.column? ordinal) := by
    rw [adopts.column, row, Bool.false_and]
  refine ⟨rfl, rfl, ?length, fun ordinal once => ?column, fun ordinal lacks => ?value⟩
  case length =>
    have same (n : Nat) : g.columns.length ≤ n ↔ last.columns.length ≤ n := by
      rw [gathers.length, adopts.length]
      simp only [gathered, foldl_takeUp_eq_none_iff, List.forall_mem_map, true_and]
      exact and_congr_right fun _ =>
        ⟨fun empty ordinal lt w member => empty w member ordinal lt,
          fun empty w member ordinal lt => empty ordinal lt w member⟩
    exact Nat.le_antisymm ((same _).mpr (Nat.le_refl _)) ((same _).mp (Nat.le_refl _))
  case column =>
    show column? g ordinal = column? last ordinal
    rw [first, second, gathered]
    exact foldl_takeUp (once.imp_right fun apart => List.pairwise_map.mpr apart)
  case value =>
    intro values
    have all : (writes.map (fun w => w.column? ordinal)).filterMap (Option.map ColumnValue.value) =
        values := by
      rw [List.filterMap_map]
      rfl
    constructor
    · show (column? g ordinal).map ColumnValue.value = _
      rw [first, value_foldl_takeUp lacks, all]
      rfl
    · have given := value_foldl_overwrite none (writes.map (fun w => w.column? ordinal))
      rw [all, ← gathered] at given
      show (column? last ordinal).map ColumnValue.value = _
      rw [second, value_takeUp lacks, given]
      cases values.getLast? <;> rfl

end ChangeRecord

/-- A row that misses a large object and the writes of its large objects are put together in either
order. The writes never go out on their own; nothing of them is held once the row has gone out,
which is when what waits is let go or when it comes itself. The two records agree in all columns but
those that a write gives a value and a later write sets again: these keep the first value where the
row came first, and the newest one where it came last. -/
theorem offerEach_either_order {c first last : Cache} {t : Table} {r : ChangeRecord}
    {writes : List (StreamOffset × ChangeRecord)} {offset offset' : StreamOffset}
    {offered offered' : List (Offered ChangeRecord)}
    (row : r.header.action.isRowChange)
    (known : c.catalog.dictionary.get? r.header.tableId = some t) (lacks : r.lacksLob t)
    (free : c.parts.get? (.ofRecord r) = none) (written : writes ≠ [])
    (lobs : ∀ w ∈ writes, w.2.isLobWrite ∧ PartKey.ofRecord w.2 = .ofRecord r)
    (rowFirst : c.offerEach ((offset, r) :: writes) = .ok (first, offered))
    (rowLast : c.offerEach (writes ++ [(offset', r)]) = .ok (last, offered')) :
    ∃ a b, offered = .held :: List.replicate writes.length .fragment ∧
      first.parts.release = (c.parts.release.1, c.parts.release.2 ++ [⟨offset, a⟩]) ∧
      offered' = List.replicate writes.length .fragment ++ [.emitted b] ∧ last = c ∧
      r.EitherOrder (writes.map Prod.snd) a b ∧
      ((∀ ordinal, r.WrittenOnce (writes.map Prod.snd) ordinal) → a = b) := by
  obtain ⟨x, held, rest⟩ := bind_ok rowFirst
  obtain ⟨⟨_, more⟩, joined, done⟩ := bind_ok rest
  cases done
  rw [Cache.offer_waitingRow row known lacks free] at held joined
  cases held
  obtain ⟨g, gathers, rfl, rfl⟩ := Cache.offerEach_lobWrites lobs joined
  obtain ⟨middle, before, after, gathered, completed, rfl⟩ := Cache.offerEach_append rowLast
  obtain ⟨since, m, rfl, lob, columns, rfl⟩ := Cache.offerEach_gathered free written lobs gathered
  obtain ⟨y, emitted, rest⟩ := bind_ok completed
  obtain ⟨⟨_, none⟩, nothing, done⟩ := bind_ok rest
  cases nothing
  cases done
  obtain ⟨same, last, adopts, rfl⟩ := Cache.offer_completedRow row lob free emitted
  have either : r.EitherOrder (writes.map Prod.snd) (r.putTogether g.columns)
      (r.putTogether last.columns) := by
    have apart := ChangeRecord.not_lobWrite_of_row row
    refine ChangeRecord.eitherOrder_of_gathered apart gathers (fun ordinal => ?_) adopts
    rw [columns, List.map_map]
    rfl
  have multiPart : g.multiPart := by simp [gathers.multiPart, written]
  have whole : { g with complete := true } = r.putTogether g.columns := by
    rw [ChangeRecord.putTogether, ← gathers.header, ← multiPart]
  have adopted : { last with multiPart := true, complete := true } =
      r.putTogether last.columns := by
    rw [ChangeRecord.putTogether, ← adopts.header]
  refine ⟨_, _, rfl, ?_, by rw [← adopted], same, either, either.eq⟩
  rw [Cache.holding, Parts.release_insert_row free (by rw [gathers.header]; exact row), whole]

/-- A row without its large object, and two writes of it: where it lies, and its text. -/
theorem offerEach_either_order_located :
    let clob : Column := .ofType 2 "BODY" .clob
    let table : Table := .new 7 "APP" "ORDERS" [.ofType 1 "ID" .number, clob]
    let c : Cache := { Cache.empty with
      catalog := { Catalog.empty with dictionary := ⟨Registry.insert ∅ 7 table⟩ } }
    let header (action : ChangeAction) : ChangeHeader :=
      ⟨action, ⟨3, 1⟩, some "1.2.3", 5, none, 7, "APP", "ORDERS", none⟩
    let id : ColumnValue := .ofColumn (.ofType 1 "ID" .number) (.int 4)
    let record (action : ChangeAction) (body : Option ColumnValue) : ChangeRecord :=
      ⟨header action, [some id, body], false, true⟩
    let located : ColumnValue := { ColumnValue.ofColumn clob .null with lob := some .start }
    let merged : ChangeRecord :=
      { record .insert (some { located with value := .text "b" }) with multiPart := true }
    let r := record .insert none
    let writes : List (StreamOffset × ChangeRecord) :=
      [(⟨1, 2⟩, record .lobWrite (some located)),
        (⟨1, 3⟩, record .lobWrite (some (.ofColumn clob (.text "b"))))]
    c.offerEach (writes ++ [(⟨1, 4⟩, r)]) = .ok (c, [.fragment, .fragment, .emitted merged]) ∧
      ∃ first, c.offerEach ((⟨1, 1⟩, r) :: writes) = .ok (first, [.held, .fragment, .fragment]) ∧
        first.parts.release.2 = [⟨⟨1, 1⟩, merged⟩] := by
  intro clob table c header id record located merged r writes
  have rowLast : c.offerEach (writes ++ [(⟨1, 4⟩, r)]) =
      .ok (c, [.fragment, .fragment, .emitted merged]) := by decide
  have rowFirst : c.offerEach ((⟨1, 1⟩, r) :: writes) =
      .ok (c.holding (.ofRecord r) ⟨⟨1, 1⟩, { merged with complete := false }⟩,
        [.held, .fragment, .fragment]) := by decide
  have once (ordinal : Nat) : r.WrittenOnce (writes.map Prod.snd) ordinal := by
    match ordinal with
    | 0 => exact .inr (by decide)
    | 1 => exact .inl (by decide)
    | 2 => exact .inr (by decide)
    | ordinal + 3 => exact .inr (by simp [writes, record, ChangeRecord.column?_succ])
  obtain ⟨a, b, -, released, emitted, -, -, same⟩ := offerEach_either_order
    (t := table) (by decide) (by decide) (by decide) (by decide) (by decide) (by decide)
    rowFirst rowLast
  cases emitted
  exact ⟨rowLast, _, rowFirst, by rw [released, same once]; rfl⟩

/-- Two texts written to one large object: the row keeps the first one if it was there before them,
and has the second one if it comes after them. -/
theorem rewritten_column :
    let clob : Column := .ofType 2 "BODY" .clob
    let table : Table := .new 7 "APP" "ORDERS" [.ofType 1 "ID" .number, clob]
    let c : Cache := { Cache.empty with
      catalog := { Catalog.empty with dictionary := ⟨Registry.insert ∅ 7 table⟩ } }
    let header (action : ChangeAction) : ChangeHeader :=
      ⟨action, ⟨3, 1⟩, some "1.2.3", 5, none, 7, "APP", "ORDERS", none⟩
    let id : ColumnValue := .ofColumn (.ofType 1 "ID" .number) (.int 4)
    let record (action : ChangeAction) (body : Option ColumnValue) : ChangeRecord :=
      ⟨header action, [some id, body], false, true⟩
    let merged (text : String) : ChangeRecord :=
      { record .insert (some (.ofColumn clob (.text text))) with multiPart := true }
    let r := record .insert none
    let writes : List (StreamOffset × ChangeRecord) :=
      [(⟨1, 2⟩, record .lobWrite (some (.ofColumn clob (.text "a")))),
        (⟨1, 3⟩, record .lobWrite (some (.ofColumn clob (.text "b"))))]
    (c.offerEach ((⟨1, 1⟩, r) :: writes)).map (fun out => out.1.parts.release.2) =
        .ok [⟨⟨1, 1⟩, merged "a"⟩] ∧
      (c.offerEach (writes ++ [(⟨1, 4⟩, r)])).map Prod.snd =
        .ok [.fragment, .fragment, .emitted (merged "b")] := by
  decide +kernel

end ChangeCapture
