import ChangeCapture.Change
import ChangeCapture.Proofs.Numerals

/-! What the key of a row tells. A key lists ordinals and displayed values, with a colon within each
pair and commas between pairs, and nothing is escaped: texts can hold what looks like the next pair.
Where none does, the key tells the pairs that it was made of. -/
namespace ChangeCapture

namespace Text

/-- The digits of a number end in front of a colon. -/
theorem natural_split {m n : Nat} {s t : List Char}
    (same : (toString m).toList ++ ':' :: s = (toString n).toList ++ ':' :: t) :
    m = n ∧ s = t := by
  have digits (n : Nat) (rest : List Char) :
      ((toString n).toList ++ ':' :: rest).takeWhile Char.isDigit = (toString n).toList := by
    rw [List.takeWhile_append_of_pos fun c => isDigit_of_mem]
    simp [List.takeWhile_cons_of_neg (show ¬ Char.isDigit ':' by decide)]
  obtain rfl : m = n := natural_inj (by rw [← digits m s, same, digits])
  exact ⟨rfl, (List.cons.inj (List.append_cancel_left same)).2⟩

end Text

/-- Whether no comma stands in a text. -/
def Unbroken (text : String) : Prop := ',' ∉ text.toList

instance (text : String) : Decidable (Unbroken text) := inferInstanceAs (Decidable (¬_))

namespace Unbroken

theorem append_iff {s t : String} : Unbroken (s ++ t) ↔ Unbroken s ∧ Unbroken t := by
  simp [Unbroken]

theorem append {s t : String} (left : Unbroken s) (right : Unbroken t) : Unbroken (s ++ t) :=
  append_iff.mpr ⟨left, right⟩

theorem pushn {s : String} (h : Unbroken s) (n : Nat) : Unbroken (s.pushn '0' n) := by
  unfold String.pushn
  induction n with
  | zero => exact h
  | succ n ih => simpa [Nat.repeat, Unbroken] using ih

theorem padded {s : String} (h : Unbroken s) (width : Nat) : Unbroken (Text.padded width s) :=
  append (pushn (by decide) _) h

theorem ofList {s : String} (h : Unbroken s) {cs : List Char} (sub : cs ⊆ s.toList) :
    Unbroken (String.ofList cs) := by
  simpa [Unbroken] using fun member => h (sub member)

theorem natural (n : Nat) : Unbroken (toString n) :=
  fun member => absurd (Text.isDigit_of_mem member) (by decide)

theorem integer (n : Int) : Unbroken (toString n) := by
  cases n with
  | ofNat n => exact natural n
  | negSucc n => exact append (by decide) (natural _)

theorem positional (coefficient : Nat) (scale : Int) :
    Unbroken (Decimal.positional coefficient scale) := by
  unfold Decimal.positional Decimal.placed
  split
  · exact (natural _).pushn _
  · have shown := (natural coefficient).padded (scale.toNat + 1)
    exact append (append (shown.ofList (List.take_subset _ _)) (by decide))
      (shown.ofList (List.drop_subset _ _))

theorem signed {s : String} (h : Unbroken s) (negative : Bool) :
    Unbroken (Decimal.signed negative s) := by
  cases negative
  · exact h
  · exact append (by decide) h

theorem binary (f : Decimal.BinaryFormat) (x : Decimal.Binary) : Unbroken (x.text f) := by
  cases x with
  | nan => exact (by decide : Unbroken "NaN")
  | infinite negative => exact signed (by decide) negative
  | finite negative m q =>
    unfold Decimal.Binary.text
    dsimp only
    split
    · exact signed (by decide) negative
    · exact signed (positional _ _) negative

theorem hexUpper (n : Nat) : Unbroken (Text.hexUpper n) := by
  have digit : ∀ k < 16, ',' ≠ (Nat.digitChar k).toUpper := by decide
  have upper (n : Nat) : (Text.hexUpper n).toList = (Nat.toDigits 16 n).map Char.toUpper := by
    simp [Text.hexUpper, Text.hexLower, String.toUpper]
  induction n using Nat.strongRecOn with
  | ind n ih =>
    rw [Unbroken, upper, Nat.toDigits_eq_if (by decide)]
    split
    next small => exact fun member => digit n small (List.mem_singleton.mp member)
    next large =>
      have front := ih (n / 16) (by omega)
      rw [Unbroken, upper] at front
      rw [List.map_append, List.mem_append, not_or]
      exact ⟨front, fun last => digit (n % 16) (by omega) (List.mem_singleton.mp last)⟩

theorem hexOfBytes (bytes : List UInt8) : Unbroken (Text.hexOfBytes bytes) := by
  simp only [Unbroken, Text.hexOfBytes, String.toList_join, List.flatMap_map, List.mem_flatMap,
    not_exists, not_and]
  exact fun b _ => (hexUpper b.toNat).padded 2

theorem yearText (year : Int) : Unbroken (Timestamp.yearText year) := by
  have digits := (natural year.natAbs).padded 4
  unfold Timestamp.yearText
  split
  · exact digits
  · split <;> exact append (by decide) digits

theorem fractionText (nanos : Nat) : Unbroken (Timestamp.fractionText nanos) := by
  have digits (width n : Nat) : Unbroken ("." ++ Text.padded width (toString n)) :=
    append (by decide) ((natural n).padded width)
  unfold Timestamp.fractionText
  split
  · decide
  · split
    · exact digits _ _
    · split <;> exact digits _ _

theorem timestamp (t : Timestamp) : Unbroken t.text := by
  have two (n : Nat) : Unbroken (Text.padded 2 (toString n)) := (natural n).padded 2
  simp only [Timestamp.text, append_iff]
  refine ⟨⟨⟨⟨⟨yearText _, ?_⟩, two _⟩, ?_⟩, two _⟩,
    ⟨⟨⟨⟨⟨⟨?_, two _⟩, ?_⟩, two _⟩, ?_⟩, two _⟩, fractionText _⟩, ?_⟩
  all_goals decide

end Unbroken

namespace Field

/-- Whether a value is displayed as it was given, whatever stands in it. -/
def isFree : Field → Bool
  | text _ | interval _ => true
  | _ => false

theorem unbroken_display {f : Field} (bound : f.isFree = false) : Unbroken f.display := by
  cases f with
  | int value => exact .integer value
  | long value => exact .integer value
  | decimal value => exact Unbroken.signed (.positional _ _) _
  | bigDecimal value => exact Unbroken.signed (.positional _ _) _
  | float bits => exact .binary _ _
  | double bits => exact .binary _ _
  | text => cases bound
  | binary bytes => exact .hexOfBytes bytes
  | timestamp value => exact .timestamp value
  | interval => cases bound
  | null => decide

end Field

/-- Ordinals and displayed values, as keys list them. -/
abbrev Cells := List (Nat × String)

namespace Cells

/-- A pair as it is written. -/
def cell (p : Nat × String) : String := s!"{p.1}:{p.2}"

def text (l : Cells) : String := ",".intercalate (l.map cell)

/-- The pairs as they are written, each behind a comma. -/
def written (l : Cells) : List Char := l.flatMap (fun p => ',' :: (cell p).toList)

/-- What a pair begins with when it is not the first one. -/
def opening (ordinal : Nat) : List Char := ',' :: (toString ordinal).toList ++ [':']

/-- No value of `l` holds what a later pair of `m` begins with. -/
def Clear (l m : Cells) : Prop := ∀ p ∈ l, ∀ q ∈ m, p.1 < q.1 → ¬ opening q.1 <:+: p.2.toList

theorem toList_cell (p : Nat × String) :
    (cell p).toList = (toString p.1).toList ++ ':' :: p.2.toList := by
  show (toString p.1 ++ ":" ++ p.2).toList = _
  simp

variable {l m : Cells}

theorem head_written {c : Char} {t : List Char} (there : written l = c :: t) : c = ',' := by
  cases l with
  | nil => cases there
  | cons => exact (List.cons.inj there).1.symm

theorem opening_cut {ordinal : Nat} {x t : List Char}
    (same : opening ordinal ++ t = x ++ written l) (nonempty : x ≠ []) :
    opening ordinal <+: x := by
  rcases List.append_eq_append_iff.mp same with ⟨a, rfl, -⟩ | ⟨a, cut, rest⟩
  · exact ⟨a, rfl⟩
  cases a with
  | nil => exact ⟨[], by rw [cut, List.append_nil, List.append_nil]⟩
  | cons c a =>
    obtain rfl := head_written rest
    obtain ⟨_, x, rfl⟩ := List.exists_cons_of_ne_nil nonempty
    have tail : (toString ordinal).toList ++ [':'] = x ++ ',' :: a := (List.cons.inj cut).2
    have within : ',' ∈ (toString ordinal).toList ++ [':'] := tail ▸ by simp
    rcases List.mem_append.mp within with digit | colon
    · exact absurd (Text.isDigit_of_mem digit) (by decide)
    · exact absurd colon (by decide)

theorem not_longer {value x : List Char} (same : written l = x ++ written m)
    (clear : ∀ p ∈ l, ¬ opening p.1 <:+: value ++ x) : x = [] := by
  by_contra nonempty
  cases l with
  | nil => exact nonempty (List.append_eq_nil_iff.mp same.symm).1
  | cons p l =>
    have begins : opening p.1 ++ (p.2.toList ++ written l) = x ++ written m := by
      simpa [written, opening, toList_cell] using same
    exact clear p List.mem_cons_self
      ((opening_cut begins nonempty).isInfix.trans (List.suffix_append ..).isInfix)

/-- A value ends where the next pair begins. -/
theorem value_split {u v : String} (left : ∀ p ∈ l, ¬ opening p.1 <:+: v.toList)
    (right : ∀ q ∈ m, ¬ opening q.1 <:+: u.toList)
    (same : u.toList ++ written l = v.toList ++ written m) : u = v ∧ written l = written m := by
  rcases List.append_eq_append_iff.mp same with ⟨x, longer, rest⟩ | ⟨x, longer, rest⟩
  · obtain rfl := not_longer rest (longer ▸ left)
    exact ⟨String.toList_inj.mp (by simpa using longer.symm), rest⟩
  · obtain rfl := not_longer rest (longer ▸ right)
    exact ⟨String.toList_inj.mp (by simpa using longer), rest.symm⟩

theorem Clear.tail {p q : Nat × String} (clear : Clear (p :: l) (q :: m)) : Clear l m :=
  fun p left q right => clear p (List.mem_cons_of_mem _ left) q (List.mem_cons_of_mem _ right)

theorem written_cons (p : Nat × String) (l : Cells) :
    written (p :: l) = ',' :: (text (p :: l)).toList := by
  induction l generalizing p with
  | nil => simp [written, text]
  | cons q l ih =>
    show ',' :: (cell p).toList ++ written (q :: l) = _
    rw [ih q]
    simp [text]

theorem text_ne_empty (p : Nat × String) (l : Cells) : text (p :: l) ≠ "" := by
  intro empty
  have whole : ',' :: ((cell p).toList ++ written l) = [','] := by
    rw [← List.cons_append]
    exact (written_cons p l).trans (by rw [empty]; rfl)
  have colon : ':' ∈ (cell p).toList := by simp [toList_cell]
  rw [(List.append_eq_nil_iff.mp (List.cons.inj whole).2).1] at colon
  cases colon

theorem written_of_text (same : text l = text m) : written l = written m := by
  cases l <;> cases m
  case nil.nil => rfl
  case nil.cons => exact absurd same.symm (text_ne_empty _ _)
  case cons.nil => exact absurd same (text_ne_empty _ _)
  case cons.cons => rw [written_cons, written_cons, same]

/-- Pairs with rising ordinals can be read off what is written of them. -/
theorem written_inj (rising : l.Pairwise (·.1 < ·.1)) (rising' : m.Pairwise (·.1 < ·.1))
    (clear : Clear l m) (clear' : Clear m l) (same : written l = written m) : l = m := by
  induction l generalizing m with
  | nil =>
    cases m with
    | nil => rfl
    | cons => cases same
  | cons p l ih =>
    cases m with
    | nil => cases same
    | cons q m =>
      obtain ⟨later, rising⟩ := List.pairwise_cons.mp rising
      obtain ⟨later', rising'⟩ := List.pairwise_cons.mp rising'
      have cut : (toString p.1).toList ++ ':' :: (p.2.toList ++ written l) =
          (toString q.1).toList ++ ':' :: (q.2.toList ++ written m) := by
        simpa [written, toList_cell] using same
      obtain ⟨ordinal, same⟩ := Text.natural_split cut
      obtain ⟨value, same⟩ := value_split
        (fun p' member => clear' q List.mem_cons_self p' (List.mem_cons_of_mem _ member)
          (ordinal ▸ later p' member))
        (fun q' member => clear p List.mem_cons_self q' (List.mem_cons_of_mem _ member)
          (ordinal ▸ later' q' member))
        same
      rw [Prod.ext ordinal value, ih rising rising' clear.tail clear'.tail same]

end Cells

namespace ChangeRecord

/-- Ordinals and displayed values of the columns that tell the row of a record apart. -/
def cells (r : ChangeRecord) : Cells := r.keyColumns.map (fun v => (v.id, v.value.display))

/-- Whether each value stands in the slot of its ordinal. -/
def Aligned (r : ChangeRecord) : Prop := ∀ i v, r.columns[i]? = some (some v) → v.id = i + 1

theorem text_cells (r : ChangeRecord) : Cells.text r.cells = r.uniqueKey := by
  rw [Cells.text, cells, List.map_map]
  rfl

theorem Aligned.rising {r : ChangeRecord} (aligned : r.Aligned) :
    r.cells.Pairwise (·.1 < ·.1) := by
  have slots : (r.columns.filterMap id).Pairwise (fun v w => v.id < w.id) := by
    rw [List.pairwise_filterMap, List.pairwise_iff_getElem]
    intro i j here there before v first w second
    have left := aligned i v (by rw [List.getElem?_eq_getElem here]; exact congrArg some first)
    have right := aligned j w (by rw [List.getElem?_eq_getElem there]; exact congrArg some second)
    omega
  exact List.pairwise_map.mpr (slots.filter _)

end ChangeRecord

/-- Whether the value of a column is a text that holds what the pair of a later one begins with. -/
def ColumnValue.Imitates (v w : ColumnValue) : Prop :=
  v.value.isFree ∧ v.id < w.id ∧ Cells.opening w.id <:+: v.value.display.toList

instance (v w : ColumnValue) : Decidable (v.Imitates w) := inferInstanceAs (Decidable (_ ∧ _))

namespace ChangeRecord

theorem clear_cells {r s : ChangeRecord}
    (clear : ∀ v ∈ r.keyColumns, ∀ w ∈ s.keyColumns, ¬ v.Imitates w) :
    Cells.Clear r.cells s.cells := by
  intro p left q right later within
  obtain ⟨v, member, rfl⟩ := List.mem_map.mp left
  obtain ⟨w, member', rfl⟩ := List.mem_map.mp right
  cases free : v.value.isFree with
  | true => exact clear v member w member' ⟨free, later, within⟩
  | false => exact Field.unbroken_display free (within.subset List.mem_cons_self)

/-- Keys of records with a slot for each column are equal just when the records give the same
ordinals and display the same values, as long as no text among these imitates the beginning of a
pair. -/
theorem uniqueKey_eq_iff {r s : ChangeRecord} (aligned : r.Aligned) (aligned' : s.Aligned)
    (clear : ∀ v ∈ r.keyColumns, ∀ w ∈ s.keyColumns, ¬ v.Imitates w ∧ ¬ w.Imitates v) :
    r.uniqueKey = s.uniqueKey ↔ r.cells = s.cells := by
  rw [← text_cells, ← text_cells]
  refine ⟨fun same => ?_, congrArg Cells.text⟩
  exact Cells.written_inj aligned.rising aligned'.rising
    (clear_cells fun v member w member' => (clear v member w member').1)
    (clear_cells fun w member' v member => (clear v member w member').2)
    (Cells.written_of_text same)

/-- A text that holds what the pair of an earlier column begins with misleads nobody. -/
theorem uniqueKey_eq_iff_earlier :
    let header : ChangeHeader := ⟨.insert, ⟨1, 2⟩, none, 7, none, 5, "APP", "DOCS", none⟩
    let title : ColumnValue := ⟨2, "TITLE", .varchar, .text "a,1:b", none, false, false⟩
    let r : ChangeRecord := ⟨header, [some ⟨1, "ID", .number, .int 7, none, false, true⟩,
      some title, some ⟨3, "BODY", .clob, .text "x", none, false, false⟩], false, true⟩
    let s : ChangeRecord := ⟨{ header with action := .lobWrite },
      [some ⟨1, "ID", .number, .long 7, none, false, true⟩, some title], false, true⟩
    r.Aligned ∧ s.Aligned ∧
      (∀ v ∈ r.keyColumns, ∀ w ∈ s.keyColumns, ¬ v.Imitates w ∧ ¬ w.Imitates v) ∧
      r.uniqueKey = "1:7,2:a,1:b" ∧ r.cells = s.cells := by
  intro header title r s
  have aligned : r.Aligned := by rintro (_ | _ | _ | i) v there <;> cases there <;> rfl
  have aligned' : s.Aligned := by rintro (_ | _ | i) v there <;> cases there <;> rfl
  have clear : ∀ v ∈ r.keyColumns, ∀ w ∈ s.keyColumns, ¬ v.Imitates w ∧ ¬ w.Imitates v := by
    decide +kernel
  have same : r.uniqueKey = s.uniqueKey := by decide +kernel
  exact ⟨aligned, aligned', clear, by decide +kernel,
    (uniqueKey_eq_iff aligned aligned' clear).mp same⟩

/-- A text that ends like the pair of the next column makes two rows one. -/
theorem same_key_of_two_rows :
    let header : ChangeHeader := ⟨.insert, ⟨1, 2⟩, none, 7, none, 5, "APP", "DOCS", none⟩
    let cell (id : Nat) (name text : String) : ColumnValue :=
      ⟨id, name, .varchar, .text text, none, false, false⟩
    let r : ChangeRecord := ⟨header, [some (cell 1 "A" "a"), some (cell 2 "B" "b")], false, true⟩
    let s : ChangeRecord := ⟨header, [some (cell 1 "A" "a,2:b"), none], false, true⟩
    r.Aligned ∧ s.Aligned ∧ r.header.action = s.header.action ∧ r.uniqueKey = s.uniqueKey ∧
      r.cells = [(1, "a"), (2, "b")] ∧ s.cells = [(1, "a,2:b")] := by
  intro header cell r s
  refine ⟨?_, ?_, rfl, by decide +kernel, by decide +kernel, by decide +kernel⟩
  all_goals
    rintro (_ | _ | i) v there <;> cases there <;> rfl

end ChangeRecord

end ChangeCapture
