import ChangeCapture.Image.Temporal

/-! Images of points of time. A point of time of a year that two bytes can tell is decoded from its
image, and an image is decoded exactly if its bytes tell a point of time. -/
namespace ChangeCapture

namespace Calendar

def IsLeap (year : Int) : Prop := 4 ∣ year ∧ (¬ 100 ∣ year ∨ 400 ∣ year)

instance (year : Int) : Decidable (IsLeap year) := inferInstanceAs (Decidable (_ ∧ _))

/-- The months of the calendar and their days. -/
def IsDate (year : Int) (month day : Nat) : Prop :=
  1 ≤ month ∧ month ≤ 12 ∧ 1 ≤ day ∧
    day ≤ if month = 2 then if IsLeap year then 29 else 28
      else if month ∈ [4, 6, 9, 11] then 30 else 31

theorem IsDate.bounds {year : Int} {month day : Nat} (real : IsDate year month day) :
    month ≤ 12 ∧ day ≤ 31 := by
  obtain ⟨-, month_, -, day_⟩ := real
  refine ⟨month_, Nat.le_trans day_ ?_⟩
  split
  · split <;> omega
  · split <;> omega

theorem isLeap_iff (year : Int) : isLeap year = true ↔ IsLeap year := by
  simp only [isLeap, IsLeap, decide_eq_true_eq]
  omega

theorem Date.valid_iff (year : Int) (month day : Nat) :
    (Date.mk year month day).Valid ↔ IsDate year month day := by
  simp only [Date.Valid, IsDate, daysInMonth, ← isLeap_iff]
  split
  case h_13 =>
    simp only [imp_false] at *
    exact iff_of_false (by omega) fun ⟨first, last, _⟩ => by omega
  all_goals simp

end Calendar

theorem Timestamp.of?_eq_some_iff {fields : TimeFields} {t : Timestamp} :
    of? fields = some t ↔ t.toTimeFields = fields := by
  unfold of?
  split
  next valid =>
    rw [Option.some.injEq]
    constructor
    · rintro rfl
      rfl
    · rintro rfl
      rfl
  next invalid =>
    refine iff_of_false nofun ?_
    rintro rfl
    exact invalid t.valid

namespace Image

/-- Two bytes of excess 100. -/
def year (century yearOfCentury : UInt8) : Int :=
  (century.toNat - 100) * 100 + (yearOfCentury.toNat - 100)

theorem lessOne?_eq_some_iff {b : UInt8} {n : Nat} : lessOne? b = some n ↔ b.toNat = n + 1 := by
  unfold lessOne?
  by_cases zero : b = 0
  · simp [zero]
  · have : b.toNat ≠ 0 := fun none_ => zero (UInt8.toNat_inj.mp none_)
    rw [if_neg zero, Option.some.injEq]
    omega

/-- What seven bytes and a number of nanoseconds say. -/
structure Tells (c y month day hour minute second : UInt8) (nanos : Nat) (t : Timestamp) : Prop where
  date : t.date = ⟨year c y, month.toNat, day.toNat⟩
  hour : hour.toNat = t.hour + 1
  minute : minute.toNat = t.minute + 1
  second : second.toNat = t.second + 1
  nanos : nanos = t.nanos

variable {c y month day hour minute second : UInt8} {nanos : Nat} {v : Field}

theorem dateTime_ok_iff : dateTime [c, y, month, day, hour, minute, second] nanos = .ok v ↔
    ∃ t, Tells c y month day hour minute second nanos t ∧ v = .timestamp t := by
  have told (t : Timestamp) : (do
      let hour ← lessOne? hour
      let minute ← lessOne? minute
      let second ← lessOne? second
      Timestamp.of? ⟨⟨year c y, month.toNat, day.toNat⟩, hour, minute, second, nanos⟩) = some t ↔
      Tells c y month day hour minute second nanos t := by
    simp only [Option.bind_eq_bind, Option.bind_eq_some_iff, lessOne?_eq_some_iff,
      Timestamp.of?_eq_some_iff]
    constructor
    · rintro ⟨_, h, _, m, _, s, same⟩
      obtain ⟨⟨date, _, _, _, _⟩, valid⟩ := t
      cases same
      exact ⟨rfl, h, m, s, rfl⟩
    · rintro ⟨date, h, m, s, rfl⟩
      exact ⟨_, h, _, m, _, s, by rw [← date]⟩
  constructor
  · intro ok
    unfold dateTime at ok
    dsimp only at ok
    split at ok <;> cases ok
    next t found => exact ⟨t, (told t).mp found, rfl⟩
  · rintro ⟨t, tells, rfl⟩
    have found := (told t).mpr tells
    unfold dateTime
    dsimp only
    unfold year at found
    rw [found]

/-- The bytes at the start of an image, and a number of nanoseconds, are those of a point of time. -/
structure Admits (bytes : List UInt8) (nanos : Nat) : Prop where
  date : Calendar.IsDate (year bytes[0]! bytes[1]!) bytes[2]!.toNat bytes[3]!.toNat
  hour : 1 ≤ bytes[4]!.toNat ∧ bytes[4]!.toNat ≤ 24
  minute : 1 ≤ bytes[5]!.toNat ∧ bytes[5]!.toNat ≤ 60
  second : 1 ≤ bytes[6]!.toNat ∧ bytes[6]!.toNat ≤ 60
  nanos : nanos < 10 ^ 9 ∨ bytes[6]!.toNat = 60 ∧ nanos < 2 * 10 ^ 9

theorem exists_tells_iff (rest : List UInt8) :
    (∃ t, Tells c y month day hour minute second nanos t) ↔
      Admits (c :: y :: month :: day :: hour :: minute :: second :: rest) nanos := by
  constructor
  · rintro ⟨⟨⟨date, h, m, s, n⟩, valid⟩, same, hours, minutes, seconds, rfl⟩
    obtain ⟨real, lateHour, lateMinute, lateSecond, parts⟩ := valid
    dsimp only at same hours minutes seconds real lateHour lateMinute lateSecond parts
    rw [same, Calendar.Date.valid_iff] at real
    refine ⟨real, ?_, ?_, ?_, ?_⟩ <;> simp <;> omega
  · rintro ⟨real, hours, minutes, seconds, parts⟩
    simp at hours minutes seconds parts
    have valid : TimeFields.Valid ⟨⟨year c y, month.toNat, day.toNat⟩, hour.toNat - 1,
        minute.toNat - 1, second.toNat - 1, nanos⟩ := by
      refine ⟨(Calendar.Date.valid_iff ..).mpr real, ?_⟩
      dsimp only
      omega
    refine ⟨⟨_, valid⟩, rfl, ?_, ?_, ?_, rfl⟩ <;> dsimp only <;> omega

theorem dateTime_isOk {bytes : List UInt8} (long : 7 ≤ bytes.length) :
    (dateTime (bytes.take 7) nanos).isOk ↔ Admits bytes nanos := by
  obtain ⟨c, y, month, day, hour, minute, second, rest, rfl⟩ :
      ∃ c y month day hour minute second rest,
        bytes = c :: y :: month :: day :: hour :: minute :: second :: rest := by
    rcases bytes with _ | ⟨c, _ | ⟨y, _ | ⟨month, _ | ⟨day, _ | ⟨hour, _ | ⟨minute, _ | ⟨second,
      rest⟩⟩⟩⟩⟩⟩⟩ <;> first | exact ⟨_, _, _, _, _, _, _, _, rfl⟩ | simp at long
  rw [← exists_tells_iff]
  show (dateTime [c, y, month, day, hour, minute, second] nanos).isOk ↔ _
  rcases result : dateTime [c, y, month, day, hour, minute, second] nanos with f | v
  · refine iff_of_false nofun fun ⟨t, tells⟩ => ?_
    cases result.symm.trans (dateTime_ok_iff.mpr ⟨t, tells, rfl⟩)
  · obtain ⟨t, tells, -⟩ := dateTime_ok_iff.mp result
    exact iff_of_true rfl ⟨t, tells⟩

theorem date_isOk (bytes : List UInt8) : (date bytes).isOk ↔ bytes.length = 7 ∧ Admits bytes 0 := by
  unfold date
  by_cases seven : bytes.length = 7
  · rw [if_pos seven, ← dateTime_isOk (by omega), List.take_of_length_le (by omega)]
    simp [seven]
  · rw [if_neg seven]
    exact iff_of_false nofun fun admitted => seven admitted.1

theorem timestamp_isOk (bytes : List UInt8) : (timestamp bytes).isOk ↔
    (bytes.length = 7 ∧ Admits bytes 0) ∨
      bytes.length = 11 ∧ Admits bytes (bigEndian (bytes.drop 7)) := by
  unfold timestamp
  by_cases seven : bytes.length = 7
  · rw [if_pos seven, ← dateTime_isOk (by omega), List.take_of_length_le (by omega)]
    simp [seven]
  rw [if_neg seven]
  by_cases eleven : bytes.length = 11
  · rw [if_pos eleven, dateTime_isOk (by omega)]
    simp [eleven]
  · rw [if_neg eleven]
    exact iff_of_false nofun (by simp [seven, eleven])

theorem timestampTz_isOk (bytes : List UInt8) : (timestampTz bytes).isOk ↔
    bytes.length = 13 ∧ Admits bytes (bigEndian ((bytes.drop 7).take 4)) := by
  unfold timestampTz
  by_cases long : bytes.length = 13
  · rw [if_pos long, dateTime_isOk (by omega)]
    simp [long]
  · rw [if_neg long]
    exact iff_of_false nofun fun admitted => long admitted.1

end Image

namespace Timestamp

/-- The image of a point of time up to its second. -/
def dateImage (t : Timestamp) : List UInt8 :=
  [.ofNat (t.date.year.tdiv 100 + 100).toNat, .ofNat (t.date.year.tmod 100 + 100).toNat,
    .ofNat t.date.month, .ofNat t.date.day, .ofNat (t.hour + 1), .ofNat (t.minute + 1),
    .ofNat (t.second + 1)]

/-- The image of its nanoseconds, high byte first. -/
def nanosImage (t : Timestamp) : List UInt8 :=
  [.ofNat (t.nanos / 2 ^ 24), .ofNat (t.nanos / 2 ^ 16), .ofNat (t.nanos / 2 ^ 8), .ofNat t.nanos]

theorem bigEndian_nanosImage (t : Timestamp) : Image.bigEndian t.nanosImage = t.nanos := by
  have small : t.nanos < 2 * 10 ^ 9 := by
    obtain ⟨-, -, -, -, nanos⟩ := t.valid
    omega
  simp only [nanosImage, Image.bigEndian, List.foldl_cons, List.foldl_nil, UInt8.toNat_ofNat']
  omega

theorem year_dateImage {year : Int} (first : -10000 ≤ year) (last : year ≤ 15599) :
    Image.year (.ofNat (year.tdiv 100 + 100).toNat) (.ofNat (year.tmod 100 + 100).toNat) = year := by
  have quotient : year.tdiv 100 = if 0 ≤ year then year / 100 else -(-year / 100) := by
    split
    next positive => exact Int.tdiv_eq_ediv_of_nonneg positive
    next negative => rw [← Int.tdiv_eq_ediv_of_nonneg (by omega), Int.neg_tdiv, Int.neg_neg]
  have whole := Int.mul_tdiv_add_tmod year 100
  simp only [Image.year, UInt8.toNat_ofNat']
  split at quotient <;> omega

theorem dateTime_dateImage {t : Timestamp} (first : -10000 ≤ t.date.year)
    (last : t.date.year ≤ 15599) : Image.dateTime t.dateImage t.nanos = .ok (.timestamp t) := by
  obtain ⟨real, hour, minute, second, -⟩ := t.valid
  have date : Calendar.IsDate t.date.year t.date.month t.date.day :=
    (Calendar.Date.valid_iff ..).mp real
  obtain ⟨month, day⟩ := date.bounds
  have byte {n : Nat} (small : n < 256) : (UInt8.ofNat n).toNat = n := UInt8.toNat_ofNat_of_lt' small
  refine Image.dateTime_ok_iff.mpr ⟨t, ⟨?_, byte ?_, byte ?_, byte ?_, rfl⟩, rfl⟩
  · rw [year_dateImage first last, byte (by omega), byte (by omega)]
  all_goals omega

end Timestamp

namespace Image

/-- Every point of time of the years -10000 to 15599 is decoded from its image of 11 bytes, from that
of 13 bytes whatever the zone, and from that of 7 bytes if it has no nanoseconds. Any bytes at all
are decoded exactly if they are as many as the type has and tell a real date and time. -/
theorem decode_times :
    (∀ t : Timestamp, -10000 ≤ t.date.year → t.date.year ≤ 15599 →
      timestamp (t.dateImage ++ t.nanosImage) = .ok (.timestamp t) ∧
      (∀ zone zone' : UInt8,
        timestampTz (t.dateImage ++ t.nanosImage ++ [zone, zone']) = .ok (.timestamp t)) ∧
      (t.nanos = 0 → timestamp t.dateImage = .ok (.timestamp t) ∧
        date t.dateImage = .ok (.timestamp t))) ∧
    ∀ bytes : List UInt8,
      ((date bytes).isOk ↔ bytes.length = 7 ∧ Admits bytes 0) ∧
      ((timestamp bytes).isOk ↔ (bytes.length = 7 ∧ Admits bytes 0) ∨
        bytes.length = 11 ∧ Admits bytes (bigEndian (bytes.drop 7))) ∧
      ((timestampTz bytes).isOk ↔
        bytes.length = 13 ∧ Admits bytes (bigEndian ((bytes.drop 7).take 4))) := by
  refine ⟨fun t first last => ?_, fun bytes =>
    ⟨date_isOk bytes, timestamp_isOk bytes, timestampTz_isOk bytes⟩⟩
  have decoded := Timestamp.dateTime_dateImage first last
  refine ⟨?_, fun zone zone' => ?_, fun whole => ?_⟩
  · show dateTime t.dateImage (bigEndian t.nanosImage) = _
    rwa [t.bigEndian_nanosImage]
  · show dateTime t.dateImage (bigEndian t.nanosImage) = _
    rwa [t.bigEndian_nanosImage]
  · rw [whole] at decoded
    exact ⟨decoded, decoded⟩

theorem decode_times_leapSecond :
    (∃ t : Timestamp, t.toTimeFields = ⟨⟨2016, 12, 31⟩, 23, 59, 59, 10 ^ 9⟩ ∧
      timestamp [120, 116, 12, 31, 24, 60, 60, 0x3b, 0x9a, 0xca, 0x00] = .ok (.timestamp t) ∧
      timestampTz [120, 116, 12, 31, 24, 60, 60, 0x3b, 0x9a, 0xca, 0x00, 0x1a, 0x3c] =
        .ok (.timestamp t)) ∧
    ∃ t : Timestamp, t.toTimeFields = ⟨⟨-10000, 1, 1⟩, 0, 0, 0, 0⟩ ∧
      timestamp [0, 100, 1, 1, 1, 1, 1] = .ok (.timestamp t) ∧
      date [0, 100, 1, 1, 1, 1, 1] = .ok (.timestamp t) := by
  constructor
  · let t : Timestamp := ⟨⟨⟨2016, 12, 31⟩, 23, 59, 59, 10 ^ 9⟩, by decide⟩
    have image : t.dateImage ++ t.nanosImage =
        [120, 116, 12, 31, 24, 60, 60, 0x3b, 0x9a, 0xca, 0x00] := by decide
    obtain ⟨plain, zoned, -⟩ := decode_times.1 t (by decide) (by decide)
    rw [image] at plain
    have zoned := zoned 0x1a 0x3c
    rw [image] at zoned
    exact ⟨t, rfl, plain, zoned⟩
  · let t : Timestamp := ⟨⟨⟨-10000, 1, 1⟩, 0, 0, 0, 0⟩, by decide⟩
    have image : t.dateImage = [0, 100, 1, 1, 1, 1, 1] := by decide
    have whole := (decode_times.1 t (by decide) (by decide)).2.2 rfl
    rw [image] at whole
    exact ⟨t, rfl, whole⟩

end Image

end ChangeCapture
