import ChangeCapture.Proofs.Reading
import ChangeCapture.Proofs.Utf8Texts
import ChangeCapture.Tag

/-! Payloads and the values that they stand for. Bytes are spelled by chunks, low byte first, and zeros
fill up the last one; the byte length in front says where they end, so that nothing depends on what
comes behind them. -/
namespace ChangeCapture

/-- The byte at a place of what chunks spell, zero behind the last one. -/
def byteAt (chunks : List UInt32) (k : Nat) : UInt8 :=
  UInt8.ofNat ((chunks[k / chunkSize]?.getD 0).toNat / 2 ^ (8 * (k % chunkSize)))

theorem byteAt_behind (c : UInt32) (chunks : List UInt32) (k : Nat) :
    byteAt (c :: chunks) (chunkSize + k) = byteAt chunks k := by
  have next : (chunkSize + k) / chunkSize = k / chunkSize + 1 := by simp [chunkSize]
  simp [byteAt, next]

theorem bytesOfChunk_eq (c : UInt32) (chunks : List UInt32) :
    bytesOfChunk c = (List.range chunkSize).map (byteAt (c :: chunks)) := by
  have places : List.range chunkSize = [0, 1, 2, 3] := rfl
  simp only [places, List.map_cons, List.map_nil, bytesOfChunk, List.cons.injEq, and_true]
  refine ⟨?_, ?_, ?_, ?_⟩ <;> apply UInt8.toNat_inj.mp <;>
    simp [byteAt, chunkSize, Nat.shiftRight_eq_div_pow]

theorem flatMap_bytesOfChunk (chunks : List UInt32) :
    chunks.flatMap bytesOfChunk = (List.range (chunkSize * chunks.length)).map (byteAt chunks) := by
  induction chunks with
  | nil => rfl
  | cons c chunks ih =>
    have length : chunkSize * (c :: chunks).length = chunkSize + chunkSize * chunks.length := by
      simp [Nat.mul_add, Nat.add_comm]
    rw [List.flatMap_cons, ih, length, List.range_add, List.map_append, bytesOfChunk_eq c chunks]
    simp [byteAt_behind]

theorem chunksToBytes_eq {chunks : List UInt32} {n : Nat} (enough : n ≤ chunkSize * chunks.length) :
    chunksToBytes chunks n = (List.range n).map (byteAt chunks) := by
  simp [chunksToBytes, flatMap_bytesOfChunk, ← List.map_take, List.take_range, enough]

theorem length_bytesToChunks (bytes : List UInt8) :
    (bytesToChunks bytes).length = (bytes.length + 3) / chunkSize := by
  fun_induction bytesToChunks bytes with
  | case1 a b c d rest ih => simp [ih, chunkSize]; omega
  | case2 | case3 | case4 | case5 => simp [chunkSize]

theorem byteAt_nil (k : Nat) : byteAt [] k = 0 := by simp [byteAt]

theorem byteAt_chunkOfBytes (a b c d : UInt8) (chunks : List UInt32) (k : Nat) :
    byteAt (chunkOfBytes [a, b, c, d] :: chunks) k =
      match k with
      | 0 => a
      | 1 => b
      | 2 => c
      | 3 => d
      | k + 4 => byteAt chunks k := by
  have first := bytesOfChunk_eq (chunkOfBytes [a, b, c, d]) chunks
  have places : List.range chunkSize = [0, 1, 2, 3] := rfl
  simp only [bytesOfChunk_chunkOfBytes, places, List.map_cons, List.map_nil, List.cons.injEq,
    and_true] at first
  match k with
  | 0 => exact first.1.symm
  | 1 => exact first.2.1.symm
  | 2 => exact first.2.2.1.symm
  | 3 => exact first.2.2.2.symm
  | k + 4 =>
    have behind := byteAt_behind (chunkOfBytes [a, b, c, d]) chunks k
    rwa [Nat.add_comm] at behind

theorem byteAt_bytesToChunks (bytes : List UInt8) (k : Nat) :
    byteAt (bytesToChunks bytes) k = bytes[k]?.getD 0 := by
  fun_induction bytesToChunks bytes generalizing k with
  | case1 a b c d rest ih =>
    rw [byteAt_chunkOfBytes]
    match k with
    | 0 | 1 | 2 | 3 => rfl
    | k + 4 => simp [ih]
  | case2 | case3 | case4 =>
    rw [byteAt_chunkOfBytes]
    match k with
    | 0 | 1 | 2 | 3 => rfl
    | k + 4 => simp [byteAt_nil]
  | case5 => simp [byteAt_nil]

/-- A payload that stands for a value: none at all for null, and else a chunk with the byte length, and as
many chunks as the bytes take, with zeros behind the last byte. -/
inductive Encodes : List UInt32 → Option (List UInt8) → Prop where
  | null : Encodes [] none
  | bytes {length : UInt32} {data : List UInt32} {bytes : List UInt8} :
      length.toNat = bytes.length → data.length = (bytes.length + 3) / chunkSize →
      (∀ k, byteAt data k = bytes[k]?.getD 0) → Encodes (length :: data) (some bytes)

theorem exists_encodes_iff {value : Option (List UInt8)} :
    (∃ payload, Encodes payload value) ↔ ∀ bytes ∈ value, bytes.length < 2 ^ 32 := by
  constructor
  · rintro ⟨payload, encodes⟩ bytes rfl
    cases encodes with
    | bytes length _ _ =>
      rw [← length]
      exact UInt32.toNat_lt _
  · intro fits
    cases value with
    | none => exact ⟨[], .null⟩
    | some bytes =>
      have length : (UInt32.ofNat bytes.length).toNat = bytes.length := by
        simpa using fits bytes rfl
      exact ⟨_, .bytes length (length_bytesToChunks bytes) (byteAt_bytesToChunks bytes)⟩

namespace Tag

variable {t : Tag} {payload : List UInt32} {bytes : List UInt8} {text : String}

theorem bytes_eq_ok_iff : t.bytes = .ok bytes ↔ ∃ length data, t.payload = length :: data ∧
    length.toNat ≤ chunkSize * data.length ∧ bytes = (List.range length.toNat).map (byteAt data) := by
  cases chunks : t.payload with
  | nil => simp [Tag.bytes, chunks, malformed]
  | cons length data =>
    simp only [Tag.bytes, chunks, List.cons.injEq]
    split
    next short =>
      simp only [malformed, reduceCtorEq, false_iff]
      rintro ⟨length, data, ⟨rfl, rfl⟩, enough, -⟩
      omega
    next enough =>
      rw [chunksToBytes_eq (Nat.not_lt.mp enough), Except.ok.injEq]
      constructor
      · rintro rfl
        exact ⟨length, data, ⟨rfl, rfl⟩, Nat.not_lt.mp enough, rfl⟩
      · rintro ⟨length, data, ⟨rfl, rfl⟩, -, rfl⟩
        rfl

theorem bytes_of_encodes (encodes : Encodes payload (some bytes)) (id : UInt32) (seq : Nat) :
    Tag.bytes ⟨id, payload, seq⟩ = .ok bytes := by
  cases encodes with
  | @bytes length data _ count chunks same =>
    have enough : length.toNat ≤ chunkSize * data.length := by
      simp [count, chunks, chunkSize]
      omega
    refine bytes_eq_ok_iff.mpr ⟨length, data, rfl, enough, ?_⟩
    refine List.ext_getElem (by simp [count]) fun k within _ => ?_
    simp [same, within]

theorem value_of_encodes {value : Option (List UInt8)} (encodes : Encodes payload value)
    (id : UInt32) (seq : Nat) : Tag.value ⟨id, payload, seq⟩ = .ok value := by
  cases value with
  | none =>
    cases encodes
    rfl
  | some bytes =>
    have read := bytes_of_encodes encodes id seq
    cases encodes
    simp [Tag.value, read, Except.map]

/-- A tag is read as a text if its bytes are the ones of that text. -/
theorem text_eq_ok_iff : t.text = .ok text ↔ t.bytes = .ok (Text.Utf8.encode text) := by
  cases read : t.bytes with
  | error f => simp [Tag.text, read, bind, Except.bind]
  | ok bytes =>
    simp only [Tag.text, read, bind, Except.bind, Except.ok.injEq, ← Text.Utf8.decode_eq_ok_iff]
    split <;> simp_all [malformed, pure, Except.pure]

theorem text_of_encodes (encodes : Encodes payload (some (Text.Utf8.encode text))) (id : UInt32)
    (seq : Nat) : Tag.text ⟨id, payload, seq⟩ = .ok text :=
  text_eq_ok_iff.mpr (bytes_of_encodes encodes id seq)

theorem wide_of_words (n : UInt64) (rest : List UInt32) (id : UInt32) (seq : Nat) :
    Tag.wide ⟨id, n.toUInt32 :: (n >>> 32).toUInt32 :: rest, seq⟩ = .ok n.toNat := by
  have := n.toNat_lt
  simp [Tag.wide, Nat.shiftRight_eq_div_pow]
  omega

/-- What a payload stands for is what is read from it: every value, null and the empty one apart, that is
short enough to have a payload at all; every text; every number of two words. Of any payload, bytes are
read just if it has a byte length and chunks for that many bytes, and then the first bytes of these. -/
theorem reads_payload (id : UInt32) (seq : Nat) :
    (∀ payload value, Encodes payload value → Tag.value ⟨id, payload, seq⟩ = .ok value) ∧
    (∀ value : Option (List UInt8),
      (∃ payload, Encodes payload value) ↔ ∀ bytes ∈ value, bytes.length < 2 ^ 32) ∧
    (∀ payload value other, Encodes payload value → Encodes payload other → value = other) ∧
    (∀ payload text, Encodes payload (some (Text.Utf8.encode text)) →
      Tag.text ⟨id, payload, seq⟩ = .ok text) ∧
    (∀ (n : UInt64) (rest : List UInt32),
      Tag.wide ⟨id, n.toUInt32 :: (n >>> 32).toUInt32 :: rest, seq⟩ = .ok n.toNat) ∧
    (∀ payload bytes, Tag.bytes ⟨id, payload, seq⟩ = .ok bytes ↔
      ∃ length data, payload = length :: data ∧ length.toNat ≤ chunkSize * data.length ∧
        bytes = (List.range length.toNat).map (byteAt data)) := by
  refine ⟨?values, fun value => exists_encodes_iff, ?apart, ?texts, ?numbers, ?bytes⟩
  case values => exact fun payload value encodes => value_of_encodes encodes id seq
  case apart =>
    intro payload value other first second
    have read := value_of_encodes first id seq
    rw [value_of_encodes second id seq] at read
    exact (Except.ok.inj read).symm
  case texts => exact fun payload text encodes => text_of_encodes encodes id seq
  case numbers => exact fun n rest => wide_of_words n rest id seq
  case bytes => exact fun payload bytes => bytes_eq_ok_iff

/-- A name that ends inside a chunk, the empty value, and null. -/
theorem reads_payload_name :
    let name : List UInt32 := [5, 0x544F4353, 0x54]
    (Encodes name (some (Text.Utf8.encode "SCOTT")) ∧ Tag.text ⟨0x202, name, 0⟩ = .ok "SCOTT") ∧
      (Encodes [0] (some []) ∧ Tag.value ⟨0x202, [0], 0⟩ = .ok (some [])) ∧
      Encodes [] none ∧ Tag.value ⟨0x202, [], 0⟩ = .ok none := by
  intro name
  obtain ⟨values, -, -, texts, -⟩ := reads_payload 0x202 0
  have named : Encodes name (some (Text.Utf8.encode "SCOTT")) :=
    .bytes (by decide) (by decide) (byteAt_bytesToChunks (Text.Utf8.encode "SCOTT"))
  have blank : Encodes [0] (some []) := .bytes rfl rfl (byteAt_bytesToChunks [])
  exact ⟨⟨named, texts _ _ named⟩, ⟨blank, values _ _ blank⟩, .null, values _ _ .null⟩

end Tag

end ChangeCapture
