import ChangeCapture.Entry.Reader
import ChangeCapture.Proofs.Reading
import Mathlib.Algebra.GroupWithZero.Nat
import Mathlib.Data.List.Induction

/-! The form of an entry on the log. Reading gives back every entry that fits its length, whatever
follows, and what reading takes for an entry is the form of just that entry. The tags of an entry are
kept by type; their numbers bring back the order in which they were written. -/
namespace ChangeCapture

namespace Registry

variable {κ : Type u} {α : Type v} [DecidableEq κ]

theorem flatten_place (key : κ) (a : α) (l : List (κ × List α)) :
    ((place key ((find key l).getD [] ++ [a]) l).map Prod.snd).flatten.Perm
      ((l.map Prod.snd).flatten ++ [a]) := by
  induction l with
  | nil => simp [place, find]
  | cons e rest ih =>
    obtain ⟨k, as⟩ := e
    by_cases here : k = key
    · simp only [find, place, if_pos here, Option.getD_some, List.map_cons, List.flatten_cons,
        List.append_assoc]
      exact List.perm_append_comm.append_left as
    · simp only [find, place, if_neg here, List.map_cons, List.flatten_cons, List.append_assoc]
      exact ih.append_left as

end Registry

namespace Entry

/-- The tags of an entry as they are numbered, from `first` on. -/
def numbered (first : Nat) (tags : List (UInt32 × List UInt32)) : List Tag :=
  tags.mapIdx (fun i t => ⟨t.1, t.2, first + i⟩)

/-- Chunks that tags take up. -/
def chunkCount (tags : List (UInt32 × List UInt32)) : Nat :=
  (tags.map (fun t => tagHeader + t.2.length)).sum

/-- Length in chunks of an entry with these tags. -/
def lengthOf (tags : List (UInt32 × List UInt32)) : Nat := entryHeader + chunkCount tags

/-- An entry is what the log says at its offset. -/
structure Frames (e : Entry) (start : Nat) (major subtype : UInt32)
    (tags : List (UInt32 × List UInt32)) : Prop where
  kind : e.kind = EntryKind.classify major subtype
  major : e.major = major
  subtype : e.subtype = subtype
  length : e.length = lengthOf tags
  offset : e.offset = start
  ordered : e.inOrder = numbered 0 tags
  grouped : ∀ type, e.tagsOf type = (numbered 0 tags).filter (fun t => t.type = type)

theorem numbered_cons (first : Nat) (t : UInt32 × List UInt32) (tags : List (UInt32 × List UInt32)) :
    numbered first (t :: tags) = ⟨t.1, t.2, first⟩ :: numbered (first + 1) tags := by
  simp [numbered, Nat.add_assoc, Nat.add_comm 1]

theorem numbered_payloads (first : Nat) (tags : List (UInt32 × List UInt32)) :
    (numbered first tags).map (fun t => (t.id, t.payload)) = tags := by
  induction tags generalizing first with
  | nil => rfl
  | cons t tags ih => rw [numbered_cons, List.map_cons, ih]

theorem numbered_increases (first : Nat) (tags : List (UInt32 × List UInt32)) :
    (numbered first tags).Pairwise (fun a b => a.seq < b.seq) := by
  simp only [numbered, List.pairwise_iff_getElem, List.getElem_mapIdx]
  intro i j _ _ before
  omega

/-- Tags by type, as they come one by one. -/
def grouping (tags : List Tag) : Registry TagType (List Tag) := tags.foldl addTag ∅

theorem grouping_append (tags : List Tag) (tag : Tag) :
    grouping (tags ++ [tag]) = addTag (grouping tags) tag := by
  simp [grouping]

theorem get?_grouping (tags : List Tag) (type : TagType) :
    ((grouping tags).get? type).getD [] = tags.filter (fun t => t.type = type) := by
  induction tags using List.reverseRecOn with
  | nil => rfl
  | append_singleton tags tag ih =>
    rw [grouping_append, addTag, Registry.get?_insert, List.filter_append]
    by_cases here : type = tag.type
    · subst here
      simp [ih]
    · simp [here, ih, Ne.symm here]

theorem values_grouping (tags : List Tag) : (grouping tags).values.flatten.Perm tags := by
  induction tags using List.reverseRecOn with
  | nil => exact List.Perm.refl _
  | append_singleton tags tag ih =>
    rw [grouping_append]
    exact (Registry.flatten_place tag.type tag (grouping tags).entries).trans (ih.append_right _)

theorem mergeSort_of_perm {number : α → Nat} {found sorted : List α} (same : found.Perm sorted)
    (numbers : sorted.Pairwise (fun a b => number a < number b)) :
    found.mergeSort (fun a b => number a ≤ number b) = sorted := by
  have ordered : (found.mergeSort (fun a b => number a ≤ number b)).Pairwise
      (fun a b => decide (number a ≤ number b) = true) :=
    List.pairwise_mergeSort (by simp; omega) (by simp; omega) _
  have same := (List.mergeSort_perm found (fun a b => decide (number a ≤ number b))).trans same
  have unique := List.Pairwise.forall_of_forall_of_flip
    (R := fun a b : α => number a = number b → a = b)
    (fun _ _ _ => rfl) (numbers.imp (fun lt eq => absurd eq (by omega)))
    (numbers.imp (fun lt eq => absurd eq (by omega)))
  refine same.eq_of_pairwise ?_ ordered (numbers.imp (by simp; omega))
  intro a b ha hb le ge
  simp only [decide_eq_true_eq] at le ge
  exact unique (same.subset ha) hb (by omega)

/-- Numbered tags are recovered from their groups. -/
theorem sorted_grouping (tags : List Tag) (numbers : tags.Pairwise (fun a b => a.seq < b.seq)) :
    (grouping tags).values.flatten.mergeSort (fun a b => a.seq ≤ b.seq) = tags :=
  mergeSort_of_perm (values_grouping tags) numbers

theorem frames_grouping (start : Nat) (major subtype : UInt32) (tags : List (UInt32 × List UInt32)) :
    Frames ⟨lengthOf tags, major, subtype, start, grouping (numbered 0 tags)⟩ start major subtype
      tags where
  kind := rfl
  major := rfl
  subtype := rfl
  length := rfl
  offset := rfl
  ordered := sorted_grouping _ (numbered_increases 0 tags)
  grouped := get?_grouping _

theorem chunkCount_cons (t : UInt32 × List UInt32) (tags : List (UInt32 × List UInt32)) :
    chunkCount (t :: tags) = tagHeader + t.2.length + chunkCount tags := by
  simp [chunkCount]

theorem length_tagChunks (t : UInt32 × List UInt32) :
    (tagChunks t.1 t.2).length = tagHeader + t.2.length := by
  simp [tagChunks, tagHeader, Nat.add_comm, Nat.add_left_comm]

theorem length_flatMap_tagChunks (tags : List (UInt32 × List UInt32)) :
    (tags.flatMap (fun t => tagChunks t.1 t.2)).length = chunkCount tags := by
  simp [List.length_flatMap, length_tagChunks, chunkCount]

/-- The form of a list of tags. -/
def tagBytes (tags : List (UInt32 × List UInt32)) : List UInt8 :=
  tags.flatMap (fun t => (tagChunks t.1 t.2).flatMap bytesOfChunk)

theorem tagBytes_cons (t : UInt32 × List UInt32) (tags : List (UInt32 × List UInt32)) :
    tagBytes (t :: tags) = bytesOfChunk (UInt32.ofNat (tagHeader + t.2.length)) ++
      (bytesOfChunk t.1 ++ (t.2.flatMap bytesOfChunk ++ tagBytes tags)) := by
  simp only [tagBytes, tagChunks, List.flatMap_cons, List.append_assoc]

theorem encode_eq (major subtype : UInt32) (tags : List (UInt32 × List UInt32)) :
    encode major subtype tags = bytesOfChunk (UInt32.ofNat (lengthOf tags)) ++
      (bytesOfChunk major ++ (bytesOfChunk subtype ++ tagBytes tags)) := by
  simp only [encode, chunks, length_flatMap_tagChunks, lengthOf, tagBytes, List.flatMap_cons,
    List.flatMap_assoc]

theorem length_encode (major subtype : UInt32) (tags : List (UInt32 × List UInt32)) :
    (encode major subtype tags).length = chunkSize * lengthOf tags := by
  have chunks : (chunks major subtype tags).length = lengthOf tags := by
    simp only [chunks, List.length_cons, length_flatMap_tagChunks, lengthOf, entryHeader]
    omega
  simp [encode, List.length_flatMap, length_bytesOfChunk, List.map_const', chunks, Nat.mul_comm]

end Entry

namespace ChunkReader

open Entry

theorem toNat_length {n : Nat} (fits : n < 2 ^ 32) : (UInt32.ofNat n).toNat = n := by
  simpa using Nat.mod_eq_of_lt fits

/-- Tags are read from their form one by one, each within what is left of the entry. -/
theorem tags_accepts (offset seq : Nat) (known : Registry TagType (List Tag))
    (tags : List (UInt32 × List UInt32)) (fits : chunkCount tags < 2 ^ 32) :
    Accepts (ChunkReader.tags offset seq (chunkCount tags) known) (tagBytes tags)
      ((numbered seq tags).foldl addTag known) := by
  induction tags generalizing seq known with
  | nil =>
    rw [ChunkReader.tags]
    exact Accepts.pure known
  | cons t tags ih =>
    have header : tagHeader = 2 := rfl
    rw [chunkCount_cons] at fits ⊢
    have length : (UInt32.ofNat (tagHeader + t.2.length)).toNat = tagHeader + t.2.length :=
      toNat_length (by omega)
    rw [ChunkReader.tags, if_neg (by omega), if_neg (by omega), tagBytes_cons, numbered_cons,
      List.foldl_cons]
    refine (chunk_accepts _).bind ((chunk_accepts _).bind ?_)
    rw [dif_pos (by omega), length, Nat.add_sub_cancel_left, Nat.add_sub_cancel_left]
    exact (chunks_accepts t.2).bind (ih (seq + 1) (addTag known ⟨t.1, t.2, seq⟩) (by omega))

theorem took_of_tags {offset seq remaining : Nat} {known all : Registry TagType (List Tag)}
    {r r' : ChunkReader} (h : ChunkReader.tags offset seq remaining known r = (.ok all, r')) :
    ∃ tags, chunkCount tags = remaining ∧ all = (numbered seq tags).foldl addTag known ∧
      Took r r' (tagBytes tags) := by
  induction remaining using Nat.strongRecOn generalizing seq known r with
  | ind remaining ih =>
    have header : tagHeader = 2 := rfl
    rw [ChunkReader.tags] at h
    split at h
    next none =>
      cases h
      exact ⟨[], none.symm, rfl, Took.nil _⟩
    split at h
    · cases h
    rw [Action.bind_apply] at h
    rcases hl : chunk r with ⟨⟨e⟩ | ⟨length⟩, r₁⟩ <;> rw [hl] at h
    · cases h
    simp only [Action.bind_apply] at h
    rcases hi : chunk r₁ with ⟨⟨e⟩ | ⟨id⟩, r₂⟩ <;> rw [hi] at h
    · cases h
    simp only at h
    split at h
    next fits =>
      rw [Action.bind_apply] at h
      rcases hp : ChunkReader.chunks (length.toNat - tagHeader) r₂ with ⟨⟨e⟩ | ⟨payload⟩, r₃⟩ <;>
        rw [hp] at h
      · cases h
      obtain ⟨size, tookPayload⟩ := took_of_chunks hp
      obtain ⟨tags, count, grouped, tookTags⟩ := ih _ (by omega) h
      have whole : length = UInt32.ofNat (tagHeader + payload.length) := by
        rw [size, Nat.add_sub_cancel' fits.1, UInt32.ofNat_toNat]
      refine ⟨(id, payload) :: tags, ?_, ?_, ?_⟩
      · rw [chunkCount_cons]
        simp only
        omega
      · rw [numbered_cons, List.foldl_cons, grouped]
      · rw [tagBytes_cons, ← whole]
        exact (took_of_chunk hl).append ((took_of_chunk hi).append (tookPayload.append tookTags))
    next => cases h

/-- An entry that fits its length is read from its form, unless it is a footer with tags. -/
theorem entryBody_accepts (start : Nat) (major subtype : UInt32)
    (tags : List (UInt32 × List UInt32)) (fits : lengthOf tags < 2 ^ 32)
    (footer : major = 0 ∧ subtype = 1 → tags = []) :
    Accepts (entryBody start (lengthOf tags))
      (bytesOfChunk major ++ (bytesOfChunk subtype ++ tagBytes tags))
      ⟨lengthOf tags, major, subtype, start, grouping (numbered 0 tags)⟩ := by
  have header : lengthOf tags = entryHeader + chunkCount tags := rfl
  rw [entryBody, if_neg (by omega)]
  refine (chunk_accepts major).bind ((chunk_accepts subtype).bind ?_)
  rw [if_neg]
  · have given := (tags_accepts start 0 ∅ tags (by omega)).bind
      (f := fun tags' => Pure.pure (⟨lengthOf tags, major, subtype, start, tags'⟩ : Entry))
      (Accepts.pure _)
    rw [List.append_nil] at given
    rw [header, Nat.add_sub_cancel_left]
    exact given
  · rintro ⟨control, last, long⟩
    apply long
    rw [footer ⟨control, last⟩]
    rfl

/-- What is read for an entry is the form of that entry. -/
theorem took_of_entryBody {start length : Nat} {r r' : ChunkReader} {e : Entry}
    (h : entryBody start length r = (.ok e, r')) :
    ∃ tags, lengthOf tags = length ∧
      e = ⟨length, e.major, e.subtype, start, grouping (numbered 0 tags)⟩ ∧
      Took r r' (bytesOfChunk e.major ++ (bytesOfChunk e.subtype ++ tagBytes tags)) := by
  rw [entryBody] at h
  split at h
  · cases h
  next long =>
    rw [Action.bind_apply] at h
    rcases hm : chunk r with ⟨⟨f⟩ | ⟨major⟩, r₁⟩ <;> rw [hm] at h
    · cases h
    simp only [Action.bind_apply] at h
    rcases hs : chunk r₁ with ⟨⟨f⟩ | ⟨subtype⟩, r₂⟩ <;> rw [hs] at h
    · cases h
    simp only at h
    split at h
    · cases h
    rw [Action.bind_apply] at h
    rcases ht : ChunkReader.tags start 0 (length - entryHeader) ∅ r₂ with ⟨⟨f⟩ | ⟨all⟩, r₃⟩ <;>
      rw [ht] at h <;> cases h
    obtain ⟨tags, count, grouped, took⟩ := took_of_tags ht
    refine ⟨tags, ?_, ?_, (took_of_chunk hm).append ((took_of_chunk hs).append took)⟩
    · simp only [lengthOf]
      omega
    · rw [grouped]
      rfl

/-- Reading gives back the entry that is written where the reader stands, whatever follows it and
however the source is cut into parts, and stops right behind it. Whatever entry reading gives, its
form is what was taken for it. -/
theorem next_reads_entries :
    (∀ (major subtype : UInt32) (tags : List (UInt32 × List UInt32)) (suffix : List UInt8)
      (r : ChunkReader),
      lengthOf tags < 2 ^ 32 → (major = 0 ∧ subtype = 1 → tags = []) →
      r.source.ready = encode major subtype tags ++ suffix →
      ∃ e r', next r = (.ok e, r') ∧ e.Frames r.offset major subtype tags ∧
        r'.source.ready = suffix ∧
        r.source.content = encode major subtype tags ++ r'.source.content ∧
        r'.offset = r.offset + chunkSize * lengthOf tags) ∧
    (∀ (r r' : ChunkReader) (e : Entry), next r = (.ok e, r') →
      ∃ tags, e.Frames r.offset e.major e.subtype tags ∧
        tags = e.inOrder.map (fun t => (t.id, t.payload)) ∧
        r.source.content = encode e.major e.subtype tags ++ r'.source.content ∧
        r'.offset = r.offset + chunkSize * e.length) := by
  constructor
  · intro major subtype tags suffix r fits footer there
    rw [encode_eq, List.append_assoc] at there
    obtain ⟨r₁, length, tookLength⟩ := chunk?_accepts (UInt32.ofNat (lengthOf tags)) r _ there
    obtain ⟨r₂, body, tookBody⟩ :=
      entryBody_accepts r.offset major subtype tags fits footer r₁ suffix
      (List.append_cancel_left (tookLength.ready.symm.trans there))
    have took := tookLength.append tookBody
    rw [← encode_eq] at took
    rw [← List.append_assoc, ← encode_eq] at there
    refine ⟨_, r₂, ?_, frames_grouping r.offset major subtype tags, ?_, took.content, ?_⟩
    · rw [next_eq, length]
      simp only [toNat_length fits]
      exact body
    · exact List.append_cancel_left (took.ready.symm.trans there)
    · rw [took.offset, length_encode]
  · intro r r' e h
    rw [next_eq] at h
    rcases hc : chunk? r with ⟨⟨f⟩ | ⟨_ | length⟩, r₁⟩ <;> rw [hc] at h
    · cases h
    · cases h
    obtain ⟨tags, long, framed, took⟩ := took_of_entryBody h
    have frames := frames_grouping r.offset e.major e.subtype tags
    rw [long, ← framed] at frames
    have took := (took_of_chunk? hc).append took
    have form : bytesOfChunk length = bytesOfChunk (UInt32.ofNat (lengthOf tags)) := by
      rw [long, UInt32.ofNat_toNat]
    rw [form, ← encode_eq] at took
    refine ⟨tags, frames, ?_, took.content, ?_⟩
    · rw [frames.ordered, numbered_payloads]
    · rw [took.offset, length_encode, frames.length]

/-- An insert with a tag that means nothing, in a source that is cut within a chunk. -/
theorem next_reads_insert :
    let form := encode 2 1 [(0x0100, [5]), (0x9999, [])]
    let r : ChunkReader := ⟨[.bytes (form.take 5), .interrupted, .bytes (form.drop 5 ++ [7])], 16⟩
    ∃ e r', next r = (.ok e, r') ∧ e.kind = .insert ∧ r'.offset = 48 ∧ r'.source.ready = [7] ∧
      r.source.content = encode e.major e.subtype (e.inOrder.map (fun t => (t.id, t.payload))) ++
        r'.source.content := by
  intro form r
  obtain ⟨e, r', read, frames, left, -, offset⟩ := next_reads_entries.1 2 1
    [(0x0100, [5]), (0x9999, [])] [7] r (by decide) (by simp) (by decide)
  obtain ⟨tags, -, same, taken, -⟩ := next_reads_entries.2 r r' e read
  exact ⟨e, r', read, frames.kind, offset, left, same ▸ taken⟩

end ChunkReader

end ChangeCapture
