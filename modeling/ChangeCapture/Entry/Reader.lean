import ChangeCapture.Entry

/-! Framing entries out of chunks. The length of an entry bounds its tags: no tag goes beyond it and
no chunk is left over. Every entry that is read uses up bytes of the source (`size_next_lt`). -/
namespace ChangeCapture.ChunkReader

def malformed (offset : Nat) (fault : EntryFault) : Reading α :=
  throw (.malformedEntry offset fault)

/-- Tags that fill `remaining` chunks, numbered from `seq` on. -/
def tags (offset seq remaining : Nat) (known : Registry TagType (List Tag)) :
    Reading (Registry TagType (List Tag)) := do
  if remaining = 0 then return known
  else if remaining < tagHeader then malformed offset (.trailingChunks remaining)
  else
    let length ← chunk
    let id ← chunk
    if _fits : tagHeader ≤ length.toNat ∧ length.toNat ≤ remaining then
      let payload ← chunks (length.toNat - tagHeader)
      tags offset (seq + 1) (remaining - length.toNat) (Entry.addTag known ⟨id, payload, seq⟩)
    else malformed offset (.tagOverrun id length.toNat remaining)
termination_by remaining
decreasing_by
  have : tagHeader = 2 := rfl
  omega

/-- The entry whose length was just read. -/
def entryBody (offset length : Nat) : Reading Entry := do
  if length < entryHeader then malformed offset (.shortLength length)
  else
    let major ← chunk
    let subtype ← chunk
    if major = EntryKind.controlMajor ∧ subtype = EntryKind.footerSubtype ∧ length ≠ entryHeader then
      malformed offset (.longFooter length)
    else
      let tags ← tags offset 0 (length - entryHeader) ∅
      return ⟨length, major, subtype, offset, tags⟩

/-- The next entry; at a clean end of the input the stream is closed. -/
def next : Reading Entry := do
  let offset := (← get).offset
  match ← chunk? with
  | some length => entryBody offset length.toNat
  | none => throw .streamClosed

/-- Nothing is put back into the source. -/
def Shrinks (x : Reading α) : Prop := ∀ r, (x r).2.source.size ≤ r.source.size

theorem shrinks_pure (a : α) : Shrinks (pure a : Reading α) := fun _ => Nat.le_refl _

theorem shrinks_throw (f : Failure) : Shrinks (throw f : Reading α) := fun _ => Nat.le_refl _

theorem shrinks_bind {x : Reading α} {f : α → Reading β} (hx : Shrinks x)
    (hf : ∀ a, Shrinks (f a)) : Shrinks (x >>= f) := by
  intro r
  have h := hx r
  rw [Action.bind_apply]
  rcases hr : x r with ⟨⟨e⟩ | ⟨a⟩, r'⟩ <;> rw [hr] at h
  · exact h
  · exact Nat.le_trans (hf a r') h

theorem shrinks_gather (n : Nat) : Shrinks (gather n) := by
  intro r
  have h := Source.size_gather_le n r.source
  unfold gather
  split <;> rename_i heq <;> rw [heq] at h <;> exact h

theorem shrinks_truncated : Shrinks (truncated : Reading α) := fun _ => Nat.le_refl _

theorem shrinks_bytes? (n : Nat) : Shrinks (bytes? n) :=
  shrinks_bind (shrinks_gather n) fun bytes => by
    split
    · exact shrinks_pure _
    · split
      · exact shrinks_truncated
      · exact shrinks_pure _

theorem shrinks_chunk? : Shrinks chunk? :=
  shrinks_bind (shrinks_bytes? _) fun _ => shrinks_pure _

theorem shrinks_chunk : Shrinks chunk :=
  shrinks_bind shrinks_chunk? fun c => by
    cases c
    · exact shrinks_truncated
    · exact shrinks_pure _

theorem shrinks_chunks (n : Nat) : Shrinks (chunks n) := by
  induction n with
  | zero => exact shrinks_pure _
  | succ n ih =>
    exact shrinks_bind shrinks_chunk fun _ => shrinks_bind ih fun _ => shrinks_pure _

theorem shrinks_tags (offset seq remaining : Nat) (known : Registry TagType (List Tag)) :
    Shrinks (tags offset seq remaining known) := by
  induction remaining using Nat.strongRecOn generalizing seq known with
  | ind remaining ih =>
    rw [tags]
    split
    · exact shrinks_pure _
    · split
      · exact shrinks_throw _
      · refine shrinks_bind shrinks_chunk fun length => shrinks_bind shrinks_chunk fun id => ?_
        split
        next fits =>
          have : tagHeader = 2 := rfl
          exact shrinks_bind (shrinks_chunks _) fun _ => ih _ (by omega) _ _
        · exact shrinks_throw _

theorem shrinks_entryBody (offset length : Nat) : Shrinks (entryBody offset length) := by
  unfold entryBody
  split
  · exact shrinks_throw _
  · refine shrinks_bind shrinks_chunk fun _ => shrinks_bind shrinks_chunk fun _ => ?_
    split
    · exact shrinks_throw _
    · exact shrinks_bind (shrinks_tags _ _ _ _) fun _ => shrinks_pure _

theorem size_bytes?_lt {n : Nat} {r r' : ChunkReader} {bytes : List UInt8}
    (h : bytes? n r = (.ok (some bytes), r')) : r'.source.size < r.source.size := by
  have key := Source.size_gather_add n r.source
  rw [bytes?, Action.bind_apply, gather] at h
  rcases hg : r.source.gather n with ⟨⟨e⟩ | ⟨taken⟩, source⟩ <;> rw [hg] at h key
  · cases h
  · have key := key taken rfl
    simp only at h
    split at h
    · cases h
    · split at h
      · cases h
      · cases h
        rename_i nonempty _
        have : bytes.length ≠ 0 := by
          intro zero
          exact nonempty (by simp [List.eq_nil_of_length_eq_zero zero])
        show source.size < r.source.size
        simp only at key
        omega

theorem size_chunk?_lt {r r' : ChunkReader} {c : UInt32} (h : chunk? r = (.ok (some c), r')) :
    r'.source.size < r.source.size := by
  rw [chunk?, Action.bind_apply] at h
  rcases hb : bytes? chunkSize r with ⟨⟨e⟩ | ⟨none | bytes⟩, r''⟩ <;> rw [hb] at h <;> cases h
  exact size_bytes?_lt hb

theorem next_eq (r : ChunkReader) :
    next r = match chunk? r with
      | (.ok (some length), r') => entryBody r.offset length.toNat r'
      | (.ok none, r') => (.error .streamClosed, r')
      | (.error e, r') => (.error e, r') := by
  rw [next, Action.bind_apply]
  show ((chunk? >>= fun c => match c with
      | some length => entryBody r.offset length.toNat
      | none => throw .streamClosed : Reading Entry) r) = _
  rw [Action.bind_apply]
  rcases chunk? r with ⟨⟨e⟩ | ⟨none | c⟩, r'⟩ <;> rfl

/-- Reading an entry uses up bytes of the source. -/
theorem size_next_lt {r r' : ChunkReader} {e : Entry} (h : next r = (.ok e, r')) :
    r'.source.size < r.source.size := by
  rw [next_eq] at h
  rcases hc : chunk? r with ⟨⟨f⟩ | ⟨none | c⟩, r''⟩
  · rw [hc] at h; cases h
  · rw [hc] at h; cases h
  · rw [hc] at h
    have first := size_chunk?_lt hc
    have rest := shrinks_entryBody r.offset c.toNat r''
    simp only at h
    rw [h] at rest
    exact Nat.lt_of_le_of_lt rest first

end ChangeCapture.ChunkReader
