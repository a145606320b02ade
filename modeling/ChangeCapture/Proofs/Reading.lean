import ChangeCapture.Chunk

/-! What reads take off a source: exactly the bytes they give, in order. A read succeeds as soon as
its bytes are there before the next pause or failure, however they are cut into parts. -/
namespace ChangeCapture

namespace Source

/-- Bytes that can be taken before the input ends for now or fails. -/
def ready : Source → List UInt8
  | .bytes bytes :: rest => bytes ++ ready rest
  | .interrupted :: rest => ready rest
  | _ => []

theorem gather_of_le_ready (n : Nat) (s : Source) (enough : n ≤ s.ready.length) :
    (gather n s).1 = .ok (s.ready.take n) ∧ (gather n s).2.ready = s.ready.drop n ∧
      s.content = s.ready.take n ++ (gather n s).2.content := by
  fun_induction gather n s with
  | case1 s => simp
  | case2 => simp [ready] at enough
  | case3 => simp [ready] at enough
  | case4 n rest ih => simpa only [ready, content] using ih enough
  | case5 => simp [ready] at enough
  | case6 n bytes rest fits more rest' taken ih =>
    simp only [ready, List.length_append] at enough
    obtain ⟨given, left, all⟩ := ih (by omega)
    rw [taken] at given left all
    simp only at given left all
    subst given
    refine ⟨?_, ?_, ?_⟩
    · simp only [Except.map, ready, List.take_append, List.take_of_length_le fits]
    · simp only [left, ready, List.drop_append, List.drop_of_length_le fits, List.nil_append]
    · simp only [content, ready, List.take_append, List.take_of_length_le fits,
        List.append_assoc, ← all]
  | case7 n bytes rest more =>
    have within : n + 1 - bytes.length = 0 := by omega
    refine ⟨?_, ?_, ?_⟩
    · simp only [ready, List.take_append, within, List.take_zero, List.append_nil]
    · simp only [ready, List.drop_append, within, List.drop_zero]
    · simp only [content, ready, List.take_append, within, List.take_zero, List.append_nil,
        ← List.append_assoc, List.take_append_drop]

theorem length_le_ready (n : Nat) (s : Source) (bytes : List UInt8)
    (given : (gather n s).1 = .ok bytes) : bytes.length ≤ s.ready.length := by
  fun_induction gather n s generalizing bytes with
  | case1 => cases given; simp
  | case2 => cases given; simp
  | case3 => cases given; simp
  | case4 n rest ih => simpa only [ready] using ih bytes given
  | case5 => cases given
  | case6 n first rest fits more rest' taken ih =>
    rw [taken] at ih
    cases more with
    | error message => cases given
    | ok more =>
      simp only [Except.map, Except.ok.injEq] at given
      subst given
      have := ih more rfl
      simp only [ready, List.length_append]
      omega
  | case7 n first rest fits =>
    cases given
    simp only [ready, List.length_append, List.length_take]
    omega

end Source

theorem length_bytesOfChunk (chunk : UInt32) : (bytesOfChunk chunk).length = chunkSize := rfl

theorem chunkOfBytes_bytesOfChunk (chunk : UInt32) : chunkOfBytes (bytesOfChunk chunk) = chunk := by
  apply UInt32.toNat_inj.mp
  have bound := chunk.toNat_lt
  simp only [chunkOfBytes, bytesOfChunk, UInt32.toNat_toUInt8, UInt32.toNat_shiftRight,
    UInt32.toNat_ofNat', Nat.shiftRight_eq_div_pow]
  simp only [UInt32.toNat_ofNat, Nat.reduceMod, Nat.reducePow] at *
  omega

theorem bytesOfChunk_chunkOfBytes (a b c d : UInt8) :
    bytesOfChunk (chunkOfBytes [a, b, c, d]) = [a, b, c, d] := by
  have ha := a.toNat_lt
  have hb := b.toNat_lt
  have hc := c.toNat_lt
  have hd := d.toNat_lt
  simp only [chunkOfBytes, bytesOfChunk, List.cons.injEq, and_true]
  refine ⟨?_, ?_, ?_, ?_⟩ <;> apply UInt8.toNat_inj.mp <;>
    simp only [UInt32.toNat_toUInt8, UInt32.toNat_shiftRight, UInt32.toNat_ofNat',
      Nat.shiftRight_eq_div_pow, UInt32.toNat_ofNat, Nat.reduceMod, Nat.reducePow] at * <;> omega

namespace ChunkReader

/-- From `r` to `r'` the bytes are taken, and nothing else. -/
structure Took (r r' : ChunkReader) (bytes : List UInt8) : Prop where
  offset : r'.offset = r.offset + bytes.length
  ready : r.source.ready = bytes ++ r'.source.ready
  content : r.source.content = bytes ++ r'.source.content

theorem Took.nil (r : ChunkReader) : Took r r [] := ⟨rfl, rfl, rfl⟩

theorem Took.append {r r' r'' : ChunkReader} {bytes more : List UInt8} (first : Took r r' bytes)
    (second : Took r' r'' more) : Took r r'' (bytes ++ more) where
  offset := by rw [second.offset, first.offset, List.length_append, Nat.add_assoc]
  ready := by rw [first.ready, second.ready, List.append_assoc]
  content := by rw [first.content, second.content, List.append_assoc]

/-- `x` gives `a` wherever the bytes are ready, and takes just these. -/
def Accepts (x : Reading α) (bytes : List UInt8) (a : α) : Prop :=
  ∀ r rest, r.source.ready = bytes ++ rest → ∃ r', x r = (.ok a, r') ∧ Took r r' bytes

theorem Accepts.pure (a : α) : Accepts (Pure.pure a) [] a :=
  fun r _ _ => ⟨r, rfl, Took.nil r⟩

theorem Accepts.bind {x : Reading α} {f : α → Reading β} {bytes more : List UInt8} {a : α} {b : β}
    (first : Accepts x bytes a) (second : Accepts (f a) more b) :
    Accepts (x >>= f) (bytes ++ more) b := by
  intro r rest there
  obtain ⟨r', result, took⟩ := first r (more ++ rest) (by rw [there, List.append_assoc])
  have left : r'.source.ready = more ++ rest := by
    have same : bytes ++ r'.source.ready = bytes ++ (more ++ rest) := by
      rw [← took.ready, there, List.append_assoc]
    exact List.append_cancel_left same
  obtain ⟨r'', result', took'⟩ := second r' rest left
  refine ⟨r'', ?_, took.append took'⟩
  rw [Action.bind_apply, result]
  exact result'

theorem bytes?_accepts {bytes : List UInt8} {n : Nat} (length : bytes.length = n)
    (positive : 0 < n) :
    Accepts (bytes? n) bytes (some bytes) := by
  intro r rest there
  have enough : n ≤ r.source.ready.length := by rw [there, List.length_append]; omega
  obtain ⟨given, left, all⟩ := Source.gather_of_le_ready n r.source enough
  rw [there, ← length, List.take_left] at given all
  rw [there, ← length, List.drop_left] at left
  have nonempty : bytes.isEmpty = false := by
    cases bytes with
    | nil => simp at length; omega
    | cons => rfl
  refine ⟨⟨(r.source.gather bytes.length).2, r.offset + bytes.length⟩, ?_, rfl, ?_, all⟩
  · rw [bytes?, Action.bind_apply, gather, ← length]
    rcases hg : r.source.gather bytes.length with ⟨result, source⟩
    rw [hg] at given
    simp only at given
    subst given
    simp [nonempty]
  · rw [there, left]

theorem took_of_bytes? {n : Nat} {r r' : ChunkReader} {bytes : List UInt8}
    (h : bytes? n r = (.ok (some bytes), r')) : bytes.length = n ∧ Took r r' bytes := by
  rw [bytes?, Action.bind_apply, gather] at h
  have most := Source.length_gather_le n r.source
  have there := Source.length_le_ready n r.source
  have taken := Source.gather_of_le_ready n r.source
  rcases hg : r.source.gather n with ⟨⟨message⟩ | ⟨given⟩, source⟩ <;>
    rw [hg] at h most there taken
  · cases h
  · have most := most given rfl
    have there := there given rfl
    simp only at h
    split at h
    · cases h
    · split at h
      next short => cases h
      next full =>
        cases h
        obtain ⟨same, left, all⟩ := taken (by omega)
        simp only [Except.ok.injEq] at same left all
        subst same
        refine ⟨by omega, rfl, ?_, all⟩
        rw [left, List.take_append_drop]

theorem chunk?_accepts (c : UInt32) : Accepts chunk? (bytesOfChunk c) (some c) := by
  have given := (bytes?_accepts (length_bytesOfChunk c) (by decide)).bind
    (f := fun bytes => Pure.pure (bytes.map chunkOfBytes)) (Accepts.pure _)
  rwa [List.append_nil, Option.map_some, chunkOfBytes_bytesOfChunk] at given

theorem took_of_chunk? {r r' : ChunkReader} {c : UInt32} (h : chunk? r = (.ok (some c), r')) :
    Took r r' (bytesOfChunk c) := by
  rw [chunk?, Action.bind_apply] at h
  rcases hb : bytes? chunkSize r with ⟨⟨e⟩ | ⟨_ | bytes⟩, r''⟩ <;> rw [hb] at h <;> cases h
  obtain ⟨length, took⟩ := took_of_bytes? hb
  match bytes, length with
  | [a, b, c, d], _ => rwa [bytesOfChunk_chunkOfBytes]

theorem chunk_accepts (c : UInt32) : Accepts chunk (bytesOfChunk c) c := by
  intro r rest there
  obtain ⟨r', read, took⟩ := chunk?_accepts c r rest there
  refine ⟨r', ?_, took⟩
  rw [chunk, Action.bind_apply, read]
  rfl

theorem took_of_chunk {r r' : ChunkReader} {c : UInt32} (h : chunk r = (.ok c, r')) :
    Took r r' (bytesOfChunk c) := by
  rw [chunk, Action.bind_apply] at h
  rcases hc : chunk? r with ⟨⟨e⟩ | ⟨_ | c'⟩, r''⟩ <;> rw [hc] at h <;> cases h
  exact took_of_chunk? hc

theorem chunks_accepts (cs : List UInt32) :
    Accepts (chunks cs.length) (cs.flatMap bytesOfChunk) cs := by
  induction cs with
  | nil => exact Accepts.pure []
  | cons c cs ih =>
    have given := (chunk_accepts c).bind (f := fun c => do return c :: (← chunks cs.length))
      (ih.bind (Accepts.pure (c :: cs)))
    rwa [List.append_nil] at given

theorem took_of_chunks {n : Nat} {r r' : ChunkReader} {cs : List UInt32}
    (h : chunks n r = (.ok cs, r')) : cs.length = n ∧ Took r r' (cs.flatMap bytesOfChunk) := by
  induction n generalizing r cs with
  | zero => cases h; exact ⟨rfl, Took.nil _⟩
  | succ n ih =>
    rw [chunks, Action.bind_apply] at h
    rcases hc : chunk r with ⟨⟨e⟩ | ⟨c⟩, r₁⟩ <;> rw [hc] at h
    · cases h
    · simp only [Action.bind_apply] at h
      rcases hcs : chunks n r₁ with ⟨⟨e⟩ | ⟨cs'⟩, r₂⟩ <;> rw [hcs] at h <;> cases h
      obtain ⟨length, took⟩ := ih hcs
      exact ⟨by rw [List.length_cons, length], (took_of_chunk hc).append took⟩

end ChunkReader

end ChangeCapture
