import ChangeCapture.Proofs.Flow

/-! Where entries end for want of bytes. A source that has no byte left is at a clean end; one that has
a part of an entry left is truncated right behind that part, wherever the entry is cut. -/
namespace ChangeCapture

/-- The byte of an event that gives one. -/
def SourceEvent.byte? : SourceEvent → Option UInt8
  | .byte b => some b
  | _ => none

namespace Source

theorem content_flow (s : Source) : s.content = s.flow.filterMap SourceEvent.byte? := by
  induction s with
  | nil => rfl
  | cons part s ih =>
    cases part with
    | bytes bytes =>
      rw [content, flow, List.filterMap_append, ← ih, Flow.ofBytes, List.filterMap_map]
      exact congrArg (· ++ content s) List.filterMap_some.symm
    | pause => exact ih
    | interrupted => exact ih
    | failure => exact ih

/-- No read of the source fails. -/
def Unfailing (s : Source) : Prop := ∀ message, SourcePart.failure message ∉ s

theorem Unfailing.tail {part : SourcePart} {s : Source} (unfailing : Unfailing (part :: s)) :
    Unfailing s := fun message member => unfailing message (List.mem_cons_of_mem part member)

theorem Unfailing.gather {s : Source} (unfailing : s.Unfailing) (n : Nat) :
    (s.gather n).2.Unfailing := by
  fun_induction Source.gather n s with
  | case1 => exact unfailing
  | case2 => exact unfailing
  | case3 => exact unfailing.tail
  | case4 n rest ih => exact ih unfailing.tail
  | case5 => exact unfailing.tail
  | case6 n bytes rest fits more rest' taken ih =>
    rw [taken] at ih
    exact ih unfailing.tail
  | case7 n bytes rest more =>
    intro message member
    rcases List.mem_cons.mp member with same | member
    · cases same
    · exact unfailing.tail message member

theorem gather_of_ready_lt {s : Source} (unfailing : s.Unfailing) {n : Nat}
    (short : s.ready.length < n) : (s.gather n).1 = .ok s.ready := by
  fun_induction Source.gather n s with
  | case1 => cases short
  | case2 => rfl
  | case3 => rfl
  | case4 n rest ih => exact ih unfailing.tail short
  | case5 n message rest => exact absurd List.mem_cons_self (unfailing message)
  | case6 n bytes rest fits more rest' taken ih =>
    rw [ready, List.length_append] at short
    have given := ih unfailing.tail (by omega)
    rw [taken] at given
    obtain rfl : more = _ := given
    rfl
  | case7 n bytes rest more =>
    rw [ready, List.length_append] at short
    omega

theorem ready_eq_content {s : Source} (unfailing : s.Unfailing) (steady : .pause ∉ s) :
    s.ready = s.content := by
  fun_induction Source.ready s with
  | case1 bytes rest ih =>
    rw [content, ih unfailing.tail fun member => steady (List.mem_cons_of_mem _ member)]
  | case2 rest ih => exact ih unfailing.tail fun member => steady (List.mem_cons_of_mem _ member)
  | case3 s other more =>
    rcases s with _ | ⟨_ | _ | _ | message, rest⟩
    · rfl
    · exact absurd rfl (other _ _)
    · exact absurd List.mem_cons_self steady
    · exact absurd rfl (more _)
    · exact absurd List.mem_cons_self (unfailing message)

end Source

namespace ChunkReader

open ChangeCapture.Action Entry

theorem level_unfailing : Level fun r r' => r = r' ∧ r.source.Unfailing where
  offset related := congrArg ChunkReader.offset related.1
  gather n r r' related := by
    obtain ⟨rfl, unfailing⟩ := related
    have left := unfailing.gather n
    refine ⟨rfl, rfl, ?_⟩
    unfold ChunkReader.gather
    generalize r.source.gather n = x at left
    rcases x with ⟨_ | _, source⟩ <;> exact left

/-- Where a part of the bytes is all that is ready, `x` runs out right behind it. -/
def Cuts (x : Reading α) (bytes : List UInt8) : Prop :=
  ∀ (r : ChunkReader) (missing : List UInt8), r.source.Unfailing → missing ≠ [] →
    bytes = r.source.ready ++ missing →
    (x r).1 = .error (.truncated (r.offset + r.source.ready.length))

theorem Cuts.nil (x : Reading α) : Cuts x [] := fun _ _ _ lacks cut =>
  absurd (List.append_eq_nil_iff.mp cut.symm).2 lacks

theorem Cuts.first {x : Reading α} {f : α → Reading β} {bytes : List UInt8} (cuts : Cuts x bytes) :
    Cuts (x >>= f) bytes := by
  intro r missing unfailing lacks cut
  have truncated := cuts r missing unfailing lacks cut
  rw [bind_apply]
  generalize x r = y at truncated
  obtain ⟨_, r'⟩ := y
  cases truncated
  rfl

/-- Where all bytes of the first step are ready, the second one runs out. -/
theorem cuts_behind {x : Reading α} {f : α → Reading β} {bytes more missing : List UInt8} {a : α}
    {r : ChunkReader} (accepts : Accepts x bytes a)
    (keeps : Similar (fun r r' => r = r' ∧ r.source.Unfailing) x x) (rest : Cuts (f a) more)
    (unfailing : r.source.Unfailing) (lacks : missing ≠ [])
    (cut : bytes ++ more = r.source.ready ++ missing) (enough : bytes <+: r.source.ready) :
    ((x >>= f) r).1 = .error (.truncated (r.offset + r.source.ready.length)) := by
  obtain ⟨beyond, there⟩ := enough
  rw [← there, List.append_assoc] at cut
  obtain ⟨r', result, took⟩ := accepts r beyond there.symm
  have ready : r'.source.ready = beyond :=
    List.append_cancel_left (took.ready.symm.trans there.symm)
  have unfailing' : r'.source.Unfailing := by
    have kept := (keeps r r ⟨rfl, unfailing⟩).2.2
    rwa [result] at kept
  have truncated := rest r' missing unfailing' lacks (ready ▸ List.append_cancel_left cut)
  rw [bind_apply, result]
  show (f a r').1 = _
  rw [truncated, took.offset, took.ready, List.length_append, Nat.add_assoc]

/-- Otherwise the first one does. -/
theorem exists_short {bytes more ready missing : List UInt8} (cut : bytes ++ more = ready ++ missing)
    (few : ¬ bytes <+: ready) : ∃ short ≠ [], bytes = ready ++ short := by
  rcases List.append_eq_append_iff.mp cut with ⟨beyond, there, -⟩ | ⟨short, whole, -⟩
  · exact absurd ⟨beyond, there.symm⟩ few
  · refine ⟨short, fun empty => few ⟨[], ?_⟩, whole⟩
    rw [whole, empty, List.append_nil, List.append_nil]

theorem Cuts.bind {x : Reading α} {f : α → Reading β} {bytes more : List UInt8} {a : α}
    (cuts : Cuts x bytes) (accepts : Accepts x bytes a)
    (keeps : Similar (fun r r' => r = r' ∧ r.source.Unfailing) x x) (rest : Cuts (f a) more) :
    Cuts (x >>= f) (bytes ++ more) := by
  intro r missing unfailing lacks cut
  by_cases enough : bytes <+: r.source.ready
  · exact cuts_behind accepts keeps rest unfailing lacks cut enough
  · obtain ⟨short, lacks, whole⟩ := exists_short cut enough
    exact cuts.first r short unfailing lacks whole

theorem chunk?_of_ready_lt {r : ChunkReader} (unfailing : r.source.Unfailing)
    (short : r.source.ready.length < chunkSize) : (chunk? r).2.offset = r.offset + r.source.ready.length ∧
      (chunk? r).1 = if r.source.ready = [] then .ok none
        else .error (.truncated (r.offset + r.source.ready.length)) := by
  have given := Source.gather_of_ready_lt unfailing short
  rcases gathered : r.source.gather chunkSize with ⟨_, source⟩
  rw [gathered] at given
  obtain rfl : _ = Except.ok r.source.ready := given
  rw [chunk?, bind_apply, bytes?, bind_apply, gather, gathered]
  dsimp only
  generalize r.source.ready = bytes at short
  cases bytes with
  | nil => exact ⟨rfl, rfl⟩
  | cons b bytes =>
    rw [if_neg (by simp), if_pos short]
    exact ⟨rfl, rfl⟩

theorem ready_lt_of_cut {r : ChunkReader} {c : UInt32} {missing : List UInt8} (lacks : missing ≠ [])
    (cut : bytesOfChunk c = r.source.ready ++ missing) : r.source.ready.length < chunkSize := by
  have length := congrArg List.length cut
  have positive := List.length_pos_iff.mpr lacks
  rw [length_bytesOfChunk, List.length_append] at length
  omega

theorem chunk_cuts (c : UInt32) : Cuts chunk (bytesOfChunk c) := by
  intro r missing unfailing lacks cut
  obtain ⟨offset, result⟩ := chunk?_of_ready_lt unfailing (ready_lt_of_cut lacks cut)
  rw [chunk, bind_apply]
  generalize chunk? r = y at offset result
  obtain ⟨_, r'⟩ := y
  obtain rfl : _ = _ := result
  dsimp only at offset
  split
  next found =>
    split at found <;> cases found
    exact congrArg (fun n => Except.error (Failure.truncated n)) offset
  next failed =>
    split at failed <;> cases failed
    rfl

theorem chunks_cuts (cs : List UInt32) : Cuts (chunks cs.length) (cs.flatMap bytesOfChunk) := by
  induction cs with
  | nil => exact .nil _
  | cons c cs ih =>
    rw [List.flatMap_cons]
    exact (chunk_cuts c).bind (chunk_accepts c) level_unfailing.chunk ih.first

theorem tags_cuts (offset seq : Nat) (known : Registry TagType (List Tag))
    (tags : List (UInt32 × List UInt32)) (fits : chunkCount tags < 2 ^ 32) :
    Cuts (ChunkReader.tags offset seq (chunkCount tags) known) (tagBytes tags) := by
  induction tags generalizing seq known with
  | nil => exact .nil _
  | cons t tags ih =>
    have header : tagHeader = 2 := rfl
    rw [chunkCount_cons] at fits ⊢
    have length : (UInt32.ofNat (tagHeader + t.2.length)).toNat = tagHeader + t.2.length :=
      toNat_length (by omega)
    rw [ChunkReader.tags, if_neg (by omega), if_neg (by omega), tagBytes_cons]
    refine (chunk_cuts _).bind (chunk_accepts _) level_unfailing.chunk ?_
    refine (chunk_cuts _).bind (chunk_accepts _) level_unfailing.chunk ?_
    rw [dif_pos (by omega), length, Nat.add_sub_cancel_left, Nat.add_sub_cancel_left]
    exact (chunks_cuts t.2).bind (chunks_accepts t.2) (level_unfailing.chunks _)
      (ih (seq + 1) (addTag known ⟨t.1, t.2, seq⟩) (by omega))

theorem entryBody_cuts (start : Nat) (major subtype : UInt32)
    (tags : List (UInt32 × List UInt32)) (fits : lengthOf tags < 2 ^ 32)
    (footer : major = 0 ∧ subtype = 1 → tags = []) :
    Cuts (entryBody start (lengthOf tags))
      (bytesOfChunk major ++ (bytesOfChunk subtype ++ tagBytes tags)) := by
  have header : lengthOf tags = entryHeader + chunkCount tags := rfl
  rw [entryBody, if_neg (by omega)]
  refine (chunk_cuts major).bind (chunk_accepts major) level_unfailing.chunk ?_
  refine (chunk_cuts subtype).bind (chunk_accepts subtype) level_unfailing.chunk ?_
  rw [if_neg]
  · rw [header, Nat.add_sub_cancel_left]
    exact (tags_cuts start 0 ∅ tags (by omega)).first
  · rintro ⟨control, last, long⟩
    apply long
    rw [footer ⟨control, last⟩]
    rfl

theorem next_closed_iff {r : ChunkReader} (unfailing : r.source.Unfailing) :
    (next r).1 = .error .streamClosed ↔ r.source.ready = [] := by
  constructor
  · intro closed
    obtain ⟨-, ends⟩ := next_closed (Prod.ext closed rfl : next r = (_, (next r).2))
    rw [Source.ready_flow]
    rcases ends with ⟨ended, -⟩ | pause
    · rw [ended]
      rfl
    · rw [pause]
      rfl
  · intro empty
    obtain ⟨-, result⟩ := chunk?_of_ready_lt unfailing (by rw [empty]; decide)
    rw [if_pos empty] at result
    rw [next_eq]
    generalize chunk? r = y at result
    obtain ⟨_, r'⟩ := y
    cases result
    rfl

theorem next_closed_frame {r : ChunkReader} (closed : (next r).1 = .error .streamClosed) :
    (next r).2.offset = r.offset ∧ (next r).2.source.content = r.source.content := by
  obtain ⟨offset, ends⟩ := next_closed (Prod.ext closed rfl : next r = (_, (next r).2))
  refine ⟨offset, ?_⟩
  rw [Source.content_flow, Source.content_flow]
  rcases ends with ⟨ended, ended'⟩ | pause
  · rw [ended, ended']
  · rw [pause, List.filterMap_cons_none rfl]

theorem next_truncated {major subtype : UInt32} {tags : List (UInt32 × List UInt32)}
    {r : ChunkReader} {missing : List UInt8} (unfailing : r.source.Unfailing)
    (fits : lengthOf tags < 2 ^ 32) (footer : major = 0 ∧ subtype = 1 → tags = [])
    (begun : r.source.ready ≠ []) (lacks : missing ≠ [])
    (cut : encode major subtype tags = r.source.ready ++ missing) :
    (next r).1 = .error (.truncated (r.offset + r.source.ready.length)) := by
  rw [encode_eq] at cut
  by_cases enough : bytesOfChunk (UInt32.ofNat (lengthOf tags)) <+: r.source.ready
  · have body := entryBody_cuts r.offset major subtype tags fits footer
    rw [← toNat_length fits] at body
    rw [next, bind_apply]
    exact cuts_behind (chunk?_accepts _) level_unfailing.chunk? body unfailing lacks cut enough
  · obtain ⟨short, lacks, whole⟩ := exists_short cut enough
    obtain ⟨-, result⟩ := chunk?_of_ready_lt unfailing (ready_lt_of_cut lacks whole)
    rw [if_neg begun] at result
    rw [next_eq]
    generalize chunk? r = y at result
    obtain ⟨_, r'⟩ := y
    cases result
    rfl

/-- Where no read fails, the stream is closed just where no byte is left before the source ends or
pauses; no byte is taken then. Where a part of an entry is left, however short and wherever it is
cut, the source is truncated right behind that part. -/
theorem next_at_end :
    (∀ r : ChunkReader, r.source.Unfailing →
      ((next r).1 = .error .streamClosed ↔ r.source.ready = []) ∧
      ((next r).1 = .error .streamClosed →
        (next r).2.offset = r.offset ∧ (next r).2.source.content = r.source.content) ∧
      (.pause ∉ r.source → r.source.ready = r.source.content)) ∧
    ∀ (major subtype : UInt32) (tags : List (UInt32 × List UInt32)) (r : ChunkReader)
      (missing : List UInt8), r.source.Unfailing → lengthOf tags < 2 ^ 32 →
      (major = 0 ∧ subtype = 1 → tags = []) → r.source.ready ≠ [] → missing ≠ [] →
      encode major subtype tags = r.source.ready ++ missing →
      (next r).1 = .error (.truncated (r.offset + r.source.ready.length)) :=
  ⟨fun _ unfailing => ⟨next_closed_iff unfailing, next_closed_frame,
    Source.ready_eq_content unfailing⟩,
    fun _ _ _ _ _ => next_truncated⟩

/-- An entry that is cut within the payload of its second tag, in a source with an interrupted read,
and a source that has nothing but a pause left. -/
theorem next_at_end_payload :
    let form := encode 2 1 [(0x0100, [5]), (0x0301, [2, 0x4449])]
    let r : ChunkReader := ⟨[.bytes (form.take 5), .interrupted, .bytes ((form.drop 5).take 32)], 16⟩
    let done : ChunkReader := ⟨[.pause, .bytes form], 16⟩
    form.length = 40 ∧ (next r).1 = .error (.truncated 53) ∧
      (next done).1 = .error .streamClosed ∧ (next done).2.offset = 16 ∧
      (next done).2.source.content = form := by
  intro form r done
  have unfailing : r.source.Unfailing := fun message => by simp [r]
  have closed := (next_at_end.1 done fun message => by simp [done]).1.mpr rfl
  obtain ⟨offset, content⟩ := (next_at_end.1 done fun message => by simp [done]).2.1 closed
  exact ⟨rfl, next_at_end.2 2 1 [(0x0100, [5]), (0x0301, [2, 0x4449])] r (form.drop 37) unfailing
    (by decide) nofun (by decide) (by decide) (by decide), closed, offset, content⟩

end ChunkReader

end ChangeCapture
