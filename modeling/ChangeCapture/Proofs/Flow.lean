import ChangeCapture.Proofs.Fatal
import ChangeCapture.Proofs.Framing

/-! What reads can tell of a source: its bytes, pauses and failures in order, and neither how the bytes
are cut into parts nor where a read was interrupted. Readers that stand before one flow read alike, and
what an entry was read from is all that was taken out of it. -/
namespace ChangeCapture

/-- What a read meets. -/
inductive SourceEvent where
  | byte (byte : UInt8)
  | pause
  | failure (message : String)
deriving DecidableEq, Repr

abbrev Flow := List SourceEvent

namespace Flow

def ofBytes (bytes : List UInt8) : Flow := bytes.map .byte

theorem ofBytes_append (bytes more : List UInt8) :
    ofBytes (bytes ++ more) = ofBytes bytes ++ ofBytes more := List.map_append

/-- At most a number of bytes, up to the next pause or failure. -/
def gather : Nat → Flow → Except String (List UInt8) × Flow
  | 0, f => (.ok [], f)
  | _ + 1, [] => (.ok [], [])
  | _ + 1, .pause :: f => (.ok [], f)
  | _ + 1, .failure message :: f => (.error message, f)
  | n + 1, .byte b :: f =>
    let (more, f) := gather n f
    (more.map (b :: ·), f)

theorem gather_ofBytes (n : Nat) (bytes : List UInt8) (f : Flow) (fits : bytes.length ≤ n) :
    gather n (ofBytes bytes ++ f) =
      ((gather (n - bytes.length) f).1.map (bytes ++ ·), (gather (n - bytes.length) f).2) := by
  induction bytes generalizing n with
  | nil => cases hg : (gather n f).1 <;> simp [ofBytes, Except.map, hg, Prod.ext_iff]
  | cons b bytes ih =>
    obtain ⟨m, rfl⟩ : ∃ m, n = m + 1 := ⟨n - 1, by simp at fits; omega⟩
    have rest := ih m (by simpa using fits)
    simp only [ofBytes, List.map_cons, List.cons_append, gather, List.length_cons,
      Nat.add_sub_add_right] at rest ⊢
    rw [rest]
    cases (gather (m - bytes.length) f).1 <;> rfl

theorem gather_ofBytes_short (bytes : List UInt8) (n : Nat) (f : Flow) (more : n < bytes.length) :
    gather n (ofBytes bytes ++ f) = (.ok (bytes.take n), ofBytes (bytes.drop n) ++ f) := by
  have split : ofBytes bytes ++ f = ofBytes (bytes.take n) ++ (ofBytes (bytes.drop n) ++ f) := by
    rw [← List.append_assoc, ← ofBytes_append, List.take_append_drop]
  have length : (bytes.take n).length = n := List.length_take_of_le (Nat.le_of_lt more)
  rw [split, gather_ofBytes n _ _ (Nat.le_of_eq length), length, Nat.sub_self]
  simp [gather, Except.map]

theorem gather_ofBytes_within (bytes : List UInt8) (n : Nat) (f : Flow) (there : n ≤ bytes.length) :
    gather n (ofBytes bytes ++ f) = (.ok (bytes.take n), ofBytes (bytes.drop n) ++ f) := by
  rcases Nat.lt_or_eq_of_le there with more | rfl
  · exact gather_ofBytes_short bytes n f more
  · rw [gather_ofBytes _ _ _ (Nat.le_refl _), Nat.sub_self, List.take_length, List.drop_length]
    simp [gather, Except.map, ofBytes]

theorem gather_full {n : Nat} {f : Flow} {bytes : List UInt8} {rest : Flow}
    (given : gather n f = (.ok bytes, rest)) (full : bytes.length = n) :
    f = ofBytes bytes ++ rest := by
  fun_induction gather n f generalizing bytes rest with
  | case1 => cases given; rfl
  | case2 => cases given; cases full
  | case3 => cases given; cases full
  | case4 => cases given
  | case5 n b f more rest' taken ih =>
    rcases more with _ | more <;> cases given
    rw [ih taken (by simpa using full)]
    rfl

end Flow

namespace Flow

/-- Bytes up to the next pause or failure. -/
def ready : Flow → List UInt8
  | .byte b :: f => b :: ready f
  | _ => []

theorem ready_ofBytes (bytes : List UInt8) (f : Flow) :
    ready (ofBytes bytes ++ f) = bytes ++ ready f := by
  induction bytes with
  | nil => rfl
  | cons b bytes ih => exact congrArg (b :: ·) ih

end Flow

namespace Source

def flow : Source → Flow
  | [] => []
  | .bytes bytes :: rest => Flow.ofBytes bytes ++ flow rest
  | .pause :: rest => .pause :: flow rest
  | .interrupted :: rest => flow rest
  | .failure message :: rest => .failure message :: flow rest

theorem ready_flow (s : Source) : s.ready = s.flow.ready := by
  fun_induction ready s with
  | case1 bytes rest ih => rw [flow, Flow.ready_ofBytes, ih]
  | case2 rest ih => exact ih
  | case3 s other more =>
    rcases s with _ | ⟨_ | _ | _ | _, rest⟩ <;> first | rfl | simp at other more

/-- Taking bytes out of a source takes them out of its flow. -/
theorem gather_flow (n : Nat) (s : Source) :
    ((gather n s).1, (gather n s).2.flow) = Flow.gather n s.flow := by
  fun_induction gather n s with
  | case1 s => rw [Flow.gather]
  | case2 => rfl
  | case3 => rfl
  | case4 n rest ih => exact ih
  | case5 => rfl
  | case6 n bytes rest fits more rest' taken ih =>
    rw [taken] at ih
    rw [flow, Flow.gather_ofBytes _ _ _ fits, ← ih]
  | case7 n bytes rest more =>
    show _ = Flow.gather (n + 1) (Flow.ofBytes bytes ++ flow rest)
    rw [Flow.gather_ofBytes_short _ _ _ (Nat.lt_of_not_le more)]
    rfl

theorem gather_nothing {n : Nat} {s rest : Source} (given : gather (n + 1) s = (.ok [], rest)) :
    s.flow = [] ∧ rest.flow = [] ∨ s.flow = .pause :: rest.flow := by
  have flows := gather_flow (n + 1) s
  rw [given] at flows
  rcases hs : s.flow with _ | ⟨⟨_⟩ | _ | _, f⟩ <;> rw [hs] at flows
  · exact .inl ⟨rfl, (Prod.mk.inj flows).2⟩
  · rw [Flow.gather] at flows
    rcases hg : Flow.gather n f with ⟨⟨_⟩ | ⟨more⟩, f'⟩ <;> rw [hg] at flows <;> cases flows
  · exact .inr (congrArg _ (Prod.mk.inj flows).2.symm)
  · cases flows

end Source

namespace ChunkReader

open ChangeCapture.Action

/-- Related readers have come equally far, gather the same bytes, and are related after that. -/
structure Level (R : ChunkReader → ChunkReader → Prop) : Prop where
  offset : ∀ {r r'}, R r r' → r.offset = r'.offset
  gather : ∀ n, Similar R (gather n) (gather n)

namespace Level

variable {R : ChunkReader → ChunkReader → Prop} (level : Level R)

include level

theorem truncated : Similar R (truncated : Reading α) truncated := fun _ _ related =>
  ⟨congrArg (fun n => Except.error (Failure.truncated n)) (level.offset related), related⟩

theorem bytes? (n : Nat) : Similar R (bytes? n) (bytes? n) :=
  (level.gather n).bind fun bytes => by
    split
    · exact .pure _
    · split
      · exact level.truncated
      · exact .pure _

theorem chunk? : Similar R chunk? chunk? :=
  (level.bytes? _).bind fun _ => .pure _

theorem chunk : Similar R chunk chunk :=
  level.chunk?.bind fun c => by
    cases c
    · exact level.truncated
    · exact .pure _

theorem chunks (n : Nat) : Similar R (chunks n) (chunks n) := by
  induction n with
  | zero => exact .pure _
  | succ n ih => exact level.chunk.bind fun _ => ih.bind fun _ => .pure _

theorem tags (offset seq remaining : Nat) (known : Registry TagType (List Tag)) :
    Similar R (tags offset seq remaining known) (tags offset seq remaining known) := by
  induction remaining using Nat.strongRecOn generalizing seq known with
  | ind remaining ih =>
    rw [ChunkReader.tags]
    split
    · exact .pure _
    · split
      · exact .throw _
      · refine level.chunk.bind fun length => level.chunk.bind fun id => ?_
        split
        next fits =>
          have : tagHeader = 2 := rfl
          exact (level.chunks _).bind fun _ => ih _ (by omega) _ _
        · exact .throw _

theorem entryBody (offset length : Nat) :
    Similar R (entryBody offset length) (entryBody offset length) := by
  unfold ChunkReader.entryBody
  split
  · exact .throw _
  · refine level.chunk.bind fun _ => level.chunk.bind fun _ => ?_
    split
    · exact .throw _
    · exact Similar.bind (level.tags _ _ _ _) fun _ => .pure _

theorem next : Similar R next next := by
  refine .read fun r r' related => ?_
  rw [level.offset related]
  refine level.chunk?.bind fun c => ?_
  cases c with
  | none => exact .throw _
  | some length => exact level.entryBody _ _

theorem fileHeader : Similar R fileHeader fileHeader := by
  refine (level.bytes? _).bind fun found => ?_
  cases found with
  | none => exact level.truncated
  | some found =>
    dsimp only
    split
    · exact .throw _
    · refine level.chunk.bind fun _ => level.chunk.bind fun _ => ?_
      split
      · exact .throw _
      · exact .pure _

end Level

theorem level_beyond (least : Nat) : Level fun r r' => r = r' ∧ least ≤ r.offset where
  offset related := congrArg ChunkReader.offset related.1
  gather n r r' related := by
    obtain ⟨rfl, far⟩ := related
    refine ⟨rfl, rfl, ?_⟩
    unfold ChunkReader.gather
    split
    · exact far
    · exact Nat.le_add_right_of_le far

theorem offset_le_next (r : ChunkReader) : r.offset ≤ (next r).2.offset :=
  ((level_beyond r.offset).next r r ⟨rfl, Nat.le_refl _⟩).2.2

/-- Readers that have come equally far before one flow. -/
structure Alike (r r' : ChunkReader) : Prop where
  offset : r.offset = r'.offset
  flow : r.source.flow = r'.source.flow

theorem similar_gather (n : Nat) : Similar Alike (gather n) (gather n) := by
  intro r r' alike
  have flows := Source.gather_flow n r.source
  have flows' := Source.gather_flow n r'.source
  rw [← alike.flow] at flows'
  have same := flows.trans flows'.symm
  unfold gather
  generalize r.source.gather n = x at same
  generalize r'.source.gather n = y at same
  obtain ⟨result, _⟩ := x
  obtain ⟨_, _⟩ := y
  obtain ⟨rfl, left⟩ := Prod.mk.inj same
  cases result with
  | error => exact ⟨rfl, alike.offset, left⟩
  | ok bytes => exact ⟨rfl, congrArg (· + _) alike.offset, left⟩

theorem level_alike : Level Alike := ⟨Alike.offset, similar_gather⟩

/-- What succeeds has taken a number of bytes from the front of the flow, and nothing else. -/
def Takes (n : Nat) (x : Reading α) : Prop :=
  ∀ r r' a, x r = (.ok a, r') → r'.offset = r.offset + n ∧ ∃ bytes : List UInt8,
    bytes.length = n ∧ r.source.flow = Flow.ofBytes bytes ++ r'.source.flow

theorem takes_pure (a : α) : Takes 0 (pure a) := by
  intro r r' _ done
  cases done
  exact ⟨rfl, [], rfl, rfl⟩

theorem takes_throw (n : Nat) (f : Failure) : Takes n (throw f : Reading α) :=
  fun _ _ _ done => by cases done

theorem takes_bind {n m : Nat} {x : Reading α} {f : α → Reading β} (first : Takes n x)
    (rest : ∀ a, Takes m (f a)) : Takes (n + m) (x >>= f) := by
  intro r r'' b done
  rw [bind_apply] at done
  rcases taken : x r with ⟨_ | a, r'⟩ <;> rw [taken] at done
  · cases done
  obtain ⟨offset, bytes, rfl, flow⟩ := first _ _ _ taken
  obtain ⟨offset', more, rfl, flow'⟩ := rest a _ _ _ done
  refine ⟨by rw [offset', offset, Nat.add_assoc], bytes ++ more, List.length_append, ?_⟩
  rw [flow, flow', Flow.ofBytes_append, List.append_assoc]

theorem takes_last {n : Nat} {x : Reading α} {f : α → Reading β} (first : Takes n x)
    (rest : ∀ a, Takes 0 (f a)) : Takes n (x >>= f) := takes_bind first rest

theorem flow_of_bytes? {n : Nat} {r r' : ChunkReader} {bytes : List UInt8}
    (done : bytes? n r = (.ok (some bytes), r')) :
    r.source.flow = Flow.ofBytes bytes ++ r'.source.flow := by
  obtain ⟨length, -⟩ := took_of_bytes? done
  have flows := Source.gather_flow n r.source
  rw [bytes?, bind_apply, gather] at done
  rcases hg : r.source.gather n with ⟨_ | given, source⟩ <;> rw [hg] at done flows
  · cases done
  dsimp only at done
  split at done
  · cases done
  · split at done <;> cases done
    exact Flow.gather_full flows.symm length

theorem takes_of_bytes? {n : Nat} {r r' : ChunkReader} {bytes : List UInt8}
    (done : bytes? n r = (.ok (some bytes), r')) : r'.offset = r.offset + n ∧
      ∃ bytes : List UInt8, bytes.length = n ∧
        r.source.flow = Flow.ofBytes bytes ++ r'.source.flow := by
  obtain ⟨length, took⟩ := took_of_bytes? done
  exact ⟨by rw [took.offset, length], bytes, length, flow_of_bytes? done⟩

theorem bytes?_of_chunk? {r r' : ChunkReader} {c : UInt32} (done : chunk? r = (.ok (some c), r')) :
    ∃ bytes, bytes? chunkSize r = (.ok (some bytes), r') := by
  rw [chunk?, bind_apply] at done
  rcases hb : bytes? chunkSize r with ⟨_ | _ | bytes, r₂⟩ <;> rw [hb] at done <;> cases done
  exact ⟨bytes, rfl⟩

theorem takes_chunk : Takes chunkSize chunk := by
  intro r r' c done
  rw [chunk, bind_apply] at done
  rcases hc : chunk? r with ⟨_ | _ | c', r₁⟩ <;> rw [hc] at done <;> cases done
  exact takes_of_bytes? (bytes?_of_chunk? hc).choose_spec

theorem takes_chunks (n : Nat) : Takes (chunkSize * n) (chunks n) := by
  induction n with
  | zero => exact takes_pure _
  | succ n ih =>
    rw [Nat.mul_succ, Nat.add_comm]
    exact takes_bind takes_chunk fun _ => takes_last ih fun _ => takes_pure _

theorem takes_tags (offset seq remaining : Nat) (known : Registry TagType (List Tag)) :
    Takes (chunkSize * remaining) (tags offset seq remaining known) := by
  induction remaining using Nat.strongRecOn generalizing seq known with
  | ind remaining ih =>
    rw [tags]
    split
    next none =>
      rw [none]
      exact takes_pure _
    split
    · exact takes_throw _ _
    next some =>
      have two : tagHeader = 2 := rfl
      have split : chunkSize * remaining =
          chunkSize + (chunkSize + chunkSize * (remaining - tagHeader)) := by
        simp only [chunkSize]
        omega
      rw [split]
      refine takes_bind takes_chunk fun length => takes_bind takes_chunk fun id => ?_
      split
      next fits =>
        have parts : chunkSize * (remaining - tagHeader) =
            chunkSize * (length.toNat - tagHeader) + chunkSize * (remaining - length.toNat) := by
          simp only [chunkSize]
          omega
        rw [parts]
        exact takes_bind (takes_chunks _) fun _ => ih _ (by omega) _ _
      · exact takes_throw _ _

theorem takes_entryBody (offset length : Nat) :
    Takes (chunkSize * (length - 1)) (entryBody offset length) := by
  unfold entryBody
  split
  · exact takes_throw _ _
  next long =>
    have three : entryHeader = 3 := rfl
    have split : chunkSize * (length - 1) =
        chunkSize + (chunkSize + chunkSize * (length - entryHeader)) := by
      simp only [chunkSize]
      omega
    rw [split]
    refine takes_bind takes_chunk fun _ => takes_bind takes_chunk fun _ => ?_
    split
    · exact takes_throw _ _
    · exact takes_last (takes_tags _ _ _ _) fun _ => takes_pure _

/-- The size of the head of a file. -/
def headerSize : Nat := signature.length + (chunkSize + chunkSize)

theorem takes_fileHeader : Takes headerSize fileHeader := by
  intro r r' h done
  have rest : Takes (chunkSize + chunkSize) (do
      let major := (← chunk).toNat
      let minor := (← chunk).toNat
      if major ≠ supportedMajor then throw (.unsupportedVersion major minor)
      else return ⟨major, minor⟩ : Reading FileHeader) :=
    takes_bind takes_chunk fun _ => takes_last takes_chunk fun _ => by
      split
      · exact takes_throw _ _
      · exact takes_pure _
  rw [fileHeader, bind_apply] at done
  rcases hb : bytes? signature.length r with ⟨_ | _ | found, m⟩ <;> rw [hb] at done
  · cases done
  · cases done
  dsimp only at done
  split at done
  · cases done
  obtain ⟨offset, first, length, flow⟩ := takes_of_bytes? hb
  obtain ⟨offset', more, length', flow'⟩ := rest _ _ _ done
  refine ⟨?_, first ++ more, ?_, ?_⟩
  · rw [offset', offset, headerSize, Nat.add_assoc]
  · rw [List.length_append, length, length', headerSize]
  · rw [flow, flow', Flow.ofBytes_append, List.append_assoc]

/-- Reading an entry takes bytes from the front of the flow, and moves the offset by so many. -/
theorem takes_next {r r' : ChunkReader} {e : Entry} (done : next r = (.ok e, r')) :
    ∃ bytes : List UInt8, r'.offset = r.offset + bytes.length ∧
      r.source.flow = Flow.ofBytes bytes ++ r'.source.flow := by
  rw [next_eq] at done
  rcases hc : chunk? r with ⟨_ | _ | length, m⟩ <;> rw [hc] at done
  · cases done
  · cases done
  obtain ⟨offset, first, size, flow⟩ := takes_of_bytes? (bytes?_of_chunk? hc).choose_spec
  obtain ⟨offset', more, size', flow'⟩ := takes_entryBody _ _ _ _ _ done
  refine ⟨first ++ more, ?_, ?_⟩
  · rw [offset', offset, List.length_append, size, size', Nat.add_assoc]
  · rw [flow, flow', Flow.ofBytes_append, List.append_assoc]

/-- Readers that have come equally far before the same bytes, whatever comes after those. -/
structure Before (bytes : List UInt8) (f f' : Flow) (r r' : ChunkReader) : Prop where
  offset : r.offset = r'.offset
  flow : r.source.flow = Flow.ofBytes bytes ++ f
  flow' : r'.source.flow = Flow.ofBytes bytes ++ f'

/-- Depends on no more than a number of bytes, where these are there. -/
def Within (n : Nat) (x : Reading α) : Prop :=
  ∀ bytes f f' r r', n ≤ bytes.length → Before bytes f f' r r' →
    (x r).1 = (x r').1 ∧ ∃ k, k ≤ n ∧ (x r).2.offset = r.offset + k ∧
      Before (bytes.drop k) f f' (x r).2 (x r').2

theorem Within.mono {n m : Nat} {x : Reading α} (within : Within n x) (le : n ≤ m) :
    Within m x := by
  intro bytes f f' r r' there before
  obtain ⟨same, k, most, offset, left⟩ := within _ _ _ _ _ (Nat.le_trans le there) before
  exact ⟨same, k, Nat.le_trans most le, offset, left⟩

theorem within_pure (a : α) : Within 0 (pure a) :=
  fun _ _ _ _ _ _ before => ⟨rfl, 0, Nat.le_refl _, rfl, before⟩

theorem within_throw (n : Nat) (f : Failure) : Within n (throw f : Reading α) :=
  fun _ _ _ _ _ _ before => ⟨rfl, 0, Nat.zero_le _, rfl, before⟩

theorem within_truncated : Within 0 (truncated : Reading α) := fun _ _ _ _ _ _ before =>
  ⟨congrArg (fun n => Except.error (Failure.truncated n)) before.offset, 0, Nat.le_refl _, rfl,
    before⟩

theorem within_bind {n m : Nat} {x : Reading α} {f : α → Reading β} (first : Within n x)
    (rest : ∀ a, Within m (f a)) : Within (n + m) (x >>= f) := by
  intro bytes g g' r r' there before
  obtain ⟨same, k, most, offset, left⟩ := first _ _ _ _ _ (by omega) before
  rw [bind_apply, bind_apply]
  rcases hx : x r with ⟨result, s⟩
  rcases hx' : x r' with ⟨result', s'⟩
  rw [hx, hx'] at same left
  rw [hx] at offset
  obtain rfl : result = result' := same
  cases result with
  | error f => exact ⟨rfl, k, by omega, offset, left⟩
  | ok a =>
    have enough : m ≤ (bytes.drop k).length := by rw [List.length_drop]; omega
    obtain ⟨same', k', most', offset', left'⟩ := rest a _ _ _ _ _ enough left
    rw [List.drop_drop] at left'
    exact ⟨same', k + k', by omega, by rw [offset', offset, Nat.add_assoc], left'⟩

theorem within_last {n : Nat} {x : Reading α} {f : α → Reading β} (first : Within n x)
    (rest : ∀ a, Within 0 (f a)) : Within n (x >>= f) := within_bind first rest

theorem within_gather (n : Nat) : Within n (gather n) := by
  intro bytes f f' r r' there before
  have given (g : Flow) (s : ChunkReader) (flow : s.source.flow = Flow.ofBytes bytes ++ g) :
      (gather n s).1 = .ok (bytes.take n) ∧ (gather n s).2.offset = s.offset + n ∧
        (gather n s).2.source.flow = Flow.ofBytes (bytes.drop n) ++ g := by
    have flows := Source.gather_flow n s.source
    rw [flow, Flow.gather_ofBytes_within bytes n g there] at flows
    unfold gather
    rcases hg : s.source.gather n with ⟨result, source⟩
    rw [hg] at flows
    obtain ⟨rfl, left⟩ := Prod.mk.inj flows
    exact ⟨rfl, by simp [List.length_take_of_le there], left⟩
  obtain ⟨result, offset, left⟩ := given f r before.flow
  obtain ⟨result', offset', left'⟩ := given f' r' before.flow'
  exact ⟨by rw [result, result'], n, Nat.le_refl _, offset,
    by rw [offset, offset', before.offset], left, left'⟩

theorem within_bytes? (n : Nat) : Within n (bytes? n) :=
  within_last (within_gather n) fun bytes => by
    split
    · exact within_pure _
    · split
      · exact within_truncated
      · exact within_pure _

theorem within_chunk? : Within chunkSize chunk? :=
  within_last (within_bytes? _) fun _ => within_pure _

theorem within_chunk : Within chunkSize chunk :=
  within_last within_chunk? fun c => by
    cases c
    · exact within_truncated
    · exact within_pure _

theorem within_chunks (n : Nat) : Within (chunkSize * n) (chunks n) := by
  induction n with
  | zero => exact within_pure _
  | succ n ih =>
    refine (within_bind within_chunk fun _ => within_last ih fun _ => within_pure _).mono ?_
    rw [Nat.mul_succ]
    omega

theorem within_tags (offset seq remaining : Nat) (known : Registry TagType (List Tag)) :
    Within (chunkSize * remaining) (tags offset seq remaining known) := by
  induction remaining using Nat.strongRecOn generalizing seq known with
  | ind remaining ih =>
    rw [tags]
    split
    · exact (within_pure _).mono (Nat.zero_le _)
    split
    · exact within_throw _ _
    next some =>
      have two : tagHeader = 2 := rfl
      have rest (length id : UInt32) : Within (chunkSize * (remaining - tagHeader))
          (if _fits : tagHeader ≤ length.toNat ∧ length.toNat ≤ remaining then do
            let payload ← chunks (length.toNat - tagHeader)
            tags offset (seq + 1) (remaining - length.toNat) (Entry.addTag known ⟨id, payload, seq⟩)
          else malformed offset (.tagOverrun id length.toNat remaining)) := by
        split
        next fits =>
          refine (within_bind (within_chunks _) fun _ => ih _ (by omega) _ _).mono ?_
          simp only [chunkSize]
          omega
        · exact within_throw _ _
      refine (within_bind within_chunk fun length => within_bind within_chunk fun id =>
        rest length id).mono ?_
      simp only [chunkSize]
      omega

theorem within_entryBody (offset length : Nat) :
    Within (chunkSize * (length - 1)) (entryBody offset length) := by
  unfold entryBody
  split
  · exact within_throw _ _
  next long =>
    have three : entryHeader = 3 := rfl
    have rest (major subtype : UInt32) : Within (chunkSize * (length - entryHeader))
        (if major = EntryKind.controlMajor ∧ subtype = EntryKind.footerSubtype ∧
            length ≠ entryHeader then
          malformed offset (.longFooter length)
        else do
          let tags ← tags offset 0 (length - entryHeader) ∅
          return ⟨length, major, subtype, offset, tags⟩ : Reading Entry) := by
      split
      · exact within_throw _ _
      · exact within_last (within_tags _ _ _ _) fun _ => within_pure _
    refine (within_bind within_chunk fun _ => within_bind within_chunk fun _ => rest _ _).mono ?_
    simp only [chunkSize]
    omega

theorem within_fileHeader : Within headerSize fileHeader := by
  refine within_bind (within_bytes? _) fun found => ?_
  cases found with
  | none => exact within_truncated.mono (Nat.zero_le _)
  | some found =>
    dsimp only
    split
    · exact within_throw _ _
    · refine within_bind within_chunk fun _ => within_last within_chunk fun _ => ?_
      split
      · exact within_throw _ _
      · exact within_pure _

/-- As many bytes as the first chunk of them says: what an entry takes up, whether or not it can
be read. -/
def IsFrame (bytes : List UInt8) : Prop :=
  ∃ (length : UInt32) (body : List UInt8),
    bytes = bytesOfChunk length ++ body ∧ body.length = chunkSize * (length.toNat - 1)

/-- Within an entry it makes no difference what comes after it, and where it can be read, just that
is left. -/
theorem next_frame {bytes : List UInt8} {f f' : Flow} {r r' : ChunkReader} (frame : IsFrame bytes)
    (before : Before bytes f f' r r') :
    (next r).1 = (next r').1 ∧ (next r).2.offset = (next r').2.offset ∧
      ((next r).1.isOk → (next r).2.source.flow = f ∧ (next r').2.source.flow = f') ∧
      (next r).1 ≠ .error .streamClosed := by
  obtain ⟨length, body, rfl, size⟩ := frame
  have there : r.source.ready = bytesOfChunk length ++ (body ++ f.ready) := by
    rw [Source.ready_flow, before.flow, Flow.ready_ofBytes, List.append_assoc]
  obtain ⟨m, found, took⟩ := chunk?_accepts length r _ there
  have enough : chunkSize ≤ (bytesOfChunk length ++ body).length := by
    rw [List.length_append, length_bytesOfChunk]
    omega
  obtain ⟨same, k, -, offset, left⟩ := within_chunk? _ _ _ _ _ enough before
  rcases hc : chunk? r' with ⟨_, m'⟩
  rw [found, hc] at same left
  rw [found] at offset
  obtain rfl := same
  obtain rfl : k = (bytesOfChunk length).length := by
    have := took.offset
    dsimp only at offset
    omega
  rw [List.drop_left] at left
  dsimp only at left
  obtain ⟨result, l, most, offset', left'⟩ :=
    within_entryBody r.offset length.toNat _ _ _ _ _ (Nat.le_of_eq size.symm) left
  rw [next_eq, next_eq, found, hc]
  dsimp only
  rw [← before.offset]
  refine ⟨result, left'.offset, fun ok => ?_, neverCloses_entryBody _ _ m⟩
  rcases hb : entryBody r.offset length.toNat m with ⟨_ | e, t⟩
  · rw [hb] at ok
    cases ok
  obtain ⟨taken, -⟩ := takes_entryBody _ _ _ _ _ hb
  rw [hb] at offset'
  obtain rfl : l = body.length := by
    dsimp only at offset'
    omega
  have flow := left'.flow
  have flow' := left'.flow'
  rw [List.drop_length] at flow flow'
  rw [← hb]
  exact ⟨flow, flow'⟩

theorem next_closed {r r' : ChunkReader} (closed : next r = (.error .streamClosed, r')) :
    r'.offset = r.offset ∧ (r.source.flow = [] ∧ r'.source.flow = [] ∨
      r.source.flow = .pause :: r'.source.flow) := by
  rw [next_eq] at closed
  rcases hc : chunk? r with ⟨f | _ | length, m⟩ <;> rw [hc] at closed
  · cases closed
    exact absurd (congrArg Prod.fst hc)
      (((neverCloses_bytes? _).bind fun _ => NeverCloses.pure _) r)
  · cases closed
    rw [chunk?, bind_apply] at hc
    rcases hb : bytes? chunkSize r with ⟨_ | _ | _, m⟩ <;> rw [hb] at hc <;> cases hc
    rw [bytes?, bind_apply, gather] at hb
    rcases hg : r.source.gather chunkSize with ⟨_ | given, source⟩ <;> rw [hg] at hb
    · cases hb
    dsimp only at hb
    split at hb
    next nothing =>
      cases hb
      obtain rfl : given = [] := by simpa using nothing
      exact ⟨rfl, Source.gather_nothing hg⟩
    · split at hb <;> cases hb
  · exact absurd (congrArg Prod.fst closed) (neverCloses_entryBody _ _ m)

/-- At its end and at a pause, a stream is closed. -/
theorem next_closes {r : ChunkReader}
    (ends : r.source.flow = [] ∨ ∃ f, r.source.flow = .pause :: f) :
    ∃ r', next r = (.error .streamClosed, r') := by
  have flows := Source.gather_flow chunkSize r.source
  have given : (r.source.gather chunkSize).1 = .ok [] := by
    rcases ends with none_ | ⟨f, pause⟩
    · rw [none_] at flows
      exact (Prod.mk.inj flows).1
    · rw [pause] at flows
      exact (Prod.mk.inj flows).1
  rcases hg : r.source.gather chunkSize with ⟨_, source⟩
  obtain rfl : _ = Except.ok [] := (congrArg Prod.fst hg).symm.trans given
  have closed : chunk? r = (.ok none, ⟨source, r.offset⟩) := by
    rw [chunk?, bind_apply, bytes?, bind_apply, gather, hg]
    rfl
  rw [next_eq, closed]
  exact ⟨_, rfl⟩

end ChunkReader

end ChangeCapture
