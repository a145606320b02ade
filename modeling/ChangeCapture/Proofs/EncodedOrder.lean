import ChangeCapture.Change.Images
import ChangeCapture.Proofs.Effects
import ChangeCapture.Proofs.Framing

/-! The images of an entry as one pass over its tags finds them. An entry keeps its tags by type;
the order in which they were written is brought back by their numbers, and with it the column that
each of them belongs to. -/
namespace ChangeCapture

theorem readings_of_mapM {read : α → Except Failure β} {l : List α} {values : List β}
    (ok : l.mapM read = .ok values) :
    (l.zip values).map Prod.fst = l ∧ ∀ p ∈ l.zip values, read p.1 = .ok p.2 := by
  induction l generalizing values with
  | nil => exact ⟨rfl, nofun⟩
  | cons a l ih =>
    rw [List.mapM_cons] at ok
    obtain ⟨value, first, ok⟩ := bind_ok ok
    obtain ⟨rest, others, ok⟩ := bind_ok ok
    cases ok
    obtain ⟨all, readings⟩ := ih others
    exact ⟨congrArg (a :: ·) all, List.forall_mem_cons.mpr ⟨first, readings⟩⟩

/-- What is chosen kind by kind is what is of one of the kinds. -/
theorem flatMap_filter_perm [DecidableEq κ] (kind : α → κ) (l : List α) {kinds : List κ}
    (distinct : kinds.Nodup) :
    (kinds.flatMap fun k => l.filter (fun a => kind a = k)).Perm
      (l.filter (fun a => kind a ∈ kinds)) := by
  induction kinds with
  | nil => simp
  | cons k kinds ih =>
    obtain ⟨new, distinct⟩ := List.nodup_cons.mp distinct
    have first : (l.filter (fun a => kind a ∈ k :: kinds)).filter (fun a => kind a = k) =
        l.filter (fun a => kind a = k) := by
      rw [List.filter_filter]
      exact List.filter_congr fun a _ => by grind
    have others : (l.filter (fun a => kind a ∈ k :: kinds)).filter (fun a => !decide (kind a = k)) =
        l.filter (fun a => kind a ∈ kinds) := by
      rw [List.filter_filter]
      exact List.filter_congr fun a _ => by grind
    have both := List.filter_append_perm (fun a => decide (kind a = k))
      (l.filter (fun a => kind a ∈ k :: kinds))
    rw [first, others] at both
    exact ((ih distinct).append_left _).trans both

namespace ColumnImage

/-- The image that a tag is where `latest` is the ordinal that the last column id tag gave. -/
def ofLatest (latest : Option Nat) (tag : Tag) : Except Failure ColumnImage :=
  match latest with
  | some ordinal => .ok ⟨ordinal, tag⟩
  | none => tag.malformed .orphanValue

/-- One pass over tags as they were written. -/
def scan (latest : Option Nat) : List Tag → Except Failure (List ColumnImage)
  | [] => .ok []
  | tag :: rest =>
    if tag.type = .columnId then do scan (some (← tag.word)) rest
    else if tag.type ∈ types then return (← ofLatest latest tag) :: (← scan latest rest)
    else scan latest rest

theorem owner?_append {before after : List (Tag × Nat)} {tag : Tag}
    (earlier : ∀ c ∈ before, c.1.seq < tag.seq) (later : ∀ c ∈ after, tag.seq < c.1.seq) :
    owner? (before ++ after) tag = before.getLast?.map Prod.snd := by
  have split : (before ++ after).takeWhile (fun c => c.1.seq < tag.seq) = before := by
    rw [List.takeWhile_append_of_pos (by simpa using earlier)]
    cases after with
    | nil => simp
    | cons c after =>
      have beyond := later c List.mem_cons_self
      rw [List.takeWhile_cons_of_neg (by simpa using Nat.le_of_lt beyond), List.append_nil]
  rw [owner?, split]

/-- Looking up the owner of each image gives what the pass has in mind when it comes to it. The tags
of `passed` lie behind the pass, those of `tags` before it, each with its column id tags. -/
theorem mapM_ofTag_eq_scan {passed tags : List Tag} {known coming : List (Tag × Nat)}
    (numbers : (passed ++ tags).Pairwise (fun a b => a.seq < b.seq))
    (behind : ∀ c ∈ known, c.1 ∈ passed)
    (ahead : coming.map Prod.fst = tags.filter (fun t => t.type = .columnId))
    (readings : ∀ c ∈ coming, c.1.word = .ok c.2) :
    (tags.filter (fun t => t.type ∈ types)).mapM (ofTag (known ++ coming)) =
      scan (known.getLast?.map Prod.snd) tags := by
  induction tags generalizing passed known coming with
  | nil => rfl
  | cons tag tags ih =>
    have onward : ((passed ++ [tag]) ++ tags).Pairwise (fun a b => a.seq < b.seq) := by
      simpa using numbers
    have behind' : ∀ c ∈ known, c.1 ∈ passed ++ [tag] := fun c member =>
      List.mem_append_left _ (behind c member)
    by_cases column : tag.type = .columnId
    case pos =>
      have noImage : tag.type ∉ types := by rw [column]; decide
      rw [List.filter_cons_of_pos (by simpa using column)] at ahead
      rw [List.filter_cons_of_neg (by simpa using noImage), scan, if_pos column]
      obtain ⟨⟨c, ordinal⟩, coming, rfl, same, further⟩ := List.map_eq_cons_iff.mp ahead
      obtain rfl : c = tag := same
      obtain ⟨read, readings⟩ := List.forall_mem_cons.mp readings
      have behind' : ∀ d ∈ known ++ [(c, ordinal)], d.1 ∈ passed ++ [c] := by
        intro d member
        rcases List.mem_append.mp member with member | member
        · exact behind' d member
        · obtain rfl := List.mem_singleton.mp member
          simp
      have rest := ih onward behind' further readings
      rw [List.append_assoc, List.getLast?_concat] at rest
      rw [show c.word = _ from read]
      exact rest
    case neg =>
      rw [List.filter_cons_of_neg (by simpa using column)] at ahead
      have rest := ih onward behind' ahead readings
      rw [scan, if_neg column]
      by_cases image : tag.type ∈ types
      case pos =>
        have owned : owner? (known ++ coming) tag = known.getLast?.map Prod.snd := by
          refine owner?_append (fun c member => ?_) (fun c member => ?_)
          · exact (List.pairwise_append.mp numbers).2.2 _ (behind c member) _ List.mem_cons_self
          · have there : c.1 ∈ tags := (List.mem_filter.mp (ahead ▸ List.mem_map_of_mem member)).1
            exact (List.pairwise_cons.mp (List.pairwise_append.mp numbers).2.1).1 _ there
        have own : ofTag (known ++ coming) tag = ofLatest (known.getLast?.map Prod.snd) tag := by
          rw [ofTag, owned]
          rfl
        rw [List.filter_cons_of_pos (by simpa using image), List.mapM_cons, own, rest, if_pos image]
      case neg =>
        rw [List.filter_cons_of_neg (by simpa using image), rest, if_neg image]

theorem scan_some_ok {tags : List Tag} (latest : Nat)
    (readable : ∀ t ∈ tags, t.type = .columnId → ∃ ordinal, t.word = .ok ordinal) :
    ∃ images, scan (some latest) tags = .ok images := by
  induction tags generalizing latest with
  | nil => exact ⟨[], rfl⟩
  | cons tag tags ih =>
    obtain ⟨here, readable⟩ := List.forall_mem_cons.mp readable
    rw [scan]
    split
    case isTrue column =>
      obtain ⟨ordinal, read⟩ := here column
      rw [read]
      exact ih ordinal readable
    case isFalse =>
      obtain ⟨images, rest⟩ := ih latest readable
      rw [rest]
      split <;> exact ⟨_, rfl⟩

/-- What the pass refuses is the first tag of an image, where no column id tag comes before it. -/
theorem scan_eq_error_iff {tags : List Tag}
    (readable : ∀ t ∈ tags, t.type = .columnId → ∃ ordinal, t.word = .ok ordinal) (f : Failure) :
    scan none tags = .error f ↔ ∃ before tag after, tags = before ++ tag :: after ∧
      (∀ t ∈ before, t.type ≠ .columnId ∧ t.type ∉ types) ∧ tag.type ∈ types ∧
      f = .malformedTag tag.id .orphanValue := by
  induction tags with
  | nil => simp [scan]
  | cons tag tags ih =>
    obtain ⟨here, readable⟩ := List.forall_mem_cons.mp readable
    rw [scan]
    split
    case isTrue column =>
      have noImage : tag.type ∉ types := by rw [column]; decide
      obtain ⟨ordinal, read⟩ := here column
      obtain ⟨images, rest⟩ := scan_some_ok ordinal readable
      have scanned : (tag.word >>= fun n => scan (some n) tags) = .ok images := by
        rw [read]
        exact rest
      rw [scanned]
      constructor
      · nofun
      · rintro ⟨before, orphan, after, split, others, image, -⟩
        obtain ⟨rfl, same⟩ | ⟨before, rfl, -⟩ := List.cons_eq_append_iff.mp split
        · cases same
          exact absurd image noImage
        · exact absurd column (others tag List.mem_cons_self).1
    case isFalse noColumn =>
      split
      case isTrue image =>
        constructor
        · intro refused
          exact ⟨[], tag, tags, rfl, nofun, image, (Except.error.inj refused).symm⟩
        · rintro ⟨before, orphan, after, split, others, -, rfl⟩
          obtain ⟨rfl, same⟩ | ⟨before, rfl, -⟩ := List.cons_eq_append_iff.mp split
          · cases same
            rfl
          · exact absurd image (others tag List.mem_cons_self).2
      case isFalse noImage =>
        rw [ih readable]
        constructor
        · rintro ⟨before, orphan, after, rfl, others, rest⟩
          exact ⟨tag :: before, orphan, after, rfl,
            List.forall_mem_cons.mpr ⟨⟨noColumn, noImage⟩, others⟩, rest⟩
        · rintro ⟨before, orphan, after, split, others, image, refused⟩
          obtain ⟨rfl, same⟩ | ⟨before, rfl, rfl⟩ := List.cons_eq_append_iff.mp split
          · cases same
            exact absurd image noImage
          · exact ⟨before, orphan, after, rfl, (List.forall_mem_cons.mp others).2, image, refused⟩

end ColumnImage

/-- What is read for an entry is what was written, tag by tag. -/
theorem ChunkReader.frames_of_next {r r' : ChunkReader} {e : Entry} (read : next r = (.ok e, r')) :
    ∃ tags, e.Frames r.offset e.major e.subtype tags ∧
      Took r r' (Entry.encode e.major e.subtype tags) := by
  rw [next_eq] at read
  rcases first : chunk? r with ⟨f | _ | length, m⟩ <;> rw [first] at read
  · cases read
  · cases read
  obtain ⟨tags, long, framed, took⟩ := took_of_entryBody read
  have frames := Entry.frames_grouping r.offset e.major e.subtype tags
  rw [long, ← framed] at frames
  have took := (took_of_chunk? first).append took
  rw [← UInt32.ofNat_toNat (x := length), ← long, ← Entry.encode_eq] at took
  exact ⟨tags, frames, took⟩

namespace ColumnImage

/-- The images of an entry that was read are those that one pass over its tags finds, as they were
written: each belongs to the last column id tag before it. What is refused is a tag of an image that
no column id tag comes before, the first one. -/
theorem ofEntry_scanned {r r' : ChunkReader} {e : Entry} {columns : List Nat}
    (read : ChunkReader.next r = (.ok e, r')) (wellFormed : ordinals e = .ok columns) :
    r.source.content = Entry.encode e.major e.subtype (e.inOrder.map fun t => (t.id, t.payload)) ++
        r'.source.content ∧
      ofEntry e columns = scan none e.inOrder ∧
      ∀ f, ofEntry e columns = .error f ↔ ∃ before tag after,
        e.inOrder = before ++ tag :: after ∧
        (∀ t ∈ before, t.type ≠ .columnId ∧ t.type ∉ types) ∧ tag.type ∈ types ∧
        f = .malformedTag tag.id .orphanValue := by
  obtain ⟨tags, frames, took⟩ := ChunkReader.frames_of_next read
  have numbers := Entry.numbered_increases 0 tags
  rw [← frames.ordered] at numbers
  obtain ⟨all, readings⟩ := readings_of_mapM wellFormed
  have byType (type : TagType) : e.tagsOf type = e.inOrder.filter (fun t => t.type = type) := by
    rw [frames.grouped, frames.ordered]
  have sorted : (types.flatMap e.tagsOf).mergeSort (fun a b => a.seq ≤ b.seq) =
      e.inOrder.filter (fun t => t.type ∈ types) := by
    refine Entry.mergeSort_of_perm ?_ (numbers.filter _)
    rw [funext byType]
    exact flatMap_filter_perm Tag.type e.inOrder (by decide)
  have scanned : ofEntry e columns = scan none e.inOrder := by
    rw [ofEntry, sorted]
    have behind : ∀ c ∈ ([] : List (Tag × Nat)), c.1 ∈ ([] : List Tag) := nofun
    exact mapM_ofTag_eq_scan numbers behind (all.trans (byType .columnId)) readings
  have readable : ∀ t ∈ e.inOrder, t.type = .columnId → ∃ ordinal, t.word = .ok ordinal := by
    intro t member column
    have listed : t ∈ ((e.tagsOf .columnId).zip columns).map Prod.fst := by
      rw [all, byType]
      exact List.mem_filter.mpr ⟨member, by simpa using column⟩
    obtain ⟨c, given, rfl⟩ := List.mem_map.mp listed
    exact ⟨c.2, readings c given⟩
  refine ⟨?_, scanned, fun f => by rw [scanned, scan_eq_error_iff readable]⟩
  rw [frames.ordered, Entry.numbered_payloads]
  exact took.content

/-- Two columns take turns, the first of them comes back, and a name stands between its tags. -/
theorem ofEntry_scanned_taking_turns :
    let tags : List (UInt32 × List UInt32) := [(0x0300, [2]), (0x0312, []), (0x0300, [1]),
      (0x0310, []), (0x0300, [2]), (0x0202, [0]), (0x0311, [0])]
    let form := Entry.encode 2 2 tags
    let r : ChunkReader := ⟨[.bytes (form.take 5), .bytes (form.drop 5)], 16⟩
    ∃ e r', ChunkReader.next r = (.ok e, r') ∧ ordinals e = .ok [2, 1, 2] ∧
      ofEntry e [2, 1, 2] =
        .ok [⟨2, ⟨0x0312, [], 1⟩⟩, ⟨1, ⟨0x0310, [], 3⟩⟩, ⟨2, ⟨0x0311, [0], 6⟩⟩] := by
  intro tags form r
  have columns : (ChunkReader.next r).1.bind ordinals = .ok [2, 1, 2] := by decide +kernel
  have kept : (ChunkReader.next r).1.map (fun e => e.tags.values.flatten.isPerm
      (Entry.numbered 0 tags)) = .ok true := by decide +kernel
  rcases read : ChunkReader.next r with ⟨f | e, r'⟩ <;> rw [read] at columns kept
  · cases columns
  · have ordered : e.inOrder = Entry.numbered 0 tags :=
      Entry.mergeSort_of_perm (List.isPerm_iff.mp (Except.ok.inj kept))
        (Entry.numbered_increases 0 tags)
    have scanned := (ofEntry_scanned read columns).2.1
    rw [ordered] at scanned
    exact ⟨e, r', rfl, columns, scanned⟩

end ColumnImage

end ChangeCapture
