import ChangeCapture.Proofs.Shadowing

/-! Reading some tables of a file only. The entries of the other ones are overlooked, with what they
would have taught of their tables, and the names that entries are selected by may be looked up in
just that. Where no selected entry depends on what an overlooked one teaches, and no overlooked one
is taken for a selected one, the changes are those of the whole file that belong to the tables. -/
namespace ChangeCapture

namespace Session

open Desk

/-- A session that is at the next entry of its file, and whose records were all taken. -/
structure AtEntry (s : Session) : Prop where
  alone : s.included = []
  reads : s.state.phase.readsEntries
  nothing : s.state.batch = []

/-- Sessions of both readings at the same place. -/
structure Shadows (v : Overview) (s s' : Session) : Prop where
  reader : s'.reader = s.reader
  desk : Shape.Shadows v (Desk.mk s.state s.journal).shape (Desk.mk s'.state s'.journal).shape

variable {v : Overview} {s s' : Session}

theorem Shadows.phase (shadows : Shadows v s s') : s'.state.phase = s.state.phase :=
  (congrArg FileState.phase shadows.desk.place :)

theorem Shadows.processing (shadows : Shadows v s s') (e : Entry) :
    Shape.Shadows v (s.processing e).desk.shape (s'.processing e).desk.shape :=
  { shadows.desk.move fun f => { f with phase := .reading } with changes := rfl }

end Session

/-- What both readings of a file come to. -/
structure Outcome.Shadows (v : Overview) (x x' : Outcome) : Prop where
  clean : x'.isClean
  session : Session.Shadows v x.session x'.session
  changes : (x'.records (v.options.choosing v.names)).filter DomainRecord.isChange =
    ((x.records v.options).filter DomainRecord.isChange).filter (DomainRecord.isOf v.names)

theorem Outcome.Shadows.after {v : Overview} {x x' : Outcome} (shadows : x.Shadows v x')
    {ps ps' : List Processed}
    (before : (Processed.allRecords (v.options.choosing v.names) ps').filter DomainRecord.isChange =
      ((Processed.allRecords v.options ps).filter DomainRecord.isChange).filter
        (DomainRecord.isOf v.names)) :
    (x.after ps).Shadows v (x'.after ps') where
  clean := shadows.clean
  session := shadows.session
  changes := by
    rw [records_after, records_after, List.filter_append, before, shadows.changes,
      List.filter_append, List.filter_append]

theorem Outcome.Shadows.included {v : Overview} {x x' : Outcome} (shadows : x.Shadows v x')
    {p p' : Processed}
    (own : (p'.records (v.options.choosing v.names)).filter DomainRecord.isChange =
      ((p.records v.options).filter DomainRecord.isChange).filter (DomainRecord.isOf v.names)) :
    (Processed.allRecords (v.options.choosing v.names) (p' :: x'.processed)).filter
        DomainRecord.isChange =
      ((Processed.allRecords v.options (p :: x.processed)).filter DomainRecord.isChange).filter
        (DomainRecord.isOf v.names) := by
  have rest := shadows.changes
  unfold records at rest
  unfold Processed.allRecords at rest ⊢
  rw [List.flatMap_cons, List.flatMap_cons, List.filter_append, own, rest, List.filter_append,
    List.filter_append]

namespace Session

open Desk

variable {v : Overview}

/-- Both readings of files come to the same, whatever these are included in. -/
structure ReadsAlike (v : Overview) (inner inner' : Session → Outcome) : Prop where
  develops : ∀ s, s.AtEntry → (inner s).isClean → s.known.Develops (inner s).session.known
  develops' : ∀ s, s.AtEntry → (inner' s).isClean → s.known.Develops (inner' s).session.known
  shadows : ∀ s s', s.AtEntry → s'.AtEntry → Shadows v s s' → (inner s).isClean →
    (∀ p ∈ (inner s).processed, p ∈ v.processed) → (inner s).Shadows v (inner' s')

theorem afterEntry_shadows {m m' : Desk} (shadows : Shape.Shadows v m.shape m'.shape)
    (s s' : Session) (reader : ChunkReader) :
    Shadows v (s.afterEntry reader m none).bare (s'.afterEntry reader m' none).bare :=
  ⟨rfl, { shadows with changes := rfl }⟩

theorem atEntry_afterEntry {m : Desk} (reading : m.state.phase = .reading) (s : Session)
    (reader : ChunkReader) : (s.afterEntry reader m none).bare.AtEntry := by
  refine ⟨rfl, ?_, rfl⟩
  rw [afterEntry]
  exact reading ▸ rfl

theorem atEntry_inner {parent : FileState} {i : Included} (fresh : Fresh parent i) (t : Session) :
    (t.inner i []).AtEntry :=
  ⟨rfl, by rw [Session.inner, fresh.phase]; rfl, fresh.batch⟩

theorem inner_shadows {m m' : Desk} (shadows : Shape.Shadows v m.shape m'.shape) {i i' : Included}
    (opens : Opened i i') (fresh : Fresh m.state i) (fresh' : Fresh m'.state i') (t t' : Session) :
    Shadows v (t.inner i []) (t'.inner i' []) := by
  have empty := fresh.batch
  have empty' := fresh'.batch
  refine ⟨opens.reader, opens.place, ?_, ?_, ?_, ?_⟩
  · show i.state.cache.parts = ∅
    rw [fresh.cache]
    exact shadows.nothing
  · show i'.state.cache.parts = ∅
    rw [fresh'.cache]
    exact shadows.nothing'
  · show Catalog.Lags v.names _ _ _ i.state.cache.catalog i'.state.cache.catalog
    rw [fresh.cache, fresh'.cache]
    exact shadows.known
  · show i'.state.batch.filter _ = (i.state.batch.filter _).filter _
    rw [empty, empty']
    rfl

theorem handedBack_shadows {o o' : StreamOptions} {m m' : Desk} {opened opened' : Option Included}
    (shadows : Shape.Shadows v m.shape m'.shape) (s s' : Session) (reader : ChunkReader)
    {x x' : Outcome} (inside : x.Shadows v x') (grows : m.known.Grows x.session.known)
    (grows' : m'.known.Grows x'.session.known) :
    Shadows v ((s.afterEntry reader m opened).handedBack o x [])
      ((s'.afterEntry reader m' opened').handedBack o' x' []) := by
  refine ⟨rfl, ?_⟩
  unfold handedBack afterEntry
  dsimp only
  rw [mergeBack_eq grows, mergeBack_eq grows']
  exact { inside.session.desk with
    place := (congrArg (fun f : FileState => { f with phase := .reading }) shadows.place :)
    changes := rfl }

theorem inside_shadows {inner inner' : Session → Outcome} (alike : ReadsAlike v inner inner')
    {m m' : Desk} (after : Shape.Shadows v m.shape m'.shape) {i i' : Included}
    (opens : Opened i i') (fresh : Fresh m.state i) (fresh' : Fresh m'.state i') (s s' : Session)
    (reader : ChunkReader)
    (clean : (inner ((s.afterEntry reader m (some i)).inner i [])).isClean)
    (members : ∀ p ∈ (inner ((s.afterEntry reader m (some i)).inner i [])).processed,
      p ∈ v.processed) :
    let t := s.afterEntry reader m (some i)
    let t' := s'.afterEntry reader m' (some i')
    (inner (t.inner i [])).Shadows v (inner' (t'.inner i' [])) ∧
      Shadows v (t.handedBack v.options (inner (t.inner i [])) [])
        (t'.handedBack (v.options.choosing v.names) (inner' (t'.inner i' [])) []) := by
  intro t t'
  have inside := alike.shadows _ _ (atEntry_inner fresh t) (atEntry_inner fresh' t')
    (inner_shadows after opens fresh fresh' t t') clean members
  have known : (t.inner i []).known = m.known := congrArg Cache.catalog fresh.cache
  have known' : (t'.inner i' []).known = m'.known := congrArg Cache.catalog fresh'.cache
  have develops := alike.develops _ (atEntry_inner fresh t) clean
  have develops' := alike.develops' _ (atEntry_inner fresh' t') inside.clean
  rw [known] at develops
  rw [known'] at develops'
  exact ⟨inside, handedBack_shadows after s s' reader inside develops.grows develops'.grows⟩

variable (accepting : v.options.Accepting) (apart : v.options.config.mergeMultipart = false)
variable (separates : ∀ p ∈ v.processed, v.Separates p)
include accepting apart separates

theorem whole_shadows {inner inner' : Session → Outcome} (alike : ReadsAlike v inner inner')
    {s s' : Session} (here : s.AtEntry) (here' : s'.AtEntry) (shadows : Shadows v s s')
    (clean : (whole v.options inner s).isClean)
    (members : ∀ p ∈ (whole v.options inner s).processed, p ∈ v.processed) :
    (whole v.options inner s).Shadows v (whole (v.options.choosing v.names) inner' s') := by
  induction size : s.size using Nat.strongRecOn generalizing s s' with
  | ind n ih =>
  subst size
  rcases clean_reads here.reads clean with
    ⟨reader, ended, closed⟩ | ⟨e, reader, opened, found, done⟩
  · rw [closed, whole_failed here'.reads (shadows.reader ▸ ended)]
    exact ⟨rfl, ⟨rfl, shadows.desk⟩, rfl⟩
  have found' : ChunkReader.next s'.reader = (.ok e, reader) := shadows.reader ▸ found
  have first : s.processing e ∈ v.processed := members _ (processing_mem_whole here.reads found done)
  obtain ⟨opened', m', run', after, related⟩ := process_shadows accepting apart first
    (separates _ first) (shadows.processing e) done
  have done' : (s'.processing e).result (v.options.choosing v.names) = .ok opened' :=
    congrArg Prod.fst run'
  obtain rfl : (s'.processing e).after (v.options.choosing v.names) = m' := congrArg Prod.snd run'
  cases related with
  | none =>
    obtain ⟨smaller, onward⟩ := whole_entry here.reads found done
    obtain ⟨-, onward'⟩ := whole_entry here'.reads found' done'
    rw [onward] at clean members ⊢
    rw [onward']
    refine Outcome.Shadows.after ?_ ?_
    swap
    · rw [Processed.allRecords_singleton, Processed.allRecords_singleton]
      exact after.changes
    have goesOn := afterEntry_shadows after s s' reader
    obtain ⟨-, phase | phase⟩ | ⟨_, same, -⟩ :=
      Processed.phase_after v.options (s.processing e) rfl done
    · have phase' := goesOn.phase.trans phase
      exact ih _ smaller (atEntry_afterEntry phase s reader) (atEntry_afterEntry phase' s' reader)
        goesOn clean (fun p member => members p (List.mem_cons_of_mem _ member)) rfl
    · rw [whole_done phase, whole_done (goesOn.phase.trans phase)]
      exact ⟨rfl, goesOn, rfl⟩
    · cases same
  | @some i i' opens =>
    obtain ⟨cleanInner, smaller, onward⟩ := whole_included here.reads found done clean
    rw [onward] at clean members ⊢
    obtain ⟨-, fresh⟩ := (s.processing e).paused_after v.options rfl done
    obtain ⟨-, fresh'⟩ := (s'.processing e).paused_after (v.options.choosing v.names) rfl done'
    obtain ⟨inside, back⟩ := inside_shadows alike after opens fresh fresh' s s' reader cleanInner
      fun p member => members p (List.mem_cons_of_mem _ (List.mem_append_left _ member))
    have turns' := @whole_opened _ inner' _ _ _ _ here'.reads found' done'
    dsimp only at turns'
    rw [if_pos inside.clean] at turns'
    rw [turns'.2]
    refine Outcome.Shadows.after ?_ (inside.included after.changes)
    exact ih _ smaller ⟨rfl, rfl, rfl⟩ ⟨rfl, rfl, rfl⟩ back clean
      (fun p member => members p (List.mem_cons_of_mem _ (List.mem_append_right _ member))) rfl

/-- Included files are read alike, up to any depth. -/
theorem readsAlike_decodeInner (depth : Nat) :
    ReadsAlike v (decodeInner v.options depth)
      (decodeInner (v.options.choosing v.names) depth) := by
  induction depth with
  | zero =>
    refine ⟨fun s _ clean => ?_, fun s _ clean => ?_, fun s s' _ _ _ clean => ?_⟩ <;>
      simp at clean
  | succ depth ih =>
    refine ⟨fun s here clean => ?_, fun s here clean => ?_, fun s s' here here' shadows clean => ?_⟩
    · exact (readsInPlace_decodeInner _ here.alone here.reads here.nothing clean).known
    · exact (readsInPlace_decodeInner _ here.alone here.reads here.nothing clean).known
    · rw [decodeInner_reads here.reads] at clean ⊢
      rw [decodeInner_reads here'.reads]
      exact whole_shadows accepting apart separates ih here here' shadows clean

end Session

namespace LogStream

open Session

variable {v : Overview}

theorem rest_shadows (accepting : v.options.Accepting)
    (apart : v.options.config.mergeMultipart = false)
    (separates : ∀ p ∈ v.processed, v.Separates p) (file : LogFile) (source : Source) (j : Journal)
    (clean : ((ofSource file source v.options .empty).rest j).isClean)
    (members : ∀ p ∈ ((ofSource file source v.options .empty).rest j).processed, p ∈ v.processed) :
    ((ofSource file source v.options .empty).rest j).Shadows v
      ((ofSource file source (v.options.choosing v.names) .empty).rest j) := by
  let s (o : StreamOptions) : Session := (ofSource file source o .empty).session j
  have desk (phase : Phase) : Desk.Shape.Shadows v
      (Desk.mk { (s v.options).state with phase } j).shape
      (Desk.mk { (s (v.options.choosing v.names)).state with phase } j).shape :=
    ⟨rfl, rfl, rfl, .empty, rfl⟩
  rcases header : ChunkReader.fileHeader (.ofSource source) with ⟨f | h, reader⟩
  · rw [rest_unopened header] at clean ⊢
    rw [rest_unopened header]
    exact ⟨clean, ⟨rfl, desk .unopened⟩, rfl⟩
  · rw [rest_opened header] at clean members ⊢
    rw [rest_opened header]
    exact whole_shadows accepting apart separates
      (readsAlike_decodeInner accepting apart separates (depth v.options)) ⟨rfl, rfl, rfl⟩
      ⟨rfl, rfl, rfl⟩ ⟨rfl, desk .headerRead⟩ clean members

variable {file : LogFile} {source : Source} {o : StreamOptions} {names : List String}
variable {s s' t : LogStream} {j k : Journal} {records : List DomainRecord}

/-- Selecting tables only selects, where what overlooked entries would have taught is not missed: a
file that can be decoded can be decoded so too, and its changes are those of the whole file that
belong to a selected table or to none, in the same order. -/
theorem drains_choosing (accepting : o.Accepting) (apart : o.config.mergeMultipart = false)
    (starts : Starts file source o .empty s)
    (starts' : Starts file source (o.choosing names) .empty s') (drains : Drains s j records t k)
    (separates : ∀ p ∈ (s.rest j).processed,
      (Overview.mk o names (s.rest j).processed).Separates p) :
    ∃ records' t' k', Drains s' j records' t' k' ∧ records'.filter DomainRecord.isChange =
      (records.filter DomainRecord.isChange).filter (DomainRecord.isOf names) := by
  obtain ⟨clean, all, -⟩ := drains.rest (starts.wellNested j)
  have shadows : (s.rest j).Shadows ⟨o, names, (s.rest j).processed⟩ (s'.rest j) := by
    rw [starts.rest] at clean separates ⊢
    rw [starts'.rest]
    exact rest_shadows accepting apart separates file source j clean fun p member => member
  obtain ⟨t', k', drains'⟩ := drains_of_clean (starts'.wellNested j) shadows.clean
  refine ⟨_, t', k', drains', ?_⟩
  rw [all, starts.waiting, starts'.waiting, starts.fresh.1, starts'.fresh.1]
  exact shadows.changes

/-- Two tables that are described in the file itself, and changed again in an included one: the one
that is not selected, which a definition has made known before, by its name, the other one by its
id. -/
theorem drains_choosing_included :
    let columns : List (UInt32 × List UInt32) :=
      [(0x300, [1]), (0x301, [1, 0x62]), (0x302, [4, 0x424f4c43])]
    let first := [(0x200, [5]), (0x201, [3, 0x505041]), (0x202, [1, 0x41])]
    let second := [(0x200, [6]), (0x201, [3, 0x505041]), (0x202, [1, 0x42])]
    let head := signature ++ [1, 0].flatMap bytesOfChunk
    let text := "\x7b\"owner\":\"APP\",\"name\":\"A\",\"objectId\":5,\"columns\":[]\x7d".toList
    let document := text.length.toUInt32 :: bytesToChunks (text.map Char.toUInt8)
    let inner : Source := [.bytes (head ++ Entry.encode 2 1 (first ++ [(0x300, [1])]) ++
      Entry.encode 2 1 [(0x200, [6]), (0x300, [1])])]
    let source : Source := [.bytes (head ++ Entry.encode 1 0 (first ++ [(0x400, document)]) ++
      Entry.encode 2 1 (first ++ columns) ++
      Entry.encode 2 1 (second ++ columns) ++ Entry.encode 2 9 [(0x501, [1, 0x62])] ++
      Entry.encode 0 1 [])]
    let o : StreamOptions :=
      ⟨⟨none, false, .row, false⟩, .accepting, some (.named (.ofList [("b", inner)]))⟩
    let s := ofSource ⟨3, 5, "a"⟩ source o .empty
    let s' := ofSource ⟨3, 5, "a"⟩ source (o.choosing ["APP.B"]) .empty
    ∃ records t k records' t' k', Drains s .empty records t k ∧ Drains s' .empty records' t' k' ∧
      records.length = 5 ∧ (records'.filter DomainRecord.isChange).length = 2 := by
  intro columns first second head text document inner source o s s'
  obtain ⟨records, t, k, drains, length, chosen⟩ : ∃ records t k, Drains s .empty records t k ∧
      records.length = 5 ∧ ((records.filter DomainRecord.isChange).filter
        (DomainRecord.isOf ["APP.B"])).length = 2 :=
    ⟨_, _, _, .readLast (by decide +kernel) (by decide +kernel), by decide +kernel,
      by decide +kernel⟩
  obtain ⟨records', t', k', drains', changes⟩ :=
    drains_choosing (fun _ _ => rfl) rfl .new (.new (o := o.choosing ["APP.B"])) drains
      (by decide +kernel)
  exact ⟨records, t, k, records', t', k', drains, drains', length, changes ▸ chosen⟩

/-- A table that is described by the first change to it: where both changes are read there are two
records; where the table is not selected the first one is overlooked, so nothing is known of the
table that the second one is about by its id, and reading fails. -/
theorem unknown_where_overlooked :
    let first := [(0x200, [5]), (0x201, [3, 0x505041]), (0x202, [1, 0x41]), (0x300, [1]),
      (0x301, [1, 0x62]), (0x302, [4, 0x424f4c43])]
    let source : Source := [.bytes (signature ++ [1, 0].flatMap bytesOfChunk ++
      Entry.encode 2 1 first ++ Entry.encode 2 1 [(0x200, [5]), (0x300, [1])] ++
      Entry.encode 0 1 [])]
    let o : StreamOptions := ⟨⟨none, false, .row, false⟩, .accepting, none⟩
    let s := ofSource ⟨3, 5, "a"⟩ source o .empty
    let s' := ofSource ⟨3, 5, "a"⟩ source (o.choosing ["APP.B"]) .empty
    (∃ records t k, Drains s .empty records t k ∧ records.length = 2) ∧
      (s'.read .empty).1 = .error (.missingSchema 5) ∧
      ¬ ∃ records t k, Drains s' .empty records t k := by
  intro first source o s s'
  refine ⟨⟨_, _, _, .readLast (by decide +kernel) (by decide +kernel), by decide +kernel⟩,
    by decide +kernel, fun ⟨_, _, _, drains⟩ => ?_⟩
  have clean := (drains.rest (Starts.new.wellNested .empty)).1
  exact absurd clean (by decide +kernel)

end LogStream

end ChangeCapture
