import ChangeCapture.Proofs.Learning

/-! Included files read in place: the entries of an included file are processed on the desk of the
file that includes it, which for that time goes by the name, the numbers and the offset of the
included one. This comes to the same as reading the file apart, on a copy of what is known, and
handing everything back, however the records are handed on in between. -/
namespace ChangeCapture

namespace Desk

variable (o : StreamOptions)

/-- The file that an include entry opens, and where its records come from and go. -/
structure Opens (e : Entry) (d : Desk) (i : Included) : Prop where
  file : ∃ fileId name, e.wide? .includeFileId = .ok fileId ∧ e.text? .includeFileName = .ok name ∧
    i.state.file = .ofUid (fileId.getD 0) (name.getD "")
  source : ∃ includes source header, o.includes = some includes ∧
    includes.find i.state.file = .ok source ∧
    ChunkReader.fileHeader (.ofSource source) = (.ok header, i.reader)
  start : ∃ start, e.word? .includeStart = .ok start ∧ i.state.entrySeq + 1 = max (start.getD 0) 1
  reportAt : i.state.reportAt = some (d.reported e)
  features : i.state.features = d.state.features

/-- Goes over to the entries of an included file. -/
def enter (d : Desk) (i : Included) : Desk :=
  { d with state := { d.state with
      file := i.state.file
      phase := .reading
      entrySeq := i.state.entrySeq
      reportAt := i.state.reportAt
      includedRecords := none } }

/-- Back from an included file to the one that was left at `outer`. -/
def leave (d outer : Desk) : Desk :=
  { d with state := { d.state with
      file := outer.state.file
      phase := .reading
      features := outer.state.features
      entrySeq := outer.state.entrySeq
      reportAt := outer.state.reportAt
      includedRecords :=
        some ((d.state.batch.drop outer.state.batch.length).countP DomainRecord.isData) } }

/-- The entries of a file, and in their places those of the files that it includes, are processed
one after the other on one desk. -/
inductive InPlace : ChunkReader → Desk → Desk → Prop where
  /-- The file ends without a footer. -/
  | closed {r r' d} : ChunkReader.next r = (.error .streamClosed, r') → InPlace r d d
  | footer {r r' e d d'} : ChunkReader.next r = (.ok e, r') → process o e d = (.ok none, d') →
      d'.state.phase = .done → InPlace r d d'
  | entry {r r' e d m d'} : ChunkReader.next r = (.ok e, r') → process o e d = (.ok none, m) →
      m.state.phase ≠ .done → InPlace r' m d' → InPlace r d d'
  | included {r r' e d i m n d'} : ChunkReader.next r = (.ok e, r') →
      process o e d = (.ok (some i), m) → Opens o e d i → InPlace i.reader (m.enter i) n →
      InPlace r' (n.leave m) d' → InPlace r d d'

variable {o}

theorem InPlace.unique {r : ChunkReader} {d a b : Desk} (first : InPlace o r d a)
    (second : InPlace o r d b) : a = b := by
  induction first generalizing b with
  | closed ended => cases second <;> grind
  | footer found done last => cases second <;> grind
  | entry found done more _ ih => cases second <;> grind
  | included found done _ _ _ inner rest => cases second <;> grind

theorem includedFile_ok {parent : FileState} {e : Entry} {offset : StreamOffset} {i : Included}
    (opened : includedFile o parent e offset = .ok i) :
    ∃ fileId name start includes source header,
      e.wide? .includeFileId = .ok fileId ∧ e.text? .includeFileName = .ok name ∧
      e.word? .includeStart = .ok start ∧ o.includes = some includes ∧
      includes.find (.ofUid (fileId.getD 0) (name.getD "")) = .ok source ∧
      ChunkReader.fileHeader (.ofSource source) = (.ok header, i.reader) ∧
      i.state = {
        file := .ofUid (fileId.getD 0) (name.getD "")
        phase := .headerRead
        cache := parent.cache
        features := parent.features
        entrySeq := start.getD 0 - 1
        reportAt := some offset
        batch := []
        includedRecords := none } := by
  obtain ⟨fileId, identified, opened⟩ := bind_ok opened
  obtain ⟨name, named, opened⟩ := bind_ok opened
  obtain ⟨start, numbered, opened⟩ := bind_ok opened
  dsimp only at opened
  split at opened
  · cases opened
  next includes given =>
    obtain ⟨source, found, opened⟩ := bind_ok opened
    split at opened
    · cases opened
    next header reader read =>
      cases opened
      exact ⟨fileId, name, start, includes, source, header, identified, named, numbered, given,
        found, read, rfl⟩

theorem includedFile_of_process {e : Entry} {d m : Desk} {i : Included}
    (done : process o e d = (.ok (some i), m)) :
    includedFile o (d.cleared o e).state e (d.reported e) = .ok i ∧ m = (d.cleared o e).pause := by
  rw [process_apply] at done
  by_cases include_ : e.kind = .includeFile
  · rw [perform_includeFile o include_] at done
    split at done <;> cases done
    exact ⟨‹_›, rfl⟩
  by_cases footer : e.kind = .footer
  · rw [perform_footer o footer] at done
    cases done
  cases perform_opens_nothing o footer include_ (congrArg Prod.fst done)

theorem features_cleared (e : Entry) (d : Desk) :
    (d.cleared o e).state.features = d.state.features :=
  cleared_keeps o (p := fun d => d.state.features)
    (fun d r => congrArg (fun d => d.state.features) (core_emit o.gates d r)) (fun _ _ => rfl)
    (fun _ _ => rfl) e d

theorem opens_of_process {e : Entry} {d m : Desk} {i : Included}
    (done : process o e d = (.ok (some i), m)) : Opens o e d i := by
  obtain ⟨opened, -⟩ := includedFile_of_process done
  obtain ⟨fileId, name, start, includes, source, header, identified, named, numbered, given, found,
    read, state⟩ := includedFile_ok opened
  constructor
  case file => exact ⟨fileId, name, identified, named, by rw [state]⟩
  case source => exact ⟨includes, source, header, given, by rw [state]; exact found, read⟩
  case start =>
    refine ⟨start, numbered, ?_⟩
    rw [state]
    dsimp only
    omega
  case reportAt => rw [state]
  case features =>
    rw [state]
    exact features_cleared e d

/-- The desk of the included file is that of the file around it, but for the records on it. -/
theorem enter_eq {e : Entry} {d m : Desk} {i : Included}
    (done : process o e d = (.ok (some i), m)) :
    m.enter i = ⟨{ i.state with phase := .reading, batch := m.state.batch }, m.journal⟩ := by
  obtain ⟨opened, rfl⟩ := includedFile_of_process done
  obtain ⟨_, _, _, _, _, _, _, _, _, _, _, _, state⟩ := includedFile_ok opened
  simp only [enter, state, pause]

end Desk

namespace Session

open Desk

variable {o : StreamOptions} {depth : Nat}

/-- The desk of a session that goes on with some records on it. -/
def deskWith (s : Session) (records : List DomainRecord) : Desk :=
  ⟨{ s.state with phase := .reading, batch := records }, s.journal⟩

/-- Reading a file to its end comes to the same as reading it in place. -/
structure ReadsInPlace (o : StreamOptions) (s : Session) (x : Outcome) : Prop where
  known : s.known.Develops x.session.known
  inPlace : ∀ records, ∃ d, InPlace o s.reader (s.deskWith records) d ∧
    d.state.cache = x.session.state.cache ∧ d.journal = x.session.journal ∧
    d.state.batch = records ++ x.records o

theorem mergeBack_eq {c nested : Cache} (grows : c.catalog.Grows nested.catalog) :
    c.mergeBack nested = nested := by
  rw [Cache.mergeBack, Catalog.merge_eq grows]

theorem process_deskWith {s : Session} {e : Entry} {opened : Option Included}
    (done : (s.processing e).result o = .ok opened) (records : List DomainRecord) :
    process o e (s.deskWith records) =
      (.ok opened, ((s.processing e).after o).prepend records) := by
  have start : s.deskWith records = (s.processing e).desk.prepend records := by
    simp [deskWith, processing, prepend]
  rw [start, process_prepend, ← done]
  rfl

/-- The session once the file that it includes was read to its end. -/
def handedBack (o : StreamOptions) (s : Session) (x : Outcome) (batch : List DomainRecord) :
    Session :=
  { s with
    state := { s.state with
      phase := .reading
      cache := s.state.cache.mergeBack x.session.state.cache
      batch
      includedRecords := some ((x.records o).countP DomainRecord.isData) }
    included := []
    journal := x.session.journal }

theorem fresh_emptied {parent : FileState} {i : Included} (fresh : Fresh parent i) :
    i.emptied [] = i := by
  obtain ⟨⟨reader, file, phase, cache, features, entrySeq, reportAt, batch, includedRecords⟩,
    exhausted, delivered⟩ := i
  obtain rfl : batch = [] := fresh.batch
  rfl

/-- Opening a file and reading it to its end takes two turns, and nothing more is read where that
goes wrong. -/
theorem whole_opened {inner : Session → Outcome} {s : Session} {e : Entry} {reader : ChunkReader}
    {i : Included} (reads : s.state.phase.readsEntries)
    (found : ChunkReader.next s.reader = (.ok e, reader))
    (opened : (s.processing e).result o = .ok (some i)) :
    let t := s.afterEntry reader ((s.processing e).after o) (some i)
    let x := inner (t.inner i [])
    if x.isClean then (t.handedBack o x []).size < s.size ∧
      whole o inner s =
        (whole o inner (t.handedBack o x [])).after (s.processing e :: x.processed)
    else (whole o inner s).isClean = false := by
  intro t x
  obtain ⟨paused, fresh⟩ := (s.processing e).paused_after o rfl opened
  have first : s.turnWhole o inner = ([s.processing e],
      .again t.bare) := by
    rw [turnWhole_reads reads, found]
    dsimp only
    rw [opened]
  have open_ : t.bare.included = [i] := by
    rw [bare_included (i := i) rfl, fresh_emptied fresh]
    rfl
  have second : t.bare.turnWhole o inner = _ := turnWhole_included paused open_ fresh.exhausted
  have same : inner (t.bare.inner i []) = x := rfl
  dsimp only at second
  rw [same] at second
  rw [whole_again first]
  split
  next done =>
    rw [if_pos done] at second
    have resumed : (t.bare.outer (i.readOn o x) x.session).resume (i.readOn o x) =
        t.handedBack o x [] := by
      simp [resume, outer, bare, handedBack, Included.readOn, fresh.delivered]
    rw [resumed] at second
    refine ⟨(size_of_turnWhole second).trans (size_of_turnWhole first), ?_⟩
    rw [whole_again second, Outcome.after_after]
    rfl
  next fails =>
    rw [if_neg fails] at second
    rw [whole_stop second]
    exact Bool.eq_false_iff.mpr fails

theorem whole_included {inner : Session → Outcome} {s : Session} {e : Entry} {reader : ChunkReader}
    {i : Included} (reads : s.state.phase.readsEntries)
    (found : ChunkReader.next s.reader = (.ok e, reader))
    (opened : (s.processing e).result o = .ok (some i))
    (clean : (whole o inner s).isClean) :
    let t := s.afterEntry reader ((s.processing e).after o) (some i)
    let x := inner (t.inner i [])
    x.isClean ∧ (t.handedBack o x []).size < s.size ∧
      whole o inner s =
        (whole o inner (t.handedBack o x [])).after (s.processing e :: x.processed) := by
  intro t x
  have turns := @whole_opened _ inner _ _ _ _ reads found opened
  dsimp only at turns
  split at turns
  next done => exact ⟨done, turns⟩
  next => simp [turns] at clean

/-- The records of an entry that neither ends its file nor opens another one. -/
theorem whole_entry {inner : Session → Outcome} {s : Session} {e : Entry} {reader : ChunkReader}
    (reads : s.state.phase.readsEntries) (found : ChunkReader.next s.reader = (.ok e, reader))
    (done : (s.processing e).result o = .ok none) :
    let t := (s.afterEntry reader ((s.processing e).after o) none).bare
    t.size < s.size ∧ whole o inner s = (whole o inner t).after [s.processing e] := by
  intro t
  have turn : s.turnWhole o inner = ([s.processing e], .again t) := by
    rw [turnWhole_reads reads, found]
    dsimp only
    rw [done]
  exact ⟨size_of_turnWhole turn, whole_again turn⟩

theorem processing_mem_whole {inner : Session → Outcome} {s : Session} {e : Entry}
    {reader : ChunkReader} {opened : Option Included} (reads : s.state.phase.readsEntries)
    (found : ChunkReader.next s.reader = (.ok e, reader))
    (done : (s.processing e).result o = .ok opened) :
    s.processing e ∈ (whole o inner s).processed := by
  have turn : s.turnWhole o inner = _ := turnWhole_reads reads
  rw [found] at turn
  dsimp only at turn
  rw [done] at turn
  rw [whole_again turn]
  exact List.mem_cons_self

/-- Wherever an entry goes wrong, or cannot be read, reading to the end does. -/
theorem clean_reads {inner : Session → Outcome} {s : Session} (reads : s.state.phase.readsEntries)
    (clean : (whole o inner s).isClean) :
    (∃ reader, ChunkReader.next s.reader = (.error .streamClosed, reader) ∧
      whole o inner s = ⟨[], .error .streamClosed, { s with reader }⟩) ∨
    ∃ e reader opened, ChunkReader.next s.reader = (.ok e, reader) ∧
      (s.processing e).result o = .ok opened := by
  have turn : s.turnWhole o inner = _ := turnWhole_reads reads
  rcases found : ChunkReader.next s.reader with ⟨f | e, reader⟩ <;> rw [found] at turn
  · rw [whole_stop turn] at clean ⊢
    have closed : f = .streamClosed := by simpa [Outcome.isClean, Failure.isFatal] using clean
    subst closed
    exact .inl ⟨reader, rfl, rfl⟩
  · dsimp only at turn
    cases done : (s.processing e).result o with
    | error f =>
      rw [done] at turn
      rw [whole_stop turn] at clean
      have closed : f = .streamClosed := by simpa [Outcome.isClean, Failure.isFatal] using clean
      exact absurd (closed ▸ done) (neverCloses_process o e _)
    | ok opened => exact .inr ⟨e, reader, opened, rfl, done⟩

theorem result_of_clean {inner : Session → Outcome} {s : Session} {e : Entry} {reader : ChunkReader}
    (reads : s.state.phase.readsEntries) (found : ChunkReader.next s.reader = (.ok e, reader))
    (clean : (whole o inner s).isClean) : ∃ opened, (s.processing e).result o = .ok opened := by
  rcases clean_reads reads clean with ⟨_, ended, -⟩ | ⟨_, _, opened, again, done⟩
  · cases found.symm.trans ended
  · cases found.symm.trans again
    exact ⟨opened, done⟩

theorem deskWith_after {s : Session} {reader : ChunkReader} {m : Desk}
    (reading : m.state.phase = .reading) (records : List DomainRecord) :
    (s.afterEntry reader m none).bare.deskWith (records ++ m.state.batch) = m.prepend records := by
  simp [deskWith, bare, afterEntry, prepend, ← reading]

theorem known_handedBack {s : Session} {x : Outcome} (grows : s.known.Grows x.session.known)
    (batch : List DomainRecord) : (s.handedBack o x batch).known = x.session.known :=
  Catalog.merge_eq grows

theorem deskWith_handedBack {s : Session} {reader : ChunkReader} {m n : Desk}
    {opened : Option Included} {x : Outcome} {records : List DomainRecord}
    (grows : m.known.Grows x.session.known)
    (cache : n.state.cache = x.session.state.cache) (journal : n.journal = x.session.journal)
    (batch : n.state.batch = (records ++ m.state.batch) ++ x.records o) :
    n.leave (m.prepend records) = ((s.afterEntry reader m opened).handedBack o x []).deskWith
      ((records ++ m.state.batch) ++ x.records o) := by
  have merged : m.state.cache.mergeBack x.session.state.cache = x.session.state.cache :=
    mergeBack_eq grows
  have handed : (n.state.batch.drop (m.prepend records).state.batch.length) = x.records o := by
    rw [batch]
    exact List.drop_left
  simp only [leave, deskWith, handedBack, afterEntry, handed, merged]
  simp only [cache, journal, batch, prepend]

namespace ReadsInPlace

variable {s : Session} {e : Entry} {reader : ChunkReader} {x : Outcome}

theorem entry (found : ChunkReader.next s.reader = (.ok e, reader))
    (done : (s.processing e).result o = .ok none)
    (reading : ((s.processing e).after o).state.phase = .reading)
    (rest : ReadsInPlace o (s.afterEntry reader ((s.processing e).after o) none).bare x) :
    ReadsInPlace o s (x.after [s.processing e]) := by
  refine ⟨((s.processing e).develops o).trans rest.known, fun records => ?_⟩
  obtain ⟨d, onward, cache, journal, batch⟩ :=
    rest.inPlace (records ++ ((s.processing e).after o).state.batch)
  rw [deskWith_after reading] at onward
  have goesOn : ((s.processing e).after o).state.phase ≠ .done := by
    rw [reading]
    decide
  refine ⟨d, .entry found (process_deskWith done records) goesOn onward, cache, journal, ?_⟩
  rw [batch, List.append_assoc]
  rfl

theorem footer (found : ChunkReader.next s.reader = (.ok e, reader))
    (done : (s.processing e).result o = .ok none)
    (ended : ((s.processing e).after o).state.phase = .done) (result : Except Failure Unit) :
    ReadsInPlace o s (Outcome.after
      ⟨[], result, (s.afterEntry reader ((s.processing e).after o) none).bare⟩
      [s.processing e]) := by
  refine ⟨(s.processing e).develops o, fun records =>
    ⟨_, .footer found (process_deskWith done records) ended, rfl, rfl, ?_⟩⟩
  simp [prepend, Outcome.records, Outcome.after, Processed.records]

theorem included {i : Included} {y : Outcome} (found : ChunkReader.next s.reader = (.ok e, reader))
    (done : (s.processing e).result o = .ok (some i)) :
    let t := s.afterEntry reader ((s.processing e).after o) (some i)
    ReadsInPlace o (t.inner i []) x → ReadsInPlace o (t.handedBack o x []) y →
      ReadsInPlace o s (y.after (s.processing e :: x.processed)) := by
  intro t inside rest
  have handed : (t.inner i []).known = ((s.processing e).after o).known :=
    congrArg Cache.catalog ((s.processing e).paused_after o rfl done).2.cache
  have learned : ((s.processing e).after o).known.Develops x.session.known :=
    handed ▸ inside.known
  have known : x.session.known.Develops y.session.known :=
    known_handedBack (s := t) learned.grows [] ▸ rest.known
  refine ⟨((s.processing e).develops o).trans (learned.trans known), fun records => ?_⟩
  obtain ⟨n, within, cache, journal, batch⟩ :=
    inside.inPlace (records ++ ((s.processing e).after o).state.batch)
  obtain ⟨d, onward, cacheAfter, journalAfter, batchAfter⟩ :=
    rest.inPlace ((records ++ ((s.processing e).after o).state.batch) ++ x.records o)
  rw [← deskWith_handedBack learned.grows cache journal batch] at onward
  have processed := process_deskWith done records
  have entered : (((s.processing e).after o).prepend records).enter i =
      (t.inner i []).deskWith (records ++ ((s.processing e).after o).state.batch) :=
    enter_eq processed
  rw [← entered] at within
  refine ⟨d, .included found processed (opens_of_process processed) within onward, cacheAfter,
    journalAfter, ?_⟩
  rw [batchAfter]
  simp [Outcome.records, Outcome.after, Processed.allRecords, Processed.records]

end ReadsInPlace

/-- A file that can be read to its end apart can be read in place, if that holds of the files that
it includes. -/
theorem readsInPlace_whole {inner : Session → Outcome}
    (apart : ∀ s, s.included = [] → s.state.phase.readsEntries → s.state.batch = [] →
      (inner s).isClean → ReadsInPlace o s (inner s))
    {s : Session} (alone : s.included = []) (reads : s.state.phase.readsEntries)
    (nothing : s.state.batch = []) (clean : (whole o inner s).isClean) :
    ReadsInPlace o s (whole o inner s) := by
  induction size : s.size using Nat.strongRecOn generalizing s with
  | ind n ih =>
  subst size
  rcases clean_reads reads clean with ⟨reader, ended, closed⟩ | ⟨e, reader, opened, found, done⟩
  · rw [closed]
    exact ⟨.refl _, fun records => ⟨_, .closed ended, rfl, rfl, (List.append_nil _).symm⟩⟩
  cases opened with
  | none =>
    obtain ⟨smaller, onward⟩ := whole_entry reads found done
    rw [onward] at clean ⊢
    obtain ⟨-, phase | phase⟩ | ⟨_, same, -⟩ :=
      Processed.phase_after o (s.processing e) rfl done
    · exact .entry found done phase
        (ih _ smaller rfl (by rw [afterEntry]; exact phase ▸ rfl) rfl clean rfl)
    · rw [whole_done (s := (s.afterEntry reader ((s.processing e).after o) none).bare) phase]
      exact .footer found done phase _
    · cases same
  | some i =>
    obtain ⟨cleanInner, smaller, onward⟩ := whole_included reads found done clean
    rw [onward] at clean ⊢
    obtain ⟨-, fresh⟩ := (s.processing e).paused_after o rfl done
    exact .included found done
      (apart _ rfl (by rw [Session.inner, fresh.phase]; rfl) fresh.batch cleanInner)
      (ih _ smaller rfl rfl rfl clean rfl)

/-- Wherever a file can be read to its end apart, it can be read in place. -/
theorem readsInPlace_decodeInner (depth : Nat) {s : Session} (alone : s.included = [])
    (reads : s.state.phase.readsEntries) (nothing : s.state.batch = [])
    (clean : (decodeInner o depth s).isClean) : ReadsInPlace o s (decodeInner o depth s) := by
  induction depth generalizing s with
  | zero => simp at clean
  | succ depth ih =>
    rw [decodeInner_reads reads] at clean ⊢
    exact readsInPlace_whole (fun s alone reads nothing clean => ih alone reads nothing clean) alone
      reads nothing clean

/-- What may happen to a session while a file that it includes is read: steps, and records being
taken out of the batch. -/
inductive Away (o : StreamOptions) (depth : Nat) (s : Session) :
    List DomainRecord → Session → Prop where
  | start : Away o depth s [] s
  | step {taken t ps u} : Away o depth s taken t → t.state.phase = .paused → Step o depth t ps u →
      Away o depth s taken u
  | take {taken t} (count : Nat) : Away o depth s taken t →
      Away o depth s (taken ++ t.state.batch.take count)
        { t with state := { t.state with batch := t.state.batch.drop count } }

/-- How far the reading of an included file has come: what was processed of it is in the records,
and what is left makes up the whole. -/
structure Midway (o : StreamOptions) (depth : Nat) (s : Session) (x : Outcome)
    (taken : List DomainRecord) (t : Session) (k : Included) (deeper : List Included)
    (ps : List Processed) : Prop where
  open_ : t.included = k :: deeper
  reader : t.reader = s.reader
  state : t.state = { s.state with batch := t.state.batch }
  records : taken ++ t.waiting = s.state.batch ++ Processed.allRecords o ps
  delivered : k.delivered + (t.inner k deeper).waiting.countP DomainRecord.isData =
    (Processed.allRecords o ps).countP DomainRecord.isData
  ahead : (k.exhausted = false ∧ x = (decodeInner o depth (t.inner k deeper).bare).after ps) ∨
    (k.exhausted = true ∧ deeper = [] ∧ x.processed = ps ∧
      x.session.state.cache = k.state.cache ∧ x.session.journal = t.journal)

theorem waiting_inner {t : Session} {k : Included} {deeper : List Included}
    (open_ : t.included = k :: deeper) :
    t.waiting = t.state.batch ++ (t.inner k deeper).waiting := by
  simp only [waiting, inner, open_, Included.waiting, List.flatMap_cons]

theorem Midway.start {s : Session} {i : Included} {parent : FileState} (open_ : s.included = [i])
    (fresh : Fresh parent i) :
    Midway o depth s (decodeInner o depth (s.inner i [])) [] s i [] [] := by
  have empty : (s.inner i []).waiting = [] := by
    simp [waiting, inner, fresh.batch, Included.waiting]
  have bare : (s.inner i []).bare = s.inner i [] := by
    have same := congrArg (fun k : Included => k.state) (fresh_emptied fresh)
    simp only [Included.emptied] at same
    simp only [Session.bare, inner, Included.bare, same]
  refine ⟨open_, rfl, rfl, ?_, ?_, .inl ⟨fresh.exhausted, ?_⟩⟩
  · rw [waiting_inner open_, empty]
    simp
  · simp [empty, fresh.delivered]
  · rw [bare, Outcome.after_nil]

section Midway

variable {s t : Session} {x : Outcome} {taken : List DomainRecord} {k : Included}
variable {deeper : List Included} {ps qs : List Processed}

/-- As long as the included file is not at its end, what is left of it makes up the whole. -/
theorem Midway.rest (midway : Midway o depth s x taken t k deeper ps)
    (running : k.exhausted = false) :
    x = (decodeInner o depth (t.inner k deeper).bare).after ps := by
  obtain ⟨-, rest⟩ | ⟨exhausted, -⟩ := midway.ahead
  · exact rest
  · rw [running] at exhausted
    cases exhausted

theorem Midway.within {v : Session} (midway : Midway o (depth + 1) s x taken t k deeper ps)
    (nested : t.WellNested) (running : k.exhausted = false)
    (inner : Step o depth (t.inner k deeper) qs v) :
    Midway o (depth + 1) s x taken (t.outer k v) { k with toOpenFile := v.toOpenFile } v.included
      (ps ++ qs) := by
  obtain ⟨-, -, nestedInner⟩ := nested.of_included midway.open_
  obtain ⟨decoded, waiting⟩ := inner.continues nestedInner
  have step : Step o (depth + 1) t qs (t.outer k v) := .included midway.open_ running inner
  refine ⟨rfl, midway.reader, midway.state, ?_, ?_, .inl ⟨running, ?_⟩⟩
  · rw [(step.continues nested).waiting, ← List.append_assoc, midway.records,
      Processed.allRecords_append, List.append_assoc]
  · show k.delivered + v.waiting.countP DomainRecord.isData = _
    rw [waiting, List.countP_append, ← Nat.add_assoc, midway.delivered, Processed.allRecords_append,
      List.countP_append]
  · rw [midway.rest running, ← Outcome.after_after]
    exact congrArg (Outcome.after · ps) decoded

theorem Midway.ended {result : Except Failure Unit} {v : Session} {reader : ChunkReader}
    (midway : Midway o depth s x taken t k [] ps) (running : k.exhausted = false)
    (read : decodeInner o depth (t.inner k []).bare = ⟨[], result, v⟩)
    (cache : v.state.cache = k.state.cache) (journal : v.journal = t.journal) :
    Midway o depth s x taken { t with included := [{ k with reader, exhausted := true }] }
      { k with reader, exhausted := true } [] ps := by
  refine ⟨rfl, midway.reader, midway.state, ?_, midway.delivered, .inr ⟨rfl, rfl, ?_⟩⟩
  · rw [← midway.records, waiting_inner midway.open_]
    rfl
  · rw [midway.rest running, read]
    exact ⟨List.append_nil ps, cache, journal⟩

theorem Midway.handOn (midway : Midway o depth s x taken t k deeper ps) (nested : t.WellNested)
    (count : Nat) :
    Midway o depth s x taken
      { t.addRecords (k.state.batch.take count) with included := k.handOn count :: deeper }
      (k.handOn count) deeper ps := by
  have split : (k.state.batch.take count ++ k.state.batch.drop count).countP
      DomainRecord.isData = _ := List.countP_append
  have delivered := midway.delivered
  rw [List.take_append_drop] at split
  refine ⟨rfl, midway.reader, ?_, ?_, ?_, midway.ahead⟩
  · rw [addRecords, midway.state]
  · have step : Step o depth t [] _ := .handOn count midway.open_
    rw [(step.continues nested).waiting, Processed.allRecords_nil, List.append_nil]
    exact midway.records
  · simp only [Session.waiting, Session.inner, Included.handOn, List.countP_append] at delivered ⊢
    omega

theorem Midway.resume (midway : Midway o depth s x taken t k [] ps) (finished : k.isFinished) :
    let u := t.resume k
    u = s.handedBack o x u.state.batch ∧ taken ++ u.state.batch = s.state.batch ++ x.records o := by
  obtain ⟨open_, reader, state, records, delivered, ahead⟩ := midway
  simp only [Included.isFinished, Bool.and_eq_true, List.isEmpty_iff] at finished
  obtain ⟨exhausted, nothing⟩ := finished
  obtain ⟨running, -⟩ | ⟨-, -, processed, cache, journal⟩ := ahead
  · rw [exhausted] at running
    cases running
  have empty : (t.inner k []).waiting = [] := by
    simp [Session.waiting, Session.inner, nothing, Included.waiting]
  have count : k.delivered = (x.records o).countP DomainRecord.isData := by
    rw [Outcome.records, processed, ← delivered, empty]
    rfl
  refine ⟨?_, ?_⟩
  · unfold Session.resume handedBack
    rw [cache, journal, count, reader, state]
  · rw [waiting_inner open_, empty, List.append_nil, ← processed] at records
    exact records

theorem Midway.step {u : Session} (midway : Midway o depth s x taken t k deeper ps)
    (nested : t.WellNested) (step : Step o depth t qs u) :
    (∃ k deeper, Midway o depth s x taken u k deeper (ps ++ qs)) ∨
      (u = s.handedBack o x u.state.batch ∧
        taken ++ u.state.batch = s.state.batch ++ x.records o) := by
  have open_ := midway.open_
  obtain ⟨paused, -⟩ := nested.of_included open_
  cases step with
  | header unopened => rw [paused] at unopened; cases unopened
  | entry reads => rw [paused] at reads; cases reads
  | included open_' running inner =>
    cases open_.symm.trans open_'
    exact .inl ⟨_, _, midway.within nested running inner⟩
  | footer open_' running done =>
    cases open_.symm.trans open_'
    rw [List.append_nil]
    exact .inl ⟨_, _, midway.ended running (decode_done done) rfl rfl⟩
  | close open_' running reads ended =>
    cases open_.symm.trans open_'
    rw [List.append_nil]
    exact .inl ⟨_, _, midway.ended running (decode_failed reads ended) rfl rfl⟩
  | handOn count open_' =>
    cases open_.symm.trans open_'
    rw [List.append_nil]
    exact .inl ⟨_, _, midway.handOn nested count⟩
  | resume open_' finished =>
    cases open_.symm.trans open_'
    exact .inr (midway.resume finished)

theorem Midway.take (midway : Midway o depth s x taken t k deeper ps) (count : Nat) :
    Midway o depth s x (taken ++ t.state.batch.take count)
      { t with state := { t.state with batch := t.state.batch.drop count } } k deeper ps := by
  obtain ⟨open_, reader, state, records, delivered, ahead⟩ := midway
  refine ⟨open_, reader, ?_, ?_, delivered, ahead⟩
  · rw [state]
  · rw [← records]
    simp only [Session.waiting, List.append_assoc]
    rw [← List.append_assoc (t.state.batch.take count), List.take_append_drop]

theorem Midway.no_failure {u : Session} {f : Failure}
    (midway : Midway o depth s x taken t k deeper ps) (nested : t.WellNested) (clean : x.isClean) :
    ¬ Fails o depth t qs f u := by
  have open_ := midway.open_
  obtain ⟨paused, -, nestedInner⟩ := nested.of_included open_
  have reading (running : k.exhausted = false) :
      (decodeInner o depth (t.inner k deeper).bare).isClean := by
    rwa [midway.rest running, Outcome.isClean_after] at clean
  intro fails
  cases fails with
  | header unopened => rw [paused] at unopened; cases unopened
  | next reads | entry reads => rw [paused] at reads; cases reads
  | tooDeep open_' running =>
    cases open_.symm.trans open_'
    simpa using reading running
  | @included depth _ _ _ _ _ _ open_' running lasting inner =>
    cases open_.symm.trans open_'
    have stopped : decodeInner o (depth + 1) (t.inner k deeper).bare = _ :=
      (inner.stops nestedInner).decode
    have clean := reading running
    rw [stopped] at clean
    simp [Outcome.isClean, Failure.isFatal, lasting] at clean

theorem Midway.length_le (midway : Midway o depth s x taken t k deeper ps) :
    t.state.batch.length ≤ s.state.batch.length + (x.records o).length := by
  have lengths := congrArg List.length midway.records
  have processed : ∃ qs, x.processed = ps ++ qs := by
    obtain ⟨-, ahead⟩ | ⟨-, -, processed, -⟩ := midway.ahead
    · exact ⟨_, congrArg Outcome.processed ahead⟩
    · exact ⟨[], by rw [processed, List.append_nil]⟩
  obtain ⟨qs, processed⟩ := processed
  rw [Outcome.records, processed, Processed.allRecords_append]
  simp only [Session.waiting, List.length_append] at lengths ⊢
  omega

end Midway

theorem Away.midway_or_back {s t : Session} {i : Included} {parent : FileState}
    {taken : List DomainRecord} (away : Away o depth s taken t) (nested : s.WellNested)
    (open_ : s.included = [i]) (fresh : Fresh parent i) :
    t.WellNested ∧
      ((∃ k deeper ps, Midway o depth s (decodeInner o depth (s.inner i [])) taken t k deeper ps) ∨
        (t = s.handedBack o (decodeInner o depth (s.inner i [])) t.state.batch ∧
          taken ++ t.state.batch =
            s.state.batch ++ (decodeInner o depth (s.inner i [])).records o)) := by
  induction away with
  | start => exact ⟨nested, .inl ⟨i, [], [], .start open_ fresh⟩⟩
  | step _ paused step ih =>
    obtain ⟨nestedThen, ⟨k, deeper, ps, midway⟩ | ⟨back, -⟩⟩ := ih
    · refine ⟨step.wellNested nestedThen, ?_⟩
      rcases midway.step nestedThen step with ⟨k, deeper, midway⟩ | back
      · exact .inl ⟨k, deeper, _, midway⟩
      · exact .inr back
    · rw [back] at paused
      cases paused
  | @take taken t count _ ih =>
    obtain ⟨nestedThen, ⟨k, deeper, ps, midway⟩ | ⟨back, records⟩⟩ := ih
    · exact ⟨nestedThen, .inl ⟨k, deeper, ps, midway.take count⟩⟩
    · refine ⟨nestedThen, .inr ⟨?_, ?_⟩⟩
      · rw [back]
        rfl
      · rw [List.append_assoc, List.take_append_drop]
        exact records

theorem Away.path {s m t : Session} {taken : List DomainRecord} {ps : List Processed}
    (away : Away o depth s taken m) (path : Path o depth m ps t) :
    (∃ u, Away o depth s taken u ∧ u.state.phase ≠ .paused) ∨ Away o depth s taken t := by
  induction path with
  | nil => exact .inr away
  | @cons m _ _ _ _ step _ ih =>
    by_cases paused : m.state.phase = .paused
    · exact ih (away.step paused step)
    · exact .inl ⟨m, away, paused⟩

section Returning

variable {s : Session} {i : Included} {parent : FileState} (nested : s.WellNested)
variable (open_ : s.included = [i]) (fresh : Fresh parent i)
variable (clean : (decodeInner o depth (s.inner i [])).isClean)
include nested open_ fresh clean

/-- Filling a batch while the session is away does not fail before the session is back. -/
theorem Away.fill {t : Session} {taken : List DomainRecord} (away : Away o depth s taken t)
    (limit : Nat) :
    ∃ u, Away o depth s taken u ∧
      (u.state.phase ≠ .paused ∨ Session.fill o depth limit t = (.ok (), u) ∧
        limit ≤ u.state.batch.length) := by
  have filled := filled_fill (o := o) depth limit (away.midway_or_back nested open_ fresh).1
  generalize Session.fill o depth limit t = filling at filled ⊢
  obtain ⟨result, v⟩ := filling
  cases filled with
  | ok path full =>
    rcases away.path path with ⟨u, away, back⟩ | away
    · exact ⟨u, away, .inl back⟩
    · refine ⟨v, away, ?_⟩
      rcases full with full | done
      · exact .inr ⟨rfl, full⟩
      · exact .inl (by rw [done]; decide)
  | @error _ _ m _ _ path fails =>
    rcases away.path path with ⟨u, away, back⟩ | away
    · exact ⟨u, away, .inl back⟩
    · obtain ⟨nestedThen, ⟨k, deeper, ps, midway⟩ | ⟨back, -⟩⟩ :=
        away.midway_or_back nested open_ fresh
      · exact absurd fails (midway.no_failure nestedThen clean)
      · exact ⟨m, away, .inl (by rw [back]; exact nofun)⟩

/-- With room for its records, the included file is read to its end. -/
theorem comes_back : ∃ t, Away o depth s [] t ∧ t.state.phase ≠ .paused := by
  obtain ⟨t, away, back | ⟨-, full⟩⟩ := Away.fill nested open_ fresh clean .start
    (s.state.batch.length + ((decodeInner o depth (s.inner i [])).records o).length + 1)
  · exact ⟨t, away, back⟩
  · obtain ⟨-, ⟨k, deeper, ps, midway⟩ | ⟨back, -⟩⟩ := away.midway_or_back nested open_ fresh
    · have short := midway.length_le
      omega
    · exact ⟨t, away, by rw [back]; exact nofun⟩

end Returning

/-- An included file that can be read to its end is read as if its entries stood in the place of the
entry that includes it: processed one after the other on one desk, under the name and the numbers of
the included file and reported at that entry, from the features of the file around it. However the
records are handed on and taken in between, the session comes back to reading with just the cache,
the summaries and the records that this leaves; then its cache is the one that the included file
ended with, and everything else in it is as it was. -/
theorem included_in_place {s : Session} {e : Entry} {reader : ChunkReader} {i : Included}
    (reads : s.state.phase.readsEntries) (found : ChunkReader.next s.reader = (.ok e, reader))
    (opened : (s.processing e).result o = .ok (some i)) :
    let m := (s.processing e).after o
    let t := s.afterEntry reader m (some i)
    let x := decodeInner o depth (t.inner i [])
    x.isClean →
      Step o depth s [s.processing e] t ∧ Opens o e (s.processing e).desk i ∧
      (∃ d, InPlace o i.reader (m.enter i) d ∧ (∀ d', InPlace o i.reader (m.enter i) d' → d' = d) ∧
        x.session.state.cache = d.state.cache ∧
        t.state.cache.mergeBack x.session.state.cache = d.state.cache ∧
        ∀ taken u, Away o depth t taken u → u.state.phase ≠ .paused →
          taken ++ u.state.batch = s.state.batch ++ d.state.batch ∧
          u = { reader
                state := { (d.leave m).state with batch := u.state.batch }
                included := []
                journal := d.journal }) ∧
      (∃ u, Away o depth t [] u ∧ u.state.phase ≠ .paused) ∧
      ∀ taken u limit, Away o depth t taken u → ∃ v, Away o depth t taken v ∧
        (v.state.phase ≠ .paused ∨ Session.fill o depth limit u = (.ok (), v) ∧
          limit ≤ v.state.batch.length) := by
  intro m t x clean
  have done : process o e (s.processing e).desk = (.ok (some i), m) := Prod.ext opened rfl
  obtain ⟨paused, fresh⟩ := (s.processing e).paused_after o rfl opened
  have nested : t.WellNested :=
    ⟨paused, by rw [fresh.exhausted]; nofun, by rw [fresh.phase]; nofun⟩
  obtain ⟨learned, inPlace⟩ : ReadsInPlace o (t.inner i []) x :=
    readsInPlace_decodeInner depth rfl (by rw [inner, fresh.phase]; rfl) fresh.batch clean
  have handed : (t.inner i []).known = m.known := congrArg Cache.catalog fresh.cache
  rw [handed] at learned
  obtain ⟨d, placed, cache, journal, batch⟩ := inPlace m.state.batch
  have entered : m.enter i = (t.inner i []).deskWith m.state.batch := enter_eq done
  rw [← entered] at placed
  refine ⟨.entry reads found opened, opens_of_process done,
    ⟨d, placed, fun d' other => other.unique placed, cache.symm,
      (mergeBack_eq learned.grows).trans cache.symm, fun taken u away back => ?_⟩,
    comes_back nested rfl fresh clean,
    fun taken u limit away => Away.fill nested rfl fresh clean away limit⟩
  obtain ⟨-, ⟨k, deeper, ps, midway⟩ | ⟨returned, records⟩⟩ := away.midway_or_back nested rfl fresh
  · rw [midway.state] at back
    exact absurd paused back
  · have left : d.leave (m.prepend []) = (t.handedBack o x []).deskWith _ :=
      deskWith_handedBack learned.grows cache journal batch
    refine ⟨?_, ?_⟩
    · rw [records, batch, ← List.append_assoc]
      rfl
    · have same : m.prepend [] = m := rfl
      rw [same] at left
      rw [left, journal]
      exact returned

/-- A file that includes another one, from its seventh entry on, which includes a third one. -/
theorem included_in_place_twice :
    let words (chunks : List UInt32) : List UInt8 := chunks.flatMap bytesOfChunk
    let file (entries : List UInt8) : Source := [.bytes (signature ++ words [1, 0] ++ entries)]
    let noOp : List UInt8 := Entry.encode 2 8 []
    let o : StreamOptions := ⟨⟨none, true, .row, false⟩, .accepting, some (.named (.ofList [
      ("b", file (noOp ++ Entry.encode 2 9 [(0x0501, [1, 0x63])] ++ Entry.encode 0 1 [])),
      ("c", file noOp)]))⟩
    let s : Session := {
      reader := ⟨[.bytes (Entry.encode 2 9
        [(0x0500, [9, 4]), (0x0501, [1, 0x62]), (0x0502, [7])] ++ noOp)], 16⟩
      state := ⟨⟨3, 5, "a"⟩, .reading, .empty, .none, 0, none, [], none⟩
      included := []
      journal := .empty }
    ∃ e reader i d u, (s.processing e).result o = .ok (some i) ∧
      InPlace o i.reader (((s.processing e).after o).enter i) d ∧
      Away o 2 (s.afterEntry reader ((s.processing e).after o) (some i)) [] u ∧
      u.state.phase ≠ .paused ∧ u.state.batch = d.state.batch ∧ u.state.cache = d.state.cache := by
  intro words file noOp o s
  let opened (e : Entry) : Option Included := ((s.processing e).result o).toOption.join
  let clean (e : Entry) (reader : ChunkReader) (i : Included) : Bool :=
    (decodeInner o 2 ((s.afterEntry reader ((s.processing e).after o) (some i)).inner i [])).isClean
  have runs : ((ChunkReader.next s.reader).1.toOption.any fun e =>
      (opened e).any (clean e (ChunkReader.next s.reader).2)) = true := by decide +kernel
  obtain ⟨e, read, runs⟩ := (Option.any_eq_true _ _).1 runs
  obtain ⟨i, opens, runs⟩ := (Option.any_eq_true _ _).1 runs
  have found : ChunkReader.next s.reader = (.ok e, (ChunkReader.next s.reader).2) := by
    generalize ChunkReader.next s.reader = first at read ⊢
    obtain ⟨_ | _, _⟩ := first <;> cases read
    rfl
  have opened : (s.processing e).result o = .ok (some i) := by
    have joined : ((s.processing e).result o).toOption.join = some i := opens
    generalize (s.processing e).result o = result at joined ⊢
    cases result with
    | error => cases joined
    | ok => exact congrArg Except.ok joined
  obtain ⟨-, -, ⟨d, placed, -, -, -, back⟩, ⟨u, away, returned⟩, -⟩ :=
    included_in_place rfl found opened runs
  obtain ⟨records, state⟩ := back [] u away returned
  refine ⟨e, _, i, d, u, opened, placed, away, returned, records, ?_⟩
  rw [state]
  rfl

end Session

end ChangeCapture
