import ChangeCapture.Proofs.Accounts
import ChangeCapture.Proofs.ChosenTables

/-! Two readings of a file that differ in the view and in what is decoded. Where rows are not put
together, an entry belongs to its transaction whether it is decoded or not: the readings hand out the
same summaries but for the tables in them, and those too where the same is decoded. -/
namespace ChangeCapture

variable {tables : Bool} {o o' : StreamOptions}

/-- The same options with another view, where other entries are decoded. -/
def StreamOptions.decoding (o : StreamOptions) (view : ChangeView) (parse : GateInput → Bool) :
    StreamOptions :=
  { o with config := { o.config with view }, gates := o.gates.replacing .parse parse }

/-- Options that summaries depend on in the same way, with the tables or without. -/
structure StreamOptions.Abreast (tables : Bool) (o o' : StreamOptions) : Prop where
  delivering : o.Delivering
  delivering' : o'.Delivering
  apart : o.config.mergeMultipart = false
  apart' : o'.config.mergeMultipart = false
  includes : o'.includes = o.includes
  parse : tables = true → o'.gates .parse = o.gates .parse

theorem StreamOptions.abreast_decoding (delivering : o.Delivering)
    (apart : o.config.mergeMultipart = false) (view view' : ChangeView)
    {parse parse' : GateInput → Bool} (same : tables = true → parse' = parse) :
    (o.decoding view parse).Abreast tables (o.decoding view' parse') where
  delivering := delivering
  delivering' := delivering
  apart := apart
  apart' := apart
  includes := rfl
  parse told := same told

theorem Catalog.assemble_catalog (c : Catalog) (view view' : ChangeView) (id : RecordId)
    (e : Entry) : (c.assemble view' id e).catalog = (c.assemble view id e).catalog := by
  have alike := (c.assemble_alike id e).1
  cases view <;> cases view' <;> simp [alike]

namespace Desk

open ChangeCapture.Action

/-- Desks of two readings at the same place, with the same to do with transactions. -/
structure Abreast (tables : Bool) (d d' : Desk) : Prop where
  same : d'.account tables = d.account tables
  nothing : d.state.cache.parts = ∅

namespace Abreast

variable {d d' m m' : Desk} (abreast : Abreast tables d d')
include abreast

theorem nothing' : d'.state.cache.parts = ∅ :=
  (congrArg Account.parts abreast.same).trans abreast.nothing

theorem place : d'.shape.place = d.shape.place := congrArg Account.place abreast.same

theorem features : d'.state.features = d.state.features :=
  (congrArg FileState.features abreast.place :)

theorem file : d'.state.file = d.state.file := (congrArg FileState.file abreast.place :)

theorem known (told : tables = true) : d'.known = d.known := by
  subst told
  exact Option.some.inj (congrArg Account.known abreast.same)

theorem summaries : toldSummaries tables d'.state.batch = toldSummaries tables d.state.batch :=
  congrArg Account.summaries abreast.same

theorem step (f : Account → Account) (keeps : ∀ a, (f a).parts = a.parts)
    (left : m.account tables = f (d.account tables))
    (right : m'.account tables = f (d'.account tables)) : Abreast tables m m' where
  same := by rw [right, left, abreast.same]
  nothing := (congrArg Account.parts left).trans ((keeps _).trans abreast.nothing)

theorem move (f : FileState → FileState)
    (left : m.account tables =
      { d.account tables with place := f (d.account tables).place })
    (right : m'.account tables =
      { d'.account tables with place := f (d'.account tables).place }) : Abreast tables m m' :=
  abreast.step (fun a => { a with place := f a.place }) (fun _ => rfl) left right

end Abreast

theorem Account.parts_observing (e : Entry) (n : Observation) (a : Account) :
    (a.observing e n).parts = a.parts := by
  unfold observing
  split <;> rfl

section Entry

variable {d d' m m' : Desk} {e : Entry} {id : RecordId} {offset : StreamOffset}

theorem change_abreast (alike : o.Abreast tables o') (abreast : Abreast tables d d')
    (done : change o e id offset d = (.ok (), m))
    (done' : change o' e id offset d' = (.ok (), m')) : Abreast tables m m' := by
  obtain ⟨schema, named, left⟩ := account_change alike.delivering alike.apart done
  obtain ⟨schema', named', right⟩ := account_change alike.delivering' alike.apart' done'
  have schemas (told : tables = true) : schema' = schema := by
    rw [abreast.known told, named] at named'
    exact (Except.ok.inj named').symm
  have learns (told : tables = true) : d'.learned o' e id ⟨e.kind, schema', offset⟩ =
      d.learned o e id ⟨e.kind, schema, offset⟩ := by
    rw [learned, learned, schemas told, abreast.known told, alike.parse told,
      Catalog.assemble_catalog]
  have observed : Observation.told tables ⟨d'.state.file.uid, id, offset, schema'⟩ =
      Observation.told tables ⟨d.state.file.uid, id, offset, schema⟩ :=
    Observation.told_eq (by rw [abreast.file]) rfl rfl schemas
  rw [Account.knowing_eq learns, observed] at right
  exact abreast.step (fun a => (a.knowing tables _).observing e _)
    (fun _ => Account.parts_observing ..) left right

theorem metadata_abreast (alike : o.Abreast tables o') (abreast : Abreast tables d d')
    (done : metadata o e offset d = (.ok (), m))
    (done' : metadata o' e offset d' = (.ok (), m')) : Abreast tables m m' := by
  obtain ⟨schema, named, left⟩ := account_metadata alike.delivering done
  obtain ⟨schema', named', right⟩ := account_metadata alike.delivering' done'
  have defines (told : tables = true) : d'.defined o' e ⟨e.kind, schema', offset⟩ =
      d.defined o e ⟨e.kind, schema, offset⟩ := by
    rw [abreast.known told, named] at named'
    cases named'
    rw [defined, defined, abreast.known told, alike.parse told]
  rw [Account.knowing_eq defines] at right
  exact abreast.step (fun a => a.knowing tables _) (fun _ => rfl) left right

theorem header_abreast (abreast : Abreast tables d d') (done : header e d = (.ok (), m))
    (done' : header e d' = (.ok (), m')) : Abreast tables m m' := by
  obtain ⟨bits, _, found, declared⟩ := Action.bind_ok done
  obtain ⟨bits', _, found', declared'⟩ := Action.bind_ok done'
  obtain ⟨given, rfl⟩ := ofExcept_run found
  obtain ⟨given', rfl⟩ := ofExcept_run found'
  rw [given] at given'
  cases given'
  cases declared
  cases declared'
  exact abreast.move (fun f => { f with features := ⟨.ofNat (bits.getD 0)⟩ }) rfl rfl

theorem includeStats_abreast (abreast : Abreast tables d d') (done : includeStats e d = (.ok (), m))
    (done' : includeStats e d' = (.ok (), m')) : Abreast tables m m' := by
  have kept {d m : Desk} (done : includeStats e d = (.ok (), m)) :
      m.account tables = d.account tables := by
    rw [includeStats_eq] at done
    obtain ⟨announced, l, found, compared⟩ := Action.bind_ok done
    obtain ⟨-, rfl⟩ := ofExcept_run found
    cases announced with
    | none =>
      cases compared
      rfl
    | some n =>
      cases compared
      exact account_settle e n l
  exact abreast.step (fun a => a) (fun _ => rfl) (kept done) (kept done')

theorem observe_abreast (alike : o.Abreast tables o') (abreast : Abreast tables d d')
    {n n' : Observation} (same : n'.told tables = n.told tables)
    (done : observe o e n d = (.ok (), m)) (done' : observe o' e n' d' = (.ok (), m')) :
    Abreast tables m m' := by
  have right : m'.account tables = _ := account_observe_ok alike.delivering' done'
  rw [same] at right
  exact abreast.step _ (fun a => Account.parts_observing ..)
    (account_observe_ok alike.delivering done) right

/-- What an entry comes to in both readings: they open the same file, if they open one. -/
def Meets (tables : Bool) (m m' : Desk) (opened opened' : Option Included) : Prop :=
  Abreast tables m m' ∧ Option.Rel Opened opened opened'

theorem meets_of_unit {x y : Action Desk Unit} {opened opened' : Option Included}
    (keeps : ∀ {m m'}, x d = (.ok (), m) → y d' = (.ok (), m') → Abreast tables m m')
    (done : (x >>= fun _ => pure none) d = (.ok opened, m))
    (done' : (y >>= fun _ => pure none) d' = (.ok opened', m')) :
    Meets tables m m' opened opened' := by
  obtain ⟨_, _, first, ended⟩ := Action.bind_ok done
  obtain ⟨_, _, first', ended'⟩ := Action.bind_ok done'
  cases ended
  cases ended'
  exact ⟨keeps first first', .none⟩

theorem perform_abreast (alike : o.Abreast tables o') (abreast : Abreast tables d d')
    {opened opened' : Option Included} (done : perform o e id offset d = (.ok opened, m))
    (done' : perform o' e id offset d' = (.ok opened', m')) : Meets tables m m' opened opened' := by
  by_cases row : e.kind.isChange
  · rw [perform_change _ row] at done done'
    exact meets_of_unit (change_abreast alike abreast) done done'
  cases kind : e.kind with
  | insert | update | delete | lobWrite | lobErase | lobTrim | ddl | noOp =>
    simp [kind, EntryKind.isChange, EntryKind.isDataBearing] at row
  | metadata =>
    rw [perform_metadata _ kind] at done done'
    exact meets_of_unit (metadata_abreast alike abreast) done done'
  | header =>
    rw [perform_header _ kind] at done done'
    exact meets_of_unit (header_abreast abreast) done done'
  | includeStats =>
    rw [perform_includeStats _ kind] at done done'
    exact meets_of_unit (includeStats_abreast abreast) done done'
  | unknown =>
    rw [perform_unknown _ kind] at done done'
    refine meets_of_unit (fun warned warned' => ?_) done done'
    cases warned
    cases warned'
    exact abreast.step (fun a => a) (fun _ => rfl) (account_warn _ _) (account_warn _ _)
  | commit =>
    rw [perform_commit _ kind] at done done'
    exact meets_of_unit (observe_abreast alike abreast (by rw [abreast.file])) done done'
  | footer =>
    rw [perform_footer _ kind] at done done'
    cases done
    cases done'
    exact ⟨abreast.move (fun f => { f with phase := .done }) rfl rfl, .none⟩
  | includeFile =>
    rw [perform_includeFile _ kind] at done done'
    split at done <;> cases done
    split at done' <;> cases done'
    next i opens _ i' opens' =>
      obtain ⟨_, found, same⟩ := includedFile_shadows alike.includes abreast.features opens
      rw [opens'] at found
      cases found
      exact ⟨abreast.move (fun f => { f with phase := .paused }) rfl rfl, .some same⟩

/-- An entry in both readings. -/
theorem process_abreast (alike : o.Abreast tables o') (abreast : Abreast tables d d')
    {opened opened' : Option Included} (done : process o e d = (.ok opened, m))
    (done' : process o' e d' = (.ok opened', m')) : Meets tables m m' opened opened' := by
  have next : d'.nextId = d.nextId :=
    (congrArg (fun f : FileState => RecordId.mk f.file.sequence f.counted.entrySeq) abreast.place :)
  have reported : d'.reported e = d.reported e :=
    (congrArg (fun f : FileState => f.reportAt.getD ⟨f.file.uid, e.offset⟩) abreast.place :)
  rw [process_apply, cleared_eq abreast.nothing] at done
  rw [process_apply, cleared_eq abreast.nothing', next, reported] at done'
  exact perform_abreast alike
    (abreast.move FileState.counted rfl rfl) done done'

end Entry

end Desk

namespace Session

open Desk

/-- Sessions of two readings at the same place. -/
structure Abreast (tables : Bool) (s s' : Session) : Prop where
  reader : s'.reader = s.reader
  desk : Desk.Abreast tables ⟨s.state, s.journal⟩ ⟨s'.state, s'.journal⟩

variable {s s' : Session}

theorem Abreast.phase (abreast : Abreast tables s s') : s'.state.phase = s.state.phase :=
  (congrArg FileState.phase abreast.desk.place :)

theorem Abreast.processing (abreast : Abreast tables s s') (e : Entry) :
    Desk.Abreast tables (s.processing e).desk (s'.processing e).desk :=
  abreast.desk.step
    (fun a => { a with place := { a.place with phase := .reading }, summaries := [] })
    (fun _ => rfl) rfl rfl

theorem Abreast.processed (abreast : Abreast tables s s') (alike : o.Abreast tables o') {e : Entry}
    {opened opened' : Option Included} (done : (s.processing e).result o = .ok opened)
    (done' : (s'.processing e).result o' = .ok opened') :
    Meets tables ((s.processing e).after o) ((s'.processing e).after o') opened opened' :=
  process_abreast alike (abreast.processing e) (Prod.ext done rfl) (Prod.ext done' rfl)

theorem Abreast.afterEntry {m m' : Desk} (abreast : Desk.Abreast tables m m') (s s' : Session)
    (reader : ChunkReader) :
    Abreast tables (s.afterEntry reader m none).bare (s'.afterEntry reader m' none).bare :=
  ⟨rfl, abreast.step (fun a => { a with summaries := [] }) (fun _ => rfl) rfl rfl⟩

theorem Abreast.inner {m m' : Desk} (abreast : Desk.Abreast tables m m') {i i' : Included}
    (opens : Opened i i') (fresh : Fresh m.state i) (fresh' : Fresh m'.state i') (s s' : Session)
    (reader : ChunkReader) :
    Abreast tables ((s.afterEntry reader m (some i)).inner i [])
      ((s'.afterEntry reader m' (some i')).inner i' []) := by
  have account {m : Desk} {i : Included} (fresh : Fresh m.state i) :
      (Desk.mk i.state m.journal).account tables =
        { m.account tables with
          place := (Desk.mk i.state .empty).shape.place
          summaries := [] } := by
    rw [account, Desk.known, transactions, fresh.cache, fresh.batch]
    rfl
  refine ⟨opens.reader, abreast.step
    (fun a => { a with place := (Desk.mk i.state .empty).shape.place, summaries := [] })
    (fun _ => rfl) (account fresh) ((account fresh').trans ?_)⟩
  rw [opens.place]

end Session

open Desk in
/-- What both readings of a file come to. -/
structure Outcome.Abreast (tables : Bool) (o o' : StreamOptions) (x x' : Outcome) : Prop where
  session : Session.Abreast tables x.session x'.session
  summaries : toldSummaries tables (x'.records o') = toldSummaries tables (x.records o)

namespace Outcome.Abreast

open Desk

variable {x x' : Outcome}

theorem ended {s s' : Session} (abreast : Session.Abreast tables s s')
    {result result' : Except Failure Unit} :
    Outcome.Abreast tables o o' ⟨[], result, s⟩ ⟨[], result', s'⟩ where
  session := abreast
  summaries := by rw [records, records, Processed.allRecords_nil, Processed.allRecords_nil]

theorem after {ps ps' : List Processed} (abreast : x.Abreast tables o o' x')
    (before : toldSummaries tables (Processed.allRecords o' ps') =
      toldSummaries tables (Processed.allRecords o ps)) :
    (x.after ps).Abreast tables o o' (x'.after ps') where
  session := abreast.session
  summaries := by
    rw [records_after, records_after, toldSummaries_append, toldSummaries_append, before,
      abreast.summaries]

theorem included {p p' : Processed} (abreast : x.Abreast tables o o' x')
    (own : toldSummaries tables (p'.records o') = toldSummaries tables (p.records o)) :
    toldSummaries tables (Processed.allRecords o' (p' :: x'.processed)) =
      toldSummaries tables (Processed.allRecords o (p :: x.processed)) := by
  have rest := abreast.summaries
  unfold records Processed.allRecords at rest
  rw [Processed.allRecords, Processed.allRecords, List.flatMap_cons, List.flatMap_cons,
    toldSummaries_append, toldSummaries_append, own, rest]

theorem lastRecords (alike : o.Abreast tables o') (abreast : x.Abreast tables o o' x') :
    toldSummaries tables (x'.lastRecords o') = toldSummaries tables (x.lastRecords o) := by
  have desk := abreast.session.desk
  have left : (flushTransactions o.gates ⟨x.session.state, x.session.journal⟩).account tables = _ :=
    account_flushTransactions alike.delivering desk.nothing
  have right : (flushTransactions o'.gates ⟨x'.session.state, x'.session.journal⟩).account tables =
      _ := account_flushTransactions alike.delivering' desk.nothing'
  rw [desk.same] at right
  exact congrArg Account.summaries (right.trans left.symm)

end Outcome.Abreast

namespace Session

open Desk

variable {s s' : Session}

theorem Abreast.handedBack {m m' : Desk} (abreast : Desk.Abreast tables m m')
    {opened opened' : Option Included} (s s' : Session) (reader : ChunkReader) {x x' : Outcome}
    (inside : x.Abreast tables o o' x') :
    Abreast tables ((s.afterEntry reader m opened).handedBack o x [])
      ((s'.afterEntry reader m' opened').handedBack o' x' []) := by
  have account (o : StreamOptions) (s : Session) (m : Desk) (opened : Option Included)
      (x : Outcome) :
      let t := (s.afterEntry reader m opened).handedBack o x []
      (Desk.mk t.state t.journal).account tables =
        { (Desk.mk x.session.state x.session.journal).account tables with
          place := { (m.account tables).place with phase := .reading }
          known := (m.account tables).known.bind fun known =>
            ((Desk.mk x.session.state x.session.journal).account tables).known.map known.merge
          summaries := [] } := by
    cases tables <;> rfl
  refine ⟨rfl, inside.session.desk.step (fun a => { a with
    place := { (m.account tables).place with phase := .reading }
    known := (m.account tables).known.bind fun known => a.known.map known.merge
    summaries := [] }) (fun _ => rfl) (account ..) ((account ..).trans ?_)⟩
  rw [abreast.same]

/-- Both readings of files come to the same, whatever these are included in. -/
def ReadAbreast (tables : Bool) (o o' : StreamOptions) (inner inner' : Session → Outcome) : Prop :=
  ∀ s s', s.AtEntry → s'.AtEntry → Abreast tables s s' → (inner s).isClean → (inner' s').isClean →
    (inner s).Abreast tables o o' (inner' s')

theorem whole_abreast (alike : o.Abreast tables o') {inner inner' : Session → Outcome}
    (within : ReadAbreast tables o o' inner inner') {s s' : Session} (here : s.AtEntry)
    (here' : s'.AtEntry) (abreast : Abreast tables s s') (clean : (whole o inner s).isClean)
    (clean' : (whole o' inner' s').isClean) :
    (whole o inner s).Abreast tables o o' (whole o' inner' s') := by
  induction size : s.size using Nat.strongRecOn generalizing s s' with
  | ind n ih =>
  subst size
  rcases clean_reads here.reads clean with
    ⟨reader, ended, closed⟩ | ⟨e, reader, opened, found, done⟩
  · rw [closed, whole_failed here'.reads (abreast.reader ▸ ended)]
    have atEnd : Abreast tables { s with reader } { s' with reader } := ⟨rfl, abreast.desk⟩
    exact .ended atEnd
  have found' : ChunkReader.next s'.reader = (.ok e, reader) := abreast.reader ▸ found
  obtain ⟨opened', done'⟩ := result_of_clean here'.reads found' clean'
  obtain ⟨after, related⟩ := abreast.processed alike done done'
  cases related with
  | none =>
    obtain ⟨smaller, onward⟩ := whole_entry here.reads found done
    obtain ⟨-, onward'⟩ := whole_entry here'.reads found' done'
    rw [onward] at clean ⊢
    rw [onward'] at clean' ⊢
    refine Outcome.Abreast.after ?_ ?_
    swap
    · rw [Processed.allRecords_singleton, Processed.allRecords_singleton]
      exact after.summaries
    have goesOn := Abreast.afterEntry after s s' reader
    obtain ⟨-, phase | phase⟩ | ⟨_, same, -⟩ :=
      Processed.phase_after o (s.processing e) rfl done
    · have phase' := goesOn.phase.trans phase
      exact ih _ smaller (atEntry_afterEntry phase s reader) (atEntry_afterEntry phase' s' reader)
        goesOn clean clean' rfl
    · rw [whole_done phase, whole_done (goesOn.phase.trans phase)]
      exact .ended goesOn
    · cases same
  | @some i i' opens =>
    obtain ⟨ends, smaller, onward⟩ := whole_included here.reads found done clean
    obtain ⟨ends', -, onward'⟩ := whole_included here'.reads found' done' clean'
    rw [onward] at clean ⊢
    rw [onward'] at clean' ⊢
    obtain ⟨-, fresh⟩ := (s.processing e).paused_after o rfl done
    obtain ⟨-, fresh'⟩ := (s'.processing e).paused_after o' rfl done'
    have inside := within _ _ (atEntry_inner fresh _) (atEntry_inner fresh' _)
      (Abreast.inner after opens fresh fresh' s s' reader) ends ends'
    refine Outcome.Abreast.after ?_ (inside.included after.summaries)
    exact ih _ smaller ⟨rfl, rfl, rfl⟩ ⟨rfl, rfl, rfl⟩
      (Abreast.handedBack after s s' reader inside) clean clean' rfl

/-- Included files are read alike, up to any depth. -/
theorem readAbreast_decodeInner (alike : o.Abreast tables o') (depth : Nat) :
    ReadAbreast tables o o' (decodeInner o depth) (decodeInner o' depth) := by
  induction depth with
  | zero =>
    intro s s' _ _ _ clean
    simp at clean
  | succ depth ih =>
    intro s s' here here' abreast clean clean'
    rw [decodeInner_reads here.reads] at clean ⊢
    rw [decodeInner_reads here'.reads] at clean' ⊢
    exact whole_abreast alike ih here here' abreast clean clean'

end Session

namespace LogStream

open Session Desk

variable {file : LogFile} {source : Source} {s s' : LogStream} {j j' : Journal}

theorem rest_abreast (alike : o.Abreast tables o') (shared : j'.summaries = j.summaries)
    (clean : ((ofSource file source o .empty).rest j).isClean)
    (clean' : ((ofSource file source o' .empty).rest j').isClean) :
    ((ofSource file source o .empty).rest j).Abreast tables o o'
      ((ofSource file source o' .empty).rest j') := by
  let s (o : StreamOptions) (j : Journal) : Session := (ofSource file source o .empty).session j
  have begins (phase : Phase) (reader : ChunkReader) : Abreast tables
      { s o j with reader, state := { (s o j).state with phase } }
      { s o' j' with reader, state := { (s o' j').state with phase } } := by
    refine ⟨rfl, ?_, rfl⟩
    rw [account, account, transactions, transactions]
    show Account.mk _ _ _ (Transactions.told tables ⟨_, j'.summaries⟩) _ = _
    rw [shared]
    rfl
  have deep : depth o' = depth o := by rw [depth, depth, alike.includes]
  rcases header : ChunkReader.fileHeader (.ofSource source) with ⟨f | h, reader⟩
  · rw [rest_unopened header, rest_unopened header]
    exact .ended (begins .unopened reader)
  · rw [rest_opened header] at clean clean' ⊢
    rw [rest_opened header]
    rw [deep] at clean' ⊢
    exact whole_abreast alike (readAbreast_decodeInner alike (depth o)) ⟨rfl, rfl, rfl⟩
      ⟨rfl, rfl, rfl⟩ (begins .headerRead reader) clean clean'

/-- Streams of one file that hand out nothing but records. -/
theorem yields_abreast (alike : o.Abreast tables o') (shared : j'.summaries = j.summaries)
    (starts : Starts file source o .empty s) (starts' : Starts file source o' .empty s')
    {records records' : List DomainRecord} {u u' : Records}
    (yields : Records.Yields (.ofStream s j) (records.map .ok) u)
    (yields' : Records.Yields (.ofStream s' j') (records'.map .ok) u') :
    toldSummaries tables records' = toldSummaries tables records := by
  obtain ⟨clean, rfl⟩ := everything_of_yields (starts.wellNested j) yields
  obtain ⟨clean', rfl⟩ := everything_of_yields (starts'.wellNested j') yields'
  have abreast : (s.rest j).Abreast tables o o' (s'.rest j') := by
    rw [starts.rest] at clean ⊢
    rw [starts'.rest] at clean' ⊢
    exact rest_abreast alike shared clean clean'
  obtain ⟨options, -⟩ := starts.fresh
  obtain ⟨options', -⟩ := starts'.fresh
  rw [everything, everything, decoded, decoded, starts.waiting, starts'.waiting, options, options',
    List.nil_append, List.nil_append, toldSummaries_append, toldSummaries_append,
    abreast.lastRecords alike, abreast.summaries]

/-- Entries that are skipped still belong to their transactions. Where rows are not put together and
every record is delivered, two readings of a file that differ only in the view and in what is decoded,
that start from the same open transactions, and that both come to the end, hand out the same summaries
but for the tables in them, and those too where the same is decoded. -/
theorem yields_decoding {view view' : ChangeView} {parse parse' : GateInput → Bool}
    {records records' : List DomainRecord} {u u' : Records}
    (delivering : ∀ input, o.gates .persist input = true ∧ o.gates .filter input = true)
    (apart : o.config.mergeMultipart = false)
    (starts : Starts file source (o.decoding view parse) .empty s)
    (starts' : Starts file source (o.decoding view' parse') .empty s')
    (shared : j'.summaries = j.summaries)
    (yields : Records.Yields (.ofStream s j) (records.map .ok) u)
    (yields' : Records.Yields (.ofStream s' j') (records'.map .ok) u') :
    let bare (s : TransactionSummary) : TransactionSummary := { s with schemaCounts := ∅ }
    (records'.filterMap DomainRecord.summary?).map bare =
        (records.filterMap DomainRecord.summary?).map bare ∧
      (parse' = parse → records'.filterMap DomainRecord.summary? =
        records.filterMap DomainRecord.summary?) := by
  intro bare
  refine ⟨?_, fun same => ?_⟩
  · have alike : (o.decoding view parse).Abreast false (o.decoding view' parse') :=
      StreamOptions.abreast_decoding delivering apart view view' nofun
    exact yields_abreast alike shared starts starts' yields yields'
  · have alike : (o.decoding view parse).Abreast true (o.decoding view' parse') :=
      StreamOptions.abreast_decoding delivering apart view view' fun _ => same
    have all := yields_abreast alike shared starts starts' yields yields'
    rwa [toldSummaries_true, toldSummaries_true] at all

/-- A table that gets another name in an included file. Where the entry that names it is skipped the
next one is counted for the old name, and nothing else is different in the summaries. -/
theorem yields_decoding_renamed :
    let words (chunks : List UInt32) : List UInt8 := chunks.flatMap bytesOfChunk
    let change (xid : UInt32) (table : List (UInt32 × List UInt32)) : List UInt8 :=
      Entry.encode 2 1 ([(0x0100, [1, xid]), (0x0101, [7, 0]), (0x0102, [1700000000, 0])] ++ table ++
        [(0x0300, [1]), (0x0301, [1, 0x62]), (0x0302, [4, 0x424f4c43])])
    let named (name : UInt32) : List (UInt32 × List UInt32) :=
      [(0x0200, [5]), (0x0201, [3, 0x505041]), (0x0202, [1, name])]
    let inner : Source := [.bytes (signature ++ words [1, 0] ++ change 0x31 (named 0x42) ++
      change 0x31 [(0x0200, [5])])]
    let source : Source := [.bytes (signature ++ words [1, 0] ++ change 0x31 (named 0x41) ++
      Entry.encode 2 9 [(0x0501, [1, 0x62])] ++ change 0x32 (named 0x41) ++ Entry.encode 0 1 [])]
    let o : StreamOptions :=
      ⟨⟨none, false, .row, false⟩, .accepting, some (.named (.ofList [("b", inner)]))⟩
    let s := ofSource ⟨3, 5, "a"⟩ source (o.decoding .row fun _ => true) .empty
    let s' := ofSource ⟨3, 5, "a"⟩ source
      (o.decoding .vector fun input => input.schema ≠ some "APP.B") .empty
    let records := s.everything .empty
    let records' := s'.everything .empty
    let bare (s : TransactionSummary) : TransactionSummary := { s with schemaCounts := ∅ }
    (∃ u, Records.Yields (.ofStream s .empty) (records.map .ok) u) ∧
      (∃ u, Records.Yields (.ofStream s' .empty) (records'.map .ok) u) ∧
      records.length = 6 ∧ records'.length = 5 ∧
      (records'.filterMap DomainRecord.summary?).map bare =
        (records.filterMap DomainRecord.summary?).map bare ∧
      (records.filterMap DomainRecord.summary?).map TransactionSummary.recordCount = [3, 1] ∧
      records'.filterMap DomainRecord.summary? ≠ records.filterMap DomainRecord.summary? := by
  intro words change named inner source o s s' records records' bare
  have starts : Starts ⟨3, 5, "a"⟩ source (o.decoding .row fun _ => true) .empty s := .new
  have starts' : Starts ⟨3, 5, "a"⟩ source
    (o.decoding .vector fun input => input.schema ≠ some "APP.B") .empty s' := .new
  have clean : (s.rest .empty).isClean := by decide +kernel
  have clean' : (s'.rest .empty).isClean := by decide +kernel
  obtain ⟨u, yields⟩ := yields_everything (starts.wellNested .empty) clean
  obtain ⟨u', yields'⟩ := yields_everything (starts'.wellNested .empty) clean'
  have same := yields_decoding (fun _ => ⟨rfl, rfl⟩) rfl starts starts' rfl yields yields'
  exact ⟨⟨u, yields⟩, ⟨u', yields'⟩, by decide +kernel, by decide +kernel, same.1,
    by decide +kernel, by decide +kernel⟩

end LogStream

end ChangeCapture
