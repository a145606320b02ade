import ChangeCapture.Proofs.Courses
import ChangeCapture.Proofs.Growth

/-! What a stream knows of tables in the course of a run. An entry only adds to it, and so does the
return from an included file, whose knowledge has grown out of that of the file around it. -/
namespace ChangeCapture

namespace Desk

open ChangeCapture.Action

def known (d : Desk) : Catalog := d.state.cache.catalog

@[simp] theorem known_emit (gates : Gates) (d : Desk) (r : DomainRecord) :
    (d.emit gates r).known = d.known :=
  congrArg (fun c => c.state.cache.catalog) (core_emit gates d r)

@[simp] theorem known_settle (e : Entry) (announced : Nat) (d : Desk) :
    (settle e announced d).known = d.known :=
  congrArg (fun c => c.state.cache.catalog) (core_settle e announced d)

@[simp] theorem known_warn (d : Desk) (warnings : List Warning) :
    (d.warn warnings).known = d.known := by
  induction warnings generalizing d with
  | nil => rfl
  | cons w warnings ih => exact ih (d.say (.warning w))

@[simp] theorem known_withTransactions (gates : Gates) (d : Desk) (t : Transactions)
    (finished : Option TransactionSummary) : (d.withTransactions gates t finished).known = d.known := by
  cases finished with
  | none => rfl
  | some s => exact known_emit gates _ _

@[simp] theorem known_flushTransactions (gates : Gates) (d : Desk) :
    (d.flushTransactions gates).known = d.known :=
  (known_withTransactions _ _ _ _).trans (release_keeps gates (known_emit gates) d)

/-- Adds to what is known, also if it fails. -/
def Teaches (x : Action Desk α) : Prop := ∀ d : Desk, d.known.Develops (x d).2.known

namespace Teaches

theorem pure (a : α) : Teaches (pure a) := fun d => .refl d.known

theorem ofExcept (x : Except Failure α) : Teaches (Action.ofExcept x) := fun d => .refl d.known

theorem modify {f : Desk → Desk} (same : ∀ d, (f d).known = d.known) :
    Teaches (modify f : Action Desk PUnit) := by
  intro d
  show d.known.Develops (f d).known
  rw [same]
  exact .refl _

theorem bind {x : Action Desk α} {f : α → Action Desk β} (first : Teaches x)
    (rest : ∀ a, Teaches (f a)) : Teaches (x >>= f) := by
  intro d
  have learned := first d
  rw [bind_apply]
  rcases hx : x d with ⟨f | a, d'⟩ <;> rw [hx] at learned
  · exact learned
  · exact learned.trans (rest a d')

theorem read {f : Desk → Action Desk α} (rest : ∀ d : Desk, d.known.Develops (f d d).2.known) :
    Teaches (get >>= f) := rest

theorem within {f : Desk → Action Desk α} (rest : ∀ d, Teaches (f d)) : Teaches (get >>= f) :=
  fun d => rest d d

end Teaches

variable (o : StreamOptions)

theorem teaches_parses (input : GateInput) : Teaches (parses o input) :=
  (Teaches.modify fun _ => by rfl).bind fun _ => .pure _

theorem teaches_observe (e : Entry) (n : Observation) : Teaches (observe o e n) :=
  .within fun _ => (Teaches.ofExcept _).bind fun _ => .modify fun _ => known_withTransactions ..

theorem teaches_header (e : Entry) : Teaches (header e) :=
  (Teaches.ofExcept _).bind fun _ => .modify fun _ => rfl

theorem teaches_includeStats (e : Entry) : Teaches (includeStats e) := by
  rw [includeStats_eq]
  refine (Teaches.ofExcept _).bind fun announced => ?_
  cases announced with
  | none => exact .pure _
  | some n => exact .modify fun d => known_settle e n d

theorem teaches_assemble (e : Entry) (id : RecordId) : Teaches (assemble o e id) := by
  refine .read fun d => ?_
  show d.known.Develops (Desk.warn (d.withCatalog _) _).known
  rw [known_warn]
  exact Catalog.develops_assemble d.known o.config.view id e

theorem teaches_offer (offset : StreamOffset) (c : Change) : Teaches (offer o offset c) := by
  unfold offer
  cases c with
  | vector => exact .pure _
  | row record =>
    dsimp only
    split
    · refine .read fun d => ?_
      show d.known.Develops (Prod.snd ((Action.ofExcept (d.state.cache.offer offset record).2 >>= _ :
        Action Desk (Offered Change)) _)).known
      rw [ofExcept_bind_apply]
      cases (d.state.cache.offer offset record).2 <;> exact .refl d.known
    · exact .pure _

theorem teaches_change (e : Entry) (id : RecordId) (offset : StreamOffset) :
    Teaches (change o e id offset) := by
  refine .within fun d => ?_
  dsimp only
  split
  · exact fun d => .refl d.known
  refine (Teaches.ofExcept _).bind fun _ => (teaches_parses o _).bind fun passes => ?_
  cases passes with
  | false => exact teaches_observe o e _
  | true =>
    refine (teaches_assemble o e id).bind fun c => (teaches_offer o offset c).bind fun offered => ?_
    cases offered with
    | fragment => exact .pure _
    | held => exact teaches_observe o e _
    | emitted c => exact (teaches_observe o e _).bind fun _ => .modify fun d => known_emit o.gates d _

theorem known_metadata (e : Entry) (offset : StreamOffset) (d : Desk) :
    (metadata o e offset d).2.known = d.known ∨
      ∃ found, d.known.applyMetadata e = .ok ((metadata o e offset d).2.known, found) := by
  let Taken (x : Except Failure Unit × Desk) : Prop :=
    x.2.known = d.known ∨ ∃ found, d.known.applyMetadata e = .ok (x.2.known, found)
  show Taken ((Action.ofExcept (Catalog.entrySchema d.known.dictionary e) >>= _ :
    Action Desk Unit) d)
  rw [ofExcept_bind_apply]
  cases Catalog.entrySchema d.known.dictionary e with
  | error f => exact .inl rfl
  | ok schema =>
    dsimp only
    rw [bind_apply, parses_apply]
    dsimp only
    cases o.gates .parse ⟨e.kind, schema, offset⟩ with
    | false => exact .inl rfl
    | true =>
      rw [if_pos rfl, ofExcept_bind_apply]
      rcases applied : d.known.applyMetadata e with f | ⟨catalog, document⟩ <;>
        rw [show d.state.cache.catalog.applyMetadata e = _ from applied]
      · exact .inl rfl
      · refine .inr ⟨document, applied.trans (congrArg (fun c => Except.ok (c, document)) ?_)⟩
        cases document with
        | none => rfl
        | some document =>
          show catalog = (emit o.gates _ ⟨offset, .metadata document⟩).known
          rw [known_emit]
          rfl

theorem perform_metadata {e : Entry} (metadata_ : e.kind = .metadata) (id : RecordId)
    (offset : StreamOffset) :
    perform o e id offset = (metadata o e offset >>= fun _ => pure none) := by
  unfold perform
  rw [metadata_]

theorem teaches_metadata (e : Entry) (offset : StreamOffset) : Teaches (metadata o e offset) := by
  intro d
  rcases known_metadata o e offset d with same | ⟨_, applied⟩
  · rw [same]
    exact .refl _
  · exact Catalog.develops_applyMetadata applied

theorem teaches_perform (e : Entry) (id : RecordId) (offset : StreamOffset) :
    Teaches (perform o e id offset) := by
  unfold perform
  split
  · exact (Teaches.modify fun d => known_warn d _).bind fun _ => .pure _
  · exact (teaches_header e).bind fun _ => .pure _
  · exact (Teaches.modify fun _ => by rfl).bind fun _ => .pure _
  · exact (teaches_metadata o e offset).bind fun _ => .pure _
  · exact .within fun _ => (teaches_observe o e _).bind fun _ => .pure _
  · refine Teaches.bind (fun d => ?_) fun _ => .pure _
    rw [includeFile_apply]
    split <;> exact .refl d.known
  · exact (teaches_includeStats e).bind fun _ => .pure _
  · exact (teaches_change o e id offset).bind fun _ => .pure _

/-- Whatever becomes of an entry, nothing that was known is lost. -/
theorem teaches_process (e : Entry) : Teaches (process o e) := by
  intro d
  have same : (d.cleared o e).known = d.known := catalog_cleared o e d
  rw [process_apply, ← same]
  exact teaches_perform o e _ _ _

end Desk

namespace Processed

variable (o : StreamOptions) (p : Processed)

theorem develops : p.desk.known.Develops (p.after o).known := Desk.teaches_process o p.entry p.desk

theorem newer_of_metadata (metadata : p.entry.kind = .metadata) {name : String}
    {d d' : SchemaDocument} (before : p.desk.known.schemas.get? name = some d)
    (after : (p.after o).known.schemas.get? name = some d') :
    d' = d ∨ d.validSince < d'.validSince := by
  have same : (p.desk.cleared o p.entry).known = p.desk.known :=
    Desk.catalog_cleared o p.entry p.desk
  have performed : Processed.after o p =
      (Desk.metadata o p.entry (p.desk.reported p.entry) (p.desk.cleared o p.entry)).2 := by
    rw [Processed.after, Desk.process_apply, Desk.perform_metadata o metadata, Action.bind_apply]
    split <;> rename_i done <;> rw [done]
    rfl
  rw [performed] at after
  rcases Desk.known_metadata o p.entry (p.desk.reported p.entry) (p.desk.cleared o p.entry) with
    kept | ⟨found, applied⟩
  · rw [kept, same, before] at after
    exact .inl (Option.some.inj after).symm
  · rw [same] at applied
    exact Catalog.newer_of_applyMetadata applied before after

end Processed

namespace Session

variable {o : StreamOptions} {depth : Nat}

def known (s : Session) : Catalog := s.state.cache.catalog

/-- What the files that are open know, those of the files further out first. -/
def catalogs (s : Session) : List Catalog :=
  s.known :: s.included.map (fun i => i.state.cache.catalog)

/-- What the file that is read at the time knows. -/
def latest (s : Session) : Catalog := s.catalogs.getLast (List.cons_ne_nil _ _)

/-- An included file knows more than the file around it. -/
def Rising (s : Session) : Prop := s.catalogs.IsChain Catalog.Develops

/-- What a step does to what is known. -/
structure Learns (s t : Session) : Prop where
  known : s.known.Develops t.known
  latest : s.latest.Develops t.latest
  rising : t.Rising

theorem Rising.learns_of_same {s t : Session} (rising : s.Rising) (same : t.catalogs = s.catalogs) :
    Learns s t := by
  have known : t.known = s.known := (List.cons.inj same).1
  have latest : t.latest = s.latest := by simp only [Session.latest, same]
  refine ⟨known ▸ .refl _, latest ▸ .refl _, ?_⟩
  rw [Rising, same]
  exact rising

theorem catalogs_alone {s : Session} (alone : s.included = []) : s.catalogs = [s.known] := by
  rw [catalogs, alone]
  rfl

theorem latest_alone {s : Session} (alone : s.included = []) : s.latest = s.known := by
  simp only [latest, catalogs_alone alone, List.getLast_singleton]

theorem catalogs_inner {s : Session} {i : Included} {deeper : List Included}
    (open_ : s.included = i :: deeper) : s.catalogs = s.known :: (s.inner i deeper).catalogs := by
  rw [catalogs, open_]
  rfl

theorem latest_inner {s : Session} {i : Included} {deeper : List Included}
    (open_ : s.included = i :: deeper) : s.latest = (s.inner i deeper).latest := by
  simp only [latest, catalogs_inner open_]
  exact List.getLast_cons _

theorem Rising.inner {s : Session} {i : Included} {deeper : List Included} (rising : s.Rising)
    (open_ : s.included = i :: deeper) :
    s.known.Develops i.state.cache.catalog ∧ (s.inner i deeper).Rising := by
  rw [Rising, catalogs_inner open_] at rising
  exact List.isChain_cons_cons.mp rising

/-- What an included file learns is learned by the session that it is part of. -/
theorem Learns.outer {s t : Session} {i : Included} {deeper : List Included} (rising : s.Rising)
    (open_ : s.included = i :: deeper) (learns : Learns (s.inner i deeper) t) :
    Learns s (s.outer i t) := by
  obtain ⟨more, -⟩ := rising.inner open_
  refine ⟨.refl _, ?_, ?_⟩
  · rw [latest_inner open_, latest_inner (s := s.outer i t) rfl]
    exact learns.latest
  · rw [Rising, catalogs_inner (s := s.outer i t) rfl]
    exact List.isChain_cons_cons.mpr ⟨more.trans learns.known, learns.rising⟩

theorem learns_entry {s : Session} {e : Entry} {reader : ChunkReader} {opened : Option Included}
    (alone : s.included = [])
    (fresh : ∀ i ∈ opened, i.state.cache = ((s.processing e).after o).state.cache) :
    Learns s (s.afterEntry reader ((s.processing e).after o) opened) := by
  have learned : s.known.Develops ((s.processing e).after o).known := (s.processing e).develops o
  cases opened with
  | none =>
    have alone' : (s.afterEntry reader ((s.processing e).after o) none).included = [] := rfl
    refine ⟨learned, ?_, ?_⟩
    · rw [latest_alone alone, latest_alone alone']
      exact learned
    · rw [Rising, catalogs_alone alone']
      exact List.isChain_singleton _
  | some i =>
    have handed : i.state.cache.catalog = ((s.processing e).after o).known :=
      congrArg Cache.catalog (fresh i rfl)
    have catalogs : (s.afterEntry reader ((s.processing e).after o) (some i)).catalogs =
        [((s.processing e).after o).known, ((s.processing e).after o).known] := by
      simp only [Session.catalogs, afterEntry, Option.toList, List.map_cons, List.map_nil, handed]
      rfl
    refine ⟨learned, ?_, ?_⟩
    · rw [latest_alone alone]
      simp only [latest, catalogs]
      exact learned
    · rw [Rising, catalogs]
      exact List.isChain_pair.mpr (.refl _)

theorem Step.learns {s t : Session} {ps : List Processed} (step : Step o depth s ps t)
    (nested : s.WellNested) (rising : s.Rising) : Learns s t := by
  induction step with
  | header => exact rising.learns_of_same rfl
  | entry reads _ done =>
    refine learns_entry (nested.alone_of_reads reads) fun i member => ?_
    rcases Processed.phase_after o _ rfl done with ⟨rfl, _⟩ | ⟨_, rfl, _, fresh⟩
    · cases member
    · cases member
      exact fresh.cache
  | included open_ _ _ ih =>
    exact (ih (nested.of_included open_).2.2 (rising.inner open_).2).outer rising open_
  | footer open_ _ _ | close open_ _ _ _ | handOn _ open_ =>
    refine rising.learns_of_same ?_
    simp only [catalogs, open_]
    rfl
  | @resume _ s i open_ _ =>
    obtain ⟨more, -⟩ := rising.inner open_
    have merged : (s.resume i).known = i.state.cache.catalog := Catalog.merge_eq more.grows
    refine ⟨merged ▸ more, ?_, ?_⟩
    · rw [latest_inner open_, latest_alone (s := s.resume i) rfl, latest_alone rfl, merged]
      exact .refl _
    · rw [Rising, catalogs_alone (s := s.resume i) rfl]
      exact List.isChain_singleton _

theorem Fails.learns {s t : Session} {ps : List Processed} {f : Failure}
    (fails : Fails o depth s ps f t) (nested : s.WellNested) (rising : s.Rising) : Learns s t := by
  induction fails with
  | header | next => exact rising.learns_of_same rfl
  | entry reads => exact learns_entry (nested.alone_of_reads reads) nofun
  | tooDeep => exact rising.learns_of_same rfl
  | included open_ _ _ _ ih =>
    exact (ih (nested.of_included open_).2.2 (rising.inner open_).2).outer rising open_

theorem Learns.trans {s t u : Session} (first : Learns s t) (rest : Learns t u) : Learns s u :=
  ⟨first.known.trans rest.known, first.latest.trans rest.latest, rest.rising⟩

/-- Where the outermost file has its columns in their places, all files have. -/
theorem Rising.sound {s : Session} (rising : s.Rising) (sound : s.known.Sound) :
    ∀ c ∈ s.catalogs, c.Sound := by
  unfold Rising catalogs at rising
  unfold catalogs
  generalize s.known = c, s.included.map (fun i => i.state.cache.catalog) = deeper at rising sound ⊢
  induction deeper generalizing c with
  | nil =>
    intro c' member
    rwa [List.mem_singleton.mp member]
  | cons d deeper ih =>
    obtain ⟨more, rising⟩ := List.isChain_cons_cons.mp rising
    intro c' member
    rcases List.mem_cons.mp member with rfl | member
    · exact sound
    · exact ih d rising (more.sound sound) c' member

end Session

namespace LogStream

variable {flushing : Prop} {s t u : LogStream} {j k l : Journal} {ps qs : List Processed}
variable {taken more : List DomainRecord}

theorem Course.learns (course : Course flushing s j ps taken t k)
    (nested : (s.session j).WellNested) (rising : (s.session j).Rising) :
    (s.session j).Learns (t.session k) := by
  induction course with
  | start => exact rising.learns_of_same rfl
  | step course step ih => exact ih.trans (step.learns (course.wellNested nested) ih.rising)
  | fail course fails ih => exact ih.trans (fails.learns (course.wellNested nested) ih.rising)
  | append _ _ ih | flush _ ih => exact ih.trans (ih.rising.learns_of_same rfl)
  | @flushTransactions ps taken t k _ _ ih =>
    refine ih.trans (ih.rising.learns_of_same ?_)
    exact congrArg (· :: _) (Desk.known_flushTransactions t.options.gates ⟨t.state, k⟩)

theorem Starts.known {file : LogFile} {source : Source} {o : StreamOptions}
    (starts : Starts file source o .empty s) (j : Journal) :
    (s.session j).Rising ∧ (s.session j).known = .empty := by
  obtain ⟨-, alone, -, carried, -⟩ := starts.fresh
  refine ⟨?_, congrArg Cache.catalog carried⟩
  rw [Session.Rising, Session.catalogs_alone (s := s.session j) alone]
  exact List.isChain_singleton _

/-- Whatever is read, and whatever fails, what a stream knows only grows. In every state all columns
stand at the places of their ordinals, and the key flag of a table is set just where one of its columns
belongs to the key.
From any state to any later one no table and no document is lost, neither by the outermost file nor
by the one that is read; their columns do not become fewer and keep the names and types that they
were given; a document gives way to no older one, and to a metadata entry only if that is newer. -/
theorem course_learns {file : LogFile} {source : Source} {o : StreamOptions}
    (starts : Starts file source o .empty s) (course : Course flushing s j ps taken t k)
    (onward : Course flushing t k qs more u l) :
    (∀ c ∈ (t.session k).catalogs,
      (∀ id table, c.dictionary.get? id = some table →
        (∀ i column, table.columns[i]? = some column → column.id = i + 1) ∧
        (table.hasKey ↔ ∃ column ∈ table.columns, column.isKey)) ∧
      ∀ name d, c.schemas.get? name = some d →
        ∀ i column, d.columns[i]? = some column → column.id = i + 1) ∧
    (t.session k).known.Grows (u.session l).known ∧
    (t.session k).latest.Grows (u.session l).latest ∧
    (∀ p ∈ qs, p.entry.kind = .metadata → ∀ name d d',
      p.desk.known.schemas.get? name = some d → (p.after o).known.schemas.get? name = some d' →
      d' = d ∨ d.validSince < d'.validSince) ∧
    ∀ result v m, u.read l = (result, v, m) → ∃ rs, Course flushing t k (qs ++ rs) more v m := by
  obtain ⟨rising, nothing⟩ := starts.known j
  have nested := course.wellNested (starts.wellNested j)
  have learned := course.learns (starts.wellNested j) rising
  have later := onward.learns nested learned.rising
  have sound : (t.session k).known.Sound := learned.known.sound (nothing ▸ Catalog.sound_empty)
  refine ⟨fun c member => ?_, later.known.grows, later.latest.grows,
    fun p _ metadata _ _ _ before after => p.newer_of_metadata o metadata before after,
    fun _ _ _ read => onward.read (onward.wellNested nested) read⟩
  obtain ⟨tables, documents⟩ := learned.rising.sound sound c member
  have placed {columns : List Column} (aligned : Aligned columns) (i : Nat) (column : Column)
      (found : columns[i]? = some column) : column.id = i + 1 := by
    rw [aligned i column found, Nat.zero_add]
    rfl
  have keyed {table : Table} (sound : table.Sound) :
      table.hasKey ↔ ∃ column ∈ table.columns, column.isKey := by
    rw [sound.flagged, List.any_eq_true]
  exact ⟨fun id table found => ⟨placed (tables id table found).aligned, keyed (tables id table found)⟩,
    fun name d found => placed (documents name d found)⟩

/-- Two inserts that describe a column each, the second column before the first. -/
theorem course_learns_columns :
    let words (chunks : List UInt32) : List UInt8 := chunks.flatMap bytesOfChunk
    let describing (ordinal name : UInt32) : List UInt8 := Entry.encode 2 1
      [(0x0300, [ordinal]), (0x0301, [1, name]), (0x0302, [3, 0x574152])]
    let source : Source :=
      [.bytes (signature ++ words [1, 0] ++ describing 2 0x63 ++ describing 1 0x62)]
    let o : StreamOptions := ⟨⟨some 1, false, .row, false⟩, .accepting, none⟩
    let s := ofSource ⟨3, 5, "a"⟩ source o .empty
    let signatures (c : Catalog) : List (List (String × DataType)) :=
      c.dictionary.tables.values.map (fun t => t.columns.map Column.signature)
    ∃ ps taken t k qs u l, Course False s .empty ps taken t k ∧ Course False t k qs [] u l ∧
      signatures (t.session k).known = [[("", .unknown), ("c", .raw)]] ∧
      signatures (u.session l).known = [[("b", .raw), ("c", .raw)]] ∧
      (t.session k).known.Grows (u.session l).known := by
  intro words describing source o s signatures
  have first : (s.read .empty).1.isOk := by decide +kernel
  have untouched : Course False s .empty [] [] s .empty := .start
  obtain ⟨ps, course⟩ := untouched.read (Starts.new.wellNested .empty) (read_eq first)
  have nested := course.flush.wellNested (Starts.new.wellNested .empty)
  have second : ((s.read .empty).2.1.flush.1.read (s.read .empty).2.2).1.isOk := by decide +kernel
  obtain ⟨qs, onward⟩ := Course.read .start nested (read_eq second)
  refine ⟨_, _, _, _, _, _, _, course.flush, onward, by decide +kernel, by decide +kernel, ?_⟩
  exact (course_learns .new course.flush onward).2.1

end LogStream

end ChangeCapture
