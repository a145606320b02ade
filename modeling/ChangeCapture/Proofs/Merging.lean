import ChangeCapture.Proofs.Selection

/-! Rows that are put together from several entries. Each decoded change but a large-object write
either goes out or is the one row that is held; what is held goes out before any entry that is no
large-object write, so a row finds nothing under its key where it comes to be held. -/
namespace ChangeCapture

namespace Registry

variable {κ : Type u} {α : Type v}

theorem values_filter (r : Registry κ α) (p : α → Bool) :
    (r.filter (fun _ a => p a)).values = r.values.filter p := by
  simp only [values, filter]
  rw [List.filter_map]
  rfl

variable [DecidableEq κ]

theorem place_new {key : κ} {l : List (κ × α)} (new : find key l = none) (a : α) :
    place key a l = l ++ [(key, a)] := by
  induction l with
  | nil => rfl
  | cons e l ih =>
    obtain ⟨k, b⟩ := e
    by_cases hit : k = key
    · simp [find, hit] at new
    · rw [find, if_neg hit] at new
      rw [place, if_neg hit, ih new, List.cons_append]

theorem values_insert_new {r : Registry κ α} {key : κ} (new : r.get? key = none) (a : α) :
    (r.insert key a).values = r.values ++ [a] := by
  show (place key a r.entries).map Prod.snd = r.entries.map Prod.snd ++ [a]
  rw [place_new new, List.map_append]
  rfl

theorem map_place {key : κ} {l : List (κ × α)} {a b : α} (known : find key l = some a) (f : α → β)
    (same : f b = f a) : (place key b l).map (fun e => f e.2) = l.map (fun e => f e.2) := by
  induction l with
  | nil => cases known
  | cons e l ih =>
    obtain ⟨k, c⟩ := e
    by_cases hit : k = key
    · rw [find, if_pos hit] at known
      cases known
      rw [place, if_pos hit]
      simp [same]
    · rw [find, if_neg hit] at known
      rw [place, if_neg hit, List.map_cons, List.map_cons, ih known]

theorem map_values_insert {r : Registry κ α} {key : κ} {a b : α} (known : r.get? key = some a)
    (f : α → β) (same : f b = f a) : (r.insert key b).values.map f = r.values.map f := by
  have kept := map_place known f same
  simpa [values, insert, List.map_map, Function.comp_def] using kept

theorem mem_of_find {key : κ} {l : List (κ × α)} {a : α} (known : find key l = some a) :
    (key, a) ∈ l := by
  induction l with
  | nil => cases known
  | cons e l ih =>
    obtain ⟨k, c⟩ := e
    by_cases hit : k = key
    · rw [find, if_pos hit] at known
      cases known
      simp [hit]
    · rw [find, if_neg hit] at known
      exact List.mem_cons_of_mem _ (ih known)

theorem mem_values {r : Registry κ α} {key : κ} {a : α} (known : r.get? key = some a) :
    a ∈ r.values :=
  List.mem_map.mpr ⟨_, mem_of_find known, rfl⟩

end Registry

/-- The entry that a change stems from, and what the entry is about. -/
def ChangeHeader.origin (h : ChangeHeader) : RecordId × ChangeAction := (h.id, h.action)

def Change.origin (c : Change) : RecordId × ChangeAction := c.header.origin

/-- A row that no large object is missing from any more. -/
def Change.IsWhole (c : Change) : Prop := ∃ r, c = .row r ∧ r.complete ∧ r.isLobWrite = false

namespace Parts

def headers (p : Parts) : List ChangeHeader := p.values.map (fun held => held.record.header)

/-- The rows that are held. -/
def rows (p : Parts) : List ChangeHeader := p.headers.filter (fun h => h.action.isRowChange)

/-- Nothing but large-object writes is held. -/
def Settled (p : Parts) : Prop := ∀ h ∈ p.headers, h.action = .lobWrite

/-- At most one row is held besides large-object writes. -/
structure Tidy (p : Parts) : Prop where
  sorts : ∀ h ∈ p.headers, h.action = .lobWrite ∨ h.action.isRowChange
  one : p.rows.length ≤ 1

/-- A row that is held afterwards was held before, or has come where nothing was. -/
def Spares (p p' : Parts) : Prop :=
  ∀ key held, p'.get? key = some held → held.record.header.action.isRowChange →
    p.get? key = none ∨
      ∃ before, p.get? key = some before ∧ before.record.header = held.record.header

theorem Settled.rows {p : Parts} (settled : p.Settled) : p.rows = [] := by
  refine List.filter_eq_nil_iff.mpr fun h member => ?_
  rw [settled h member]
  decide

theorem Settled.tidy {p : Parts} (settled : p.Settled) : p.Tidy :=
  ⟨fun h member => .inl (settled h member), by rw [settled.rows]; exact Nat.zero_le _⟩

theorem spares_refl (p : Parts) : p.Spares p := fun _ held known _ => .inr ⟨held, known, rfl⟩

/-- The rows as they are let go. -/
def released (p : Parts) : List Change := p.release.2.map (fun held => .row held.record)

theorem released_origin (p : Parts) :
    p.released.map Change.origin = p.rows.map ChangeHeader.origin := by
  have headers : p.release.2.map (fun held => held.record.header) = p.rows := by
    rw [release, rows, Parts.headers, List.filter_map]
    dsimp only
    rw [Registry.values_filter p (fun held => held.record.header.action.isRowChange), List.map_map]
    rfl
  rw [released, ← headers, List.map_map, List.map_map]
  rfl

theorem released_whole (p : Parts) : ∀ c ∈ p.released, c.IsWhole := by
  intro c member
  obtain ⟨_, out, rfl⟩ := List.mem_map.mp member
  obtain ⟨held, kept, rfl⟩ := List.mem_map.mp out
  refine ⟨_, rfl, rfl, ?_⟩
  rw [Registry.values_filter p (fun held => held.record.header.action.isRowChange)] at kept
  have row := (List.mem_filter.mp kept).2
  cases action : held.record.header.action <;> rw [action] at row <;>
    first | exact absurd row (by decide) | simp [ChangeRecord.isLobWrite, action]

theorem Settled.released {p : Parts} (settled : p.Settled) : p.released = [] := by
  have origin := p.released_origin
  rw [settled.rows] at origin
  simpa using origin

theorem release_settled {p : Parts} (tidy : p.Tidy) : p.release.1.Settled := by
  intro h member
  rw [release, headers] at member
  dsimp only at member
  rw [Registry.values_filter p (fun held => !held.record.header.action.isRowChange)] at member
  obtain ⟨held, kept, rfl⟩ := List.mem_map.mp member
  obtain ⟨known, other⟩ := List.mem_filter.mp kept
  refine (tidy.sorts _ (List.mem_map.mpr ⟨held, known, rfl⟩)).resolve_right fun row => ?_
  rw [row] at other
  cases other

/-- What is held after a large-object write: the same rows, with one more part perhaps. -/
structure Extends (p p' : Parts) : Prop where
  rows : p'.rows = p.rows
  tidy : p.Tidy → p'.Tidy
  spares : p.Spares p'

theorem extends_of_headers {p p' : Parts} (same : p'.headers = p.headers) (spares : p.Spares p') :
    p.Extends p' := by
  have rows : p'.rows = p.rows := by rw [Parts.rows, Parts.rows, same]
  exact ⟨rows, fun tidy => ⟨same ▸ tidy.sorts, rows ▸ tidy.one⟩, spares⟩

theorem extends_insert {p : Parts} {key : PartKey} {held held' : HeldRecord}
    (known : p.get? key = some held) (same : held'.record.header = held.record.header) :
    p.Extends (p.insert key held') := by
  refine extends_of_headers (Registry.map_values_insert known _ same) fun k after found row => ?_
  rw [Registry.get?_insert] at found
  split at found
  next hit =>
    cases found
    exact .inr ⟨held, hit ▸ known, same.symm⟩
  next => exact .inr ⟨after, found, rfl⟩

/-- A large-object write that waits for its row. -/
theorem extends_insert_lob {p : Parts} {key : PartKey} {held : HeldRecord}
    (new : p.get? key = none) (lob : held.record.header.action = .lobWrite) :
    p.Extends (p.insert key held) := by
  have headers : Parts.headers (p.insert key held) = p.headers ++ [held.record.header] := by
    rw [Parts.headers, Registry.values_insert_new new, List.map_append]
    rfl
  have other : held.record.header.action.isRowChange = false := by rw [lob]; rfl
  have rows : Parts.rows (p.insert key held) = p.rows := by
    simp [Parts.rows, headers, other]
  refine ⟨rows, fun tidy => ⟨fun h member => ?_, rows ▸ tidy.one⟩, fun k after found row => ?_⟩
  · rw [headers] at member
    rcases List.mem_append.mp member with member | member
    · exact tidy.sorts h member
    · rw [List.mem_singleton.mp member]
      exact .inl lob
  · rw [Registry.get?_insert] at found
    split at found
    next =>
      cases found
      rw [other] at row
      cases row
    next => exact .inr ⟨after, found, rfl⟩

/-- No large-object write leaves, and none disturbs the rows that are held. -/
theorem offer_lobWrite {p p' : Parts} {table : Option Table} {offset : StreamOffset}
    {r : ChangeRecord} {x : Offered ChangeRecord} (lob : r.isLobWrite)
    (ok : p.offer table offset r = (p', .ok x)) : x = .fragment ∧ p.Extends p' := by
  rw [offer, if_pos lob, offerLobWrite] at ok
  split at ok
  next new =>
    cases ok
    exact ⟨rfl, extends_insert_lob new (by simpa [ChangeRecord.isLobWrite] using lob)⟩
  next held known =>
    split at ok
    next record adopted =>
      cases ok
      refine ⟨rfl, extends_insert known ?_⟩
      exact (congrArg (fun x => x.1.header) adopted).symm
    next => cases ok

/-- What becomes of any other change while no row is held. -/
inductive Settles (p : Parts) (r : ChangeRecord) : Parts → Offered ChangeRecord → Prop where
  | emitted {p' r'} : r'.header = r.header → (r.complete → r'.complete) → p'.Settled →
      Settles p r p' (.emitted r')
  | held {p'} : p'.rows = [r.header] → p'.Tidy → p.Spares p' → Settles p r p' .held

theorem settled_erase {p : Parts} (settled : p.Settled) (key : PartKey) :
    Settled (p.erase key) := by
  intro h member
  refine settled h ?_
  obtain ⟨held, kept, rfl⟩ := List.mem_map.mp member
  refine List.mem_map.mpr ⟨held, ?_, rfl⟩
  obtain ⟨e, known, rfl⟩ := List.mem_map.mp kept
  exact List.mem_map.mpr ⟨e, (List.mem_filter.mp known).1, rfl⟩

theorem settles_held {p : Parts} {key : PartKey} {r : ChangeRecord} {held : HeldRecord}
    (settled : p.Settled) (new : p.get? key = none) (row : r.header.action.isRowChange)
    (same : held.record.header = r.header) : Settles p r (p.insert key held) .held := by
  have headers : Parts.headers (p.insert key held) = p.headers ++ [r.header] := by
    rw [Parts.headers, Registry.values_insert_new new, List.map_append, ← same]
    rfl
  have rows : Parts.rows (p.insert key held) = [r.header] := by
    have none_ := settled.rows
    rw [Parts.rows] at none_
    rw [Parts.rows, headers, List.filter_append, none_]
    simp [row]
  refine .held rows ⟨fun h member => ?_, by rw [rows]; exact Nat.le_refl 1⟩
    fun k after found _ => ?_
  · rw [headers] at member
    rcases List.mem_append.mp member with member | member
    · exact .inl (settled h member)
    · rw [List.mem_singleton.mp member]
      exact .inr row
  · rw [Registry.get?_insert] at found
    split at found
    next hit => exact .inl (hit ▸ new)
    next => exact .inr ⟨after, found, rfl⟩

theorem offer_settles {p p' : Parts} {table : Option Table} {offset : StreamOffset}
    {r : ChangeRecord} {x : Offered ChangeRecord} (other : r.isLobWrite = false)
    (settled : p.Settled) (ok : p.offer table offset r = (p', .ok x)) : Settles p r p' x := by
  rw [offer, if_neg (by simp [other])] at ok
  split at ok
  next row =>
    rw [offerRowChange] at ok
    split at ok
    next held known =>
      split at ok
      next record adopted =>
        cases ok
        refine .emitted ?_ (fun _ => rfl) (settled_erase settled _)
        exact (congrArg (fun x => x.1.header) adopted).symm
      next => cases ok
    next unknown =>
      have new : p.get? (.ofRecord r) = none := by
        cases found : p.get? (.ofRecord r) with
        | none => rfl
        | some held =>
          have lob := settled _ (List.mem_map.mpr ⟨held, Registry.mem_values found, rfl⟩)
          simp [found, ChangeRecord.isLobWrite, lob] at unknown
      split at ok
      · cases ok
        exact settles_held settled new row rfl
      · cases ok
        exact .emitted rfl id settled
  next =>
    cases ok
    exact .emitted rfl id settled

end Parts

theorem ChangeHeader.of_ofEntry {e : Entry} {id : RecordId} {tableId : Nat} {table : Option Table}
    {header : ChangeHeader} (ok : ofEntry e id tableId table = .ok header) :
    header.id = id ∧ header.action = .ofKind e.kind := by
  obtain ⟨_, _, ok⟩ := bind_ok ok
  obtain ⟨_, _, ok⟩ := bind_ok ok
  obtain ⟨_, _, ok⟩ := bind_ok ok
  obtain ⟨_, _, ok⟩ := bind_ok ok
  obtain ⟨_, _, ok⟩ := bind_ok ok
  obtain ⟨_, _, ok⟩ := bind_ok ok
  cases ok
  exact ⟨rfl, rfl⟩

def Change.view : Change → ChangeView
  | row _ => .row
  | vector _ => .vector

/-- A change as an entry gives it. -/
structure Change.OfEntry (e : Entry) (id : RecordId) (view : ChangeView) (c : Change) : Prop where
  header : ∃ tableId table, ChangeHeader.ofEntry e id tableId table = .ok c.header
  view : c.view = view
  complete : ∀ r, c = .row r → r.complete

/-- A change as an entry gives it when `table` is what is known of its table. -/
structure Change.OfTable (e : Entry) (id : RecordId) (view : ChangeView) (tableId : Nat)
    (table : Option Table) (c : Change) : Prop where
  header : ChangeHeader.ofEntry e id tableId table = .ok c.header
  view : c.view = view
  complete : ∀ r, c = .row r → r.complete

/-- A row as an entry gives it. -/
structure ChangeRecord.OfEntry (e : Entry) (id : RecordId) (r : ChangeRecord) : Prop where
  id : r.header.id = id
  action : r.header.action = .ofKind e.kind
  complete : r.complete

theorem Change.OfEntry.row {e : Entry} {id : RecordId} {c : Change} (given : c.OfEntry e id .row) :
    ∃ r, c = .row r ∧ r.OfEntry e id := by
  obtain ⟨⟨_, _, header⟩, view, complete⟩ := given
  cases c with
  | row r =>
    obtain ⟨sameId, action⟩ := ChangeHeader.of_ofEntry header
    exact ⟨r, rfl, sameId, action, complete r rfl⟩
  | vector => cases view

theorem Change.OfEntry.origin {e : Entry} {id : RecordId} {view : ChangeView} {c : Change}
    (given : c.OfEntry e id view) : c.origin = (id, .ofKind e.kind) := by
  obtain ⟨_, _, header⟩ := given.header
  obtain ⟨sameId, action⟩ := ChangeHeader.of_ofEntry header
  rw [Change.origin, ChangeHeader.origin, sameId, action]

namespace ChangeVector

theorem header_addImage (v : ChangeVector) (type : TagType) (value : ColumnValue) :
    (v.addImage type value).header = v.header := by
  unfold addImage
  split <;> try rfl
  unfold addData
  split
  · split
    · split <;> rfl
    · rfl
  · rfl

theorem header_add {table : Table} {v v' : ChangeVector} {image : ColumnImage}
    (ok : v.add table image = .ok v') : v'.header = v.header := by
  unfold add at ok
  split at ok
  · cases ok
    rfl
  split at ok
  · unfold addLocation at ok
    split at ok
    · obtain ⟨_, _, rfl⟩ := map_ok ok
      rfl
    · obtain ⟨_, _, rfl⟩ := map_ok ok
      rfl
  · obtain ⟨_, _, ok⟩ := bind_ok ok
    cases ok
    exact header_addImage v _ _

theorem header_ofImages {header : ChangeHeader} {table : Table} {images : List ColumnImage}
    {v : ChangeVector} (ok : ofImages header table images = .ok v) : v.header = header := by
  have folded (images : List ColumnImage) : ∀ {start : ChangeVector},
      images.foldlM (add table) start = .ok v → v.header = start.header := by
    induction images with
    | nil =>
      intro _ ok
      cases ok
      rfl
    | cons image images ih =>
      intro _ ok
      obtain ⟨_, first, ok⟩ := bind_ok ok
      exact (ih ok).trans (header_add first)
  exact folded images ok

end ChangeVector

theorem Change.of_ofImages {header : ChangeHeader} {table : Table} {images : List ColumnImage}
    {view : ChangeView} {c : Change} (ok : ofImages header table images view = .ok c) :
    c.header = header ∧ c.view = view ∧ ∀ r, c = .row r → r.complete := by
  cases view with
  | row =>
    obtain ⟨r, made, rfl⟩ := map_ok ok
    obtain ⟨_, _, made⟩ := bind_ok made
    cases made
    exact ⟨rfl, rfl, by rintro _ ⟨⟩; rfl⟩
  | vector =>
    obtain ⟨v, made, rfl⟩ := map_ok ok
    exact ⟨ChangeVector.header_ofImages made, rfl, fun _ same => by cases same⟩

namespace Catalog

theorem retrofitKey_ofTable {c : Catalog} {table : Table} {change change' : Change} {e : Entry}
    {id : RecordId} {view : ChangeView} {tableId : Nat} {known : Option Table}
    (given : change.OfTable e id view tableId known)
    (ok : (c.retrofitKey table change).result = .ok change') :
    change'.OfTable e id view tableId known := by
  unfold retrofitKey at ok
  dsimp only at ok
  split at ok <;> cases ok
  · obtain ⟨header, viewed, complete⟩ := given
    cases change with
    | row r => exact ⟨header, viewed, by rintro _ ⟨⟩; exact complete r rfl⟩
    | vector v => exact ⟨header, viewed, fun _ same => by cases same⟩
  · exact given

theorem assembleKnown_ofTable {c : Catalog} {view : ChangeView} {id : RecordId} {e : Entry}
    {table : Table} {tableId : Nat} {ordinals : List Nat} {change : Change}
    (ok : (c.assembleKnown view id e table tableId ordinals).result = .ok change) :
    change.OfTable e id view tableId (some table) := by
  unfold assembleKnown at ok
  dsimp only at ok
  split at ok
  next => cases ok
  next header images read =>
    obtain ⟨_, described, read⟩ := bind_ok read
    obtain ⟨_, _, read⟩ := bind_ok read
    cases read
    split at ok
    next => cases ok
    next made placed =>
      obtain ⟨same, viewed, complete⟩ := Change.of_ofImages placed
      exact retrofitKey_ofTable ⟨same ▸ described, viewed, complete⟩ ok

theorem assemble_ofTable {c : Catalog} {view : ChangeView} {id : RecordId} {e : Entry}
    {change : Change} (ok : (c.assemble view id e).result = .ok change) :
    ∃ tableId ordinals dictionary,
      describe c.dictionary e = .ok (tableId, ordinals, dictionary) ∧
        change.OfTable e id view tableId (dictionary.get? tableId) := by
  unfold assemble at ok
  split at ok
  next => cases ok
  next tableId ordinals dictionary described =>
    refine ⟨tableId, ordinals, dictionary, described, ?_⟩
    dsimp only at ok
    split at ok
    next table known => exact known ▸ assembleKnown_ofTable ok
    next unknown =>
      rw [unknown]
      dsimp only at ok
      unfold assembleUnknown at ok
      split at ok
      · cases ok
      · obtain ⟨header, read, rfl⟩ := map_ok ok
        cases view
        · exact ⟨read, rfl, by rintro _ ⟨⟩; rfl⟩
        · exact ⟨read, rfl, fun _ same => by cases same⟩

theorem assemble_ofEntry {c : Catalog} {view : ChangeView} {id : RecordId} {e : Entry}
    {change : Change} (ok : (c.assemble view id e).result = .ok change) :
    change.OfEntry e id view := by
  obtain ⟨_, _, _, -, header, viewed, complete⟩ := assemble_ofTable ok
  exact ⟨⟨_, _, header⟩, viewed, complete⟩

end Catalog

/-- Rows are put together from the entries that they come in, and every record is delivered. -/
structure StreamOptions.Merging (o : StreamOptions) : Prop where
  view : o.config.view = .row
  merges : o.config.mergeMultipart = true
  delivering : o.Delivering

/-- The change that goes out at once, if any. -/
def Offered.changes : Offered ChangeRecord → List Change
  | emitted r => [.row r]
  | held | fragment => []

namespace Desk

open ChangeCapture.Action DomainRecord

variable {o : StreamOptions}

theorem standing_emit_change (delivering : o.Delivering) (d : Desk) (offset : StreamOffset)
    (c : Change) :
    (d.emit o.gates ⟨offset, .change c⟩).standing =
      ⟨d.state.phase, d.state.cache.parts, changes d.state.batch ++ [c]⟩ := by
  unfold emit
  dsimp only
  rw [if_pos (delivering _).1, if_pos (delivering _).2]
  exact standing_addRecord _ _

theorem standing_release (delivering : o.Delivering) (d : Desk) :
    (d.release o.gates).standing =
      ⟨d.state.phase, d.state.cache.parts.release.1,
        changes d.state.batch ++ d.state.cache.parts.released⟩ := by
  have emitted (held : List HeldRecord) (d : Desk) :
      (held.foldl (fun d h => d.emit o.gates ⟨h.offset, .change (.row h.record)⟩) d).standing =
        ⟨d.state.phase, d.state.cache.parts,
          changes d.state.batch ++ held.map (fun held => .row held.record)⟩ := by
    induction held generalizing d with
    | nil => simp [standing]
    | cons h held ih =>
      have first := standing_emit_change delivering d h.offset (.row h.record)
      simp only [standing, Standing.mk.injEq] at first
      rw [List.foldl_cons, ih, first.1, first.2.1, first.2.2]
      simp
  exact emitted _ _

theorem standing_flushTransactions (delivering : o.Delivering) (d : Desk) :
    (d.flushTransactions o.gates).standing =
      ⟨d.state.phase, d.state.cache.parts.release.1,
        changes d.state.batch ++ d.state.cache.parts.released⟩ :=
  (standing_withTransactions _ _ _ _).trans (standing_release delivering d)

theorem offer_row {offset : StreamOffset} {r : ChangeRecord} {d d' : Desk} {y : Offered Change}
    (merging : o.Merging) (ok : offer o offset (.row r) d = (.ok y, d')) :
    ∃ table x parts, d.state.cache.parts.offer table offset r = (parts, .ok x) ∧
      y = x.map .row ∧ d' = d.withCache { d.state.cache with parts } := by
  unfold offer at ok
  dsimp only at ok
  rw [if_pos merging.merges] at ok
  obtain ⟨_, _, got, ok⟩ := Action.bind_ok ok
  cases got
  obtain ⟨_, _, moved, ok⟩ := Action.bind_ok ok
  cases moved
  obtain ⟨x, _, offered, ok⟩ := Action.bind_ok ok
  obtain ⟨accepted, rfl⟩ := ofExcept_run offered
  cases ok
  exact ⟨_, x, _, Prod.ext rfl accepted, rfl, rfl⟩

theorem assembled {e : Entry} {id : RecordId} {d d' : Desk} {c : Change}
    (ok : assemble o e id d = (.ok c, d')) : c.OfEntry e id o.config.view := by
  obtain ⟨_, _, got, ok⟩ := Action.bind_ok ok
  cases got
  obtain ⟨_, _, _, ok⟩ := Action.bind_ok ok
  exact Catalog.assemble_ofEntry (ofExcept_run ok).1

/-- What an accepted change does, apart from what it teaches the catalog. -/
theorem change_standing (merging : o.Merging) {e : Entry} {id : RecordId} {offset : StreamOffset}
    {d d' : Desk} (ok : change o e id offset d = (.ok (), d')) :
    ∃ schema, Catalog.entrySchema d.state.cache.catalog.dictionary e = .ok schema ∧
      ((o.gates .parse ⟨e.kind, schema, offset⟩ = false ∧ d'.standing = d.standing) ∨
      (o.gates .parse ⟨e.kind, schema, offset⟩ = true ∧ ∃ r table x parts, r.OfEntry e id ∧
        d.state.cache.parts.offer table offset r = (parts, .ok x) ∧
        d'.standing = ⟨d.state.phase, parts, changes d.state.batch ++ x.changes⟩)) := by
  obtain ⟨_, _, got, ok⟩ := Action.bind_ok ok
  cases got
  dsimp only at ok
  split at ok
  · cases ok
  obtain ⟨schema, _, known, ok⟩ := Action.bind_ok ok
  obtain ⟨named, rfl⟩ := ofExcept_run known
  obtain ⟨passes, asked, parsed, ok⟩ := Action.bind_ok ok
  have standing := ((quiet_standing o).parses _).eq parsed
  refine ⟨schema, named, ?_⟩
  obtain rfl : passes = o.gates .parse ⟨e.kind, schema, offset⟩ := by
    cases parsed
    rfl
  cases passes : o.gates .parse ⟨e.kind, schema, offset⟩ with
  | false =>
    rw [passes] at ok
    exact .inl ⟨rfl, ((keeps_observe o e _).eq ok).trans standing⟩
  | true =>
    rw [passes] at ok
    refine .inr ⟨rfl, ?_⟩
    obtain ⟨c, taught, decoded, ok⟩ := Action.bind_ok ok
    have standing := (((quiet_standing o).assemble e id).eq decoded).trans standing
    have given := assembled decoded
    rw [merging.view] at given
    obtain ⟨r, rfl, row⟩ := given.row
    obtain ⟨y, offered, taken, ok⟩ := Action.bind_ok ok
    obtain ⟨table, x, parts, offered, rfl, rfl⟩ := offer_row merging taken
    simp only [Desk.standing, Standing.mk.injEq] at standing
    obtain ⟨phase, same, waiting⟩ := standing
    refine ⟨r, table, x, parts, row, same ▸ offered, ?_⟩
    cases x with
    | fragment =>
      cases ok
      simp [Desk.standing, withCache, phase, waiting, Offered.changes]
    | held =>
      have observed := (keeps_observe o e _).eq ok
      rw [observed]
      simp [Desk.standing, withCache, phase, waiting, Offered.changes]
    | emitted r' =>
      obtain ⟨_, seen, observed, ok⟩ := Action.bind_ok ok
      cases ok
      have observed := (keeps_observe o e _).eq observed
      rw [standing_emit_change merging.delivering]
      simp only [Desk.standing, Standing.mk.injEq] at observed
      obtain ⟨phase', same', waiting'⟩ := observed
      simp [phase', same', waiting', withCache, phase, waiting, Offered.changes]

theorem catalog_cleared (o : StreamOptions) (e : Entry) (d : Desk) :
    (d.cleared o e).state.cache.catalog = d.state.cache.catalog :=
  cleared_keeps o (p := fun d => d.state.cache.catalog)
    (fun d r => congrArg (fun d => d.state.cache.catalog) (core_emit o.gates d r)) (fun _ _ => rfl)
    (fun _ _ => rfl) e d

end Desk

namespace Processed

open DomainRecord

variable (o : StreamOptions) (p : Processed)

def parts : Parts := p.desk.state.cache.parts

def partsAfter : Parts := (p.after o).state.cache.parts

/-- Whether the entry is decoded as a change. -/
def decoded : Bool :=
  p.entry.kind.isChange &&
    match Catalog.entrySchema p.desk.state.cache.catalog.dictionary p.entry with
    | .ok schema => o.gates .parse ⟨p.entry.kind, schema, p.desk.reported p.entry⟩
    | .error _ => false

/-- The record that a decoded entry has to come out as, unless it only adds to others. -/
def due : List (RecordId × ChangeAction) :=
  if p.decoded o && p.entry.kind ≠ .lobWrite then [(p.desk.nextId, .ofKind p.entry.kind)] else []

/-- What an entry does to rows: the row that was held and the one that the entry is due go out or
are held, each once and in this order. -/
structure Accounts : Prop where
  balance : (changes (p.records o)).map Change.origin ++
      (p.partsAfter o).rows.map ChangeHeader.origin =
    p.parts.rows.map ChangeHeader.origin ++ p.due o
  whole : ∀ c ∈ changes (p.records o), c.IsWhole
  tidy : (p.partsAfter o).Tidy
  settled : (p.after o).state.phase ≠ .reading → (p.partsAfter o).Settled
  spares : (p.desk.cleared o p.entry).state.cache.parts.Spares (p.partsAfter o)

/-- What goes out before an entry of any kind but a large-object write. -/
structure Clears : Prop where
  changes : (changes (p.desk.cleared o p.entry).state.batch).map Change.origin =
    p.parts.rows.map ChangeHeader.origin
  whole : ∀ c ∈ DomainRecord.changes (p.desk.cleared o p.entry).state.batch, c.IsWhole
  settled : (p.desk.cleared o p.entry).state.cache.parts.Settled

variable {o p}

theorem clears (merging : o.Merging) (empty : p.desk.state.batch = []) (tidy : p.parts.Tidy)
    (other : p.entry.kind ≠ .lobWrite) : p.Clears o := by
  have released := Desk.standing_release merging.delivering
    p.desk.counted
  rw [← show p.desk.cleared o p.entry = _ from if_pos other] at released
  simp only [Desk.standing, Desk.Standing.mk.injEq, Desk.state_counted, FileState.batch_counted,
    FileState.cache_counted, empty, changes_nil, List.nil_append] at released
  obtain ⟨_, parts, out⟩ := released
  exact {
    changes := by rw [out]; exact p.parts.released_origin
    whole := by rw [out]; exact p.parts.released_whole
    settled := by rw [parts]; exact Parts.release_settled tidy }

theorem performed {opened : Option Included} (done : p.result o = .ok opened) :
    Desk.perform o p.entry p.desk.nextId (p.desk.reported p.entry) (p.desk.cleared o p.entry) =
      (.ok opened, p.after o) := by
  rw [← Desk.process_apply]
  exact Prod.ext done rfl

theorem changed (change : p.entry.kind.isChange) {opened : Option Included}
    (done : p.result o = .ok opened) :
    Desk.change o p.entry p.desk.nextId (p.desk.reported p.entry) (p.desk.cleared o p.entry) =
      (.ok (), p.after o) := by
  have done := performed done
  rw [Desk.perform_change o change] at done
  obtain ⟨_, d, done, ended⟩ := Action.bind_ok done
  obtain rfl : d = p.after o := congrArg Prod.snd ended
  exact done

theorem due_lobWrite (lob : p.entry.kind = .lobWrite) : p.due o = [] := by simp [due, lob]

theorem due_of_gate (change : p.entry.kind.isChange) (other : p.entry.kind ≠ .lobWrite)
    {schema : Option String}
    (named : Catalog.entrySchema (p.desk.cleared o p.entry).state.cache.catalog.dictionary p.entry =
      .ok schema) :
    p.due o = if o.gates .parse ⟨p.entry.kind, schema, p.desk.reported p.entry⟩ then
      [(p.desk.nextId, .ofKind p.entry.kind)] else [] := by
  rw [Desk.catalog_cleared] at named
  simp [due, decoded, change, named, other]

theorem Clears.accounts (clears : p.Clears o)
    (kept : p.partsAfter o = (p.desk.cleared o p.entry).state.cache.parts)
    (same : DomainRecord.changes (p.records o) =
      DomainRecord.changes (p.desk.cleared o p.entry).state.batch)
    (nothing : p.due o = []) : p.Accounts o where
  balance := by rw [same, clears.changes, kept, clears.settled.rows, nothing, List.map_nil]
  whole := same ▸ clears.whole
  tidy := kept ▸ clears.settled.tidy
  settled _ := kept ▸ clears.settled
  spares := kept ▸ Parts.spares_refl _

theorem Clears.accounts_change (clears : p.Clears o) (merging : o.Merging)
    (reading : p.desk.state.phase = .reading) (change : p.entry.kind.isChange)
    (other : p.entry.kind ≠ .lobWrite) {opened : Option Included} (done : p.result o = .ok opened) :
    p.Accounts o := by
  obtain ⟨schema, named,
      ⟨passes, standing⟩ | ⟨passes, r, table, x, parts, row, offered, standing⟩⟩ :=
    Desk.change_standing merging (changed change done)
  · have due := due_of_gate change other named
    simp only [Desk.standing, Desk.Standing.mk.injEq] at standing
    exact clears.accounts standing.2.1 standing.2.2 (by simpa [passes] using due)
  · have due := due_of_gate change other named
    rw [if_pos passes] at due
    simp only [Desk.standing, Desk.Standing.mk.injEq, Desk.phase_cleared, reading] at standing
    obtain ⟨phase, kept, out⟩ := standing
    have changes : DomainRecord.changes (p.records o) = _ := out
    have partsAfter : p.partsAfter o = parts := kept
    have origin : r.header.origin = (p.desk.nextId, .ofKind p.entry.kind) := by
      rw [ChangeHeader.origin, row.id, row.action]
    have notLob : r.isLobWrite = false := by
      rw [ChangeRecord.isLobWrite, row.action]
      cases kind : p.entry.kind <;> first | rfl | exact absurd kind other
    cases Parts.offer_settles notLob clears.settled offered with
    | @emitted r' same complete settled =>
      have notLob' : r'.isLobWrite = false := by rw [ChangeRecord.isLobWrite, same]; exact notLob
      refine ⟨?_, ?_, partsAfter ▸ settled.tidy, fun _ => partsAfter ▸ settled, ?_⟩
      · rw [changes, List.map_append, clears.changes, partsAfter, settled.rows, due, ← origin,
          ← same]
        simp [Offered.changes, Change.origin, Change.header]
      · rw [changes]
        intro c member
        rcases List.mem_append.mp member with member | member
        · exact clears.whole c member
        · exact ⟨r', List.mem_singleton.mp member, complete row.complete, notLob'⟩
      · intro key held known rowChange
        have member := Registry.mem_values (partsAfter ▸ known)
        have lob := settled _ (List.mem_map.mpr ⟨held, member, rfl⟩)
        rw [lob] at rowChange
        cases rowChange
    | held rows tidy spares =>
      refine ⟨?_, ?_, partsAfter ▸ tidy, fun ended => absurd phase ended, partsAfter ▸ spares⟩
      · rw [changes, List.map_append, clears.changes, partsAfter, rows, due, ← origin]
        simp [Offered.changes]
      · rw [changes]
        simpa [Offered.changes] using clears.whole

theorem accounts_lobWrite (merging : o.Merging) (empty : p.desk.state.batch = [])
    (reading : p.desk.state.phase = .reading) (tidy : p.parts.Tidy)
    (lob : p.entry.kind = .lobWrite) {opened : Option Included} (done : p.result o = .ok opened) :
    p.Accounts o := by
  have done := changed (by rw [lob]; rfl) done
  have kept : (p.desk.cleared o p.entry).standing = ⟨.reading, p.parts, []⟩ := by
    simp [Desk.cleared, lob, Desk.standing, reading, empty, parts]
  simp only [Desk.standing, Desk.Standing.mk.injEq] at kept
  obtain ⟨phase, before, nothing⟩ := kept
  have extended :
      ∃ parts, p.parts.Extends parts ∧ (p.after o).standing = ⟨.reading, parts, []⟩ := by
    obtain ⟨_, _, ⟨_, standing⟩ | ⟨_, r, _, x, parts, row, offered, standing⟩⟩ :=
      Desk.change_standing merging done
    · rw [standing, Desk.standing, phase, before, nothing]
      exact ⟨p.parts, ⟨rfl, id, Parts.spares_refl _⟩, rfl⟩
    · have isLob : r.isLobWrite := by
        simp [ChangeRecord.isLobWrite, row.action, lob, ChangeAction.ofKind]
      rw [before] at offered
      obtain ⟨rfl, extends_⟩ := Parts.offer_lobWrite isLob offered
      rw [standing, phase, nothing]
      exact ⟨parts, extends_, rfl⟩
  obtain ⟨parts, ⟨rows, stays, spares⟩, standing⟩ := extended
  simp only [Desk.standing, Desk.Standing.mk.injEq] at standing
  obtain ⟨phaseAfter, partsAfter, changes⟩ := standing
  have changes : DomainRecord.changes (p.records o) = [] := changes
  have partsAfter : p.partsAfter o = parts := partsAfter
  exact {
    balance := by rw [changes, partsAfter, rows, due_lobWrite lob]; simp
    whole := by rw [changes]; exact fun _ member => absurd member List.not_mem_nil
    tidy := by rw [partsAfter]; exact stays tidy
    settled := fun ended => absurd phaseAfter ended
    spares := by rw [before, partsAfter]; exact spares }

/-- Every entry accounts for the rows that it finds and for its own. -/
theorem accounts (merging : o.Merging) (empty : p.desk.state.batch = [])
    (reading : p.desk.state.phase = .reading) (tidy : p.parts.Tidy) {opened : Option Included}
    (done : p.result o = .ok opened) : p.Accounts o := by
  by_cases lob : p.entry.kind = .lobWrite
  · exact accounts_lobWrite merging empty reading tidy lob done
  have clears := clears merging empty tidy lob
  cases change : p.entry.kind.isChange with
  | true => exact clears.accounts_change merging reading change lob done
  | false =>
    have nothing : p.due o = [] := by simp [due, decoded, change]
    have done := performed done
    by_cases footer : p.entry.kind = .footer
    · rw [Desk.perform_footer o footer] at done
      have after : { p.desk.cleared o p.entry with
          state := { (p.desk.cleared o p.entry).state with phase := .done } } = p.after o :=
        congrArg Prod.snd done
      exact clears.accounts (by rw [partsAfter, ← after]) (by rw [records, ← after]) nothing
    by_cases include_ : p.entry.kind = .includeFile
    · rw [Desk.perform_includeFile o include_] at done
      have after : (p.desk.cleared o p.entry).pause = p.after o := by
        split at done
        · exact congrArg Prod.snd done
        · exact absurd (congrArg Prod.fst done) nofun
      exact clears.accounts (by rw [partsAfter, ← after]; rfl) (by rw [records, ← after]; rfl)
        nothing
    obtain ⟨x, performed, keeps⟩ := Desk.perform_other o change footer include_ p.desk.nextId
      (p.desk.reported p.entry)
    rw [performed] at done
    have standing := (keeps.bind fun _ => .pure none).eq done
    simp only [Desk.standing, Desk.Standing.mk.injEq] at standing
    exact clears.accounts standing.2.1 standing.2.2 nothing

end Processed

end ChangeCapture
