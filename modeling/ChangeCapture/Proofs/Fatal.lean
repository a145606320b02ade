import ChangeCapture.Proofs.Similarity

/-! Nothing closes a stream but the end of its input between two entries. Whatever goes wrong about
an entry once it is read, or about a file header, is the end of the stream. -/
namespace ChangeCapture

/-- Fails only in some ways, if it does. -/
def FailsIn (P : Failure → Prop) (x : Except Failure α) : Prop := ∀ f, x = .error f → P f

namespace FailsIn

variable {P : Failure → Prop}

theorem ok (a : α) : FailsIn P (.ok a) := nofun

theorem error {f : Failure} (allowed : P f) : FailsIn P (.error f : Except Failure α) := by
  rintro _ ⟨⟩
  exact allowed

theorem bind {x : Except Failure α} {f : α → Except Failure β} (first : FailsIn P x)
    (rest : ∀ a, x = .ok a → FailsIn P (f a)) : FailsIn P (x >>= f) := by
  cases x with
  | error g => exact error (first g rfl)
  | ok a => exact rest a rfl

theorem map {x : Except Failure α} (f : α → β) (allowed : FailsIn P x) : FailsIn P (x.map f) := by
  cases x with
  | error g => exact error (allowed g rfl)
  | ok a => exact ok (f a)

theorem mapM {f : α → Except Failure β} (each : ∀ a, FailsIn P (f a)) (l : List α) :
    FailsIn P (l.mapM f) := by
  induction l with
  | nil => exact ok []
  | cons a l ih =>
    rw [List.mapM_cons]
    exact (each a).bind fun _ _ => ih.bind fun _ _ => ok _

end FailsIn

/-- Does not fail the way a stream that is closed does. -/
def Fatal (x : Except Failure α) : Prop := x ≠ .error .streamClosed

namespace Fatal

theorem ok (a : α) : Fatal (.ok a) := nofun

theorem of_isFatal {f : Failure} (fatal : f.isFatal) : Fatal (.error f : Except Failure α) := by
  intro closed
  cases closed
  cases fatal

theorem error {f : Failure} (fatal : Fatal (.error f : Except Failure α)) :
    Fatal (.error f : Except Failure β) :=
  fun closed => fatal (congrArg Except.error (Except.error.inj closed))

theorem bind {x : Except Failure α} {f : α → Except Failure β} (first : Fatal x)
    (rest : ∀ a, Fatal (f a)) : Fatal (x >>= f) := by
  cases x with
  | error e => exact first.error
  | ok a => exact rest a

theorem map {x : Except Failure α} (f : α → β) (fatal : Fatal x) : Fatal (x.map f) := by
  cases x with
  | error e => exact fatal.error
  | ok a => exact ok (f a)

theorem mapM {f : α → Except Failure β} (each : ∀ a, Fatal (f a)) (l : List α) :
    Fatal (l.mapM f) := by
  induction l with
  | nil => exact ok []
  | cons a l ih =>
    rw [List.mapM_cons]
    exact (each a).bind fun _ => ih.bind fun _ => ok _

theorem foldlM {f : β → α → Except Failure β} (each : ∀ b a, Fatal (f b a)) (b : β) (l : List α) :
    Fatal (l.foldlM f b) := by
  induction l generalizing b with
  | nil => exact ok b
  | cons a l ih =>
    rw [List.foldlM_cons]
    exact (each b a).bind ih

end Fatal

/-- Fails only because of a tag, if it does. -/
abbrev FailsInTags (x : Except Failure α) : Prop :=
  FailsIn (fun f => ∃ id fault, f = .malformedTag id fault) x

theorem FailsInTags.fatal {x : Except Failure α} (fails : FailsInTags x) : Fatal x := by
  intro closed
  obtain ⟨_, _, other⟩ := fails _ closed
  cases other

namespace Tag

theorem failsInTags_malformed (t : Tag) (fault : TagFault) :
    FailsInTags (t.malformed fault : Except Failure α) :=
  .error ⟨t.id, fault, rfl⟩

theorem failsInTags_word (t : Tag) : FailsInTags t.word := by
  unfold word
  split
  · exact .ok _
  · exact failsInTags_malformed t _

theorem failsInTags_wide (t : Tag) : FailsInTags t.wide := by
  unfold wide
  split
  · exact .ok _
  · exact failsInTags_malformed t _

theorem failsInTags_bytes (t : Tag) : FailsInTags t.bytes := by
  unfold bytes
  split
  · split
    · exact failsInTags_malformed t _
    · exact .ok _
  · exact failsInTags_malformed t _

theorem failsInTags_text (t : Tag) : FailsInTags t.text := by
  refine (failsInTags_bytes t).bind fun bytes _ => ?_
  split
  · exact .ok _
  · exact failsInTags_malformed t _

theorem failsInTags_value (t : Tag) : FailsInTags t.value := by
  unfold value
  split
  · exact .ok _
  · exact (failsInTags_bytes t).map _

theorem fatal_malformed (t : Tag) (fault : TagFault) :
    Fatal (t.malformed fault : Except Failure α) := (failsInTags_malformed t fault).fatal

theorem fatal_word (t : Tag) : Fatal t.word := (failsInTags_word t).fatal

theorem fatal_wide (t : Tag) : Fatal t.wide := (failsInTags_wide t).fatal

theorem fatal_text (t : Tag) : Fatal t.text := (failsInTags_text t).fatal

theorem fatal_value (t : Tag) : Fatal t.value := (failsInTags_value t).fatal

end Tag

namespace Entry

theorem failsInTags_firstAs {read : Tag → Except Failure α} (each : ∀ t, FailsInTags (read t))
    (e : Entry) (t : TagType) : FailsInTags (firstAs read e t) := by
  unfold firstAs
  split
  · exact (each _).map _
  · exact .ok _

theorem failsInTags_word? (e : Entry) (t : TagType) : FailsInTags (e.word? t) :=
  failsInTags_firstAs Tag.failsInTags_word e t

theorem failsInTags_text? (e : Entry) (t : TagType) : FailsInTags (e.text? t) :=
  failsInTags_firstAs Tag.failsInTags_text e t

theorem fatal_word? (e : Entry) (t : TagType) : Fatal (e.word? t) := (e.failsInTags_word? t).fatal

theorem fatal_wide? (e : Entry) (t : TagType) : Fatal (e.wide? t) :=
  (failsInTags_firstAs Tag.failsInTags_wide e t).fatal

theorem fatal_text? (e : Entry) (t : TagType) : Fatal (e.text? t) := (e.failsInTags_text? t).fatal

end Entry

theorem fatal_checkColumns (table : String) (cached columns : List Column) :
    Fatal (checkColumns table cached columns) := by
  fun_induction checkColumns table cached columns with
  | case1 _ _ _ _ _ ih => exact ih
  | case2 => nofun
  | case3 => exact .ok _

theorem fatal_evolveColumns (table : String) (cached columns : List Column) :
    Fatal (evolveColumns table cached columns) :=
  (fatal_checkColumns table cached columns).bind fun _ => .ok _

namespace Dictionary

theorem fatal_apply (d : Dictionary) (t : Table) : Fatal (d.apply t) := by
  unfold apply
  split
  · exact .ok _
  · refine (fatal_evolveColumns _ _ _).bind fun (columns, evolution) => ?_
    dsimp only
    split <;> exact .ok _

theorem fatal_check (d : Dictionary) (t : Table) : Fatal (d.check t) := by
  unfold check
  split
  · exact fatal_checkColumns _ _ _
  · exact .ok _

end Dictionary

namespace SchemaCache

theorem fatal_apply (s : SchemaCache) (d : SchemaDocument) : Fatal (s.apply d) := by
  unfold apply
  split
  · exact .ok _
  · split
    · exact .ok _
    · exact (fatal_evolveColumns _ _ _).bind fun _ => .ok _

theorem fatal_check (s : SchemaCache) (d : SchemaDocument) : Fatal (s.check d) := by
  unfold check
  split
  · split
    · exact fatal_checkColumns _ _ _
    · exact .ok _
  · exact .ok _

end SchemaCache

theorem SchemaText.fatal_numbered (table : String) (index : Nat) (columns : List ColumnDescriptor) :
    Fatal (numbered table index columns) := by
  induction columns generalizing index with
  | nil => exact .ok []
  | cons c columns ih =>
    unfold numbered
    split
    · exact (ih (index + 1)).bind fun _ => .ok _
    · nofun

theorem SchemaDocument.fatal_parse (text : String) : Fatal (parse text) := by
  unfold parse
  split
  · exact (SchemaText.fatal_numbered _ _ _).bind fun _ => .ok _
  · nofun

namespace Catalog

theorem fatal_applyDocument (c : Catalog) (d : SchemaDocument) : Fatal (c.applyDocument d) := by
  unfold applyDocument
  split
  · exact .ok _
  · cases d.table? with
    | none =>
      exact (SchemaCache.fatal_check _ d).bind fun _ =>
        (SchemaCache.fatal_apply _ d).bind fun _ => .ok _
    | some t =>
      exact (Dictionary.fatal_check _ t).bind fun _ => (SchemaCache.fatal_check _ d).bind fun _ =>
        ((Dictionary.fatal_apply _ t).map _).bind fun _ =>
          (SchemaCache.fatal_apply _ d).bind fun _ => .ok _

theorem fatal_applyMetadata (c : Catalog) (e : Entry) : Fatal (c.applyMetadata e) := by
  refine (e.fatal_text? _).bind fun json => ?_
  split
  · nofun
  · exact (SchemaDocument.fatal_parse _).bind fun d => fatal_applyDocument c d

theorem fatal_entrySchema (d : Dictionary) (e : Entry) : Fatal (entrySchema d e) := by
  refine (e.fatal_text? _).bind fun owner => (e.fatal_text? _).bind fun name => ?_
  split
  · exact .ok _
  · exact (e.fatal_word? _).bind fun _ => .ok _

theorem fatal_learn (d : Dictionary) (e : Entry) (tableId : Nat) (ordinals : List Nat) :
    Fatal (learn d e tableId ordinals) := by
  unfold learn
  dsimp only
  split
  · nofun
  · refine (e.fatal_text? _).bind fun owner => (e.fatal_text? _).bind fun name => ?_
    refine Fatal.bind ?_ fun _ => (Dictionary.fatal_apply _ _).bind fun _ => .ok _
    refine (Fatal.mapM (fun (_, name, spec) => ?_) _).bind fun _ => .ok _
    exact (Tag.fatal_text name).bind fun _ => (Tag.fatal_text spec).bind fun _ => .ok _

end Catalog

theorem Image.fatal_decode (column : Column) (bytes : List UInt8) : Fatal (decode column bytes) := by
  unfold decode
  dsimp only
  split <;> first
    | (split <;> first | exact .ok _ | exact .of_isFatal rfl)
    | exact .ok _
    | exact .of_isFatal rfl

namespace ColumnImage

theorem fatal_ordinals (e : Entry) : Fatal (ordinals e) := Fatal.mapM Tag.fatal_word _

theorem fatal_ofEntry (e : Entry) (ordinals : List Nat) : Fatal (ofEntry e ordinals) := by
  refine Fatal.mapM (fun tag => ?_) _
  unfold ofTag
  split
  · exact .ok _
  · exact Tag.fatal_malformed tag _

theorem fatal_field (column : Column) (tag : Tag) : Fatal (field column tag) := by
  refine (Tag.fatal_value tag).bind fun value => ?_
  split
  · exact Image.fatal_decode column _
  · exact .ok _

theorem fatal_applyLocation (tag : Tag) (v : ColumnValue) : Fatal (applyLocation tag v) := by
  refine Fatal.map _ ?_
  unfold locate
  split
  · exact (Tag.fatal_wide tag).map _
  · exact (Tag.fatal_wide tag).map _
  · exact (Tag.fatal_word tag).map _
  · exact .ok _

end ColumnImage

theorem RowSlot.fatal_add (column : Column) (slot : Option RowSlot) (tag : Tag) :
    Fatal (add column slot tag) := by
  unfold add
  split
  · exact (ColumnImage.fatal_applyLocation tag _).bind fun _ => .ok _
  · exact (ColumnImage.fatal_field column tag).bind fun _ => .ok _

theorem fatal_placeImage (table : Table) (slots : List (Option RowSlot)) (image : ColumnImage) :
    Fatal (placeImage table slots image) := by
  unfold placeImage
  split
  · exact .ok _
  · split
    · exact .ok _
    · exact (RowSlot.fatal_add _ _ _).bind fun _ => .ok _

theorem ChangeRecord.fatal_ofImages (header : ChangeHeader) (table : Table)
    (images : List ColumnImage) : Fatal (ofImages header table images) :=
  (Fatal.foldlM (fatal_placeImage table) _ _).bind fun _ => .ok _

namespace ChangeVector

theorem fatal_changeLast? {p : α → Bool} {f : α → Except Failure α} (each : ∀ a, Fatal (f a))
    (l : List α) : ∀ changed ∈ changeLast? p f l, Fatal changed := by
  induction l with
  | nil => nofun
  | cons a l ih =>
    intro changed found
    unfold changeLast? at found
    split at found
    next inner _ =>
      obtain rfl := Option.some.inj found
      exact (ih inner (by assumption)).map _
    next =>
      split at found
      · obtain rfl := Option.some.inj found
        exact (each a).map _
      · cases found

theorem fatal_addLocation (v : ChangeVector) (column : Column) (tag : Tag) :
    Fatal (v.addLocation column tag) := by
  unfold addLocation
  split
  next changed found =>
    exact (fatal_changeLast? (ColumnImage.fatal_applyLocation tag) _ changed found).map _
  next => exact (ColumnImage.fatal_applyLocation tag _).map _

theorem fatal_ofImages (header : ChangeHeader) (table : Table) (images : List ColumnImage) :
    Fatal (ofImages header table images) := by
  refine Fatal.foldlM (fun v image => ?_) _ _
  unfold add
  split
  · exact .ok _
  · split
    · exact fatal_addLocation v _ _
    · exact (ColumnImage.fatal_field _ _).bind fun _ => .ok _

end ChangeVector

theorem Change.fatal_ofImages (header : ChangeHeader) (table : Table) (images : List ColumnImage)
    (view : ChangeView) : Fatal (ofImages header table images view) := by
  cases view with
  | row => exact (ChangeRecord.fatal_ofImages header table images).map _
  | vector => exact (ChangeVector.fatal_ofImages header table images).map _

theorem ChangeHeader.fatal_ofEntry (e : Entry) (id : RecordId) (tableId : Nat)
    (table : Option Table) : Fatal (ofEntry e id tableId table) :=
  (e.fatal_text? _).bind fun _ => (e.fatal_wide? _).bind fun _ => (e.fatal_wide? _).bind fun _ =>
    (e.fatal_text? _).bind fun _ => (e.fatal_text? _).bind fun _ =>
      (e.fatal_text? _).bind fun _ => .ok _

namespace Catalog

theorem fatal_describe (d : Dictionary) (e : Entry) : Fatal (describe d e) := by
  refine (e.fatal_word? _).bind fun _ => (ColumnImage.fatal_ordinals e).bind fun ordinals => ?_
  dsimp only
  split
  · exact (fatal_learn d e _ ordinals).bind fun _ => .ok _
  · exact .ok _

theorem fatal_assembleKnown (c : Catalog) (view : ChangeView) (id : RecordId) (e : Entry)
    (table : Table) (tableId : Nat) (ordinals : List Nat) :
    Fatal (c.assembleKnown view id e table tableId ordinals).result := by
  have read : Fatal (do
      let header ← ChangeHeader.ofEntry e id tableId (some table)
      return (header, ← ColumnImage.ofEntry e ordinals)) :=
    (ChangeHeader.fatal_ofEntry _ _ _ _).bind fun _ =>
      (ColumnImage.fatal_ofEntry _ _).bind fun _ => .ok _
  unfold assembleKnown
  dsimp only
  split
  next f failed =>
    rw [failed] at read
    exact read.error
  next header images _ =>
    split
    next f failed =>
      have fatal := Change.fatal_ofImages header table images view
      rw [failed] at fatal
      exact fatal.error
    next change _ =>
      dsimp only [retrofitKey]
      split <;> exact .ok _

theorem fatal_assemble (c : Catalog) (view : ChangeView) (id : RecordId) (e : Entry) :
    Fatal (c.assemble view id e).result := by
  unfold assemble
  split
  next f failed =>
    have fatal := fatal_describe c.dictionary e
    rw [failed] at fatal
    exact fatal.error
  next tableId ordinals dictionary _ =>
    dsimp only
    split
    · exact fatal_assembleKnown _ _ _ _ _ _ _
    · dsimp only [assembleUnknown]
      split
      · nofun
      · exact (ChangeHeader.fatal_ofEntry _ _ _ _).map _

end Catalog

namespace Parts

theorem fatal_offer (p : Parts) (table : Option Table) (offset : StreamOffset) (r : ChangeRecord) :
    Fatal (p.offer table offset r).2 := by
  unfold offer
  split
  · unfold offerLobWrite
    dsimp only
    split
    · exact .ok _
    · split
      · exact .ok _
      · nofun
  · split
    · unfold offerRowChange
      dsimp only
      split
      · split
        · exact .ok _
        · nofun
      · split <;> exact .ok _
    · exact .ok _

end Parts

theorem Transactions.fatal_observe (t : Transactions) (e : Entry) (o : Observation) :
    Fatal (t.observe e o) := by
  refine (e.fatal_text? _).bind fun xid => ?_
  split
  · exact .ok _
  · exact (e.fatal_wide? _).bind fun _ => (e.fatal_wide? _).bind fun _ => .ok _

theorem IncludeSource.fatal_find (s : IncludeSource) (file : LogFile) : Fatal (s.find file) := by
  unfold find
  cases s.opens file with
  | error _ => exact .of_isFatal rfl
  | ok _ => exact .ok _

namespace Action

variable {σ α β : Type}

/-- Never ends the way a stream that is closed does, whatever the state. -/
def NeverCloses (x : Action σ α) : Prop := ∀ s, Fatal (x s).1

namespace NeverCloses

theorem pure (a : α) : NeverCloses (pure a : Action σ α) := fun _ => .ok a

theorem modify (f : σ → σ) : NeverCloses (modify f : Action σ PUnit) := fun _ => .ok _

theorem ofExcept {x : Except Failure α} (fatal : Fatal x) :
    NeverCloses (ofExcept x : Action σ α) := fun _ => fatal

theorem read {f : σ → Action σ α} (rest : ∀ s, NeverCloses (f s)) : NeverCloses (get >>= f) :=
  fun s => rest s s

theorem bind {x : Action σ α} {f : α → Action σ β} (first : NeverCloses x)
    (rest : ∀ a, NeverCloses (f a)) :
    NeverCloses (x >>= f) := by
  intro s
  have fatal := first s
  rw [bind_apply]
  rcases hx : x s with ⟨f | a, s'⟩
  · rw [hx] at fatal
    exact fatal.error
  · exact rest a s'

end NeverCloses

end Action

namespace ChunkReader

open ChangeCapture.Action

theorem neverCloses_truncated : NeverCloses (truncated : Reading α) :=
  NeverCloses.read fun _ _ => nofun

theorem neverCloses_malformed (offset : Nat) (fault : EntryFault) :
    NeverCloses (malformed offset fault : Reading α) :=
  fun _ => nofun

theorem neverCloses_gather (n : Nat) : NeverCloses (gather n) := by
  intro r
  unfold gather
  split <;> nofun

theorem neverCloses_bytes? (n : Nat) : NeverCloses (bytes? n) := by
  refine (neverCloses_gather n).bind fun bytes => ?_
  split
  · exact NeverCloses.pure _
  · split
    · exact neverCloses_truncated
    · exact NeverCloses.pure _

theorem neverCloses_chunk : NeverCloses chunk := by
  refine NeverCloses.bind ((neverCloses_bytes? _).bind fun _ => NeverCloses.pure _) fun c => ?_
  cases c with
  | none => exact neverCloses_truncated
  | some c => exact NeverCloses.pure c

theorem neverCloses_chunks (n : Nat) : NeverCloses (chunks n) := by
  induction n with
  | zero => exact .pure _
  | succ n ih => exact neverCloses_chunk.bind fun _ => ih.bind fun _ => .pure _

theorem neverCloses_tags (offset seq remaining : Nat) (known : Registry TagType (List Tag)) :
    NeverCloses (tags offset seq remaining known) := by
  induction remaining using Nat.strongRecOn generalizing seq known with
  | ind remaining ih =>
    rw [tags]
    split
    · exact .pure _
    · split
      · exact neverCloses_malformed _ _
      · refine neverCloses_chunk.bind fun length => neverCloses_chunk.bind fun id => ?_
        split
        next fits =>
          have : tagHeader = 2 := rfl
          exact (neverCloses_chunks _).bind fun _ => ih _ (by omega) _ _
        · exact neverCloses_malformed _ _

theorem neverCloses_entryBody (offset length : Nat) : NeverCloses (entryBody offset length) := by
  unfold entryBody
  split
  · exact neverCloses_malformed _ _
  · refine neverCloses_chunk.bind fun _ => neverCloses_chunk.bind fun _ => ?_
    split
    · exact neverCloses_malformed _ _
    · exact NeverCloses.bind (neverCloses_tags _ _ _ _) fun _ => .pure _

theorem neverCloses_fileHeader : NeverCloses fileHeader := by
  refine (neverCloses_bytes? _).bind fun found => ?_
  cases found with
  | none => exact neverCloses_truncated
  | some found =>
    dsimp only
    split
    · exact fun _ => nofun
    · refine neverCloses_chunk.bind fun _ => neverCloses_chunk.bind fun _ => ?_
      split
      · exact fun _ => nofun
      · exact NeverCloses.pure _

end ChunkReader

namespace Desk

open ChangeCapture.Action

variable (o : StreamOptions)

theorem neverCloses_observe (e : Entry) (n : Observation) : NeverCloses (observe o e n) :=
  NeverCloses.read fun d => (NeverCloses.ofExcept (d.transactions.fatal_observe e n)).bind fun _ =>
    NeverCloses.modify _

theorem neverCloses_header (e : Entry) : NeverCloses (header e) :=
  (NeverCloses.ofExcept (e.fatal_word? _)).bind fun _ => NeverCloses.modify _

theorem neverCloses_parses (input : GateInput) : NeverCloses (parses o input) :=
  (NeverCloses.modify _).bind fun _ => NeverCloses.pure _

theorem neverCloses_metadata (e : Entry) (offset : StreamOffset) :
    NeverCloses (metadata o e offset) := by
  refine NeverCloses.read fun d => (NeverCloses.ofExcept (Catalog.fatal_entrySchema _ e)).bind fun _ =>
    (neverCloses_parses o _).bind fun passes => ?_
  cases passes with
  | false => exact NeverCloses.pure _
  | true =>
    refine (NeverCloses.ofExcept (Catalog.fatal_applyMetadata _ e)).bind fun (catalog, document) =>
      (NeverCloses.modify _).bind fun _ => ?_
    cases document with
    | none => exact NeverCloses.pure _
    | some document => exact NeverCloses.modify _

theorem neverCloses_assemble (e : Entry) (id : RecordId) : NeverCloses (assemble o e id) :=
  NeverCloses.read fun _ => (NeverCloses.modify _).bind fun _ =>
    NeverCloses.ofExcept (Catalog.fatal_assemble _ _ id e)

theorem neverCloses_offer (offset : StreamOffset) (c : Change) : NeverCloses (offer o offset c) := by
  unfold offer
  cases c with
  | vector => exact NeverCloses.pure _
  | row record =>
    dsimp only
    split
    · exact NeverCloses.read fun _ => (NeverCloses.modify _).bind fun _ =>
        (NeverCloses.ofExcept (Parts.fatal_offer _ _ _ _)).bind fun _ => NeverCloses.pure _
    · exact NeverCloses.pure _

theorem neverCloses_change (e : Entry) (id : RecordId) (offset : StreamOffset) :
    NeverCloses (change o e id offset) := by
  refine NeverCloses.read fun d => ?_
  dsimp only
  split
  · exact fun _ => nofun
  refine (NeverCloses.ofExcept (Catalog.fatal_entrySchema _ e)).bind fun _ =>
    (neverCloses_parses o _).bind fun passes => ?_
  cases passes with
  | false => exact neverCloses_observe o e _
  | true =>
    refine (neverCloses_assemble o e id).bind fun c =>
      (neverCloses_offer o offset c).bind fun offered => ?_
    cases offered with
    | fragment => exact NeverCloses.pure _
    | held => exact neverCloses_observe o e _
    | emitted c => exact (neverCloses_observe o e _).bind fun _ => NeverCloses.modify _

theorem neverCloses_includeStats (e : Entry) : NeverCloses (includeStats e) := by
  rw [includeStats_eq]
  refine (NeverCloses.ofExcept (e.fatal_wide? _)).bind fun announced => ?_
  cases announced with
  | none => exact NeverCloses.pure _
  | some n => exact NeverCloses.modify _

theorem fatal_includedFile (parent : FileState) (e : Entry) (offset : StreamOffset) :
    Fatal (includedFile o parent e offset) := by
  refine (e.fatal_wide? _).bind fun _ => (e.fatal_text? _).bind fun _ =>
    (e.fatal_word? _).bind fun _ => ?_
  dsimp only
  split
  · nofun
  · refine (IncludeSource.fatal_find _ _).bind fun source => ?_
    have fatal := ChunkReader.neverCloses_fileHeader (.ofSource source)
    split
    next f _ failed =>
      rw [failed] at fatal
      exact fatal.error
    next => exact .ok _

theorem neverCloses_includeFile (e : Entry) (offset : StreamOffset) :
    NeverCloses (includeFile o e offset) :=
  NeverCloses.read fun _ => (NeverCloses.ofExcept (fatal_includedFile o _ e offset)).bind fun _ =>
    (NeverCloses.modify _).bind fun _ => NeverCloses.pure _

/-- No entry closes the stream that it was read from. -/
theorem neverCloses_process (e : Entry) : NeverCloses (process o e) := by
  rw [process_eq]
  refine NeverCloses.bind (fun _ => .ok _) fun (id, offset) => NeverCloses.bind ?_ fun _ => ?_
  · split
    · exact NeverCloses.modify _
    · exact NeverCloses.pure _
  · unfold perform
    split
    · exact (NeverCloses.modify _).bind fun _ => NeverCloses.pure _
    · exact (neverCloses_header e).bind fun _ => NeverCloses.pure _
    · exact (NeverCloses.modify _).bind fun _ => NeverCloses.pure _
    · exact (neverCloses_metadata o e offset).bind fun _ => NeverCloses.pure _
    · exact NeverCloses.read fun _ => (neverCloses_observe o e _).bind fun _ => NeverCloses.pure _
    · exact (neverCloses_includeFile o e offset).bind fun _ => NeverCloses.pure _
    · exact (neverCloses_includeStats e).bind fun _ => NeverCloses.pure _
    · exact (neverCloses_change o e id offset).bind fun _ => NeverCloses.pure _

end Desk

end ChangeCapture
