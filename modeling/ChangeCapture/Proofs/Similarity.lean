import ChangeCapture.LogStream.Processing

/-! What the processing of an entry depends on. It adds to the batch and to the notices without a
look at them, and it only compares the count of included records; so desks that differ in nothing
else are processed alike, whichever batch they have. -/
namespace ChangeCapture

namespace Action

variable {σ τ α β : Type}

/-- Related states give one result and lead to related states. -/
def Similar (R : σ → τ → Prop) (x : Action σ α) (y : Action τ α) : Prop :=
  ∀ s t, R s t → (x s).1 = (y t).1 ∧ R (x s).2 (y t).2

namespace Similar

variable {R : σ → τ → Prop}

theorem pure (a : α) : Similar R (pure a) (pure a) := fun _ _ related => ⟨rfl, related⟩

theorem throw (f : Failure) : Similar R (throw f : Action σ α) (throw f) :=
  fun _ _ related => ⟨rfl, related⟩

theorem ofExcept (x : Except Failure α) : Similar R (ofExcept x) (ofExcept x) :=
  fun _ _ related => ⟨rfl, related⟩

theorem modify {f : σ → σ} {g : τ → τ} (keeps : ∀ s t, R s t → R (f s) (g t)) :
    Similar R (modify f : Action σ PUnit) (modify g) :=
  fun s t related => ⟨rfl, keeps s t related⟩

theorem bind {x : Action σ α} {y : Action τ α} {f : α → Action σ β} {g : α → Action τ β}
    (first : Similar R x y) (rest : ∀ a, Similar R (f a) (g a)) :
    Similar R (x >>= f) (y >>= g) := by
  intro s t related
  obtain ⟨same, next⟩ := first s t related
  rw [bind_apply, bind_apply]
  rcases hs : x s with ⟨r, s'⟩
  rcases ht : y t with ⟨r', t'⟩
  rw [hs, ht] at same next
  obtain rfl : r = r' := same
  cases r with
  | error f => exact ⟨rfl, next⟩
  | ok a => exact rest a s' t' next

theorem read {f : σ → Action σ α} {g : τ → Action τ α}
    (rest : ∀ s t, R s t → Similar R (f s) (g t)) : Similar R (get >>= f) (get >>= g) :=
  fun s t related => rest s t related s t related

end Similar

end Action

namespace Desk

open ChangeCapture.Action

/-- The desk without what processing never looks at. -/
def core (d : Desk) : Desk :=
  ⟨{ d.state with batch := [], includedRecords := none }, ⟨d.journal.summaries, []⟩⟩

/-- The same core, with the rest of another desk. -/
def onto (core d : Desk) : Desk :=
  ⟨{ core.state with batch := d.state.batch, includedRecords := d.state.includedRecords },
    ⟨core.journal.summaries, d.journal.notices⟩⟩

/-- The desk once the statistics of an included file have been compared. -/
def settle (e : Entry) (announced : Nat) (d : Desk) : Desk :=
  let settled := { d with state := { d.state with includedRecords := none } }
  match d.state.includedRecords with
  | none => settled.warn [.statsWithoutFile e.offset d.state.file]
  | some delivered =>
    if delivered ≠ announced then settled.warn [.rowCount announced delivered] else settled

/-- The desk of a file that has opened another one. -/
def pause (d : Desk) : Desk :=
  { d with state := { d.state with phase := .paused, includedRecords := none } }

theorem includeStats_eq (e : Entry) :
    includeStats e = (Action.ofExcept (e.wide? .includeRows) >>= fun announced =>
      match announced with
      | none => pure ()
      | some n => modify (settle e n)) := by
  unfold includeStats
  congr 1
  funext announced
  cases announced with
  | none => rfl
  | some n =>
    funext d
    show (match d.state.includedRecords with
      | none => modify (fun d' : Desk => d'.warn [.statsWithoutFile e.offset d.state.file])
      | some delivered => if delivered ≠ n
        then modify (fun d' : Desk => d'.warn [.rowCount n delivered]) else pure () :
      Action Desk Unit) { d with state := { d.state with includedRecords := none } } =
        (.ok (), settle e n d)
    unfold settle
    cases d.state.includedRecords with
    | none => rfl
    | some delivered =>
      dsimp only
      split <;> rfl

/-- What is done about an entry of each kind, once nothing is held any more that it does not
complete. -/
def perform (o : StreamOptions) (e : Entry) (id : RecordId) (offset : StreamOffset) :
    Action Desk (Option Included) :=
  match e.kind with
  | .unknown => do
    modify (fun d => d.warn
      [.unknownEntry e.major.toNat e.subtype.toNat e.offset d.state.file])
    return none
  | .header => do header e; return none
  | .footer => do
    modify (fun d => { d with state := { d.state with phase := .done } })
    return none
  | .metadata => do metadata o e offset; return none
  | .commit => do
    observe o e ⟨(← get).state.file.uid, id, offset, none⟩
    return none
  | .includeFile => do return some (← includeFile o e offset)
  | .includeStats => do includeStats e; return none
  | _ => do change o e id offset; return none

theorem process_eq (o : StreamOptions) (e : Entry) :
    process o e = (number e >>= fun (id, offset) =>
      (if e.kind ≠ .lobWrite then modify (release o.gates) else pure ()) >>= fun _ =>
        perform o e id offset) := by
  unfold process perform
  congr 1
  funext (id, offset)
  by_cases other : e.kind ≠ .lobWrite
  · have done : (if e.kind ≠ .lobWrite then modify (release o.gates) else pure () :
        Action Desk PUnit) = modify (release o.gates) := if_pos other
    rw [done]
    exact if_pos other
  · have skipped : (if e.kind ≠ .lobWrite then modify (release o.gates) else pure () :
        Action Desk PUnit) = pure () := if_neg other
    rw [skipped]
    exact if_neg other

/-- A relation that processing respects, under options that decode alike. -/
structure Congruence (o o' : StreamOptions) (R : Desk → Desk → Prop) : Prop where
  view : o.config.view = o'.config.view
  mergeMultipart : o.config.mergeMultipart = o'.config.mergeMultipart
  requireFeatures : o.config.requireFeatures = o'.config.requireFeatures
  parse : o.gates .parse = o'.gates .parse
  includes : o.includes = o'.includes
  core : ∀ {d d'}, R d d' → d.core = d'.core
  onto : ∀ {d d'} c, R d d' → R (onto c d) (onto c d')
  say : ∀ {d d'} n, R d d' → R (d.say n) (d'.say n)
  emit : ∀ {d d'} r, R d d' → R (d.emit o.gates r) (d'.emit o'.gates r)
  settle : ∀ {d d'} e announced, R d d' → R (settle e announced d) (settle e announced d')
  pause : ∀ {d d'}, R d d' → R d.pause d'.pause

namespace Congruence

variable {o o' : StreamOptions} {R : Desk → Desk → Prop} (h : Congruence o o' R)
include h

theorem update {d d' : Desk} (f : Desk → Desk) (core : ∀ d, f d = (f d.core).onto d)
    (related : R d d') : R (f d) (f d') := by
  rw [core d, core d', h.core related]
  exact h.onto _ related

theorem agree (p : Desk → α) (core : ∀ d, p d = p d.core) (d d' : Desk) (related : R d d') :
    p d = p d' := by
  rw [core d, core d', h.core related]

theorem cache {d d' : Desk} (related : R d d') : d.state.cache = d'.state.cache :=
  h.agree (fun d => d.state.cache) (fun _ => rfl) d d' related

theorem warn {d d' : Desk} (warnings : List Warning) (related : R d d') :
    R (d.warn warnings) (d'.warn warnings) := by
  induction warnings generalizing d d' with
  | nil => exact related
  | cons w warnings ih => exact ih (h.say _ related)

theorem release {d d' : Desk} (related : R d d') : R (d.release o.gates) (d'.release o'.gates) := by
  have emitted (held : List HeldRecord) : ∀ {d d'}, R d d' →
      R (held.foldl (fun d h => d.emit o.gates ⟨h.offset, .change (.row h.record)⟩) d)
        (held.foldl (fun d h => d.emit o'.gates ⟨h.offset, .change (.row h.record)⟩) d') := by
    induction held with
    | nil => exact id
    | cons x held ih => exact fun related => ih (h.emit _ related)
  unfold Desk.release
  rw [h.cache related]
  exact emitted _ (h.update (Desk.withCache · _) (fun _ => rfl) related)

theorem withTransactions {d d' : Desk} (t : Transactions) (finished : Option TransactionSummary)
    (related : R d d') :
    R (d.withTransactions o.gates t finished) (d'.withTransactions o'.gates t finished) := by
  have moved := h.update (fun d => d.withTransactions o.gates t none) (fun _ => rfl) related
  cases finished with
  | none => exact moved
  | some s => exact h.emit _ moved

theorem flushTransactions {d d' : Desk} (related : R d d') :
    R (d.flushTransactions o.gates) (d'.flushTransactions o'.gates) := by
  have released := h.release related
  have same : (d.release o.gates).transactions = (d'.release o'.gates).transactions :=
    h.agree transactions (fun _ => rfl) _ _ released
  show R ((d.release o.gates).withTransactions o.gates (d.release o.gates).transactions.flush.1
    (d.release o.gates).transactions.flush.2) _
  rw [same]
  exact h.withTransactions _ _ released

theorem parses (input : GateInput) : Similar R (parses o input) (parses o' input) := by
  unfold Desk.parses
  rw [h.parse]
  refine (Similar.modify fun d d' related => ?_).bind fun _ => Similar.pure _
  rw [asked, asked, h.parse]
  exact h.say _ related

theorem observe (e : Entry) (n : Observation) : Similar R (observe o e n) (observe o' e n) := by
  refine Similar.read fun d d' related => ?_
  rw [h.agree transactions (fun _ => rfl) d d' related]
  refine (Similar.ofExcept _).bind fun (t, finished) => ?_
  exact Similar.modify fun _ _ related => h.withTransactions t finished related

theorem number (e : Entry) : Similar R (number e) (number e) := by
  intro d d' related
  refine ⟨h.agree (fun d => (Desk.number e d).1) (fun _ => rfl) d d' related, ?_⟩
  exact h.update (fun d => (Desk.number e d).2) (fun _ => rfl) related

theorem header (e : Entry) : Similar R (header e) (header e) := by
  refine (Similar.ofExcept _).bind fun bits => Similar.modify fun d d' related => ?_
  exact h.update (fun d => ⟨{ d.state with features := ⟨.ofNat (bits.getD 0)⟩ }, d.journal⟩)
    (fun _ => rfl) related

theorem metadata (e : Entry) (offset : StreamOffset) :
    Similar R (metadata o e offset) (metadata o' e offset) := by
  refine Similar.read fun d d' related => ?_
  dsimp only
  rw [h.cache related]
  refine (Similar.ofExcept _).bind fun schema => (h.parses _).bind fun passes => ?_
  cases passes with
  | false => exact Similar.pure _
  | true =>
    refine (Similar.ofExcept _).bind fun (catalog, document) => ?_
    refine (Similar.modify fun d d' related => ?_).bind fun _ => ?_
    · exact h.update (withCatalog · catalog) (fun _ => rfl) related
    · cases document with
      | none => exact Similar.pure _
      | some document => exact Similar.modify fun _ _ related => h.emit _ related

theorem assemble (e : Entry) (id : RecordId) : Similar R (assemble o e id) (assemble o' e id) := by
  refine Similar.read fun d d' related => ?_
  dsimp only
  rw [h.cache related, h.view]
  refine (Similar.modify fun d d' related => ?_).bind fun _ => Similar.ofExcept _
  exact h.warn _ (h.update (withCatalog · _) (fun _ => rfl) related)

theorem offer (offset : StreamOffset) (c : Change) :
    Similar R (offer o offset c) (offer o' offset c) := by
  unfold Desk.offer
  rw [h.mergeMultipart]
  cases c with
  | vector => exact Similar.pure _
  | row record =>
    simp only
    split
    · refine Similar.read fun d d' related => ?_
      rw [h.cache related]
      refine (Similar.modify fun d d' related => ?_).bind fun _ =>
        (Similar.ofExcept _).bind fun _ => Similar.pure _
      exact h.update (withCache · _) (fun _ => rfl) related
    · exact Similar.pure _

theorem change (e : Entry) (id : RecordId) (offset : StreamOffset) :
    Similar R (change o e id offset) (change o' e id offset) := by
  refine Similar.read fun d d' related => ?_
  dsimp only
  rw [h.requireFeatures, h.agree (fun d => d.state.features) (fun _ => rfl) d d' related,
    h.agree (fun d => d.state.file) (fun _ => rfl) d d' related, h.cache related]
  split
  · exact Similar.throw _
  refine (Similar.ofExcept _).bind fun schema => (h.parses _).bind fun passes => ?_
  cases passes with
  | false => exact h.observe e _
  | true =>
    refine (h.assemble e id).bind fun c => (h.offer offset c).bind fun offered => ?_
    cases offered with
    | fragment => exact Similar.pure _
    | held => exact h.observe e _
    | emitted c =>
      refine (h.observe e _).bind fun _ => Similar.modify fun _ _ related => ?_
      exact h.emit _ related

theorem includeStats (e : Entry) : Similar R (includeStats e) (includeStats e) := by
  rw [includeStats_eq]
  refine (Similar.ofExcept _).bind fun announced => ?_
  cases announced with
  | none => exact Similar.pure _
  | some n => exact Similar.modify fun _ _ related => h.settle e n related

theorem includeFile (e : Entry) (offset : StreamOffset) :
    Similar R (includeFile o e offset) (includeFile o' e offset) := by
  refine Similar.read fun d d' related => ?_
  have same : includedFile o d.state e offset = includedFile o' d'.state e offset := by
    unfold includedFile
    rw [h.includes, h.cache related, h.agree (fun d => d.state.features) (fun _ => rfl) d d' related]
  rw [same]
  exact (Similar.ofExcept _).bind fun _ =>
    (Similar.modify fun _ _ related => h.pause related).bind fun _ => Similar.pure _

theorem perform (e : Entry) (id : RecordId) (offset : StreamOffset) :
    Similar R (perform o e id offset) (perform o' e id offset) := by
  have nothing {x y : Action Desk Unit} (alike : Similar R x y) :
      Similar R (do x; return (none : Option Included)) (do y; return none) :=
    alike.bind fun _ => Similar.pure _
  unfold Desk.perform
  split
  · refine nothing (Similar.modify fun d d' related => ?_)
    rw [h.agree (fun d => d.state.file) (fun _ => rfl) d d' related]
    exact h.warn _ related
  · exact nothing (h.header e)
  · refine nothing (Similar.modify fun d d' related => ?_)
    exact h.update (fun d => ⟨{ d.state with phase := .done }, d.journal⟩) (fun _ => rfl) related
  · exact nothing (h.metadata e offset)
  · refine Similar.read fun d d' related => ?_
    rw [h.agree (fun d => d.state.file) (fun _ => rfl) d d' related]
    exact nothing (h.observe e _)
  · exact (h.includeFile e offset).bind fun _ => Similar.pure _
  · exact nothing (h.includeStats e)
  · exact nothing (h.change e id offset)

theorem process (e : Entry) : Similar R (process o e) (process o' e) := by
  rw [process_eq, process_eq]
  refine (h.number e).bind fun (id, offset) => Similar.bind ?_ fun _ => h.perform e id offset
  split
  · exact Similar.modify fun _ _ related => h.release related
  · exact Similar.pure _

end Congruence

/-- The desk with records that were there before. -/
def prepend (records : List DomainRecord) (d : Desk) : Desk :=
  { d with state := { d.state with batch := records ++ d.state.batch } }

theorem emit_prepend (gates : Gates) (records : List DomainRecord) (d : Desk) (r : DomainRecord) :
    (d.prepend records).emit gates r = (d.emit gates r).prepend records := by
  unfold emit
  dsimp only
  split
  · split
    · simp [prepend, addRecord, asked, say]
    · rfl
  · rfl

theorem settle_prepend (e : Entry) (announced : Nat) (records : List DomainRecord) (d : Desk) :
    settle e announced (d.prepend records) = (settle e announced d).prepend records := by
  unfold settle
  dsimp only [prepend]
  cases d.state.includedRecords with
  | none => rfl
  | some delivered =>
    dsimp only
    split <;> rfl

theorem congruence_prepend (o : StreamOptions) (records : List DomainRecord) :
    Congruence o o (fun d d' => d' = d.prepend records) where
  view := rfl
  mergeMultipart := rfl
  requireFeatures := rfl
  parse := rfl
  includes := rfl
  core := by rintro d _ rfl; rfl
  onto := by rintro d _ c rfl; rfl
  say := by rintro d _ n rfl; rfl
  emit := by rintro d _ r rfl; exact emit_prepend o.gates records d r
  settle := by rintro d _ e announced rfl; exact settle_prepend e announced records d
  pause := by rintro d _ rfl; rfl

/-- The records before do not matter to an entry, and stay where they are. -/
theorem process_prepend (o : StreamOptions) (e : Entry) (records : List DomainRecord) (d : Desk) :
    process o e (d.prepend records) = ((process o e d).1, (process o e d).2.prepend records) := by
  obtain ⟨result, state⟩ := (congruence_prepend o records).process e d _ rfl
  exact Prod.ext result.symm state

end Desk

end ChangeCapture
