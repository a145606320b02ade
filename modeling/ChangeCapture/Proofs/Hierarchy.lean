import ChangeCapture.Proofs.InPlace
import ChangeCapture.Proofs.Phases
import Mathlib.Data.Set.Card
import Mathlib.Logic.Relation

/-! Which files include which. Where no file leads back to itself, a file has as its rank the number
of files that it leads to, and each file that it includes has a smaller one. Whatever is read, the
files that are open within each other have smaller and smaller ranks, so that there are no more of
them than there are files. -/
namespace ChangeCapture

theorem Registry.mem_values_of_get? {κ : Type u} {α : Type v} [DecidableEq κ] {r : Registry κ α}
    {key : κ} {a : α} (found : r.get? key = some a) : a ∈ r.values :=
  List.mem_map_of_mem (mem_of_find found)

/-- An entry that is met where a file is read on to its footer; `retried` says whether it is read on
where that has failed. -/
inductive ChunkReader.Meets (retried : Prop) : ChunkReader → Entry → Prop where
  | next {r e r'} : next r = (.ok e, r') → Meets retried r e
  | later {r e r' e'} : ChunkReader.next r = (.ok e, r') → e.kind ≠ .footer →
      Meets retried r' e' → Meets retried r e'
  | again {r f r' e} : retried → ChunkReader.next r = (.error f, r') → Meets retried r' e →
      Meets retried r e

namespace IncludeSource

variable {retried : Prop} {s : IncludeSource} {source outer inner : Source}

/-- What is found in the files that can be opened. -/
def contents (s : IncludeSource) : Set Source := {source | ∃ file, s.find file = .ok source}

/-- An entry includes a file of this content. -/
structure Names (s : IncludeSource) (e : Entry) (source : Source) : Prop where
  kind : e.kind = .includeFile
  found : ∃ fileId name, e.wide? .includeFileId = .ok fileId ∧ e.text? .includeFileName = .ok name ∧
    s.find (.ofUid (fileId.getD 0) (name.getD "")) = .ok source

theorem Names.mem_contents {e : Entry} (names : s.Names e source) : source ∈ s.contents := by
  obtain ⟨_, _, _, _, found⟩ := names.found
  exact ⟨_, found⟩

/-- Reading one file meets an entry that includes the other. -/
def Includes (retried : Prop) (s : IncludeSource) (outer inner : Source) : Prop :=
  outer ∈ s.contents ∧
    ∃ header reader e, ChunkReader.fileHeader (.ofSource outer) = (.ok header, reader) ∧
      ChunkReader.Meets retried reader e ∧ s.Names e inner

/-- No file includes itself, be it through others, and as many may be open within each other as there
are different ones. -/
structure Acyclic (retried : Prop) (s : IncludeSource) : Prop where
  straight : ∀ source, ¬ Relation.TransGen (s.Includes retried) source source
  few : s.contents.encard ≤ s.depth

/-- Files that a file includes, be it through others. -/
def below (retried : Prop) (s : IncludeSource) (source : Source) : Set Source :=
  {inner ∈ s.contents | Relation.TransGen (s.Includes retried) source inner}

noncomputable def rank (retried : Prop) (s : IncludeSource) (source : Source) : Nat :=
  (s.below retried source).ncard

theorem Acyclic.finite (acyclic : s.Acyclic retried) : s.contents.Finite :=
  Set.finite_of_encard_le_coe acyclic.few

theorem rank_lt_of_includes (acyclic : s.Acyclic retried)
    (includes : s.Includes retried outer inner) :
    s.rank retried inner < s.rank retried outer := by
  have finite : (s.below retried outer).Finite := acyclic.finite.subset (Set.sep_subset _ _)
  refine Set.ncard_lt_ncard ((Set.ssubset_iff_of_subset ?_).mpr ⟨inner, ?_, ?_⟩) finite
  · rintro source ⟨known, leads⟩
    exact ⟨known, .head includes leads⟩
  · have ⟨_, _, _, _, _, _, names⟩ := includes
    exact ⟨names.mem_contents, .single includes⟩
  · intro itself
    exact acyclic.straight inner itself.2

theorem rank_lt_depth (acyclic : s.Acyclic retried) (known : source ∈ s.contents) :
    s.rank retried source < s.depth := by
  have within : s.below retried source ⊂ s.contents := by
    refine (Set.ssubset_iff_of_subset (Set.sep_subset _ _)).mpr ⟨source, known, ?_⟩
    intro itself
    exact acyclic.straight source itself.2
  have few : s.contents.ncard ≤ s.depth := by
    rw [← Nat.cast_le (α := ℕ∞), acyclic.finite.cast_ncard_eq]
    exact acyclic.few
  exact Nat.lt_of_lt_of_le (Set.ncard_lt_ncard within acyclic.finite) few

theorem few_of_values {files : Registry String Source} (deep : files.size ≤ s.depth)
    (among : ∀ file source, s.opens file = .ok source → ∃ key, files.get? key = some source) :
    s.contents.encard ≤ s.depth := by
  classical
  have within : s.contents ⊆ (files.values.toFinset : Set Source) := by
    rintro source ⟨file, found⟩
    obtain ⟨key, there⟩ : ∃ key, files.get? key = some source := by
      unfold find at found
      rcases opened : s.opens file with f | x <;> rw [opened] at found <;> cases found
      exact among file _ opened
    exact List.mem_toFinset.mpr (Registry.mem_values_of_get? there)
  have few : files.values.toFinset.card ≤ files.size := by
    simpa [Registry.values, Registry.size] using files.values.toFinset_card_le
  calc s.contents.encard ≤ (files.values.toFinset : Set Source).encard := Set.encard_le_encard within
    _ = files.values.toFinset.card := Set.encard_coe_eq_coe_finsetCard _
    _ ≤ s.depth := Nat.cast_le.mpr (few.trans deep)

theorem few_directory (files : Registry String Source) :
    (directory files).contents.encard ≤ (directory files).depth := by
  refine few_of_values (Nat.le_refl files.size) fun file source opened => ?_
  dsimp only [directory] at opened
  split at opened
  · cases opened
  · cases there : (localName? file.name).bind files.get? <;> rw [there] at opened <;> cases opened
    obtain ⟨key, -, known⟩ := Option.bind_eq_some_iff.mp there
    exact ⟨key, known⟩

end IncludeSource

/-- No file that may be included includes itself. -/
def StreamOptions.Acyclic (retried : Prop) (o : StreamOptions) : Prop :=
  ∀ includes ∈ o.includes, includes.Acyclic retried

namespace Session

variable {retried : Prop} {o : StreamOptions} {depth n : Nat} {s t : Session} {ps : List Processed}
variable {r r' : ChunkReader} {e : Entry}

/-- All files that reading meets have ranks below `n`. -/
def Allows (retried : Prop) (o : StreamOptions) (n : Nat) (r : ChunkReader) : Prop :=
  ∀ includes ∈ o.includes, ∀ e, r.Meets retried e → ∀ source, includes.Names e source →
    includes.rank retried source < n

theorem Allows.later (allows : Allows retried o n r) (found : ChunkReader.next r = (.ok e, r'))
    (more : e.kind ≠ .footer) : Allows retried o n r' :=
  fun includes given e meets => allows includes given e (.later found more meets)

theorem Allows.again {f : Failure} (allows : Allows retried o n r) (again : retried)
    (failed : ChunkReader.next r = (.error f, r')) : Allows retried o n r' :=
  fun includes given e meets => allows includes given e (.again again failed meets)

theorem allows_depth (acyclic : o.Acyclic retried) (r : ChunkReader) :
    Allows retried o (LogStream.depth o) r := by
  intro includes given e _ source names
  rw [LogStream.depth, Option.mem_def.mp given]
  exact includes.rank_lt_depth (acyclic includes given) names.mem_contents

/-- As long as it is read the file opens none of rank `n` or more, wherever its header ends. -/
structure Stays (retried : Prop) (o : StreamOptions) (n : Nat) (file : OpenFile) : Prop where
  allows : file.state.phase ≠ .done → Allows retried o n file.reader
  anywhere : file.state.phase = .unopened → ∀ r, Allows retried o n r

theorem running_of_reads (reads : s.state.phase.readsEntries) : s.state.phase ≠ .done := by
  intro done
  rw [done] at reads
  cases reads

/-- An open file and the files that are included from it in turn, where each of them that is still
read has a smaller rank than the one before. -/
def Descending (retried : Prop) (o : StreamOptions) : Nat → OpenFile → List Included → Prop
  | n, file, [] => Stays retried o n file
  | n, file, i :: deeper => Stays retried o n file ∧
      (i.exhausted ∨ ∃ m < n, Descending retried o m i.toOpenFile deeper)

def Descends (retried : Prop) (o : StreamOptions) (n : Nat) (s : Session) : Prop :=
  Descending retried o n s.toOpenFile s.included

theorem Descends.stays (descends : s.Descends retried o n) : Stays retried o n s.toOpenFile := by
  unfold Descends at descends
  cases included : s.included with
  | nil => rwa [included] at descends
  | cons i deeper =>
    rw [included] at descends
    exact descends.1

theorem Stays.descends (stays : Stays retried o n s.toOpenFile) (alone : s.included = []) :
    s.Descends retried o n := by
  rwa [Descends, alone]

theorem Descends.congr (descends : s.Descends retried o n) (reader : t.reader = s.reader)
    (phase : t.state.phase = s.state.phase) (included : t.included = s.included) :
    t.Descends retried o n := by
  have stays : Stays retried o n t.toOpenFile := by
    refine ⟨fun running => ?_, fun unopened => descends.stays.anywhere (phase.symm.trans unopened)⟩
    rw [reader]
    exact descends.stays.allows (phase ▸ running)
  unfold Descends at descends ⊢
  rw [included]
  cases open_ : s.included with
  | nil => exact stays
  | cons =>
    rw [open_] at descends
    exact ⟨stays, descends.2⟩

/-- The included file that is read has a smaller rank. -/
theorem Descends.inner {i : Included} {deeper : List Included} (descends : s.Descends retried o n)
    (open_ : s.included = i :: deeper) (running : i.exhausted = false) :
    ∃ m < n, (s.inner i deeper).Descends retried o m := by
  unfold Descends at descends
  rw [open_] at descends
  exact descends.2.resolve_left (by simp [running])

theorem Descends.outer {i : Included} {m : Nat} (descends : s.Descends retried o n) (less : m < n)
    (further : t.Descends retried o m) : (s.outer i t).Descends retried o n :=
  ⟨descends.stays, .inr ⟨m, less, further⟩⟩

theorem kind_of_opened {d m : Desk} {i : Included}
    (done : Desk.process o e d = (.ok (some i), m)) : e.kind = .includeFile := by
  rw [Desk.process_apply] at done
  by_contra include_
  by_cases footer : e.kind = .footer
  · rw [Desk.perform_footer o footer] at done
    cases done
  · cases Desk.perform_opens_nothing o footer include_ (congrArg Prod.fst done)

/-- A file that is opened has a smaller rank than the file that includes it. -/
theorem stays_opened {d d' : Desk} {i : Included} (acyclic : o.Acyclic retried)
    (allows : Allows retried o n r) (found : ChunkReader.next r = (.ok e, r'))
    (done : Desk.process o e d = (.ok (some i), d')) :
    ∃ m < n, Stays retried o m i.toOpenFile := by
  obtain ⟨opened, -⟩ := Desk.includedFile_of_process done
  obtain ⟨fileId, name, _, includes, source, header, identified, named, -, given, located, read,
    state⟩ := Desk.includedFile_ok opened
  have names : includes.Names e source :=
    ⟨kind_of_opened done, fileId, name, identified, named, located⟩
  refine ⟨includes.rank retried source, allows includes given e (.next found) source names, ?_, ?_⟩
  · intro _ also given' e' meets inner names'
    obtain rfl : includes = also := Option.some.inj (given.symm.trans given')
    exact includes.rank_lt_of_includes (acyclic includes given)
      ⟨⟨_, located⟩, header, i.reader, e', read, meets, names'⟩
  · intro unopened
    rw [state] at unopened
    cases unopened

/-- Steps keep the ranks in order. -/
theorem Step.descends (acyclic : o.Acyclic retried) (step : Step o depth s ps t)
    (nested : s.WellNested) (descends : s.Descends retried o n) : t.Descends retried o n := by
  induction step generalizing n with
  | header unopened _ =>
    have alone := nested.included_nil (by rw [unopened]; nofun)
    have anywhere := descends.stays.anywhere unopened
    exact Stays.descends ⟨fun _ => anywhere _, fun _ => anywhere⟩ alone
  | @entry _ s e reader opened reads found done =>
    have allows := descends.stays.allows (running_of_reads reads)
    have stays : Stays retried o n
        (s.afterEntry reader ((s.processing e).after o) opened).toOpenFile := by
      refine ⟨fun running => allows.later found fun footer => ?_, fun unopened => ?_⟩
      · exact running ((Desk.process_done o rfl).mpr footer)
      · exact absurd unopened (Processed.opened_after o _ rfl done)
    cases opened with
    | none => exact stays
    | some i =>
      have processed : Desk.process o e (s.processing e).desk =
        (.ok (some i), (s.processing e).after o) := Prod.ext done rfl
      exact ⟨stays, .inr (stays_opened acyclic allows found processed)⟩
  | included open_ running _ ih =>
    obtain ⟨m, less, further⟩ := descends.inner open_ running
    exact descends.outer less (ih (nested.of_included open_).2.2 further)
  | footer | close => exact ⟨descends.stays, .inl rfl⟩
  | @handOn _ s i deeper count open_ =>
    unfold Descends at descends
    rw [open_] at descends
    obtain ⟨⟨allows, anywhere⟩, below⟩ := descends
    refine ⟨⟨allows, anywhere⟩, below.imp_right fun ⟨m, less, further⟩ => ⟨m, less, ?_⟩⟩
    exact Descends.congr (s := s.inner i deeper) (t := s.inner (i.handOn count) deeper) further
      rfl rfl rfl
  | resume open_ =>
    have paused := (nested.of_included open_).1
    exact ⟨fun _ => descends.stays.allows (by rw [paused]; nofun), nofun⟩

theorem Path.descends (acyclic : o.Acyclic retried) (path : Path o depth s ps t)
    (nested : s.WellNested) (descends : s.Descends retried o n) : t.Descends retried o n := by
  induction path with
  | nil => exact descends
  | cons step _ ih => exact ih (step.wellNested nested) (step.descends acyclic nested descends)

/-- So does a step that fails, if what it leaves behind may be read on. -/
theorem Fails.descends (again : retried) {f : Failure} (fails : Fails o depth s ps f t)
    (nested : s.WellNested) (descends : s.Descends retried o n) : t.Descends retried o n := by
  induction fails generalizing n with
  | header unopened _ =>
    have alone := nested.included_nil (by rw [unopened]; nofun)
    have anywhere := descends.stays.anywhere unopened
    exact Stays.descends ⟨fun _ => anywhere _, fun _ => anywhere⟩ alone
  | next reads failed =>
    have alone := nested.alone_of_reads reads
    have allows := (descends.stays.allows (running_of_reads reads)).again again failed
    exact Stays.descends ⟨fun _ => allows, descends.stays.anywhere⟩ alone
  | @entry _ s e reader f reads found failed =>
    have allows := descends.stays.allows (running_of_reads reads)
    have reading := Processed.failed_after o (s.processing e) rfl failed
    refine ⟨fun running => allows.later found fun footer => ?_, fun unopened => ?_⟩
    · exact running ((Desk.process_done o rfl).mpr footer)
    · exact absurd (reading.symm.trans unopened) nofun
  | tooDeep => exact descends
  | included open_ running _ _ ih =>
    obtain ⟨m, less, further⟩ := descends.inner open_ running
    exact descends.outer less (ih (nested.of_included open_).2.2 further)

theorem descends_start (acyclic : o.Acyclic retried) (alone : s.included = []) :
    s.Descends retried o (LogStream.depth o) :=
  Stays.descends ⟨fun _ => allows_depth acyclic _, fun _ => allows_depth acyclic⟩ alone

end Session

end ChangeCapture
