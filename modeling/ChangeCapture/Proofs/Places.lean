import ChangeCapture.Proofs.Flow
import ChangeCapture.Proofs.InPlace
import ChangeCapture.Proofs.Trails

/-! The order of the places at which the entries of a run are reported. Entries of the file itself
are reported one after the other; those of an included file are all reported at the entry that
includes it, however deep it includes others. -/
namespace ChangeCapture

namespace ChunkReader

/-- An entry lies where its reading begins, and before whatever is read next. -/
theorem offset_next {r r' : ChunkReader} {e : Entry} (read : next r = (.ok e, r')) :
    e.offset = r.offset ∧ r.offset < r'.offset := by
  rw [next_eq] at read
  rcases first : chunk? r with ⟨f | _ | length, m⟩ <;> rw [first] at read
  · cases read
  · cases read
  · obtain ⟨tags, _, body, took⟩ := took_of_entryBody read
    have length := (took_of_chunk? first).offset
    rw [length_bytesOfChunk] at length
    have size : chunkSize = 4 := rfl
    exact ⟨by rw [body], by have := took.offset; omega⟩

end ChunkReader

theorem StreamOffset.lt_of_byteOffset {fileId a b : Nat} (less : a < b) :
    (⟨fileId, a⟩ : StreamOffset) < ⟨fileId, b⟩ := .inr ⟨rfl, less⟩

theorem StreamOffset.lt_of_le_byteOffset {fileId b c : Nat} {a : StreamOffset}
    (less : a < ⟨fileId, b⟩) (le : b ≤ c) : a < ⟨fileId, c⟩ :=
  less.imp_right fun ⟨same, before⟩ => ⟨same, Nat.lt_of_lt_of_le before le⟩

theorem StreamOffset.lt_trans {a b c : StreamOffset} (first : a < b) (second : b < c) : a < c :=
  (weakOrder_streamOffset.split c first).resolve_right (weakOrder_streamOffset.asymm second)

namespace Desk

open ChangeCapture.Action

variable (o : StreamOptions)

/-- The file, and where its records are reported. -/
def site (d : Desk) : LogFile × Option StreamOffset := (d.state.file, d.state.reportAt)

theorem fixed_site : Fixed o site where
  say _ _ := rfl
  catalog _ _ := rfl
  features _ _ := rfl
  included _ _ := rfl
  emit d r := by
    have same := congrArg site (core_emit o.gates d r)
    exact same
  cache _ _ := rfl
  summaries _ _ := rfl

theorem keeps_site_perform (e : Entry) (id : RecordId) (offset : StreamOffset) :
    Keeps site (perform o e id offset) := by
  have fixed := fixed_site o
  have nothing {x : Action Desk Unit} (keeps : Keeps site x) :
      Keeps site (x >>= fun _ => pure none : Action Desk (Option Included)) :=
    keeps.bind fun _ => .pure _
  unfold perform
  split
  · exact nothing (.modify fun d => fixed.warn d _)
  · exact nothing (fixed.header e)
  · exact nothing (.modify fun _ => rfl)
  · exact nothing (fixed.quiet.metadata e offset)
  · exact .read fun d => nothing (fixed.observe e _)
  · refine Keeps.bind (fun d => ?_) fun _ => .pure _
    rw [includeFile_apply]
    split <;> rfl
  · exact nothing (fixed.includeStats e)
  · exact nothing (fixed.change e id offset)

theorem site_process (e : Entry) (d : Desk) : (process o e d).2.site = d.site := by
  rw [process_apply, keeps_site_perform]
  exact cleared_keeps o (fixed_site o).emit (fun _ _ => rfl) (fun _ _ => rfl) e d

theorem site_flushTransactions (d : Desk) : (d.flushTransactions o.gates).site = d.site := by
  have fixed := fixed_site o
  have released : (d.release o.gates).site = d.site :=
    (release_keeps o.gates fixed.emit d).trans (fixed.cache d _)
  exact (fixed.withTransactions _ _ _).trans released

theorem includes_of_process {o : StreamOptions} {e : Entry} {d m : Desk} {i : Included}
    (done : process o e d = (.ok (some i), m)) : e.kind = .includeFile := by
  by_contra include_
  rw [process_apply] at done
  by_cases footer : e.kind = .footer
  · rw [perform_footer o footer] at done
    cases done
  · cases perform_opens_nothing o footer include_ (congrArg Prod.fst done)

end Desk

theorem Processed.place_of_inside {p : Processed} {place : StreamOffset}
    (inside : p.desk.state.reportAt = some place) : p.place = place := by
  rw [Processed.place, Desk.reported, inside, Option.getD_some]

/-- The places of the entries that include files. -/
def includePlaces (ps : List Processed) : List StreamOffset :=
  (ps.filter (fun p => p.entry.kind = .includeFile)).map Processed.place

@[simp] theorem includePlaces_append (ps qs : List Processed) :
    includePlaces (ps ++ qs) = includePlaces ps ++ includePlaces qs := by
  simp [includePlaces]

/-- Two places one after the other, or the place of one included file. -/
def Onward (included : List StreamOffset) (a b : StreamOffset) : Prop :=
  a < b ∨ a = b ∧ b ∈ included

theorem Onward.mono {included more : List StreamOffset} {a b : StreamOffset}
    (onward : Onward included a b) (subset : included ⊆ more) : Onward more a b :=
  onward.imp_right fun ⟨same, member⟩ => ⟨same, subset member⟩

namespace Session

variable {o : StreamOptions} {depth : Nat} {s t : Session} {ps qs : List Processed}
variable {place : StreamOffset}

/-- All that is read is reported at one place. -/
def Pinned (place : StreamOffset) (s : Session) : Prop :=
  s.state.reportAt = some place ∧ ∀ i ∈ s.included, i.state.reportAt = some place

theorem pinned_head {i k : Included} {deeper : List Included}
    (same : k.state.reportAt = i.state.reportAt)
    (pinned : ∀ x ∈ i :: deeper, x.state.reportAt = some place) :
    ∀ x ∈ k :: deeper, x.state.reportAt = some place := by
  simpa [same] using pinned

theorem pinned_entry {e : Entry} (reader : ChunkReader) {opened : Option Included}
    (pinned : s.Pinned place)
    (opens : ∀ i ∈ opened, i.state.reportAt = some (s.processing e).place) :
    (∀ p ∈ [s.processing e], p.desk.state.reportAt = some place) ∧
      (s.afterEntry reader ((s.processing e).after o) opened).Pinned place := by
  have inside : (s.processing e).desk.state.reportAt = some place := pinned.1
  have site := congrArg Prod.snd (Desk.site_process o e (s.processing e).desk)
  refine ⟨fun p member => List.mem_singleton.mp member ▸ inside, site.trans pinned.1, ?_⟩
  intro i member
  rw [opens i (by simpa [afterEntry] using member), Processed.place_of_inside inside]

theorem pinned_included {i : Included} {deeper : List Included} (open_ : s.included = i :: deeper)
    (pinned : s.Pinned place) : (s.inner i deeper).Pinned place := by
  rw [Pinned, open_] at pinned
  exact List.forall_mem_cons.mp pinned.2

theorem pinned_outer {i : Included} (outside : s.state.reportAt = some place)
    (pinned : t.Pinned place) : (s.outer i t).Pinned place :=
  ⟨outside, List.forall_mem_cons.mpr pinned⟩

/-- Where everything is reported at one place, so are the entries of files that are included. -/
theorem Step.pinned (step : Step o depth s ps t) (pinned : s.Pinned place) :
    (∀ p ∈ ps, p.desk.state.reportAt = some place) ∧ t.Pinned place := by
  induction step with
  | header => exact ⟨List.forall_mem_nil _, pinned⟩
  | entry _ _ done =>
    refine pinned_entry _ pinned fun i opened => ?_
    cases opened
    exact (Desk.opens_of_process (Prod.ext done rfl)).reportAt
  | included open_ _ _ ih =>
    obtain ⟨inside, deeper⟩ := ih (pinned_included open_ pinned)
    exact ⟨inside, pinned_outer pinned.1 deeper⟩
  | footer open_ | close open_ | handOn _ open_ =>
    rw [Pinned, open_] at pinned
    exact ⟨List.forall_mem_nil _, pinned.1, pinned_head (by rfl) pinned.2⟩
  | resume => exact ⟨List.forall_mem_nil _, pinned.1, List.forall_mem_nil _⟩

theorem Fails.pinned {f : Failure} (fails : Fails o depth s ps f t) (pinned : s.Pinned place) :
    (∀ p ∈ ps, p.desk.state.reportAt = some place) ∧ t.Pinned place := by
  induction fails with
  | header | next | tooDeep => exact ⟨List.forall_mem_nil _, pinned⟩
  | entry => exact pinned_entry _ pinned nofun
  | included open_ _ _ _ ih =>
    obtain ⟨inside, deeper⟩ := ih (pinned_included open_ pinned)
    exact ⟨inside, pinned_outer pinned.1 deeper⟩

/-- A file that is read on its own, after some entries. -/
structure Placed (ps : List Processed) (s : Session) : Prop where
  ordered : (ps.map Processed.place).Pairwise (Onward (includePlaces ps))
  outside : s.state.reportAt = none
  unopened : s.state.phase = .unopened → ps = []
  behind : ∀ p ∈ ps, p.place < ⟨s.state.file.uid, s.reader.offset⟩
  inside : s.included ≠ [] → ∃ place ∈ includePlaces ps,
    (∀ i ∈ s.included, i.state.reportAt = some place) ∧ ∀ p ∈ ps, p.place < place ∨ p.place = place

theorem ordered_append (ordered : (ps.map Processed.place).Pairwise (Onward (includePlaces ps)))
    (next : (qs.map Processed.place).Pairwise (Onward (includePlaces (ps ++ qs))))
    (after : ∀ p ∈ ps, ∀ q ∈ qs, Onward (includePlaces (ps ++ qs)) p.place q.place) :
    ((ps ++ qs).map Processed.place).Pairwise (Onward (includePlaces (ps ++ qs))) := by
  rw [List.map_append, List.pairwise_append]
  refine ⟨ordered.imp fun onward => onward.mono (by simp), next, ?_⟩
  simpa using after

theorem Placed.place_processing {e : Entry} {reader : ChunkReader} (placed : Placed ps s)
    (found : ChunkReader.next s.reader = (.ok e, reader)) :
    (s.processing e).place = ⟨s.state.file.uid, s.reader.offset⟩ := by
  show (s.state.reportAt.getD ⟨s.state.file.uid, e.offset⟩) = _
  rw [placed.outside, (ChunkReader.offset_next found).1, Option.getD_none]

theorem Placed.entry {e : Entry} {reader : ChunkReader} {opened : Option Included}
    (placed : Placed ps s) (found : ChunkReader.next s.reader = (.ok e, reader))
    (running : ((s.processing e).after o).state.phase ≠ .unopened)
    (opens : ∀ i ∈ opened, e.kind = .includeFile ∧
      i.state.reportAt = some (s.processing e).place) :
    Placed (ps ++ [s.processing e]) (s.afterEntry reader ((s.processing e).after o) opened) := by
  have here := placed.place_processing found
  obtain ⟨ordered, outside, -, behind, -⟩ := placed
  have further := (ChunkReader.offset_next found).2
  have site := Desk.site_process o e (s.processing e).desk
  have file : ((s.processing e).after o).state.file = s.state.file := congrArg Prod.fst site
  have next : (⟨s.state.file.uid, s.reader.offset⟩ : StreamOffset) <
    ⟨s.state.file.uid, reader.offset⟩ := StreamOffset.lt_of_byteOffset further
  constructor
  case ordered =>
    refine ordered_append ordered (List.pairwise_singleton _ _) fun p member q last => .inl ?_
    rw [List.mem_singleton.mp last, here]
    exact behind p member
  case outside => exact (congrArg Prod.snd site).trans outside
  case unopened => exact fun unopened => absurd unopened running
  case behind =>
    intro p member
    show p.place < ⟨((s.processing e).after o).state.file.uid, reader.offset⟩
    rw [file]
    rcases List.mem_append.mp member with earlier | last
    · exact StreamOffset.lt_trans (behind p earlier) next
    · rw [List.mem_singleton.mp last, here]
      exact next
  case inside =>
    intro some_
    cases opened with
    | none => exact absurd rfl some_
    | some i =>
      obtain ⟨includes, reported⟩ := opens i rfl
      have includes : (s.processing e).entry.kind = .includeFile := includes
      refine ⟨(s.processing e).place, by simp [includePlaces, includes], fun k member => ?_, ?_⟩
      · rw [List.mem_singleton.mp member, reported]
      · intro p member
        rcases List.mem_append.mp member with earlier | last
        · exact .inl (here ▸ behind p earlier)
        · exact .inr (by rw [List.mem_singleton.mp last])

theorem Placed.included {i : Included} {deeper : List Included} (placed : Placed ps s)
    (open_ : s.included = i :: deeper) (opened : s.state.phase ≠ .unopened)
    (stay : ∀ {place}, (s.inner i deeper).Pinned place →
      (∀ p ∈ qs, p.desk.state.reportAt = some place) ∧ t.Pinned place) :
    Placed (ps ++ qs) (s.outer i t) := by
  obtain ⟨ordered, outside, -, behind, inside⟩ := placed
  obtain ⟨place, member, pinned, last⟩ := inside (by simp [open_])
  rw [open_] at pinned
  obtain ⟨among, first, rest⟩ := stay (List.forall_mem_cons.mp pinned)
  have here : ∀ p ∈ qs, p.place = place := fun p later => Processed.place_of_inside (among p later)
  have stays : place ∈ includePlaces (ps ++ qs) := by simp [member]
  constructor
  case ordered =>
    refine ordered_append ordered (List.pairwise_map.mpr ?_) fun p earlier q later => ?_
    · refine List.pairwise_of_forall_mem_list fun p first q second => .inr ⟨?_, ?_⟩
      · rw [here p first, here q second]
      · rwa [here q second]
    · rw [here q later]
      exact (last p earlier).imp_right fun same => ⟨same, stays⟩
  case outside => exact outside
  case unopened => exact fun unopened => absurd unopened opened
  case behind =>
    intro p member'
    rcases List.mem_append.mp member' with earlier | later
    · exact behind p earlier
    · obtain ⟨r, among, same⟩ := List.mem_map.mp member
      rw [here p later, ← same]
      exact behind r (List.mem_of_mem_filter among)
  case inside =>
    refine fun _ => ⟨place, stays, ?_, fun p member' => ?_⟩
    · exact List.forall_mem_cons.mpr ⟨first, rest⟩
    · exact (List.mem_append.mp member').elim (last p) fun later => .inr (here p later)

theorem Placed.step (placed : Placed ps s) (step : Step o depth s qs t) (nested : s.WellNested) :
    Placed (ps ++ qs) t := by
  cases step with
  | header unopened =>
    rw [List.append_nil]
    cases placed.unopened unopened
    exact ⟨.nil, placed.outside, fun _ => rfl, List.forall_mem_nil _, placed.inside⟩
  | entry _ found done =>
    refine placed.entry found (Processed.opened_after o _ rfl done) fun i opened => ?_
    cases opened
    exact ⟨Desk.includes_of_process (Prod.ext done rfl),
      (Desk.opens_of_process (Prod.ext done rfl)).reportAt⟩
  | included open_ _ step =>
    exact placed.included open_ (Phase.paused_opened (nested.of_included open_).1) step.pinned
  | footer open_ | close open_ | handOn _ open_ =>
    rw [List.append_nil]
    obtain ⟨ordered, outside, unopened, behind, inside⟩ := placed
    refine ⟨ordered, outside, unopened, behind, fun _ => ?_⟩
    rw [open_] at inside
    obtain ⟨place, member, pinned, last⟩ := inside (List.cons_ne_nil _ _)
    exact ⟨place, member, pinned_head (by rfl) pinned, last⟩
  | resume =>
    rw [List.append_nil]
    exact ⟨placed.ordered, placed.outside, nofun, placed.behind, fun some_ => absurd rfl some_⟩

theorem Placed.fails {f : Failure} (placed : Placed ps s) (fails : Fails o depth s qs f t)
    (nested : s.WellNested) : Placed (ps ++ qs) t := by
  cases fails with
  | header unopened =>
    rw [List.append_nil]
    cases placed.unopened unopened
    exact ⟨.nil, placed.outside, fun _ => rfl, List.forall_mem_nil _, placed.inside⟩
  | next _ failed =>
    rw [List.append_nil]
    have further := ChunkReader.offset_le_next s.reader
    rw [failed] at further
    exact { placed with
      behind := fun p member => StreamOffset.lt_of_le_byteOffset (placed.behind p member) further }
  | entry _ found failed =>
    refine placed.entry found ?_ nofun
    rw [Processed.failed_after o _ rfl failed]
    exact Phase.noConfusion
  | tooDeep =>
    rw [List.append_nil]
    exact placed
  | included open_ _ _ fails =>
    exact placed.included open_ (Phase.paused_opened (nested.of_included open_).1) fails.pinned

theorem Path.placed (path : Path o depth s qs t) (placed : Placed ps s) (nested : s.WellNested) :
    Placed (ps ++ qs) t := by
  induction path generalizing ps with
  | nil =>
    rw [List.append_nil]
    exact placed
  | cons step _ ih =>
    rw [← List.append_assoc]
    exact ih (placed.step step nested) (step.wellNested nested)

end Session

namespace LogStream

variable {file : LogFile} {source : Source} {o : StreamOptions} {cache : Cache}
variable {s t : LogStream} {j k : Journal} {flushing : Prop} {ps : List Processed}
variable {taken : List DomainRecord}

theorem Starts.outside (starts : Starts file source o cache s) : s.state.reportAt = none := by
  cases starts with
  | new => rfl
  | opened opened =>
    unfold LogStream.opened at opened
    dsimp only at opened
    split at opened <;> cases opened
    rfl

theorem Starts.placed (starts : Starts file source o cache s) (j : Journal) :
    Session.Placed [] (s.session j) := by
  obtain ⟨-, alone, -⟩ := starts.fresh
  exact ⟨.nil, starts.outside, fun _ => rfl, List.forall_mem_nil _, fun some_ => absurd alone some_⟩

theorem placed_flushTransactions (placed : Session.Placed ps (t.session k)) :
    Session.Placed ps ((t.flushTransactions k).1.session (t.flushTransactions k).2) := by
  have site := Desk.site_flushTransactions t.options ⟨t.state, k⟩
  have phase := phase_flushTransactions t k
  obtain ⟨ordered, outside, unopened, behind, inside⟩ := placed
  refine ⟨ordered, (congrArg Prod.snd site).trans outside, fun same => unopened ?_, ?_, inside⟩
  · exact phase.symm.trans same
  · have file : (t.flushTransactions k).1.state.file = t.state.file := congrArg Prod.fst site
    intro p member
    show p.place < ⟨(t.flushTransactions k).1.state.file.uid, t.reader.offset⟩
    rw [file]
    exact behind p member

/-- The entries of any run of a stream that starts with a file of its own. -/
theorem Course.placed (course : Course flushing s j ps taken t k)
    (placed : Session.Placed [] (s.session j)) (nested : (s.session j).WellNested) :
    Session.Placed ps (t.session k) := by
  induction course with
  | start => exact placed
  | step course step ih => exact ih.step step (course.wellNested nested)
  | fail course fails ih => exact ih.fails fails (course.wellNested nested)
  | append _ _ ih | flush _ ih => exact ⟨ih.ordered, ih.outside, ih.unopened, ih.behind, ih.inside⟩
  | flushTransactions _ _ ih => exact placed_flushTransactions ih

end LogStream

end ChangeCapture
