import ChangeCapture.Transaction
import Mathlib.Algebra.GroupWithZero.Nat
import Mathlib.Data.List.Induction

/-! A summary adds up a run of entries of one transaction. `summary` folds the entries in, as they
come; `Summarises` says of each field what it is of the whole run. -/
namespace ChangeCapture

/-- Two that a third lies not between are not apart. -/
structure WeakOrder (lt : α → α → Prop) : Prop where
  asymm : ∀ {a b}, lt a b → ¬ lt b a
  split : ∀ {a c} (b), lt a c → lt a b ∨ lt b c

theorem WeakOrder.irrefl {lt : α → α → Prop} (order : WeakOrder lt) (a : α) : ¬ lt a a :=
  fun h => order.asymm h h

theorem WeakOrder.flip {lt : α → α → Prop} (order : WeakOrder lt) :
    WeakOrder (fun a b => lt b a) where
  asymm h := order.asymm h
  split b h := (order.split b h).symm

theorem weakOrder_nat : WeakOrder (fun a b : Nat => a < b) :=
  ⟨by intro a b h; omega, by intro a c b h; omega⟩

theorem weakOrder_recordId : WeakOrder (fun a b : RecordId => a < b) := by
  constructor
  · intro a b (h : RecordId.Before a b) (h' : RecordId.Before b a)
    simp only [RecordId.Before] at h h'
    omega
  · intro a c b (h : RecordId.Before a c)
    show RecordId.Before a b ∨ RecordId.Before b c
    simp only [RecordId.Before] at h ⊢
    omega

theorem weakOrder_streamOffset : WeakOrder (fun a b : StreamOffset => a < b) := by
  constructor
  · intro a b (h : StreamOffset.Before a b) (h' : StreamOffset.Before b a)
    simp only [StreamOffset.Before] at h h'
    omega
  · intro a c b (h : StreamOffset.Before a c)
    show StreamOffset.Before a b ∨ StreamOffset.Before b c
    simp only [StreamOffset.Before] at h ⊢
    omega

theorem weakOrder_timestamp : WeakOrder (fun t u : Timestamp => t.before u = true) := by
  constructor
  · intro t u h h'
    simp only [Timestamp.before, decide_eq_true_eq] at h h'
    have turned : compare u.key t.key = .gt := Std.OrientedCmp.gt_of_lt h
    rw [turned] at h'
    cases h'
  · intro t v u h
    simp only [Timestamp.before, decide_eq_true_eq] at h ⊢
    cases between : compare t.key u.key with
    | lt => exact .inl rfl
    | eq => exact .inr (by rwa [← Std.TransCmp.congr_left between])
    | gt =>
      refine .inr (Std.TransCmp.lt_trans ?_ h)
      rwa [Std.OrientedCmp.gt_iff_lt] at between

/-- The least of some values, if there are any. -/
def Lowest (lt : α → α → Prop) (values : List α) : Option α → Prop
  | none => values = []
  | some a => a ∈ values ∧ ∀ v ∈ values, ¬ lt v a

/-- The greatest of some values, if there are any. -/
def Highest (lt : α → α → Prop) : List α → Option α → Prop := Lowest (fun a b => lt b a)

theorem Lowest.extend {lt : α → α → Prop} {values : List α} {low : Option α} {v r : α}
    (order : WeakOrder lt) (lowest : Lowest lt values low) (source : r = v ∨ low = some r)
    (new : ¬ lt v r) (old : ∀ a, low = some a → ¬ lt a r) :
    Lowest lt (values ++ [v]) (some r) := by
  cases low with
  | none =>
    cases lowest
    rcases source with rfl | h
    · exact ⟨by simp, by simpa using new⟩
    · cases h
  | some a =>
    refine ⟨?_, ?_⟩
    · rcases source with rfl | h
      · simp
      · cases h
        simp [lowest.1]
    · intro w member
      rcases List.mem_append.mp member with member | last
      · intro below
        rcases order.split a below with h | h
        · exact lowest.2 w member h
        · exact old a rfl h
      · rw [List.mem_singleton.mp last]
        exact new

/-- The least of some values, `unset` where there are none. -/
def Least (lt : α → α → Prop) (unset : α) (values : List α) (a : α) : Prop :=
  ∃ low, Lowest lt values low ∧ a = low.getD unset

/-- The greatest of some values, `unset` where there are none. -/
def Greatest (lt : α → α → Prop) (unset : α) (values : List α) (a : α) : Prop :=
  ∃ high, Highest lt values high ∧ a = high.getD unset

theorem Least.lowered [DecidableEq α] [LT α] [DecidableLT α] {unset a v : α} {values : List α}
    (order : WeakOrder (fun a b : α => a < b)) (least : Least (fun a b : α => a < b) unset values a)
    (set : unset ∉ values) :
    Least (fun a b : α => a < b) unset (values ++ [v]) (lowered unset a v) := by
  obtain ⟨low, lowest, rfl⟩ := least
  refine ⟨some (ChangeCapture.lowered unset (low.getD unset) v), ?_, rfl⟩
  cases low with
  | none =>
    exact lowest.extend order (.inl (by simp [ChangeCapture.lowered]))
      (by simp [ChangeCapture.lowered, order.irrefl]) nofun
  | some a =>
    have known : a ≠ unset := fun h => set (h ▸ lowest.1)
    by_cases below : v < a
    · refine lowest.extend order (.inl (by simp [ChangeCapture.lowered, below])) ?_ ?_
      · simpa [ChangeCapture.lowered, below] using order.irrefl v
      · rintro _ ⟨⟩
        simpa [ChangeCapture.lowered, below] using order.asymm below
    · refine lowest.extend order (.inr (by simp [ChangeCapture.lowered, below, known])) ?_ ?_
      · simp [ChangeCapture.lowered, below, known]
      · rintro _ ⟨⟩
        simpa [ChangeCapture.lowered, below, known] using order.irrefl a

/-- Nothing lies below `unset`, so that it need not be told apart from the values. -/
theorem Greatest.raised [LT α] [DecidableLT α] {unset a v : α} {values : List α}
    (order : WeakOrder (fun a b : α => a < b)) (bottom : v = unset ∨ unset < v)
    (greatest : Greatest (fun a b : α => a < b) unset values a) :
    Greatest (fun a b : α => a < b) unset (values ++ [v]) (raised a v) := by
  obtain ⟨high, highest, rfl⟩ := greatest
  refine ⟨some (ChangeCapture.raised (high.getD unset) v), ?_, rfl⟩
  cases high with
  | none =>
    have same : ChangeCapture.raised unset v = v := by
      rcases bottom with rfl | above
      · simp [ChangeCapture.raised]
      · simp [ChangeCapture.raised, above]
    exact Lowest.extend order.flip highest (.inl (by simpa using same))
      (by simp [same, order.irrefl]) nofun
  | some a =>
    by_cases above : a < v
    · refine Lowest.extend order.flip highest (.inl (by simp [ChangeCapture.raised, above])) ?_ ?_
      · simpa [ChangeCapture.raised, above] using order.irrefl v
      · rintro _ ⟨⟩
        simpa [ChangeCapture.raised, above] using order.asymm above
    · refine Lowest.extend order.flip highest (.inr (by simp [ChangeCapture.raised, above])) ?_ ?_
      · simp [ChangeCapture.raised, above]
      · rintro _ ⟨⟩
        simpa [ChangeCapture.raised, above] using order.irrefl a

theorem Lowest.earlier {values : List Timestamp} {start : Option Timestamp} (t : Timestamp)
    (lowest : Lowest (fun t u : Timestamp => t.before u = true) values start) :
    Lowest (fun t u : Timestamp => t.before u = true) (values ++ [t])
      (some (start.elim t t.earlier)) := by
  cases start with
  | none => exact lowest.extend weakOrder_timestamp (.inl rfl) (weakOrder_timestamp.irrefl t) nofun
  | some u =>
    have irrefl := weakOrder_timestamp.irrefl
    simp only [Option.elim_some, Timestamp.earlier]
    split
    next before =>
      refine lowest.extend weakOrder_timestamp (.inr rfl) (weakOrder_timestamp.asymm before) ?_
      rintro _ ⟨⟩
      exact irrefl u
    next before =>
      refine lowest.extend weakOrder_timestamp (.inl rfl) (irrefl t) ?_
      rintro _ ⟨⟩
      exact before

theorem Highest.later {values : List Timestamp} {stop : Option Timestamp} (t : Timestamp)
    (highest : Highest (fun t u : Timestamp => t.before u = true) values stop) :
    Highest (fun t u : Timestamp => t.before u = true) (values ++ [t])
      (some (stop.elim t t.later)) := by
  have order := weakOrder_timestamp.flip
  cases stop with
  | none => exact Lowest.extend order highest (.inl rfl) (order.irrefl t) nofun
  | some u =>
    simp only [Option.elim_some, Timestamp.later]
    split
    next before =>
      refine Lowest.extend order highest (.inr rfl) (order.asymm before) ?_
      rintro _ ⟨⟩
      exact order.irrefl u
    next before =>
      refine Lowest.extend order highest (.inl rfl) (order.irrefl t) ?_
      rintro _ ⟨⟩
      exact before

/-- An entry of a transaction, as it is folded into the summary of that. -/
structure Sighting where
  xid : String
  entry : Entry
  observation : Observation
  /-- The system change number, if the entry has one. -/
  scn : Option Nat
  /-- The time of the entry, if it has one that can be represented. -/
  time : Option Timestamp

namespace Sighting

/-- What an entry says of its transaction, if it belongs to one. -/
def read (e : Entry) (o : Observation) : Except Failure (Option Sighting) := do
  match ← e.text? .xid with
  | none => return none
  | some xid =>
    let scn ← e.wide? .scn
    let time := (← e.wide? .timestamp).bind Timestamp.ofUnix?
    return some ⟨xid, e, o, scn, time⟩

def foldInto (s : TransactionSummary) (x : Sighting) : TransactionSummary :=
  s.add x.entry x.observation x.scn x.time

/-- Entries one after another are folded into the summary of the first one's transaction. -/
def summary (run : List Sighting) : TransactionSummary :=
  run.foldl foldInto (.new ((run.head?.map xid).getD ""))

def isData (x : Sighting) : Bool := x.entry.kind.isDataBearing

def files (run : List Sighting) : List Nat := run.map (fun x => x.observation.fileId)
def records (run : List Sighting) : List RecordId := run.map (fun x => x.observation.recordId)
def offsets (run : List Sighting) : List StreamOffset := run.map (fun x => x.observation.offset)
def times (run : List Sighting) : List Timestamp := run.filterMap time

/-- The change numbers that mean something. -/
def scns (run : List Sighting) : List Nat := run.filterMap (fun x => x.scn.filter (· ≠ 0))

/-- Data-bearing entries of a table. -/
def countOf (schema : String) (run : List Sighting) : Nat :=
  run.countP (fun x => x.isData && x.observation.schema = some schema)

/-- A count that is kept once there is something to count. -/
def counted (n : Nat) : Option Nat := if n = 0 then none else some n

end Sighting

open Sighting in
/-- The summary of a run, field by field. Of the places of its entries, the least is known unless
one of them looks like a place that is not set yet. -/
structure Summarises (run : List Sighting) (s : TransactionSummary) : Prop where
  id : ∀ x ∈ run, x.xid = s.id
  startFile : 0 ∉ files run → Least (· < ·) 0 (files run) s.startFileId
  endFile : Greatest (· < ·) 0 (files run) s.endFileId
  startRecord : .zero ∉ records run → Least (· < ·) .zero (records run) s.startRecordId
  endRecord : Greatest (· < ·) .zero (records run) s.endRecordId
  startScn : Least (· < ·) 0 (scns run) s.startScn
  endScn : Greatest (· < ·) 0 (scns run) s.endScn
  startTime : Lowest (fun t u : Timestamp => t.before u = true) (times run) s.startTime
  endTime : Highest (fun t u : Timestamp => t.before u = true) (times run) s.endTime
  recordCount : s.recordCount = run.countP isData
  schemaCounts : ∀ schema, s.schemaCounts.get? schema = counted (countOf schema run)
  size : s.size = (run.map (fun x => chunkSize * x.entry.length)).sum
  lastOffset : Greatest (· < ·) .zero (offsets run) s.lastOffset

namespace Sighting

/-- The effect of one entry, by field. -/
theorem foldInto_eq (s : TransactionSummary) (x : Sighting) :
    foldInto s x = {
      id := s.id
      startFileId := lowered 0 s.startFileId x.observation.fileId
      endFileId := raised s.endFileId x.observation.fileId
      startScn := (x.scn.filter (· ≠ 0)).elim s.startScn (lowered 0 s.startScn)
      endScn := (x.scn.filter (· ≠ 0)).elim s.endScn (raised s.endScn)
      startTime := x.time.elim s.startTime (fun t => some (s.startTime.elim t t.earlier))
      endTime := x.time.elim s.endTime (fun t => some (s.endTime.elim t t.later))
      startRecordId := lowered .zero s.startRecordId x.observation.recordId
      endRecordId := raised s.endRecordId x.observation.recordId
      recordCount := if x.isData then s.recordCount + 1 else s.recordCount
      schemaCounts := if x.isData then
          x.observation.schema.elim s.schemaCounts
            (fun schema => s.schemaCounts.insert schema ((s.schemaCounts.get? schema).getD 0 + 1))
        else s.schemaCounts
      size := s.size + x.entry.sizeInBytes
      lastOffset := raised s.lastOffset x.observation.offset } := by
  obtain ⟨xid, e, o, scn, time⟩ := x
  have scns : ∀ (scn : Option Nat) (s' : TransactionSummary), scn.elim s' s'.addScn = { s' with
      startScn := (scn.filter (· ≠ 0)).elim s'.startScn (lowered 0 s'.startScn)
      endScn := (scn.filter (· ≠ 0)).elim s'.endScn (raised s'.endScn) } := by
    rintro (_ | n) s'
    · rfl
    · by_cases zero : n = 0 <;> simp [TransactionSummary.addScn, zero, Option.filter]
  have times : ∀ (time : Option Timestamp) (s' : TransactionSummary), time.elim s' s'.addTime =
      { s' with
        startTime := time.elim s'.startTime (fun t => some (s'.startTime.elim t t.earlier))
        endTime := time.elim s'.endTime (fun t => some (s'.endTime.elim t t.later)) } := by
    rintro (_ | t) s' <;> rfl
  simp only [foldInto, TransactionSummary.add, scns, times, isData]
  by_cases data : e.kind.isDataBearing <;> simp only [data] <;> cases o.schema <;> rfl

@[simp] theorem files_append (run : List Sighting) (x : Sighting) :
    files (run ++ [x]) = files run ++ [x.observation.fileId] := by simp [files]

@[simp] theorem records_append (run : List Sighting) (x : Sighting) :
    records (run ++ [x]) = records run ++ [x.observation.recordId] := by simp [records]

@[simp] theorem offsets_append (run : List Sighting) (x : Sighting) :
    offsets (run ++ [x]) = offsets run ++ [x.observation.offset] := by simp [offsets]

theorem scns_append (run : List Sighting) (x : Sighting) :
    scns (run ++ [x]) = scns run ++ (x.scn.filter (· ≠ 0)).toList := by
  simp only [scns, List.filterMap_append, List.filterMap_cons, List.filterMap_nil]
  cases x.scn.filter (· ≠ 0) <;> rfl

theorem times_append (run : List Sighting) (x : Sighting) :
    times (run ++ [x]) = times run ++ x.time.toList := by
  simp only [times, List.filterMap_append, List.filterMap_cons, List.filterMap_nil]
  cases x.time <;> rfl

theorem zero_notMem_scns (run : List Sighting) : 0 ∉ scns run := by
  simp [scns]

theorem schemaCounts_foldInto {run : List Sighting} {counts : Registry String Nat} (x : Sighting)
    (sofar : ∀ schema, counts.get? schema = counted (countOf schema run)) (schema : String) :
    (if x.isData then x.observation.schema.elim counts
        (fun schema => counts.insert schema ((counts.get? schema).getD 0 + 1))
      else counts).get? schema = counted (countOf schema (run ++ [x])) := by
  have count : countOf schema (run ++ [x]) = countOf schema run +
      if x.isData && x.observation.schema = some schema then 1 else 0 := by
    simp [countOf, List.countP_append, List.countP_cons]
  rw [count]
  cases data : x.isData with
  | false => simpa using sofar schema
  | true =>
    cases table : x.observation.schema with
    | none => simpa using sofar schema
    | some own =>
      by_cases here : schema = own
      · subst here
        have known : (counted (countOf schema run)).getD 0 = countOf schema run := by
          simp only [counted]
          split
          next none => simp [none]
          next => rfl
        rw [if_pos rfl, Option.elim_some, Registry.get?_insert_self, sofar, known]
        simp [counted]
      · simp [Registry.get?_insert, here, Ne.symm here, sofar]

end Sighting

theorem Summarises.new (id : String) : Summarises [] (.new id) where
  id := by simp
  startFile _ := ⟨none, rfl, rfl⟩
  endFile := ⟨none, rfl, rfl⟩
  startRecord _ := ⟨none, rfl, rfl⟩
  endRecord := ⟨none, rfl, rfl⟩
  startScn := ⟨none, rfl, rfl⟩
  endScn := ⟨none, rfl, rfl⟩
  startTime := rfl
  endTime := rfl
  recordCount := rfl
  schemaCounts _ := rfl
  size := rfl
  lastOffset := ⟨none, rfl, rfl⟩

theorem RecordId.zero_or_above (r : RecordId) : r = .zero ∨ .zero < r := by
  obtain ⟨file, entry⟩ := r
  show _ ∨ RecordId.Before _ _
  simp only [RecordId.zero, RecordId.Before, RecordId.mk.injEq]
  omega

theorem StreamOffset.zero_or_above (o : StreamOffset) : o = .zero ∨ .zero < o := by
  obtain ⟨file, byte⟩ := o
  show _ ∨ StreamOffset.Before _ _
  simp only [StreamOffset.zero, StreamOffset.Before, StreamOffset.mk.injEq]
  omega

open Sighting in
/-- A summary of a run takes in the next entry of its transaction. -/
theorem Summarises.foldInto {run : List Sighting} {s : TransactionSummary} {x : Sighting}
    (of : Summarises run s) (same : x.xid = s.id) : Summarises (run ++ [x]) (foldInto s x) := by
  rw [foldInto_eq]
  constructor
  case id =>
    intro y member
    rcases List.mem_append.mp member with member | last
    · exact of.id y member
    · rw [List.mem_singleton.mp last, same]
  case startFile =>
    intro set
    rw [files_append, List.mem_append, not_or] at set
    rw [files_append]
    exact (of.startFile set.1).lowered weakOrder_nat set.1
  case endFile =>
    rw [files_append]
    exact of.endFile.raised weakOrder_nat (Nat.eq_zero_or_pos _)
  case startRecord =>
    intro set
    rw [records_append, List.mem_append, not_or] at set
    rw [records_append]
    exact (of.startRecord set.1).lowered weakOrder_recordId set.1
  case endRecord =>
    rw [records_append]
    exact of.endRecord.raised weakOrder_recordId (RecordId.zero_or_above _)
  case startScn =>
    rw [scns_append]
    cases x.scn.filter (· ≠ 0) with
    | none => simpa using of.startScn
    | some scn => exact of.startScn.lowered weakOrder_nat (zero_notMem_scns run)
  case endScn =>
    rw [scns_append]
    cases x.scn.filter (· ≠ 0) with
    | none => simpa using of.endScn
    | some scn => exact of.endScn.raised weakOrder_nat (Nat.eq_zero_or_pos _)
  case startTime =>
    rw [times_append]
    cases x.time with
    | none => simpa using of.startTime
    | some t => exact of.startTime.earlier t
  case endTime =>
    rw [times_append]
    cases x.time with
    | none => simpa using of.endTime
    | some t => exact of.endTime.later t
  case recordCount =>
    rw [List.countP_append, ← of.recordCount]
    cases data : x.isData <;> simp [data]
  case schemaCounts => exact schemaCounts_foldInto x of.schemaCounts
  case size => simp [of.size, Entry.sizeInBytes, Nat.mul_comm]
  case lastOffset =>
    rw [offsets_append]
    exact of.lastOffset.raised weakOrder_streamOffset (StreamOffset.zero_or_above _)

namespace Sighting

theorem summary_append {run : List Sighting} (x : Sighting) (started : run ≠ []) :
    summary (run ++ [x]) = foldInto (summary run) x := by
  cases run with
  | nil => exact absurd rfl started
  | cons y run => simp [summary]

theorem id_foldInto (s : TransactionSummary) (x : Sighting) : (foldInto s x).id = s.id := by
  rw [foldInto_eq]

theorem summarises_summary {run : List Sighting} {xid : String} (same : ∀ x ∈ run, x.xid = xid) :
    Summarises run (summary run) ∧ (run ≠ [] → (summary run).id = xid) := by
  induction run using List.reverseRecOn with
  | nil => exact ⟨Summarises.new "", fun h => absurd rfl h⟩
  | append_singleton run x ih =>
    obtain ⟨of, id⟩ := ih (fun y member => same y (List.mem_append_left _ member))
    have last : x.xid = xid := same x (by simp)
    by_cases first : run = []
    · subst first
      have one := (Summarises.new x.xid).foldInto (x := x) rfl
      exact ⟨one, fun _ => (id_foldInto (.new x.xid) x).trans last⟩
    · rw [summary_append x first]
      exact ⟨of.foldInto (last.trans (id first).symm), fun _ => (id_foldInto _ x).trans (id first)⟩

end Sighting

end ChangeCapture
