import ChangeCapture.Cache
import ChangeCapture.Proofs.Summary
import Mathlib.Data.List.SplitBy

/-! The entries of a log fall into runs of one transaction. A run is summed up while it lasts and
handed out by the entry after it, or by a flush; nothing but the run at hand is ever kept. An id that
shows up again later starts a run of its own. -/
namespace ChangeCapture

namespace Registry

variable {κ : Type u} {α : Type v} [DecidableEq κ]

def single (key : κ) (a : α) : Registry κ α := (∅ : Registry κ α).insert key a

theorem get?_single (key k : κ) (a : α) :
    (single key a).get? k = if k = key then some a else none := by
  rw [single, get?_insert, get?_empty]

theorem insert_single (key : κ) (a b : α) : (single key a).insert key b = single key b := by
  apply ext
  show place key b [(key, a)] = [(key, b)]
  simp [place]

theorem erase_single (key : κ) (a : α) : (single key a).erase key = ∅ := by
  apply ext
  show List.filter (fun e => decide (e.1 ≠ key)) [(key, a)] = []
  simp

end Registry

/-- An entry that is observed, with what is known of it from outside. -/
abbrev Call := Entry × Observation

/-- What an observation answers: a failure, or the summary that it hands out. -/
abbrev Answer := Except Failure (Option TransactionSummary)

namespace Sighting

/-- The observed entries that belong to transactions and can be read. -/
def ofCalls (calls : List Call) : List Sighting :=
  calls.filterMap (fun c => (read c.1 c.2).toOption.join)

def sameTransaction (x y : Sighting) : Bool := x.xid = y.xid

/-- The longest stretches of entries of one transaction. -/
def runs (calls : List Call) : List (List Sighting) := (ofCalls calls).splitBy sameTransaction

theorem ofCalls_append (calls : List Call) (c : Call) :
    ofCalls (calls ++ [c]) = ofCalls calls ++ (read c.1 c.2).toOption.join.toList := by
  simp only [ofCalls, List.filterMap_append, List.filterMap_cons, List.filterMap_nil]
  cases (read c.1 c.2).toOption.join <;> rfl

theorem started_of_mem_runs {calls : List Call} {run : List Sighting} (member : run ∈ runs calls) :
    run ≠ [] :=
  List.ne_nil_of_mem_splitBy member

theorem xid_of_mem_runs {calls : List Call} {run : List Sighting} (member : run ∈ runs calls) :
    ∃ xid, ∀ x ∈ run, x.xid = xid := by
  have chain := List.isChain_of_mem_splitBy member
  cases run with
  | nil => exact ⟨"", by simp⟩
  | cons first run =>
    have pairs : (first :: run).Pairwise (fun x y => x.xid = y.xid) := by
      have : IsTrans Sighting (fun x y => x.xid = y.xid) := ⟨fun _ _ _ => Eq.trans⟩
      refine List.isChain_iff_pairwise.mp (chain.imp fun x y same => ?_)
      simpa [sameTransaction] using same
    refine ⟨first.xid, fun x member => ?_⟩
    rcases List.mem_cons.mp member with rfl | member
    · rfl
    · exact (List.rel_of_pairwise_cons pairs member).symm

theorem splitBy_extend {xs : List Sighting} {init : List (List Sighting)} {run : List Sighting}
    {x : Sighting} (split : xs.splitBy sameTransaction = init ++ [run])
    (same : ∀ y ∈ run.getLast?, sameTransaction y x) :
    (xs ++ [x]).splitBy sameTransaction = init ++ [run ++ [x]] := by
  obtain ⟨whole, started, chains, apart⟩ := List.splitBy_eq_iff.mp split
  have first : run ≠ [] := fun h => started (by simp [h])
  refine List.splitBy_eq_iff.mpr ⟨by simp [whole], ?_, ?_, ?_⟩
  · simp only [List.mem_append, List.mem_singleton, not_or] at started ⊢
    exact ⟨started.1, by simp⟩
  · intro m member
    rcases List.mem_append.mp member with member | last
    · exact chains m (List.mem_append_left _ member)
    · rw [List.mem_singleton.mp last]
      exact (chains run (by simp)).append (List.isChain_singleton x) (by simpa using same)
  · rw [List.isChain_append] at apart ⊢
    refine ⟨apart.1, List.isChain_singleton _, fun a ha b hb => ?_⟩
    obtain ⟨full, _, differ⟩ := apart.2.2 a ha run (by simp)
    obtain rfl : run ++ [x] = b := by simpa using hb
    exact ⟨full, by simp, by rwa [List.head_append_of_ne_nil first]⟩

theorem splitBy_start {xs : List Sighting} {x : Sighting}
    (other : ∀ y ∈ xs.getLast?, sameTransaction y x = false) :
    (xs ++ [x]).splitBy sameTransaction = xs.splitBy sameTransaction ++ [[x]] := by
  rw [List.splitBy_append (by simpa using other)]
  rfl

theorem last_xid (calls : List Call) :
    (ofCalls calls).getLast?.map xid = (runs calls).getLast?.map (fun run => (summary run).id) := by
  have all : (runs calls).flatten = ofCalls calls := List.flatten_splitBy sameTransaction _
  rcases List.eq_nil_or_concat (runs calls) with none | ⟨init, run, split⟩
  · rw [← all, none]
    rfl
  · rw [List.concat_eq_append] at split
    have member : run ∈ runs calls := by simp [split]
    have started := started_of_mem_runs member
    obtain ⟨xid, same⟩ := xid_of_mem_runs member
    rw [← all, split, List.flatten_append, List.flatten_singleton,
      List.getLast?_append_of_ne_nil _ started, List.getLast?_concat,
      List.getLast?_eq_some_getLast started, Option.map_some, Option.map_some,
      same _ (List.getLast_mem started), (summarises_summary same).2 started]

/-- An entry of a transaction starts the first run, makes the last one longer, or starts another. -/
theorem runs_append (calls : List Call) (c : Call) {x : Sighting}
    (found : read c.1 c.2 = .ok (some x)) :
    (runs calls = [] ∧ runs (calls ++ [c]) = [[x]]) ∨
    (∃ init run, runs calls = init ++ [run] ∧ (summary run).id = x.xid ∧
      runs (calls ++ [c]) = init ++ [run ++ [x]]) ∨
    (∃ init run, runs calls = init ++ [run] ∧ (summary run).id ≠ x.xid ∧
      runs (calls ++ [c]) = init ++ [run] ++ [[x]]) := by
  have more : ofCalls (calls ++ [c]) = ofCalls calls ++ [x] := by rw [ofCalls_append, found]; rfl
  rcases List.eq_nil_or_concat (runs calls) with none | ⟨init, run, split⟩
  · have empty : ofCalls calls = [] := List.splitBy_eq_nil.mp none
    exact .inl ⟨none, by rw [runs, more, empty]; rfl⟩
  · rw [List.concat_eq_append] at split
    by_cases same : (summary run).id = x.xid
    · refine .inr (.inl ⟨init, run, split, same, ?_⟩)
      have member : run ∈ runs calls := by simp [split]
      obtain ⟨xid, one⟩ := xid_of_mem_runs member
      rw [runs, more]
      refine splitBy_extend split (fun y last => ?_)
      have started := started_of_mem_runs member
      rw [sameTransaction, decide_eq_true_eq, ← same, (summarises_summary one).2 started]
      exact one y (List.mem_of_getLast? last)
    · refine .inr (.inr ⟨init, run, split, same, ?_⟩)
      rw [runs, more, splitBy_start, ← split, runs]
      intro y last
      have id := last_xid calls
      rw [Option.mem_def.mp last, split, List.getLast?_concat, Option.map_some, Option.map_some,
        Option.some.injEq] at id
      rw [sameTransaction, decide_eq_false_iff_not, id]
      exact same

/-- An entry that fails or belongs to no transaction is passed over. -/
theorem runs_pass (calls : List Call) (c : Call) (none_ : (read c.1 c.2).toOption.join = none) :
    runs (calls ++ [c]) = runs calls := by
  rw [runs, ofCalls_append, none_, Option.toList_none, List.append_nil, runs]

/-- The summary of the run at hand, which may turn out not to be worth handing out. -/
def finished (calls : List Call) : Option TransactionSummary :=
  ((runs calls).getLast?.map summary).filter TransactionSummary.isValid

/-- What observing `c` answers after the calls before it: the first entry of a run hands out the run
before that. -/
def answer (calls : List Call) (c : Call) : Answer :=
  match read c.1 c.2 with
  | .error f => .error f
  | .ok none => .ok none
  | .ok (some x) =>
    if (ofCalls calls).getLast?.map xid = some x.xid then .ok none else .ok (finished calls)

end Sighting

namespace Transactions

open Sighting

/-- The state within a run, or before the first one. -/
def within : Option (List Sighting) → Transactions
  | none => .empty
  | some run => ⟨some (summary run).id, Registry.single (summary run).id (summary run)⟩

/-- Folds in an entry whose transaction is known. -/
def sight (t : Transactions) (x : Sighting) : Transactions × Option TransactionSummary :=
  let (t, finished) := t.enter x.xid
  (t.add x.xid (foldInto · x), finished)

/-- An entry is read before anything is changed. -/
theorem observe_eq (t : Transactions) (e : Entry) (o : Observation) :
    t.observe e o = match read e o with
      | .error f => .error f
      | .ok none => .ok (t, none)
      | .ok (some x) => .ok (t.sight x) := by
  rw [observe, Sighting.read]
  rcases e.text? .xid with f | _ | xid
  · rfl
  · rfl
  · rcases e.wide? .scn with f | scn
    · rfl
    · rcases e.wide? .timestamp with f | time <;> rfl

/-- Folds in an entry step by step: what a step changed stays, whatever becomes of the next. -/
def take (e : Entry) (o : Observation) : Action Transactions (Option TransactionSummary) := do
  match ← .ofExcept (e.text? .xid) with
  | none => return none
  | some xid =>
    let scn ← .ofExcept (e.wide? .scn)
    let time := (← .ofExcept (e.wide? .timestamp)).bind Timestamp.ofUnix?
    let finished ← modifyGet (fun t => (t.enter xid).swap)
    modify (add · xid (TransactionSummary.add e o scn time))
    return finished

theorem take_eq (e : Entry) (o : Observation) : take e o = Action.outright (observe · e o) := by
  funext t
  rw [take, Action.ofExcept_bind_apply]
  dsimp only [Action.outright, observe]
  rcases e.text? .xid with f | _ | xid
  · rfl
  · rfl
  · dsimp only
    rw [Action.ofExcept_bind_apply]
    rcases e.wide? .scn with f | scn
    · rfl
    · dsimp only
      rw [Action.ofExcept_bind_apply]
      rcases e.wide? .timestamp with f | time <;> rfl

theorem sight_within_none (x : Sighting) : (within none).sight x = (within (some [x]), none) := by
  have id : (summary [x]).id = x.xid := id_foldInto (.new x.xid) x
  simp only [within, id]
  rfl

theorem sight_within_same {run : List Sighting} {x : Sighting} (started : run ≠ [])
    (same : (summary run).id = x.xid) :
    (within (some run)).sight x = (within (some (run ++ [x])), none) := by
  have id : (foldInto (summary run) x).id = x.xid := (id_foldInto _ x).trans same
  simp only [sight, within, enter, same, if_pos, add, id, Registry.get?_single,
    Registry.insert_single, Option.getD_some, summary_append x started]

theorem sight_within_other {run : List Sighting} {x : Sighting} (other : (summary run).id ≠ x.xid) :
    (within (some run)).sight x =
      (within (some [x]), (some (summary run)).filter TransactionSummary.isValid) := by
  have id : (summary [x]).id = x.xid := id_foldInto (.new x.xid) x
  simp [sight, within, enter, other, finish, add, id, Registry.get?_single, Registry.erase_single]
  rfl

/-- The next entry leads from the run at hand to the one that it belongs to. -/
theorem sight_within_last (calls : List Call) (c : Call) {x : Sighting}
    (found : Sighting.read c.1 c.2 = .ok (some x)) :
    (within (runs calls).getLast?).sight x =
      (within (runs (calls ++ [c])).getLast?,
        if (ofCalls calls).getLast?.map xid = some x.xid then none else finished calls) := by
  rcases runs_append calls c found with ⟨before, after⟩ | ⟨init, run, before, same, after⟩ |
    ⟨init, run, before, other, after⟩
  · have empty : ofCalls calls = [] := List.splitBy_eq_nil.mp before
    rw [before, after, empty, finished, before]
    exact sight_within_none x
  · have member : run ∈ runs calls := by simp [before]
    have started := started_of_mem_runs member
    rw [last_xid, before, after, List.getLast?_concat, List.getLast?_concat, if_pos (by simp [same])]
    exact sight_within_same started same
  · rw [last_xid, finished, before, after, List.getLast?_concat, List.getLast?_concat,
      if_neg (by simpa using other)]
    exact sight_within_other other

end Transactions

/-- A cache with the summaries that it shares with all the caches that continue it. -/
structure SharedCache where
  cache : Cache
  summaries : OpenTransactions

namespace SharedCache

open Sighting

def transactions (s : SharedCache) : Transactions := ⟨s.cache.currentTransaction, s.summaries⟩

def withTransactions (s : SharedCache) (t : Transactions) : SharedCache :=
  ⟨{ s.cache with currentTransaction := t.current }, t.summaries⟩

@[simp] theorem transactions_withTransactions (s : SharedCache) (t : Transactions) :
    (s.withTransactions t).transactions = t := rfl

def observe (s : SharedCache) (c : Call) : SharedCache × Answer :=
  let (answer, t) := Transactions.take c.1 c.2 s.transactions
  (s.withTransactions t, answer)

/-- A failure leaves everything as it was. -/
theorem observe_failed {s : SharedCache} {c : Call} {f : Failure}
    (failed : (s.observe c).2 = .error f) : (s.observe c).1 = s := by
  have kept : (Transactions.take c.1 c.2 s.transactions).2 = s.transactions := by
    rw [observe, Transactions.take_eq] at failed
    rw [Transactions.take_eq]
    exact (Action.outright_refused (Transactions.observe · c.1 c.2) s.transactions f).2 failed
  show s.withTransactions (Transactions.take c.1 c.2 s.transactions).2 = s
  rw [kept]
  rfl

def flush (s : SharedCache) : SharedCache × Option TransactionSummary :=
  let (t, finished) := s.transactions.flush
  (s.withTransactions t, finished)

/-- The cache that the next file starts with: a copy, but for the summaries. -/
def continuation (s : SharedCache) : SharedCache := ⟨s.cache, s.summaries⟩

def observeAll (s : SharedCache) : List Call → SharedCache × List Answer
  | [] => (s, [])
  | c :: calls =>
    let (s, answer) := s.observe c
    let (s, answers) := s.observeAll calls
    (s, answer :: answers)

/-- Observes one list of entries after another, each on a continuation of the cache before. -/
def observeChain (s : SharedCache) : List (List Call) → SharedCache × List Answer
  | [] => (s, [])
  | calls :: chain =>
    let (s, answers) := s.observeAll calls
    let (s, more) := s.continuation.observeChain chain
    (s, answers ++ more)

/-- The summaries among the answers. -/
def handedOut (answers : List Answer) : List TransactionSummary :=
  answers.filterMap (fun a => a.toOption.join)

theorem observeAll_append (s : SharedCache) (calls more : List Call) :
    s.observeAll (calls ++ more) =
      let (s', answers) := s.observeAll calls
      let (s'', answers') := s'.observeAll more
      (s'', answers ++ answers') := by
  induction calls generalizing s with
  | nil => rfl
  | cons c calls ih => simp [observeAll, ih]

/-- Continuing a cache is as good as going on with it. -/
theorem observeChain_eq (s : SharedCache) (chain : List (List Call)) :
    s.observeChain chain = s.observeAll chain.flatten := by
  induction chain generalizing s with
  | nil => rfl
  | cons calls chain ih =>
    rw [List.flatten_cons, observeAll_append, observeChain]
    simp only [ih]
    rfl

theorem handedOut_append (answers : List Answer) (a : Answer) :
    handedOut (answers ++ [a]) = handedOut answers ++ a.toOption.join.toList := by
  simp only [handedOut, List.filterMap_append, List.filterMap_cons, List.filterMap_nil]
  cases a.toOption.join <;> rfl

/-- Each answer by the entries before. -/
def answersTo (calls : List Call) : List Answer :=
  calls.mapIdx (fun i c => answer (calls.take i) c)

theorem answersTo_append (calls : List Call) (c : Call) :
    answersTo (calls ++ [c]) = answersTo calls ++ [answer calls c] := by
  simp only [answersTo, List.mapIdx_append, List.mapIdx_cons, List.mapIdx_nil, Nat.zero_add,
    List.take_left]
  congr 1
  refine List.ext_getElem (by simp) (fun i h _ => ?_)
  rw [List.length_mapIdx] at h
  simp [List.take_append_of_le_length (Nat.le_of_lt h)]

theorem observe_eq (s : SharedCache) (t : Transactions) (c : Call) :
    (s.withTransactions t).observe c = match read c.1 c.2 with
      | .error f => (s.withTransactions t, .error f)
      | .ok none => (s.withTransactions t, .ok none)
      | .ok (some x) => (s.withTransactions (t.sight x).1, .ok (t.sight x).2) := by
  rw [observe, transactions_withTransactions, Transactions.take_eq, Action.outright,
    Transactions.observe_eq]
  rcases Sighting.read c.1 c.2 with f | _ | x <;> rfl

/-- After some entries a cache that knew of no transaction is within their last run. Each entry was
answered by those before it, and every run but the last was handed out. -/
structure Observed (start : SharedCache) (calls : List Call) (s : SharedCache)
    (answers : List Answer) : Prop where
  state : s = start.withTransactions (.within (runs calls).getLast?)
  each : answers = answersTo calls
  summaries : handedOut answers = ((runs calls).dropLast.map summary).filter (·.isValid)

theorem handedOut_start {calls : List Call} {init : List (List Sighting)} {run : List Sighting}
    (split : runs calls = init ++ [run]) :
    ((runs calls).dropLast.map summary).filter (·.isValid) ++ (finished calls).toList =
      ((runs calls).map summary).filter (·.isValid) := by
  have last : ((some (summary run)).filter (·.isValid)).toList =
      [summary run].filter (·.isValid) := by
    cases valid : (summary run).isValid <;> simp [Option.filter, valid]
  rw [finished, split, List.dropLast_concat, List.getLast?_concat, Option.map_some, last,
    ← List.filter_append, List.map_append, List.map_singleton]

theorem Observed.append {start s : SharedCache} {calls : List Call} {answers : List Answer}
    (so : Observed start calls s answers) (c : Call) :
    Observed start (calls ++ [c]) (s.observe c).1 (answers ++ [(s.observe c).2]) := by
  obtain ⟨rfl, rfl, summaries⟩ := so
  rw [observe_eq]
  rcases found : Sighting.read c.1 c.2 with f | _ | x
  case error =>
    have pass := runs_pass calls c (by rw [found]; rfl)
    refine ⟨by rw [pass], by rw [answersTo_append, answer, found], ?_⟩
    rw [handedOut_append, pass, summaries]
    exact List.append_nil _
  case ok.none =>
    have pass := runs_pass calls c (by rw [found]; rfl)
    refine ⟨by rw [pass], by rw [answersTo_append, answer, found], ?_⟩
    rw [handedOut_append, pass, summaries]
    exact List.append_nil _
  case ok.some =>
    simp only [Transactions.sight_within_last calls c found]
    refine ⟨rfl, ?_, ?_⟩
    · rw [answersTo_append, answer, found]
      simp only
      split <;> rfl
    rw [handedOut_append, summaries]
    rcases runs_append calls c found with ⟨before, after⟩ | ⟨init, run, before, same, after⟩ |
      ⟨init, run, before, other, after⟩
    · have none_ : finished calls = none := by rw [finished, before]; rfl
      simp [before, after, none_, Except.toOption]
    · rw [last_xid, if_pos (by simp [before, same]), before, after]
      simp [Except.toOption]
    · rw [last_xid, if_neg (by simpa [before] using other), after, List.dropLast_concat, ← before]
      exact handedOut_start before

theorem observed_observeAll (start : SharedCache) (calls : List Call) :
    Observed start calls
      ((start.withTransactions .empty).observeAll calls).1
      ((start.withTransactions .empty).observeAll calls).2 := by
  induction calls using List.reverseRecOn with
  | nil => exact ⟨rfl, rfl, rfl⟩
  | append_singleton calls c ih =>
    rw [observeAll_append]
    exact ih.append c

theorem flush_within (start : SharedCache) (calls : List Call) :
    (start.withTransactions (.within (runs calls).getLast?)).flush =
      (start.withTransactions .empty, finished calls) := by
  rw [flush, transactions_withTransactions, finished]
  cases (runs calls).getLast? with
  | none => rfl
  | some run =>
    simp [Transactions.flush, Transactions.within, Transactions.finish, Registry.get?_single,
      Registry.erase_single]
    rfl

/-- What becomes of the runs of one transaction among the observed entries. -/
structure Accounted (start : SharedCache) (calls : List Call) (after : SharedCache)
    (answers : List Answer) : Prop where
  /-- One summary of every run that is worth it, in order. -/
  summaries : handedOut answers ++ after.flush.2.toList =
    ((runs calls).map summary).filter (·.isValid)
  fields : ∀ run ∈ runs calls, Summarises run (summary run)
  /-- The first entry of a run hands out the one before, the flush the last one. -/
  answers : answers = answersTo calls
  flush : after.flush = (start, finished calls)
  /-- Nothing is kept but the run at hand, under the transaction at hand. -/
  cache : after.cache = { start.cache with currentTransaction := (ofCalls calls).getLast?.map xid }
  kept : after.summaries.entries =
    ((runs calls).getLast?.map (fun run => ((summary run).id, summary run))).toList
  failure : ∀ c f, (after.observe c).2 = .error f → (after.observe c).1 = after

theorem Observed.accounted {start after : SharedCache} {calls : List Call} {answers : List Answer}
    (fresh : start.withTransactions .empty = start) (so : Observed start calls after answers) :
    Accounted start calls after answers := by
  obtain ⟨rfl, rfl, summaries⟩ := so
  have flushed := flush_within start calls
  rw [fresh] at flushed
  constructor
  case summaries =>
    rw [flushed, summaries]
    rcases List.eq_nil_or_concat (runs calls) with none | ⟨init, run, split⟩
    · simp [none, finished]
    · exact handedOut_start (split.trans List.concat_eq_append)
  case fields =>
    intro run member
    obtain ⟨xid, same⟩ := xid_of_mem_runs member
    exact (summarises_summary same).1
  case answers => rfl
  case flush => exact flushed
  case cache =>
    rw [last_xid]
    cases (runs calls).getLast? <;> rfl
  case kept => cases (runs calls).getLast? <;> rfl
  case failure =>
    intro c f failed
    exact observe_failed failed

/-- The summaries of a log are those of its runs, however the log is spread over caches that continue
one another. -/
theorem observeChain_accounted (start : SharedCache) (chain : List (List Call))
    (outside : start.cache.currentTransaction = none) (empty : start.summaries = ∅) :
    Accounted start chain.flatten (start.observeChain chain).1 (start.observeChain chain).2 := by
  have fresh : start.withTransactions .empty = start := by
    obtain ⟨⟨catalog, parts, current⟩, summaries⟩ := start
    cases outside
    cases empty
    rfl
  have seen := observed_observeAll start chain.flatten
  rw [fresh, ← observeChain_eq] at seen
  exact seen.accounted fresh

/-- A transaction that goes on in a second file, with another one after it. -/
theorem observeChain_accounted_two_files :
    let e (xid : UInt32) : Entry := ⟨10, 2, 1, 16, .ofList
      [(.xid, [⟨0x0100, [1, xid], 0⟩]), (.scn, [⟨0x0101, [7, 0], 1⟩]),
        (.timestamp, [⟨0x0102, [1700000000, 0], 2⟩])]⟩
    let o (file n : Nat) : Observation := ⟨file, ⟨3, n⟩, ⟨file, 16⟩, some "S.T"⟩
    let start : SharedCache := ⟨.empty, ∅⟩
    let chain := [[(e 0x31, o 7 2)], [(e 0x31, o 8 2), (e 0x32, o 8 3)]]
    Accounted start chain.flatten (start.observeChain chain).1 (start.observeChain chain).2 ∧
      (runs chain.flatten).map List.length = [2, 1] ∧
      ((runs chain.flatten).map summary).map (·.isValid) = [true, true] :=
  ⟨observeChain_accounted _ _ rfl rfl, by decide, by decide +kernel⟩

end SharedCache

end ChangeCapture
