import ChangeCapture.Proofs.Merging

/-! Rows of different identity do not touch each other. What a key gets to see of offers and releases
rests on the dictionary, on what was held under that key before, and on the offers of its own
records: it is the same if nothing was ever offered under another key. -/
namespace ChangeCapture

namespace Registry

variable {κ : Type u} {α : Type v} [DecidableEq κ]

theorem find_absent {key : κ} {l : List (κ × α)} (absent : key ∉ l.map Prod.fst) :
    find key l = none := by
  cases found : find key l with
  | none => rfl
  | some a => exact absurd (List.mem_map_of_mem (f := Prod.fst) (mem_of_find found)) absent

theorem find_filter (p : κ → α → Bool) (key : κ) {l : List (κ × α)}
    (nodup : (l.map Prod.fst).Nodup) :
    find key (l.filter (fun e => p e.1 e.2)) = (find key l).filter (p key) := by
  induction l with
  | nil => rfl
  | cons e l ih =>
    obtain ⟨k, a⟩ := e
    rw [List.map_cons, List.nodup_cons] at nodup
    have rest := ih nodup.2
    by_cases hit : k = key
    · subst hit
      rw [find_absent nodup.1] at rest
      cases kept : p k a <;> simp [find, kept, rest, Option.filter]
    · cases kept : p k a <;> simp [find, kept, rest, hit]

theorem get?_filter (r : Registry κ α) (p : κ → α → Bool) (key : κ) :
    (r.filter p).get? key = (r.get? key).filter (p key) := find_filter p key r.nodup

theorem filter_eq_find (key : κ) {l : List (κ × α)} (nodup : (l.map Prod.fst).Nodup) :
    l.filter (fun e => e.1 = key) = (find key l).toList.map (Prod.mk key) := by
  induction l with
  | nil => rfl
  | cons e l ih =>
    obtain ⟨k, a⟩ := e
    rw [List.map_cons, List.nodup_cons] at nodup
    have rest := ih nodup.2
    by_cases hit : k = key
    · subst hit
      rw [find_absent nodup.1] at rest
      simp [find, rest]
    · simp [find, rest, hit]

end Registry

namespace Parts

theorem get?_offer_other (p : Parts) (table : Option Table) (offset : StreamOffset)
    {r : ChangeRecord} {key : PartKey} (other : PartKey.ofRecord r ≠ key) :
    (p.offer table offset r).1.get? key = p.get? key := by
  have apart : key ≠ PartKey.ofRecord r := other.symm
  unfold offer
  split
  · unfold offerLobWrite
    dsimp only
    split
    · simp [Registry.get?_insert, apart]
    · split <;> simp [Registry.get?_insert, apart]
  · split
    · unfold offerRowChange
      dsimp only
      split
      · split <;> simp [Registry.get?_erase, apart]
      · split <;> simp [Registry.get?_insert, apart]
    · rfl

/-- What becomes of an offer, and of what is held under its key, rests on what was held there. -/
theorem offer_alike {p q : Parts} (table : Option Table) (offset : StreamOffset) {r : ChangeRecord}
    (same : p.get? (.ofRecord r) = q.get? (.ofRecord r)) :
    (p.offer table offset r).2 = (q.offer table offset r).2 ∧
      (p.offer table offset r).1.get? (.ofRecord r) =
        (q.offer table offset r).1.get? (.ofRecord r) := by
  unfold offer
  split
  · unfold offerLobWrite
    dsimp only
    rw [same]
    split
    · simp
    · split <;> simp
  · split
    · unfold offerRowChange
      dsimp only
      rw [same]
      split
      · split <;> simp [Registry.get?_erase]
      · split <;> simp [same]
    · exact ⟨rfl, same⟩

/-- The records that are let go, with the keys that they were held under. -/
def leaving (p : Parts) : List (PartKey × HeldRecord) :=
  (p.filter (fun _ held => held.record.header.action.isRowChange)).keys.zip p.release.2

theorem leaving_eq (p : Parts) : p.leaving =
    (p.filter (fun _ held => held.record.header.action.isRowChange)).entries.map
      (fun e => (e.1, { e.2 with record := { e.2.record with complete := true } })) := by
  rw [leaving, release, Registry.keys, Registry.values, List.map_map, List.zip_map']
  rfl

theorem get?_release (p : Parts) (key : PartKey) :
    p.release.1.get? key =
      (p.get? key).filter (fun held => !held.record.header.action.isRowChange) :=
  Registry.get?_filter p _ key

theorem leaving_under (p : Parts) (key : PartKey) :
    p.leaving.filter (fun e => e.1 = key) =
      ((p.get? key).filter (fun held => held.record.header.action.isRowChange)).toList.map
        (fun held => (key, { held with record := { held.record with complete := true } })) := by
  rw [leaving_eq, List.filter_map]
  have under : ((fun e : PartKey × HeldRecord => decide (e.1 = key)) ∘ fun e =>
      (e.1, { e.2 with record := { e.2.record with complete := true } })) =
        fun e : PartKey × HeldRecord => decide (e.1 = key) := rfl
  rw [under, Registry.filter_eq_find key (Registry.nodup _), List.map_map]
  have found := Registry.get?_filter p (fun _ held => held.record.header.action.isRowChange) key
  rw [Registry.get?] at found
  rw [found]
  rfl

end Parts

/-- What can be done to the records that are held. -/
inductive PartCall where
  | offer (offset : StreamOffset) (record : ChangeRecord)
  | release
deriving DecidableEq, Repr

inductive PartAnswer where
  | offered (result : Except Failure (Offered ChangeRecord))
  | released (records : List (PartKey × HeldRecord))

namespace PartCall

/-- Releases concern every key, an offer that of its record. -/
def concerns (key : PartKey) : PartCall → Bool
  | offer _ r => PartKey.ofRecord r = key
  | release => true

end PartCall

/-- What of an answer belongs to a key. -/
def PartAnswer.under (key : PartKey) : PartAnswer → PartAnswer
  | offered result => offered result
  | released records => released (records.filter (fun e => e.1 = key))

namespace Cache

def call (c : Cache) : PartCall → Cache × PartAnswer
  | .offer offset r => ((c.offer offset r).1, .offered (c.offer offset r).2)
  | .release => ({ c with parts := c.parts.release.1 }, .released c.parts.leaving)

/-- Calls one after the other, each with its answer; a call that fails does not keep others from
being made. -/
def callEach (c : Cache) : List PartCall → Cache × List (PartCall × PartAnswer)
  | [] => (c, [])
  | x :: calls =>
    let (last, answers) := (c.call x).1.callEach calls
    (last, (x, (c.call x).2) :: answers)

/-- What a key gets to see of calls: the answers to those that concern it, and what is held under it
in the end. -/
def seen (c : Cache) (key : PartKey) (calls : List PartCall) :
    List PartAnswer × Option HeldRecord :=
  (((c.callEach calls).2.filter (fun x => x.1.concerns key)).map (fun x => x.2.under key),
    (c.callEach calls).1.parts.get? key)

/-- The cache without the records that are held under other keys. -/
def alone (c : Cache) (key : PartKey) : Cache :=
  { c with parts := c.parts.filter (fun k _ => k = key) }

/-- Caches that know the same tables and hold the same under a key. -/
structure AlikeUnder (key : PartKey) (c c' : Cache) : Prop where
  dictionary : c.catalog.dictionary = c'.catalog.dictionary
  held : c.parts.get? key = c'.parts.get? key

namespace AlikeUnder

variable {key : PartKey} {c c' : Cache}

theorem call_other (alike : AlikeUnder key c c') {x : PartCall} (other : x.concerns key = false) :
    AlikeUnder key (c.call x).1 c' := by
  cases x with
  | release => cases other
  | offer offset r =>
    have apart : PartKey.ofRecord r ≠ key := by simpa [PartCall.concerns] using other
    exact ⟨alike.dictionary, (c.parts.get?_offer_other _ offset apart).trans alike.held⟩

theorem call (alike : AlikeUnder key c c') {x : PartCall} (own : x.concerns key) :
    AlikeUnder key (c.call x).1 (c'.call x).1 ∧
      (c.call x).2.under key = (c'.call x).2.under key := by
  cases x with
  | release =>
    refine ⟨⟨alike.dictionary, ?_⟩, ?_⟩
    · show c.parts.release.1.get? key = c'.parts.release.1.get? key
      rw [Parts.get?_release, Parts.get?_release, alike.held]
    · show PartAnswer.released (c.parts.leaving.filter _) = .released (c'.parts.leaving.filter _)
      rw [Parts.leaving_under, Parts.leaving_under, alike.held]
  | offer offset r =>
    have same : PartKey.ofRecord r = key := by simpa [PartCall.concerns] using own
    subst same
    obtain ⟨answer, held⟩ :=
      Parts.offer_alike (c.catalog.dictionary.get? r.header.tableId) offset alike.held
    have answer' : (c.offer offset r).2 = (c'.offer offset r).2 := by
      rw [Cache.offer, Cache.offer, ← alike.dictionary]
      exact answer
    refine ⟨⟨alike.dictionary, ?_⟩, congrArg PartAnswer.offered answer'⟩
    show (c.offer offset r).1.parts.get? _ = (c'.offer offset r).1.parts.get? _
    rw [Cache.offer, Cache.offer, ← alike.dictionary]
    exact held

/-- Calls that do not concern the key can be left out. -/
theorem seen (alike : AlikeUnder key c c') (calls : List PartCall) :
    c.seen key calls = c'.seen key (calls.filter (PartCall.concerns key)) := by
  induction calls generalizing c c' with
  | nil => exact congrArg (Prod.mk []) alike.held
  | cons x calls ih =>
    cases own : x.concerns key with
    | false =>
      rw [List.filter_cons_of_neg (by simp [own]), ← ih (alike.call_other own)]
      simp [Cache.seen, callEach, own]
    | true =>
      obtain ⟨alikeThen, answer⟩ := alike.call own
      have rest := ih alikeThen
      rw [List.filter_cons_of_pos own]
      simp only [Cache.seen, Prod.mk.injEq] at rest
      simp [Cache.seen, callEach, own, answer, rest]

end AlikeUnder

theorem alikeUnder_alone (c : Cache) (key : PartKey) : AlikeUnder key c (c.alone key) where
  dictionary := rfl
  held := by
    rw [alone, Registry.get?_filter]
    cases c.parts.get? key <;> simp [Option.filter]

/-- Whatever is offered and let go, with failures or without: the answers to the offers of a key's
records, what is let go under it and what is held under it in the end are as if no record of any
other key had been offered, neither now nor before. -/
theorem seen_apart (c : Cache) (key : PartKey) (calls : List PartCall) :
    c.seen key calls = c.seen key (calls.filter (PartCall.concerns key)) ∧
      c.seen key calls = (c.alone key).seen key (calls.filter (PartCall.concerns key)) :=
  ⟨AlikeUnder.seen ⟨rfl, rfl⟩ calls, (c.alikeUnder_alone key).seen calls⟩

end Cache

end ChangeCapture
