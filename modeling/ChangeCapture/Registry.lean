/-! Maps with an order: a key keeps the place it was first given, a new key goes to the end.
Looking up after `insert`, `erase`, `modify` and `mapValues` is settled by the lemmas below; nothing
else needs to open the list. -/
namespace ChangeCapture

structure Registry (κ : Type u) (α : Type v) where
  entries : List (κ × α)
  nodup : (entries.map Prod.fst).Nodup
deriving DecidableEq

namespace Registry

variable {κ : Type u} {α : Type v} {β : Type w}

theorem ext {r s : Registry κ α} (same : r.entries = s.entries) : r = s := by
  cases r; cases s; cases same; rfl

instance [Repr κ] [Repr α] : Repr (Registry κ α) := ⟨fun r n => reprPrec r.entries n⟩

def empty : Registry κ α := ⟨[], List.Pairwise.nil⟩

instance : EmptyCollection (Registry κ α) := ⟨empty⟩
instance : Inhabited (Registry κ α) := ⟨empty⟩

def keys (r : Registry κ α) : List κ := r.entries.map Prod.fst
def values (r : Registry κ α) : List α := r.entries.map Prod.snd
def size (r : Registry κ α) : Nat := r.entries.length
def isEmpty (r : Registry κ α) : Bool := r.entries.isEmpty

def filter (p : κ → α → Bool) (r : Registry κ α) : Registry κ α :=
  ⟨r.entries.filter (fun e => p e.1 e.2), List.Pairwise.sublist (List.filter_sublist.map _) r.nodup⟩

def mapValues (f : κ → α → β) (r : Registry κ α) : Registry κ β :=
  ⟨r.entries.map (fun e => (e.1, f e.1 e.2)), by
    have h : (r.entries.map (fun e => (e.1, f e.1 e.2))).map Prod.fst = r.entries.map Prod.fst := by
      simp [List.map_map, Function.comp_def]
    rw [h]; exact r.nodup⟩

variable [DecidableEq κ]

/-- The value of the first entry of `key`. -/
def find (key : κ) : List (κ × α) → Option α
  | [] => none
  | (k, a) :: rest => if k = key then some a else find key rest

def get? (r : Registry κ α) (key : κ) : Option α := find key r.entries

def contains (r : Registry κ α) (key : κ) : Bool := (r.get? key).isSome

def place (key : κ) (value : α) : List (κ × α) → List (κ × α)
  | [] => [(key, value)]
  | (k, a) :: rest => if k = key then (k, value) :: rest else (k, a) :: place key value rest

theorem mem_place {key k : κ} {value : α} {l : List (κ × α)}
    (h : k ∈ (place key value l).map Prod.fst) : k = key ∨ k ∈ l.map Prod.fst := by
  induction l with
  | nil => simpa [place] using h
  | cons e rest ih =>
    obtain ⟨k', a⟩ := e
    by_cases hk : k' = key
    · rw [place, if_pos hk] at h
      exact Or.inr (by simpa using h)
    · rw [place, if_neg hk] at h
      simp only [List.map_cons, List.mem_cons] at h ⊢
      rcases h with rfl | h
      · exact Or.inr (Or.inl rfl)
      · exact (ih h).imp_right Or.inr

theorem nodup_place (key : κ) (value : α) {l : List (κ × α)} (h : (l.map Prod.fst).Nodup) :
    ((place key value l).map Prod.fst).Nodup := by
  induction l with
  | nil => simp [place]
  | cons e rest ih =>
    obtain ⟨k, a⟩ := e
    simp only [List.map_cons, List.nodup_cons] at h
    by_cases hk : k = key
    · rw [place, if_pos hk]
      simpa using h
    · rw [place, if_neg hk]
      simp only [List.map_cons, List.nodup_cons]
      exact ⟨fun m => (mem_place m).elim hk h.1, ih h.2⟩

/-- A key that is there keeps its place. -/
def insert (r : Registry κ α) (key : κ) (value : α) : Registry κ α :=
  ⟨place key value r.entries, nodup_place key value r.nodup⟩

def erase (r : Registry κ α) (key : κ) : Registry κ α := r.filter (fun k _ => k ≠ key)

/-- Changes the value of `key`, if it has one. -/
def modify (r : Registry κ α) (key : κ) (f : α → α) : Registry κ α :=
  match r.get? key with
  | some a => r.insert key (f a)
  | none => r

/-- Takes over every entry of `other`. -/
def extend (r other : Registry κ α) : Registry κ α :=
  other.entries.foldl (fun acc e => acc.insert e.1 e.2) r

/-- Of two entries with one key the later value wins, at the place of the earlier. -/
def ofList (entries : List (κ × α)) : Registry κ α :=
  entries.foldl (fun acc e => acc.insert e.1 e.2) ∅

@[simp] theorem get?_empty (key : κ) : (∅ : Registry κ α).get? key = none := rfl

theorem find_place (key k : κ) (value : α) (l : List (κ × α)) :
    find k (place key value l) = if k = key then some value else find k l := by
  induction l with
  | nil => by_cases h : k = key <;> simp [place, find, h, Ne.symm]
  | cons e rest ih =>
    obtain ⟨k', a⟩ := e
    by_cases hk : k' = key
    · subst hk
      by_cases h : k = k' <;> simp [place, find, h, Ne.symm]
    · rw [place, if_neg hk]
      by_cases h : k' = k
      · subst h
        simp [find, hk]
      · simp [find, h, ih]

theorem get?_insert (r : Registry κ α) (key k : κ) (value : α) :
    (r.insert key value).get? k = if k = key then some value else r.get? k :=
  find_place key k value r.entries

@[simp] theorem get?_insert_self (r : Registry κ α) (key : κ) (value : α) :
    (r.insert key value).get? key = some value := by simp [get?_insert]

theorem place_known {key : κ} {a : α} {l : List (κ × α)} (known : find key l = some a) :
    place key a l = l := by
  induction l with
  | nil => cases known
  | cons e l ih =>
    obtain ⟨k, b⟩ := e
    by_cases hit : k = key
    · obtain rfl : b = a := by simpa [find, hit] using known
      simp [place, hit]
    · simp [place, hit, ih (by simpa [find, hit] using known)]

theorem insert_known {r : Registry κ α} {key : κ} {a : α} (known : r.get? key = some a) :
    r.insert key a = r := ext (place_known known)

theorem insert_eq_self_iff {r : Registry κ α} {key : κ} {a b : α} (known : r.get? key = some a) :
    r.insert key b = r ↔ b = a := by
  constructor
  · intro same
    have there := r.get?_insert_self key b
    rw [same, known] at there
    exact (Option.some.inj there).symm
  · rintro rfl
    exact insert_known known

theorem find_filter_ne (key k : κ) (l : List (κ × α)) :
    find k (l.filter (fun e => decide (e.1 ≠ key))) = if k = key then none else find k l := by
  induction l with
  | nil => simp [find]
  | cons e rest ih =>
    obtain ⟨k', a⟩ := e
    by_cases hk : k' = key
    · subst hk
      rw [List.filter_cons_of_neg (by simp), ih]
      by_cases h : k = k'
      · simp [h]
      · simp [h, find, Ne.symm h]
    · rw [List.filter_cons_of_pos (by simp [hk]), find, ih, find]
      by_cases h : k' = k
      · subst h
        simp [hk]
      · simp [h]

theorem get?_erase (r : Registry κ α) (key k : κ) :
    (r.erase key).get? k = if k = key then none else r.get? k :=
  find_filter_ne key k r.entries

@[simp] theorem get?_modify (r : Registry κ α) (key k : κ) (f : α → α) :
    (r.modify key f).get? k = if k = key then (r.get? key).map f else r.get? k := by
  unfold modify
  split
  next a h => simp [get?_insert, h]
  next h => by_cases hk : k = key <;> simp [hk, h]

theorem find_map (f : κ → α → β) (key : κ) (l : List (κ × α)) :
    find key (l.map fun e => (e.1, f e.1 e.2)) = (find key l).map (f key) := by
  induction l with
  | nil => rfl
  | cons e rest ih =>
    obtain ⟨k, a⟩ := e
    by_cases hk : k = key
    · subst hk
      simp [find]
    · simpa [find, hk] using ih

@[simp] theorem get?_mapValues (r : Registry κ α) (f : κ → α → β) (key : κ) :
    (r.mapValues f).get? key = (r.get? key).map (f key) :=
  find_map f key r.entries

theorem place_map (f : κ → α → β) (key : κ) (value : α) (l : List (κ × α)) :
    place key (f key value) (l.map fun e => (e.1, f e.1 e.2)) =
      (place key value l).map fun e => (e.1, f e.1 e.2) := by
  induction l with
  | nil => rfl
  | cons e rest ih =>
    obtain ⟨k, a⟩ := e
    by_cases hk : k = key
    · subst hk
      simp [place]
    · simpa [place, hk] using ih

theorem mapValues_insert (r : Registry κ α) (f : κ → α → β) (key : κ) (value : α) :
    (r.insert key value).mapValues f = (r.mapValues f).insert key (f key value) :=
  ext (place_map f key value r.entries).symm

theorem mapValues_erase (r : Registry κ α) (f : κ → α → β) (key : κ) :
    (r.erase key).mapValues f = (r.mapValues f).erase key := by
  refine ext ?_
  show List.map _ (List.filter _ r.entries) = List.filter _ (List.map _ r.entries)
  rw [List.filter_map]
  rfl

end Registry

end ChangeCapture
