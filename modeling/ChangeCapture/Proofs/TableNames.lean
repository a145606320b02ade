import ChangeCapture.Proofs.Overlooking

/-! The name by which the gates know the table of a change, and the name that its record bears. The
gates take what an entry says only if it gives both owner and name, and otherwise go by the id of
the table; a record takes owner and name one by one, each from the entry if it gives it. What the
entry teaches on the way changes neither. -/
namespace ChangeCapture

/-- What an entry says of which table it is about. -/
structure TableTags where
  owner : Option String
  name : Option String
  id : Option Nat
deriving DecidableEq, Repr

namespace TableTags

/-- The tags as they are read off an entry. -/
structure GivenBy (t : TableTags) (e : Entry) : Prop where
  owner : e.text? .objectOwner = .ok t.owner
  name : e.text? .objectName = .ok t.name
  id : e.word? .objectId = .ok t.id

/-- What a dictionary knows of the table; an entry that gives no id is about table 0. -/
def known? (t : TableTags) (d : Dictionary) : Option Table := d.get? (t.id.getD 0)

/-- Owner and name as a record takes them. -/
def resolve (t : TableTags) (known : Option Table) : String × String :=
  (t.owner.getD ((known.map Table.owner).getD ""), t.name.getD ((known.map Table.name).getD ""))

/-- The name as a gate sees it. -/
def seen (t : TableTags) (d : Dictionary) : Option String :=
  match t.owner, t.name with
  | some owner, some name => some (qualifiedName owner name)
  | _, _ => (t.id.bind d.get?).map Table.qualifiedName

/-- Whether gates and records come to the same name: an entry that names its table does not leave
both parts empty; one that goes by the id of a table that is known says of owner and name nothing
else than that table, which has a name; and one without such a table names none, nor does table 0
for it. -/
def Agrees (t : TableTags) (d : Dictionary) : Prop :=
  match t.owner, t.name, t.id.bind d.get? with
  | some owner, some name, _ => ¬(owner = "" ∧ name = "")
  | owner, name, some table => owner.getD table.owner = table.owner ∧
      name.getD table.name = table.name ∧ ¬(table.owner = "" ∧ table.name = "")
  | _, _, none => t.resolve (t.known? d) = ("", "")

end TableTags

theorem qualifiedName_inj_owner {owner owner' name : String} :
    qualifiedName owner name = qualifiedName owner' name ↔ owner = owner' := by
  simp [qualifiedName, ← String.toList_inj, toString]

theorem qualifiedName_inj_name {owner name name' : String} :
    qualifiedName owner name = qualifiedName owner name' ↔ name = name' := by
  simp [qualifiedName, ← String.toList_inj, toString]

namespace ChangeHeader

variable {h : ChangeHeader}

theorem qualifiedName?_eq_none : h.qualifiedName? = none ↔ (h.owner, h.tableName) = ("", "") := by
  rw [qualifiedName?, Prod.mk.injEq]
  split <;> simp_all

theorem qualifiedName?_eq_some {name : String} :
    h.qualifiedName? = some name ↔
      ¬(h.owner = "" ∧ h.tableName = "") ∧ qualifiedName h.owner h.tableName = name := by
  rw [qualifiedName?]
  split <;> simp_all

theorem names_ofEntry {e : Entry} {id : RecordId} {tableId : Nat} {table : Option Table}
    {tags : TableTags} (given : tags.GivenBy e) (ok : ofEntry e id tableId table = .ok h) :
    (h.owner, h.tableName) = tags.resolve table := by
  obtain ⟨_, _, ok⟩ := bind_ok ok
  obtain ⟨_, _, ok⟩ := bind_ok ok
  obtain ⟨_, _, ok⟩ := bind_ok ok
  obtain ⟨_, owner, ok⟩ := bind_ok ok
  obtain ⟨_, name, ok⟩ := bind_ok ok
  obtain ⟨_, _, ok⟩ := bind_ok ok
  cases ok
  cases given.owner.symm.trans owner
  cases given.name.symm.trans name
  rfl

end ChangeHeader

namespace TableTags

/-- Where the tags agree with what is known, and nowhere else, a record is named as gates see it. -/
theorem agrees_iff {t : TableTags} {d : Dictionary} {h : ChangeHeader}
    (named : (h.owner, h.tableName) = t.resolve (t.known? d)) :
    h.qualifiedName? = t.seen d ↔ t.Agrees d := by
  obtain ⟨owner, name, id⟩ := t
  cases table : id.bind d.get? with
  | some table =>
    obtain ⟨id, rfl, known⟩ := Option.bind_eq_some_iff.mp table
    simp only [resolve, known?, Option.getD_some, known, Option.map_some, Prod.mk.injEq] at named
    obtain ⟨ownerTaken, nameTaken⟩ := named
    rcases owner with _ | owner <;> rcases name with _ | name
    all_goals
      simp only [seen, Agrees, table, Option.map_some, Table.qualifiedName,
        ChangeHeader.qualifiedName?_eq_some, ownerTaken, nameTaken, Option.getD_none,
        Option.getD_some]
    · tauto
    · rw [qualifiedName_inj_name]
      constructor
      · rintro ⟨named, rfl⟩
        exact ⟨trivial, rfl, named⟩
      · rintro ⟨-, rfl, named⟩
        exact ⟨named, rfl⟩
    · rw [qualifiedName_inj_owner]
      constructor
      · rintro ⟨named, rfl⟩
        exact ⟨rfl, trivial, named⟩
      · rintro ⟨rfl, -, named⟩
        exact ⟨named, rfl⟩
    · tauto
  | none =>
    rcases owner with _ | owner <;> rcases name with _ | name
    case some.some =>
      simp only [resolve, Option.getD_some, Prod.mk.injEq] at named
      simp only [seen, Agrees, ChangeHeader.qualifiedName?_eq_some, named]
      tauto
    all_goals
      simp only [seen, Agrees, table, Option.map_none, ChangeHeader.qualifiedName?_eq_none, named]

end TableTags

namespace Catalog

variable {c : Catalog} {d learned : Dictionary} {e : Entry} {tags : TableTags}

/-- A gate is told what the tags of an entry come to. -/
theorem entrySchema_eq (given : tags.GivenBy e) : entrySchema d e = .ok (tags.seen d) := by
  obtain ⟨owner, name, id⟩ := tags
  rw [entrySchema, given.owner, given.name]
  rcases owner with _ | owner <;> rcases name with _ | name
  case some.some => rfl
  all_goals
    show (do return ((← e.word? .objectId).bind d.get?).map Table.qualifiedName) = _
    rw [given.id]
    rfl

/-- The columns that an entry describes are learned under the name that it resolves to. -/
theorem resolve_learn {tableId : Nat} {ordinals : List Nat} (given : tags.GivenBy e)
    (ok : learn d e tableId ordinals = .ok learned) :
    tags.resolve (learned.get? tableId) = tags.resolve (d.get? tableId) := by
  unfold learn at ok
  dsimp only at ok
  split at ok
  · cases ok
  · obtain ⟨_, owner, ok⟩ := bind_ok ok
    obtain ⟨_, name, ok⟩ := bind_ok ok
    obtain ⟨_, _, ok⟩ := bind_ok ok
    obtain ⟨⟨_, changed⟩, applied, ok⟩ := bind_ok ok
    cases ok
    cases given.owner.symm.trans owner
    cases given.name.symm.trans name
    obtain ⟨⟨table, known, sameOwner, sameName, -⟩, -⟩ := Dictionary.get?_apply applied
    have there : Dictionary.get? _ tableId = some table := known
    rw [there]
    simp only [TableTags.resolve, Option.map_some, Option.getD_some, sameOwner, sameName]
    cases tags.owner <;> cases tags.name <;> rfl

theorem resolve_describe {tableId : Nat} {ordinals : List Nat} (given : tags.GivenBy e)
    (ok : describe d e = .ok (tableId, ordinals, learned)) :
    tags.resolve (learned.get? tableId) = tags.resolve (tags.known? d) := by
  rw [describe_eq] at ok
  obtain ⟨_, id, ok⟩ := bind_ok ok
  obtain ⟨_, _, ok⟩ := bind_ok ok
  obtain ⟨_, taught, ok⟩ := bind_ok ok
  cases ok
  cases given.id.symm.trans id
  split at taught
  · exact resolve_learn given taught
  · cases taught
    rfl

theorem exists_givenBy {view : ChangeView} {id : RecordId} {change : Change}
    (ok : (c.assemble view id e).result = .ok change) : ∃ tags : TableTags, tags.GivenBy e := by
  obtain ⟨_, _, _, described, header, -⟩ := assemble_ofTable ok
  rw [describe_eq] at described
  obtain ⟨id, idRead, -⟩ := bind_ok described
  obtain ⟨_, _, header⟩ := bind_ok header
  obtain ⟨_, _, header⟩ := bind_ok header
  obtain ⟨_, _, header⟩ := bind_ok header
  obtain ⟨owner, ownerRead, header⟩ := bind_ok header
  obtain ⟨name, nameRead, -⟩ := bind_ok header
  exact ⟨⟨owner, name, id⟩, ownerRead, nameRead, idRead⟩

/-- The record of a change is named as the gates see the name of its table, by what was known before
the change was read, just where its tags agree with that. -/
theorem assemble_schema?_eq_iff {view : ChangeView} {id : RecordId} {change : Change}
    (ok : (c.assemble view id e).result = .ok change) :
    ∃ tags : TableTags, tags.GivenBy e ∧ ∃ schema, entrySchema c.dictionary e = .ok schema ∧
      ∀ offset, DomainRecord.schema? ⟨offset, .change change⟩ = schema ↔
        tags.Agrees c.dictionary := by
  obtain ⟨tags, given⟩ := exists_givenBy ok
  obtain ⟨_, _, _, described, header, -⟩ := assemble_ofTable ok
  refine ⟨tags, given, _, entrySchema_eq given, fun _ => TableTags.agrees_iff ?_⟩
  rw [ChangeHeader.names_ofEntry given header, resolve_describe given described]

/-- A change that gives the owner alone, as it is known, and describes a column on the way. -/
theorem assemble_schema?_eq_iff_owner_alone :
    let c : Catalog := ⟨Dictionary.empty.put (.new 5 "APP" "EMP" []), .empty⟩
    let tags : List Tag := [⟨0x200, [5], 0⟩, ⟨0x201, [3, 0x505041], 1⟩, ⟨0x300, [1], 2⟩,
      ⟨0x301, [1, 0x41], 3⟩, ⟨0x302, [3, 0x574152], 4⟩, ⟨0x312, [1, 7], 5⟩]
    let e : Entry := ⟨25, 2, 1, 16, tags.foldl Entry.addTag ∅⟩
    ∃ r, (c.assemble .row ⟨1, 2⟩ e).result = .ok (.row r) ∧ r.columns.length = 1 ∧
      entrySchema c.dictionary e = .ok (some "APP.EMP") ∧
      DomainRecord.schema? ⟨⟨1, 16⟩, .change (.row r)⟩ = some "APP.EMP" := by
  intro c tags e
  have ok : (c.assemble .row ⟨1, 2⟩ e).result =
      .ok (.row ⟨⟨.insert, ⟨1, 2⟩, none, 0, none, 5, "APP", "EMP", none⟩,
        [some ⟨1, "A", .raw, .binary [7], none, false, false⟩], false, true⟩) := by decide +kernel
  have gate : entrySchema c.dictionary e = .ok (some "APP.EMP") := by decide +kernel
  obtain ⟨tags, given, schema, seen, named⟩ := assemble_schema?_eq_iff ok
  have own : tags = ⟨some "APP", none, some 5⟩ := by
    have owner : e.text? .objectOwner = .ok (some "APP") := by decide +kernel
    have name : e.text? .objectName = .ok none := by decide +kernel
    have id : e.word? .objectId = .ok (some 5) := by decide +kernel
    obtain ⟨_, _, _⟩ := tags
    cases given.owner.symm.trans owner
    cases given.name.symm.trans name
    cases given.id.symm.trans id
    rfl
  cases gate.symm.trans seen
  exact ⟨_, ok, rfl, gate, (named ⟨1, 16⟩).mpr (own ▸ ⟨rfl, rfl, by decide⟩)⟩

/-- An owner that an entry gives alone is passed over by the gates and taken by the record. -/
theorem named_otherwise :
    let c : Catalog := ⟨Dictionary.empty.put (.new 5 "APP" "EMP" []), .empty⟩
    let e : Entry := ⟨10, 2, 1, 16,
      [⟨0x200, [5], 0⟩, ⟨0x201, [2, 0x5248], 1⟩].foldl Entry.addTag ∅⟩
    ∃ change, (c.assemble .row ⟨1, 2⟩ e).result = .ok change ∧
      entrySchema c.dictionary e = .ok (some "APP.EMP") ∧
      ∀ offset, DomainRecord.schema? ⟨offset, .change change⟩ = some "HR.EMP" :=
  ⟨.row ⟨⟨.insert, ⟨1, 2⟩, none, 0, none, 5, "HR", "EMP", none⟩, [], false, true⟩,
    by decide +kernel, by decide +kernel, fun _ => rfl⟩

end Catalog

end ChangeCapture
