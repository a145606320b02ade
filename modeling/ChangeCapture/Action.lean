import ChangeCapture.Failure

/-! Steps that change a state and may fail; what a step changed stays changed when it fails. The
equations below say what a composed step does, without the transformers. -/
namespace ChangeCapture

abbrev Action (σ : Type) := ExceptT Failure (StateM σ)

namespace Action

variable {σ α β : Type}

@[simp] theorem pure_apply (a : α) (s : σ) : (pure a : Action σ α) s = (.ok a, s) := rfl

@[simp] theorem throw_apply (f : Failure) (s : σ) : (throw f : Action σ α) s = (.error f, s) := rfl

theorem bind_apply (x : Action σ α) (f : α → Action σ β) (s : σ) :
    (x >>= f) s = match x s with
      | (.ok a, s') => f a s'
      | (.error e, s') => (.error e, s') := by
  simp only [bind, ExceptT.bind, ExceptT.mk, StateT.bind]
  rcases x s with ⟨⟨e⟩ | ⟨a⟩, s'⟩ <;> rfl

theorem get_bind_apply (f : σ → Action σ β) (s : σ) : (get >>= f) s = f s s := rfl

/-- A result that was reached without looking at the state. -/
def ofExcept (x : Except Failure α) : Action σ α := fun s => (x, s)

@[simp] theorem ofExcept_apply (x : Except Failure α) (s : σ) :
    (ofExcept x : Action σ α) s = (x, s) := rfl

theorem ofExcept_bind_apply (x : Except Failure α) (f : α → Action σ β) (s : σ) :
    (ofExcept x >>= f) s = match x with
      | .ok a => f a s
      | .error e => (.error e, s) := by
  rw [bind_apply, ofExcept_apply]
  cases x <;> rfl

/-- An update that happens as a whole if it is not refused. -/
def outright (f : σ → Except Failure (σ × α)) : Action σ α := fun s =>
  match f s with
  | .ok (s', a) => (.ok a, s')
  | .error failure => (.error failure, s)

theorem outright_error {f : σ → Except Failure (σ × α)} {s s' : σ} {failure : Failure}
    (refused : outright f s = (.error failure, s')) : f s = .error failure ∧ s' = s := by
  unfold outright at refused
  split at refused <;> cases refused
  exact ⟨‹_›, rfl⟩

/-- An update that is refused changes nothing. -/
theorem outright_refused (f : σ → Except Failure (σ × α)) (s : σ) (failure : Failure) :
    (f s = .error failure ↔ (outright f s).1 = .error failure) ∧
      ((outright f s).1 = .error failure → (outright f s).2 = s) := by
  unfold outright
  cases f s with
  | ok => exact ⟨⟨nofun, nofun⟩, nofun⟩
  | error g => exact ⟨⟨by rintro ⟨⟩; rfl, by rintro ⟨⟩; rfl⟩, fun _ => rfl⟩

theorem outright_ok {f : σ → Except Failure (σ × α)} {s s' : σ} {a : α}
    (accepted : outright f s = (.ok a, s')) : f s = .ok (s', a) := by
  unfold outright at accepted
  split at accepted <;> cases accepted
  assumption

end Action

end ChangeCapture
