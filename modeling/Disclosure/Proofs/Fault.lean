import Disclosure.Fault

/-!
# Work that may fail

What is known of a result when a piece of work has come through: the pieces before it have come
through too. If it has not, the fault is that of the first piece that failed.
-/

namespace Disclosure.Fault

variable {ε α β : Type} {b : β}

theorem ok_of_bind {x : Except ε α} {f : α → Except ε β} (h : x >>= f = .ok b) :
    ∃ a, x = .ok a ∧ f a = .ok b := by
  cases x with
  | error fault => exact absurd h (by simp [bind, Except.bind])
  | ok a => exact ⟨a, rfl, h⟩

theorem ok_bind {a : α} {f : α → Except ε β} : (Except.ok a >>= f) = f a := rfl

theorem bind_eq_ok_iff {x : Except ε α} {f : α → Except ε β} :
    x >>= f = .ok b ↔ ∃ a, x = .ok a ∧ f a = .ok b := by
  constructor
  · exact ok_of_bind
  · rintro ⟨a, rfl, hf⟩
    exact hf

/-- A fault is that of the first piece, or of the next one after the first has come through. -/
theorem bind_eq_error_iff {x : Except ε α} {f : α → Except ε β} {fault : ε} :
    x >>= f = .error fault ↔ x = .error fault ∨ ∃ a, x = .ok a ∧ f a = .error fault := by
  cases x <;> simp [bind, Except.bind]

theorem map_eq_ok_iff {x : Except ε α} {f : α → β} :
    x.map f = .ok b ↔ ∃ a, x = .ok a ∧ f a = b := by
  cases x <;> simp [Except.map]

theorem map_eq_error_iff {x : Except ε α} {f : α → β} {fault : ε} :
    x.map f = .error fault ↔ x = .error fault := by
  cases x <;> simp [Except.map]

/-- What every step keeps is kept by all of them, one after another. -/
theorem foldlM_keeps {P : β → Prop} {step : β → α → Except ε β} {xs : List α}
    (hstep : ∀ x ∈ xs, ∀ b b', P b → step b x = .ok b' → P b') :
    ∀ {b b' : β}, P b → xs.foldlM step b = .ok b' → P b' := by
  induction xs with
  | nil =>
    intro b b' h hrun
    exact Except.ok.inj hrun ▸ h
  | cons x rest ih =>
    intro b b' h hrun
    obtain ⟨hfirst, hrest⟩ := List.forall_mem_cons.mp hstep
    rw [List.foldlM_cons] at hrun
    obtain ⟨between, hbetween, hlater⟩ := ok_of_bind hrun
    exact ih hrest (hfirst b between h hbetween) hlater

end Disclosure.Fault

namespace Disclosure

theorem ok_of_toOption {ε α : Type} {x : Except ε α} {a : α} (h : x.toOption = some a) :
    x = .ok a := by
  cases x with
  | error e => exact absurd h (by simp [Except.toOption])
  | ok b => exact congrArg Except.ok (Option.some.inj h)

end Disclosure
