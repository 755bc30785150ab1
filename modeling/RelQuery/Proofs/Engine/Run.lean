import RelQuery.Engine
import RelQuery.Proofs.Except

/-!
# Computations of engines

How a computation of an engine goes on from its parts: each takes the session that the one before leaves, up to the
first that fails.
-/

namespace RelQuery

open Sql

variable {σ α β : Type}

namespace Run

theorem exec_bind (x : Run σ α) (f : α → Run σ β) (session : Session σ) :
    (x >>= f).exec session =
      match x.exec session with
      | (.ok a, session') => (f a).exec session'
      | (.error e, session') => (.error e, session') := by
  unfold exec
  simp only [bind, ExceptT.bind, ExceptT.mk, StateT.bind]
  rcases x session with ⟨e | a, session'⟩ <;> rfl

theorem exec_bind_eq_ok {x : Run σ α} {f : α → Run σ β} {session session' : Session σ} {b : β} :
    (x >>= f).exec session = (.ok b, session') ↔
      ∃ a next, x.exec session = (.ok a, next) ∧ (f a).exec next = (.ok b, session') := by
  rw [exec_bind]
  rcases x.exec session with ⟨e | a, next⟩
  · simp
  · constructor
    · exact fun h => ⟨a, next, rfl, h⟩
    · rintro ⟨_, _, ⟨⟩, h⟩
      exact h

theorem exec_bind_eq_error {x : Run σ α} {f : α → Run σ β} {session session' : Session σ} {n : NoResult} :
    (x >>= f).exec session = (.error n, session') ↔
      x.exec session = (.error n, session') ∨
        ∃ a next, x.exec session = (.ok a, next) ∧ (f a).exec next = (.error n, session') := by
  rw [exec_bind]
  rcases x.exec session with ⟨e | a, next⟩
  · simp
  · constructor
    · exact fun h => .inr ⟨a, next, rfl, h⟩
    · rintro (⟨⟨⟩⟩ | ⟨_, _, ⟨⟩, h⟩)
      exact h

theorem ext {x y : Run σ α} (h : ∀ session, x.exec session = y.exec session) : x = y :=
  funext h

/-- How a computation goes on matters only where it can come to. -/
theorem bind_congr {x : Run σ α} {f g : α → Run σ β}
    (h : ∀ session a next, x.exec session = (.ok a, next) → f a = g a) : x >>= f = x >>= g := by
  refine ext fun session => ?_
  rw [exec_bind, exec_bind]
  rcases hexec : x.exec session with ⟨n | a, next⟩
  · rfl
  · dsimp only
    rw [h session a next hexec]

theorem exec_ofExcept (r : Except QueryError α) (session : Session σ) : (ofExcept r).exec session = (NoResult.lift r, session) :=
  rfl

theorem exec_ofExcept_eq_ok {r : Except QueryError α} {session session' : Session σ} {a : α} :
    (ofExcept r).exec session = (.ok a, session') ↔ r = .ok a ∧ session = session' := by
  rw [exec_ofExcept, Prod.mk.injEq, NoResult.lift_eq_ok]

theorem exec_onRegistry (step : AliasRegistry → Except NoResult α × AliasRegistry) (session : Session σ) :
    (onRegistry step).exec session = ((step session.registry).1, { session with registry := (step session.registry).2 }) :=
  rfl

end Run

end RelQuery
