/-
# Computations in lockstep

Two computations run in lockstep from a state and its image when they fail with the
same error, or both return and the second state is again the image of the first.
Beside this the first state keeps an invariant and only grows.
-/

import BlopDb.Lib.Fault
import Mathlib.Order.Defs.Unbundled

namespace BlopDb.Lib

variable {ε σ τ α β γ δ : Type}

/-- Equal failures, or results related by a postcondition in states that correspond. -/
inductive Lockstep (view : σ → τ) (sound : σ → Prop) (grows : σ → σ → Prop) (state : σ)
    (first : StateT σ (Except ε) α) (second : StateT τ (Except ε) β) (post : α → β → σ → Prop) : Prop
  | fails (error : ε) (left : first state = .error error) (right : second (view state) = .error error)
  | returns (value : α) (value' : β) (after : σ) (left : first state = .ok (value, after))
      (right : second (view state) = .ok (value', view after)) (sound : sound after)
      (grows : grows state after) (holds : post value value' after)

namespace Lockstep

variable {view : σ → τ} {sound : σ → Prop} {grows : σ → σ → Prop} {state : σ}
  {first : StateT σ (Except ε) α} {second : StateT τ (Except ε) β}
  {post : α → β → σ → Prop} {post' : γ → δ → σ → Prop}

theorem weaken {weaker : α → β → σ → Prop} (runs : Lockstep view sound grows state first second post)
    (implies : ∀ value value' after, sound after → post value value' after → weaker value value' after) :
    Lockstep view sound grows state first second weaker := by
  cases runs with
  | fails error left right => exact .fails error left right
  | returns value value' after left right keeps more holds =>
      exact .returns value value' after left right keeps more (implies value value' after keeps holds)

/-- The first run returned, so the second did. -/
theorem of_ok (runs : Lockstep view sound grows state first second post) {value : α} {after : σ}
    (returned : first state = .ok (value, after)) :
    ∃ value', second (view state) = .ok (value', view after) ∧ sound after ∧ grows state after ∧
      post value value' after := by
  cases runs with
  | fails error left right =>
      rw [left] at returned
      cases returned
  | returns value value' after left right keeps more holds =>
      rw [left] at returned
      cases returned
      exact ⟨value', right, keeps, more, holds⟩

theorem throw (error : ε) :
    Lockstep view sound grows state (fun _ => .error error : StateT σ (Except ε) α)
      (fun _ => .error error : StateT τ (Except ε) β) post :=
  .fails error rfl rfl

theorem bind_apply (next : α → StateT σ (Except ε) γ) (state : σ) :
    (first >>= next) state = first state >>= fun result => next result.1 result.2 := rfl

/-- Reading the state gives the image to the second run. -/
theorem bind_get {next : σ → StateT σ (Except ε) γ} {next' : τ → StateT τ (Except ε) δ}
    (continues : Lockstep view sound grows state (next state) (next' (view state)) post') :
    Lockstep view sound grows state (get >>= next) (get >>= next') post' := by
  cases continues with
  | fails error left right => exact .fails error left right
  | returns value value' after left right keeps more holds =>
      exact .returns value value' after left right keeps more holds

/-- A part that leaves the states alone. -/
theorem bind_stay {next : α → StateT σ (Except ε) γ} {next' : β → StateT τ (Except ε) δ} {value : α}
    {value' : β} (left : first state = .ok (value, state)) (right : second (view state) = .ok (value', view state))
    (continues : Lockstep view sound grows state (next value) (next' value') post') :
    Lockstep view sound grows state (first >>= next) (second >>= next') post' := by
  have start : (first >>= next) state = next value state := by
    rw [bind_apply, left]
    rfl
  have start' : (second >>= next') (view state) = next' value' (view state) := by
    rw [bind_apply, right]
    rfl
  cases continues with
  | fails error left right => exact .fails error (start.trans left) (start'.trans right)
  | returns result result' after left right keeps more holds =>
      exact .returns result result' after (start.trans left) (start'.trans right) keeps more holds

/-- A part that fails. -/
theorem bind_fails {next : α → StateT σ (Except ε) γ} {next' : β → StateT τ (Except ε) δ} {error : ε}
    (left : first state = .error error) (right : second (view state) = .error error) :
    Lockstep view sound grows state (first >>= next) (second >>= next') post' := by
  refine .fails error ?_ ?_
  · rw [bind_apply, left]
    rfl
  · rw [bind_apply, right]
    rfl

section Preorder

variable [IsPreorder σ grows]

theorem pure {value : α} {value' : β} (keeps : sound state) (holds : post value value' state) :
    Lockstep view sound grows state (Pure.pure value : StateT σ (Except ε) α)
      (Pure.pure value' : StateT τ (Except ε) β) post :=
  .returns value value' state rfl rfl keeps (refl_of grows state) holds

/-- The states and results of the first part start the second. -/
theorem bind {next : α → StateT σ (Except ε) γ} {next' : β → StateT τ (Except ε) δ}
    (runs : Lockstep view sound grows state first second post)
    (continues : ∀ value value' after, sound after → grows state after → post value value' after →
      Lockstep view sound grows after (next value) (next' value') post') :
    Lockstep view sound grows state (first >>= next) (second >>= next') post' := by
  cases runs with
  | fails error left right => exact bind_fails left right
  | returns value value' after left right keeps more holds =>
      have start : (first >>= next) state = next value after := by
        rw [bind_apply, left]
        rfl
      have start' : (second >>= next') (view state) = next' value' (view after) := by
        rw [bind_apply, right]
        rfl
      cases continues value value' after keeps more holds with
      | fails error left right => exact .fails error (start.trans left) (start'.trans right)
      | returns result result' last left right keeps later holds =>
          exact .returns result result' last (start.trans left) (start'.trans right) keeps
            (trans_of grows more later) holds

/-- A change of the state before the rest. -/
theorem bind_update {change : σ → σ} {change' : τ → τ} {next : PUnit → StateT σ (Except ε) γ}
    {next' : PUnit → StateT τ (Except ε) δ} (image : change' (view state) = view (change state))
    (more : grows state (change state))
    (continues : Lockstep view sound grows (change state) (next ⟨⟩) (next' ⟨⟩) post') :
    Lockstep view sound grows state (modify change >>= next) (modify change' >>= next') post' := by
  have start : (modify change' >>= next') (view state) = next' ⟨⟩ (view (change state)) := by
    rw [← image]
    rfl
  cases continues with
  | fails error left right => exact .fails error left (start.trans right)
  | returns value value' after left right keeps later holds =>
      exact .returns value value' after left (start.trans right) keeps (trans_of grows more later) holds

end Preorder

theorem update {change : σ → σ} {change' : τ → τ} {post : PUnit → PUnit → σ → Prop}
    (image : change' (view state) = view (change state)) (keeps : sound (change state))
    (more : grows state (change state)) (holds : post ⟨⟩ ⟨⟩ (change state)) :
    Lockstep view sound grows state (modify change : StateT σ (Except ε) PUnit)
      (modify change' : StateT τ (Except ε) PUnit) post :=
  .returns ⟨⟩ ⟨⟩ (change state) rfl (congrArg (fun state => Except.ok (PUnit.unit, state)) image) keeps more
    holds

end Lockstep

end BlopDb.Lib
