/-
# Computations that update in place

A computation over a mutable state can fail half way and leaves the state as it is
at the failure.  Such a computation simulates a pure one when they return related
results, or fail alike in a state that keeps a property.  A computation ends well when
every result, and every state that a failure leaves, has its property.
-/

import BlopDb.Lib.Fault

namespace BlopDb.Lib

/-- A computation that updates a state and keeps it when it fails. -/
def InPlace (ε σ α : Type) := σ → Except (Fault ε) α × σ

variable {ε σ α β γ δ : Type}

namespace InPlace

/-- Run from a state. -/
def runOn (computation : InPlace ε σ α) (state : σ) : Except (Fault ε) α × σ := computation state

instance : Monad (InPlace ε σ) where
  pure value := fun state => (.ok value, state)
  bind first next := fun state =>
    match first state with
    | (.ok value, state) => next value state
    | (.error fault, state) => (.error fault, state)

/-- A computation that leaves the state alone. -/
def lift (result : Except (Fault ε) α) : InPlace ε σ α := fun state => (result, state)

/-- Return what a function reads of the state. -/
def read (function : σ → α) : InPlace ε σ α := fun state => (.ok (function state), state)

/-- Change the state. -/
def update (function : σ → σ) : InPlace ε σ Unit := fun state => (.ok (), function state)

theorem runOn_bind (first : InPlace ε σ α) (next : α → InPlace ε σ β) (state : σ) :
    (first >>= next).runOn state =
      match first.runOn state with
      | (.ok value, state) => (next value).runOn state
      | (.error fault, state) => (.error fault, state) := rfl

end InPlace

/-- Related results, or the same failure in a state that keeps a property. -/
def Simulates (kept : σ → Prop) (run : Except (Fault ε) α × σ) (result : Except (Fault ε) β)
    (related : β → α → σ → Prop) : Prop :=
  match result, run with
  | .ok pure, (.ok value, state) => related pure value state
  | .error fault, (.error fault', state) => fault' = fault ∧ kept state
  | _, _ => False

namespace Simulates

variable {kept : σ → Prop} {related : β → α → σ → Prop} {related' : δ → γ → σ → Prop} {state : σ}

theorem bind {first : InPlace ε σ α} {next : α → InPlace ε σ γ} {pure : Except (Fault ε) β}
    {then' : β → Except (Fault ε) δ} (simulates : Simulates kept (first.runOn state) pure related)
    (continues : ∀ value value' state, related value value' state →
      Simulates kept ((next value').runOn state) (then' value) related') :
    Simulates kept ((first >>= next).runOn state) (pure >>= then') related' := by
  rw [InPlace.runOn_bind]
  match pure, first.runOn state, simulates with
  | .ok value, (.ok value', after), holds => exact continues value value' after holds
  | .error fault, (.error fault', after), ⟨same, holds⟩ => exact ⟨same, holds⟩

/-- A pure part is the same on both sides. -/
theorem bind_lift {part : Except (Fault ε) α} {next : α → InPlace ε σ γ} {then' : α → Except (Fault ε) δ}
    (keeps : kept state) (continues : ∀ value, part = .ok value →
      Simulates kept ((next value).runOn state) (then' value) related') :
    Simulates kept ((InPlace.lift part >>= next).runOn state) (part >>= then') related' := by
  rw [InPlace.runOn_bind]
  cases part with
  | ok value => exact continues value rfl
  | error fault => exact ⟨rfl, keeps⟩

theorem bind_read {function : σ → α} {next : α → InPlace ε σ γ} {pure : Except (Fault ε) δ}
    (continues : Simulates kept ((next (function state)).runOn state) pure related') :
    Simulates kept ((InPlace.read function >>= next).runOn state) pure related' := by
  rw [InPlace.runOn_bind]
  exact continues

theorem bind_update {function : σ → σ} {next : Unit → InPlace ε σ γ} {pure : Except (Fault ε) δ}
    (continues : Simulates kept ((next ()).runOn (function state)) pure related') :
    Simulates kept ((InPlace.update function >>= next).runOn state) pure related' := by
  rw [InPlace.runOn_bind]
  exact continues

theorem fail {fault : Fault ε} (keeps : kept state) :
    Simulates kept ((InPlace.lift (.error fault) : InPlace ε σ α).runOn state) (.error fault) related :=
  ⟨rfl, keeps⟩

theorem of_ok {run : Except (Fault ε) α × σ} {pure : Except (Fault ε) β} {value : β}
    (simulates : Simulates kept run pure related) (returns : pure = .ok value) :
    ∃ value' after, run = (.ok value', after) ∧ related value value' after := by
  subst returns
  match run, simulates with
  | (.ok value', after), holds => exact ⟨value', after, rfl, holds⟩

theorem of_error {run : Except (Fault ε) α × σ} {pure : Except (Fault ε) β} {fault : Fault ε}
    (simulates : Simulates kept run pure related) (fails : pure = .error fault) :
    ∃ after, run = (.error fault, after) ∧ kept after := by
  subst fails
  match run, simulates with
  | (.error fault', after), ⟨same, holds⟩ => exact ⟨after, by rw [same], holds⟩

end Simulates

/-- A result with a property, or a failure in a state that keeps one. -/
def Ends (kept : σ → Prop) (run : Except (Fault ε) α × σ) (post : α → σ → Prop) : Prop :=
  match run with
  | (.ok value, state) => post value state
  | (.error _, state) => kept state

namespace Ends

variable {kept : σ → Prop} {post : α → σ → Prop} {post' : γ → σ → Prop} {state : σ}

theorem bind {first : InPlace ε σ α} {next : α → InPlace ε σ γ} (ends : Ends kept (first.runOn state) post)
    (continues : ∀ value state, post value state → Ends kept ((next value).runOn state) post') :
    Ends kept ((first >>= next).runOn state) post' := by
  rw [InPlace.runOn_bind]
  match first.runOn state, ends with
  | (.ok value, after), holds => exact continues value after holds
  | (.error fault, after), holds => exact holds

theorem bind_lift {part : Except (Fault ε) α} {next : α → InPlace ε σ γ} (keeps : kept state)
    (continues : ∀ value, part = .ok value → Ends kept ((next value).runOn state) post') :
    Ends kept ((InPlace.lift part >>= next).runOn state) post' := by
  rw [InPlace.runOn_bind]
  cases part with
  | ok value => exact continues value rfl
  | error fault => exact keeps

theorem bind_read {function : σ → α} {next : α → InPlace ε σ γ}
    (continues : Ends kept ((next (function state)).runOn state) post') :
    Ends kept ((InPlace.read function >>= next).runOn state) post' := by
  rw [InPlace.runOn_bind]
  exact continues

theorem bind_update {function : σ → σ} {next : Unit → InPlace ε σ γ}
    (continues : Ends kept ((next ()).runOn (function state)) post') :
    Ends kept ((InPlace.update function >>= next).runOn state) post' := by
  rw [InPlace.runOn_bind]
  exact continues

theorem fail {fault : Fault ε} (keeps : kept state) :
    Ends kept ((InPlace.lift (.error fault) : InPlace ε σ α).runOn state) post := keeps

theorem weaken {run : Except (Fault ε) α × σ} {kept' : σ → Prop} {post' : α → σ → Prop}
    (ends : Ends kept run post) (keeps : ∀ state, kept state → kept' state)
    (posts : ∀ value state, post value state → post' value state) : Ends kept' run post' := by
  match run, ends with
  | (.ok value, after), holds => exact posts value after holds
  | (.error fault, after), holds => exact keeps after holds

/-- What both ways to end leave of the state. -/
theorem leaves {run : Except (Fault ε) α × σ} (ends : Ends kept run fun _ => kept) : kept run.2 := by
  match run, ends with
  | (.ok value, after), holds => exact holds
  | (.error fault, after), holds => exact holds

end Ends

end BlopDb.Lib
