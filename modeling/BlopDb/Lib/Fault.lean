/-
# Computations that can fail or panic

Fallible code returns `Except`.  Code that can also reach an unreachable arm, an
index out of range or an arithmetic overflow returns `Except (Fault ε)`, in
which a panic is a result of its own and never confused with a reported error.
The bind laws here peel such computations apart one call at a time.
-/

import Mathlib.Tactic

namespace BlopDb.Lib

/-- A reported error, or a panic of the executing thread. -/
inductive Fault (ε : Type)
  | raised (error : ε)
  | panic
  deriving DecidableEq, Repr

/-- Report an error of a computation that never panics. -/
def raise {ε δ α : Type} (into : ε → δ) : Except ε α → Except (Fault δ) α
  | .ok value => .ok value
  | .error error => .error (.raised (into error))

/-- Report the errors of a computation as errors of another kind. -/
def relay {ε δ α : Type} (into : ε → δ) : Except (Fault ε) α → Except (Fault δ) α
  | .ok value => .ok value
  | .error (.raised error) => .error (.raised (into error))
  | .error .panic => .error .panic

/-- Fail with an error when a condition holds. -/
def refuse {ε : Type} (bad : Prop) [Decidable bad] (error : ε) : Except ε Unit :=
  if bad then .error error else .ok ()

/-- The value at an index, or a panic when the index is out of range. -/
def index {ε α : Type} (list : List α) (position : Nat) : Except (Fault ε) α :=
  match list[position]? with
  | some value => .ok value
  | none => .error .panic

/-- Unsigned subtraction, which panics below zero. -/
def subChecked {ε : Type} (left right : Nat) : Except (Fault ε) Nat :=
  if right ≤ left then .ok (left - right) else .error .panic

/-- Addition of 64-bit unsigned integers, which panics on overflow. -/
def addChecked {ε : Type} (left right : Nat) : Except (Fault ε) Nat :=
  if left + right < 2 ^ 64 then .ok (left + right) else .error .panic

section Bind

variable {ε α β : Type}

theorem bind_eq_ok {x : Except ε α} {f : α → Except ε β} {result : β} :
    (x >>= f) = .ok result ↔ ∃ value, x = .ok value ∧ f value = .ok result := by
  cases x with
  | error e => simp [bind, Except.bind]
  | ok value => simp [bind, Except.bind]

theorem bind_eq_error {x : Except ε α} {f : α → Except ε β} {error : ε} :
    (x >>= f) = .error error ↔
      x = .error error ∨ ∃ value, x = .ok value ∧ f value = .error error := by
  cases x with
  | error e => simp [bind, Except.bind]
  | ok value => simp [bind, Except.bind]

/-- Two computations that continue alike from every result of the first. -/
theorem bind_congr_ok {x : Except ε α} {f g : α → Except ε β}
    (same : ∀ value, x = .ok value → f value = g value) : (x >>= f) = (x >>= g) := by
  cases x with
  | error e => rfl
  | ok value => exact same value rfl

@[simp]
theorem ok_bind (value : α) (f : α → Except ε β) : (Except.ok value >>= f) = f value := rfl

@[simp]
theorem error_bind (error : ε) (f : α → Except ε β) :
    ((Except.error error : Except ε α) >>= f) = .error error := rfl

@[simp]
theorem pure_eq_ok (value : α) : (pure value : Except ε α) = .ok value := rfl

@[simp]
theorem throw_eq_error (error : ε) : (throw error : Except ε α) = .error error := rfl

theorem mapError_eq_ok {δ : Type} {into : ε → δ} {result : Except ε α} {value : α} :
    result.mapError into = .ok value ↔ result = .ok value := by
  cases result <;> simp [Except.mapError]

theorem mapError_eq_error {δ : Type} {into : ε → δ} {result : Except ε α} {error : δ} :
    result.mapError into = .error error ↔ ∃ reason, result = .error reason ∧ into reason = error := by
  cases result <;> simp [Except.mapError]

end Bind

section Primitives

variable {ε δ α : Type}

@[simp]
theorem raise_ok (into : ε → δ) (value : α) : raise into (.ok value) = .ok value := rfl

@[simp]
theorem raise_error (into : ε → δ) (error : ε) :
    raise into (.error error : Except ε α) = .error (.raised (into error)) := rfl

theorem raise_bind {β : Type} (into : ε → δ) (x : Except ε α) (f : α → Except ε β) :
    raise into (x >>= f) = raise into x >>= fun value => raise into (f value) := by
  cases x <;> rfl

theorem raise_eq_ok {into : ε → δ} {x : Except ε α} {value : α} :
    raise into x = .ok value ↔ x = .ok value := by
  cases x <;> simp

theorem raise_ne_panic {into : ε → δ} {x : Except ε α} :
    raise into x ≠ .error .panic := by
  cases x <;> simp

@[simp]
theorem relay_ok (into : ε → δ) (value : α) : relay into (.ok value) = .ok value := rfl

@[simp]
theorem relay_raise {ζ : Type} (into : ε → δ) (into' : ζ → ε) (x : Except ζ α) :
    relay into (raise into' x) = raise (into ∘ into') x := by
  cases x <;> rfl

theorem refuse_eq_ok {bad : Prop} [Decidable bad] {error : ε} {done : Unit} :
    refuse bad error = .ok done ↔ ¬ bad := by
  unfold refuse
  split_ifs with h <;> simp [h]

theorem refuse_eq_error {bad : Prop} [Decidable bad] {error error' : ε} :
    refuse bad error = .error error' ↔ bad ∧ error = error' := by
  unfold refuse
  split <;> simp_all

theorem refuse_of_not {bad : Prop} [Decidable bad] (error : ε) (h : ¬ bad) :
    refuse bad error = .ok () := if_neg h

@[simp]
theorem refuse_false [Decidable False] (error : ε) : refuse False error = .ok () :=
  if_neg not_false

theorem refuse_of {bad : Prop} [Decidable bad] (error : ε) (h : bad) :
    refuse bad error = .error error := if_pos h

theorem index_eq_ok {list : List α} {position : Nat} {value : α} :
    (index list position : Except (Fault ε) α) = .ok value ↔ list[position]? = some value := by
  unfold index
  cases list[position]? <;> simp

theorem subChecked_of_le {left right : Nat} (h : right ≤ left) :
    (subChecked left right : Except (Fault ε) Nat) = .ok (left - right) := if_pos h

theorem addChecked_of_lt {left right : Nat} (h : left + right < 2 ^ 64) :
    (addChecked left right : Except (Fault ε) Nat) = .ok (left + right) := if_pos h

theorem subChecked_eq_ok {left right result : Nat} :
    (subChecked left right : Except (Fault ε) Nat) = .ok result ↔
      right ≤ left ∧ result = left - right := by
  unfold subChecked
  split_ifs with h <;> simp [h, eq_comm]

theorem addChecked_eq_ok {left right result : Nat} :
    (addChecked left right : Except (Fault ε) Nat) = .ok result ↔
      left + right < 2 ^ 64 ∧ result = left + right := by
  unfold addChecked
  split_ifs with h
  · simp only [Except.ok.injEq, h, true_and, eq_comm]
  · simp only [h, false_and]

end Primitives

end BlopDb.Lib
