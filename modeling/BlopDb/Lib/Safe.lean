/-
# Safe computations

A computation is safe when it never panics, its result meets a postcondition and
every error it reports is allowed.  Safety composes along binds, so a long
computation is checked one call at a time from the specification of each call.
-/

import BlopDb.Lib.Fault

namespace BlopDb.Lib

variable {ε δ α β : Type}

/-- No panic, a postcondition on results and a condition on reported errors. -/
def Safe (result : Except (Fault ε) α) (post : α → Prop) (allowed : ε → Prop) : Prop :=
  match result with
  | .ok value => post value
  | .error (.raised error) => allowed error
  | .error .panic => False

namespace Safe

variable {post : α → Prop} {allowed : ε → Prop}

theorem ok {value : α} (holds : post value) :
    Safe (.ok value : Except (Fault ε) α) post allowed := holds

theorem ret {value : α} (holds : post value) :
    Safe (pure value : Except (Fault ε) α) post allowed := holds

theorem raised {error : ε} (holds : allowed error) :
    Safe (.error (.raised error) : Except (Fault ε) α) post allowed := holds

theorem of_eq_ok {result : Except (Fault ε) α} {value : α} (returns : result = .ok value)
    (holds : post value) : Safe result post allowed := by
  subst returns
  exact holds

/-- Sequencing: the second computation may rely on what the first ensures. -/
theorem bind {middle : α → Prop} {final : β → Prop} {first : Except (Fault ε) α}
    {next : α → Except (Fault ε) β} (safe : Safe first middle allowed)
    (continues : ∀ value, middle value → Safe (next value) final allowed) :
    Safe (first >>= next) final allowed := by
  match first, safe with
  | .ok value, holds => exact continues value holds
  | .error (.raised _), holds => exact holds
  | .error .panic, holds => exact holds.elim

theorem mono {post' : α → Prop} {allowed' : ε → Prop} {result : Except (Fault ε) α}
    (safe : Safe result post allowed) (posts : ∀ value, post value → post' value)
    (errors : ∀ error, allowed error → allowed' error) : Safe result post' allowed' := by
  match result, safe with
  | .ok value, holds => exact posts value holds
  | .error (.raised error), holds => exact errors error holds

theorem weaken {post' : α → Prop} {result : Except (Fault ε) α} (safe : Safe result post allowed)
    (posts : ∀ value, post value → post' value) : Safe result post' allowed :=
  safe.mono posts fun _ => id

theorem of_ok {result : Except (Fault ε) α} {value : α} (safe : Safe result post allowed)
    (returns : result = .ok value) : post value := by
  subst returns
  exact safe

theorem ne_panic {result : Except (Fault ε) α} (safe : Safe result post allowed) :
    result ≠ .error .panic := by
  rintro rfl
  exact safe

/-- Reporting the errors of a computation that cannot panic. -/
theorem raise {into : δ → ε} {result : Except δ α} (posts : ∀ value, result = .ok value → post value)
    (errors : ∀ error, result = .error error → allowed (into error)) :
    Safe (Lib.raise into result) post allowed := by
  cases result with
  | ok value => exact posts value rfl
  | error error => exact errors error rfl

/-- Continue after a computation whose result is known. -/
theorem bind_of_eq {final : β → Prop} {first : Except (Fault ε) α} {value : α}
    {next : α → Except (Fault ε) β} (returns : first = .ok value)
    (continues : Safe (next value) final allowed) : Safe (first >>= next) final allowed := by
  subst returns
  exact continues

theorem bind_index {final : β → Prop} {list : List α} {position : Nat} {value : α}
    {next : α → Except (Fault ε) β} (found : list[position]? = some value)
    (continues : Safe (next value) final allowed) :
    Safe (Lib.index list position >>= next) final allowed :=
  bind_of_eq (index_eq_ok.mpr found) continues

theorem bind_addChecked {final : β → Prop} {left right : Nat} {next : Nat → Except (Fault ε) β}
    (small : left + right < 2 ^ 64) (continues : Safe (next (left + right)) final allowed) :
    Safe (Lib.addChecked left right >>= next) final allowed :=
  bind_of_eq (addChecked_of_lt small) continues

theorem bind_subChecked {final : β → Prop} {left right : Nat} {next : Nat → Except (Fault ε) β}
    (order : right ≤ left) (continues : Safe (next (left - right)) final allowed) :
    Safe (Lib.subChecked left right >>= next) final allowed :=
  bind_of_eq (subChecked_of_le order) continues

end Safe

end BlopDb.Lib
