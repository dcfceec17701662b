/-
# Forward dataflow in one pass

When every branch of a straight-line program goes forward, instruction order is
a topological order and one pass computes the facts that hold on entry to each
instruction: the fact that falls through from the previous instruction meets
the facts pending from earlier branches to this index.

The pass is generic in the facts, in their meet and in the visit of an
instruction, which may fail and may also fill an accumulator.  `flow_sound`
reads a successful pass back as a table of entry facts closed under every edge.
-/

import BlopDb.Lib.Fault

namespace BlopDb.Lib

/-- Where control goes after an instruction. -/
inductive Exit
  | next
  | jump (target : Nat)
  | branch (target : Nat)
  | stop
  deriving DecidableEq, Repr

namespace Exit

/-- A control-flow edge from an index through its exit. -/
def Edge (source : Nat) : Exit → Nat → Prop
  | next, index => index = source + 1
  | jump target, index => index = target
  | branch target, index => index = target ∨ index = source + 1
  | stop, _ => False

/-- Every explicit target lies strictly after the source and below the limit. -/
def Forward (source limit : Nat) : Exit → Prop
  | jump target | branch target => source < target ∧ target < limit
  | next | stop => True

theorem Forward.lt_of_edge {source limit : Nat} {way : Exit}
    (forward : way.Forward source limit) {target : Nat} (edge : way.Edge source target) :
    source < target := by
  cases way with
  | next =>
      simp only [Edge] at edge
      omega
  | jump aim =>
      simp only [Edge, Forward] at edge forward
      omega
  | branch aim =>
      simp only [Edge, Forward] at edge forward
      omega
  | stop => exact edge.elim

/-- An exit whose edges all go forward and stay below the limit is forward. -/
theorem forward_of_edges {source limit : Nat} {way : Exit}
    (edges : ∀ target, way.Edge source target → source < target ∧ target < limit) :
    way.Forward source limit := by
  cases way with
  | next | stop => trivial
  | jump target => exact edges target rfl
  | branch target => exact edges target (.inl rfl)

end Exit

/-- The state of a pass between two instructions. -/
structure Flow (D A : Type) where
  /-- The fact falling through from the previous instruction. -/
  fallthrough : Option D
  /-- The facts pending for later indices. -/
  pending : Nat → Option D
  /-- What the visits have produced. -/
  acc : A

namespace Flow

variable {D A : Type}

/-- The fact on entry to an index, or none when no edge reaches it. -/
def enter (meet : D → D → D) (flow : Flow D A) (index : Nat) : Option D :=
  match flow.fallthrough, flow.pending index with
  | some current, some incoming => some (meet current incoming)
  | some current, none => some current
  | none, some incoming => some incoming
  | none, none => none

/-- Meet a fact into those pending for a target. -/
def deliver (meet : D → D → D) (pending : Nat → Option D) (target : Nat) (out : D) :
    Nat → Option D :=
  Function.update pending target
    (some (match pending target with
      | some incoming => meet incoming out
      | none => out))

/-- Pass the fact after an instruction on along its exit. -/
def leave (meet : D → D → D) (flow : Flow D A) (out : D) (acc : A) : Exit → Flow D A
  | .next => ⟨some out, flow.pending, acc⟩
  | .jump target => ⟨none, deliver meet flow.pending target out, acc⟩
  | .branch target => ⟨some out, deliver meet flow.pending target out, acc⟩
  | .stop => ⟨none, flow.pending, acc⟩

end Flow

/-- Visit a program in order, threading entry facts and an accumulator. -/
def flow {D A I ε : Type} (meet : D → D → D) (exit : I → Exit) (unreachable : ε)
    (visit : Nat → I → D → A → Except ε (D × A)) :
    Nat → List I → Flow D A → Except ε (Flow D A)
  | _, [], state => .ok state
  | index, instruction :: rest, state =>
      match state.enter meet index with
      | none => .error unreachable
      | some fact => do
          let (out, acc) ← visit index instruction fact state.acc
          flow meet exit unreachable visit (index + 1) rest
            (state.leave meet out acc (exit instruction))

section Soundness

variable {D A I C ε : Type} {meet : D → D → D} {exit : I → Exit} {unreachable : ε}
variable {visit : Nat → I → D → A → Except ε (D × A)}

/-- A property of accumulators that visits keep holds at the end of a pass. -/
theorem flow_acc {P : A → Prop}
    (keeps : ∀ index instruction fact acc out acc',
      visit index instruction fact acc = .ok (out, acc') → P acc → P acc')
    {start : Nat} {program : List I} {state final : Flow D A}
    (ran : flow meet exit unreachable visit start program state = .ok final)
    (holds : P state.acc) : P final.acc := by
  induction program generalizing start state with
  | nil =>
      cases ran
      exact holds
  | cons instruction rest ih =>
      simp only [flow] at ran
      split at ran
      · cases ran
      · obtain ⟨⟨out, acc⟩, visited, ran⟩ := bind_eq_ok.mp ran
        refine ih ran ?_
        have kept := keeps _ _ _ _ _ _ visited holds
        cases exit instruction <;> exact kept

/-- What a successful pass establishes at one index: the visit of the entry fact
succeeded, its accumulator survives to the end, and every edge out of the index
leads to an entry fact that describes all that the exit fact describes. -/
structure Visited (describes : D → C → Prop) (exit : I → Exit)
    (visit : Nat → I → D → A → Except ε (D × A)) (facts : Nat → D) (limit : Nat)
    (final : Flow D A) (index : Nat) (instruction : I) : Prop where
  /-- The successful visit, its result and its edges. -/
  visited : ∃ acc out acc', visit index instruction (facts index) acc = .ok (out, acc') ∧
    (∀ P : A → Prop,
      (∀ i ins d a d' a', visit i ins d a = .ok (d', a') → P a → P a') →
        P acc' → P final.acc) ∧
    ∀ target, (exit instruction).Edge index target →
      (target < limit ∨ (target = limit ∧ final.fallthrough.isSome)) ∧
      ∀ x, describes out x → target < limit → describes (facts target) x

variable {describes : D → C → Prop}

private theorem enter_left
    (meet_left : ∀ a b x, describes a x → describes (meet a b) x)
    {state : Flow D A} {index : Nat} {fact current : D} {x : C}
    (entered : state.enter meet index = some fact) (falls : state.fallthrough = some current)
    (holds : describes current x) : describes fact x := by
  unfold Flow.enter at entered
  rw [falls] at entered
  cases pending : state.pending index with
  | none =>
      rw [pending] at entered
      cases entered
      exact holds
  | some incoming =>
      rw [pending] at entered
      cases entered
      exact meet_left _ _ _ holds

private theorem enter_right
    (meet_right : ∀ a b x, describes b x → describes (meet a b) x)
    {state : Flow D A} {index : Nat} {fact incoming : D} {x : C}
    (entered : state.enter meet index = some fact)
    (pending : state.pending index = some incoming)
    (holds : describes incoming x) : describes fact x := by
  unfold Flow.enter at entered
  rw [pending] at entered
  cases falls : state.fallthrough with
  | none =>
      rw [falls] at entered
      cases entered
      exact holds
  | some current =>
      rw [falls] at entered
      cases entered
      exact meet_right _ _ _ holds

/-- A delivered fact keeps describing whatever the old pending facts described. -/
private theorem deliver_keeps
    (meet_left : ∀ a b x, describes a x → describes (meet a b) x)
    {pending : Nat → Option D} {target index : Nat} {out incoming : D}
    (found : pending index = some incoming) :
    ∃ fact, Flow.deliver meet pending target out index = some fact ∧
      ∀ x, describes incoming x → describes fact x := by
  by_cases heq : index = target
  · subst heq
    refine ⟨meet incoming out, by simp [Flow.deliver, found], fun x => meet_left _ _ _⟩
  · exact ⟨incoming, by simp [Flow.deliver, heq, found], fun _ => id⟩

private theorem deliver_target
    (meet_right : ∀ a b x, describes b x → describes (meet a b) x)
    (pending : Nat → Option D) (target : Nat) (out : D) :
    ∃ fact, Flow.deliver meet pending target out target = some fact ∧
      ∀ x, describes out x → describes fact x := by
  cases found : pending target with
  | none => exact ⟨out, by simp [Flow.deliver, found], fun _ => id⟩
  | some incoming =>
      exact ⟨meet incoming out, by simp [Flow.deliver, found], fun x => meet_right _ _ _⟩

private theorem leave_keeps
    (meet_left : ∀ a b x, describes a x → describes (meet a b) x)
    {state : Flow D A} (out : D) (acc : A) (way : Exit) {index : Nat} {incoming : D}
    (found : state.pending index = some incoming) :
    ∃ fact, (state.leave meet out acc way).pending index = some fact ∧
      ∀ x, describes incoming x → describes fact x := by
  cases way with
  | next | stop => exact ⟨incoming, found, fun _ => id⟩
  | jump target | branch target => exact deliver_keeps meet_left found

/-- The fact leaving an instruction reaches every successor, through the
fallthrough of the rest of the pass or through what is pending there. -/
private theorem leave_edge
    (meet_right : ∀ a b x, describes b x → describes (meet a b) x)
    {limit start : Nat} {rest : List I} {state final : Flow D A} {out : D} {acc : A}
    {way : Exit} {facts : Nat → D}
    (falls : ∀ current x, (state.leave meet out acc way).fallthrough = some current →
      rest ≠ [] → describes current x → describes (facts (start + 1)) x)
    (pends : ∀ index incoming x, start + 1 ≤ index → index < limit →
      (state.leave meet out acc way).pending index = some incoming → describes incoming x →
      describes (facts index) x)
    (ran : flow meet exit unreachable visit (start + 1) rest (state.leave meet out acc way) =
      .ok final)
    (length : start + 1 + rest.length = limit) (ahead : way.Forward start limit)
    {target : Nat} (edge : way.Edge start target) :
    (target < limit ∨ (target = limit ∧ final.fallthrough.isSome)) ∧
      ∀ x, describes out x → target < limit → describes (facts target) x := by
  have through (target : Nat) (next : target = start + 1)
      (leaves : (state.leave meet out acc way).fallthrough = some out) :
      (target < limit ∨ (target = limit ∧ final.fallthrough.isSome)) ∧
        ∀ x, describes out x → target < limit → describes (facts target) x := by
    subst next
    cases rest with
    | nil =>
        cases ran
        simp only [List.length_nil, add_zero] at length
        exact ⟨.inr ⟨length, by simp [leaves]⟩, fun _ _ below => absurd length below.ne⟩
    | cons head tail =>
        simp only [List.length_cons] at length
        exact ⟨.inl (by omega), fun x holds _ => falls out x leaves (by simp) holds⟩
  have delivered (target : Nat) (lower : start < target) (upper : target < limit)
      (leaves : (state.leave meet out acc way).pending =
        Flow.deliver meet state.pending target out) :
      (target < limit ∨ (target = limit ∧ final.fallthrough.isSome)) ∧
        ∀ x, describes out x → target < limit → describes (facts target) x := by
    obtain ⟨fact, found, carried⟩ := deliver_target meet_right state.pending target out
    exact ⟨.inl upper, fun x holds below =>
      pends target fact x lower below (leaves ▸ found) (carried x holds)⟩
  cases way with
  | next => exact through target edge rfl
  | jump aim =>
      cases edge
      exact delivered target ahead.1 ahead.2 rfl
  | branch aim =>
      rcases edge with rfl | next
      · exact delivered target ahead.1 ahead.2 rfl
      · exact through target next rfl
  | stop => exact edge.elim

/-- Soundness of the pass.  The facts on entry to the instructions form a table
that is closed under control flow. -/
theorem flow_sound [Nonempty D]
    (meet_left : ∀ a b x, describes a x → describes (meet a b) x)
    (meet_right : ∀ a b x, describes b x → describes (meet a b) x)
    {limit start : Nat} {program : List I} {state final : Flow D A}
    (length : start + program.length = limit)
    (forward : ∀ k instruction, program[k]? = some instruction → ∀ fact acc result,
      visit (start + k) instruction fact acc = .ok result →
        (exit instruction).Forward (start + k) limit)
    (ran : flow meet exit unreachable visit start program state = .ok final) :
    ∃ facts : Nat → D,
      (∀ current x, state.fallthrough = some current → program ≠ [] →
        describes current x → describes (facts start) x) ∧
      (∀ index incoming x, start ≤ index → index < limit →
        state.pending index = some incoming → describes incoming x →
        describes (facts index) x) ∧
      (∀ k instruction, program[k]? = some instruction →
        Visited describes exit visit facts limit final (start + k) instruction) := by
  -- Induction over the program; the tail supplies all facts after `start`, and
  -- the entry fact of this index is put in front of them.
  induction program generalizing start state with
  | nil =>
      cases ran
      obtain ⟨default⟩ := ‹Nonempty D›
      refine ⟨fun _ => default, by simp, ?_, by simp⟩
      intro index incoming x lower upper
      simp only [List.length_nil, add_zero] at length
      omega
  | cons instruction rest ih =>
      simp only [flow] at ran
      split at ran
      · cases ran
      rename_i fact entered
      obtain ⟨⟨out, acc⟩, visited, ran⟩ := bind_eq_ok.mp ran
      have ahead := forward 0 instruction rfl fact state.acc (out, acc) visited
      simp only [List.length_cons] at length
      obtain ⟨facts, falls, pends, visits⟩ := ih (by omega)
        (fun k ins at_k fact' acc' result done => by
          have := forward (k + 1) ins (by simpa using at_k) fact' acc' result
          rw [show start + (k + 1) = start + 1 + k by omega] at this
          exact this done) ran
      refine ⟨Function.update facts start fact, ?_, ?_, ?_⟩
      · intro current x falls _ holds
        simpa using enter_left meet_left entered falls holds
      · intro index incoming x lower upper pending holds
        by_cases here : index = start
        · subst here
          simpa using enter_right meet_right entered pending holds
        · obtain ⟨later, found, carried⟩ :=
            leave_keeps meet_left out acc (exit instruction) pending
          simpa [here] using
            pends index later x (by omega) upper found (carried x holds)
      · intro k ins at_k
        cases k with
        | zero =>
            cases at_k
            refine ⟨state.acc, out, acc, by simpa using visited, ?_, ?_⟩
            · intro P keeps holds
              refine flow_acc keeps ran ?_
              cases exit instruction <;> exact holds
            · intro target edge
              have beyond : start < target := ahead.lt_of_edge edge
              have bounded := leave_edge meet_right falls pends ran (by omega) ahead edge
              refine ⟨by simpa using bounded.1, fun x holds below => ?_⟩
              simpa [beyond.ne'] using bounded.2 x holds below
        | succ k =>
            have earlier := visits k ins (by simpa using at_k)
            rw [show start + 1 + k = start + (k + 1) by omega] at earlier
            obtain ⟨acc₀, out₀, acc₁, done, survives, edges⟩ := earlier
            refine ⟨acc₀, out₀, acc₁, ?_, survives, fun target edge => ?_⟩
            · simpa [Function.update_of_ne (show start + (k + 1) ≠ start by omega)] using done
            · have beyond := (forward (k + 1) ins at_k _ _ _ done).lt_of_edge edge
              have elsewhere : target ≠ start := by omega
              simpa [elsewhere] using edges target edge

end Soundness

section Completeness

variable {D A I ε : Type} {meet : D → D → D} {exit : I → Exit} {unreachable : ε}
variable {visit : Nat → I → D → A → Except ε (D × A)} {le : D → D → Prop}

/-- What a table of facts must say at one index: every stronger fact is visited, and
every edge goes forward, stays below the limit and leads to a weaker fact. -/
structure Certified (le : D → D → Prop) (exit : I → Exit)
    (visit : Nat → I → D → A → Except ε (D × A)) (facts : Nat → D) (limit index : Nat)
    (instruction : I) : Prop where
  visits : ∀ fact acc, le (facts index) fact → ∃ out acc',
    visit index instruction fact acc = .ok (out, acc') ∧
      ∀ target, (exit instruction).Edge index target → le (facts target) out
  edges : ∀ target, (exit instruction).Edge index target → index < target ∧ target < limit

/-- An index is reached through an instruction of the program or by a state. -/
def Reached (exit : I → Exit) (start : Nat) (program : List I) (state : Flow D A) (index : Nat) : Prop :=
  (∃ k instruction, program[k]? = some instruction ∧ (exit instruction).Edge (start + k) index) ∨
    (state.pending index).isSome ∨ (index = start ∧ state.fallthrough.isSome)

private theorem le_deliver (le_meet : ∀ lower a b, le lower a → le lower b → le lower (meet a b))
    {pending : Nat → Option D} {target index : Nat} {out fact lower : D}
    (old : ∀ fact, pending index = some fact → le lower fact) (new : index = target → le lower out)
    (found : Flow.deliver meet pending target out index = some fact) : le lower fact := by
  by_cases same : index = target
  · subst same
    simp only [Flow.deliver, Function.update_self, Option.some.injEq] at found
    subst found
    cases known : pending index with
    | none => exact new rfl
    | some incoming => exact le_meet _ _ _ (old incoming known) (new rfl)
  · rw [Flow.deliver, Function.update_of_ne same] at found
    exact old fact found

private theorem isSome_deliver {pending : Nat → Option D} {target index : Nat} {out : D}
    (reached : (pending index).isSome ∨ index = target) :
    (Flow.deliver meet pending target out index).isSome := by
  by_cases same : index = target
  · subst same
    simp [Flow.deliver]
  · rw [Flow.deliver, Function.update_of_ne same]
    exact reached.resolve_right same

private theorem leave_falls (start : Nat) {state : Flow D A} {out fact : D} {acc : A} {way : Exit}
    (falling : (state.leave meet out acc way).fallthrough = some fact) :
    out = fact ∧ way.Edge start (start + 1) := by
  cases way with
  | next => exact ⟨Option.some.inj falling, rfl⟩
  | branch target => exact ⟨Option.some.inj falling, .inr rfl⟩
  | jump target | stop => cases falling

private theorem leave_pends (le_meet : ∀ lower a b, le lower a → le lower b → le lower (meet a b))
    {start index : Nat} {state : Flow D A} {out fact lower : D} {acc : A} {way : Exit}
    (old : ∀ fact, state.pending index = some fact → le lower fact)
    (new : way.Edge start index → le lower out)
    (pending : (state.leave meet out acc way).pending index = some fact) : le lower fact := by
  cases way with
  | next | stop => exact old fact pending
  | jump target => exact le_deliver le_meet old new pending
  | branch target => exact le_deliver le_meet old (fun same => new (.inl same)) pending

private theorem leave_reaches {start index : Nat} {state : Flow D A} (out : D) (acc : A) {way : Exit}
    (reached : (state.pending index).isSome ∨ way.Edge start index) :
    ((state.leave meet out acc way).pending index).isSome ∨
      (index = start + 1 ∧ (state.leave meet out acc way).fallthrough.isSome) := by
  cases way with
  | next => exact reached.imp id fun edge => ⟨edge, rfl⟩
  | jump target => exact .inl (isSome_deliver reached)
  | branch target =>
      rcases reached with pending | same | edge
      · exact .inl (isSome_deliver (.inl pending))
      · exact .inl (isSome_deliver (.inr same))
      · exact .inr ⟨edge, rfl⟩
  | stop => exact reached.imp id False.elim

/-- Completeness of the pass.  It succeeds on a certified program in which every
instruction is reached, and nothing falls off its end. -/
theorem flow_complete (le_meet : ∀ lower a b, le lower a → le lower b → le lower (meet a b))
    {facts : Nat → D} {limit start : Nat} {program : List I} {state : Flow D A}
    (length : start + program.length = limit)
    (certified : ∀ k instruction, program[k]? = some instruction →
      Certified le exit visit facts limit (start + k) instruction)
    (falls : ∀ fact, state.fallthrough = some fact → start < limit ∧ le (facts start) fact)
    (pends : ∀ index fact, start ≤ index → state.pending index = some fact → le (facts index) fact)
    (reached : ∀ index, start ≤ index → index < limit → Reached exit start program state index) :
    ∃ final, flow meet exit unreachable visit start program state = .ok final ∧
      final.fallthrough = none := by
  induction program generalizing start state with
  | nil =>
      refine ⟨state, rfl, ?_⟩
      cases falling : state.fallthrough with
      | none => rfl
      | some fact =>
          have := (falls fact falling).1
          simp only [List.length_nil] at length
          omega
  | cons instruction rest ih =>
      simp only [List.length_cons] at length
      have here : Certified le exit visit facts limit start instruction := certified 0 instruction rfl
      -- Nothing later leads back to this index, so the state reaches it.
      obtain ⟨fact, entered, strong⟩ : ∃ fact, state.enter meet start = some fact ∧ le (facts start) fact := by
        have arrives : (state.pending start).isSome ∨ state.fallthrough.isSome := by
          rcases reached start le_rfl (by omega) with ⟨k, other, found, edge⟩ | pending | ⟨-, falling⟩
          · have late := ((certified k other found).edges start edge).1
            omega
          · exact .inl pending
          · exact .inr falling
        unfold Flow.enter
        cases falling : state.fallthrough with
        | none =>
            cases pending : state.pending start with
            | none => simp [falling, pending] at arrives
            | some incoming => exact ⟨incoming, rfl, pends start incoming le_rfl pending⟩
        | some current =>
            have first := (falls current falling).2
            cases pending : state.pending start with
            | none => exact ⟨current, rfl, first⟩
            | some incoming => exact ⟨_, rfl, le_meet _ _ _ first (pends start incoming le_rfl pending)⟩
      obtain ⟨out, acc, visited, weaker⟩ := here.visits fact state.acc strong
      simp only [flow, entered]
      rw [visited, ok_bind]
      refine ih (by omega) (fun k other found => ?_) ?_ ?_ ?_
      · have later := certified (k + 1) other (by simpa using found)
        rwa [show start + (k + 1) = start + 1 + k by omega] at later
      · intro fact falling
        obtain ⟨rfl, edge⟩ := leave_falls start falling
        exact ⟨(here.edges _ edge).2, weaker _ edge⟩
      · intro index fact later pending
        exact leave_pends le_meet (fun fact => pends index fact (by omega)) (weaker index) pending
      · intro index later below
        rcases reached index (by omega) below with ⟨k, other, found, edge⟩ | pending | ⟨same, -⟩
        · cases k with
          | zero =>
              cases found
              exact .inr (leave_reaches out acc (.inr edge))
          | succ k =>
              rw [show start + (k + 1) = start + 1 + k by omega] at edge
              exact .inl ⟨k, other, by simpa using found, edge⟩
        · exact .inr (leave_reaches out acc (.inl pending))
        · omega

end Completeness

end BlopDb.Lib
