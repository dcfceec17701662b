/-
# Compiled statements

Statements and whole bodies keep the invariant of the compiler and run in lockstep
under a renumbering of the tables.  A block that ends has emitted an instruction.
-/

import BlopDb.Macros.ExprSound

namespace BlopDb.Macros

open BlopDb.Lib
open Vm (Ty)

/-- A target under another numbering. -/
def Target.rename (rename : Nat → Nat) : Target → Target
  | .variable register => .variable register
  | .row table key => .row (table.rename rename) key

/-- The target has existing registers and a declared table. -/
def Target.Inside (declared : String → Option TableInfo) (compiler : Compiler) : Target → Prop
  | .variable register => register < compiler.registers.length
  | .row table key => declared table.name = some table ∧ key < compiler.registers.length

variable {rename : Nat → Nat} {declared : String → Option TableInfo} {compiler : Compiler}

/-! ## Instructions with a code -/

/-- A code that is read after its instruction is emitted. -/
theorem tracks_coded (sound : compiler.Sound declared) {instruction : Instruction}
    {code : Except CompileError Nat} (make : Nat → Vm.Instruction) (plain : instruction.table = none)
    (means : ∀ value, Means { instruction with operands := instruction.operands ++ leBytes 4 value } (make value))
    (fits : ∀ value, code = .ok value → Fits (make value)) :
    Tracks rename declared compiler
      (do let index ← push instruction; let code ← lift code; extendOperands index (leBytes 4 code))
      (do let index ← push instruction; let code ← lift code; extendOperands index (leBytes 4 code))
      fun _ _ after => after.instructions ≠ [] := by
  have length : (compiler.rename rename).instructions.length = compiler.instructions.length := by
    simp [Compiler.rename]
  cases coded : code with
  | error error =>
      have fails (compiler' : Compiler) (same : compiler'.instructions.length = compiler.instructions.length) :
          (do let index ← push instruction; let code ← lift (.error error)
              extendOperands index (leBytes 4 code)) compiler' =
            poolIndex compiler.instructions.length >>= fun _ => .error error := by
        simp only [Lockstep.bind_apply, push, same]
        cases poolIndex compiler.instructions.length <;> rfl
      cases pooled : poolIndex compiler.instructions.length with
      | error full =>
          rw [pooled, error_bind] at fails
          exact .fails full (fails _ rfl) (fails _ length)
      | ok index =>
          rw [pooled, ok_bind] at fails
          exact .fails error (fails _ rfl) (fails _ length)
  | ok value =>
      have pushes : (do let index ← push instruction; let code ← lift (.ok value)
                        extendOperands index (leBytes 4 code)) =
          (do let _ ← push { instruction with operands := instruction.operands ++ leBytes 4 value }
              return ()) := by
        rw [← push_extendOperands instruction (leBytes 4 value) fun _ => pure ()]
        simp only [bind_pure_unit]
        rfl
      have same : mapTable rename (make value) = make value :=
        mapTable_of_none rename ((means value).table.symm.trans plain)
      rw [pushes]
      refine Lockstep.bind (tracks_push sound (means value) (by rw [same]; exact means value) rfl
        (fits value coded) (.of_none declared plain)) ?_
      rintro index _ compiler₁ sound₁ - ⟨-, found⟩
      refine .pure sound₁ fun empty => ?_
      simp [empty] at found

/-! ## Assignments -/

theorem compiles_argument (expression : Expr) : (argument expression).Compiles rename declared := by
  unfold argument
  split
  · refine ⟨compiles_expr _, ?_⟩
    rintro _ _ ⟨⟩
    exact compiles_expr _
  · exact .of_compiles (compiles_expr _)

theorem Target.Inside.grows {target : Target} (inside : target.Inside declared compiler) {after : Compiler}
    (grows : compiler.Grows after) : target.Inside declared after := by
  cases target with
  | «variable» register => exact grows.register inside
  | row table key => exact ⟨inside.1, grows.register inside.2⟩

theorem tracks_assignTarget (sound : compiler.Sound declared) (target : Expr) :
    Tracks rename declared compiler (assignTarget target) (assignTarget target) fun place place' after =>
      place' = place.rename rename ∧ place.Inside declared after := by
  unfold assignTarget
  split
  · refine (tracks_address sound (compiles_argument _)).bind ?_
    rintro ⟨table, key⟩ _ compiler₁ sound₁ - ⟨rfl, known, inside⟩
    exact .pure sound₁ ⟨rfl, known, inside⟩
  · refine bind_lift fun name _ => .bind_get (bind_orFail fun found known => bind_reject fun _ => ?_)
    exact .pure sound ⟨rfl, sound.locals name found known⟩

/-- A write to a row. -/
theorem tracks_writeRow (sound : compiler.Sound declared) {table : TableInfo}
    (known : declared table.name = some table) {key value : Nat} (keyInside : key < compiler.registers.length)
    (valueInside : value < compiler.registers.length) {opcode : Nat} (make : Nat → Nat → Nat → Vm.Instruction)
    (means : ∀ table key value name,
      Means ⟨opcode, operandBytes [table, key, value], some (0, table), name⟩ (make table key value))
    (renames : ∀ table key value, mapTable rename (make table key value) = make (rename table) key value)
    (fits : ∀ table key value, Short [table, key, value] → Fits (make table key value)) :
    Tracks rename declared compiler
      (do let _ ← emitTable opcode [table.index, key, value] 0 table)
      (do let _ ← emitTable opcode [rename table.index, key, value] 0 (table.rename rename))
      fun _ _ _ => True := by
  have short : Short [table.index, key, value] :=
    .cons (sound.index_lt known) (.cons (sound.register_lt keyInside)
      (.cons (sound.register_lt valueInside) short_nil))
  have renamed := means (rename table.index) key value (some table.name)
  rw [← renames] at renamed
  refine (tracks_emitTable sound known (means _ _ _ _) renamed (fits _ _ _ short)).bind ?_
  intro _ _ compiler₁ sound₁ _ _
  exact .pure sound₁ trivial

theorem tracks_writeTarget (sound : compiler.Sound declared) {target : Target}
    (inside : target.Inside declared compiler) {source : Nat} (sourceInside : source < compiler.registers.length) :
    Tracks rename declared compiler (writeTarget target source) (writeTarget (target.rename rename) source)
      fun _ _ _ => True := by
  cases target with
  | «variable» register =>
      refine (tracks_move sound inside sourceInside).bind ?_
      intro _ _ compiler₁ sound₁ _ _
      exact .pure sound₁ trivial
  | row table key =>
      exact tracks_writeRow sound inside.1 inside.2 sourceInside .store (fun _ _ _ _ => ⟨rfl, rfl, rfl⟩)
        (fun _ _ _ => rfl) fun _ _ _ short => short

theorem tracks_priorValue (sound : compiler.Sound declared) {target : Target}
    (inside : target.Inside declared compiler) :
    Tracks rename declared compiler (priorValue target) (priorValue (target.rename rename)) Held := by
  cases target with
  | «variable» register => exact .pure sound ⟨rfl, inside⟩
  | row table key =>
      refine (tracks_register sound table.value).bind ?_
      rintro result _ compiler₁ sound₁ grows₁ ⟨⟨rfl, resultInside⟩, -, -⟩
      have short : Short [result, table.index, key] :=
        .cons (sound₁.register_lt resultInside) (.cons (sound₁.index_lt inside.1)
          (.cons (sound₁.register_lt (grows₁.register inside.2)) short_nil))
      refine Lockstep.bind (tracks_emitTable sound₁ inside.1
        (show Means _ (.load result table.index key) from ⟨rfl, rfl, rfl⟩) ⟨rfl, rfl, rfl⟩ short) ?_
      rintro _ _ compiler₂ sound₂ grows₂ -
      exact .pure sound₂ ⟨rfl, grows₂.register resultInside⟩

theorem bind_targetType (sound : compiler.Sound declared) {target : Target}
    (inside : target.Inside declared compiler) {next : Ty → CompileM Unit} {next' : Ty → CompileM Unit}
    (continues : ∀ ty, Tracks rename declared compiler (next ty) (next' ty) fun _ _ _ => True) :
    Tracks rename declared compiler (targetType target >>= next)
      (targetType (target.rename rename) >>= next') fun _ _ _ => True := by
  cases target with
  | «variable» register => exact bind_tyOf sound inside fun ty _ => continues ty
  | row table key => exact .bind_stay rfl rfl (continues table.value)

theorem tracks_assignValue (sound : compiler.Sound declared) (target value : Expr) (opcode : Option Nat) :
    Tracks rename declared compiler (assignValue target value opcode) (assignValue target value opcode)
      fun _ _ _ => True := by
  refine (tracks_assignTarget sound target).bind ?_
  rintro target _ compiler₁ sound₁ - ⟨rfl, inside⟩
  refine bind_targetType sound₁ inside fun ty => ?_
  cases opcode with
  | none =>
      refine (compiles_expr value compiler₁ sound₁ _).bind ?_
      rintro source _ compiler₂ sound₂ grows₂ ⟨rfl, sourceInside⟩
      exact tracks_writeTarget sound₂ (inside.grows grows₂) sourceInside
  | some opcode =>
      refine (tracks_priorValue sound₁ inside).bind ?_
      rintro prior _ compiler₂ sound₂ grows₂ ⟨rfl, priorInside⟩
      refine (compiles_expr value compiler₂ sound₂ _).bind ?_
      rintro operand _ compiler₃ sound₃ grows₃ ⟨rfl, operandInside⟩
      refine (tracks_binaryInstruction sound₃ opcode (grows₃.register priorInside) operandInside).bind ?_
      rintro source _ compiler₄ sound₄ grows₄ ⟨rfl, sourceInside⟩
      exact tracks_writeTarget sound₄ (((inside.grows grows₂).grows grows₃).grows grows₄) sourceInside

/-! ## Calls -/

theorem userCode_lt {codes : List Expr} {code : Nat} (taken : userCode codes = .ok code) : code < 2 ^ 32 := by
  cases codes with
  | nil =>
      cases taken
      decide
  | cons expression codes =>
      have := immediate_le taken
      omega

theorem tracks_compileRequire (sound : compiler.Sound declared) (args : List Expr) :
    Tracks rename declared compiler (compileRequire args) (compileRequire args) fun _ _ _ => True := by
  cases args with
  | nil => exact .throw _
  | cons condition code =>
      refine bind_reject fun _ => (compiles_expr condition compiler sound _).bind ?_
      rintro condition _ compiler₁ sound₁ - ⟨rfl, inside⟩
      refine (tracks_coded sound₁ (fun code => .require condition code) rfl (fun _ => ⟨rfl, rfl, rfl⟩)
        fun code taken => ?_).weaken fun _ _ _ _ _ => trivial
      exact ⟨.cons (sound₁.register_lt inside) short_nil, userCode_lt taken⟩

theorem tracks_compileAbort (sound : compiler.Sound declared) (args : List Expr) :
    Tracks rename declared compiler (compileAbort args) (compileAbort args) fun _ _ after =>
      after.instructions ≠ [] :=
  bind_reject fun _ => tracks_coded sound (fun code => .abort code) rfl (fun _ => ⟨rfl, rfl, rfl⟩)
    fun _ taken => userCode_lt taken

theorem tracks_compileWrite (sound : compiler.Sound declared) (args : List Expr) {opcode : Nat}
    (make : Nat → Nat → Nat → Vm.Instruction)
    (means : ∀ table key value name,
      Means ⟨opcode, operandBytes [table, key, value], some (0, table), name⟩ (make table key value))
    (renames : ∀ table key value, mapTable rename (make table key value) = make (rename table) key value)
    (fits : ∀ table key value, Short [table, key, value] → Fits (make table key value)) :
    Tracks rename declared compiler (compileWrite opcode args) (compileWrite opcode args) fun _ _ _ => True := by
  unfold compileWrite
  split
  · refine (tracks_address sound (compiles_argument _)).bind ?_
    rintro ⟨table, key⟩ _ compiler₁ sound₁ - ⟨rfl, known, keyInside⟩
    refine (compiles_expr _ compiler₁ sound₁ _).bind ?_
    rintro value _ compiler₂ sound₂ grows₂ ⟨rfl, valueInside⟩
    exact tracks_writeRow sound₂ known (grows₂.register keyInside) valueInside make means renames fits
  · exact .throw _

theorem tracks_compileDelete (sound : compiler.Sound declared) (args : List Expr) :
    Tracks rename declared compiler (compileDelete args) (compileDelete args) fun _ _ _ => True := by
  unfold compileDelete
  split
  · refine (tracks_address sound (compiles_argument _)).bind ?_
    rintro ⟨table, key⟩ _ compiler₁ sound₁ - ⟨rfl, known, keyInside⟩
    have short : Short [table.index, key] :=
      .cons (sound₁.index_lt known) (.cons (sound₁.register_lt keyInside) short_nil)
    refine Lockstep.bind (tracks_emitTable sound₁ known
      (show Means _ (.delete table.index key) from ⟨rfl, rfl, rfl⟩) ⟨rfl, rfl, rfl⟩ short) ?_
    intro _ _ compiler₂ sound₂ _ _
    exact .pure sound₂ trivial
  · exact .throw _

theorem tracks_compileReturn (sound : compiler.Sound declared) {source : Nat}
    (inside : source < compiler.registers.length) :
    Tracks rename declared compiler (compileReturn source) (compileReturn source) fun _ _ after =>
      after.instructions ≠ [] := by
  refine bind_tyOf sound inside fun ty _ => ?_
  have updated : Compiler.Sound declared { compiler with result := some (returnedResult compiler ty) } :=
    { sound with }
  refine .bind_update rfl ⟨le_rfl, List.prefix_rfl⟩ ((tracks_emit updated
    (show Means _ (.return source) from ⟨rfl, rfl, rfl⟩) (.cons (sound.register_lt inside) short_nil)).bind ?_)
  intro _ _ compiler₁ sound₁ _ nonempty
  exact .pure sound₁ nonempty

/-! ## Blocks -/

/-- Both runs end the block or neither, and one that ends has an instruction. -/
def Ended (terminated terminated' : Bool) (compiler : Compiler) : Prop :=
  terminated = terminated' ∧ (terminated = true → compiler.instructions ≠ [])

theorem ended_false (compiler : Compiler) : Ended false false compiler :=
  ⟨rfl, fun ended => by cases ended⟩

/-- A step that does not end the block. -/
theorem tracks_continues {α β : Type} {first : CompileM α} {second : CompileM β} {post : α → β → Compiler → Prop}
    (runs : Tracks rename declared compiler first second post) :
    Tracks rename declared compiler (do let _ ← first; return false) (do let _ ← second; return false) Ended := by
  refine runs.bind ?_
  intro _ _ after sound _ _
  exact .pure sound (ended_false after)

/-- A step that ends the block. -/
theorem tracks_ends {α β : Type} {first : CompileM α} {second : CompileM β}
    (runs : Tracks rename declared compiler first second fun _ _ after => after.instructions ≠ []) :
    Tracks rename declared compiler (do let _ ← first; return true) (do let _ ← second; return true) Ended := by
  refine runs.bind ?_
  intro _ _ after sound _ nonempty
  exact .pure sound ⟨rfl, fun _ => nonempty⟩

theorem tracks_compileCallStatement (sound : compiler.Sound declared) (callee : Expr) (args : List Expr) :
    Tracks rename declared compiler (compileCallStatement callee args) (compileCallStatement callee args)
      Ended := by
  refine bind_lift fun name _ => ?_
  split_ifs
  · exact tracks_continues (tracks_compileRequire sound args)
  · exact tracks_ends (tracks_compileAbort sound args)
  · exact tracks_continues (tracks_compileWrite sound args .insert (fun _ _ _ _ => ⟨rfl, rfl, rfl⟩)
      (fun _ _ _ => rfl) fun _ _ _ short => short)
  · exact tracks_continues (tracks_compileWrite sound args .store (fun _ _ _ _ => ⟨rfl, rfl, rfl⟩)
      (fun _ _ _ => rfl) fun _ _ _ short => short)
  · exact tracks_continues (tracks_compileDelete sound args)
  · exact tracks_continues (compiles_expr _ compiler sound none)

theorem forall_update {β : Type} {bound : String → Option β} {name : String} {value : β} {holds : β → Prop}
    (new : holds value) (old : ∀ other found, bound other = some found → holds found) :
    ∀ other found, Function.update bound name (some value) other = some found → holds found := by
  intro other found known
  by_cases same : other = name
  · rw [same, Function.update_self] at known
    cases known
    exact new
  · rw [Function.update_of_ne same] at known
    exact old other found known

theorem tracks_compileBinding (sound : compiler.Sound declared) (pattern : Pattern) (annotated : Option Ty)
    (init : Expr) (diverges : Bool) :
    Tracks rename declared compiler (compileBinding pattern annotated init diverges)
      (compileBinding pattern annotated init diverges) fun _ _ _ => True := by
  refine bind_lift fun name _ => bind_reject fun _ => (compiles_expr init compiler sound annotated).bind ?_
  rintro source _ compiler₁ sound₁ - ⟨rfl, sourceInside⟩
  refine bind_tyOf sound₁ sourceInside fun ty _ => (tracks_register sound₁ _).bind ?_
  rintro register _ compiler₂ sound₂ grows₂ ⟨⟨rfl, inside⟩, -, -⟩
  refine (tracks_move sound₂ inside (grows₂.register sourceInside)).bind ?_
  rintro _ _ compiler₃ sound₃ grows₃ -
  refine .update rfl ?_ ⟨le_rfl, List.prefix_rfl⟩ trivial
  exact { sound₃ with locals := forall_update (grows₃.register inside) sound₃.locals }

/-- The locals of an earlier state fit a later one. -/
theorem Compiler.Sound.restore (sound : compiler.Sound declared) {after : Compiler}
    (later : after.Sound declared) (grows : compiler.Grows after) :
    Compiler.Sound declared { after with locals := compiler.locals } :=
  { later with locals := fun name found known => grows.register (sound.locals name found known) }

theorem tracks_compileBlock (sound : compiler.Sound declared) {statements : CompileM Bool}
    (runs : Tracks rename declared compiler statements statements Ended) :
    Tracks rename declared compiler (compileBlock statements) (compileBlock statements) Ended := by
  refine .bind_get (runs.bind ?_)
  rintro terminated _ compiler₁ sound₁ grows₁ ⟨rfl, nonempty⟩
  have restored := sound.restore sound₁ grows₁
  exact .bind_update rfl ⟨le_rfl, List.prefix_rfl⟩ (.pure restored ⟨rfl, nonempty⟩)

/-- The statements track in every state of the compiler. -/
def Runs (rename : Nat → Nat) (declared : String → Option TableInfo) (statements : CompileM Bool) : Prop :=
  ∀ (compiler : Compiler), compiler.Sound declared →
    Tracks rename declared compiler statements statements Ended

theorem tracks_compileIf (sound : compiler.Sound declared) (condition : Expr) {body : CompileM Bool}
    (runs : Runs rename declared body) :
    Tracks rename declared compiler (compileIf condition body) (compileIf condition body) Ended := by
  refine (compiles_expr condition compiler sound _).bind ?_
  rintro condition _ compiler₁ sound₁ - ⟨rfl, inside⟩
  refine (tracks_jump sound₁ (by simpa using inside)).bind ?_
  rintro otherwise _ compiler₂ sound₂ - ⟨rfl, jumps⟩
  refine (tracks_compileBlock sound₂ (runs compiler₂ sound₂)).bind ?_
  rintro _ _ compiler₃ sound₃ grows₃ -
  exact tracks_continues (tracks_patchJump sound₃ (jumps.grows grows₃))

theorem tracks_compileIfElse (sound : compiler.Sound declared) (condition : Expr)
    {body alternative : CompileM Bool} (runs : Runs rename declared body)
    (otherwise : Runs rename declared alternative) :
    Tracks rename declared compiler (compileIfElse condition body alternative)
      (compileIfElse condition body alternative) Ended := by
  refine (compiles_expr condition compiler sound _).bind ?_
  rintro condition _ compiler₁ sound₁ - ⟨rfl, inside⟩
  refine (tracks_jump sound₁ (by simpa using inside)).bind ?_
  rintro branch _ compiler₂ sound₂ - ⟨rfl, jumps⟩
  refine (tracks_compileBlock sound₂ (runs compiler₂ sound₂)).bind ?_
  rintro terminated _ compiler₃ sound₃ grows₃ ⟨rfl, -⟩
  cases terminated with
  | true =>
      refine (tracks_patchJump sound₃ (jumps.grows grows₃)).bind ?_
      intro _ _ compiler₄ sound₄ _ _
      exact otherwise compiler₄ sound₄
  | false =>
      refine (tracks_jump sound₃ (by simp)).bind ?_
      rintro stop _ compiler₄ sound₄ grows₄ ⟨rfl, stops⟩
      refine (tracks_patchJump sound₄ ((jumps.grows grows₃).grows grows₄)).bind ?_
      intro _ _ compiler₅ sound₅ grows₅ _
      refine (otherwise compiler₅ sound₅).bind ?_
      rintro _ _ compiler₆ sound₆ grows₆ -
      exact tracks_continues (tracks_patchJump sound₆ ((stops.grows grows₅).grows grows₆))

/-! ## Statements -/

mutual

theorem runs_statementExpr : ∀ expression : Expr, Runs rename declared (compileStatementExpr expression)
  | .ifThen condition body => fun compiler sound => by
      rw [compileStatementExpr]
      exact tracks_compileIf sound condition fun compiler sound =>
        tracks_statements body false compiler sound (by simp)
  | .ifThenElse condition body alternative => fun compiler sound => by
      rw [compileStatementExpr]
      exact tracks_compileIfElse sound condition
        (fun compiler sound => tracks_statements body false compiler sound (by simp))
        (runs_statementExpr alternative)
  | .block false body => fun compiler sound => by
      rw [compileStatementExpr]
      exact tracks_compileBlock sound (tracks_statements body false compiler sound (by simp))
  | .returnValue value => fun compiler sound => by
      rw [compileStatementExpr]
      refine .bind_get ((compiles_expr value compiler sound _).bind ?_)
      rintro source _ compiler₁ sound₁ - ⟨rfl, inside⟩
      exact tracks_ends (tracks_compileReturn sound₁ inside)
  | .returnUnit => fun compiler sound => by
      rw [compileStatementExpr]
      refine .bind_get (bind_reject fun _ => (tracks_unit sound).bind ?_)
      rintro source _ compiler₁ sound₁ - ⟨rfl, inside⟩
      exact tracks_ends (tracks_compileReturn sound₁ inside)
  | .assign target value => fun compiler sound => by
      rw [compileStatementExpr]
      exact tracks_continues (tracks_assignValue sound target value none)
  | .binary op left right => fun compiler sound => by
      rw [compileStatementExpr]
      cases assignmentOp op with
      | some opcode => exact tracks_continues (tracks_assignValue sound left right (some opcode))
      | none => exact tracks_continues (compiles_expr (.binary op left right) compiler sound none)
  | .call callee args => fun compiler sound => by
      rw [compileStatementExpr]
      exact tracks_compileCallStatement sound callee args
  | .path name => fun compiler sound => by
      rw [compileStatementExpr]
      refine bind_lift fun name _ => ?_
      split_ifs
      · exact tracks_ends (tracks_compileAbort sound [])
      · exact tracks_continues (compiles_expr _ compiler sound none)
  | .paren inner | .group inner | .lit inner | .unary _ inner | .index _ inner | .tuple inner
  | .field _ inner | .block true inner | .unsupported => fun compiler sound => by
      simp only [compileStatementExpr]
      exact tracks_continues (compiles_expr _ compiler sound none)

theorem tracks_statements : ∀ (statements : List Statement) (terminated : Bool) (compiler : Compiler),
    compiler.Sound declared → (terminated = true → compiler.instructions ≠ []) →
    Tracks rename declared compiler (compileStatements statements terminated)
      (compileStatements statements terminated) Ended
  | [], terminated => fun compiler sound nonempty => by
      rw [compileStatements]
      exact .pure sound ⟨rfl, nonempty⟩
  | statement :: rest, terminated => fun compiler sound _ => by
      rw [compileStatements]
      refine bind_reject fun _ => (runs_statement statement compiler sound).bind ?_
      rintro terminated _ compiler₁ sound₁ - ⟨rfl, nonempty⟩
      exact tracks_statements rest terminated compiler₁ sound₁ nonempty

theorem runs_statement : ∀ statement : Statement, Runs rename declared (compileStatement statement)
  | .binding pattern annotated init diverges => fun compiler sound => by
      rw [compileStatement]
      exact tracks_continues (tracks_compileBinding sound pattern annotated init diverges)
  | .uninitialized pattern => fun compiler sound => by
      rw [compileStatement]
      exact bind_lift fun _ _ => .throw _
  | .expr expression => fun compiler sound => by
      rw [compileStatement]
      exact runs_statementExpr expression compiler sound
  | .unsupported => fun compiler sound => by
      rw [compileStatement]
      exact .throw _

end

end BlopDb.Macros
