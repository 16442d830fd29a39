import Ctds.Visited

/-! Calls to void methods as values. Every consumer of an expression tests types in its own
way: an initialiser is tested against int and bool only, and `==` compares its sides with
each other, so these two let a void call through. -/

namespace Ctds

open Fallible SymbolTable

/-- A call to a void method. -/
def voidCall (tab : SymbolTable) : AstNode → Bool
  | .methodCall _ name _ _ => (methodNamed tab name).any fun method => method.returnType == .void
  | _ => false

/-- The operands of an operator, the arguments of a call, a condition; of a declaration its
initialiser. -/
def operands : AstNode → List AstNode
  | .common _ _ .decl _ right => [right]
  | .common _ _ _ left right => [left, right]
  | .ifStmt _ condition _ _ => [condition]
  | .whileStmt _ condition _ => [condition]
  | .methodCall _ _ _ args => args.toList
  | _ => []

theorem operands_binary {line : Int} {op : Operator} {left right : AstNode}
    (binary : op.isBinary = true) :
    operands (.common line .binary op left right) = [left, right] := by
  cases op <;> first | rfl | cases binary

theorem operands_unary {line : Int} {op : Operator} {left right : AstNode}
    (unary : op.isUnary = true) : operands (.common line .unary op left right) = [left, right] := by
  cases op <;> first | rfl | cases unary

/-- The operands that are used as values; a void method may return a void call. -/
def consumed (node : AstNode) : List AstNode := if node.isReturn then [] else operands node

theorem consumed_binary {line : Int} {op : Operator} {left right : AstNode}
    (binary : op.isBinary = true) :
    consumed (.common line .binary op left right) = [left, right] := by
  cases op <;> first | rfl | cases binary

theorem consumed_unary {line : Int} {op : Operator} {left right : AstNode}
    (unary : op.isUnary = true) : consumed (.common line .unary op left right) = [left, right] := by
  cases op <;> first | rfl | cases unary

/-- A declaration whose initialiser is a void call. -/
def voidInitialiser (tab : SymbolTable) : AstNode → Bool
  | .common _ _ .decl _ right => voidCall tab right
  | _ => false

/-- A comparison of two void calls. -/
def voidComparison (tab : SymbolTable) : AstNode → Bool
  | .common _ _ .eq left right => voidCall tab left && voidCall tab right
  | _ => false

theorem exprType_cases {env : Env} {tab : SymbolTable} {node : AstNode} {type : RetType}
    (typed : exprType env tab node = some type) :
    ((type = .int ∨ type = .bool) ∧ voidCall tab node = false) ∨
      (type = .void ∧ voidCall tab node = true) := by
  cases node with
  | leaf line value =>
    refine .inl ⟨?_, rfl⟩
    cases value with
    | int v => exact .inl (Option.some.inj typed).symm
    | bool v => exact .inr (Option.some.inj typed).symm
    | id p =>
      simp only [exprType, leafType, Option.bind_eq_some_iff, symbolType] at typed
      obtain ⟨info, -, typed⟩ := typed
      split at typed
      · exact .inl (Option.some.inj typed).symm
      · split at typed
        · exact .inr (Option.some.inj typed).symm
        · cases typed
  | common line arity op left right =>
    refine .inl ⟨?_, rfl⟩
    cases arity with
    | binary =>
      obtain ⟨l, r, -, -, -, result⟩ := exprType_binary typed
      rw [binaryType_result result]
      cases op <;> simp [resultType]
    | unary =>
      simp only [exprType, Option.bind_eq_some_iff] at typed
      obtain ⟨l, -, result⟩ := typed
      obtain ⟨-, result⟩ := unaryType_operand result
      cases op <;> simp [operatorType, resultType] at result <;> simp [← result]
  | methodCall line name numArgs args =>
    obtain ⟨method, called, -, returned⟩ := exprType_call typed
    obtain ⟨named, -⟩ := methodNamed_called called
    simp only [voidCall, named, Option.any_some]
    cases returnType : method.returnType <;> simp [returnType, ReturnType.toRetType] at returned ⊢
    · simp [← returned]
    · simp [← returned]
    · simp [← returned]
  | _ => simp [exprType] at typed

theorem voidCall_iff {env : Env} {tab : SymbolTable} {node : AstNode} {type : RetType}
    (typed : exprType env tab node = some type) : voidCall tab node = true ↔ type = .void := by
  rcases exprType_cases typed with ⟨rfl | rfl, notVoid⟩ | ⟨rfl, isVoid⟩
  · simp [notVoid]
  · simp [notVoid]
  · simp [isVoid]

theorem voidCall_of_value {env : Env} {tab : SymbolTable} {node : AstNode} {type : RetType}
    (typed : exprType env tab node = some type) (value : type ≠ .void) :
    voidCall tab node = false :=
  Bool.eq_false_iff.mpr fun isVoid => value ((voidCall_iff typed).mp isVoid)

theorem args_consumed {env : Env} {tab : SymbolTable} :
    ∀ (args : AstNodeList) (params : List Args), params.length = args.length →
      argsAccepted env tab params args = true → ∀ arg ∈ args.toList, voidCall tab arg = false
  | .nil, _, _, _ => by simp [AstNodeList.toList]
  | .cons first next, [], count, _ => by cases count
  | .cons first next, param :: params, count, accepted => by
    simp only [argsAccepted, Bool.and_eq_true, beq_iff_eq, Option.bind_eq_some_iff] at accepted
    obtain ⟨⟨type, typed, converted⟩, rest⟩ := accepted
    intro arg mem
    simp only [AstNodeList.toList, List.mem_cons] at mem
    rcases mem with rfl | mem
    · refine voidCall_of_value typed ?_
      rintro rfl
      cases converted
    · exact args_consumed next params (Nat.succ.inj count) rest arg mem

/-- A node consumes no void call, but for the two ways that are let through. -/
def ConsumesValues (tab : SymbolTable) (node : AstNode) : Prop :=
  (∀ operand ∈ consumed node, voidCall tab operand = false) ∨ voidInitialiser tab node = true ∨
    voidComparison tab node = true

theorem operandType_ne_void (op : Operator) : operandType op ≠ .void := by
  cases op <;> decide

theorem expr_consumes {env : Env} {tab : SymbolTable} (methods : tab.MethodsOk) {node : AstNode}
    (shape : isExpr tab node = true) (typed : (exprType env tab node).isSome = true) :
    ConsumesValues tab node := by
  obtain ⟨type, typed⟩ := Option.isSome_iff_exists.mp typed
  cases node with
  | leaf line value => exact .inl (by simp [consumed, operands])
  | common line arity op left right =>
    cases arity with
    | binary =>
      simp only [isExpr, Bool.and_eq_true] at shape
      obtain ⟨l, r, leftType, rightType, -, result⟩ := exprType_binary typed
      have both (hl : l ≠ .void) (hr : r ≠ .void) :
          ∀ operand ∈ consumed (.common line .binary op left right),
            voidCall tab operand = false := by
        intro operand mem
        rw [consumed_binary shape.1.1] at mem
        rcases List.mem_pair.mp mem with rfl | rfl
        · exact voidCall_of_value leftType hl
        · exact voidCall_of_value rightType hr
      by_cases isEq : op = .eq
      · subst isEq
        obtain rfl := binaryType_eq result
        by_cases isVoid : l = .void
        · refine .inr (.inr ?_)
          simp [voidComparison, (voidCall_iff leftType).mpr isVoid,
            (voidCall_iff rightType).mpr isVoid]
        · exact .inl (both isVoid isVoid)
      · obtain ⟨rfl, rfl⟩ := binaryType_operands result isEq
        exact .inl (both (operandType_ne_void op) (operandType_ne_void op))
    | unary =>
      simp only [isExpr, Bool.and_eq_true] at shape
      obtain rfl := isNull_iff.mp shape.2
      simp only [exprType, Option.bind_eq_some_iff] at typed
      obtain ⟨l, leftType, result⟩ := typed
      obtain ⟨rfl, -⟩ := unaryType_operand result
      refine .inl fun operand mem => ?_
      rw [consumed_unary shape.1.1] at mem
      rcases List.mem_pair.mp mem with rfl | rfl
      · exact voidCall_of_value leftType (operandType_ne_void op)
      · rfl
  | methodCall line name numArgs args =>
    simp only [isExpr, Bool.and_eq_true, decide_eq_true_eq] at shape
    obtain ⟨method, called, accepted, -⟩ := exprType_call typed
    exact .inl (args_consumed args method.args (called_length methods shape.1 called) accepted)
  | _ => simp [isExpr] at shape

theorem stmt_consumes {env : Env} {tab : SymbolTable} (methods : tab.MethodsOk) {node : AstNode}
    {methodReturnType : RetType} (shape : isStmt tab node = true)
    (accepted : stmtAccepted env tab methodReturnType node = true) : ConsumesValues tab node := by
  cases node with
  | common line arity op left right =>
    unfold isStmt at shape
    unfold stmtAccepted at accepted
    cases op with
    | decl =>
      simp only [Bool.and_eq_true, Bool.or_eq_true] at shape
      cases isVoid : voidCall tab right with
      | true => exact .inr (.inl isVoid)
      | false =>
        refine .inl fun operand mem => ?_
        obtain rfl := List.mem_singleton.mp mem
        exact isVoid
    | assign =>
      simp only [Bool.and_eq_true, decide_eq_true_eq] at shape
      simp only at accepted
      obtain ⟨line', p, info, rfl, -⟩ := isIdLeaf_iff.mp shape.1.2
      split at accepted
      · next l r leftType rightType =>
        obtain rfl := of_decide_eq_true accepted
        have notVoid : l ≠ .void := fun isVoid => by
          have onLeft := (voidCall_iff leftType).mpr isVoid
          cases onLeft
        refine .inl fun operand mem => ?_
        rcases List.mem_pair.mp mem with rfl | rfl
        · rfl
        · exact voidCall_of_value rightType notVoid
      · cases accepted
    | ret => exact .inl (by simp [consumed, AstNode.isReturn])
    | _ => cases shape
  | ifStmt line condition thenBlock elseBlock =>
    simp only [stmtAccepted, Bool.and_eq_true, beq_iff_eq] at accepted
    refine .inl fun operand mem => ?_
    obtain rfl := List.mem_singleton.mp mem
    exact voidCall_of_value accepted.1 (by decide)
  | whileStmt line condition block =>
    simp only [stmtAccepted, Bool.and_eq_true, beq_iff_eq] at accepted
    refine .inl fun operand mem => ?_
    obtain rfl := List.mem_singleton.mp mem
    exact voidCall_of_value accepted.1.1 (by decide)
  | methodCall line name numArgs args => exact expr_consumes methods shape accepted
  | block line stmts => exact .inl (by simp [consumed, operands])
  | _ => cases shape

theorem checked_consumes {env : Env} {tab : SymbolTable} (methods : tab.MethodsOk) {node : AstNode}
    (h : NodeChecked env tab node) : ConsumesValues tab node := by
  cases h with
  | expr shape typed => exact expr_consumes methods shape typed
  | stmt shape accepted => exact stmt_consumes methods shape accepted
  | declared line p => exact .inl (by simp [consumed, operands])

theorem eval_common_father (env : Env) (tab : SymbolTable) (father father' : InfoType) (line : Int)
    (arity : OperatorArity) (op : Operator) (left right : AstNode) :
    eval env tab father (.common line arity op left right) =
      eval env tab father' (.common line arity op left right) := by
  rw [eval, eval]

theorem eval_common_isOk {env : Env} {tab : SymbolTable} (methods : tab.MethodsOk)
    (father : InfoType) {line : Int} {arity : OperatorArity} {op : Operator} {left right : AstNode}
    (ret : RetType) (st : SemState) (shape : isStmt tab (.common line arity op left right) = true) :
    (eval env tab father (.common line arity op left right) ret st).isOk =
      stmtAccepted env tab st.methodReturnType (.common line arity op left right) := by
  rw [eval_common_father env tab father .block]
  have outcome : Outcome _ (StmtPost env .block (.common line arity op left right) ret st)
      (evalCommon env tab line arity op left right (eval env tab .common left)
        (eval env tab .common right) ret st) := evalCommon_stmt methods shape
  rw [eval]
  exact outcome.isOk

theorem declaredType_leaf (env : Env) {tab : SymbolTable} (line : Int) {p : IdPtr} {type : RetType}
    (declared : declaredType tab p = some type) :
    exprType env tab (.leaf line (.id p)) = some type ∧ tab.hasEntry p = true := by
  unfold declaredType at declared
  split at declared
  · next name ty entry =>
    refine ⟨?_, hasEntry_iff.mpr ⟨_, entry⟩⟩
    simp only [exprType, leafType, entry, Option.bind_some]
    cases ty <;> exact declared
  · cases declared

theorem decl_as_assign_iff (env : Env) {tab : SymbolTable} (methods : tab.MethodsOk)
    (father : InfoType) (line line' : Int) (arity : OperatorArity) {p : IdPtr} {right : AstNode}
    (declared : (declaredType tab p).isSome = true) (shape : isExpr tab right = true)
    (ret : RetType) (st : SemState) :
    (eval env tab father (.common line arity .decl (.leaf line' (.id p)) right) ret st).isOk =
        (eval env tab father (.common line .binary .assign (.leaf line' (.id p)) right)
        ret st).isOk ↔
      ¬ (voidCall tab right = true ∧ (eval env tab .common right ret st).isOk = true) := by
  obtain ⟨type, declared⟩ := Option.isSome_iff_exists.mp declared
  obtain ⟨leftType, entry⟩ := declaredType_leaf env line' declared
  have isId : isIdLeaf tab (.leaf line' (.id p)) = true := entry
  have asDecl : isStmt tab (.common line arity .decl (.leaf line' (.id p)) right) = true := by
    simp [isStmt, isId, shape]
  have asAssign : isStmt tab (.common line .binary .assign (.leaf line' (.id p)) right) = true := by
    simp [isStmt, isId, shape]
  have nonNull : right.isNull = false := by
    cases right <;> first
      | rfl
      | cases shape
  rw [eval_common_isOk methods father ret st asDecl,
    eval_common_isOk methods father ret st asAssign,
    (eval_expr env methods right .common ret st shape).isOk]
  simp only [stmtAccepted, nonNull, Bool.false_or, leftType]
  have value : type ≠ .void := by
    rcases exprType_cases leftType with ⟨rfl | rfl, -⟩ | ⟨-, isVoid⟩
    · decide
    · decide
    · cases isVoid
  cases rightType : exprType env tab right with
  | none => simp
  | some r =>
    simp only [voidCall_iff rightType, declAccepted, Option.isSome_some, and_true, decide_eq_decide]
    rcases exprType_cases rightType with ⟨rfl | rfl, -⟩ | ⟨rfl, -⟩
    · simp
    · simp
    · simp [value]

/-- In an accepted program void calls are used as values exactly where an initialiser is
one, or both sides of an `==` are; and these initialisers are what tells a declaration from
an assignment. -/
theorem void_values_iff {env : Env} (off : env.optimizations = false) {prog : ProgramSyn}
    {ps : ParserState} {sentences : List AstNode} (parsed : parse prog = .ok ps)
    (accepted : semanticAnalyzer env ps.tab ps.headAst = .ok sentences) :
    ((∀ sentence ∈ ps.headAst, ∀ node ∈ subnodes sentence, ∀ operand ∈ consumed node,
        voidCall ps.tab operand = false) ↔
      ∀ sentence ∈ ps.headAst, ∀ node ∈ subnodes sentence,
        voidInitialiser ps.tab node = false ∧ voidComparison ps.tab node = false) ∧
    ∀ father line line' arity p right, (declaredType ps.tab p).isSome = true →
      isExpr ps.tab right = true → ∀ ret st,
        ((eval env ps.tab father (.common line arity .decl (.leaf line' (.id p)) right)
        ret st).isOk =
          (eval env ps.tab father
            (.common line .binary .assign (.leaf line' (.id p)) right) ret st).isOk ↔
          ¬ (voidCall ps.tab right = true ∧
          (eval env ps.tab .common right ret st).isOk = true)) := by
  have ok := parse_sentencesOk parsed
  refine ⟨⟨?_, ?_⟩, ?_⟩
  · intro none' sentence mem node inside
    have values := none' sentence mem node inside
    constructor
    · unfold voidInitialiser
      split
      · next line arity left right =>
          exact values right (by simp [consumed, operands, AstNode.isReturn])
      · rfl
    · unfold voidComparison
      split
      · next line arity left right =>
        rw [values left (by simp [consumed, operands, AstNode.isReturn])]
        rfl
      · rfl
  · intro absent sentence mem node inside
    obtain ⟨initialiser, comparison⟩ := absent sentence mem node inside
    have visited : node ∈ visitedNodes env sentence := by
      have split := (subnodes_visited env sentence).mp inside
      rw [droppedNodes_off off] at split
      exact split.resolve_right List.not_mem_nil
    rcases sentence_visited ok accepted mem visited with ⟨line, sym, block, rfl⟩ | checked
    · simp [consumed, operands]
    · rcases checked_consumes ok.wf.methods checked with values | isVoid | isVoid
      · exact values
      · rw [isVoid] at initialiser
        cases initialiser
      · rw [isVoid] at comparison
        cases comparison
  · intro father line line' arity p right declared shape ret st
    exact decl_as_assign_iff env ok.wf.methods father line line' arity declared shape ret st

/-- `void f() { return; } integer main() { statement; return 0; }`, with variables `x`. -/
def besideVoid (varDecls : List VarDeclSyn) (statements : StmtListSyn) : ProgramSyn :=
  [.methodDecl ⟨1, none, .of "f", [], some (.mk 1 [] (.cons (.returnVoid 1) .nil))⟩,
    .methodDecl ⟨2, some .integer, .of "main", [], some (.mk 2 varDecls statements)⟩]

/-- `integer x = f(); return x;`. -/
def voidDecl : ProgramSyn :=
  besideVoid [⟨2, .integer, .of "x", some (.methodCall 2 (.of "f") .nil)⟩]
    (.cons (.returnExpr 3 (.id 3 (.of "x"))) .nil)

/-- The value of a void method initialises an integer. -/
theorem void_value_initialises :
    ∃ ps sentences, parse voidDecl = .ok ps ∧
      semanticAnalyzer (.sample false) ps.tab ps.headAst = .ok sentences ∧
      ∃ sentence ∈ ps.headAst, ∃ node ∈ subnodes sentence, ∃ operand ∈ consumed node,
        voidCall ps.tab operand = true := by
  obtain ⟨checked, whole⟩ :=
    isOk_iff.mp (by decide +kernel : (frontEnd (.sample false) voidDecl).isOk = true)
  obtain ⟨ps, parsed, -, accepted⟩ := frontEnd_ok whole
  have used : (parse voidDecl).toOption.map (fun ps => ps.headAst.any fun sentence =>
      (subnodes sentence).any fun node => (consumed node).any (voidCall ps.tab)) = some true := by
    decide +kernel
  simp only [parsed, Except.toOption, Option.map_some, Option.some.injEq, List.any_eq_true] at used
  exact ⟨ps, _, parsed, accepted, used⟩

/-- `f(); return 0;`. -/
def voidStmt : ProgramSyn :=
  besideVoid [] (.cons (.methodCall 2 (.of "f") .nil)
    (.cons (.returnExpr 3 (.integerLiteral 3 0)) .nil))

/-- A void call as a statement is no value. -/
theorem void_values_stmt :
    ∃ ps, parse voidStmt = .ok ps ∧ ∀ sentence ∈ ps.headAst, ∀ node ∈ subnodes sentence,
      ∀ operand ∈ consumed node, voidCall ps.tab operand = false := by
  obtain ⟨checked, whole⟩ :=
    isOk_iff.mp (by decide +kernel : (frontEnd (.sample false) voidStmt).isOk = true)
  obtain ⟨ps, parsed, -, accepted⟩ := frontEnd_ok whole
  have absent : (parse voidStmt).toOption.map (fun ps => ps.headAst.all fun sentence =>
      (subnodes sentence).all fun node =>
        !voidInitialiser ps.tab node && !voidComparison ps.tab node) =
          some true := by decide +kernel
  simp only [parsed, Except.toOption, Option.map_some, Option.some.injEq, List.all_eq_true,
    Bool.and_eq_true, Bool.not_eq_true'] at absent
  exact ⟨ps, parsed, (void_values_iff rfl parsed accepted).1.mpr absent⟩

end Ctds
