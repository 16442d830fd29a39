import Ctds.DeadBranches

/-! Declared types, without the analyzer: what a variable, an operator or a method says of
the values it gives, and what every node of a tree demands of its children. The statement
checks of `semantic_analyzer.c` establish the demands at every depth. -/

namespace Ctds

open Fallible SymbolTable

def Ty.toRetType? : Ty → Option RetType
  | .int => some .int
  | .bool => some .bool
  | .id => none

/-- The type a variable or parameter was declared with; a method has none. -/
def declaredType (tab : SymbolTable) (p : IdPtr) : Option RetType :=
  match tab.entry p with
  | some (.id _ type) => type.toRetType?
  | _ => none

/-- A symbol made by `add_id`. -/
def isVariable (tab : SymbolTable) (p : IdPtr) : Bool :=
  match tab.entry p with
  | some info => !info.isMethod
  | none => false

/-- The declared method of this name. -/
def methodNamed (tab : SymbolTable) (name : Ident) : Option MethodInfo :=
  match (tab.findGlobal name).bind tab.entry with
  | some (.methodDecl method) => some method
  | _ => none

def operatorType : Operator → Option RetType
  | .minus => some .int
  | .decl | .assign | .ret => none
  | op => some (resultType op)

/-- The type of an expression, read off its root. -/
def valueType (tab : SymbolTable) : AstNode → Option RetType
  | .leaf _ (.int _) => some .int
  | .leaf _ (.bool _) => some .bool
  | .leaf _ (.id p) => declaredType tab p
  | .common _ _ op _ _ => operatorType op
  | .methodCall _ name _ _ => (methodNamed tab name).bind fun method => method.returnType.toRetType
  | _ => none

/-- What an operator other than `==` asks of its operands. -/
def operandType : Operator → RetType
  | .and | .or | .neg => .bool
  | _ => .int

mutual
/-- A node and all nodes below it. -/
def subnodes : AstNode → List AstNode
  | .null => []
  | .common line arity op left right =>
    .common line arity op left right :: (subnodes left ++ subnodes right)
  | .ifStmt line condition thenBlock elseBlock =>
    .ifStmt line condition thenBlock elseBlock ::
      (subnodes condition ++ subnodes thenBlock ++ subnodes elseBlock)
  | .whileStmt line condition block =>
    .whileStmt line condition block :: (subnodes condition ++ subnodes block)
  | .methodDecl line sym block => .methodDecl line sym block :: subnodes block
  | .methodCall line name numArgs args => .methodCall line name numArgs args :: subnodesList args
  | .block line stmts => .block line stmts :: subnodesList stmts
  | .leaf line value => [.leaf line value]
def subnodesList : AstNodeList → List AstNode
  | .nil => []
  | .cons first next => subnodes first ++ subnodesList next
end

/-- One argument for each parameter, of its type. -/
def ArgsTyped (tab : SymbolTable) (params : List Args) (args : AstNodeList) : Prop :=
  List.Forall₂ (fun param arg => ∃ type, param.type.toRetType? = some type ∧
    valueType tab arg = some type) params args.toList

/-- What a node demands of its children, in a method that returns `returns`. The value of
an initialiser may also be that of a void method. -/
def NodeTyped (tab : SymbolTable) (returns : Option RetType) : AstNode → Prop
  | .common _ _ .decl left right =>
    right = .null ∨ ∃ type, valueType tab left = some type ∧
      (valueType tab right = some type ∨ valueType tab right = some .void)
  | .common _ _ .assign left right =>
    ∃ line p type, left = .leaf line (.id p) ∧ declaredType tab p = some type ∧
      valueType tab right = some type
  | .common _ _ .ret left _ =>
    ∃ type, returns = some type ∧
      ((left = .null ∧ type = .void) ∨ (left ≠ .null ∧ valueType tab left = some type))
  | .common _ _ .eq left right =>
    ∃ type, valueType tab left = some type ∧ valueType tab right = some type
  | .common _ .binary op left right =>
    valueType tab left = some (operandType op) ∧ valueType tab right = some (operandType op)
  | .common _ .unary op left _ => valueType tab left = some (operandType op)
  | .ifStmt _ condition _ _ => valueType tab condition = some .bool
  | .whileStmt _ condition _ => valueType tab condition = some .bool
  | .methodCall _ name _ args =>
    ∃ method, methodNamed tab name = some method ∧ ArgsTyped tab method.args args
  | _ => True

/-- The return type of the method a sentence declares; a declaration of a variable is in
no method. -/
def enclosingType (tab : SymbolTable) : AstNode → Option RetType
  | .methodDecl _ sym _ =>
    (tab.entry sym).bind fun info => info.methodView.returnType.toRetType
  | _ => none

mutual
theorem subnodes_trans {n m : AstNode} (inner : m ∈ subnodes n) :
    ∀ {node : AstNode}, n ∈ subnodes node → m ∈ subnodes node
  | .null, mem => by simp [subnodes] at mem
  | .common line arity op left right, mem => by
    simp only [subnodes, List.mem_cons, List.mem_append] at mem ⊢
    rcases mem with rfl | mem | mem
    · simpa [subnodes] using inner
    · exact .inr (.inl (subnodes_trans inner mem))
    · exact .inr (.inr (subnodes_trans inner mem))
  | .ifStmt line condition thenBlock elseBlock, mem => by
    simp only [subnodes, List.mem_cons, List.mem_append] at mem ⊢
    rcases mem with rfl | (mem | mem) | mem
    · simpa [subnodes, or_assoc] using inner
    · exact .inr (.inl (.inl (subnodes_trans inner mem)))
    · exact .inr (.inl (.inr (subnodes_trans inner mem)))
    · exact .inr (.inr (subnodes_trans inner mem))
  | .whileStmt line condition block, mem => by
    simp only [subnodes, List.mem_cons, List.mem_append] at mem ⊢
    rcases mem with rfl | mem | mem
    · simpa [subnodes] using inner
    · exact .inr (.inl (subnodes_trans inner mem))
    · exact .inr (.inr (subnodes_trans inner mem))
  | .methodDecl line sym block, mem => by
    simp only [subnodes, List.mem_cons] at mem ⊢
    rcases mem with rfl | mem
    · simpa [subnodes] using inner
    · exact .inr (subnodes_trans inner mem)
  | .methodCall line name numArgs args, mem => by
    simp only [subnodes, List.mem_cons] at mem ⊢
    rcases mem with rfl | mem
    · simpa [subnodes] using inner
    · exact .inr (subnodesList_trans inner mem)
  | .block line stmts, mem => by
    simp only [subnodes, List.mem_cons] at mem ⊢
    rcases mem with rfl | mem
    · simpa [subnodes] using inner
    · exact .inr (subnodesList_trans inner mem)
  | .leaf line value, mem => by
    obtain rfl := List.mem_singleton.mp (by simpa [subnodes] using mem)
    exact inner
theorem subnodesList_trans {n m : AstNode} (inner : m ∈ subnodes n) :
    ∀ {list : AstNodeList}, n ∈ subnodesList list → m ∈ subnodesList list
  | .nil, mem => by simp [subnodesList] at mem
  | .cons first next, mem => by
    simp only [subnodesList, List.mem_append] at mem ⊢
    exact mem.imp (subnodes_trans inner) (subnodesList_trans inner)
end

theorem isVariable_iff {tab : SymbolTable} {p : IdPtr} :
    isVariable tab p = true ↔ ∃ name type, tab.entry p = some (.id name type) := by
  unfold isVariable
  constructor
  · intro h
    split at h
    · next info entry =>
      cases info with
      | id name type => exact ⟨name, type, entry⟩
      | methodDecl method => cases h
    · cases h
  · rintro ⟨name, type, entry⟩
    rw [entry]
    rfl

theorem symbolType_variable {tab : SymbolTable} {p : IdPtr} {type : RetType}
    (declared : isVariable tab p = true) (typed : leafType tab (.id p) = some type) :
    declaredType tab p = some type := by
  obtain ⟨name, ty, entry⟩ := isVariable_iff.mp declared
  simp only [leafType, entry, Option.bind_some] at typed
  simp only [declaredType, entry]
  cases ty <;> exact typed

theorem toTy_eq_some {type : RetType} {ty : Ty} (h : type.toTy? = some ty) :
    ty.toRetType? = some type := by
  cases type <;> cases h <;> rfl

theorem binaryType_operands {op : Operator} {l r type : RetType}
    (h : binaryType op l r = some type) (notEq : op ≠ .eq) :
    l = operandType op ∧ r = operandType op := by
  cases op <;> first
    | exact absurd rfl notEq
    | cases h
    | (simp only [binaryType] at h; split at h <;> first | assumption | cases h)

theorem binaryType_eq {l r type : RetType} (h : binaryType .eq l r = some type) : l = r := by
  simp only [binaryType] at h
  split at h
  · assumption
  · cases h

theorem binaryType_operatorType {op : Operator} {l r type : RetType}
    (h : binaryType op l r = some type) : operatorType op = some type := by
  cases op <;> first
    | cases h
    | (simp only [binaryType] at h; split at h <;> first | exact h | cases h)

theorem unaryType_operand {op : Operator} {l type : RetType} (h : unaryType op l = some type) :
    l = operandType op ∧ operatorType op = some type := by
  cases op <;> first
    | cases h
    | (simp only [unaryType] at h; split at h <;> first | exact ⟨‹_›, h⟩ | cases h)

theorem methodNamed_called {tab : SymbolTable} {line : Int} {name : Ident} {numArgs : Nat}
    {method : MethodInfo} (h : calledMethod tab line name numArgs = .ok method) :
    methodNamed tab name = some method ∧ method.numArgs = numArgs := by
  obtain ⟨p, found, entry, counted⟩ := calledMethod_entry h
  refine ⟨?_, counted⟩
  simp only [methodNamed, found, Option.bind_some, entry]

section Checked

variable {env : Env} {tab : SymbolTable}

mutual
theorem expr_typed (methods : tab.MethodsOk) (returns : Option RetType) :
    ∀ (node : AstNode) {type : RetType}, isExpr tab node = true →
      exprType env tab node = some type → (∀ p ∈ leafIds node, isVariable tab p = true) →
      valueType tab node = some type ∧ ∀ n ∈ subnodes node, NodeTyped tab returns n
  | .leaf line value, type, shape, typed, vars => by
    simp only [exprType] at typed
    refine ⟨?_, ?_⟩
    · cases value with
      | int v => exact typed
      | bool v => exact typed
      | id p => exact symbolType_variable (vars p (by simp [leafIds])) typed
    · intro n mem
      simp only [subnodes, List.mem_singleton] at mem
      exact mem ▸ trivial
  | .common line .binary op left right, type, shape, typed, vars => by
    simp only [isExpr, Bool.and_eq_true] at shape
    simp only [leafIds, List.mem_append] at vars
    simp only [exprType] at typed
    split at typed
    · next l r leftType rightType =>
      split at typed
      · cases typed
      · obtain ⟨leftValue, leftTyped⟩ := expr_typed methods returns left shape.1.2 leftType
          fun p mem => vars p (.inl mem)
        obtain ⟨rightValue, rightTyped⟩ := expr_typed methods returns right shape.2 rightType
          fun p mem => vars p (.inr mem)
        refine ⟨binaryType_operatorType typed, ?_⟩
        intro n mem
        simp only [subnodes, List.mem_cons, List.mem_append] at mem
        rcases mem with rfl | mem | mem
        · by_cases isEq : op = .eq
          · subst isEq
            obtain rfl := binaryType_eq typed
            exact ⟨l, leftValue, rightValue⟩
          · obtain ⟨rfl, rfl⟩ := binaryType_operands typed isEq
            have both : valueType tab left = some (operandType op) ∧
                valueType tab right = some (operandType op) := ⟨leftValue, rightValue⟩
            cases op <;> first
              | exact absurd rfl isEq
              | exact both
              | cases typed
        · exact leftTyped n mem
        · exact rightTyped n mem
    · cases typed
  | .common line .unary op left right, type, shape, typed, vars => by
    simp only [isExpr, Bool.and_eq_true] at shape
    simp only [leafIds, List.mem_append] at vars
    simp only [exprType, Option.bind_eq_some_iff] at typed
    obtain ⟨l, leftType, typed⟩ := typed
    obtain ⟨leftValue, leftTyped⟩ := expr_typed methods returns left shape.1.2 leftType
      fun p mem => vars p (.inl mem)
    obtain ⟨rfl, result⟩ := unaryType_operand typed
    obtain rfl := isNull_iff.mp shape.2
    refine ⟨result, ?_⟩
    intro n mem
    simp only [subnodes, List.append_nil, List.mem_cons] at mem
    rcases mem with rfl | mem
    · cases op <;> first
        | exact leftValue
        | cases typed
    · exact leftTyped n mem
  | .methodCall line name numArgs args, type, shape, typed, vars => by
    simp only [isExpr, Bool.and_eq_true, decide_eq_true_eq] at shape
    simp only [leafIds] at vars
    simp only [exprType] at typed
    split at typed
    · next method called =>
      split at typed
      · next accepted =>
        obtain ⟨named, counted⟩ := methodNamed_called called
        obtain ⟨p, -, entry, -⟩ := calledMethod_entry called
        have count : method.args.length = args.length :=
          (methods p method entry).1.symm.trans (counted.trans shape.1)
        obtain ⟨argsTyped, argNodes⟩ :=
          args_typed methods returns args method.args shape.2 accepted count vars
        refine ⟨by simp [valueType, named, typed], ?_⟩
        intro n mem
        simp only [subnodes, List.mem_cons] at mem
        rcases mem with rfl | mem
        · exact ⟨method, named, argsTyped⟩
        · exact argNodes n mem
      · cases typed
    · cases typed
  | .null, _, shape, _, _ | .ifStmt .., _, shape, _, _ | .whileStmt .., _, shape, _, _
  | .methodDecl .., _, shape, _, _ | .block .., _, shape, _, _ => by simp [isExpr] at shape
theorem args_typed (methods : tab.MethodsOk) (returns : Option RetType) :
    ∀ (args : AstNodeList) (params : List Args), areExprs tab args = true →
      argsAccepted env tab params args = true → params.length = args.length →
      (∀ p ∈ leafIdsList args, isVariable tab p = true) →
      ArgsTyped tab params args ∧ ∀ n ∈ subnodesList args, NodeTyped tab returns n
  | .nil, [], _, _, _, _ => ⟨.nil, by simp [subnodesList]⟩
  | .nil, _ :: _, _, _, count, _ => by cases count
  | .cons first next, [], _, _, count, _ => by cases count
  | .cons first next, param :: params, shape, accepted, count, vars => by
    simp only [areExprs, Bool.and_eq_true] at shape
    simp only [argsAccepted, Bool.and_eq_true, beq_iff_eq, Option.bind_eq_some_iff] at accepted
    simp only [leafIdsList, List.mem_append] at vars
    obtain ⟨⟨type, typed, converted⟩, rest⟩ := accepted
    obtain ⟨value, firstTyped⟩ := expr_typed methods returns first shape.1 typed
      fun p mem => vars p (.inl mem)
    obtain ⟨others, othersTyped⟩ := args_typed methods returns next params shape.2 rest
      (Nat.succ.inj count) fun p mem => vars p (.inr mem)
    refine ⟨.cons ⟨type, toTy_eq_some converted, value⟩ others, ?_⟩
    intro n mem
    simp only [subnodesList, List.mem_append] at mem
    exact mem.elim (firstTyped n) (othersTyped n)
end

theorem valueType_ne_null (node : AstNode) : valueType tab node ≠ some .null := by
  intro h
  unfold valueType at h
  split at h
  · cases h
  · cases h
  · unfold declaredType at h
    split at h
    · next type _ => cases type <;> cases h
    · cases h
  · next op _ _ => cases op <;> cases h
  · obtain ⟨method, -, returned⟩ := Option.bind_eq_some_iff.mp h
    cases type : method.returnType <;> simp [type, ReturnType.toRetType] at returned
  · cases h

theorem decl_typed (methods : tab.MethodsOk) (returns : Option RetType) {line : Int}
    {arity : OperatorArity} {left right : AstNode} {methodReturnType : RetType}
    (shape : isStmt tab (.common line arity .decl left right) = true)
    (accepted : stmtAccepted env tab methodReturnType (.common line arity .decl left right) = true)
    (vars : ∀ p ∈ leafIds (.common line arity .decl left right), isVariable tab p = true) :
    ∀ n ∈ subnodes (.common line arity .decl left right), NodeTyped tab returns n := by
  simp only [isStmt, Bool.and_eq_true, Bool.or_eq_true] at shape
  simp only [leafIds, List.mem_append] at vars
  obtain ⟨isId, initialiser⟩ := shape
  obtain ⟨line', p, info, rfl, entry⟩ := isIdLeaf_iff.mp isId
  intro n mem
  simp only [subnodes, List.mem_cons, List.cons_append, List.nil_append] at mem
  cases null : right.isNull with
  | true =>
    obtain rfl := isNull_iff.mp null
    rcases mem with rfl | rfl | mem
    · exact .inl rfl
    · trivial
    · cases mem
  | false =>
    have isExprRight : isExpr tab right = true := by simpa [null] using initialiser
    simp only [stmtAccepted, null, Bool.false_or] at accepted
    split at accepted
    · next l r leftType rightType =>
      obtain ⟨leftValue, -⟩ := expr_typed methods returns _ (isIdLeaf_isExpr isId) leftType
        fun q mem => vars q (.inl mem)
      obtain ⟨rightValue, rightTyped⟩ := expr_typed methods returns right isExprRight rightType
        fun q mem => vars q (.inr mem)
      rcases mem with rfl | rfl | mem
      · refine .inr ⟨l, leftValue, ?_⟩
        simp only [declAccepted, decide_eq_true_eq] at accepted
        rcases accepted with rfl | ⟨notInt, notBool⟩
        · exact .inl rightValue
        · cases r with
          | int => exact absurd rfl notInt
          | bool => exact absurd rfl notBool
          | void => exact .inr rightValue
          | null => exact absurd rightValue (valueType_ne_null right)
      · trivial
      · exact rightTyped n mem
    · cases accepted

mutual
theorem stmt_typed (methods : tab.MethodsOk) (off : env.optimizations = false)
    {returns : RetType} :
    ∀ (node : AstNode), isStmt tab node = true → stmtAccepted env tab returns node = true →
      (∀ p ∈ leafIds node, isVariable tab p = true) →
      ∀ n ∈ subnodes node, NodeTyped tab (some returns) n
  | .common line arity op left right, shape, accepted, vars => by
    cases op with
    | decl => exact decl_typed methods (some returns) shape accepted vars
    | assign =>
      simp only [isStmt, Bool.and_eq_true, decide_eq_true_eq] at shape
      obtain ⟨⟨rfl, isId⟩, isExprRight⟩ := shape
      obtain ⟨line', p, info, rfl, entry⟩ := isIdLeaf_iff.mp isId
      simp only [leafIds, List.mem_append] at vars
      simp only [stmtAccepted] at accepted
      split at accepted
      · next l r leftType rightType =>
        obtain rfl := of_decide_eq_true accepted
        obtain ⟨leftValue, -⟩ := expr_typed methods (some returns) _ (isIdLeaf_isExpr isId)
          leftType fun q mem => vars q (.inl mem)
        obtain ⟨rightValue, rightTyped⟩ := expr_typed methods (some returns) right isExprRight
          rightType fun q mem => vars q (.inr mem)
        intro n mem
        simp only [subnodes, List.mem_cons, List.cons_append, List.nil_append] at mem
        rcases mem with rfl | rfl | mem
        · exact ⟨line', p, l, rfl, leftValue, rightValue⟩
        · trivial
        · exact rightTyped n mem
      · cases accepted
    | ret =>
      simp only [isStmt, Bool.and_eq_true, Bool.or_eq_true] at shape
      obtain ⟨value, rightNull⟩ := shape
      obtain rfl := isNull_iff.mp rightNull
      simp only [leafIds, List.append_nil] at vars
      intro n mem
      simp only [subnodes, List.append_nil, List.mem_cons] at mem
      cases null : left.isNull with
      | true =>
        obtain rfl := isNull_iff.mp null
        simp only [stmtAccepted, null, if_true, decide_eq_true_eq] at accepted
        rcases mem with rfl | mem
        · exact ⟨returns, rfl, .inl ⟨rfl, accepted⟩⟩
        · cases mem
      | false =>
        have isExprLeft : isExpr tab left = true := by simpa [null] using value
        simp only [stmtAccepted, null, Bool.false_eq_true, if_false, beq_iff_eq] at accepted
        obtain ⟨leftValue, leftTyped⟩ := expr_typed methods (some returns) left isExprLeft
          accepted vars
        rcases mem with rfl | mem
        · refine ⟨returns, rfl, .inr ⟨?_, leftValue⟩⟩
          rintro rfl
          cases null
        · exact leftTyped n mem
    | _ => cases shape
  | .ifStmt line condition thenBlock elseBlock, shape, accepted, vars => by
    simp only [isStmt, Bool.and_eq_true, Bool.or_eq_true] at shape
    simp only [stmtAccepted, ifCase_off off, Bool.and_eq_true, beq_iff_eq, Bool.or_eq_true]
      at accepted
    simp only [leafIds, List.mem_append] at vars
    obtain ⟨⟨conditionShape, thenShape⟩, elseShape⟩ := shape
    obtain ⟨conditionType, thenAccepted, elseAccepted⟩ := accepted
    obtain ⟨value, conditionTyped⟩ := expr_typed methods (some returns) condition conditionShape
      conditionType fun p mem => vars p (.inl (.inl mem))
    intro n mem
    simp only [subnodes, List.mem_cons, List.mem_append] at mem
    rcases mem with rfl | (mem | mem) | mem
    · exact value
    · exact conditionTyped n mem
    · rcases thenShape with null | ⟨-, isStmt⟩
      · obtain rfl := isNull_iff.mp null
        cases mem
      · exact stmt_typed methods off thenBlock isStmt thenAccepted
          (fun p mem => vars p (.inl (.inr mem))) n mem
    · rcases elseShape with null | ⟨isBlock, isStmt⟩
      · obtain rfl := isNull_iff.mp null
        cases mem
      · have nonNull : elseBlock.isNull = false := by
          cases elseBlock <;> first | rfl | cases isBlock
        exact stmt_typed methods off elseBlock isStmt (by simpa [nonNull] using elseAccepted)
          (fun p mem => vars p (.inr mem)) n mem
  | .whileStmt line condition block, shape, accepted, vars => by
    simp only [isStmt, Bool.and_eq_true, Bool.or_eq_true] at shape
    simp only [stmtAccepted, Bool.and_eq_true, beq_iff_eq] at accepted
    simp only [leafIds, List.mem_append] at vars
    obtain ⟨conditionShape, blockShape⟩ := shape
    obtain ⟨⟨conditionType, blockAccepted⟩, -⟩ := accepted
    obtain ⟨value, conditionTyped⟩ := expr_typed methods (some returns) condition conditionShape
      conditionType fun p mem => vars p (.inl mem)
    intro n mem
    simp only [subnodes, List.mem_cons, List.mem_append] at mem
    rcases mem with rfl | mem | mem
    · exact value
    · exact conditionTyped n mem
    · rcases blockShape with null | ⟨-, isStmt⟩
      · obtain rfl := isNull_iff.mp null
        cases mem
      · exact stmt_typed methods off block isStmt blockAccepted
          (fun p mem => vars p (.inr mem)) n mem
  | .methodCall line name numArgs args, shape, accepted, vars => by
    obtain ⟨type, typed⟩ := Option.isSome_iff_exists.mp accepted
    exact (expr_typed methods (some returns) (.methodCall line name numArgs args) shape typed
      vars).2
  | .block line stmts, shape, accepted, vars => by
    intro n mem
    simp only [subnodes, List.mem_cons] at mem
    rcases mem with rfl | mem
    · trivial
    · exact stmts_typed methods off stmts shape accepted vars n mem
  | .null, shape, _, _ | .methodDecl .., shape, _, _ | .leaf .., shape, _, _ => by cases shape
theorem stmts_typed (methods : tab.MethodsOk) (off : env.optimizations = false)
    {returns : RetType} :
    ∀ (stmts : AstNodeList), areStmts tab stmts = true →
      stmtsAccepted env tab returns stmts = true →
      (∀ p ∈ leafIdsList stmts, isVariable tab p = true) →
      ∀ n ∈ subnodesList stmts, NodeTyped tab (some returns) n
  | .nil, _, _, _ => by simp [subnodesList]
  | .cons first next, shape, accepted, vars => by
    simp only [areStmts, Bool.and_eq_true] at shape
    simp only [stmtsAccepted, Bool.and_eq_true] at accepted
    simp only [leafIdsList, List.mem_append] at vars
    intro n mem
    simp only [subnodesList, List.mem_append] at mem
    rcases mem with mem | mem
    · exact stmt_typed methods off first shape.1 accepted.1 (fun p mem => vars p (.inl mem)) n mem
    · exact stmts_typed methods off next shape.2 accepted.2 (fun p mem => vars p (.inr mem)) n mem
end

end Checked

/-- Statement checking is sound at every depth: in an accepted program whose identifiers
are variables, every node of every sentence has what it demands. -/
theorem statements_typed {env : Env} (off : env.optimizations = false) {prog : ProgramSyn}
    {ps : ParserState} {sentences : List AstNode} (parsed : parse prog = .ok ps)
    (accepted : semanticAnalyzer env ps.tab ps.headAst = .ok sentences)
    (vars : ∀ sentence ∈ ps.headAst, ∀ p ∈ leafIds sentence, isVariable ps.tab p = true) :
    ∀ sentence ∈ ps.headAst, ∀ node ∈ subnodes sentence,
      NodeTyped ps.tab (enclosingType ps.tab sentence) node := by
  have ok := parse_sentencesOk parsed
  intro sentence mem node inside
  rcases topLevel_cases (ok.topLevel mem) with ⟨line, arity, left, right, rfl⟩ |
    ⟨line, sym, block, -, rfl, -, -⟩
  · obtain ⟨shape, methodReturnType, checked⟩ := decl_accepted ok accepted mem
    exact decl_typed ok.wf.methods _ shape checked (vars _ mem) node inside
  · obtain ⟨method, declared, -, body⟩ := method_accepted ok accepted mem
    have returns : enclosingType ps.tab (.methodDecl line sym block) = some method.retType := by
      simp only [enclosingType, declared.entry, Option.bind_some, SymbolInfo.methodView,
        declared.toRetType]
    rw [returns]
    simp only [subnodes, List.mem_cons] at inside
    rcases inside with rfl | inside
    · trivial
    · rcases body with rfl | ⟨shape, checked⟩
      · cases inside
      · exact stmt_typed ok.wf.methods off block shape checked
          (vars (.methodDecl line sym block) mem) node inside

/-- `bool even(integer n) { if (n % 2 == 0) { return true; } else { n = 0; } return false; }
integer main() { integer x = 4; while (even(x)) { x = x - 1; } return x; }`. -/
def evenLoop : ProgramSyn :=
  let even : Ident := .of "even"
  let n : Ident := .of "n"
  let x : Ident := .of "x"
  [.methodDecl ⟨1, some .bool, even, [⟨1, .integer, n⟩],
      some (.mk 1 [] (.cons (.ifThenElse 1
        (.binary 1 .eq (.binary 1 .percent (.id 1 n) (.integerLiteral 1 2)) (.integerLiteral 1 0))
        (.mk 1 [] (.cons (.returnExpr 1 (.trueLiteral 1)) .nil))
        (.mk 1 [] (.cons (.assign 1 n (.integerLiteral 1 0)) .nil)))
        (.cons (.returnExpr 1 (.falseLiteral 1)) .nil)))⟩,
    .methodDecl ⟨2, some .integer, .of "main", [],
      some (.mk 2 [⟨2, .integer, x, some (.integerLiteral 2 4)⟩]
        (.cons (.whileLoop 2 (.methodCall 2 even (.cons (.id 2 x) .nil))
          (.mk 2 [] (.cons (.assign 2 x (.binary 2 .minus (.id 2 x) (.integerLiteral 2 1))) .nil)))
        (.cons (.returnExpr 2 (.id 2 x)) .nil)))⟩]

theorem statements_typed_evenLoop :
    ∃ ps sentences, parse evenLoop = .ok ps ∧
      semanticAnalyzer (.sample false) ps.tab ps.headAst = .ok sentences ∧
      ∀ sentence ∈ ps.headAst, ∀ node ∈ subnodes sentence,
        NodeTyped ps.tab (enclosingType ps.tab sentence) node := by
  obtain ⟨checked, whole⟩ :=
    isOk_iff.mp (by decide +kernel : (frontEnd (.sample false) evenLoop).isOk = true)
  obtain ⟨ps, parsed, -, accepted⟩ := frontEnd_ok whole
  have vars : (parse evenLoop).toOption.map (fun ps => ps.headAst.all fun sentence =>
      (leafIds sentence).all (isVariable ps.tab)) = some true := by decide +kernel
  simp only [parsed, Except.toOption, Option.map_some, Option.some.injEq, List.all_eq_true] at vars
  exact ⟨ps, _, parsed, accepted, statements_typed rfl parsed accepted vars⟩

end Ctds
