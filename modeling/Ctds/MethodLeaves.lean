import Ctds.VoidValues

/-! Identifier leaves that denote methods. `find` returns variables and methods alike, and
the analyzer reads `id.type` where the symbol of a method holds its number of parameters:
a method without parameters reads as an int variable, one with a single parameter as a
bool variable. -/

namespace Ctds

open Fallible SymbolTable

mutual
theorem expr_leaf_entry {tab : SymbolTable} {line : Int} {p : IdPtr} :
    ∀ (node : AstNode), isExpr tab node = true → .leaf line (.id p) ∈ subnodes node →
      tab.hasEntry p = true
  | .leaf line' value, shape, mem => by
    obtain ⟨-, rfl⟩ : line = line' ∧ LeafValue.id p = value := by simpa [subnodes] using mem
    exact shape
  | .common _ .binary op left right, shape, mem => by
    simp only [isExpr, Bool.and_eq_true] at shape
    simp only [subnodes, List.mem_cons, List.mem_append, reduceCtorEq, false_or] at mem
    rcases mem with mem | mem
    · exact expr_leaf_entry left shape.1.2 mem
    · exact expr_leaf_entry right shape.2 mem
  | .common _ .unary op left right, shape, mem => by
    simp only [isExpr, Bool.and_eq_true] at shape
    obtain rfl := isNull_iff.mp shape.2
    simp only [subnodes, List.append_nil, List.mem_cons, reduceCtorEq, false_or] at mem
    exact expr_leaf_entry left shape.1.2 mem
  | .methodCall _ name numArgs args, shape, mem => by
    simp only [isExpr, Bool.and_eq_true] at shape
    simp only [subnodes, List.mem_cons, reduceCtorEq, false_or] at mem
    exact exprs_leaf_entry args shape.2 mem
  | .null, shape, _ | .ifStmt .., shape, _ | .whileStmt .., shape, _ | .methodDecl .., shape, _
  | .block .., shape, _ => by simp [isExpr] at shape
theorem exprs_leaf_entry {tab : SymbolTable} {line : Int} {p : IdPtr} :
    ∀ (args : AstNodeList), areExprs tab args = true → .leaf line (.id p) ∈ subnodesList args →
      tab.hasEntry p = true
  | .nil, _, mem => by simp [subnodesList] at mem
  | .cons first next, shape, mem => by
    simp only [areExprs, Bool.and_eq_true] at shape
    simp only [subnodesList, List.mem_append] at mem
    rcases mem with mem | mem
    · exact expr_leaf_entry first shape.1 mem
    · exact exprs_leaf_entry next shape.2 mem
end

theorem exprOrNull_leaf_entry {tab : SymbolTable} {line : Int} {p : IdPtr} {node : AstNode}
    (shape : node.isNull = true ∨ isExpr tab node = true)
    (mem : .leaf line (.id p) ∈ subnodes node) : tab.hasEntry p = true := by
  rcases shape with null | shape
  · obtain rfl := isNull_iff.mp null
    cases mem
  · exact expr_leaf_entry node shape mem

mutual
theorem stmt_leaf_entry {tab : SymbolTable} {line : Int} {p : IdPtr} :
    ∀ (node : AstNode), isStmt tab node = true → .leaf line (.id p) ∈ subnodes node →
      tab.hasEntry p = true
  | .common line' arity op left right, shape, mem => by
    simp only [subnodes, List.mem_cons, List.mem_append, reduceCtorEq, false_or] at mem
    unfold isStmt at shape
    cases op with
    | decl =>
      simp only [Bool.and_eq_true, Bool.or_eq_true] at shape
      rcases mem with mem | mem
      · exact expr_leaf_entry left (isIdLeaf_isExpr shape.1) mem
      · exact exprOrNull_leaf_entry shape.2 mem
    | assign =>
      simp only [Bool.and_eq_true] at shape
      rcases mem with mem | mem
      · exact expr_leaf_entry left (isIdLeaf_isExpr shape.1.2) mem
      · exact expr_leaf_entry right shape.2 mem
    | ret =>
      simp only [Bool.and_eq_true, Bool.or_eq_true] at shape
      rcases mem with mem | mem
      · exact exprOrNull_leaf_entry shape.1 mem
      · exact exprOrNull_leaf_entry (.inl shape.2) mem
    | _ => cases shape
  | .ifStmt _ condition thenBlock elseBlock, shape, mem => by
    simp only [isStmt, Bool.and_eq_true, Bool.or_eq_true] at shape
    simp only [subnodes, List.mem_cons, List.mem_append, reduceCtorEq, false_or] at mem
    rcases mem with (mem | mem) | mem
    · exact expr_leaf_entry condition shape.1.1 mem
    · rcases shape.1.2 with null | ⟨-, isStmt⟩
      · obtain rfl := isNull_iff.mp null
        cases mem
      · exact stmt_leaf_entry thenBlock isStmt mem
    · rcases shape.2 with null | ⟨-, isStmt⟩
      · obtain rfl := isNull_iff.mp null
        cases mem
      · exact stmt_leaf_entry elseBlock isStmt mem
  | .whileStmt _ condition block, shape, mem => by
    simp only [isStmt, Bool.and_eq_true, Bool.or_eq_true] at shape
    simp only [subnodes, List.mem_cons, List.mem_append, reduceCtorEq, false_or] at mem
    rcases mem with mem | mem
    · exact expr_leaf_entry condition shape.1 mem
    · rcases shape.2 with null | ⟨-, isStmt⟩
      · obtain rfl := isNull_iff.mp null
        cases mem
      · exact stmt_leaf_entry block isStmt mem
  | .methodCall line' name numArgs args, shape, mem =>
    expr_leaf_entry (.methodCall line' name numArgs args) shape mem
  | .block _ stmts, shape, mem => by
    simp only [subnodes, List.mem_cons, reduceCtorEq, false_or] at mem
    exact stmts_leaf_entry stmts shape mem
  | .null, shape, _ | .methodDecl .., shape, _ | .leaf .., shape, _ => by cases shape
theorem stmts_leaf_entry {tab : SymbolTable} {line : Int} {p : IdPtr} :
    ∀ (stmts : AstNodeList), areStmts tab stmts = true → .leaf line (.id p) ∈ subnodesList stmts →
      tab.hasEntry p = true
  | .nil, _, mem => by simp [subnodesList] at mem
  | .cons first next, shape, mem => by
    simp only [areStmts, Bool.and_eq_true] at shape
    simp only [subnodesList, List.mem_append] at mem
    rcases mem with mem | mem
    · exact stmt_leaf_entry first shape.1 mem
    · exact stmts_leaf_entry next shape.2 mem
end

theorem sentence_leaf_entry {tab : SymbolTable} {line : Int} {p : IdPtr} {sentence : AstNode}
    (shape : isSentence tab sentence = true) (mem : .leaf line (.id p) ∈ subnodes sentence) :
    tab.hasEntry p = true := by
  unfold isSentence at shape
  split at shape
  · exact stmt_leaf_entry _ shape mem
  · next line' sym block =>
    simp only [Bool.and_eq_true] at shape
    simp only [subnodes, List.mem_cons, reduceCtorEq, false_or] at mem
    rcases isBranch_iff.mp shape.2 with rfl | ⟨line₁, stmts, rfl, areStmts⟩
    · cases mem
    · exact stmt_leaf_entry (.block line₁ stmts) areStmts mem
  · cases shape

theorem list_mem_subnodes {node : AstNode} (nonNull : node ≠ .null) :
    ∀ {list : AstNodeList}, node ∈ list.toList → node ∈ subnodesList list
  | .nil, mem => by simp [AstNodeList.toList] at mem
  | .cons first next, mem => by
    simp only [AstNodeList.toList, List.mem_cons] at mem
    simp only [subnodesList, List.mem_append]
    rcases mem with rfl | mem
    · exact .inl (self_mem_subnodes nonNull)
    · exact .inr (list_mem_subnodes nonNull mem)

theorem operand_mem_subnodes {node operand : AstNode} (nonNull : operand ≠ .null)
    (mem : operand ∈ operands node) : operand ∈ subnodes node := by
  have self := self_mem_subnodes nonNull
  unfold operands at mem
  split at mem
  · obtain rfl := List.mem_singleton.mp mem
    simp [subnodes, self]
  · rcases List.mem_pair.mp mem with rfl | rfl
    · simp [subnodes, self]
    · simp [subnodes, self]
  · obtain rfl := List.mem_singleton.mp mem
    simp [subnodes, self]
  · obtain rfl := List.mem_singleton.mp mem
    simp [subnodes, self]
  · simp [subnodes, list_mem_subnodes nonNull mem]
  · cases mem

theorem args_operand {env : Env} {tab : SymbolTable} :
    ∀ (args : AstNodeList) (params : List Args), params.length = args.length →
      argsAccepted env tab params args = true →
      ∀ arg ∈ args.toList, (exprType env tab arg).isSome = true
  | .nil, _, _, _ => by simp [AstNodeList.toList]
  | .cons first next, [], count, _ => by cases count
  | .cons first next, param :: params, count, accepted => by
    simp only [argsAccepted, Bool.and_eq_true, beq_iff_eq, Option.bind_eq_some_iff] at accepted
    obtain ⟨⟨type, typed, -⟩, rest⟩ := accepted
    intro arg mem
    simp only [AstNodeList.toList, List.mem_cons] at mem
    rcases mem with rfl | mem
    · exact typed ▸ rfl
    · exact args_operand next params (Nat.succ.inj count) rest arg mem

theorem expr_operand {env : Env} {tab : SymbolTable} (methods : tab.MethodsOk)
    {node operand : AstNode} (shape : isExpr tab node = true)
    (typed : (exprType env tab node).isSome = true) (nonNull : operand ≠ .null)
    (mem : operand ∈ operands node) : (exprType env tab operand).isSome = true := by
  obtain ⟨type, typed⟩ := Option.isSome_iff_exists.mp typed
  cases node with
  | leaf line value => cases mem
  | common line arity op left right =>
    cases arity with
    | binary =>
      simp only [isExpr, Bool.and_eq_true] at shape
      obtain ⟨l, r, leftType, rightType, -, -⟩ := exprType_binary typed
      rw [operands_binary shape.1.1] at mem
      rcases List.mem_pair.mp mem with rfl | rfl
      · exact leftType ▸ rfl
      · exact rightType ▸ rfl
    | unary =>
      simp only [isExpr, Bool.and_eq_true] at shape
      obtain rfl := isNull_iff.mp shape.2
      simp only [exprType, Option.bind_eq_some_iff] at typed
      obtain ⟨l, leftType, -⟩ := typed
      rw [operands_unary shape.1.1] at mem
      rcases List.mem_pair.mp mem with rfl | rfl
      · exact leftType ▸ rfl
      · exact absurd rfl nonNull
  | methodCall line name numArgs args =>
    simp only [isExpr, Bool.and_eq_true, decide_eq_true_eq] at shape
    obtain ⟨method, called, accepted, -⟩ := exprType_call typed
    exact args_operand args method.args (called_length methods shape.1 called) accepted operand mem
  | _ => simp [isExpr] at shape

theorem checked_operand {env : Env} {tab : SymbolTable} (methods : tab.MethodsOk)
    {node operand : AstNode} (checked : NodeChecked env tab node) (nonNull : operand ≠ .null)
    (mem : operand ∈ operands node) : (exprType env tab operand).isSome = true := by
  cases checked with
  | expr shape typed => exact expr_operand methods shape typed nonNull mem
  | declared line p => cases mem
  | @stmt _ methodReturnType shape accepted =>
    cases node with
    | common line arity op left right =>
      unfold isStmt at shape
      unfold stmtAccepted at accepted
      cases op with
      | decl =>
        obtain rfl := List.mem_singleton.mp mem
        have null : operand.isNull = false :=
          Bool.eq_false_iff.mpr fun h => nonNull (isNull_iff.mp h)
        simp only [null, Bool.false_or] at accepted
        split at accepted
        · next l r _ rightType => exact rightType ▸ rfl
        · cases accepted
      | assign =>
        simp only at accepted
        split at accepted
        · next l r leftType rightType =>
          rcases List.mem_pair.mp mem with rfl | rfl
          · exact leftType ▸ rfl
          · exact rightType ▸ rfl
        · cases accepted
      | ret =>
        simp only [Bool.and_eq_true] at shape
        obtain rfl := isNull_iff.mp shape.2
        rcases List.mem_pair.mp mem with rfl | rfl
        · have null : operand.isNull = false :=
            Bool.eq_false_iff.mpr fun h => nonNull (isNull_iff.mp h)
          simp only [null, Bool.false_eq_true, if_false, beq_iff_eq] at accepted
          exact accepted ▸ rfl
        · exact absurd rfl nonNull
      | _ => cases shape
    | ifStmt line condition thenBlock elseBlock =>
      simp only [stmtAccepted, Bool.and_eq_true, beq_iff_eq] at accepted
      obtain rfl := List.mem_singleton.mp mem
      exact accepted.1 ▸ rfl
    | whileStmt line condition block =>
      simp only [stmtAccepted, Bool.and_eq_true, beq_iff_eq] at accepted
      obtain rfl := List.mem_singleton.mp mem
      exact accepted.1.1 ▸ rfl
    | methodCall line name numArgs args =>
      have isExpr : isExpr tab (.methodCall line name numArgs args) = true := shape
      exact expr_operand methods isExpr accepted nonNull mem
    | block line stmts => cases mem
    | _ => cases shape

theorem leaf_method {env : Env} {tab : SymbolTable} {line : Int} {p : IdPtr} {method : MethodInfo}
    (typed : (exprType env tab (.leaf line (.id p))).isSome = true)
    (entry : tab.entry p = some (.methodDecl method)) : method.numArgs ≤ 1 := by
  simp only [exprType, leafType, entry, Option.bind_some, symbolType] at typed
  by_contra many
  have notInt : (SymbolInfo.methodDecl method).idType ≠ Ty.int.code := by
    simp only [SymbolInfo.idType, Ty.code]
    omega
  have notBool : (SymbolInfo.methodDecl method).idType ≠ Ty.bool.code := by
    simp only [SymbolInfo.idType, Ty.code]
    omega
  rw [if_neg notInt, if_neg notBool] at typed
  cases typed

/-- In an accepted program every identifier denotes a variable exactly if none denotes a
method of at most one parameter, and none a method in a branch that `-opt` drops. -/
theorem identifiers_variables_iff {env : Env} {prog : ProgramSyn} {ps : ParserState}
    {sentences : List AstNode} (parsed : parse prog = .ok ps)
    (accepted : semanticAnalyzer env ps.tab ps.headAst = .ok sentences) :
    (∀ sentence ∈ ps.headAst, ∀ node ∈ subnodes sentence, ∀ line p,
        .leaf line (.id p) ∈ operands node → isVariable ps.tab p = true) ↔
      ∀ sentence ∈ ps.headAst, ∀ node ∈ subnodes sentence, ∀ line p,
        .leaf line (.id p) ∈ operands node → ∀ method,
          ps.tab.entry p = some (.methodDecl method) →
          2 ≤ method.numArgs ∧ node ∉ droppedNodes env sentence := by
  have ok := parse_sentencesOk parsed
  constructor
  · intro allVariables sentence mem node inside line p used method entry
    obtain ⟨name, type, isId⟩ :=
      isVariable_iff.mp (allVariables sentence mem node inside line p used)
    rw [entry] at isId
    cases isId
  · intro condition sentence mem node inside line p used
    have leafInside : .leaf line (.id p) ∈ subnodes sentence :=
      subnodes_trans (operand_mem_subnodes (by simp) used) inside
    obtain ⟨info, entry⟩ := hasEntry_iff.mp (sentence_leaf_entry (ok.shape sentence mem) leafInside)
    cases info with
    | id name type => exact isVariable_iff.mpr ⟨name, type, entry⟩
    | methodDecl method =>
      obtain ⟨many, kept⟩ := condition sentence mem node inside line p used method entry
      have visited := ((subnodes_visited env sentence).mp inside).resolve_right kept
      rcases sentence_visited ok accepted mem visited with ⟨line', sym, block, rfl⟩ | checked
      · cases used
      · have typed := checked_operand ok.wf.methods checked (by simp) used
        have few := leaf_method typed entry
        omega

/-- `integer f() { return 1; } integer main() { return f; }`, or with another name in the
place of `f` at the end. -/
def returnsName (name : Ident) : ProgramSyn :=
  [.methodDecl ⟨1, some .integer, .of "f", [],
      some (.mk 1 [] (.cons (.returnExpr 1 (.integerLiteral 1 1)) .nil))⟩,
    .methodDecl ⟨2, some .integer, .of "main", [],
      some (.mk 2 [⟨2, .integer, .of "x", none⟩] (.cons (.returnExpr 3 (.id 3 name)) .nil))⟩]

/-- An identifier leaf that denotes a method. -/
def methodLeaf (tab : SymbolTable) : AstNode → Bool
  | .leaf _ (.id p) => (tab.entry p).any SymbolInfo.isMethod
  | _ => false

theorem methodLeaf_iff {tab : SymbolTable} {node : AstNode} :
    methodLeaf tab node = true ↔
      ∃ line p method, node = .leaf line (.id p) ∧ tab.entry p = some (.methodDecl method) := by
  constructor
  · intro h
    unfold methodLeaf at h
    split at h
    · next line p =>
      cases entry : tab.entry p with
      | none => simp [entry] at h
      | some info =>
        cases info with
        | id name type => simp [entry, SymbolInfo.isMethod] at h
        | methodDecl method => exact ⟨line, p, method, rfl, entry⟩
    · cases h
  · rintro ⟨line, p, method, rfl, entry⟩
    simp [methodLeaf, entry, SymbolInfo.isMethod]

/-- The leaf `f` denotes the method. -/
theorem identifier_denotes_method :
    ∃ ps sentences, parse (returnsName (.of "f")) = .ok ps ∧
      semanticAnalyzer (.sample false) ps.tab ps.headAst = .ok sentences ∧
      ∃ sentence ∈ ps.headAst, ∃ node ∈ subnodes sentence, ∃ line p,
        .leaf line (.id p) ∈ operands node ∧ isVariable ps.tab p = false := by
  obtain ⟨checked, whole⟩ :=
    isOk_iff.mp (by decide +kernel : (frontEnd (.sample false) (returnsName (.of "f"))).isOk = true)
  obtain ⟨ps, parsed, -, accepted⟩ := frontEnd_ok whole
  have used : (parse (returnsName (.of "f"))).toOption.map (fun ps =>
      ps.headAst.any fun sentence => (subnodes sentence).any fun node =>
        (operands node).any (methodLeaf ps.tab)) = some true := by decide +kernel
  simp only [parsed, Except.toOption, Option.map_some, Option.some.injEq, List.any_eq_true] at used
  obtain ⟨sentence, mem, node, inside, operand, isOperand, isMethod⟩ := used
  obtain ⟨line, p, method, rfl, entry⟩ := methodLeaf_iff.mp isMethod
  have notVariable : isVariable ps.tab p = false := by simp [isVariable, entry, SymbolInfo.isMethod]
  exact ⟨ps, _, parsed, accepted, sentence, mem, node, inside, line, p, isOperand, notVariable⟩

/-- With `x` in its place every identifier denotes a variable. -/
theorem identifiers_variables_x :
    ∃ ps, parse (returnsName (.of "x")) = .ok ps ∧
      ∀ sentence ∈ ps.headAst, ∀ node ∈ subnodes sentence, ∀ line p,
        .leaf line (.id p) ∈ operands node → isVariable ps.tab p = true := by
  obtain ⟨checked, whole⟩ :=
    isOk_iff.mp (by decide +kernel : (frontEnd (.sample false) (returnsName (.of "x"))).isOk = true)
  obtain ⟨ps, parsed, -, accepted⟩ := frontEnd_ok whole
  refine ⟨ps, parsed, (identifiers_variables_iff parsed accepted).mpr ?_⟩
  have absent : (parse (returnsName (.of "x"))).toOption.map (fun ps =>
      ps.headAst.all fun sentence => (subnodes sentence).all fun node =>
        (operands node).all fun operand => !methodLeaf ps.tab operand) = some true := by
    decide +kernel
  simp only [parsed, Except.toOption, Option.map_some, Option.some.injEq, List.all_eq_true,
    Bool.not_eq_true'] at absent
  intro sentence mem node inside line p used method entry
  have isMethod := methodLeaf_iff.mpr ⟨line, p, method, rfl, entry⟩
  rw [absent sentence mem node inside _ used] at isMethod
  cases isMethod

end Ctds
