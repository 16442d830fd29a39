import Ctds.Typing

/-! The nodes of an accepted program. The analyzer visits all of them, except those in
branches that `-opt` drops, and what it visits has passed its own check. -/

namespace Ctds

open Fallible SymbolTable

theorem self_mem_subnodes {node : AstNode} (h : node ≠ .null) : node ∈ subnodes node := by
  cases node with
  | null => exact absurd rfl h
  | _ => simp [subnodes]

theorem isExpr_ne_null {tab : SymbolTable} {node : AstNode} (shape : isExpr tab node = true) :
    node ≠ .null := by
  rintro rfl
  simp [isExpr] at shape

theorem exprType_binary {env : Env} {tab : SymbolTable} {line : Int} {op : Operator}
    {left right : AstNode} {type : RetType}
    (typed : exprType env tab (.common line .binary op left right) = some type) :
    ∃ l r, exprType env tab left = some l ∧ exprType env tab right = some r ∧
      foldFaults env op (foldTree env left) (foldTree env right) = false ∧
      binaryType op l r = some type := by
  simp only [exprType] at typed
  split at typed
  · next l r left' right' =>
    split at typed
    · cases typed
    · next safe => exact ⟨l, r, left', right', Bool.eq_false_iff.mpr safe, typed⟩
  · cases typed

theorem exprType_call {env : Env} {tab : SymbolTable} {line : Int} {name : Ident} {numArgs : Nat}
    {args : AstNodeList} {type : RetType}
    (typed : exprType env tab (.methodCall line name numArgs args) = some type) :
    ∃ method, calledMethod tab line name numArgs = .ok method ∧
      argsAccepted env tab method.args args = true ∧ method.returnType.toRetType = some type := by
  simp only [exprType] at typed
  split at typed
  · next method called =>
    split at typed
    · next accepted => exact ⟨method, called, accepted, typed⟩
    · cases typed
  · cases typed

theorem called_length {tab : SymbolTable} (methods : tab.MethodsOk) {line : Int} {name : Ident}
    {numArgs : Nat} {args : AstNodeList} {method : MethodInfo} (counted : numArgs = args.length)
    (called : calledMethod tab line name numArgs = .ok method) :
    method.args.length = args.length := by
  obtain ⟨p, -, entry, number⟩ := calledMethod_entry called
  exact (methods p method entry).1.symm.trans (number.trans counted)

mutual
theorem exprType_subnodes (env : Env) {tab : SymbolTable} (methods : tab.MethodsOk) :
    ∀ (node : AstNode), isExpr tab node = true → (exprType env tab node).isSome = true →
      ∀ sub ∈ subnodes node, isExpr tab sub = true ∧ (exprType env tab sub).isSome = true
  | .leaf line value, shape, typed => by
    intro sub mem
    obtain rfl := List.mem_singleton.mp (by simpa [subnodes] using mem)
    exact ⟨shape, typed⟩
  | .common line .binary op left right, shape, typed => by
    have shapes := shape
    simp only [isExpr, Bool.and_eq_true] at shapes
    obtain ⟨type, is⟩ := Option.isSome_iff_exists.mp typed
    obtain ⟨l, r, leftType, rightType, -, -⟩ := exprType_binary is
    have subLeft := exprType_subnodes env methods left shapes.1.2 (by simp [leftType])
    have subRight := exprType_subnodes env methods right shapes.2 (by simp [rightType])
    intro sub mem
    simp only [subnodes, List.mem_cons, List.mem_append] at mem
    rcases mem with rfl | mem | mem
    · exact ⟨shape, typed⟩
    · exact subLeft sub mem
    · exact subRight sub mem
  | .common line .unary op left right, shape, typed => by
    have shapes := shape
    simp only [isExpr, Bool.and_eq_true] at shapes
    obtain rfl := isNull_iff.mp shapes.2
    obtain ⟨type, is⟩ := Option.isSome_iff_exists.mp typed
    simp only [exprType] at is
    obtain ⟨l, leftType, -⟩ := Option.bind_eq_some_iff.mp is
    have subLeft := exprType_subnodes env methods left shapes.1.2 (by simp [leftType])
    intro sub mem
    simp only [subnodes, List.append_nil, List.mem_cons] at mem
    rcases mem with rfl | mem
    · exact ⟨shape, typed⟩
    · exact subLeft sub mem
  | .methodCall line name numArgs args, shape, typed => by
    have shapes := shape
    simp only [isExpr, Bool.and_eq_true, decide_eq_true_eq] at shapes
    obtain ⟨type, is⟩ := Option.isSome_iff_exists.mp typed
    obtain ⟨method, called, accepted, -⟩ := exprType_call is
    have subArgs := argsAccepted_subnodes env methods args method.args shapes.2
      (called_length methods shapes.1 called) accepted
    intro sub mem
    simp only [subnodes, List.mem_cons] at mem
    rcases mem with rfl | mem
    · exact ⟨shape, typed⟩
    · exact subArgs sub mem
  | .null, shape, _ | .ifStmt .., shape, _ | .whileStmt .., shape, _ | .methodDecl .., shape, _
  | .block .., shape, _ => by simp [isExpr] at shape
theorem argsAccepted_subnodes (env : Env) {tab : SymbolTable} (methods : tab.MethodsOk) :
    ∀ (args : AstNodeList) (params : List Args), areExprs tab args = true →
      params.length = args.length → argsAccepted env tab params args = true →
      ∀ sub ∈ subnodesList args, isExpr tab sub = true ∧ (exprType env tab sub).isSome = true
  | .nil, _, _, _, _ => by simp [subnodesList]
  | .cons first next, [], _, count, _ => by cases count
  | .cons first next, param :: params, shape, count, accepted => by
    simp only [areExprs, Bool.and_eq_true] at shape
    simp only [argsAccepted, Bool.and_eq_true, beq_iff_eq] at accepted
    obtain ⟨type, is, -⟩ := Option.bind_eq_some_iff.mp accepted.1
    have f := exprType_subnodes env methods first shape.1 (by simp [is])
    have n := argsAccepted_subnodes env methods next params shape.2 (Nat.succ.inj count) accepted.2
    intro sub mem
    simp only [subnodesList, List.mem_append] at mem
    rcases mem with mem | mem
    · exact f sub mem
    · exact n sub mem
end

mutual
/-- The nodes that the analyzer reaches. -/
def visitedNodes (env : Env) : AstNode → List AstNode
  | .null => []
  | .common line arity op left right =>
    .common line arity op left right :: (subnodes left ++ subnodes right)
  | .ifStmt line condition thenBlock elseBlock =>
    .ifStmt line condition thenBlock elseBlock :: (subnodes condition ++
      match ifCase env (foldTree env condition) elseBlock with
      | .both => visitedNodes env thenBlock ++ visitedNodes env elseBlock
      | .thenOnly => visitedNodes env thenBlock
      | .elseOnly => visitedNodes env elseBlock)
  | .whileStmt line condition block =>
    .whileStmt line condition block :: (subnodes condition ++ visitedNodes env block)
  | .methodDecl line sym block => .methodDecl line sym block :: visitedNodes env block
  | .methodCall line name numArgs args => .methodCall line name numArgs args :: subnodesList args
  | .block line stmts => .block line stmts :: visitedNodesList env stmts
  | .leaf line value => [.leaf line value]
def visitedNodesList (env : Env) : AstNodeList → List AstNode
  | .nil => []
  | .cons first next => visitedNodes env first ++ visitedNodesList env next
end

mutual
/-- The nodes of the branches that `-opt` drops. -/
def droppedNodes (env : Env) : AstNode → List AstNode
  | .ifStmt _ condition thenBlock elseBlock =>
    match ifCase env (foldTree env condition) elseBlock with
    | .both => droppedNodes env thenBlock ++ droppedNodes env elseBlock
    | .thenOnly => droppedNodes env thenBlock ++ subnodes elseBlock
    | .elseOnly => subnodes thenBlock ++ droppedNodes env elseBlock
  | .whileStmt _ _ block => droppedNodes env block
  | .methodDecl _ _ block => droppedNodes env block
  | .block _ stmts => droppedNodesList env stmts
  | _ => []
def droppedNodesList (env : Env) : AstNodeList → List AstNode
  | .nil => []
  | .cons first next => droppedNodes env first ++ droppedNodesList env next
end

mutual
theorem subnodes_visited (env : Env) {n : AstNode} :
    ∀ (node : AstNode), n ∈ subnodes node ↔ n ∈ visitedNodes env node ∨ n ∈ droppedNodes env node
  | .null | .common .. | .methodCall .. | .leaf .. => by
    simp [subnodes, visitedNodes, droppedNodes]
  | .ifStmt line condition thenBlock elseBlock => by
    have t := subnodes_visited env (n := n) thenBlock
    have e := subnodes_visited env (n := n) elseBlock
    simp only [subnodes, visitedNodes, droppedNodes, List.mem_cons, List.mem_append]
    cases ifCase env (foldTree env condition) elseBlock with
    | both =>
      simp only [List.mem_append, t, e]
      grind
    | thenOnly =>
      simp only [List.mem_append, t]
      grind
    | elseOnly =>
      simp only [List.mem_append, e]
      grind
  | .whileStmt line condition block => by
    simp only [subnodes, visitedNodes, droppedNodes, List.mem_cons, List.mem_append,
      subnodes_visited env block, or_assoc]
  | .methodDecl line sym block => by
    simp only [subnodes, visitedNodes, droppedNodes, List.mem_cons, subnodes_visited env block,
      or_assoc]
  | .block line stmts => by
    simp only [subnodes, visitedNodes, droppedNodes, List.mem_cons,
      subnodesList_visited env stmts, or_assoc]
theorem subnodesList_visited (env : Env) {n : AstNode} :
    ∀ (list : AstNodeList),
      n ∈ subnodesList list ↔ n ∈ visitedNodesList env list ∨ n ∈ droppedNodesList env list
  | .nil => by simp [subnodesList, visitedNodesList, droppedNodesList]
  | .cons first next => by
    simp only [subnodesList, visitedNodesList, droppedNodesList, List.mem_append,
      subnodes_visited env first, subnodesList_visited env next]
    grind
end

mutual
theorem droppedNodes_off {env : Env} (off : env.optimizations = false) :
    ∀ (node : AstNode), droppedNodes env node = []
  | .ifStmt line condition thenBlock elseBlock => by
    simp only [droppedNodes, ifCase_off off, droppedNodes_off off thenBlock,
      droppedNodes_off off elseBlock, List.append_nil]
  | .whileStmt line condition block => by rw [droppedNodes, droppedNodes_off off block]
  | .methodDecl line sym block => by rw [droppedNodes, droppedNodes_off off block]
  | .block line stmts => by rw [droppedNodes, droppedNodesList_off off stmts]
  | .null | .common .. | .methodCall .. | .leaf .. => rfl
theorem droppedNodesList_off {env : Env} (off : env.optimizations = false) :
    ∀ (list : AstNodeList), droppedNodesList env list = []
  | .nil => rfl
  | .cons first next => by
    rw [droppedNodesList, droppedNodes_off off first, droppedNodesList_off off next]
    rfl
end

/-- A node that has passed its check: an expression with a type, an accepted statement, or
the variable that a declaration introduces. -/
inductive NodeChecked (env : Env) (tab : SymbolTable) : AstNode → Prop where
  | expr {node : AstNode} (shape : isExpr tab node = true)
      (typed : (exprType env tab node).isSome = true) : NodeChecked env tab node
  | stmt {node : AstNode} {methodReturnType : RetType} (shape : isStmt tab node = true)
      (accepted : stmtAccepted env tab methodReturnType node = true) : NodeChecked env tab node
  | declared (line : Int) (p : IdPtr) : NodeChecked env tab (.leaf line (.id p))

theorem expr_checked (env : Env) {tab : SymbolTable} (methods : tab.MethodsOk) {node : AstNode}
    {type : RetType} (shape : isExpr tab node = true) (typed : exprType env tab node = some type) :
    ∀ n ∈ subnodes node, NodeChecked env tab n := by
  intro n mem
  obtain ⟨subShape, subTyped⟩ := exprType_subnodes env methods node shape (by simp [typed]) n mem
  exact .expr subShape subTyped

theorem branch_visited {env : Env} {tab : SymbolTable} {block : AstNode}
    (shape : block.isNull = true ∨ block.isBlock = true ∧ isStmt tab block = true)
    (visited : isStmt tab block = true → ∀ n ∈ visitedNodes env block, NodeChecked env tab n) :
    ∀ n ∈ visitedNodes env block, NodeChecked env tab n := by
  rcases shape with null | ⟨-, isStmt⟩
  · obtain rfl := isNull_iff.mp null
    intro n mem
    cases mem
  · exact visited isStmt

mutual
/-- Every visited node of an accepted statement has passed its check. -/
theorem stmt_visited (env : Env) {tab : SymbolTable} (methods : tab.MethodsOk)
    {methodReturnType : RetType} :
    ∀ (node : AstNode), isStmt tab node = true → stmtAccepted env tab methodReturnType node = true →
      ∀ n ∈ visitedNodes env node, NodeChecked env tab n
  | .common line arity op left right, shape, accepted => by
    intro n mem
    simp only [visitedNodes, List.mem_cons, List.mem_append] at mem
    rcases mem with rfl | mem
    · exact .stmt shape accepted
    unfold isStmt at shape
    unfold stmtAccepted at accepted
    cases op with
    | decl =>
      simp only [Bool.and_eq_true, Bool.or_eq_true] at shape
      obtain ⟨line', p, info, rfl, -⟩ := isIdLeaf_iff.mp shape.1
      rcases mem with mem | mem
      · obtain rfl := List.mem_singleton.mp (by simpa [subnodes] using mem)
        exact .declared line' p
      · cases null : right.isNull with
        | true =>
          obtain rfl := isNull_iff.mp null
          cases mem
        | false =>
          have isExprRight : isExpr tab right = true := by simpa [null] using shape.2
          simp only [null, Bool.false_or] at accepted
          split at accepted
          · next l r _ rightType => exact expr_checked env methods isExprRight rightType n mem
          · cases accepted
    | assign =>
      simp only [Bool.and_eq_true, decide_eq_true_eq] at shape
      simp only at accepted
      split at accepted
      · next l r leftType rightType =>
        rcases mem with mem | mem
        · exact expr_checked env methods (isIdLeaf_isExpr shape.1.2) leftType n mem
        · exact expr_checked env methods shape.2 rightType n mem
      · cases accepted
    | ret =>
      simp only [Bool.and_eq_true, Bool.or_eq_true] at shape
      obtain rfl := isNull_iff.mp shape.2
      rcases mem with mem | mem
      · cases null : left.isNull with
        | true =>
          obtain rfl := isNull_iff.mp null
          cases mem
        | false =>
          have isExprLeft : isExpr tab left = true := by simpa [null] using shape.1
          simp only [null, Bool.false_eq_true, if_false, beq_iff_eq] at accepted
          exact expr_checked env methods isExprLeft accepted n mem
      · cases mem
    | _ => cases shape
  | .ifStmt line condition thenBlock elseBlock, shape, accepted => by
    intro n mem
    simp only [visitedNodes, List.mem_cons, List.mem_append] at mem
    rcases mem with rfl | mem
    · exact .stmt shape accepted
    simp only [isStmt, Bool.and_eq_true, Bool.or_eq_true] at shape
    simp only [stmtAccepted, Bool.and_eq_true, beq_iff_eq] at accepted
    obtain ⟨⟨conditionShape, thenShape⟩, elseShape⟩ := shape
    obtain ⟨conditionType, accepted⟩ := accepted
    have inThen : stmtAccepted env tab methodReturnType thenBlock = true →
        n ∈ visitedNodes env thenBlock → NodeChecked env tab n := by
      intro thenAccepted
      exact branch_visited thenShape
        (fun isStmt => stmt_visited env methods thenBlock isStmt thenAccepted) n
    have inElse : stmtAccepted env tab methodReturnType elseBlock = true →
        n ∈ visitedNodes env elseBlock → NodeChecked env tab n := by
      intro elseAccepted
      exact branch_visited elseShape
        (fun isStmt => stmt_visited env methods elseBlock isStmt elseAccepted) n
    rcases mem with mem | mem
    · exact expr_checked env methods conditionShape conditionType n mem
    · cases only : ifCase env (foldTree env condition) elseBlock with
      | both =>
        simp only [only, Bool.and_eq_true, Bool.or_eq_true] at accepted
        rw [only] at mem
        rcases List.mem_append.mp mem with mem | mem
        · exact inThen accepted.1 mem
        · rcases accepted.2 with null | elseAccepted
          · obtain rfl := isNull_iff.mp null
            cases mem
          · exact inElse elseAccepted mem
      | thenOnly =>
        simp only [only, Bool.and_eq_true] at accepted
        rw [only] at mem
        exact inThen accepted.1 mem
      | elseOnly =>
        simp only [only, Bool.and_eq_true] at accepted
        rw [only] at mem
        exact inElse accepted.1 mem
  | .whileStmt line condition block, shape, accepted => by
    intro n mem
    simp only [visitedNodes, List.mem_cons, List.mem_append] at mem
    rcases mem with rfl | mem
    · exact .stmt shape accepted
    simp only [isStmt, Bool.and_eq_true, Bool.or_eq_true] at shape
    simp only [stmtAccepted, Bool.and_eq_true, beq_iff_eq] at accepted
    rcases mem with mem | mem
    · exact expr_checked env methods shape.1 accepted.1.1 n mem
    · exact branch_visited shape.2
        (fun isStmt => stmt_visited env methods block isStmt accepted.1.2) n mem
  | .methodCall line name numArgs args, shape, accepted => by
    obtain ⟨type, typed⟩ := Option.isSome_iff_exists.mp accepted
    have isExpr : isExpr tab (.methodCall line name numArgs args) = true := shape
    exact expr_checked env methods isExpr typed
  | .block line stmts, shape, accepted => by
    intro n mem
    simp only [visitedNodes, List.mem_cons] at mem
    rcases mem with rfl | mem
    · exact .stmt shape accepted
    · exact stmts_visited env methods stmts shape accepted n mem
  | .null, shape, _ | .methodDecl .., shape, _ | .leaf .., shape, _ => by cases shape
theorem stmts_visited (env : Env) {tab : SymbolTable} (methods : tab.MethodsOk)
    {methodReturnType : RetType} :
    ∀ (stmts : AstNodeList), areStmts tab stmts = true →
      stmtsAccepted env tab methodReturnType stmts = true →
      ∀ n ∈ visitedNodesList env stmts, NodeChecked env tab n
  | .nil, _, _ => by simp [visitedNodesList]
  | .cons first next, shape, accepted => by
    simp only [areStmts, Bool.and_eq_true] at shape
    simp only [stmtsAccepted, Bool.and_eq_true] at accepted
    intro n mem
    simp only [visitedNodesList, List.mem_append] at mem
    rcases mem with mem | mem
    · exact stmt_visited env methods first shape.1 accepted.1 n mem
    · exact stmts_visited env methods next shape.2 accepted.2 n mem
end

theorem sentence_visited {env : Env} {ps : ParserState} {sentences : List AstNode}
    (ok : SentencesOk ps) (accepted : semanticAnalyzer env ps.tab ps.headAst = .ok sentences)
    {sentence : AstNode} (mem : sentence ∈ ps.headAst) {n : AstNode}
    (inside : n ∈ visitedNodes env sentence) :
    (∃ line sym block, n = .methodDecl line sym block) ∨ NodeChecked env ps.tab n := by
  rcases topLevel_cases (ok.topLevel mem) with ⟨line, arity, left, right, rfl⟩ |
    ⟨line, sym, block, -, rfl, -, -⟩
  · obtain ⟨shape, methodReturnType, checked⟩ := decl_accepted ok accepted mem
    exact .inr (stmt_visited env ok.wf.methods _ shape checked n inside)
  · obtain ⟨method, declared, -, body⟩ := method_accepted ok accepted mem
    simp only [visitedNodes, List.mem_cons] at inside
    rcases inside with rfl | inside
    · exact .inl ⟨line, sym, block, rfl⟩
    · rcases body with rfl | ⟨shape, checked⟩
      · cases inside
      · exact .inr (stmt_visited env ok.wf.methods block shape checked n inside)

end Ctds
