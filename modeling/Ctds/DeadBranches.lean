import Ctds.Source
import Ctds.TopLevel

/-! Dead-branch elimination against the meaning of statements. The original of an if or a
while is the statement with its expressions folded and nothing else changed. The rewrite
is right for literal conditions; it also fires on identifiers, which carry the same tag. -/

namespace Ctds

open Fallible SymbolTable Word

mutual
/-- Constant folding alone. -/
def foldStmt (env : Env) : AstNode → AstNode
  | .common line arity op left right =>
    match op with
    | .decl | .assign | .ret => .common line arity op (foldTree env left) (foldTree env right)
    | _ => .common line arity op left right
  | .ifStmt line condition thenBlock elseBlock =>
    .ifStmt line (foldTree env condition) (foldStmt env thenBlock) (foldStmt env elseBlock)
  | .whileStmt line condition block =>
    .whileStmt line (foldTree env condition) (foldStmt env block)
  | .methodCall line name numArgs args => .methodCall line name numArgs (foldTrees env args)
  | .block line stmts => .block line (foldStmts env stmts)
  | node => node
def foldStmts (env : Env) : AstNodeList → AstNodeList
  | .nil => .nil
  | .cons first next => .cons (foldStmt env first) (foldStmts env next)
end

mutual
/-- The ifs and whiles on which the analyzer calls `eval_if` and `eval_while`. -/
def evaluatedNodes (env : Env) : AstNode → List AstNode
  | .ifStmt line condition thenBlock elseBlock =>
    .ifStmt line condition thenBlock elseBlock ::
      match ifCase env (foldTree env condition) elseBlock with
      | .both => evaluatedNodes env thenBlock ++ evaluatedNodes env elseBlock
      | .thenOnly => evaluatedNodes env thenBlock
      | .elseOnly => evaluatedNodes env elseBlock
  | .whileStmt line condition block =>
    .whileStmt line condition block :: evaluatedNodes env block
  | .block _ stmts => evaluatedNodesList env stmts
  | _ => []
def evaluatedNodesList (env : Env) : AstNodeList → List AstNode
  | .nil => []
  | .cons first next => evaluatedNodes env first ++ evaluatedNodesList env next
end

/-- The ifs and whiles of all method bodies. -/
def programNodes (env : Env) : List AstNode → List AstNode
  | [] => []
  | .methodDecl _ _ block :: rest => evaluatedNodes env block ++ programNodes env rest
  | _ :: rest => programNodes env rest

/-- An if with an else branch, or a while, that loses a branch because its condition is an
identifier: the bits compared are the low half of the address of its symbol. -/
def losesBranch (env : Env) : AstNode → Bool
  | .ifStmt _ (.leaf _ (.id _)) _ elseBlock => env.optimizations && !elseBlock.isNull
  | .whileStmt _ (.leaf _ (.id p)) _ =>
    env.optimizations && decide ((env.addr p).setWidth 32 = 0#32)
  | _ => false

def resultType : Operator → RetType
  | .addition | .subtraction | .multiplication | .division | .mod => .int
  | _ => .bool

theorem binaryType_result {op : Operator} {l r type : RetType}
    (h : binaryType op l r = some type) : type = resultType op := by
  cases op <;> simp only [binaryType, resultType] at h ⊢ <;> first
    | cases h
    | (split at h <;> simp_all)

theorem foldBool_value {f : BitVec 32 → BitVec 32 → Bool} {a b : BitVec 32} {value : LeafValue}
    (h : foldBool f a b = some value) : ∃ v, value = .bool v ∧ (v = 0 ∨ v = 1) := by
  obtain rfl := Option.some.inj h
  cases f a b
  · exact ⟨0, rfl, .inl rfl⟩
  · exact ⟨1, rfl, .inr rfl⟩

theorem foldOperator_value {op : Operator} {a b : BitVec 32} {value : LeafValue}
    (h : foldOperator op a b = some value) :
    (resultType op = .int ∧ ∃ v, value = .int v) ∨
      (resultType op = .bool ∧ ∃ v, value = .bool v ∧ (v = 0 ∨ v = 1)) := by
  cases op with
  | addition | subtraction | multiplication => exact .inl ⟨rfl, _, (Option.some.inj h).symm⟩
  | division | mod =>
    simp only [foldOperator, foldDivision, foldMod] at h
    split at h
    · cases h
    · exact .inl ⟨rfl, _, (Option.some.inj h).symm⟩
  | minus | neg | decl | assign | ret => cases h
  | _ =>
    simp only [foldOperator] at h
    exact .inr ⟨rfl, foldBool_value h⟩

theorem foldNode_leaf {env : Env} {line l : Int} {op : Operator} {left right : AstNode}
    {value : LeafValue} (h : foldNode env line op left right = .leaf l value) :
    ∃ a b, foldOperator op a b = some value := by
  unfold foldNode at h
  split at h
  · cases h
  · next a b _ =>
    split at h
    · cases h
    · next value' folded =>
      obtain ⟨-, rfl⟩ := AstNode.leaf.inj h
      exact ⟨a, b, folded⟩

theorem foldTree_leaf_id {env : Env} {node : AstNode} {l : Int} {p : IdPtr} :
    foldTree env node = .leaf l (.id p) ↔ node = .leaf l (.id p) := by
  constructor
  · intro h
    cases node with
    | common line arity op left right =>
      cases arity with
      | binary =>
        simp only [foldTree] at h
        obtain ⟨a, b, folded⟩ := foldNode_leaf h
        rcases foldOperator_value folded with ⟨-, v, eq⟩ | ⟨-, v, eq, -⟩ <;> cases eq
      | unary => simp [foldTree] at h
    | leaf line value => simpa [foldTree] using h
    | _ => simp [foldTree] at h
  · rintro rfl
    simp [foldTree]

theorem foldTree_literal {env : Env} {tab : SymbolTable} {node : AstNode} {l : Int}
    {value : LeafValue} (shape : isExpr tab node = true)
    (typed : exprType env tab node = some .bool) (folded : foldTree env node = .leaf l value)
    (literal : ∀ p, value ≠ .id p) : ∃ v, value = .bool v ∧ (v = 0 ∨ v = 1) := by
  cases node with
  | leaf line value' =>
    obtain ⟨-, rfl⟩ : line = l ∧ value' = value := by simpa [foldTree] using folded
    cases value' with
    | int v => simp [exprType, leafType] at typed
    | bool v => exact ⟨v, rfl, by simpa [isExpr] using shape⟩
    | id p => exact absurd rfl (literal p)
  | common line arity op left right =>
    cases arity with
    | binary =>
      simp only [foldTree] at folded
      obtain ⟨a, b, folded⟩ := foldNode_leaf folded
      have result : resultType op = .bool := by
        simp only [exprType] at typed
        split at typed
        · split at typed
          · cases typed
          · exact (binaryType_result typed).symm
        · cases typed
      rcases foldOperator_value folded with ⟨int, -⟩ | ⟨-, bool⟩
      · rw [result] at int
        cases int
      · exact bool
    | unary => simp [foldTree] at folded
  | methodCall line name numArgs args => simp [foldTree] at folded
  | _ => simp [isExpr] at shape

theorem low_address_ne_one (env : Env) (p : IdPtr) : (env.addr p).setWidth 32 ≠ 1#32 := by
  intro one
  have aligned := env.addr_aligned p
  have low := congrArg BitVec.toNat one
  rw [BitVec.toNat_setWidth] at low
  simp at low
  omega

theorem literal_or_id (value : LeafValue) : (∃ p, value = .id p) ∨ ∀ p, value ≠ .id p := by
  cases value with
  | id p => exact .inl ⟨p, rfl⟩
  | _ => exact .inr nofun

theorem ifCase_literal {env : Env} {tab : SymbolTable} {line : Int}
    {condition thenBlock elseBlock : AstNode} (shape : isExpr tab condition = true)
    (typed : exprType env tab condition = some .bool)
    (keeps : losesBranch env (.ifStmt line condition thenBlock elseBlock) = false) :
    ifCase env (foldTree env condition) elseBlock = .both ∨
      (ifCase env (foldTree env condition) elseBlock = .thenOnly ∧
        ∃ l, foldTree env condition = .leaf l (.bool 1)) ∨
      (ifCase env (foldTree env condition) elseBlock = .elseOnly ∧
        ∃ l, foldTree env condition = .leaf l (.bool 0)) := by
  cases folded : foldTree env condition with
  | leaf l value =>
    rcases literal_or_id value with ⟨p, rfl⟩ | literal
    · obtain rfl := foldTree_leaf_id.mp folded
      refine .inl ?_
      have notOne : (LeafValue.id p).intValue env ≠ 1 := low_address_ne_one env p
      cases opt : env.optimizations <;> cases null : elseBlock.isNull <;>
        simp_all [ifCase, losesBranch]
    · obtain ⟨v, rfl, bit⟩ := foldTree_literal shape typed folded literal
      cases opt : env.optimizations with
      | false => exact .inl (by simp [ifCase, opt])
      | true =>
        rcases bit with rfl | rfl
        · cases null : elseBlock.isNull with
          | true => exact .inl (by simp [ifCase, opt, null, LeafValue.intValue])
          | false =>
            exact .inr (.inr ⟨by simp [ifCase, opt, null, LeafValue.intValue], l, rfl⟩)
        · exact .inr (.inl ⟨by simp [ifCase, opt, LeafValue.intValue], l, rfl⟩)
  | _ => exact .inl rfl

theorem dropsLoop_literal {env : Env} {tab : SymbolTable} {line : Int} {condition block : AstNode}
    (shape : isExpr tab condition = true) (typed : exprType env tab condition = some .bool)
    (keeps : losesBranch env (.whileStmt line condition block) = false)
    (drops : dropsLoop env (foldTree env condition) = true) :
    ∃ l, foldTree env condition = .leaf l (.bool 0) := by
  cases folded : foldTree env condition with
  | leaf l value =>
    rw [folded] at drops
    simp only [dropsLoop, Bool.and_eq_true, decide_eq_true_eq] at drops
    rcases literal_or_id value with ⟨p, rfl⟩ | literal
    · obtain rfl := foldTree_leaf_id.mp folded
      simp only [losesBranch, drops.1, Bool.true_and, decide_eq_false_iff_not] at keeps
      exact absurd drops.2 keeps
    · obtain ⟨v, rfl, bit⟩ := foldTree_literal shape typed folded literal
      obtain rfl : v = 0 := drops.2
      exact ⟨l, rfl⟩
  | _ => simp [folded, dropsLoop] at drops

theorem evaluate_bool (tab : SymbolTable) (oracle : Oracle) (l : Int) (v : BitVec 32)
    (s : SourceState) :
    evaluate tab false oracle (.leaf l (.bool v)) s = some (v.signExtend 64, s) := rfl

theorem runLoop_congr {condition : SourceState → Option (Word × SourceState)}
    {body body' : Runner} (same : ∀ s, body s = body' s) (fuel : Nat) (s : SourceState) :
    runLoop condition body fuel s = runLoop condition body' fuel s := by
  obtain rfl : body = body' := funext same
  rfl

theorem runLoop_false {condition : SourceState → Option (Word × SourceState)} {body : Runner}
    {s : SourceState} (never : condition s = some (0, s)) (fuel : Nat) :
    runLoop condition body fuel s = some (s, .normal) := by
  cases fuel <;> simp [runLoop, never]

theorem runStmt_block (tab : SymbolTable) (oracle : Oracle) (fuel : Nat) (line : Int)
    {node : AstNode} (block : node.isBlock = true) (s : SourceState) :
    runStmt tab false oracle fuel (.block line (blockStmts node)) s =
      runStmt tab false oracle fuel node s := by
  cases node with
  | block l stmts => simp [runStmt, blockStmts]
  | _ => cases block

theorem rewrite_isBlock (env : Env) {node : AstNode} (block : node.isBlock = true) :
    (rewrite env node).isBlock = true := by
  cases node with
  | block l stmts => rfl
  | _ => cases block

/-- A statement, or the null pointer of an absent branch. -/
def isStmtOrNull (tab : SymbolTable) (node : AstNode) : Bool := node.isNull || isStmt tab node

def acceptedOrNull (env : Env) (tab : SymbolTable) (methodReturnType : RetType) (node : AstNode) :
    Bool := node.isNull || stmtAccepted env tab methodReturnType node

theorem isStmtOrNull_of_branch {tab : SymbolTable} {node : AstNode}
    (h : isBranch tab node = true) : isStmtOrNull tab node = true := by
  simp only [isBranch, isStmtOrNull, Bool.or_eq_true, Bool.and_eq_true] at h ⊢
  exact h.imp_right And.right

theorem acceptedOrNull_of_accepted {env : Env} {tab : SymbolTable} {methodReturnType : RetType}
    {node : AstNode} (h : stmtAccepted env tab methodReturnType node = true) :
    acceptedOrNull env tab methodReturnType node = true := by
  simp [acceptedOrNull, h]

theorem accepted_ifStmt {env : Env} {tab : SymbolTable} {methodReturnType : RetType} {line : Int}
    {condition thenBlock elseBlock : AstNode}
    (h : acceptedOrNull env tab methodReturnType
      (.ifStmt line condition thenBlock elseBlock) = true) :
    exprType env tab condition = some .bool ∧
      match ifCase env (foldTree env condition) elseBlock with
      | .both => stmtAccepted env tab methodReturnType thenBlock = true ∧
          acceptedOrNull env tab methodReturnType elseBlock = true
      | .thenOnly => stmtAccepted env tab methodReturnType thenBlock = true
      | .elseOnly => stmtAccepted env tab methodReturnType elseBlock = true := by
  simp only [acceptedOrNull, AstNode.isNull, Bool.false_or, stmtAccepted, Bool.and_eq_true,
    beq_iff_eq] at h
  refine ⟨h.1, ?_⟩
  have branches := h.2
  cases only : ifCase env (foldTree env condition) elseBlock <;>
    simp only [only, Bool.and_eq_true] at branches
  · exact branches
  · exact branches.1
  · exact branches.1

theorem accepted_whileStmt {env : Env} {tab : SymbolTable} {methodReturnType : RetType}
    {line : Int} {condition block : AstNode}
    (h : acceptedOrNull env tab methodReturnType (.whileStmt line condition block) = true) :
    exprType env tab condition = some .bool ∧
      stmtAccepted env tab methodReturnType block = true := by
  simp only [acceptedOrNull, AstNode.isNull, Bool.false_or, stmtAccepted, Bool.and_eq_true,
    beq_iff_eq] at h
  exact h.1

theorem branch_same {env : Env} {tab : SymbolTable} {methodReturnType : RetType}
    {branch : AstNode} (line : Int) (shape : isBranch tab branch = true)
    (accepted : stmtAccepted env tab methodReturnType branch = true)
    (same : SameBehaviour tab (foldStmt env branch) (rewrite env branch)) :
    SameBehaviour tab (foldStmt env branch) (.block line (blockStmts (rewrite env branch))) := by
  intro oracle fuel s
  have block := rewrite_isBlock env (accepted_isBlock shape accepted)
  rw [runStmt_block tab oracle fuel line block]
  exact same oracle fuel s

mutual
/-- Where no branch is lost, the rewritten statement behaves like the folded one. -/
theorem rewrite_same {env : Env} {tab : SymbolTable} {methodReturnType : RetType} :
    ∀ (node : AstNode), isStmtOrNull tab node = true →
      acceptedOrNull env tab methodReturnType node = true →
      (∀ n ∈ evaluatedNodes env node, losesBranch env n = false) →
      SameBehaviour tab (foldStmt env node) (rewrite env node)
  | .null, _, _, _ | .methodDecl .., _, _, _ | .leaf .., _, _, _
  | .methodCall .., _, _, _ => fun oracle fuel s => by simp only [foldStmt, rewrite]
  | .common _ _ op _ _, _, _, _ => fun oracle fuel s => by
    cases op <;> simp only [foldStmt, rewrite]
  | .ifStmt line condition thenBlock elseBlock, shape, accepted, keeps => fun oracle fuel s => by
    simp only [isStmtOrNull, AstNode.isNull, Bool.false_or, isStmt_ifStmt,
      Bool.and_eq_true] at shape
    obtain ⟨⟨conditionShape, thenShape⟩, elseShape⟩ := shape
    obtain ⟨typed, branches⟩ := accepted_ifStmt accepted
    have here := keeps _ (by rw [evaluatedNodes]; exact List.mem_cons_self)
    rcases ifCase_literal conditionShape typed here with both | ⟨only, l, literal⟩ |
      ⟨only, l, literal⟩
    · rw [both] at branches
      have inside : ∀ n, n ∈ evaluatedNodes env thenBlock ∨ n ∈ evaluatedNodes env elseBlock →
          losesBranch env n = false := fun n mem => keeps n (by
        rw [evaluatedNodes, both]
        exact List.mem_cons_of_mem _ (List.mem_append.mpr mem))
      have same := rewrite_same thenBlock (isStmtOrNull_of_branch thenShape)
        (acceptedOrNull_of_accepted branches.1) (fun n mem => inside n (.inl mem)) oracle fuel
      have same' := rewrite_same elseBlock (isStmtOrNull_of_branch elseShape) branches.2
        (fun n mem => inside n (.inr mem)) oracle fuel
      simp only [foldStmt, rewrite, both, runStmt, same, same']
    · rw [only] at branches
      have same := rewrite_same thenBlock (isStmtOrNull_of_branch thenShape)
        (acceptedOrNull_of_accepted branches) fun n mem => keeps n (by
          rw [evaluatedNodes, only]
          exact List.mem_cons_of_mem _ mem)
      simp only [foldStmt, rewrite, only]
      rw [← branch_same line thenShape branches same, literal]
      rfl
    · rw [only] at branches
      have same := rewrite_same elseBlock (isStmtOrNull_of_branch elseShape)
        (acceptedOrNull_of_accepted branches) fun n mem => keeps n (by
          rw [evaluatedNodes, only]
          exact List.mem_cons_of_mem _ mem)
      simp only [foldStmt, rewrite, only]
      rw [← branch_same line elseShape branches same, literal]
      rfl
  | .whileStmt line condition block, shape, accepted, keeps => fun oracle fuel s => by
    simp only [isStmtOrNull, AstNode.isNull, Bool.false_or, isStmt_whileStmt, Bool.and_eq_true]
      at shape
    obtain ⟨typed, bodyAccepted⟩ := accepted_whileStmt accepted
    have here := keeps _ (by rw [evaluatedNodes]; exact List.mem_cons_self)
    cases drops : dropsLoop env (foldTree env condition) with
    | true =>
      obtain ⟨l, literal⟩ := dropsLoop_literal shape.1 typed here drops
      simp only [foldStmt, rewrite, drops, if_true, runStmt, runStmts]
      rw [literal]
      exact runLoop_false (evaluate_bool tab oracle l 0 s) fuel
    | false =>
      have same := rewrite_same block (isStmtOrNull_of_branch shape.2)
        (acceptedOrNull_of_accepted bodyAccepted) (fun n mem => keeps n (by
          rw [evaluatedNodes]
          exact List.mem_cons_of_mem _ mem)) oracle fuel
      simp only [foldStmt, rewrite, drops, Bool.false_eq_true, if_false, runStmt]
      exact runLoop_congr same fuel s
  | .block line stmts, shape, accepted, keeps => fun oracle fuel s => by
    simp only [isStmtOrNull, AstNode.isNull, Bool.false_or, isStmt] at shape
    simp only [acceptedOrNull, AstNode.isNull, Bool.false_or, stmtAccepted] at accepted
    simp only [foldStmt, rewrite, runStmt]
    exact rewriteStmts_same stmts shape accepted (by simpa [evaluatedNodes] using keeps)
      oracle fuel s
theorem rewriteStmts_same {env : Env} {tab : SymbolTable} {methodReturnType : RetType} :
    ∀ (stmts : AstNodeList), areStmts tab stmts = true →
      stmtsAccepted env tab methodReturnType stmts = true →
      (∀ n ∈ evaluatedNodesList env stmts, losesBranch env n = false) →
      ∀ oracle fuel s, runStmts tab false oracle fuel (foldStmts env stmts) s =
        runStmts tab false oracle fuel (rewriteStmts env stmts) s
  | .nil, _, _, _ => fun _ _ _ => rfl
  | .cons first next, shape, accepted, keeps => fun oracle fuel s => by
    simp only [areStmts, Bool.and_eq_true] at shape
    simp only [stmtsAccepted, Bool.and_eq_true] at accepted
    simp only [evaluatedNodesList, List.mem_append] at keeps
    have one := rewrite_same first (by simp [isStmtOrNull, shape.1])
      (acceptedOrNull_of_accepted accepted.1) (fun n mem => keeps n (.inl mem)) oracle fuel s
    have rest := fun s => rewriteStmts_same next shape.2 accepted.2
      (fun n mem => keeps n (.inr mem)) oracle fuel s
    simp only [foldStmts, rewriteStmts, runStmts, one, rest]
end

mutual
theorem evaluatedNodes_accepted {env : Env} {tab : SymbolTable} {methodReturnType : RetType} :
    ∀ (node : AstNode), isStmtOrNull tab node = true →
      acceptedOrNull env tab methodReturnType node = true → ∀ n ∈ evaluatedNodes env node,
      isStmt tab n = true ∧ stmtAccepted env tab methodReturnType n = true
  | .null, _, _, n, mem | .common .., _, _, n, mem | .methodDecl .., _, _, n, mem
  | .methodCall .., _, _, n, mem | .leaf .., _, _, n, mem => by simp [evaluatedNodes] at mem
  | .ifStmt line condition thenBlock elseBlock, shape, accepted, n, mem => by
    have branches := (accepted_ifStmt accepted).2
    rw [evaluatedNodes, List.mem_cons] at mem
    rcases mem with rfl | mem
    · exact ⟨by simpa [isStmtOrNull, AstNode.isNull] using shape,
        by simpa [acceptedOrNull, AstNode.isNull] using accepted⟩
    · simp only [isStmtOrNull, AstNode.isNull, Bool.false_or, isStmt_ifStmt, Bool.and_eq_true]
        at shape
      have thenShape := isStmtOrNull_of_branch shape.1.2
      have elseShape := isStmtOrNull_of_branch shape.2
      cases only : ifCase env (foldTree env condition) elseBlock with
      | both =>
        rw [only] at mem branches
        rcases List.mem_append.mp mem with mem | mem
        · exact evaluatedNodes_accepted thenBlock thenShape
            (acceptedOrNull_of_accepted branches.1) n mem
        · exact evaluatedNodes_accepted elseBlock elseShape branches.2 n mem
      | thenOnly =>
        rw [only] at mem branches
        exact evaluatedNodes_accepted thenBlock thenShape
          (acceptedOrNull_of_accepted branches) n mem
      | elseOnly =>
        rw [only] at mem branches
        exact evaluatedNodes_accepted elseBlock elseShape
          (acceptedOrNull_of_accepted branches) n mem
  | .whileStmt line condition block, shape, accepted, n, mem => by
    rw [evaluatedNodes, List.mem_cons] at mem
    rcases mem with rfl | mem
    · exact ⟨by simpa [isStmtOrNull, AstNode.isNull] using shape,
        by simpa [acceptedOrNull, AstNode.isNull] using accepted⟩
    · simp only [isStmtOrNull, AstNode.isNull, Bool.false_or, isStmt_whileStmt, Bool.and_eq_true]
        at shape
      exact evaluatedNodes_accepted block (isStmtOrNull_of_branch shape.2)
        (acceptedOrNull_of_accepted (accepted_whileStmt accepted).2) n mem
  | .block line stmts, shape, accepted, n, mem => by
    simp only [isStmtOrNull, AstNode.isNull, Bool.false_or, isStmt] at shape
    simp only [acceptedOrNull, AstNode.isNull, Bool.false_or, stmtAccepted] at accepted
    rw [evaluatedNodes] at mem
    exact evaluatedNodesList_accepted stmts shape accepted n mem
theorem evaluatedNodesList_accepted {env : Env} {tab : SymbolTable} {methodReturnType : RetType} :
    ∀ (stmts : AstNodeList), areStmts tab stmts = true →
      stmtsAccepted env tab methodReturnType stmts = true → ∀ n ∈ evaluatedNodesList env stmts,
      isStmt tab n = true ∧ stmtAccepted env tab methodReturnType n = true
  | .nil, _, _, n, mem => by simp [evaluatedNodesList] at mem
  | .cons first next, shape, accepted, n, mem => by
    simp only [areStmts, Bool.and_eq_true] at shape
    simp only [stmtsAccepted, Bool.and_eq_true] at accepted
    rw [evaluatedNodesList, List.mem_append] at mem
    rcases mem with mem | mem
    · exact evaluatedNodes_accepted first (by simp [isStmtOrNull, shape.1])
        (acceptedOrNull_of_accepted accepted.1) n mem
    · exact evaluatedNodesList_accepted next shape.2 accepted.2 n mem
end

/-- A condition that is no literal after folding leaves the statement whole. -/
def keepsBranches (env : Env) (left : AstNode) : AstNode → Prop
  | .ifStmt line condition thenBlock elseBlock =>
    (foldTree env condition).literal? = none →
      left = .ifStmt line (foldTree env condition) (rewrite env thenBlock) (rewrite env elseBlock)
  | .whileStmt line condition block =>
    (foldTree env condition).literal? = none →
      left = .whileStmt line (foldTree env condition) (rewrite env block)
  | _ => True

/-- Whatever `eval` leaves of the node behaves like the node. -/
def Preserved (env : Env) (tab : SymbolTable) (node : AstNode) : Prop :=
  ∀ ret st e, st.methodReturnType ≠ .null → eval env tab .block node ret st = .ok e →
    SameBehaviour tab (foldStmt env node) e.tree ∧ keepsBranches env e.tree node

theorem keepsBranches_rewrite {env : Env} {node : AstNode} (keeps : losesBranch env node = false) :
    keepsBranches env (rewrite env node) node := by
  cases node with
  | ifStmt line condition thenBlock elseBlock =>
    intro notLiteral
    have both : ifCase env (foldTree env condition) elseBlock = .both := by
      cases folded : foldTree env condition with
      | leaf l value =>
        rcases literal_or_id value with ⟨p, rfl⟩ | literal
        · obtain rfl := foldTree_leaf_id.mp folded
          have notOne : (LeafValue.id p).intValue env ≠ 1 := low_address_ne_one env p
          cases opt : env.optimizations <;> cases null : elseBlock.isNull <;>
            simp_all [ifCase, losesBranch]
        · cases value with
          | id p => exact absurd rfl (literal p)
          | _ => simp [folded, AstNode.literal?] at notLiteral
      | _ => rfl
    simp only [rewrite, both]
  | whileStmt line condition block =>
    intro notLiteral
    have stays : dropsLoop env (foldTree env condition) = false := by
      cases folded : foldTree env condition with
      | leaf l value =>
        rcases literal_or_id value with ⟨p, rfl⟩ | literal
        · obtain rfl := foldTree_leaf_id.mp folded
          exact keeps
        · cases value with
          | id p => exact absurd rfl (literal p)
          | _ => simp [folded, AstNode.literal?] at notLiteral
      | _ => rfl
    simp [rewrite, stays]
  | _ => trivial

theorem not_keepsBranches_rewrite {env : Env} {node : AstNode}
    (loses : losesBranch env node = true) : ¬ keepsBranches env (rewrite env node) node := by
  intro keeps
  unfold losesBranch at loses
  split at loses
  · next line l p thenBlock elseBlock =>
    rw [Bool.and_eq_true, Bool.not_eq_true'] at loses
    have notOne : (LeafValue.id p).intValue env ≠ 1 := low_address_ne_one env p
    have dropped : ifCase env (foldTree env (.leaf l (.id p))) elseBlock = .elseOnly := by
      rw [foldTree_leaf_id.mpr rfl, ifCase, if_pos loses.1, if_neg notOne, loses.2]
      rfl
    have whole := keeps (by simp [foldTree, AstNode.literal?])
    simp [rewrite, dropped] at whole
  · next line l p block =>
    rw [Bool.and_eq_true, decide_eq_true_eq] at loses
    have whole := keeps (by simp [foldTree, AstNode.literal?])
    simp [rewrite, foldTree, dropsLoop, LeafValue.intValue, loses.1, loses.2] at whole
  · cases loses

theorem mem_programNodes {env : Env} {headAst : List AstNode} {n : AstNode}
    (mem : n ∈ programNodes env headAst) :
    ∃ line sym block, AstNode.methodDecl line sym block ∈ headAst ∧
      n ∈ evaluatedNodes env block := by
  induction headAst with
  | nil => simp [programNodes] at mem
  | cons node rest ih =>
    have later : n ∈ programNodes env rest → ∃ line sym block,
        AstNode.methodDecl line sym block ∈ node :: rest ∧ n ∈ evaluatedNodes env block := by
      intro mem
      obtain ⟨line, sym, block, here, inside⟩ := ih mem
      exact ⟨line, sym, block, List.mem_cons_of_mem _ here, inside⟩
    cases node with
    | methodDecl line sym block =>
      rcases List.mem_append.mp mem with mem | mem
      · exact ⟨line, sym, block, List.mem_cons_self, mem⟩
      · exact later mem
    | _ => exact later mem

theorem evaluatedNodes_mem_programNodes {env : Env} {headAst : List AstNode} {line : Int}
    {sym : IdPtr} {block n : AstNode} (here : AstNode.methodDecl line sym block ∈ headAst)
    (inside : n ∈ evaluatedNodes env block) : n ∈ programNodes env headAst := by
  induction headAst with
  | nil => cases here
  | cons node rest ih =>
    rcases List.mem_cons.mp here with rfl | later
    · exact List.mem_append_left _ inside
    · have mem := ih later
      cases node with
      | methodDecl => exact List.mem_append_right _ mem
      | _ => exact mem

theorem programNodes_accepted {env : Env} {ps : ParserState} {sentences : List AstNode}
    (ok : SentencesOk ps) (accepted : semanticAnalyzer env ps.tab ps.headAst = .ok sentences)
    {n : AstNode} (mem : n ∈ programNodes env ps.headAst) :
    ∃ methodReturnType : RetType, methodReturnType ≠ .null ∧ isStmt ps.tab n = true ∧
      stmtAccepted env ps.tab methodReturnType n = true := by
  obtain ⟨line, sym, block, here, inside⟩ := mem_programNodes mem
  obtain ⟨method, declared, body⟩ := ok.methods line sym block here
  have own : method.isExtern = false := by
    by_contra isExtern
    rw [body.externDecl (by simpa using isExtern)] at inside
    simp [evaluatedNodes] at inside
  obtain ⟨shape, checked⟩ := body_accepted ok accepted here declared own
  obtain ⟨isStmt, stmtAccepted⟩ := evaluatedNodes_accepted block (isStmtOrNull_of_branch shape)
    (acceptedOrNull_of_accepted checked) n inside
  exact ⟨method.retType, declared.retType_ne_null, isStmt, stmtAccepted⟩

mutual
theorem evaluatedNodes_trans {env : Env} {n m : AstNode} (inner : m ∈ evaluatedNodes env n) :
    ∀ (node : AstNode), n ∈ evaluatedNodes env node → m ∈ evaluatedNodes env node
  | .null, mem | .common .., mem | .methodDecl .., mem | .methodCall .., mem | .leaf .., mem => by
    simp [evaluatedNodes] at mem
  | .ifStmt line condition thenBlock elseBlock, mem => by
    rw [evaluatedNodes, List.mem_cons] at mem
    rcases mem with rfl | mem
    · exact inner
    · rw [evaluatedNodes]
      refine List.mem_cons_of_mem _ ?_
      cases only : ifCase env (foldTree env condition) elseBlock with
      | both =>
        rw [only] at mem
        rcases List.mem_append.mp mem with mem | mem
        · exact List.mem_append_left _ (evaluatedNodes_trans inner thenBlock mem)
        · exact List.mem_append_right _ (evaluatedNodes_trans inner elseBlock mem)
      | thenOnly =>
        rw [only] at mem
        exact evaluatedNodes_trans inner thenBlock mem
      | elseOnly =>
        rw [only] at mem
        exact evaluatedNodes_trans inner elseBlock mem
  | .whileStmt line condition block, mem => by
    rw [evaluatedNodes, List.mem_cons] at mem
    rcases mem with rfl | mem
    · exact inner
    · rw [evaluatedNodes]
      exact List.mem_cons_of_mem _ (evaluatedNodes_trans inner block mem)
  | .block line stmts, mem => by
    rw [evaluatedNodes] at mem ⊢
    exact evaluatedNodesList_trans inner stmts mem
theorem evaluatedNodesList_trans {env : Env} {n m : AstNode} (inner : m ∈ evaluatedNodes env n) :
    ∀ (stmts : AstNodeList), n ∈ evaluatedNodesList env stmts → m ∈ evaluatedNodesList env stmts
  | .nil, mem => by simp [evaluatedNodesList] at mem
  | .cons first next, mem => by
    rw [evaluatedNodesList, List.mem_append] at mem ⊢
    exact mem.imp (evaluatedNodes_trans inner first) (evaluatedNodesList_trans inner next)
end

/-- Every if and while of an accepted program is preserved exactly if none of them loses
a branch to an identifier condition. -/
theorem dead_branches_iff {env : Env} {prog : ProgramSyn} {ps : ParserState}
    {sentences : List AstNode} (parsed : parse prog = .ok ps)
    (accepted : semanticAnalyzer env ps.tab ps.headAst = .ok sentences) :
    (∀ node ∈ programNodes env ps.headAst, Preserved env ps.tab node) ↔
      ∀ node ∈ programNodes env ps.headAst, losesBranch env node = false := by
  have ok := parse_sentencesOk parsed
  constructor
  · intro preserved node mem
    by_contra loses
    obtain ⟨mrt, known, shape, checked⟩ := programNodes_accepted ok accepted mem
    let st : SemState := ⟨0, false, mrt, false⟩
    have outcome := eval_stmt env ok.wf.methods node .block .null st shape (.inl rfl) known
    rw [checked] at outcome
    obtain ⟨e, evaluated, post⟩ := outcome.ok
    have keeps := (preserved node mem .null st e known evaluated).2
    rw [post.tree] at keeps
    exact not_keepsBranches_rewrite (by simpa using loses) keeps
  · intro keeps node mem ret st e known evaluated
    obtain ⟨mrt, -, shape, -⟩ := programNodes_accepted ok accepted mem
    obtain ⟨checked, post⟩ :=
      (eval_stmt env ok.wf.methods node .block ret st shape (.inl rfl) known).of_ok evaluated
    rw [post.tree]
    refine ⟨rewrite_same node (by simp [isStmtOrNull, shape])
      (acceptedOrNull_of_accepted checked) fun n inner =>
        ?_, keepsBranches_rewrite (keeps node mem)⟩
    obtain ⟨line, sym, block, here, inside⟩ := mem_programNodes mem
    exact keeps n (evaluatedNodes_mem_programNodes here (evaluatedNodes_trans inner block inside))

def flagName : Ident := .of "b"

def branchOn (condition : ExprSyn) : ProgramSyn :=
  [.methodDecl ⟨5, some .integer, .of "main", [],
    some (.mk 5 [⟨1, .bool, flagName, some (.trueLiteral 1)⟩]
      (.cons (.ifThenElse 4 condition
        (.mk 2 [] (.cons (.returnExpr 2 (.integerLiteral 2 1)) .nil))
        (.mk 3 [] (.cons (.returnExpr 3 (.integerLiteral 3 2)) .nil)))
      (.cons (.returnExpr 5 (.integerLiteral 5 3)) .nil)))⟩]

/-- `if (b) { return 1; } else { return 2; }`, as the parser builds it. -/
def identifierIf : AstNode :=
  .ifStmt 4 (.leaf 2 (.id 0))
    (.block 2 (.cons (.common 2 .unary .ret (.leaf 2 (.int 1)) .null) .nil))
    (.block 3 (.cons (.common 3 .unary .ret (.leaf 3 (.int 2)) .null) .nil))

/-- With `-opt` the if above is replaced by its else branch, whatever `b` holds. -/
theorem dead_branches_wrong :
    ∃ ps sentences, parse (branchOn (.id 2 flagName)) = .ok ps ∧
      semanticAnalyzer (.sample true) ps.tab ps.headAst = .ok sentences ∧
      ∃ node ∈ programNodes (.sample true) ps.headAst, ¬ Preserved (.sample true) ps.tab node := by
  obtain ⟨checked, accepted⟩ := isOk_iff.mp (by decide +kernel :
    (frontEnd (.sample true) (branchOn (.id 2 flagName))).isOk = true)
  obtain ⟨ps, parsed, -, analyzed⟩ := frontEnd_ok accepted
  have facts : (parse (branchOn (.id 2 flagName))).toOption.map
        (fun ps => (programNodes (.sample true) ps.headAst, ps.tab.entry 0)) =
      some ([identifierIf], some (.id flagName .bool)) := by decide +kernel
  simp only [parsed, Except.toOption, Option.map_some, Option.some.injEq, Prod.mk.injEq] at facts
  obtain ⟨nodes, entry⟩ := facts
  have mem : identifierIf ∈ programNodes (.sample true) ps.headAst := nodes ▸ List.mem_cons_self
  refine ⟨ps, _, parsed, analyzed, identifierIf, mem, fun preserved => ?_⟩
  have ok := parse_sentencesOk parsed
  obtain ⟨mrt, known, shape, stmtAccepted⟩ := programNodes_accepted ok analyzed mem
  have outcome := eval_stmt (.sample true) ok.wf.methods identifierIf .block .null
    ⟨0, false, mrt, false⟩ shape (.inl rfl) known
  rw [stmtAccepted] at outcome
  obtain ⟨e, evaluated, post⟩ := outcome.ok
  have same := (preserved .null _ e known evaluated).1 (fun _ _ _ => 0) 0 ⟨fun _ => 1, []⟩
  rw [post.tree] at same
  have original : (runStmt ps.tab false (fun _ _ _ => 0) 0 (foldStmt (.sample true) identifierIf)
      ⟨fun _ => 1, []⟩).map Prod.snd = some (.returned (some 1)) := by
    simp [foldStmt, foldStmts, foldTree, identifierIf, runStmt, runStmts, evaluate, exprValue,
      leafValue, readVariable, entry, SymbolInfo.idType, IsBit, AstNode.isNull]
  have replaced : (runStmt ps.tab false (fun _ _ _ => 0) 0 (rewrite (.sample true) identifierIf)
      ⟨fun _ => 1, []⟩).map Prod.snd = some (.returned (some 2)) := rfl
  rw [← same, original] at replaced
  exact absurd replaced (by decide)

/-- A literal condition: the if on `true` is preserved. -/
theorem dead_branches_literal :
    ∃ ps, parse (branchOn (.trueLiteral 2)) = .ok ps ∧
      ∀ node ∈ programNodes (.sample true) ps.headAst, Preserved (.sample true) ps.tab node := by
  obtain ⟨checked, accepted⟩ := isOk_iff.mp (by decide +kernel :
    (frontEnd (.sample true) (branchOn (.trueLiteral 2))).isOk = true)
  obtain ⟨ps, parsed, -, analyzed⟩ := frontEnd_ok accepted
  refine ⟨ps, parsed, (dead_branches_iff parsed analyzed).mpr ?_⟩
  have facts : (parse (branchOn (.trueLiteral 2))).toOption.map
      (fun ps => (programNodes (.sample true) ps.headAst).map (losesBranch (.sample true))) =
      some [false] := by decide +kernel
  simp only [parsed, Except.toOption, Option.map_some, Option.some.injEq] at facts
  intro node mem
  have := List.mem_map_of_mem (f := losesBranch (.sample true)) mem
  rw [facts] at this
  exact List.mem_singleton.mp this

end Ctds
