import Ctds.Terminals

/-! A reader of tokens: it finds a derivation by descending from the start symbol, and leaves
sequences of operators to the parser of `Lib.Precedence`. A list of tokens has one derivation
that respects the precedence declarations, lines apart, and the reader finds it. -/

namespace Ctds

def binaryOf : Token → Option BinarySyn
  | .char '+' => some .plus | .char '-' => some .minus | .char '*' => some .times
  | .char '/' => some .slash | .char '%' => some .percent
  | .les => some .les | .grt => some .grt | .eq => some .eq | .neq => some .neq
  | .leq => some .leq | .geq => some .geq | .and => some .and | .or => some .or
  | _ => none

theorem binaryOf_terminal (op : BinarySyn) : binaryOf op.terminal = some op := by
  cases op <;> rfl

theorem terminal_of_binaryOf {t : Token} {op : BinarySyn} (h : binaryOf t = some op) :
    t = op.terminal := by
  unfold binaryOf at h
  split at h <;> cases h <;> rfl

/-- The operators that stand between the operands of an expression. -/
def ExprSyn.opTree : ExprSyn → OpTree ExprSyn BinarySyn
  | .binary _ op left right => .node op left.opTree right.opTree
  | e => .operand e

def exprOfTree : OpTree ExprSyn BinarySyn → ExprSyn
  | .operand e => e
  | .node op left right => .binary 0 op (exprOfTree left) (exprOfTree right)

def ExprSyn.isOperand : ExprSyn → Bool
  | .binary _ _ _ _ => false
  | _ => true

def expect (t : Token) : List Token → Option (List Token)
  | t' :: ts => if t' = t then some ts else none
  | [] => none

mutual
def readOperand : Nat → List Token → Option (ExprSyn × List Token)
  | 0, _ => none
  | n + 1, .char '-' :: ts => do
    let (e, ts) ← readOperand n ts
    return (.uminus 0 e, ts)
  | n + 1, .neg :: ts => do
    let (e, ts) ← readOperand n ts
    return (.neg 0 e, ts)
  | n + 1, .char '(' :: ts => do
    let (e, ts) ← readExpr n ts
    let ts ← expect (.char ')') ts
    return (.paren e, ts)
  | n + 1, .id name :: .char '(' :: ts => do
    let (args, ts) ← readCallArgs n ts
    return (.methodCall 0 name args, ts)
  | _ + 1, .id name :: ts => return (.id 0 name, ts)
  | _ + 1, .integerLiteral ival :: ts => return (.integerLiteral 0 ival, ts)
  | _ + 1, .kwTrue :: ts => return (.trueLiteral 0, ts)
  | _ + 1, .kwFalse :: ts => return (.falseLiteral 0, ts)
  | _ + 1, _ => none
/-- Operators, each with the operand behind it, as long as there are any. -/
def readMore : Nat → List Token → Option (List (BinarySyn × ExprSyn) × List Token)
  | 0, _ => none
  | n + 1, t :: ts =>
    match binaryOf t with
    | some op => do
      let (e, ts) ← readOperand n ts
      let (more, ts) ← readMore n ts
      return ((op, e) :: more, ts)
    | none => return ([], t :: ts)
  | _ + 1, [] => return ([], [])
def readExpr : Nat → List Token → Option (ExprSyn × List Token)
  | 0, _ => none
  | n + 1, ts => do
    let (e, ts) ← readOperand n ts
    let (more, ts) ← readMore n ts
    return (exprOfTree (OpTree.shiftReduce BinarySyn.prec [] (.operand e) more), ts)
/-- The arguments of a call and the closing parenthesis. -/
def readCallArgs : Nat → List Token → Option (ExprListSyn × List Token)
  | 0, _ => none
  | _ + 1, .char ')' :: ts => return (.nil, ts)
  | n + 1, ts => do
    let (e, ts) ← readExpr n ts
    let (rest, ts) ← readCommaArgs n ts
    return (.cons e rest, ts)
def readCommaArgs : Nat → List Token → Option (ExprListSyn × List Token)
  | n + 1, .char ',' :: ts => do
    let (e, ts) ← readExpr n ts
    let (rest, ts) ← readCommaArgs n ts
    return (.cons e rest, ts)
  | _ + 1, .char ')' :: ts => return (.nil, ts)
  | _, _ => none
end

/-- Operators and operands, in a row. -/
def moreTerminals (more : List (BinarySyn × ExprSyn)) : List Token :=
  (more.map fun next => next.1.terminal :: next.2.terminals).flatten

theorem terminals_opTree (e : ExprSyn) :
    e.terminals = e.opTree.first.terminals ++ moreTerminals e.opTree.more := by
  match e with
  | .binary line op left right =>
    rw [ExprSyn.terminals, terminals_opTree left, terminals_opTree right, ExprSyn.opTree,
      OpTree.first, OpTree.more]
    simp [moreTerminals]
  | .id .. | .methodCall .. | .integerLiteral .. | .trueLiteral .. | .falseLiteral .. | .uminus ..
  | .neg .. | .paren .. => simp [ExprSyn.opTree, OpTree.first, OpTree.more, moreTerminals]

theorem atLeast_opTree (n : Nat) (e : ExprSyn) :
    e.opTree.AtLeast BinarySyn.prec n ↔ e.AtLeast n := by
  cases e <;> rfl

theorem atLeast_unlined (n : Nat) (e : ExprSyn) : e.unlined.AtLeast n ↔ e.AtLeast n := by
  cases e <;> simp [ExprSyn.unlined, ExprSyn.AtLeast]

theorem respects_opTree_unlined (e : ExprSyn) (respects : e.Respects) :
    e.unlined.opTree.Respects BinarySyn.prec := by
  match e, respects with
  | .binary line op left right, ⟨l, r, leftBinds, rightBinds⟩ =>
    rw [ExprSyn.unlined, ExprSyn.opTree]
    refine ⟨respects_opTree_unlined left l, respects_opTree_unlined right r, ?_, ?_⟩
    · exact (atLeast_opTree _ _).mpr ((atLeast_unlined _ left).mpr leftBinds)
    · exact (atLeast_opTree _ _).mpr ((atLeast_unlined _ right).mpr rightBinds)
  | .id .., _ | .methodCall .., _ | .integerLiteral .., _ | .trueLiteral .., _
  | .falseLiteral .., _ | .uminus .., _ | .neg .., _ | .paren .., _ =>
    simp only [ExprSyn.unlined, ExprSyn.opTree, OpTree.Respects]

theorem opTree_unlined (e : ExprSyn) :
    exprOfTree e.unlined.opTree = e.unlined ∧
      e.unlined.opTree.first = e.opTree.first.unlined ∧
      e.unlined.opTree.more = e.opTree.more.map fun next => (next.1, next.2.unlined) := by
  match e with
  | .binary line op left right =>
    obtain ⟨l, leftFirst, leftMore⟩ := opTree_unlined left
    obtain ⟨r, rightFirst, rightMore⟩ := opTree_unlined right
    refine ⟨?_, ?_, ?_⟩
    · rw [ExprSyn.unlined, ExprSyn.opTree, exprOfTree, l, r]
    · rw [ExprSyn.unlined, ExprSyn.opTree, OpTree.first, leftFirst, ExprSyn.opTree, OpTree.first]
    · rw [ExprSyn.unlined, ExprSyn.opTree, OpTree.more, leftMore, rightMore, rightFirst,
        ExprSyn.opTree, OpTree.more, List.map_append, List.map_cons]
  | .id .. | .methodCall .. | .integerLiteral .. | .trueLiteral .. | .falseLiteral .. | .uminus ..
  | .neg .. | .paren .. =>
    simp [ExprSyn.unlined, ExprSyn.opTree, exprOfTree, OpTree.first, OpTree.more]

theorem shiftReduce_unlined {e : ExprSyn} (respects : e.Respects) :
    exprOfTree (OpTree.shiftReduce BinarySyn.prec [] (.operand e.opTree.first.unlined)
      (e.opTree.more.map fun next => (next.1, next.2.unlined))) = e.unlined := by
  obtain ⟨same, first, more⟩ := opTree_unlined e
  have tree := (OpTree.shiftReduce_eq_iff BinarySyn.prec e.opTree.first.unlined _ _).mpr
    ⟨respects_opTree_unlined e respects, first, more⟩
  rw [tree, same]

/-- The terminals that can open an expression. -/
def startsExpr : Token → Bool
  | .id _ | .integerLiteral _ | .kwTrue | .kwFalse | .neg | .char '-' | .char '(' => true
  | _ => false

theorem terminals_head (e : ExprSyn) : ∃ t ts, e.terminals = t :: ts ∧ startsExpr t = true := by
  match e with
  | .binary line op left right =>
    obtain ⟨t, ts, eq, starts⟩ := terminals_head left
    exact ⟨t, _, by rw [ExprSyn.terminals, eq, List.cons_append], starts⟩
  | .id .. | .methodCall .. | .integerLiteral .. | .trueLiteral .. | .falseLiteral .. | .uminus ..
  | .neg .. | .paren .. => exact ⟨_, _, rfl, rfl⟩

theorem terminals_pos (e : ExprSyn) : 0 < e.terminals.length := by
  obtain ⟨t, ts, eq, -⟩ := terminals_head e
  rw [eq]
  exact Nat.succ_pos _

/-- Nothing that could continue an expression. -/
def Closed (rest : List Token) : Prop :=
  rest.head? ≠ some (.char '(') ∧ ∀ t ∈ rest.head?, binaryOf t = none

/-- The reader finds the operand, whatever stands behind it, and a call is no identifier. -/
def OperandRead (e : ExprSyn) : Prop :=
  ∀ n rest, 2 * e.terminals.length ≤ n → rest.head? ≠ some (.char '(') →
    readOperand n (e.terminals ++ rest) = some (e.unlined, rest)

theorem readMore_closed {rest : List Token} (closed : Closed rest) (n : Nat) :
    readMore (n + 1) rest = some ([], rest) := by
  cases rest with
  | nil => rfl
  | cons t ts =>
    rw [readMore, closed.2 t rfl]
    rfl

theorem terminal_ne_paren (op : BinarySyn) : op.terminal ≠ .char '(' := by
  cases op <;> decide

theorem readMore_terminals {more : List (BinarySyn × ExprSyn)} {rest : List Token}
    (operands : ∀ next ∈ more, OperandRead next.2) (closed : Closed rest) {n : Nat}
    (enough : 2 * (moreTerminals more).length + 1 ≤ n) :
    readMore n (moreTerminals more ++ rest) =
      some (more.map fun next => (next.1, next.2.unlined), rest) := by
  induction more generalizing n with
  | nil =>
    obtain ⟨m, rfl⟩ : ∃ m, n = m + 1 := ⟨n - 1, by omega⟩
    exact readMore_closed closed m
  | cons next more ih =>
    obtain ⟨op, e⟩ := next
    rw [List.forall_mem_cons] at operands
    have here : OperandRead e := operands.1
    have split : moreTerminals ((op, e) :: more) ++ rest =
        op.terminal :: (e.terminals ++ (moreTerminals more ++ rest)) := by
      simp [moreTerminals]
    have length : (moreTerminals ((op, e) :: more)).length =
        e.terminals.length + (moreTerminals more).length + 1 := by
      simp [moreTerminals]
    have noCall : (moreTerminals more ++ rest).head? ≠ some (.char '(') := by
      cases more with
      | nil => exact closed.1
      | cons next _ => exact fun same => terminal_ne_paren next.1 (Option.some.inj same)
    obtain ⟨m, rfl⟩ : ∃ m, n = m + 1 := ⟨n - 1, by omega⟩
    rw [split, readMore, binaryOf_terminal]
    dsimp only
    rw [here m _ (by omega) noCall, Option.bind_eq_bind, Option.bind_some]
    dsimp only
    rw [ih operands.2 (by omega)]
    rfl

theorem readExpr_terminals {e : ExprSyn} {rest : List Token} (respects : e.Respects)
    (operands : OperandRead e.opTree.first ∧ ∀ next ∈ e.opTree.more, OperandRead next.2)
    (closed : Closed rest) {n : Nat} (enough : 2 * e.terminals.length + 1 ≤ n) :
    readExpr n (e.terminals ++ rest) = some (e.unlined, rest) := by
  obtain ⟨m, rfl⟩ : ∃ m, n = m + 1 := ⟨n - 1, by omega⟩
  have length := congrArg List.length (terminals_opTree e)
  rw [List.length_append] at length
  have noCall : (moreTerminals e.opTree.more ++ rest).head? ≠ some (.char '(') := by
    cases e.opTree.more with
    | nil => exact closed.1
    | cons next _ => exact fun same => terminal_ne_paren next.1 (Option.some.inj same)
  have pos := terminals_pos e.opTree.first
  rw [terminals_opTree, List.append_assoc, readExpr, operands.1 m _ (by omega) noCall,
    Option.bind_eq_bind, Option.bind_some]
  dsimp only
  rw [readMore_terminals operands.2 closed (by omega)]
  exact congrArg (fun tree => some (tree, rest)) (shiftReduce_unlined respects)

/-- The reader finds the arguments of a call and the closing parenthesis. -/
def CallArgsRead (args : ExprListSyn) : Prop :=
  (∀ n rest, 2 * args.terminals.length + 2 ≤ n →
    readCallArgs n (args.terminals ++ .char ')' :: rest) = some (args.unlined, rest)) ∧
  ∀ n rest, 2 * args.commaTerminals.length + 1 ≤ n →
    readCommaArgs n (args.commaTerminals ++ .char ')' :: rest) = some (args.unlined, rest)

theorem closed_paren (rest : List Token) : Closed (.char ')' :: rest) :=
  ⟨by simp, fun t mem => by obtain rfl := Option.some.inj mem; rfl⟩

theorem closed_comma (rest : List Token) : Closed (.char ',' :: rest) :=
  ⟨by simp, fun t mem => by obtain rfl := Option.some.inj mem; rfl⟩

theorem closed_semicolon (rest : List Token) : Closed (.char ';' :: rest) :=
  ⟨by simp, fun t mem => by obtain rfl := Option.some.inj mem; rfl⟩

theorem closed_commaTerminals (args : ExprListSyn) (rest : List Token) :
    Closed (args.commaTerminals ++ .char ')' :: rest) := by
  cases args with
  | nil => exact closed_paren rest
  | cons e more => exact closed_comma _

theorem isOperand_opTree {e : ExprSyn} {n : Nat} (high : 5 < n) (atLeast : e.AtLeast n) :
    e.opTree = .operand e := by
  cases e with
  | binary line op left right =>
    have le : n ≤ op.prec := atLeast
    cases op <;> simp only [BinarySyn.prec] at le <;> omega
  | _ => rfl

theorem operandRead_unary {e e' : ExprSyn} {t : Token} {f : ExprSyn → ExprSyn}
    (here : OperandRead e) (terminals : e'.terminals = t :: e.terminals)
    (reads : ∀ n ts, readOperand (n + 1) (t :: ts) =
      (readOperand n ts).map fun (e, ts) => (f e, ts)) (same : e'.unlined = f e.unlined) :
    OperandRead e' := by
  intro n rest enough noCall
  rw [terminals, List.length_cons] at enough
  obtain ⟨m, rfl⟩ : ∃ m, n = m + 1 := ⟨n - 1, by omega⟩
  rw [terminals, List.cons_append, reads, here m rest (by omega) noCall, same]
  rfl

mutual
theorem operands_read (e : ExprSyn) (respects : e.Respects) :
    OperandRead e.opTree.first ∧ ∀ next ∈ e.opTree.more, OperandRead next.2 := by
  match e, respects with
  | .binary line op left right, ⟨l, r, _⟩ =>
    obtain ⟨leftFirst, leftMore⟩ := operands_read left l
    obtain ⟨rightFirst, rightMore⟩ := operands_read right r
    refine ⟨leftFirst, fun next mem => ?_⟩
    rw [ExprSyn.opTree, OpTree.more, List.mem_append, List.mem_cons] at mem
    rcases mem with inLeft | rfl | inRight
    · exact leftMore next inLeft
    · exact rightFirst
    · exact rightMore next inRight
  | .uminus line expr, ⟨inner, atLeast⟩ =>
    have here := (operands_read expr inner).1
    rw [isOperand_opTree (by decide) atLeast] at here
    exact ⟨operandRead_unary here rfl
      (fun n ts => by rw [readOperand]; cases readOperand n ts <;> rfl)
      rfl, nofun⟩
  | .neg line expr, ⟨inner, atLeast⟩ =>
    have here := (operands_read expr inner).1
    rw [isOperand_opTree (by decide) atLeast] at here
    exact ⟨operandRead_unary here rfl
      (fun n ts => by rw [readOperand]; cases readOperand n ts <;> rfl)
      rfl, nofun⟩
  | .paren expr, inner =>
    refine ⟨show OperandRead (.paren expr) from fun n rest enough _ => ?_, nofun⟩
    rw [ExprSyn.terminals, List.length_append, List.length_cons, List.length_singleton] at enough
    obtain ⟨m, rfl⟩ : ∃ m, n = m + 1 := ⟨n - 1, by omega⟩
    rw [ExprSyn.terminals, List.cons_append, List.cons_append, List.append_assoc, readOperand,
      List.singleton_append, readExpr_terminals (e := expr) inner (operands_read expr inner)
        (closed_paren rest) (by omega)]
    rfl
  | .methodCall line name callArgs, inner =>
    refine ⟨show OperandRead (.methodCall line name callArgs) from fun n rest enough _ => ?_, nofun⟩
    rw [ExprSyn.terminals, List.length_append, List.length_cons, List.length_cons,
      List.length_singleton] at enough
    obtain ⟨m, rfl⟩ : ∃ m, n = m + 1 := ⟨n - 1, by omega⟩
    rw [ExprSyn.terminals, List.cons_append, List.cons_append, List.cons_append, List.cons_append,
      List.append_assoc, readOperand, List.singleton_append,
        (callArgs_read callArgs inner).1 m rest (by omega)]
    rfl
  | .id line name, _ =>
    refine ⟨show OperandRead (.id line name) from fun n rest enough noCall => ?_, nofun⟩
    rw [ExprSyn.terminals, List.length_singleton] at enough
    obtain ⟨m, rfl⟩ : ∃ m, n = m + 1 := ⟨n - 1, by omega⟩
    rw [ExprSyn.terminals, List.singleton_append, readOperand]
    · rfl
    · rintro ts rfl
      exact noCall rfl
  | .integerLiteral line ival, _ | .trueLiteral line, _ | .falseLiteral line, _ =>
    refine ⟨fun n rest enough _ => ?_, nofun⟩
    obtain ⟨m, rfl⟩ : ∃ m, n = m + 1 := ⟨n - 1, by
      simp [ExprSyn.opTree, OpTree.first, ExprSyn.terminals] at enough
      omega⟩
    rfl
theorem callArgs_read (args : ExprListSyn) (respects : args.Respects) : CallArgsRead args := by
  match args, respects with
  | .nil, _ =>
    refine ⟨fun n rest enough => ?_, fun n rest enough => ?_⟩
    all_goals
      obtain ⟨m, rfl⟩ : ∃ m, n = m + 1 := ⟨n - 1, by omega⟩
      rfl
  | .cons expr more, ⟨e, r⟩ =>
    have here := fun n rest enough =>
      readExpr_terminals (n := n) e (operands_read expr e) (closed_commaTerminals more rest) enough
    have later := (callArgs_read more r).2
    refine ⟨fun n rest enough => ?_, fun n rest enough => ?_⟩
    · rw [ExprListSyn.terminals, List.length_append] at enough
      obtain ⟨m, rfl⟩ : ∃ m, n = m + 1 := ⟨n - 1, by omega⟩
      have notEnd : ∀ ts, expr.terminals ++ (more.commaTerminals ++ .char ')' :: rest) =
          .char ')' :: ts → False := by
        obtain ⟨t, ts, eq, starts⟩ := terminals_head expr
        rw [eq]
        rintro ts' same
        rw [(List.cons.inj same).1] at starts
        cases starts
      rw [ExprListSyn.terminals, List.append_assoc, readCallArgs.eq_3 _ _ notEnd,
        here m rest (by omega),
        Option.bind_eq_bind, Option.bind_some]
      dsimp only
      rw [later m rest (by omega)]
      rfl
    · rw [ExprListSyn.commaTerminals, List.length_append, List.length_cons] at enough
      obtain ⟨m, rfl⟩ : ∃ m, n = m + 1 := ⟨n - 1, by omega⟩
      rw [ExprListSyn.commaTerminals, List.cons_append, List.cons_append, List.append_assoc,
        readCommaArgs, here m rest (by omega), Option.bind_eq_bind, Option.bind_some]
      dsimp only
      rw [later m rest (by omega)]
      rfl
end

theorem expect_eq_some {t : Token} {ts rest : List Token} (h : expect t ts = some rest) :
    ts = t :: rest := by
  cases ts with
  | nil => cases h
  | cons t' ts =>
    rw [expect] at h
    split at h
    · next same => rw [same, Option.some.inj h]
    · cases h

/-- A derivation as the reader builds them. -/
def ExprSyn.Canonical (e : ExprSyn) : Prop := e.Respects ∧ e.unlined = e

def ExprListSyn.Canonical (args : ExprListSyn) : Prop := args.Respects ∧ args.unlined = args

structure OperandFound (e : ExprSyn) : Prop where
  canonical : e.Canonical
  operand : ∀ n, e.AtLeast n

theorem exprOfTree_found {t : OpTree ExprSyn BinarySyn} (respects : t.Respects BinarySyn.prec)
    (first : OperandFound t.first) (more : ∀ next ∈ t.more, OperandFound next.2) :
    (exprOfTree t).Canonical ∧
      (exprOfTree t).terminals = t.first.terminals ++ moreTerminals t.more ∧
      ∀ n, t.AtLeast BinarySyn.prec n → (exprOfTree t).AtLeast n := by
  induction t with
  | operand e =>
    refine ⟨first.canonical, ?_, fun n _ => first.operand n⟩
    exact (List.append_nil _).symm
  | node op left right ihl ihr =>
    obtain ⟨l, r, leftBinds, rightBinds⟩ := respects
    have inRight : ∀ next ∈ (op, right.first) :: right.more, OperandFound next.2 := fun next mem =>
      more next (List.mem_append_right _ mem)
    obtain ⟨leftCanonical, leftText, leftLevel⟩ := ihl l first fun next mem =>
      more next (List.mem_append_left _ mem)
    obtain ⟨rightCanonical, rightText, rightLevel⟩ := ihr r (inRight _ List.mem_cons_self)
      fun next mem => inRight next (List.mem_cons_of_mem _ mem)
    refine ⟨⟨⟨leftCanonical.1, rightCanonical.1, leftLevel _ leftBinds, rightLevel _ rightBinds⟩,
      ?_⟩, ?_, fun n atLeast => atLeast⟩
    · rw [exprOfTree, ExprSyn.unlined, leftCanonical.2, rightCanonical.2]
    · rw [exprOfTree, ExprSyn.terminals, leftText, rightText, OpTree.first, OpTree.more]
      simp [moreTerminals]

/-- What the readers of expressions find, with at most `n` steps. -/
structure ExprsFound (n : Nat) : Prop where
  operand : ∀ {ts e rest}, readOperand n ts = some (e, rest) →
    ts = e.terminals ++ rest ∧ OperandFound e
  more : ∀ {ts found rest}, readMore n ts = some (found, rest) →
    ts = moreTerminals found ++ rest ∧ ∀ next ∈ found, OperandFound next.2
  expr : ∀ {ts e rest}, readExpr n ts = some (e, rest) → ts = e.terminals ++ rest ∧ e.Canonical
  callArgs : ∀ {ts args rest}, readCallArgs n ts = some (args, rest) →
    ts = args.terminals ++ .char ')' :: rest ∧ args.Canonical
  commaArgs : ∀ {ts args rest}, readCommaArgs n ts = some (args, rest) →
    ts = args.commaTerminals ++ .char ')' :: rest ∧ args.Canonical

theorem operand_found {n : Nat} (ih : ExprsFound n) {ts rest : List Token} {e : ExprSyn}
    (h : readOperand (n + 1) ts = some (e, rest)) : ts = e.terminals ++ rest ∧ OperandFound e := by
  rw [readOperand.eq_def] at h
  dsimp only at h
  split at h
  · next eq => cases eq
  · next eq =>
    obtain rfl := Nat.succ.inj eq
    obtain ⟨⟨inner, ts'⟩, read, same⟩ := Option.bind_eq_some_iff.mp h
    obtain ⟨rfl, rfl⟩ := Prod.mk.inj (Option.some.inj same)
    obtain ⟨rfl, found⟩ := ih.operand read
    exact ⟨rfl, ⟨⟨found.canonical.1, found.operand _⟩, congrArg _ found.canonical.2⟩,
      fun _ => trivial⟩
  · next eq =>
    obtain rfl := Nat.succ.inj eq
    obtain ⟨⟨inner, ts'⟩, read, same⟩ := Option.bind_eq_some_iff.mp h
    obtain ⟨rfl, rfl⟩ := Prod.mk.inj (Option.some.inj same)
    obtain ⟨rfl, found⟩ := ih.operand read
    exact ⟨rfl, ⟨⟨found.canonical.1, found.operand _⟩, congrArg _ found.canonical.2⟩,
      fun _ => trivial⟩
  · next eq =>
    obtain rfl := Nat.succ.inj eq
    obtain ⟨⟨inner, ts'⟩, read, h⟩ := Option.bind_eq_some_iff.mp h
    obtain ⟨ts'', closing, same⟩ := Option.bind_eq_some_iff.mp h
    obtain ⟨rfl, rfl⟩ := Prod.mk.inj (Option.some.inj same)
    obtain ⟨rfl, respects, unlined⟩ := ih.expr read
    obtain rfl := expect_eq_some closing
    refine ⟨?_, ⟨respects, congrArg _ unlined⟩, fun _ => trivial⟩
    simp [ExprSyn.terminals]
  · next eq =>
    obtain rfl := Nat.succ.inj eq
    obtain ⟨⟨args, ts'⟩, read, same⟩ := Option.bind_eq_some_iff.mp h
    obtain ⟨rfl, rfl⟩ := Prod.mk.inj (Option.some.inj same)
    obtain ⟨rfl, respects, unlined⟩ := ih.callArgs read
    refine ⟨?_, ⟨respects, congrArg _ unlined⟩, fun _ => trivial⟩
    simp [ExprSyn.terminals]
  all_goals
    first
    | (cases h; exact ⟨rfl, ⟨trivial, rfl⟩, fun _ => trivial⟩)
    | cases h

theorem exprs_found (n : Nat) : ExprsFound n := by
  induction n with
  | zero =>
    refine ⟨?_, ?_, ?_, ?_, ?_⟩ <;> (intro ts found rest h; cases h)
  | succ n ih =>
    refine ⟨operand_found ih, ?_, ?_, ?_, ?_⟩
    · intro ts found rest h
      cases ts with
      | nil =>
        obtain ⟨rfl, rfl⟩ := Prod.mk.inj (Option.some.inj h)
        exact ⟨rfl, nofun⟩
      | cons t ts =>
        rw [readMore] at h
        split at h
        · next op operator =>
          obtain ⟨⟨e, ts'⟩, first, h⟩ := Option.bind_eq_some_iff.mp h
          obtain ⟨⟨more, ts''⟩, later, same⟩ := Option.bind_eq_some_iff.mp h
          obtain ⟨rfl, rfl⟩ := Prod.mk.inj (Option.some.inj same)
          obtain ⟨rfl, found⟩ := ih.operand first
          obtain ⟨rfl, others⟩ := ih.more later
          refine ⟨?_, List.forall_mem_cons.mpr ⟨found, others⟩⟩
          rw [terminal_of_binaryOf operator]
          simp [moreTerminals]
        · obtain ⟨rfl, rfl⟩ := Prod.mk.inj (Option.some.inj h)
          exact ⟨rfl, nofun⟩
    · intro ts e rest h
      obtain ⟨⟨first, ts'⟩, read, h⟩ := Option.bind_eq_some_iff.mp h
      obtain ⟨⟨more, ts''⟩, later, same⟩ := Option.bind_eq_some_iff.mp h
      obtain ⟨rfl, rfl⟩ := Prod.mk.inj (Option.some.inj same)
      obtain ⟨rfl, found⟩ := ih.operand read
      obtain ⟨rfl, others⟩ := ih.more later
      obtain ⟨respects, head, tail⟩ :=
        (OpTree.shiftReduce_eq_iff BinarySyn.prec first more _).mp rfl
      obtain ⟨canonical, text, -⟩ :=
        exprOfTree_found respects (head.symm ▸ found) (tail.symm ▸ others)
      refine ⟨?_, canonical⟩
      rw [text, head, tail, List.append_assoc]
    · intro ts args rest h
      rw [readCallArgs.eq_def] at h
      dsimp only at h
      split at h
      · next eq => cases eq
      · obtain ⟨rfl, rfl⟩ := Prod.mk.inj (Option.some.inj h)
        exact ⟨rfl, trivial, rfl⟩
      · next eq _ =>
        obtain rfl := Nat.succ.inj eq
        obtain ⟨⟨e, ts'⟩, first, h⟩ := Option.bind_eq_some_iff.mp h
        obtain ⟨⟨more, ts''⟩, later, same⟩ := Option.bind_eq_some_iff.mp h
        obtain ⟨rfl, rfl⟩ := Prod.mk.inj (Option.some.inj same)
        obtain ⟨rfl, respects, unlined⟩ := ih.expr first
        obtain ⟨rfl, others, unlined'⟩ := ih.commaArgs later
        refine ⟨?_, ⟨respects, others⟩, by rw [ExprListSyn.unlined, unlined, unlined']⟩
        simp [ExprListSyn.terminals]
    · intro ts args rest h
      rw [readCommaArgs.eq_def] at h
      dsimp only at h
      split at h
      · next eq =>
        obtain rfl := Nat.succ.inj eq
        obtain ⟨⟨e, ts'⟩, first, h⟩ := Option.bind_eq_some_iff.mp h
        obtain ⟨⟨more, ts''⟩, later, same⟩ := Option.bind_eq_some_iff.mp h
        obtain ⟨rfl, rfl⟩ := Prod.mk.inj (Option.some.inj same)
        obtain ⟨rfl, respects, unlined⟩ := ih.expr first
        obtain ⟨rfl, others, unlined'⟩ := ih.commaArgs later
        refine ⟨?_, ⟨respects, others⟩, by rw [ExprListSyn.unlined, unlined, unlined']⟩
        simp [ExprListSyn.commaTerminals]
      · obtain ⟨rfl, rfl⟩ := Prod.mk.inj (Option.some.inj h)
        exact ⟨rfl, trivial, rfl⟩
      · cases h

end Ctds
