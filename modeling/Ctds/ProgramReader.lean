import Ctds.Reader

/-! The reader from expressions up to programs. One terminal decides between two productions, two
where a statement or a declaration opens with a name. -/

namespace Ctds

def expression (ts : List Token) : Option (ExprSyn × List Token) :=
  readExpr (2 * ts.length + 1) ts

def callArguments (ts : List Token) : Option (ExprListSyn × List Token) :=
  readCallArgs (2 * ts.length + 2) ts

theorem expression_terminals {e : ExprSyn} {rest : List Token} (respects : e.Respects)
    (closed : Closed rest) : expression (e.terminals ++ rest) = some (e.unlined, rest) := by
  refine readExpr_terminals respects (operands_read e respects) closed ?_
  rw [List.length_append]
  omega

theorem expression_found {ts rest : List Token} {e : ExprSyn}
    (h : expression ts = some (e, rest)) : ts = e.terminals ++ rest ∧ e.Canonical :=
  (exprs_found _).expr h

theorem callArguments_terminals {args : ExprListSyn} (respects : args.Respects)
    (rest : List Token) :
    callArguments (args.terminals ++ .char ')' :: rest) = some (args.unlined, rest) := by
  refine (callArgs_read args respects).1 _ rest ?_
  rw [List.length_append]
  omega

theorem callArguments_found {ts rest : List Token} {args : ExprListSyn}
    (h : callArguments ts = some (args, rest)) :
    ts = args.terminals ++ .char ')' :: rest ∧ args.Canonical :=
  (exprs_found _).callArgs h

def typeOf : Token → Option TypeSyn
  | .kwInteger => some .integer
  | .kwBool => some .bool
  | _ => none

/-- What stands behind `type ID` where a variable is declared. -/
def readInit : List Token → Option (Option ExprSyn × List Token)
  | .char ';' :: ts => return (none, ts)
  | .char '=' :: ts => do
    let (e, ts) ← expression ts
    let ts ← expect (.char ';') ts
    return (some e, ts)
  | _ => none

def readVarDecls : Nat → List Token → Option (List VarDeclSyn × List Token)
  | n + 1, t :: ts =>
    match typeOf t, ts with
    | some type, .id name :: ts => do
      let (init, ts) ← readInit ts
      let (rest, ts) ← readVarDecls n ts
      return (⟨0, type, name, init⟩ :: rest, ts)
    | some _, _ => none
    | none, ts => return ([], t :: ts)
  | _ + 1, [] => return ([], [])
  | 0, _ => none

mutual
def readStmt : Nat → List Token → Option (StmtSyn × List Token)
  | 0, _ => none
  | _ + 1, .id name :: .char '=' :: ts => do
    let (e, ts) ← expression ts
    let ts ← expect (.char ';') ts
    return (.assign 0 name e, ts)
  | _ + 1, .id name :: .char '(' :: ts => do
    let (args, ts) ← callArguments ts
    let ts ← expect (.char ';') ts
    return (.methodCall 0 name args, ts)
  | n + 1, .kwIf :: .char '(' :: ts => do
    let (cond, ts) ← expression ts
    let ts ← expect (.char ')') ts
    let ts ← expect .kwThen ts
    let (thenBlock, ts) ← readBlock n ts
    match ts with
    | .kwElse :: ts => do
      let (elseBlock, ts) ← readBlock n ts
      return (.ifThenElse 0 cond thenBlock elseBlock, ts)
    | ts => return (.ifThen 0 cond thenBlock, ts)
  | n + 1, .kwWhile :: .char '(' :: ts => do
    let (cond, ts) ← expression ts
    let ts ← expect (.char ')') ts
    let (block, ts) ← readBlock n ts
    return (.whileLoop 0 cond block, ts)
  | _ + 1, .kwReturn :: .char ';' :: ts => return (.returnVoid 0, ts)
  | _ + 1, .kwReturn :: ts => do
    let (e, ts) ← expression ts
    let ts ← expect (.char ';') ts
    return (.returnExpr 0 e, ts)
  | _ + 1, .char ';' :: ts => return (.empty, ts)
  | n + 1, .char '{' :: ts => do
    let (block, ts) ← readBlock n (.char '{' :: ts)
    return (.block block, ts)
  | _ + 1, _ => none
def readBlock : Nat → List Token → Option (BlockSyn × List Token)
  | n + 1, .char '{' :: ts => do
    let (varDecls, ts) ← readVarDecls (ts.length + 1) ts
    let (statements, ts) ← readStmts n ts
    return (.mk 0 varDecls statements, ts)
  | _, _ => none
/-- The statements of a block and the closing brace. -/
def readStmts : Nat → List Token → Option (StmtListSyn × List Token)
  | 0, _ => none
  | _ + 1, .char '}' :: ts => return (.nil, ts)
  | n + 1, ts => do
    let (statement, ts) ← readStmt n ts
    let (rest, ts) ← readStmts n ts
    return (.cons statement rest, ts)
end

def readArg : List Token → Option (ArgSyn × List Token)
  | t :: .id name :: ts => (typeOf t).map fun type => (⟨0, type, name⟩, ts)
  | _ => none

def readCommaParams : Nat → List Token → Option (List ArgSyn × List Token)
  | n + 1, .char ',' :: ts => do
    let (arg, ts) ← readArg ts
    let (rest, ts) ← readCommaParams n ts
    return (arg :: rest, ts)
  | _ + 1, .char ')' :: ts => return ([], ts)
  | _, _ => none

/-- The parameters of a method and the closing parenthesis. -/
def readParams : List Token → Option (List ArgSyn × List Token)
  | .char ')' :: ts => return ([], ts)
  | ts => do
    let (arg, ts) ← readArg ts
    let (rest, ts) ← readCommaParams (ts.length + 1) ts
    return (arg :: rest, ts)

def readBody : List Token → Option (Option BlockSyn × List Token)
  | .kwExtern :: ts => do
    let ts ← expect (.char ';') ts
    return (none, ts)
  | ts => do
    let (block, ts) ← readBlock (2 * ts.length) ts
    return (some block, ts)

/-- What stands behind the name and the opening parenthesis of a method. -/
def readMethod (type : Option TypeSyn) (name : Ident) (ts : List Token) :
    Option (DeclSyn × List Token) := do
  let (args, ts) ← readParams ts
  let (body, ts) ← readBody ts
  return (.methodDecl ⟨0, type, name, args, body⟩, ts)

def readDecl : List Token → Option (DeclSyn × List Token)
  | .kwVoid :: .id name :: .char '(' :: ts => readMethod none name ts
  | t :: .id name :: ts => do
    let type ← typeOf t
    match ts with
    | .char '(' :: ts => readMethod (some type) name ts
    | ts => do
      let (init, ts) ← readInit ts
      return (.varDecl ⟨0, type, name, init⟩, ts)
  | _ => none

def readDecls : Nat → List Token → Option (ProgramSyn × List Token)
  | 0, _ => none
  | _ + 1, .char '}' :: ts => return ([], ts)
  | n + 1, ts => do
    let (decl, ts) ← readDecl ts
    let (rest, ts) ← readDecls n ts
    return (decl :: rest, ts)

def readProgram : List Token → Option ProgramSyn
  | .kwProgram :: .char '{' :: ts => do
    let (prog, ts) ← readDecls (ts.length + 1) ts
    if ts = [] then return prog else none
  | _ => none

theorem typeOf_terminal (type : TypeSyn) : typeOf type.terminal = some type := by
  cases type <;> rfl

theorem terminal_of_typeOf {t : Token} {type : TypeSyn} (h : typeOf t = some type) :
    t = type.terminal := by
  unfold typeOf at h
  split at h <;> cases h <;> rfl

theorem expect_cons (t : Token) (ts : List Token) : expect t (t :: ts) = some ts := if_pos rfl

theorem readInit_terminals {init : Option ExprSyn} (respects : ∀ expr ∈ init, expr.Respects)
    (rest : List Token) :
    readInit (initTerminals init ++ rest) = some (init.map ExprSyn.unlined, rest) := by
  cases init with
  | none => rfl
  | some expr =>
    rw [initTerminals, List.cons_append, List.cons_append, List.append_assoc,
      List.singleton_append, readInit,
      expression_terminals (respects expr rfl) (closed_semicolon rest)]
    rfl

theorem length_le_flatten {lists : List (List Token)} (nonempty : ∀ ts ∈ lists, ts ≠ []) :
    lists.length ≤ lists.flatten.length := by
  induction lists with
  | nil => exact Nat.le_refl _
  | cons ts lists ih =>
    rw [List.forall_mem_cons] at nonempty
    have pos := List.length_pos_iff.mpr nonempty.1
    have rest := ih nonempty.2
    rw [List.length_cons, List.flatten_cons, List.length_append]
    omega

theorem readVarDecls_terminals {decls : List VarDeclSyn}
    (respects : ∀ decl ∈ decls, decl.Respects) {rest : List Token}
    (noDecl : ∀ t ∈ rest.head?, typeOf t = none) {n : Nat} (enough : decls.length + 1 ≤ n) :
    readVarDecls n ((decls.map VarDeclSyn.terminals).flatten ++ rest) =
      some (decls.map VarDeclSyn.unlined, rest) := by
  induction decls generalizing n with
  | nil =>
    obtain ⟨m, rfl⟩ : ∃ m, n = m + 1 := ⟨n - 1, by omega⟩
    cases rest with
    | nil => rfl
    | cons t ts =>
      have none : typeOf t = none := noDecl t rfl
      simp only [List.map_nil, List.flatten_nil, List.nil_append, readVarDecls, none]
      rfl
  | cons decl decls ih =>
    rw [List.forall_mem_cons] at respects
    rw [List.length_cons] at enough
    obtain ⟨m, rfl⟩ : ∃ m, n = m + 1 := ⟨n - 1, by omega⟩
    rw [List.map_cons, List.flatten_cons, List.append_assoc, VarDeclSyn.terminals,
      List.cons_append, List.cons_append]
    simp only [readVarDecls, typeOf_terminal]
    rw [readInit_terminals respects.1, Option.bind_eq_bind, Option.bind_some]
    dsimp only
    rw [ih respects.2 (by omega)]
    rfl

theorem stmt_head (s : StmtSyn) :
    ∃ t ts, s.terminals = t :: ts ∧ typeOf t = none ∧ t ≠ .char '}' ∧ t ≠ .kwElse := by
  match s with
  | .block (.mk _ _ _) => exact ⟨_, _, rfl, rfl, by decide, by decide⟩
  | .assign .. | .methodCall .. =>
    refine ⟨_, _, rfl, rfl, ?_, ?_⟩ <;> exact nofun
  | .ifThen .. | .ifThenElse .. | .whileLoop .. | .returnExpr .. | .returnVoid .. | .empty =>
    exact ⟨_, _, rfl, rfl, by decide, by decide⟩

theorem stmts_head (ss : StmtListSyn) (rest : List Token) :
    ∀ t ∈ (ss.terminals ++ .char '}' :: rest).head?, typeOf t = none ∧ t ≠ .kwElse := by
  intro t mem
  cases ss with
  | nil =>
    obtain rfl := Option.some.inj mem
    exact ⟨rfl, by decide⟩
  | cons s ss =>
    obtain ⟨t', ts, eq, noType, -, noElse⟩ := stmt_head s
    rw [StmtListSyn.terminals, eq] at mem
    obtain rfl := Option.some.inj mem
    exact ⟨noType, noElse⟩

def StmtRead (s : StmtSyn) : Prop :=
  ∀ n rest, 2 * s.terminals.length + 1 ≤ n → rest.head? ≠ some .kwElse →
    readStmt n (s.terminals ++ rest) = some (s.unlined, rest)

def BlockRead (b : BlockSyn) : Prop :=
  ∀ n rest, 2 * b.terminals.length ≤ n →
    readBlock n (b.terminals ++ rest) = some (b.unlined, rest)

def StmtsRead (ss : StmtListSyn) : Prop :=
  ∀ n rest, 2 * ss.terminals.length + 2 ≤ n →
    readStmts n (ss.terminals ++ .char '}' :: rest) = some (ss.unlined, rest)

theorem readStmt_block {b : BlockSyn} (here : BlockRead b) {n : Nat} (rest : List Token)
    (enough : 2 * b.terminals.length + 1 ≤ n) :
    readStmt n (b.terminals ++ rest) = some (.block b.unlined, rest) := by
  obtain ⟨m, rfl⟩ : ∃ m, n = m + 1 := ⟨n - 1, by omega⟩
  have found := here m rest (by omega)
  obtain ⟨line, decls, statements⟩ := b
  rw [BlockSyn.terminals, List.cons_append, List.cons_append, List.cons_append] at found ⊢
  rw [readStmt, found]
  rfl

theorem readCond {cond : ExprSyn} (respects : cond.Respects) (rest : List Token) :
    expression (cond.terminals ++ .char ')' :: rest) = some (cond.unlined, .char ')' :: rest) :=
  expression_terminals respects (closed_paren rest)

mutual
theorem stmt_read (s : StmtSyn) (respects : s.Respects) : StmtRead s := by
  intro n rest enough noElse
  match s, respects with
  | .assign line name expr, inner =>
    obtain ⟨m, rfl⟩ : ∃ m, n = m + 1 := ⟨n - 1, by omega⟩
    rw [StmtSyn.terminals, List.cons_append, List.cons_append, List.cons_append, List.cons_append,
      List.append_assoc, List.singleton_append, readStmt,
      expression_terminals (e := expr) inner (closed_semicolon rest)]
    rfl
  | .methodCall line name callArgs, inner =>
    obtain ⟨m, rfl⟩ : ∃ m, n = m + 1 := ⟨n - 1, by omega⟩
    rw [StmtSyn.terminals, List.cons_append, List.cons_append, List.cons_append, List.cons_append,
      List.append_assoc, List.cons_append, List.singleton_append, readStmt,
      callArguments_terminals (show callArgs.Respects from inner)]
    rfl
  | .ifThen line cond thenBlock, ⟨c, t⟩ =>
    rw [StmtSyn.terminals, List.length_append, List.length_cons, List.length_cons,
      List.length_cons, List.length_cons] at enough
    obtain ⟨m, rfl⟩ : ∃ m, n = m + 1 := ⟨n - 1, by omega⟩
    have block := block_read thenBlock t m rest (by omega)
    rw [StmtSyn.terminals, List.cons_append, List.cons_append, List.cons_append, List.cons_append,
      List.append_assoc, List.cons_append, List.cons_append, readStmt, readCond c]
    simp only [Option.bind_eq_bind, Option.bind_some, expect_cons, block]
    split
    · exact (noElse rfl).elim
    · rfl
  | .ifThenElse line cond thenBlock elseBlock, ⟨c, t, e⟩ =>
    simp only [StmtSyn.terminals, List.length_append, List.length_cons] at enough
    obtain ⟨m, rfl⟩ : ∃ m, n = m + 1 := ⟨n - 1, by omega⟩
    have block := block_read thenBlock t m (.kwElse :: (elseBlock.terminals ++ rest)) (by omega)
    have block' := block_read elseBlock e m rest (by omega)
    rw [StmtSyn.terminals]
    simp only [List.cons_append, List.append_assoc]
    rw [readStmt, readCond c]
    simp only [Option.bind_eq_bind, Option.bind_some, expect_cons, block, block']
    rfl
  | .whileLoop line cond block, ⟨c, b⟩ =>
    rw [StmtSyn.terminals, List.length_append, List.length_cons, List.length_cons,
      List.length_cons] at enough
    obtain ⟨m, rfl⟩ : ∃ m, n = m + 1 := ⟨n - 1, by omega⟩
    have body := block_read block b m rest (by omega)
    rw [StmtSyn.terminals, List.cons_append, List.cons_append, List.cons_append, List.cons_append,
      List.append_assoc, List.cons_append, readStmt, readCond c]
    simp only [Option.bind_eq_bind, Option.bind_some, expect_cons, body]
    rfl
  | .returnExpr line expr, inner =>
    obtain ⟨m, rfl⟩ : ∃ m, n = m + 1 := ⟨n - 1, by omega⟩
    have found := expression_terminals (e := expr) inner (closed_semicolon rest)
    have notEnd : ∀ ts, expr.terminals ++ .char ';' :: rest = .char ';' :: ts → False := by
      obtain ⟨t, ts, eq, starts⟩ := terminals_head expr
      rw [eq]
      rintro ts' same
      rw [(List.cons.inj same).1] at starts
      cases starts
    rw [StmtSyn.terminals, List.cons_append, List.cons_append, List.append_assoc,
      List.singleton_append, readStmt]
    · rw [found]
      rfl
    · exact notEnd
  | .returnVoid line, _ =>
    obtain ⟨m, rfl⟩ : ∃ m, n = m + 1 := ⟨n - 1, by omega⟩
    rfl
  | .empty, _ =>
    obtain ⟨m, rfl⟩ : ∃ m, n = m + 1 := ⟨n - 1, by omega⟩
    rfl
  | .block block, inner => exact readStmt_block (block_read block inner) rest enough
theorem block_read (b : BlockSyn) (respects : b.Respects) : BlockRead b := by
  match b, respects with
  | .mk line decls statements, ⟨d, s⟩ =>
    intro n rest enough
    simp only [BlockSyn.terminals, List.length_append, List.length_cons] at enough
    obtain ⟨m, rfl⟩ : ∃ m, n = m + 1 := ⟨n - 1, by omega⟩
    have later := stmts_read statements s m rest (by omega)
    have length : decls.length ≤ (decls.map VarDeclSyn.terminals).flatten.length := by
      rw [← List.length_map VarDeclSyn.terminals]
      refine length_le_flatten fun ts mem => ?_
      obtain ⟨decl, -, rfl⟩ := List.mem_map.mp mem
      exact List.cons_ne_nil _ _
    rw [BlockSyn.terminals]
    simp only [List.cons_append, List.append_assoc, List.nil_append]
    rw [readBlock, readVarDecls_terminals d fun t mem => (stmts_head statements rest t mem).1]
    · simp only [Option.bind_eq_bind, Option.bind_some, later]
      rfl
    · rw [List.length_append]
      omega
theorem stmts_read (ss : StmtListSyn) (respects : ss.Respects) : StmtsRead ss := by
  match ss, respects with
  | .nil, _ =>
    intro n rest enough
    obtain ⟨m, rfl⟩ : ∃ m, n = m + 1 := ⟨n - 1, by omega⟩
    rfl
  | .cons statement more, ⟨s, r⟩ =>
    intro n rest enough
    obtain ⟨t, ts, eq, -, notEnd, -⟩ := stmt_head statement
    have pos : 0 < statement.terminals.length := by
      rw [eq]
      exact Nat.succ_pos _
    rw [StmtListSyn.terminals, List.length_append] at enough
    obtain ⟨m, rfl⟩ : ∃ m, n = m + 1 := ⟨n - 1, by omega⟩
    have noElse : (more.terminals ++ .char '}' :: rest).head? ≠ some .kwElse := fun same =>
      (stmts_head more rest _ same).2 rfl
    have first := stmt_read statement s m _ (by omega) noElse
    have later := stmts_read more r m rest (by omega)
    rw [StmtListSyn.terminals, List.append_assoc, readStmts.eq_3]
    · simp only [Option.bind_eq_bind, Option.bind_some, first, later]
      rfl
    · intro ts' same
      rw [eq] at same
      exact notEnd (List.cons.inj same).1
end

theorem readArg_terminals (arg : ArgSyn) (rest : List Token) :
    readArg (arg.terminals ++ rest) = some (arg.unlined, rest) := by
  rw [ArgSyn.terminals, List.cons_append, List.singleton_append, readArg, typeOf_terminal]
  rfl

theorem readCommaParams_terminals (args : List ArgSyn) (rest : List Token) {n : Nat}
    (enough : args.length + 1 ≤ n) :
    readCommaParams n (commaArgTerminals args ++ .char ')' :: rest) =
      some (args.map ArgSyn.unlined, rest) := by
  induction args generalizing n with
  | nil =>
    obtain ⟨m, rfl⟩ : ∃ m, n = m + 1 := ⟨n - 1, by omega⟩
    rfl
  | cons arg args ih =>
    rw [List.length_cons] at enough
    obtain ⟨m, rfl⟩ : ∃ m, n = m + 1 := ⟨n - 1, by omega⟩
    have later := ih (n := m) (by omega)
    rw [commaArgTerminals] at later ⊢
    rw [List.map_cons, List.flatten_cons, List.append_assoc, List.cons_append, readCommaParams,
      readArg_terminals]
    simp only [Option.bind_eq_bind, Option.bind_some, later]
    rfl

theorem readParams_terminals (args : List ArgSyn) (rest : List Token) :
    readParams (argTerminals args ++ .char ')' :: rest) = some (args.map ArgSyn.unlined, rest) := by
  cases args with
  | nil => rfl
  | cons arg args =>
    have length : args.length ≤ (commaArgTerminals args).length := by
      rw [← List.length_map fun arg : ArgSyn => Token.char ',' :: arg.terminals]
      refine length_le_flatten fun ts mem => ?_
      obtain ⟨arg, -, rfl⟩ := List.mem_map.mp mem
      exact List.cons_ne_nil _ _
    have later := readCommaParams_terminals args rest
      (n := (commaArgTerminals args ++ .char ')' :: rest).length + 1) (by
        rw [List.length_append]
        omega)
    rw [argTerminals, List.append_assoc, readParams.eq_2]
    · rw [readArg_terminals]
      simp only [Option.bind_eq_bind, Option.bind_some, later]
      rfl
    · intro ts same
      have head : arg.type.terminal = .char ')' := (List.cons.inj same).1
      cases h : arg.type <;> rw [h] at head <;> cases head

theorem readBody_terminals {body : Option BlockSyn} (respects : ∀ block ∈ body, block.Respects)
    (rest : List Token) :
    readBody (bodyTerminals body ++ rest) = some (body.map BlockSyn.unlined, rest) := by
  cases body with
  | none => rfl
  | some block =>
    have found := block_read block (respects block rfl)
      (2 * (block.terminals ++ rest).length) rest (by
        rw [List.length_append]
        omega)
    rw [bodyTerminals, readBody.eq_2, found]
    · rfl
    · obtain ⟨line, decls, statements⟩ := block
      exact fun ts same => nomatch (List.cons.inj same).1

theorem readMethod_terminals {decl : MethodDeclSyn}
    (respects : ∀ block ∈ decl.body, block.Respects) (rest : List Token) :
    readMethod decl.type decl.name
      (argTerminals decl.methodArgs ++ .char ')' :: (bodyTerminals decl.body ++ rest)) =
      some (.methodDecl decl.unlined, rest) := by
  rw [readMethod, readParams_terminals]
  simp only [Option.bind_eq_bind, Option.bind_some, readBody_terminals respects]
  rfl

theorem readDecl_terminals {decl : DeclSyn} (respects : decl.Respects) (rest : List Token) :
    readDecl (decl.terminals ++ rest) = some (decl.unlined, rest) := by
  cases decl with
  | varDecl decl =>
    obtain ⟨line, type, name, init⟩ := decl
    have found := readInit_terminals respects rest
    rw [DeclSyn.terminals, VarDeclSyn.terminals, List.cons_append, List.cons_append]
    have noCall : ∀ ts, initTerminals init ++ rest = .char '(' :: ts → False := by
      cases init <;> exact fun ts same => nomatch (List.cons.inj same).1
    rw [readDecl.eq_2, typeOf_terminal]
    · simp only [Option.bind_eq_bind, Option.bind_some]
      rw [found]
      rfl
    · intro ts same
      cases type <;> cases same
  | methodDecl decl =>
    have found := readMethod_terminals respects rest
    rw [DeclSyn.terminals, MethodDeclSyn.terminals]
    simp only [List.cons_append, List.append_assoc]
    cases type : decl.type with
    | none =>
      rw [type] at found
      exact found
    | some type' =>
      rw [type] at found
      cases type' <;> exact found

theorem decl_head (decl : DeclSyn) : ∃ t ts, decl.terminals = t :: ts ∧ t ≠ .char '}' := by
  cases decl with
  | varDecl decl =>
    refine ⟨_, _, rfl, ?_⟩
    cases decl.type <;> exact nofun
  | methodDecl decl =>
    refine ⟨returnTerminal decl.type, _, rfl, ?_⟩
    cases decl.type with
    | none => exact nofun
    | some type => cases type <;> exact nofun

theorem readDecls_terminals {prog : ProgramSyn} (respects : ∀ decl ∈ prog, decl.Respects)
    (rest : List Token) {n : Nat} (enough : prog.length + 1 ≤ n) :
    readDecls n ((prog.map DeclSyn.terminals).flatten ++ .char '}' :: rest) =
      some (prog.map DeclSyn.unlined, rest) := by
  induction prog generalizing n with
  | nil =>
    obtain ⟨m, rfl⟩ : ∃ m, n = m + 1 := ⟨n - 1, by omega⟩
    rfl
  | cons decl prog ih =>
    rw [List.forall_mem_cons] at respects
    rw [List.length_cons] at enough
    obtain ⟨m, rfl⟩ : ∃ m, n = m + 1 := ⟨n - 1, by omega⟩
    have later := ih respects.2 (n := m) (by omega)
    obtain ⟨t, ts, eq, notEnd⟩ := decl_head decl
    rw [List.map_cons, List.flatten_cons, List.append_assoc, readDecls.eq_3,
      readDecl_terminals respects.1]
    · simp only [Option.bind_eq_bind, Option.bind_some, later]
      rfl
    · intro ts' same
      rw [eq] at same
      exact notEnd (List.cons.inj same).1

theorem readProgram_terminals {prog : ProgramSyn} (respects : ∀ decl ∈ prog, decl.Respects) :
    readProgram (programTerminals prog) = some (prog.map DeclSyn.unlined) := by
  have length : prog.length ≤ (prog.map DeclSyn.terminals).flatten.length := by
    rw [← List.length_map DeclSyn.terminals]
    refine length_le_flatten fun ts mem => ?_
    obtain ⟨decl, -, rfl⟩ := List.mem_map.mp mem
    obtain ⟨t, ts, eq, -⟩ := decl_head decl
    rw [eq]
    exact List.cons_ne_nil t ts
  rw [programTerminals, List.cons_append, List.cons_append, readProgram,
    readDecls_terminals respects []]
  · rfl
  · rw [List.length_append]
    omega

theorem readInit_found {ts rest : List Token} {init : Option ExprSyn}
    (h : readInit ts = some (init, rest)) :
    ts = initTerminals init ++ rest ∧ (∀ expr ∈ init, expr.Respects) ∧
      init.map ExprSyn.unlined = init := by
  rw [readInit.eq_def] at h
  split at h
  · cases h
    exact ⟨rfl, nofun, rfl⟩
  · obtain ⟨⟨e, ts'⟩, read, h⟩ := Option.bind_eq_some_iff.mp h
    obtain ⟨ts'', closing, same⟩ := Option.bind_eq_some_iff.mp h
    cases same
    obtain ⟨rfl, respects, unlined⟩ := expression_found read
    obtain rfl := expect_eq_some closing
    refine ⟨by simp [initTerminals], fun expr mem => ?_, by rw [Option.map_some, unlined]⟩
    obtain rfl := Option.some.inj mem
    exact respects
  · cases h

/-- A derivation as the reader builds them. -/
def VarDeclSyn.Canonical (decl : VarDeclSyn) : Prop := decl.Respects ∧ decl.unlined = decl

theorem varDecl_canonical {type : TypeSyn} {name : Ident} {init : Option ExprSyn}
    (respects : ∀ expr ∈ init, expr.Respects) (unlined : init.map ExprSyn.unlined = init) :
    VarDeclSyn.Canonical ⟨0, type, name, init⟩ :=
  ⟨respects, congrArg (VarDeclSyn.mk 0 type name) unlined⟩

theorem readVarDecls_found {n : Nat} {ts rest : List Token} {decls : List VarDeclSyn}
    (h : readVarDecls n ts = some (decls, rest)) :
    ts = (decls.map VarDeclSyn.terminals).flatten ++ rest ∧ ∀ decl ∈ decls, decl.Canonical := by
  induction n generalizing ts decls with
  | zero => cases h
  | succ n ih =>
    cases ts with
    | nil =>
      cases h
      exact ⟨rfl, nofun⟩
    | cons t ts =>
      rw [readVarDecls.eq_def] at h
      dsimp only at h
      split at h
      · next type name ts' typed =>
        obtain ⟨⟨init, ts'⟩, first, h⟩ := Option.bind_eq_some_iff.mp h
        obtain ⟨⟨more, ts''⟩, later, same⟩ := Option.bind_eq_some_iff.mp h
        cases same
        obtain ⟨rfl, respects, unlined⟩ := readInit_found first
        obtain ⟨rfl, others⟩ := ih later
        refine ⟨?_, List.forall_mem_cons.mpr ⟨varDecl_canonical respects unlined, others⟩⟩
        rw [terminal_of_typeOf typed]
        simp [VarDeclSyn.terminals]
      · cases h
      · cases h
        exact ⟨rfl, nofun⟩

theorem map_unlined {α : Type} {unlined : α → α} {items : List α}
    (all : ∀ item ∈ items, unlined item = item) : items.map unlined = items :=
  (List.map_congr_left all).trans (List.map_id _)

def StmtSyn.Canonical (s : StmtSyn) : Prop := s.Respects ∧ s.unlined = s

def BlockSyn.Canonical (b : BlockSyn) : Prop := b.Respects ∧ b.unlined = b

def StmtListSyn.Canonical (ss : StmtListSyn) : Prop := ss.Respects ∧ ss.unlined = ss

/-- What the readers of statements find, with at most `n` steps. -/
structure StmtsFound (n : Nat) : Prop where
  stmt : ∀ {ts s rest}, readStmt n ts = some (s, rest) → ts = s.terminals ++ rest ∧ s.Canonical
  block : ∀ {ts b rest}, readBlock n ts = some (b, rest) → ts = b.terminals ++ rest ∧ b.Canonical
  stmts : ∀ {ts ss rest}, readStmts n ts = some (ss, rest) →
    ts = ss.terminals ++ .char '}' :: rest ∧ ss.Canonical

theorem stmt_found {n : Nat} (ih : StmtsFound n) {ts rest : List Token} {s : StmtSyn}
    (h : readStmt (n + 1) ts = some (s, rest)) : ts = s.terminals ++ rest ∧ s.Canonical := by
  rw [readStmt.eq_def] at h
  dsimp only at h
  split at h
  · next eq => cases eq
  · obtain ⟨⟨e, ts'⟩, read, h⟩ := Option.bind_eq_some_iff.mp h
    obtain ⟨ts'', closing, same⟩ := Option.bind_eq_some_iff.mp h
    cases same
    obtain ⟨rfl, respects, unlined⟩ := expression_found read
    obtain rfl := expect_eq_some closing
    exact ⟨by simp [StmtSyn.terminals], respects, by rw [StmtSyn.unlined, unlined]⟩
  · obtain ⟨⟨args, ts'⟩, read, h⟩ := Option.bind_eq_some_iff.mp h
    obtain ⟨ts'', closing, same⟩ := Option.bind_eq_some_iff.mp h
    cases same
    obtain ⟨rfl, respects, unlined⟩ := callArguments_found read
    obtain rfl := expect_eq_some closing
    exact ⟨by simp [StmtSyn.terminals], respects, by rw [StmtSyn.unlined, unlined]⟩
  · next eq =>
    obtain rfl := Nat.succ.inj eq
    obtain ⟨⟨cond, ts'⟩, read, h⟩ := Option.bind_eq_some_iff.mp h
    obtain ⟨ts'', closing, h⟩ := Option.bind_eq_some_iff.mp h
    obtain ⟨behind, word, h⟩ := Option.bind_eq_some_iff.mp h
    obtain ⟨⟨thenBlock, after⟩, body, last⟩ := Option.bind_eq_some_iff.mp h
    obtain ⟨rfl, respects, unlined⟩ := expression_found read
    obtain rfl := expect_eq_some closing
    obtain rfl := expect_eq_some word
    obtain ⟨rfl, inThen, unlinedThen⟩ := ih.block body
    dsimp only at last
    split at last
    · obtain ⟨⟨elseBlock, after'⟩, body', same⟩ := Option.bind_eq_some_iff.mp last
      cases same
      obtain ⟨rfl, inElse, unlinedElse⟩ := ih.block body'
      exact ⟨by simp [StmtSyn.terminals], ⟨respects, inThen, inElse⟩,
        by rw [StmtSyn.unlined, unlined, unlinedThen, unlinedElse]⟩
    · cases last
      exact ⟨by simp [StmtSyn.terminals], ⟨respects, inThen⟩,
        by rw [StmtSyn.unlined, unlined, unlinedThen]⟩
  · next eq =>
    obtain rfl := Nat.succ.inj eq
    obtain ⟨⟨cond, ts'⟩, read, h⟩ := Option.bind_eq_some_iff.mp h
    obtain ⟨ts'', closing, h⟩ := Option.bind_eq_some_iff.mp h
    obtain ⟨⟨block, after⟩, body, same⟩ := Option.bind_eq_some_iff.mp h
    cases same
    obtain ⟨rfl, respects, unlined⟩ := expression_found read
    obtain rfl := expect_eq_some closing
    obtain ⟨rfl, inBody, unlinedBody⟩ := ih.block body
    exact ⟨by simp [StmtSyn.terminals], ⟨respects, inBody⟩,
      by rw [StmtSyn.unlined, unlined, unlinedBody]⟩
  · cases h
    exact ⟨rfl, trivial, rfl⟩
  · obtain ⟨⟨e, ts'⟩, read, h⟩ := Option.bind_eq_some_iff.mp h
    obtain ⟨ts'', closing, same⟩ := Option.bind_eq_some_iff.mp h
    cases same
    obtain ⟨rfl, respects, unlined⟩ := expression_found read
    obtain rfl := expect_eq_some closing
    exact ⟨by simp [StmtSyn.terminals], respects, by rw [StmtSyn.unlined, unlined]⟩
  · cases h
    exact ⟨rfl, trivial, rfl⟩
  · next eq =>
    obtain rfl := Nat.succ.inj eq
    obtain ⟨⟨block, after⟩, body, same⟩ := Option.bind_eq_some_iff.mp h
    cases same
    obtain ⟨text, respects, unlined⟩ := ih.block body
    exact ⟨text, respects, by rw [StmtSyn.unlined, unlined]⟩
  · cases h

theorem stmts_found (n : Nat) : StmtsFound n := by
  induction n with
  | zero => refine ⟨?_, ?_, ?_⟩ <;> (intro ts found rest h; cases h)
  | succ n ih =>
    refine ⟨stmt_found ih, ?_, ?_⟩
    · intro ts b rest h
      rw [readBlock.eq_def] at h
      dsimp only at h
      split at h
      · next eq =>
        obtain rfl := Nat.succ.inj eq
        obtain ⟨⟨decls, ts'⟩, first, h⟩ := Option.bind_eq_some_iff.mp h
        obtain ⟨⟨statements, ts''⟩, later, same⟩ := Option.bind_eq_some_iff.mp h
        cases same
        obtain ⟨rfl, canonical⟩ := readVarDecls_found first
        obtain ⟨rfl, respects, unlined⟩ := ih.stmts later
        refine ⟨by simp [BlockSyn.terminals],
          ⟨fun decl mem => (canonical decl mem).1, respects⟩, ?_⟩
        rw [BlockSyn.unlined, unlined, map_unlined fun decl mem => (canonical decl mem).2]
      · cases h
    · intro ts ss rest h
      rw [readStmts.eq_def] at h
      dsimp only at h
      split at h
      · next eq => cases eq
      · cases h
        exact ⟨rfl, trivial, rfl⟩
      · next eq _ =>
        obtain rfl := Nat.succ.inj eq
        obtain ⟨⟨s, ts'⟩, first, h⟩ := Option.bind_eq_some_iff.mp h
        obtain ⟨⟨more, ts''⟩, later, same⟩ := Option.bind_eq_some_iff.mp h
        cases same
        obtain ⟨rfl, respects, unlined⟩ := ih.stmt first
        obtain ⟨rfl, others, unlined'⟩ := ih.stmts later
        exact ⟨by simp [StmtListSyn.terminals], ⟨respects, others⟩,
          by rw [StmtListSyn.unlined, unlined, unlined']⟩

theorem readArg_found {ts rest : List Token} {arg : ArgSyn} (h : readArg ts = some (arg, rest)) :
    ts = arg.terminals ++ rest ∧ arg.unlined = arg := by
  rw [readArg.eq_def] at h
  split at h
  · obtain ⟨type, typed, same⟩ := Option.map_eq_some_iff.mp h
    cases same
    rw [terminal_of_typeOf typed]
    exact ⟨rfl, rfl⟩
  · cases h

theorem readCommaParams_found {n : Nat} {ts rest : List Token} {args : List ArgSyn}
    (h : readCommaParams n ts = some (args, rest)) :
    ts = commaArgTerminals args ++ .char ')' :: rest ∧ ∀ arg ∈ args, arg.unlined = arg := by
  induction n generalizing ts args with
  | zero => cases h
  | succ n ih =>
    rw [readCommaParams.eq_def] at h
    dsimp only at h
    split at h
    · next eq =>
      obtain rfl := Nat.succ.inj eq
      obtain ⟨⟨arg, ts'⟩, first, h⟩ := Option.bind_eq_some_iff.mp h
      obtain ⟨⟨more, ts''⟩, later, same⟩ := Option.bind_eq_some_iff.mp h
      cases same
      obtain ⟨rfl, unlined⟩ := readArg_found first
      obtain ⟨rfl, others⟩ := ih later
      exact ⟨by simp [commaArgTerminals], List.forall_mem_cons.mpr ⟨unlined, others⟩⟩
    · cases h
      exact ⟨rfl, nofun⟩
    · cases h

theorem readParams_found {ts rest : List Token} {args : List ArgSyn}
    (h : readParams ts = some (args, rest)) :
    ts = argTerminals args ++ .char ')' :: rest ∧ args.map ArgSyn.unlined = args := by
  rw [readParams.eq_def] at h
  split at h
  · cases h
    exact ⟨rfl, rfl⟩
  · obtain ⟨⟨arg, ts'⟩, first, h⟩ := Option.bind_eq_some_iff.mp h
    obtain ⟨⟨more, ts''⟩, later, same⟩ := Option.bind_eq_some_iff.mp h
    cases same
    obtain ⟨rfl, unlined⟩ := readArg_found first
    obtain ⟨rfl, others⟩ := readCommaParams_found later
    exact ⟨by simp [argTerminals], map_unlined (List.forall_mem_cons.mpr ⟨unlined, others⟩)⟩

theorem readBody_found {ts rest : List Token} {body : Option BlockSyn}
    (h : readBody ts = some (body, rest)) :
    ts = bodyTerminals body ++ rest ∧ (∀ block ∈ body, block.Respects) ∧
      body.map BlockSyn.unlined = body := by
  rw [readBody.eq_def] at h
  split at h
  · obtain ⟨ts', closing, same⟩ := Option.bind_eq_some_iff.mp h
    cases same
    obtain rfl := expect_eq_some closing
    exact ⟨rfl, nofun, rfl⟩
  · obtain ⟨⟨block, ts'⟩, read, same⟩ := Option.bind_eq_some_iff.mp h
    cases same
    obtain ⟨rfl, respects, unlined⟩ := (stmts_found _).block read
    refine ⟨rfl, fun block mem => ?_, by rw [Option.map_some, unlined]⟩
    obtain rfl := Option.some.inj mem
    exact respects

theorem readMethod_found {type : Option TypeSyn} {name : Ident} {ts rest : List Token}
    {decl : DeclSyn} (h : readMethod type name ts = some (decl, rest)) :
    returnTerminal type :: .id name :: .char '(' :: ts = decl.terminals ++ rest ∧
      decl.Respects ∧ decl.unlined = decl := by
  obtain ⟨⟨args, ts'⟩, first, h⟩ := Option.bind_eq_some_iff.mp h
  obtain ⟨⟨body, ts''⟩, later, same⟩ := Option.bind_eq_some_iff.mp h
  cases same
  obtain ⟨rfl, unlined⟩ := readParams_found first
  obtain ⟨rfl, respects, unlined'⟩ := readBody_found later
  refine ⟨by simp [DeclSyn.terminals, MethodDeclSyn.terminals], respects, ?_⟩
  rw [DeclSyn.unlined, MethodDeclSyn.unlined, unlined, unlined']

theorem readDecl_found {ts rest : List Token} {decl : DeclSyn}
    (h : readDecl ts = some (decl, rest)) :
    ts = decl.terminals ++ rest ∧ decl.Respects ∧ decl.unlined = decl := by
  rw [readDecl.eq_def] at h
  split at h
  · exact readMethod_found h
  · obtain ⟨type, typed, h⟩ := Option.bind_eq_some_iff.mp h
    rw [terminal_of_typeOf typed]
    split at h
    · exact readMethod_found h
    · obtain ⟨⟨init, ts'⟩, read, same⟩ := Option.bind_eq_some_iff.mp h
      cases same
      obtain ⟨rfl, respects, unlined⟩ := readInit_found read
      refine ⟨rfl, respects, ?_⟩
      rw [DeclSyn.unlined, VarDeclSyn.unlined, unlined]
  · cases h

theorem readDecls_found {n : Nat} {ts rest : List Token} {prog : ProgramSyn}
    (h : readDecls n ts = some (prog, rest)) :
    ts = (prog.map DeclSyn.terminals).flatten ++ .char '}' :: rest ∧
      ∀ decl ∈ prog, decl.Respects ∧ decl.unlined = decl := by
  induction n generalizing ts prog with
  | zero => cases h
  | succ n ih =>
    rw [readDecls.eq_def] at h
    dsimp only at h
    split at h
    · next eq => cases eq
    · cases h
      exact ⟨rfl, nofun⟩
    · next eq _ =>
      obtain rfl := Nat.succ.inj eq
      obtain ⟨⟨decl, ts'⟩, first, h⟩ := Option.bind_eq_some_iff.mp h
      obtain ⟨⟨more, ts''⟩, later, same⟩ := Option.bind_eq_some_iff.mp h
      cases same
      obtain ⟨rfl, here⟩ := readDecl_found first
      obtain ⟨rfl, others⟩ := ih later
      exact ⟨by simp, List.forall_mem_cons.mpr ⟨here, others⟩⟩

theorem readProgram_found {ts : List Token} {prog : ProgramSyn} (h : readProgram ts = some prog) :
    ts = programTerminals prog ∧ ∀ decl ∈ prog, decl.Respects ∧ decl.unlined = decl := by
  rw [readProgram.eq_def] at h
  split at h
  · obtain ⟨⟨prog', ts'⟩, read, same⟩ := Option.bind_eq_some_iff.mp h
    obtain ⟨rfl, all⟩ := readDecls_found read
    dsimp only at same
    split at same
    · next empty =>
      cases same
      rw [empty]
      exact ⟨rfl, all⟩
    · cases same
  · cases h

/-- The tokens have a derivation that the precedence declarations leave if and only if the reader
finds one, and then all these derivations are the one it finds, lines apart. -/
theorem readProgram_iff (ts : List Token) (found : ProgramSyn) :
    readProgram ts = some found ↔ ∃ prog : ProgramSyn, (∀ decl ∈ prog, decl.Respects) ∧
      programTerminals prog = ts ∧ prog.map DeclSyn.unlined = found := by
  constructor
  · intro h
    obtain ⟨rfl, all⟩ := readProgram_found h
    exact ⟨found, fun decl mem => (all decl mem).1, rfl,
      map_unlined fun decl mem => (all decl mem).2⟩
  · rintro ⟨prog, respects, rfl, rfl⟩
    exact readProgram_terminals respects

end Ctds
