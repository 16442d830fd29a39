import Ctds.Simulation

/-! Typed runs. A typed run is a run; and where no name belongs to a bool variable and to
one of another type, every run from truth values in the bool variables is typed. -/

namespace Ctds

open Word

/-- The second computation has every result of the first. -/
def Refined {α : Type} (x y : Option α) : Prop := ∀ a, x = some a → y = some a

namespace Refined

variable {α β : Type} {x y : Option α}

theorem refl (x : Option α) : Refined x x := fun _ h => h

theorem bind {f g : α → Option β} (h : Refined x y) (next : ∀ a, Refined (f a) (g a)) :
    Refined (x.bind f) (y.bind g) := by
  intro b ran
  obtain ⟨a, first, second⟩ := Option.bind_eq_some_iff.mp ran
  rw [h a first]
  exact next a b second

theorem map (h : Refined x y) (f : α → β) : Refined (x.map f) (y.map f) := by
  intro b ran
  obtain ⟨a, first, rfl⟩ := Option.map_eq_some_iff.mp ran
  rw [h a first, Option.map_some]

end Refined

theorem leafValue_refined (tab : SymbolTable) (store : Store) (value : LeafValue) :
    Refined (leafValue tab true store value) (leafValue tab false store value) := by
  cases value with
  | id p =>
    intro v ran
    simp only [leafValue, readVariable] at ran ⊢
    split at ran
    · cases ran
    · split at ran
      · cases ran
      · simpa using ran
  | _ => exact .refl _

mutual
theorem exprValue_refined (tab : SymbolTable) (oracle : Oracle) (store : Store) :
    ∀ (node : AstNode) (events : List Event),
      Refined (exprValue tab true oracle store node events)
        (exprValue tab false oracle store node events)
  | .leaf _ value, events => by
    simp only [exprValue]
    exact (leafValue_refined tab store value).map _
  | .common _ .binary op left right, events => by
    simp only [exprValue, Option.bind_eq_bind]
    exact (exprValue_refined tab oracle store left events).bind fun _ =>
      (exprValue_refined tab oracle store right _).bind fun _ => .refl _
  | .common _ .unary op left _, events => by
    simp only [exprValue, Option.bind_eq_bind]
    exact (exprValue_refined tab oracle store left events).bind fun _ => .refl _
  | .methodCall _ name _ args, events => by
    simp only [exprValue, Option.bind_eq_bind]
    exact (argValues_refined tab oracle store args events).bind fun _ => .refl _
  | .null, _ | .ifStmt .., _ | .whileStmt .., _ | .methodDecl .., _ | .block .., _ => by
    simp only [exprValue]
    exact .refl _
theorem argValues_refined (tab : SymbolTable) (oracle : Oracle) (store : Store) :
    ∀ (args : AstNodeList) (events : List Event),
      Refined (argValues tab true oracle store args events)
        (argValues tab false oracle store args events)
  | .nil, _ => .refl _
  | .cons first next, events => by
    simp only [argValues, Option.bind_eq_bind]
    exact (exprValue_refined tab oracle store first events).bind fun _ =>
      (argValues_refined tab oracle store next _).bind fun _ => .refl _
end

theorem evaluate_refined (tab : SymbolTable) (oracle : Oracle) (node : AstNode) (s : SourceState) :
    Refined (evaluate tab true oracle node s) (evaluate tab false oracle node s) :=
  (exprValue_refined tab oracle s.store node s.events).map _

theorem runLoop_refined {condition condition' : SourceState → Option (Word × SourceState)}
    {body body' : Runner} (tests : ∀ s, Refined (condition s) (condition' s))
    (rounds : ∀ s, Refined (body s) (body' s)) (fuel : Nat) (s : SourceState) :
    Refined (runLoop condition body fuel s) (runLoop condition' body' fuel s) := by
  induction fuel generalizing s with
  | zero =>
    simp only [runLoop, Option.bind_eq_bind]
    exact (tests s).bind fun _ => .refl _
  | succ fuel ih =>
    simp only [runLoop, Option.bind_eq_bind]
    refine (tests s).bind fun r => ?_
    obtain ⟨v, s₁⟩ := r
    dsimp only
    by_cases zero : v = 0
    · rw [if_pos zero, if_pos zero]
      exact .refl _
    · rw [if_neg zero, if_neg zero]
      refine (rounds s₁).bind fun r => ?_
      obtain ⟨s₂, completion⟩ := r
      cases completion with
      | normal => exact ih s₂
      | returned value => exact .refl _

mutual
theorem runStmt_refined (tab : SymbolTable) (oracle : Oracle) (fuel : Nat) :
    ∀ (node : AstNode) (s : SourceState),
      Refined (runStmt tab true oracle fuel node s) (runStmt tab false oracle fuel node s)
  | .null, _ => .refl _
  | .common line arity op left right, s => by
    cases op with
    | decl =>
      simp only [runStmt, Option.bind_eq_bind]
      split
      · exact .refl _
      · exact (evaluate_refined tab oracle right s).bind fun _ => .refl _
    | assign =>
      simp only [runStmt, Option.bind_eq_bind]
      exact (evaluate_refined tab oracle right s).bind fun _ => .refl _
    | ret =>
      simp only [runStmt, Option.bind_eq_bind]
      split
      · exact .refl _
      · exact (evaluate_refined tab oracle left s).bind fun _ => .refl _
    | _ => exact .refl _
  | .ifStmt line condition thenBlock elseBlock, s => by
    simp only [runStmt, Option.bind_eq_bind]
    refine (evaluate_refined tab oracle condition s).bind fun (v, s₁) => ?_
    dsimp only
    split
    · exact runStmt_refined tab oracle fuel elseBlock s₁
    · exact runStmt_refined tab oracle fuel thenBlock s₁
  | .whileStmt line condition block, s => by
    simp only [runStmt]
    exact runLoop_refined (evaluate_refined tab oracle condition)
      (runStmt_refined tab oracle fuel block) fuel s
  | .methodCall line name numArgs args, s => by
    simp only [runStmt, Option.bind_eq_bind]
    exact (evaluate_refined tab oracle _ s).bind fun _ => .refl _
  | .block line stmts, s => by
    simp only [runStmt]
    exact runStmts_refined tab oracle fuel stmts s
  | .methodDecl .., _ | .leaf .., _ => .refl _
theorem runStmts_refined (tab : SymbolTable) (oracle : Oracle) (fuel : Nat) :
    ∀ (stmts : AstNodeList) (s : SourceState),
      Refined (runStmts tab true oracle fuel stmts s) (runStmts tab false oracle fuel stmts s)
  | .nil, _ => .refl _
  | .cons first next, s => by
    simp only [runStmts, Option.bind_eq_bind]
    refine (runStmt_refined tab oracle fuel first s).bind fun (s₁, completion) => ?_
    cases completion with
    | normal => exact runStmts_refined tab oracle fuel next s₁
    | returned value => exact .refl _
end

/-- No name belongs to a bool variable and to a variable of another type. -/
def NamesUniform (tab : SymbolTable) (ids : List IdPtr) : Prop :=
  ∀ p ∈ ids, ∀ q ∈ ids, ∀ info info', tab.entry p = some info → tab.entry q = some info' →
    info.name = info'.name → info.idType = Ty.bool.code → info'.idType = Ty.bool.code

def BoolsHold (tab : SymbolTable) (ids : List IdPtr) (store : Store) : Prop :=
  ∀ p ∈ ids, ∀ info, tab.entry p = some info → info.idType = Ty.bool.code →
    IsBit (store info.name.text)

/-- Every callee but those that return an int answers with 0 or 1. -/
def AnswersBits (tab : SymbolTable) (oracle : Oracle) : Prop :=
  ∀ line name numArgs method, calledMethod tab line name numArgs = .ok method →
    method.returnType ≠ .int → ∀ events args, IsBit (oracle events name.text args)

theorem BoolsHold.assign {tab : SymbolTable} {ids : List IdPtr} (uniform : NamesUniform tab ids)
    {store : Store} (holds : BoolsHold tab ids store) {p : IdPtr} (mem : p ∈ ids)
    {info : SymbolInfo} (entry : tab.entry p = some info) {v : Word}
    (bit : info.idType = Ty.bool.code → IsBit v) :
    BoolsHold tab ids (Function.update store info.name.text v) := by
  intro q other info' entry' isBool
  by_cases same : info'.name = info.name
  · rw [same, Function.update_self]
    exact bit (uniform q other p mem info' info entry' entry same isBool)
  · rw [Function.update_of_ne fun texts => same (Ident.ext_text texts)]
    exact holds q other info' entry' isBool

theorem symbolType_bool {info : SymbolInfo} (isBool : info.idType = Ty.bool.code) :
    symbolType info = some .bool := by
  simp only [symbolType, isBool]
  rfl

theorem symbolType_ne_int {info : SymbolInfo} {type : RetType} (typed : symbolType info = some type)
    (notInt : type ≠ .int) : info.idType = Ty.bool.code := by
  unfold symbolType at typed
  split at typed
  · exact absurd (Option.some.inj typed).symm notInt
  · split at typed
    · assumption
    · cases typed

theorem binaryType_cases {op : Operator} {lt rt type : RetType}
    (typed : binaryType op lt rt = some type) : type = .int ∨ type = .bool := by
  rw [binaryType_result typed]
  cases op <;> simp [resultType]

theorem unaryType_cases {op : Operator} {lt type : RetType} (typed : unaryType op lt = some type) :
    type = .int ∨ type = .bool := by
  cases op with
  | minus =>
    simp only [unaryType, Option.ite_none_right_eq_some, Option.some.injEq] at typed
    exact .inl typed.2.symm
  | neg =>
    simp only [unaryType, Option.ite_none_right_eq_some, Option.some.injEq] at typed
    exact .inr typed.2.symm
  | _ => cases typed

section Uniform

variable {env : Env} {tab : SymbolTable} {oracle : Oracle} {ids : List IdPtr}

mutual
theorem exprValue_typed (methods : tab.MethodsOk) (answers : AnswersBits tab oracle) {store : Store}
    (holds : BoolsHold tab ids store) :
    ∀ (node : AstNode), isExpr tab node = true → ∀ (type : RetType),
      exprType env tab node = some type → (∀ p ∈ leafIds node, p ∈ ids) →
      ∀ (events : List Event) (v : Word) (events' : List Event),
        exprValue tab false oracle store node events = some (v, events') →
        exprValue tab true oracle store node events = some (v, events') ∧
          (type ≠ .int → IsBit v)
  | .leaf line value, shape, type, typed, inside, events, v, events', ran => by
    rw [exprType] at typed
    rw [exprValue] at ran ⊢
    obtain ⟨w, value', eq⟩ := Option.map_eq_some_iff.mp ran
    obtain ⟨rfl, rfl⟩ := Prod.mk.inj eq
    cases value with
    | int n =>
      refine ⟨ran, fun notInt => ?_⟩
      exact absurd (Option.some.inj typed).symm notInt
    | bool n =>
      obtain rfl := Option.some.inj value'
      have bit : n = 0 ∨ n = 1 := by simpa [isExpr] using shape
      refine ⟨ran, fun _ => ?_⟩
      rcases bit with rfl | rfl
      · exact .inl rfl
      · exact .inr rfl
    | id p =>
      obtain ⟨info, entry⟩ := SymbolTable.hasEntry_iff.mp (by simpa [isExpr] using shape)
      have bit := holds p (inside p (by simp [leafIds])) info entry
      simp only [leafType, entry, Option.bind_some] at typed
      simp only [leafValue, readVariable, entry, Bool.false_eq_true, false_and, if_false,
        Option.some.injEq] at value'
      subst value'
      refine ⟨?_, fun notInt => bit (symbolType_ne_int typed notInt)⟩
      simp only [leafValue, readVariable, entry, true_and]
      rw [if_neg fun guard => guard.2 (bit guard.1)]
      rfl
  | .common line .binary op left right, shape, type, typed, inside, events, v, events', ran => by
    simp only [isExpr, Bool.and_eq_true] at shape
    simp only [leafIds, List.mem_append] at inside
    simp only [exprType] at typed
    simp only [exprValue, Option.bind_eq_bind, Option.bind_eq_some_iff] at ran ⊢
    obtain ⟨⟨l, events₁⟩, ranLeft, ⟨r, events₂⟩, ranRight, w, value, eq⟩ := ran
    split at typed
    · next lt rt leftTyped rightTyped =>
      rw [Option.ite_none_left_eq_some] at typed
      obtain ⟨left', -⟩ := exprValue_typed methods answers holds left shape.1.2 lt leftTyped
        (fun p mem => inside p (.inl mem)) events l events₁ ranLeft
      obtain ⟨right', -⟩ := exprValue_typed methods answers holds right shape.2 rt rightTyped
        (fun p mem => inside p (.inr mem)) events₁ r events₂ ranRight
      refine ⟨⟨_, left', _, right', w, value, eq⟩, fun notInt => ?_⟩
      obtain ⟨rfl, -⟩ := Prod.mk.inj (Option.some.inj eq)
      obtain rfl := (binaryType_cases typed.2).resolve_left notInt
      exact binaryValue_isBit typed.2 value
    · cases typed
  | .common line .unary op left right, shape, type, typed, inside, events, v, events', ran => by
    simp only [isExpr, Bool.and_eq_true] at shape
    simp only [leafIds, List.mem_append] at inside
    simp only [exprType, Option.bind_eq_some_iff] at typed
    obtain ⟨lt, leftTyped, typed⟩ := typed
    simp only [exprValue, Option.bind_eq_bind, Option.bind_eq_some_iff] at ran ⊢
    obtain ⟨⟨l, events₁⟩, ranLeft, w, value, eq⟩ := ran
    obtain ⟨left', -⟩ := exprValue_typed methods answers holds left shape.1.2 lt leftTyped
      (fun p mem => inside p (.inl mem)) events l events₁ ranLeft
    refine ⟨⟨_, left', w, value, eq⟩, fun notInt => ?_⟩
    obtain ⟨rfl, -⟩ := Prod.mk.inj (Option.some.inj eq)
    obtain rfl := (unaryType_cases typed).resolve_left notInt
    exact unaryValue_isBit typed value
  | .methodCall line name numArgs args, shape, type, typed, inside, events, v, events', ran => by
    simp only [isExpr, Bool.and_eq_true, decide_eq_true_eq] at shape
    simp only [leafIds] at inside
    rw [exprType] at typed
    simp only [exprValue, Option.bind_eq_bind, Option.bind_eq_some_iff] at ran ⊢
    obtain ⟨⟨vs, events₁⟩, ranArgs, eq⟩ := ran
    cases called : calledMethod tab line name numArgs with
    | error err => simp [called] at typed
    | ok method =>
      simp only [called, Option.ite_none_right_eq_some] at typed
      obtain ⟨sym, -, entry, counted⟩ := calledMethod_entry called
      have count : method.args.length = args.length := by
        rw [← (methods sym method entry).1, counted, shape.1]
      refine ⟨⟨_, argValues_typed methods answers holds args shape.2 method.args
        typed.1 count inside
        events vs events₁ ranArgs, eq⟩, fun notInt => ?_⟩
      obtain ⟨rfl, -⟩ := Prod.mk.inj (Option.some.inj eq)
      refine answers line name numArgs method called (fun returnsInt => notInt ?_) events₁ vs
      simpa [returnsInt, ReturnType.toRetType] using typed.2.symm
  | .null, shape, _, _, _, _, _, _, _ | .ifStmt .., shape, _, _, _, _, _, _, _
  | .whileStmt .., shape, _, _, _, _, _, _, _ | .methodDecl .., shape, _, _, _, _, _, _, _
  | .block .., shape, _, _, _, _, _, _, _ => by simp [isExpr] at shape
theorem argValues_typed (methods : tab.MethodsOk) (answers : AnswersBits tab oracle) {store : Store}
    (holds : BoolsHold tab ids store) :
    ∀ (args : AstNodeList), areExprs tab args = true → ∀ (params : List Args),
      argsAccepted env tab params args = true → params.length = args.length →
      (∀ p ∈ leafIdsList args, p ∈ ids) →
      ∀ (events : List Event) (vs : List Word) (events' : List Event),
        argValues tab false oracle store args events = some (vs, events') →
        argValues tab true oracle store args events = some (vs, events')
  | .nil, _, _, _, _, _, _, _, _, ran => ran
  | .cons first next, shape, params, accepted, count, inside, events, vs, events', ran => by
    simp only [areExprs, Bool.and_eq_true] at shape
    simp only [leafIdsList, List.mem_append] at inside
    simp only [argValues, Option.bind_eq_bind, Option.bind_eq_some_iff] at ran ⊢
    obtain ⟨⟨v, events₁⟩, ranFirst, ⟨rest, events₂⟩, ranNext, eq⟩ := ran
    obtain ⟨type, params', typed, accepted', count'⟩ := argsAccepted_cons accepted count
    obtain ⟨first', -⟩ := exprValue_typed methods answers holds first shape.1 type typed
      (fun p mem => inside p (.inl mem)) events v events₁ ranFirst
    exact ⟨_, first', _, argValues_typed methods answers holds next shape.2 params' accepted' count'
      (fun p mem => inside p (.inr mem)) events₁ rest events₂ ranNext, eq⟩
end

theorem evaluate_typed (methods : tab.MethodsOk) (answers : AnswersBits tab oracle) {node : AstNode}
    (shape : isExpr tab node = true) {type : RetType} (typed : exprType env tab node = some type)
    (inside : ∀ p ∈ leafIds node, p ∈ ids) {s s' : SourceState} {v : Word}
    (holds : BoolsHold tab ids s.store) (ran : evaluate tab false oracle node s = some (v, s')) :
    evaluate tab true oracle node s = some (v, s') ∧ BoolsHold tab ids s'.store ∧
      (type ≠ .int → IsBit v) := by
  obtain ⟨⟨w, events⟩, value, eq⟩ := Option.map_eq_some_iff.mp ran
  obtain ⟨rfl, rfl⟩ := Prod.mk.inj eq
  obtain ⟨value', bit⟩ :=
    exprValue_typed methods answers holds node shape type typed inside s.events
    w events value
  exact ⟨by rw [evaluate, value']; rfl, holds, bit⟩

theorem assign_typed (uniform : NamesUniform tab ids) (methods : tab.MethodsOk)
    (answers : AnswersBits tab oracle) {left right : AstNode} {lt rt : RetType}
    (target : isIdLeaf tab left = true) (shape : isExpr tab right = true)
    (leftTyped : exprType env tab left = some lt) (rightTyped : exprType env tab right = some rt)
    (agree : lt = .bool → rt ≠ .int) (leftInside : ∀ p ∈ leafIds left, p ∈ ids)
    (rightInside : ∀ p ∈ leafIds right, p ∈ ids) {s s' : SourceState} {completion : Completion}
    (holds : BoolsHold tab ids s.store)
    (ran : ((evaluate tab false oracle right s).bind fun (v, s) => assignTo tab left v s) =
      some (s', completion)) :
    ((evaluate tab true oracle right s).bind fun (v, s) => assignTo tab left v s) =
      some (s', completion) ∧ BoolsHold tab ids s'.store := by
  obtain ⟨⟨v, s₁⟩, value, assigned⟩ := Option.bind_eq_some_iff.mp ran
  obtain ⟨line, x, info, rfl, entry⟩ := isIdLeaf_iff.mp target
  obtain ⟨value', holds', bit⟩ :=
    evaluate_typed methods answers shape rightTyped rightInside holds value
  refine ⟨Option.bind_eq_some_iff.mpr ⟨_, value', assigned⟩, ?_⟩
  have symbol : leafSymbol tab (.leaf line (.id x)) = some info := entry
  simp only [assignTo, symbol, Option.some.injEq, Prod.mk.injEq] at assigned
  obtain ⟨rfl, -⟩ := assigned
  refine holds'.assign uniform (leftInside x (by simp [leafIds])) entry fun isBool => bit (agree ?_)
  have same : leafType tab (.id x) = some lt := by rw [← leftTyped, exprType]
  rw [leafType, entry, Option.bind_some, symbolType_bool isBool] at same
  exact (Option.some.inj same).symm

theorem runLoop_typed {condition condition' : SourceState → Option (Word × SourceState)}
    {body body' : Runner}
    (tests : ∀ s v s₁, BoolsHold tab ids s.store → condition s = some (v, s₁) →
      condition' s = some (v, s₁) ∧ BoolsHold tab ids s₁.store)
    (rounds : ∀ s s₁ completion, BoolsHold tab ids s.store → body s = some (s₁, completion) →
      body' s = some (s₁, completion) ∧ BoolsHold tab ids s₁.store)
    (fuel : Nat) {s s' : SourceState} {completion : Completion} (holds : BoolsHold tab ids s.store)
    (ran : runLoop condition body fuel s = some (s', completion)) :
    runLoop condition' body' fuel s = some (s', completion) ∧ BoolsHold tab ids s'.store := by
  induction fuel generalizing s with
  | zero =>
    simp only [runLoop, Option.bind_eq_bind, Option.bind_eq_some_iff] at ran ⊢
    obtain ⟨⟨v, s₁⟩, value, ran⟩ := ran
    obtain ⟨value', holds'⟩ := tests s v s₁ holds value
    refine ⟨⟨_, value', ran⟩, ?_⟩
    simp only [Option.pure_def, Option.ite_none_right_eq_some, Option.some.injEq,
      Prod.mk.injEq] at ran
    exact ran.2.1 ▸ holds'
  | succ fuel ih =>
    simp only [runLoop, Option.bind_eq_bind, Option.bind_eq_some_iff] at ran ⊢
    obtain ⟨⟨v, s₁⟩, value, ran⟩ := ran
    obtain ⟨value', tested⟩ := tests s v s₁ holds value
    by_cases zero : v = 0
    · simp only [if_pos zero] at ran
      refine ⟨⟨_, value', by simp only [if_pos zero, ran]⟩, ?_⟩
      obtain ⟨rfl, -⟩ := Prod.mk.inj (Option.some.inj ran)
      exact tested
    · simp only [if_neg zero, Option.bind_eq_some_iff] at ran
      obtain ⟨⟨s₂, completed⟩, ranBody, ran⟩ := ran
      obtain ⟨ranBody', after⟩ := rounds s₁ s₂ completed tested ranBody
      cases completed with
      | normal =>
        obtain ⟨rest, final⟩ := ih after ran
        refine ⟨⟨_, value', ?_⟩, final⟩
        simp only [if_neg zero, Option.bind_eq_some_iff]
        exact ⟨_, ranBody', rest⟩
      | returned value =>
        refine ⟨⟨_, value', ?_⟩, ?_⟩
        · simp only [if_neg zero, Option.bind_eq_some_iff]
          exact ⟨_, ranBody', ran⟩
        · simp only [Option.pure_def, Option.some.injEq, Prod.mk.injEq] at ran
          exact ran.1 ▸ after

mutual
/-- Where names are uniform, a run from truth values in the bool variables is typed, and
ends with truth values in them. -/
theorem runStmt_typed (off : env.optimizations = false) (uniform : NamesUniform tab ids)
    (methods : tab.MethodsOk) (answers : AnswersBits tab oracle) {methodReturnType : RetType}
    (fuel : Nat) :
    ∀ (node : AstNode), isStmtOrNull tab node = true →
      acceptedOrNull env tab methodReturnType node = true → (∀ p ∈ leafIds node, p ∈ ids) →
      ∀ (s s' : SourceState) (completion : Completion), BoolsHold tab ids s.store →
        runStmt tab false oracle fuel node s = some (s', completion) →
        runStmt tab true oracle fuel node s = some (s', completion) ∧ BoolsHold tab ids s'.store
  | .null, _, _, _, s, s', completion, holds, ran => by
    rw [runStmt] at ran ⊢
    obtain ⟨rfl, -⟩ := Prod.mk.inj (Option.some.inj ran)
    exact ⟨ran, holds⟩
  | .common line arity op left right, shape, accepted, inside, s, s', completion, holds, ran => by
    simp only [isStmtOrNull, AstNode.isNull, Bool.false_or] at shape
    simp only [acceptedOrNull, AstNode.isNull, Bool.false_or] at accepted
    simp only [leafIds, List.mem_append] at inside
    have leftInside : ∀ p ∈ leafIds left, p ∈ ids := fun p mem => inside p (.inl mem)
    have rightInside : ∀ p ∈ leafIds right, p ∈ ids := fun p mem => inside p (.inr mem)
    cases op with
    | decl =>
      simp only [isStmt, Bool.and_eq_true] at shape
      simp only [stmtAccepted] at accepted
      simp only [runStmt] at ran ⊢
      by_cases null : right.isNull = true
      · simp only [if_pos null] at ran ⊢
        obtain ⟨rfl, -⟩ := Prod.mk.inj (Option.some.inj ran)
        exact ⟨ran, holds⟩
      · rw [Bool.not_eq_true] at null
        simp only [null, Bool.false_or] at shape accepted
        simp only [null, Bool.false_eq_true, if_false] at ran ⊢
        split at accepted
        · next lt rt leftTyped rightTyped =>
          simp only [declAccepted, decide_eq_true_eq] at accepted
          refine assign_typed uniform methods answers shape.1 shape.2 leftTyped
            rightTyped ?_ leftInside
            rightInside holds ran
          rintro rfl rfl
          rcases accepted with same | ⟨notInt, -⟩
          · cases same
          · exact notInt rfl
        · cases accepted
    | assign =>
      simp only [isStmt, Bool.and_eq_true] at shape
      simp only [stmtAccepted] at accepted
      simp only [runStmt] at ran ⊢
      split at accepted
      · next lt rt leftTyped rightTyped =>
        refine assign_typed uniform methods answers shape.1.2 shape.2 leftTyped
          rightTyped ?_ leftInside
          rightInside holds ran
        rintro rfl rfl
        cases of_decide_eq_true accepted
      · cases accepted
    | ret =>
      simp only [isStmt, Bool.and_eq_true] at shape
      simp only [stmtAccepted] at accepted
      simp only [runStmt] at ran ⊢
      by_cases null : left.isNull = true
      · simp only [if_pos null] at ran ⊢
        obtain ⟨rfl, -⟩ := Prod.mk.inj (Option.some.inj ran)
        exact ⟨ran, holds⟩
      · rw [Bool.not_eq_true] at null
        simp only [null, Bool.false_or] at shape
        simp only [null, Bool.false_eq_true, if_false, beq_iff_eq] at accepted
        simp only [null, Bool.false_eq_true, if_false, Option.bind_eq_bind,
          Option.bind_eq_some_iff] at ran ⊢
        obtain ⟨⟨v, s₁⟩, value, eq⟩ := ran
        obtain ⟨value', holds', -⟩ :=
          evaluate_typed methods answers shape.1 accepted leftInside holds value
        obtain ⟨rfl, -⟩ := Prod.mk.inj (Option.some.inj eq)
        exact ⟨⟨_, value', eq⟩, holds'⟩
    | _ => simp [isStmt] at shape
  | .ifStmt line condition thenBlock elseBlock, shape, accepted, inside, s, s', completion, holds,
    ran => by
    simp only [isStmtOrNull, AstNode.isNull, Bool.false_or, isStmt_ifStmt,
      Bool.and_eq_true] at shape
    obtain ⟨⟨conditionShape, thenShape⟩, elseShape⟩ := shape
    obtain ⟨typed, branches⟩ := accepted_ifStmt accepted
    rw [ifCase_off off] at branches
    simp only [leafIds, List.mem_append] at inside
    simp only [runStmt, Option.bind_eq_bind, Option.bind_eq_some_iff] at ran ⊢
    obtain ⟨⟨v, s₁⟩, value, ran⟩ := ran
    obtain ⟨value', holds', -⟩ := evaluate_typed methods answers conditionShape typed
      (fun p mem => inside p (.inl (.inl mem))) holds value
    by_cases zero : v = 0
    · simp only [if_pos zero] at ran
      obtain ⟨ran', after⟩ := runStmt_typed off uniform methods answers fuel elseBlock
        (isStmtOrNull_of_branch elseShape) branches.2 (fun p mem => inside p (.inr mem)) s₁ s'
        completion holds' ran
      exact ⟨⟨_, value', by simp only [if_pos zero, ran']⟩, after⟩
    · simp only [if_neg zero] at ran
      obtain ⟨ran', after⟩ := runStmt_typed off uniform methods answers fuel thenBlock
        (isStmtOrNull_of_branch thenShape) (acceptedOrNull_of_accepted branches.1)
        (fun p mem => inside p (.inl (.inr mem))) s₁ s' completion holds' ran
      exact ⟨⟨_, value', by simp only [if_neg zero, ran']⟩, after⟩
  | .whileStmt line condition block, shape, accepted, inside, s, s', completion, holds, ran => by
    simp only [isStmtOrNull, AstNode.isNull, Bool.false_or, isStmt_whileStmt, Bool.and_eq_true]
      at shape
    obtain ⟨typed, bodyAccepted⟩ := accepted_whileStmt accepted
    simp only [leafIds, List.mem_append] at inside
    simp only [runStmt] at ran ⊢
    refine runLoop_typed (fun s v s₁ holds value => ?_) (fun s s₁ completion holds ran => ?_) fuel
      holds ran
    · obtain ⟨value', holds', -⟩ := evaluate_typed methods answers shape.1 typed
        (fun p mem => inside p (.inl mem)) holds value
      exact ⟨value', holds'⟩
    · exact runStmt_typed off uniform methods answers fuel block (isStmtOrNull_of_branch shape.2)
        (acceptedOrNull_of_accepted bodyAccepted) (fun p mem => inside p (.inr mem)) s s₁ completion
        holds ran
  | .methodCall line name numArgs args, shape, accepted, inside, s, s', completion, holds, ran => by
    simp only [acceptedOrNull, AstNode.isNull, Bool.false_or, stmtAccepted] at accepted
    obtain ⟨type, typed⟩ := Option.isSome_iff_exists.mp accepted
    simp only [runStmt, Option.bind_eq_bind, Option.bind_eq_some_iff] at ran ⊢
    obtain ⟨⟨v, s₁⟩, value, eq⟩ := ran
    obtain ⟨value', holds', -⟩ := evaluate_typed methods answers
      (by simpa [isStmtOrNull, AstNode.isNull, isStmt, isExpr] using shape) typed inside holds value
    obtain ⟨rfl, -⟩ := Prod.mk.inj (Option.some.inj eq)
    exact ⟨⟨_, value', eq⟩, holds'⟩
  | .block line stmts, shape, accepted, inside, s, s', completion, holds, ran => by
    simp only [isStmtOrNull, AstNode.isNull, Bool.false_or, isStmt] at shape
    simp only [acceptedOrNull, AstNode.isNull, Bool.false_or, stmtAccepted] at accepted
    simp only [leafIds] at inside
    simp only [runStmt] at ran ⊢
    exact runStmts_typed off uniform methods answers fuel stmts shape accepted inside
      s s' completion
      holds ran
  | .methodDecl .., shape, _, _, _, _, _, _, _ | .leaf .., shape, _, _, _, _, _, _, _ => by
    simp [isStmtOrNull, AstNode.isNull, isStmt] at shape
theorem runStmts_typed (off : env.optimizations = false) (uniform : NamesUniform tab ids)
    (methods : tab.MethodsOk) (answers : AnswersBits tab oracle) {methodReturnType : RetType}
    (fuel : Nat) :
    ∀ (stmts : AstNodeList), areStmts tab stmts = true →
      stmtsAccepted env tab methodReturnType stmts = true → (∀ p ∈ leafIdsList stmts, p ∈ ids) →
      ∀ (s s' : SourceState) (completion : Completion), BoolsHold tab ids s.store →
        runStmts tab false oracle fuel stmts s = some (s', completion) →
        runStmts tab true oracle fuel stmts s = some (s', completion) ∧ BoolsHold tab ids s'.store
  | .nil, _, _, _, s, s', completion, holds, ran => by
    rw [runStmts] at ran ⊢
    obtain ⟨rfl, -⟩ := Prod.mk.inj (Option.some.inj ran)
    exact ⟨ran, holds⟩
  | .cons first next, shape, accepted, inside, s, s', completion, holds, ran => by
    simp only [areStmts, Bool.and_eq_true] at shape
    simp only [stmtsAccepted, Bool.and_eq_true] at accepted
    simp only [leafIdsList, List.mem_append] at inside
    simp only [runStmts, Option.bind_eq_bind, Option.bind_eq_some_iff] at ran ⊢
    obtain ⟨⟨s₁, completed⟩, ranFirst, ran⟩ := ran
    obtain ⟨one, holds'⟩ := runStmt_typed off uniform methods answers fuel first
      (by simp [isStmtOrNull, shape.1]) (acceptedOrNull_of_accepted accepted.1)
      (fun p mem => inside p (.inl mem)) s s₁ completed holds ranFirst
    cases completed with
    | normal =>
      obtain ⟨rest, after⟩ := runStmts_typed off uniform methods answers fuel next shape.2
        accepted.2 (fun p mem => inside p (.inr mem)) s₁ s' completion holds' ran
      exact ⟨⟨_, one, rest⟩, after⟩
    | returned value =>
      obtain ⟨rfl, -⟩ := Prod.mk.inj (Option.some.inj ran)
      exact ⟨⟨_, one, ran⟩, holds'⟩
end

end Uniform

end Ctds
