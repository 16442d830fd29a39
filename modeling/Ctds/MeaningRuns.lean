import Ctds.Preservation
import Ctds.Traces

/-! The meaning of a program against the runs of `Source`, where variables are words under
their names and calls are answered by an oracle. Where no two variables share a name, a body
with a meaning runs in the same way under every oracle that gives the answers of the trace.
Without `-opt` the emitted code follows these runs, and so the meaning. Under `-opt` it takes
shortcuts, and its divisions by a variable may be shifts that no run makes; `CodeMeaning` goes
from the meaning to that code without a run between them. -/

namespace Ctds

open Fallible Word

section Runs

variable {W : Type} {tab : SymbolTable} {call : Callee W} {ids : List IdPtr}

/-- Under a fitting oracle the expression has the word of this value. -/
def Evaluates (tab : SymbolTable) (ids : List IdPtr) (vars : Variables) (node : AstNode)
    (v : Value) (o : Oracle) (e e' : List Event) : Prop :=
  ∀ store, Matches tab ids vars store → exprValue tab true o store node e = some (v.word, e')

theorem leafMeaning_value {line : Int} {value : LeafValue} {vars : Variables} {v : Value}
    (shape : isExpr tab (.leaf line value) = true)
    (inside : ∀ p ∈ leafIds (.leaf line value), p ∈ ids)
    (means : leafMeaning vars value = some v) {store : Store} (h : Matches tab ids vars store) :
    leafValue tab true store value = some v.word := by
  cases value with
  | int n => exact Option.some.inj means ▸ rfl
  | bool n =>
    obtain rfl := Option.some.inj means
    have bit : n = 0 ∨ n = 1 := by simpa [isExpr] using shape
    rcases bit with rfl | rfl <;> rfl
  | id p =>
    obtain ⟨info, entry⟩ := SymbolTable.hasEntry_iff.mp (by simpa [isExpr] using shape)
    obtain ⟨typed, word⟩ := h p (inside p (by simp [leafIds])) info v entry
      (Option.join_eq_some_iff.mp means)
    simp only [leafValue, readVariable, entry, word, true_and]
    refine if_neg fun guard => guard.2 (isBit_of_type ?_)
    rw [guard.1] at typed
    cases v with
    | int w => cases typed
    | bool b => rfl

mutual
/-- An expression with a meaning has its word in every run that fits. -/
theorem exprMeaning_runs {vars : Variables} :
    ∀ (node : AstNode), isExpr tab node = true → (∀ p ∈ leafIds node, p ∈ ids) →
      ∀ (w w' : W) (v : Value), exprMeaning tab call vars node w = some (v, w') →
        Leads call w w' (Evaluates tab ids vars node v)
  | .leaf line value, shape, inside, w, w', v, means => by
    rw [exprMeaning] at means
    obtain ⟨u, leaf, eq⟩ := Option.map_eq_some_iff.mp means
    obtain ⟨rfl, rfl⟩ := Prod.mk.inj eq
    refine (Leads.refl w).mono fun o e e' same store h => ?_
    rw [exprValue, leafMeaning_value shape inside leaf h, same]
    rfl
  | .common line .binary op left right, shape, inside, w, w', v, means => by
    simp only [isExpr, Bool.and_eq_true] at shape
    simp only [leafIds, List.mem_append] at inside
    simp only [exprMeaning, Option.bind_eq_bind, Option.bind_eq_some_iff, Option.pure_def,
      Option.some.injEq, Prod.mk.injEq] at means
    obtain ⟨⟨l, w₁⟩, leftMeans, ⟨r, w₂⟩, rightMeans, u, value, rfl, rfl⟩ := means
    have first := exprMeaning_runs left shape.1.2 (fun p mem => inside p (.inl mem)) w w₁ l
      leftMeans
    have second := exprMeaning_runs right shape.2 (fun p mem => inside p (.inr mem)) w₁ w₂ r
      rightMeans
    refine (first.append second).mono fun o e e' ⟨mid, l', r'⟩ store h => ?_
    simp only [exprValue, l' store h, r' store h, binaryMeaning_word value, Option.bind_eq_bind,
      Option.bind_some, Option.pure_def]
  | .common line .unary op left right, shape, inside, w, w', v, means => by
    simp only [isExpr, Bool.and_eq_true] at shape
    simp only [leafIds, List.mem_append] at inside
    simp only [exprMeaning, Option.bind_eq_bind, Option.bind_eq_some_iff, Option.pure_def,
      Option.some.injEq, Prod.mk.injEq] at means
    obtain ⟨⟨l, w₁⟩, leftMeans, u, value, rfl, rfl⟩ := means
    have first := exprMeaning_runs left shape.1.2 (fun p mem => inside p (.inl mem)) w w₁ l
      leftMeans
    refine first.mono fun o e e' l' store h => ?_
    simp only [exprValue, l' store h, unaryMeaning_word value, Option.bind_eq_bind,
      Option.bind_some, Option.pure_def]
  | .methodCall line name numArgs args, shape, inside, w, w', v, means => by
    simp only [isExpr, Bool.and_eq_true] at shape
    simp only [leafIds] at inside
    simp only [exprMeaning, Option.bind_eq_bind, Option.bind_eq_some_iff, Option.pure_def,
      Option.some.injEq, Prod.mk.injEq] at means
    obtain ⟨⟨vs, w₁⟩, argsMean, ⟨answer, w₂⟩, called, u, answered, rfl, rfl⟩ := means
    have first := argsMeaning_runs args shape.2 inside w w₁ vs argsMean
    refine (first.append (Leads.ofCall called)).mono fun o e e' ⟨mid, args', eq, answer'⟩ store h =>
      ?_
    simp only [exprValue, args' store h, Option.bind_eq_bind, Option.bind_some, Option.pure_def, eq,
      answer' u answered]
  | .null, shape, _, _, _, _, _ | .ifStmt .., shape, _, _, _, _, _
  | .whileStmt .., shape, _, _, _, _, _ | .methodDecl .., shape, _, _, _, _, _
  | .block .., shape, _, _, _, _, _ => by simp [isExpr] at shape
theorem argsMeaning_runs {vars : Variables} :
    ∀ (args : AstNodeList), areExprs tab args = true → (∀ p ∈ leafIdsList args, p ∈ ids) →
      ∀ (w w' : W) (vs : List Value), argsMeaning tab call vars args w = some (vs, w') →
        Leads call w w' fun o e e' => ∀ store, Matches tab ids vars store →
          argValues tab true o store args e = some (vs.map Value.word, e')
  | .nil, _, _, w, w', vs, means => by
    rw [argsMeaning] at means
    obtain ⟨rfl, rfl⟩ := Prod.mk.inj (Option.some.inj means)
    exact (Leads.refl w).mono fun o e e' same store h => by rw [argValues, same]; rfl
  | .cons first next, shape, inside, w, w', vs, means => by
    simp only [areExprs, Bool.and_eq_true] at shape
    simp only [leafIdsList, List.mem_append] at inside
    simp only [argsMeaning, Option.bind_eq_bind, Option.bind_eq_some_iff, Option.pure_def,
      Option.some.injEq, Prod.mk.injEq] at means
    obtain ⟨⟨v, w₁⟩, firstMeans, ⟨rest, w₂⟩, restMean, rfl, rfl⟩ := means
    have one := exprMeaning_runs first shape.1 (fun p mem => inside p (.inl mem)) w w₁ v firstMeans
    have others := argsMeaning_runs next shape.2 (fun p mem => inside p (.inr mem)) w₁ w₂ rest
      restMean
    refine (one.append others).mono fun o e e' ⟨mid, v', rest'⟩ store h => ?_
    simp only [argValues, v' store h, rest' store h, Option.bind_eq_bind, Option.bind_some,
      Option.pure_def, List.map_cons]
end

/-- Under a fitting oracle the test has the word of this value and changes no variable. -/
def Yields (tab : SymbolTable) (call : Callee W) (ids : List IdPtr)
    (test : Oracle → SourceState → Option (Word × SourceState)) (s s' : ProgState W)
    (v : Value) : Prop :=
  Leads call s.world s'.world fun o e e' => ∀ store, Matches tab ids s.vars store →
    test o ⟨store, e⟩ = some (v.word, ⟨store, e'⟩) ∧ Matches tab ids s'.vars store

/-- Under a fitting oracle the run ends like this, with these values in the variables. -/
def Performs (tab : SymbolTable) (call : Callee W) (ids : List IdPtr) (run : Oracle → Runner)
    (s s' : ProgState W) (ending : Ending) : Prop :=
  Leads call s.world s'.world fun o e e' => ∀ store, Matches tab ids s.vars store →
    ∃ store', run o ⟨store, e⟩ = some (⟨store', e'⟩, ending.completion) ∧
      Matches tab ids s'.vars store'

theorem valueOf_yields {node : AstNode} (shape : isExpr tab node = true)
    (inside : ∀ p ∈ leafIds node, p ∈ ids) {s s' : ProgState W} {v : Value}
    (means : valueOf tab call node s = some (v, s')) :
    Yields tab call ids (fun o => evaluate tab true o node) s s' v := by
  obtain ⟨⟨u, w⟩, value, eq⟩ := Option.map_eq_some_iff.mp means
  obtain ⟨rfl, rfl⟩ := Prod.mk.inj eq
  refine (exprMeaning_runs node shape inside _ _ _ value).mono fun o e e' runs store h => ?_
  exact ⟨by simp [evaluate, runs store h], h⟩

theorem Yields.bind {test : Oracle → SourceState → Option (Word × SourceState)}
    {run run' : Oracle → Runner} {s s' s'' : ProgState W} {v : Value} {ending : Ending}
    (h : Yields tab call ids test s s' v) (h' : Performs tab call ids run s' s'' ending)
    (goes : ∀ o t t', test o t = some (v.word, t') → run' o t = run o t') :
    Performs tab call ids run' s s'' ending := by
  refine (Leads.append h h').mono fun o e e'' ⟨e', tested, ran⟩ store matched => ?_
  obtain ⟨value, matched'⟩ := tested store matched
  rw [goes o _ _ value]
  exact ran store matched'

theorem setVariable_performs (apart : NamesApart tab ids) {left : AstNode}
    (inside : ∀ p ∈ leafIds left, p ∈ ids) {s s' : ProgState W} {v : Value} {ending : Ending}
    (means : setVariable tab left v s = some (s', ending)) :
    Performs tab call ids (fun _ => assignTo tab left v.word) s s' ending := by
  unfold setVariable at means
  split at means
  · next line p =>
    split at means
    · next info old entry declared =>
      simp only [Option.ite_none_right_eq_some, Option.some.injEq, Prod.mk.injEq] at means
      obtain ⟨typed, rfl, rfl⟩ := means
      refine (Leads.assign info.name.text v s.world).mono fun o e e' eq store h => ?_
      refine ⟨_, ?_, h.assign apart (inside p (by simp [leafIds])) entry typed⟩
      simp only [assignTo, leafSymbol, entry, eq, Ending.completion]
    · cases means
  · cases means

theorem declareVariable_matches {left : AstNode} {s : ProgState W} {store : Store}
    (h : Matches tab ids s.vars store) : Matches tab ids (declareVariable left s).vars store := by
  unfold declareVariable
  split
  · exact h.declare _
  · exact h

theorem performs_nothing (s : ProgState W) (ending : Ending) :
    Performs tab call ids (fun _ t => some (t, ending.completion)) s s ending :=
  (Leads.refl s.world).mono fun _ _ _ eq store h => ⟨store, by rw [eq], h⟩

theorem assign_performs (apart : NamesApart tab ids) {left right : AstNode}
    (shape : isExpr tab right = true) (inside : ∀ p ∈ leafIds left ++ leafIds right, p ∈ ids)
    {s s' : ProgState W} {ending : Ending}
    (means : (valueOf tab call right s).bind (fun x => setVariable tab left x.1 x.2) =
      some (s', ending)) :
    Performs tab call ids (fun o t => (evaluate tab true o right t).bind fun x =>
      assignTo tab left x.1 x.2) s s' ending := by
  simp only [List.mem_append] at inside
  obtain ⟨⟨v, s₁⟩, value, set⟩ := Option.bind_eq_some_iff.mp means
  refine (valueOf_yields shape (fun p mem => inside p (.inr mem)) value).bind
    (setVariable_performs apart (fun p mem => inside p (.inl mem)) set) fun o t t' ran => ?_
  rw [ran, Option.bind_some]

/-- A run, and another one behind it if it comes to its end. -/
def andThen (run next : Runner) : Runner := fun t =>
  (run t).bind fun x =>
    match x.2 with
    | .normal => next x.1
    | .returned value => some (x.1, .returned value)

theorem Performs.andThen {run next : Oracle → Runner} {s s₁ s' : ProgState W}
    {ended ending : Ending} (first : Performs tab call ids run s s₁ ended)
    (rest : match ended with
      | .normal => Performs tab call ids next s₁ s' ending
      | .returned value => s₁ = s' ∧ .returned value = ending) :
    Performs tab call ids (fun o => Ctds.andThen (run o) (next o)) s s' ending := by
  cases ended with
  | normal =>
    refine (Leads.append first rest).mono fun o e e'' ⟨e', ran, more⟩ store matched => ?_
    obtain ⟨store', one, matched'⟩ := ran store matched
    simp only [Ctds.andThen, one, Option.bind_some]
    exact more store' matched'
  | returned answer =>
    obtain ⟨rfl, rfl⟩ := rest
    refine first.mono fun o e e' ran store matched => ?_
    obtain ⟨store', one, matched'⟩ := ran store matched
    refine ⟨store', ?_, matched'⟩
    simp only [Ctds.andThen, one, Option.bind_some]
    rfl

/-- The rounds of a loop, by induction on the fuel. -/
theorem loopMeaning_performs {condition : ProgState W → Option (Value × ProgState W)}
    {body : Meaning W} {test : Oracle → SourceState → Option (Word × SourceState)}
    {runBody : Oracle → Runner}
    (tests : ∀ s s' v, condition s = some (v, s') → Yields tab call ids test s s' v)
    (bodies : ∀ s s' ending, body s = some (s', ending) →
      Performs tab call ids runBody s s' ending)
    (fuel : Nat) {s s' : ProgState W} {ending : Ending}
    (means : loopMeaning condition body fuel s = some (s', ending)) :
    Performs tab call ids (fun o => runLoop (test o) (runBody o) fuel) s s' ending := by
  induction fuel generalizing s with
  | zero =>
    simp only [loopMeaning, Option.bind_eq_bind, Option.bind_eq_some_iff] at means
    obtain ⟨⟨v, s₁⟩, value, means⟩ := means
    simp only [Option.pure_def, Option.ite_none_right_eq_some, Option.some.injEq,
      Prod.mk.injEq] at means
    obtain ⟨rfl, rfl, rfl⟩ := means
    refine (tests s s₁ _ value).bind (performs_nothing s₁ .normal) fun o t t' ran => ?_
    simp only [runLoop, ran, Option.bind_eq_bind, Option.bind_some]
    exact if_pos rfl
  | succ fuel ih =>
    simp only [loopMeaning, Option.bind_eq_bind, Option.bind_eq_some_iff] at means
    obtain ⟨⟨v, s₁⟩, value, means⟩ := means
    have tested := tests s s₁ v value
    cases v with
    | int w => cases means
    | bool b =>
      cases b with
      | false =>
        obtain ⟨rfl, rfl⟩ := Prod.mk.inj (Option.some.inj means)
        refine tested.bind (performs_nothing s₁ .normal) fun o t t' ran => ?_
        simp only [runLoop, ran, Option.bind_eq_bind, Option.bind_some]
        exact if_pos rfl
      | true =>
        simp only [Option.bind_eq_some_iff] at means
        obtain ⟨⟨s₂, ended⟩, ranBody, means⟩ := means
        have rounds : Performs tab call ids
            (fun o => Ctds.andThen (runBody o) (runLoop (test o) (runBody o) fuel)) s₁
              s' ending := by
          refine (bodies s₁ s₂ ended ranBody).andThen ?_
          cases ended with
          | normal => exact ih means
          | returned answer => exact Prod.mk.inj (Option.some.inj means)
        refine tested.bind rounds fun o t t' ran => ?_
        simp only [runLoop, ran, Option.bind_eq_bind, Option.bind_some]
        exact if_neg (by decide)

theorem declareVariable_world (left : AstNode) (s : ProgState W) :
    (declareVariable left s).world = s.world := by
  unfold declareVariable
  split <;> rfl

theorem Performs.declare {run : Oracle → Runner} (left : AstNode) {s s' : ProgState W}
    {ending : Ending} (h : Performs tab call ids run (declareVariable left s) s' ending) :
    Performs tab call ids run s s' ending := by
  rw [Performs, declareVariable_world] at h
  exact h.mono fun o e e' ran store matched => ran store (declareVariable_matches matched)

mutual
/-- A statement with a meaning runs as the meaning says under every oracle that fits. -/
theorem stmtMeaning_performs (apart : NamesApart tab ids) (fuel : Nat) :
    ∀ (node : AstNode), isStmtOrNull tab node = true → (∀ p ∈ leafIds node, p ∈ ids) →
      ∀ (s s' : ProgState W) (ending : Ending),
        stmtMeaning tab call fuel node s = some (s', ending) →
        Performs tab call ids (fun o => runStmt tab true o fuel node) s s' ending
  | .null, _, _, s, s', ending, means => by
    rw [stmtMeaning] at means
    obtain ⟨rfl, rfl⟩ := Prod.mk.inj (Option.some.inj means)
    simp only [runStmt]
    exact performs_nothing s .normal
  | .common line arity op left right, shape, inside, s, s', ending, means => by
    simp only [isStmtOrNull, AstNode.isNull, Bool.false_or] at shape
    simp only [leafIds] at inside
    cases op with
    | decl =>
      simp only [isStmt, Bool.and_eq_true] at shape
      simp only [stmtMeaning] at means
      simp only [runStmt]
      refine Performs.declare left ?_
      by_cases null : right.isNull = true
      · simp only [if_pos null, Option.some.injEq, Prod.mk.injEq] at means ⊢
        obtain ⟨rfl, rfl⟩ := means
        exact performs_nothing _ .normal
      · rw [Bool.not_eq_true] at null
        simp only [null, Bool.false_or] at shape
        simp only [null, Bool.false_eq_true, if_false] at means ⊢
        exact assign_performs apart shape.2 inside means
    | assign =>
      simp only [isStmt, Bool.and_eq_true] at shape
      simp only [stmtMeaning] at means
      simp only [runStmt]
      exact assign_performs apart shape.2 inside means
    | ret =>
      simp only [isStmt, Bool.and_eq_true] at shape
      simp only [stmtMeaning] at means
      simp only [runStmt]
      by_cases null : left.isNull = true
      · simp only [if_pos null, Option.some.injEq, Prod.mk.injEq] at means ⊢
        obtain ⟨rfl, rfl⟩ := means
        exact performs_nothing s (.returned none)
      · rw [Bool.not_eq_true] at null
        simp only [null, Bool.false_or] at shape
        simp only [null, Bool.false_eq_true, if_false, Option.bind_eq_bind, Option.bind_eq_some_iff,
          Option.pure_def, Option.some.injEq, Prod.mk.injEq] at means ⊢
        obtain ⟨⟨v, s₁⟩, value, rfl, rfl⟩ := means
        refine (valueOf_yields shape.1
          (fun p mem => inside p (List.mem_append_left _ mem)) value).bind
          (performs_nothing _ (.returned (some v))) fun o t t' ran => ?_
        rw [ran]
        rfl
    | _ => simp [isStmt] at shape
  | .ifStmt line condition thenBlock elseBlock, shape, inside, s, s', ending, means => by
    simp only [isStmtOrNull, AstNode.isNull, Bool.false_or, isStmt_ifStmt,
      Bool.and_eq_true] at shape
    obtain ⟨⟨conditionShape, thenShape⟩, elseShape⟩ := shape
    simp only [leafIds, List.mem_append] at inside
    simp only [stmtMeaning, Option.bind_eq_bind, Option.bind_eq_some_iff] at means
    obtain ⟨⟨v, s₁⟩, value, means⟩ := means
    have tested := valueOf_yields conditionShape (fun p mem => inside p (.inl (.inl mem))) value
    cases v with
    | int w => cases means
    | bool b =>
      cases b with
      | false =>
        refine tested.bind (stmtMeaning_performs apart fuel elseBlock
          (isStmtOrNull_of_branch elseShape) (fun p mem => inside p (.inr mem)) s₁ s' ending means)
          fun o t t' ran => ?_
        simp only [runStmt, ran, Option.bind_eq_bind, Option.bind_some]
        exact if_pos rfl
      | true =>
        refine tested.bind (stmtMeaning_performs apart fuel thenBlock
          (isStmtOrNull_of_branch thenShape) (fun p mem => inside p (.inl (.inr mem))) s₁ s' ending
          means) fun o t t' ran => ?_
        simp only [runStmt, ran, Option.bind_eq_bind, Option.bind_some]
        exact if_neg (by decide)
  | .whileStmt line condition block, shape, inside, s, s', ending, means => by
    simp only [isStmtOrNull, AstNode.isNull, Bool.false_or, isStmt_whileStmt, Bool.and_eq_true]
      at shape
    simp only [leafIds, List.mem_append] at inside
    simp only [stmtMeaning] at means
    simp only [runStmt]
    refine loopMeaning_performs (fun s s' v value => ?_) (fun s s' ending means => ?_) fuel means
    · exact valueOf_yields shape.1 (fun p mem => inside p (.inl mem)) value
    · exact stmtMeaning_performs apart fuel block (isStmtOrNull_of_branch shape.2)
        (fun p mem => inside p (.inr mem)) s s' ending means
  | .methodCall line name numArgs args, shape, inside, s, s', ending, means => by
    simp only [isStmtOrNull, AstNode.isNull, Bool.false_or, isStmt, Bool.and_eq_true] at shape
    simp only [leafIds] at inside
    simp only [stmtMeaning, Option.bind_eq_bind, Option.bind_eq_some_iff, Option.pure_def,
      Option.some.injEq, Prod.mk.injEq] at means
    obtain ⟨⟨vs, w₁⟩, argsMean, ⟨answer, w₂⟩, called, rfl, rfl⟩ := means
    have first := argsMeaning_runs args shape.2 inside s.world w₁ vs argsMean
    refine (first.append (Leads.ofCall called)).mono fun o e e' ⟨mid, args', eq, _⟩ store h => ?_
    refine ⟨store, ?_, h⟩
    simp only [runStmt, evaluate, exprValue, args' store h, eq, Option.bind_eq_bind,
      Option.bind_some, Option.pure_def, Option.map_some]
    rfl
  | .block line stmts, shape, inside, s, s', ending, means => by
    simp only [isStmtOrNull, AstNode.isNull, Bool.false_or, isStmt] at shape
    simp only [leafIds] at inside
    simp only [stmtMeaning] at means
    simp only [runStmt]
    exact stmtsMeaning_performs apart fuel stmts shape inside s s' ending means
  | .methodDecl .., shape, _, _, _, _, _ | .leaf .., shape, _, _, _, _, _ => by
    simp [isStmtOrNull, AstNode.isNull, isStmt] at shape
theorem stmtsMeaning_performs (apart : NamesApart tab ids) (fuel : Nat) :
    ∀ (stmts : AstNodeList), areStmts tab stmts = true → (∀ p ∈ leafIdsList stmts, p ∈ ids) →
      ∀ (s s' : ProgState W) (ending : Ending),
        stmtsMeaning tab call fuel stmts s = some (s', ending) →
        Performs tab call ids (fun o => runStmts tab true o fuel stmts) s s' ending
  | .nil, _, _, s, s', ending, means => by
    rw [stmtsMeaning] at means
    obtain ⟨rfl, rfl⟩ := Prod.mk.inj (Option.some.inj means)
    simp only [runStmts]
    exact performs_nothing s .normal
  | .cons first next, shape, inside, s, s', ending, means => by
    simp only [areStmts, Bool.and_eq_true] at shape
    simp only [leafIdsList, List.mem_append] at inside
    simp only [stmtsMeaning, Option.bind_eq_bind, Option.bind_eq_some_iff] at means
    obtain ⟨⟨s₁, ended⟩, one, means⟩ := means
    simp only [runStmts]
    refine (stmtMeaning_performs apart fuel first (by simp [isStmtOrNull, shape.1])
      (fun p mem => inside p (.inl mem)) s s₁ ended one).andThen ?_
    cases ended with
    | normal =>
      exact stmtsMeaning_performs apart fuel next shape.2 (fun p mem => inside p (.inr mem)) s₁ s'
        ending means
    | returned answer => exact Prod.mk.inj (Option.some.inj means)
end

/-- What a body means is what its runs do: under every oracle that gives the answers of the
trace, from every store that holds the variables, the run makes the calls and assignments of
the trace, reads truth values only, and ends as the meaning does. -/
theorem body_meaning_runs {block : AstNode} (shape : isStmtOrNull tab block = true)
    (apart : NamesApart tab (leafIds block)) {fuel : Nat} {s s' : ProgState W} {ending : Ending}
    (means : stmtMeaning tab call fuel block s = some (s', ending)) :
    ∃ items, Follows call s.world items s'.world ∧ ∀ oracle store, FitsTrace oracle [] items →
      Matches tab (leafIds block) s.vars store → ∃ store',
        runStmt tab true oracle fuel block ⟨store, []⟩ =
          some (⟨store', traceEvents items⟩, ending.completion) ∧
        Matches tab (leafIds block) s'.vars store' := by
  obtain ⟨items, follows, runs⟩ := stmtMeaning_performs apart fuel block shape (fun _ mem => mem) s
    s' ending means
  exact ⟨items, follows, fun oracle store fits matched => runs oracle [] fits store matched⟩

/-- The code of a method follows its meaning, by way of the run. -/
theorem code_follows_meaning {env : Env} {sentences : List AstNode} (s : Section tab sentences)
    (off : env.optimizations = false) (shape : ∀ node ∈ sentences, isSentence tab node = true)
    (methods : tab.MethodsOk) {methodReturnType : RetType}
    (accepted : acceptedOrNull env tab methodReturnType s.block = true)
    (apart : NamesApart tab (leafIds s.block)) {fuel : Nat} {p p' : ProgState W} {ending : Ending}
    (means : stmtMeaning tab call fuel s.block p = some (p', ending)) :
    ∃ items, Follows call p.world items p'.world ∧ ∀ oracle store, OracleTyped tab oracle →
      FitsTrace oracle [] items → Matches tab (leafIds s.block) p.vars store → ∃ store',
        Followed env s oracle store ⟨store', traceEvents items⟩ ending.completion ∧
        Matches tab (leafIds s.block) p'.vars store' := by
  have here := shape _ s.mem
  rw [isSentence, Bool.and_eq_true] at here
  obtain ⟨items, follows, runs⟩ := stmtMeaning_performs apart fuel s.block
    (isStmtOrNull_of_branch here.2) (fun _ mem => mem) p p' ending means
  refine ⟨items, follows, fun oracle store answers fits matched => ?_⟩
  obtain ⟨store', ran, matched'⟩ := runs oracle [] fits store matched
  exact ⟨store', followed_of_typed off shape methods accepted answers ran, matched'⟩

end Runs

/-- The body of `main` in the program of the factorial. -/
theorem factorial_main_runs :
    ∃ ps block items store', parse factorial = .ok ps ∧
      (bodyNamed ps.tab "main".toList ps.headAst).map Prod.snd = some block ∧
      Follows (callMeaning ps.tab ps.headAst printer 0 4) [] items [3] ∧
      runStmt ps.tab true (traceOracle items) 0 block ⟨fun _ => 0, []⟩ =
        some (⟨store', traceEvents items⟩, .normal) := by
  obtain ⟨ps, parsed⟩ := isOk_iff.mp (by decide +kernel : (parse factorial).isOk = true)
  have facts : (parse factorial).toOption.bind (fun ps =>
        ((bodyNamed ps.tab "main".toList ps.headAst).map Prod.snd).map fun block =>
          (isStmtOrNull ps.tab block, decide (NamesApart ps.tab (leafIds block)),
            (stmtMeaning ps.tab (callMeaning ps.tab ps.headAst printer 0 4) 0 block
              ⟨fun _ => none, []⟩).map fun r => (r.1.world, r.2))) =
      some (true, true, some ([3], .normal)) := by decide +kernel
  rw [parsed, Except.toOption, Option.bind_some] at facts
  obtain ⟨block, main, facts⟩ := Option.map_eq_some_iff.mp facts
  simp only [Prod.mk.injEq, decide_eq_true_eq] at facts
  obtain ⟨shape, apart, means⟩ := facts
  obtain ⟨⟨s', ending⟩, means, ends⟩ := Option.map_eq_some_iff.mp means
  obtain ⟨world, rfl⟩ := Prod.mk.inj ends
  obtain ⟨items, follows, runs⟩ := body_meaning_runs shape apart means
  obtain ⟨store', ran, -⟩ := runs (traceOracle items) (fun _ => 0) (traceOracle_fits items)
    fun p mem info v entry value => by cases value
  exact ⟨ps, block, items, store', parsed, main, world ▸ follows, ran⟩

end Ctds
