import Ctds.ObjectCode
import Ctds.Optimization
import Ctds.Parser
import Ctds.SemanticAnalyzer

/-! The pipeline of `main.c`: the parser, the semantic analyzer, `gen_code` over the
top-level sentences, `optimize_memory` under `-opt`, and the object code generator. -/

namespace Ctds

/-- What the front end hands to code generation: the symbol table and `head_ast`. -/
structure Checked where
  tab : SymbolTable
  headAst : List AstNode

def frontEnd (env : Env) (prog : ProgramSyn) : Except Error Checked := do
  let ps ← parse prog
  let sentences ← semanticAnalyzer env ps.tab ps.headAst
  return ⟨ps.tab, sentences⟩

def intermediateCode (env : Env) (checked : Checked) : GenState :=
  genSentences env checked.tab checked.headAst resetCode

/-- The strings of the temporaries when the code is printed or translated. Only `-opt` looks at
the occurrence list again. -/
def finalHeap (env : Env) (gen : GenState) : Option (Nat → CString) :=
  if env.optimizations then (optimizePass gen).map OptState.heap
  else some tempText

def objectCode (env : Env) (checked : Checked) : Option (List AsmLine) :=
  let gen := intermediateCode env checked
  (finalHeap env gen).map fun heap =>
    generateObjectCode checked.tab checked.headAst (namedCode heap gen.code)

theorem frontEnd_ok {env : Env} {prog : ProgramSyn} {checked : Checked}
    (h : frontEnd env prog = .ok checked) :
    ∃ ps, parse prog = .ok ps ∧ checked.tab = ps.tab ∧
      semanticAnalyzer env ps.tab ps.headAst = .ok checked.headAst := by
  unfold frontEnd at h
  cases parsed : parse prog with
  | error err => simp [parsed, bind, Except.bind] at h
  | ok ps =>
    cases analyzed : semanticAnalyzer env ps.tab ps.headAst with
    | error err => simp [parsed, analyzed, bind, Except.bind] at h
    | ok sentences =>
      simp only [parsed, analyzed, bind, Except.bind, pure, Except.pure, Except.ok.injEq] at h
      exact ⟨ps, rfl, by rw [← h], by rw [← h]; exact analyzed⟩

end Ctds
