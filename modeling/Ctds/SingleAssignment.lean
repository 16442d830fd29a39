import Ctds.Lib.ReadOnce
import Ctds.MemoryOptimization

/-! Each temporary is written by one instruction and read at most once, by a later one that
the code reaches straight on. What an expression has written and not read are the values it
hands to its parent; at the end of a statement nothing is handed on. The read is in the
method of the write, or both are in the initialiser of a global variable, which is in none. -/

namespace Ctds

/-- Control arrives here from elsewhere, or goes elsewhere. -/
def InstrType.isBarrier : InstrType → Bool
  | .label | .jmp | .jmpf | .ret | .enter | .leave => true
  | _ => false

def ReadAt (code : List (Instr CString)) (name : CString) (r : Nat) : Prop :=
  ∃ instr, code[r]? = some instr ∧ name ∈ instr.sources

/-- The instruction at this position alone writes the name, and the one that reads it, if
there is one, follows in straight-line code. -/
structure StraightLine (code : List (Instr CString)) (name : CString) (w : Nat) : Prop where
  written : ∀ k, code[k]?.bind Instr.reg = some name ↔ k = w
  once : (code.flatMap Instr.sources).count name ≤ 1
  behind : ∀ r, ReadAt code name r → w < r
  straight : ∀ r, ReadAt code name r → ∀ k between, w < k → k < r →
    code[k]? = some between → between.instruct.isBarrier = false

/-- A declaration outside the methods. -/
structure GlobalDecl (sentences : List AstNode) where
  before : List AstNode
  line : Int
  arity : OperatorArity
  left : AstNode
  right : AstNode
  after : List AstNode
  split : sentences = before ++ .common line arity .decl left right :: after

namespace GlobalDecl

variable {sentences : List AstNode} (d : GlobalDecl sentences)

def node : AstNode := .common d.line d.arity .decl d.left d.right

/-- The position at which its code starts. -/
def start (env : Env) (tab : SymbolTable) : Nat :=
  (genSentences env tab d.before resetCode).code.length

def stop (env : Env) (tab : SymbolTable) : Nat :=
  (genSentences env tab (d.before ++ [d.node]) resetCode).code.length

end GlobalDecl

/-- Code that takes over the first temporaries unread and leaves the last ones unread. -/
abbrev HandsOn (carried : Multiset Nat) (code : List IrInstr) (left : Multiset Nat) : Prop :=
  ReadOnce IrInstr.uses (fun i => i.dest?.toList) (fun i => i.instr.instruct.isBarrier = true)
    carried code left

theorem HandsOn.passing (i : IrInstr) (kept : Multiset Nat)
    (stops : i.instr.instruct.isBarrier = true → kept = 0) :
    HandsOn ((i.uses : Multiset Nat) + kept) [i] (kept + (i.dest?.toList : Multiset Nat)) :=
  ReadOnce.one stops

theorem HandsOn.single (i : IrInstr) : HandsOn i.uses [i] i.dest?.toList := by
  have one := HandsOn.passing i 0 fun _ => rfl
  rwa [add_zero, zero_add] at one

theorem HandsOn.reads {code : List IrInstr} {rs : List Var} {i : IrInstr}
    (h : HandsOn 0 code (rs.flatMap Var.temps : List Nat)) (uses : i.uses = rs.flatMap Var.temps) :
    HandsOn 0 (code ++ [i]) i.dest?.toList := by
  rw [← uses] at h
  exact h.append (HandsOn.single i)

theorem HandsOn.params (rs : List Var) :
    HandsOn (rs.flatMap Var.temps : List Nat) (rs.map .param) 0 := by
  induction rs with
  | nil => exact .nil le_rfl
  | cons r rs ih =>
    have first := HandsOn.passing (.param r) (rs.flatMap Var.temps : List Nat)
      fun barrier => by cases barrier
    have none : ((IrInstr.param r).dest?.toList : Multiset Nat) = 0 := rfl
    rw [none, add_zero, Multiset.coe_add] at first
    exact first.append ih

theorem isBarrier_of_isOperand {i : IrInstr} (operand : i.isOperand = true) :
    i.instr.instruct.isBarrier = false := by
  cases i with
  | binary t _ _ _ => cases t <;> rfl
  | unary t _ _ => cases t <;> rfl
  | load | loadval | shiftRight | param | call => rfl
  | _ => cases operand

theorem Operands.handsOn {t u : Nat} {code : List IrInstr} {rs : List Var}
    (h : Operands t code rs u) : HandsOn 0 code (rs.flatMap Var.temps : List Nat) := by
  induction h with
  | nil | user => exact .nil le_rfl
  | load x t => exact HandsOn.single (.load x)
  | loadval v t => exact HandsOn.single (.loadval v t)
  | @cons t u v code code' r rs _ second ih ih' =>
    have free : ∀ i ∈ code', ¬ i.instr.instruct.isBarrier = true := fun i mem => by
      rw [isBarrier_of_isOperand (second.all i mem)]
      exact Bool.false_ne_true
    have later := ih'.frame free ([r].flatMap Var.temps : List Nat)
    rw [zero_add, add_comm, Multiset.coe_add, ← List.flatMap_append] at later
    exact ih.append later
  | binary op _ ih | shiftRight count _ ih | unary op _ ih =>
    exact ih.reads (by simp [IrInstr.uses])
  | @call t u code rs f _ ih =>
    exact (ih.append (HandsOn.params rs)).append (HandsOn.single (.call f u))

theorem HandsOn.quiet {i : IrInstr} (uses : i.uses = []) (dest : i.dest? = none) :
    HandsOn 0 [i] 0 := by
  have reads := HandsOn.single i
  rwa [uses, dest] at reads

theorem Emits.handsOn {c d : Counters} {code : List IrInstr} (h : Emits c code d) :
    HandsOn 0 code 0 := by
  induction h with
  | nil => exact .nil le_rfl
  | append _ _ first second => exact first.append second
  | eval operands => exact operands.handsOn.drop (Multiset.zero_le _)
  | store x operands | ret operands => exact operands.handsOn.reads (by simp [IrInstr.uses])
  | storeVal | retNone => exact .quiet rfl rfl
  | @branch t u l d e code thenCode elseCode r operands _ _ thenHands elseHands =>
    have test : HandsOn 0 (code ++ [.jmpf r l]) 0 :=
      operands.handsOn.reads (by simp [IrInstr.uses])
    have jump : HandsOn 0 [.jmp (l + 1)] 0 := .quiet rfl rfl
    have label : ∀ n, HandsOn 0 [.label n] 0 := fun n => .quiet rfl rfl
    simpa using (((test.append thenHands).append jump).append (label l)).append
      (elseHands.append (label (l + 1)))
  | @loop t u l d code body r operands _ hands =>
    have test : HandsOn 0 (code ++ [.jmpf r (l + 1)]) 0 :=
      operands.handsOn.reads (by simp [IrInstr.uses])
    have jump : HandsOn 0 [.jmp l] 0 := .quiet rfl rfl
    have label : ∀ n, HandsOn 0 [.label n] 0 := fun n => .quiet rfl rfl
    simpa using ((((label l).append test).append hands).append jump).append (label (l + 1))

theorem HandsOn.outer {code : List IrInstr} (outer : ∀ i ∈ code, i.isInner = false) :
    HandsOn 0 code 0 := by
  induction code with
  | nil => exact .nil le_rfl
  | cons i rest ih =>
    have here : HandsOn 0 [i] 0 := by
      have opens := outer i List.mem_cons_self
      cases i with
      | enter _ | leave _ | externDecl _ => exact .quiet rfl rfl
      | _ => cases opens
    exact here.append (ih fun j mem => outer j (List.mem_cons_of_mem i mem))

theorem programCode_handsOn (env : Env) {tab : SymbolTable} {sentences : List AstNode}
    (shape : ∀ node ∈ sentences, isSentence tab node = true) (c : Counters) :
    HandsOn 0 (programCode env tab sentences c).1 0 := by
  induction sentences generalizing c with
  | nil => exact .nil le_rfl
  | cons sentence rest ih =>
    obtain ⟨pre, code, post, eq, emits, outer⟩ :=
      sentenceCode_emits env (shape sentence List.mem_cons_self) c
    have opens := HandsOn.outer fun i mem => outer i (List.mem_append_left post mem)
    have closes := HandsOn.outer fun i mem => outer i (List.mem_append_right pre mem)
    rw [programCode, eq]
    exact ((opens.append emits.handsOn).append closes).append
      (ih (fun node mem => shape node (List.mem_cons_of_mem _ mem)) _)

theorem operand_text_iff {i : IrInstr} {op : NamePtr} (mem : op ∈ i.instr.operands) (n : Nat) :
    op.text tempText = tempText n ↔ op = .temp n := by
  constructor
  · intro same
    obtain ⟨m, rfl⟩ := operand_dollar mem (by rw [same]; rfl)
    rw [tempText_inj same]
  · rintro rfl
    rfl

theorem named_reg_iff (i : IrInstr) (n : Nat) :
    (i.named id).reg = some (tempText n) ↔ i.dest? = some n := by
  have named : (i.named id).reg = i.instr.reg.map (NamePtr.text tempText) := rfl
  rw [named, ← reg_temp]
  cases reg : i.instr.reg with
  | none => simp
  | some ptr =>
    have mem : ptr ∈ i.instr.operands := by simp [Instr.operands, reg]
    rw [Option.map_some, Option.some.injEq, operand_text_iff mem, Option.bind_some]
    cases ptr <;> simp [NamePtr.temp?]

theorem count_sources (code : List IrInstr) (n : Nat) :
    ((renamed id code).flatMap Instr.sources).count (tempText n) = (usedIn code).count n := by
  have plain : ∀ text, .str text ∈ code.flatMap (fun i => i.instr.sources) →
      ¬ startsWith '$' text = true := by
    intro text mem
    obtain ⟨i, here, inSources⟩ := List.mem_flatMap.mp mem
    exact operands_plain code text
      (List.mem_flatMap.mpr ⟨i, here, List.mem_append_left _ inSources⟩)
  have texts : (renamed id code).flatMap Instr.sources =
      (code.flatMap fun i => i.instr.sources).map (NamePtr.text (tempHeap id)) := by
    rw [renamed, List.flatMap_map, List.map_flatMap]
    exact congrArg code.flatMap (funext fun i => i.instr.sources_map _)
  rw [texts, count_text plain, List.map_id, List.filterMap_flatMap]
  exact congrArg (fun f => (code.flatMap f).count n) (funext sources_temps)

theorem mem_sources_iff (i : IrInstr) (n : Nat) :
    tempText n ∈ (i.named id).sources ↔ n ∈ i.uses := by
  have count := count_sources [i] n
  simp only [renamed, usedIn, List.map_singleton, List.flatMap_singleton] at count
  rw [← List.count_pos_iff, count, List.count_pos_iff]

section Straight

variable {code : List IrInstr} (hands : HandsOn 0 code 0) (nodup : (definedIn code).Nodup)
  {n w : Nat} {i : IrInstr} (here : code[w]? = some i) (dest : i.dest? = some n)

include hands nodup here dest

theorem read_behind {r : Nat} {i' : IrInstr} (at' : code[r]? = some i') (read : n ∈ i'.uses) :
    w < r ∧ ∀ k, w < k → k < r → ∀ j, code[k]? = some j → ¬ j.instr.instruct.isBarrier = true := by
  rcases hands.origin at' read with ⟨mem, -⟩ | ⟨w', lt, ⟨j, atW, writes⟩, free⟩
  · exact absurd mem (Multiset.notMem_zero n)
  · have written : j.dest? = some n := Option.mem_toList.mp writes
    obtain rfl := filterMap_nodup_inj nodup here atW dest written
    exact ⟨lt, free⟩

theorem straightLine : StraightLine (renamed id code) (tempText n) w := by
  have named : ∀ {k : Nat} {instr : Instr CString}, (renamed id code)[k]? = some instr →
      ∃ j, code[k]? = some j ∧ j.named id = instr := fun at' => by
    rwa [renamed, List.getElem?_map, Option.map_eq_some_iff] at at'
  refine ⟨fun k => ⟨fun writes => ?_, ?_⟩, ?_, ?_, ?_⟩
  · obtain ⟨instr, at', reg⟩ := Option.bind_eq_some_iff.mp writes
    obtain ⟨j, atK, rfl⟩ := named at'
    exact filterMap_nodup_inj nodup atK here ((named_reg_iff j n).mp reg) dest
  · rintro rfl
    rw [renamed, List.getElem?_map, here]
    exact (named_reg_iff i n).mpr dest
  · have reads := hands.count_reads_le n
    rw [← List.filterMap_eq_flatMap_toList, Multiset.count_zero, Nat.zero_add] at reads
    rw [count_sources]
    exact reads.trans (List.nodup_iff_count_le_one.mp nodup n)
  · rintro r ⟨instr, at', read⟩
    obtain ⟨j, atR, rfl⟩ := named at'
    exact (read_behind hands nodup here dest atR ((mem_sources_iff j n).mp read)).1
  · rintro r ⟨instr, at', read⟩ k between gt lt atK
    obtain ⟨j, atR, rfl⟩ := named at'
    obtain ⟨j', at'', rfl⟩ := named atK
    have free := (read_behind hands nodup here dest atR ((mem_sources_iff j n).mp read)).2
    exact Bool.eq_false_iff.mpr (free k gt lt j' at'')

end Straight

theorem exists_write {code : List IrInstr} (hands : HandsOn 0 code 0) {n : Nat}
    (mem : n ∈ occurrences code) : ∃ (w : Nat) (i : IrInstr), code[w]? = some i ∧
      i.dest? = some n := by
  obtain ⟨i, inCode, here⟩ := List.mem_flatMap.mp mem
  obtain ⟨r, at'⟩ := List.getElem?_of_mem inCode
  rcases List.mem_append.mp here with read | writes
  · rcases hands.origin at' read with ⟨none, -⟩ | ⟨w, -, ⟨j, atW, writes⟩, -⟩
    · exact absurd none (Multiset.notMem_zero n)
    · exact ⟨w, j, atW, Option.mem_toList.mp writes⟩
  · exact ⟨r, i, at', Option.mem_toList.mp writes⟩

theorem programCode_nodup (env : Env) {tab : SymbolTable} {sentences : List AstNode}
    (shape : ∀ node ∈ sentences, isSentence tab node = true) (c : Counters) :
    (definedIn (programCode env tab sentences c).1).Nodup := by
  obtain ⟨low, ranges⟩ := programCode_ranges env shape c (Nat.le_refl c.temp)
  rw [ranges.defined_eq]
  exact List.nodup_range'

section Programs

variable {env : Env} {tab : SymbolTable}

theorem genSentences_length {sentences : List AstNode}
    (shape : ∀ node ∈ sentences, isSentence tab node = true) :
    (genSentences env tab sentences resetCode).code.length =
      (programCode env tab sentences ⟨0, 0⟩).1.length := by
  rw [genSentences_eq env tab shape]
  simp only [GenState.append, resetCode, List.nil_append, List.length_map]
  rfl

theorem read_in_front {front after : List AstNode}
    (shape : ∀ node ∈ front ++ after, isSentence tab node = true) {c : Counters} {w r n : Nat}
    {i i' : IrInstr} (here : (programCode env tab (front ++ after) c).1[w]? = some i)
    (dest : i.dest? = some n) (at' : (programCode env tab (front ++ after) c).1[r]? = some i')
    (read : n ∈ i'.uses) (inside : w < (programCode env tab front c).1.length) :
    r < (programCode env tab front c).1.length := by
  by_contra behind
  have nodup := programCode_nodup env shape c
  simp only [programCode_append] at here at' nodup
  have hands := programCode_handsOn env
    (fun node mem => shape node (List.mem_append_right front mem))
    (programCode env tab front c).2
  rw [List.getElem?_append_right (Nat.le_of_not_lt behind)] at at'
  rcases hands.origin at' read with ⟨none, -⟩ | ⟨w', -, ⟨j, atW, writes⟩, -⟩
  · exact Multiset.notMem_zero n none
  · have later : ((programCode env tab front c).1 ++
        (programCode env tab after (programCode env tab front c).2).1)[
          (programCode env tab front c).1.length + w']? = some j := by
      rw [List.getElem?_append_right (Nat.le_add_right _ w'), Nat.add_sub_cancel_left]
      exact atW
    have same := filterMap_nodup_inj nodup here later dest (Option.mem_toList.mp writes)
    omega

variable {sentences : List AstNode} (shape : ∀ node ∈ sentences, isSentence tab node = true)
  {w n : Nat} {i : IrInstr} (here : (programCode env tab sentences ⟨0, 0⟩).1[w]? = some i)
  (dest : i.dest? = some n)

include shape here dest

/-- The method or the declaration that a temporary belongs to. -/
theorem read_place {r : Nat} {i' : IrInstr}
    (at' : (programCode env tab sentences ⟨0, 0⟩).1[r]? = some i') (read : n ∈ i'.uses) :
    (∃ e l f, InMethod (renamed id (programCode env tab sentences ⟨0, 0⟩).1) e l f ∧
        e < w ∧ r < l) ∨
      ∃ d : GlobalDecl sentences, d.start env tab ≤ w ∧ r < d.stop env tab := by
  have inner : i.isInner = true := by
    cases i with
    | enter _ | leave _ | externDecl _ => cases dest
    | _ => rfl
  rcases inner_place shape here inner with ⟨s, gt, lt⟩ | ⟨before, line, arity, left, right, after,
    d, split, place, inDecl⟩
  · refine .inl ⟨_, _, _, s.inMethod shape ⟨0, 0⟩ id, gt, ?_⟩
    have atLeave := s.at_leave env ⟨0, 0⟩
    by_contra behind
    rcases Nat.lt_or_eq_of_le (Nat.le_of_not_lt behind) with before | same
    · -- the LEAVE would stand between the two
      exact (read_behind (programCode_handsOn env shape ⟨0, 0⟩) (programCode_nodup env shape ⟨0, 0⟩)
        here dest at' read).2 _ lt before _ atLeave rfl
    · rw [same] at atLeave
      obtain rfl := Option.some.inj (atLeave.symm.trans at')
      cases read
  · let decl : GlobalDecl sentences := ⟨before, line, arity, left, right, after, split⟩
    have whole : sentences = (before ++ [decl.node]) ++ after := by
      rw [List.append_assoc]
      exact split
    have start : decl.start env tab = (programCode env tab before ⟨0, 0⟩).1.length :=
      genSentences_length fun node mem =>
        shape node (by rw [split]; exact List.mem_append_left _ mem)
    have stop : decl.stop env tab =
        (programCode env tab (before ++ [decl.node]) ⟨0, 0⟩).1.length :=
      genSentences_length fun node mem =>
        shape node (by rw [whole]; exact List.mem_append_left _ mem)
    have size := (List.getElem?_eq_some_iff.mp inDecl).1
    refine .inr ⟨decl, by omega, ?_⟩
    rw [stop]
    rw [whole] at shape here at'
    refine read_in_front shape here dest at' read ?_
    simp only [programCode_append, programCode, List.append_nil, List.length_append, sentenceCode]
    rw [place]
    exact Nat.add_lt_add_left size _

end Programs

/-- Every name that opens with `$` has one write, and at most one read behind it in
straight-line code: in the same method, or in the initialiser of the same global variable. -/
theorem temporaries_single_assignment (env : Env) {tab : SymbolTable} {sentences : List AstNode}
    (shape : ∀ node ∈ sentences, isSentence tab node = true) :
    let code := namedCode tempText (genSentences env tab sentences resetCode).code
    ∀ name ∈ code.flatMap Instr.operands, startsWith '$' name = true →
      ∃ w, StraightLine code name w ∧ ∀ r, ReadAt code name r →
        (∃ e l f, InMethod code e l f ∧ e < w ∧ r < l) ∨
          ∃ d : GlobalDecl sentences, d.start env tab ≤ w ∧ r < d.stop env tab := by
  intro code name mem dollar
  have hands := programCode_handsOn env shape ⟨0, 0⟩
  have nodup := programCode_nodup env shape ⟨0, 0⟩
  have emitted : code = renamed id (programCode env tab sentences ⟨0, 0⟩).1 := by
    rw [← namedCode_renamed env id _ (programCode env tab sentences ⟨0, 0⟩).2]
    exact congrArg (fun gen => namedCode tempText gen.code)
      (genSentences_eq env tab shape resetCode)
  clear_value code
  subst emitted
  obtain ⟨instr, inCode, operand⟩ := List.mem_flatMap.mp mem
  obtain ⟨i, inInstrs, rfl⟩ := List.mem_map.mp inCode
  rw [IrInstr.named, Instr.operands_map, List.mem_map] at operand
  obtain ⟨op, inOperands, rfl⟩ := operand
  obtain ⟨n, rfl⟩ := operand_dollar inOperands dollar
  have occurs : n ∈ occurrences (programCode env tab sentences ⟨0, 0⟩).1 := by
    refine List.mem_flatMap.mpr ⟨i, inInstrs, ?_⟩
    rw [← operands_temps]
    exact List.mem_filterMap.mpr ⟨_, inOperands, rfl⟩
  obtain ⟨w, j, here, dest⟩ := exists_write hands occurs
  refine ⟨w, straightLine hands nodup here dest, ?_⟩
  rintro r ⟨instr, at', read⟩
  rw [renamed, List.getElem?_map, Option.map_eq_some_iff] at at'
  obtain ⟨j', atR, rfl⟩ := at'
  exact read_place shape here dest atR ((mem_sources_iff j' n).mp read)

/-- `integer x = 5; integer main() { return x + 1; }`. -/
def globalSum : ProgramSyn :=
  let x : Ident := .of "x"
  [.varDecl ⟨1, .integer, x, some (.integerLiteral 1 5)⟩,
    .methodDecl ⟨2, some .integer, .of "main", [],
      some (.mk 2 [] (.cons
        (.returnExpr 2 (.binary 2 .plus (.id 2 x) (.integerLiteral 2 1))) .nil))⟩]

/-- The temporary of the initialiser is written and read in front of every method. -/
theorem temporaries_outside_methods :
    ∃ checked, frontEnd (.sample true) globalSum = .ok checked ∧
      let code := namedCode tempText (intermediateCode (.sample true) checked).code
      ¬ ∀ name ∈ code.flatMap Instr.operands, startsWith '$' name = true →
        ∃ w, StraightLine code name w ∧ ∀ r, ReadAt code name r →
          ∃ e l f, InMethod code e l f ∧ e < w ∧ r < l := by
  obtain ⟨checked, accepted⟩ := Fallible.isOk_iff.mp (by decide +kernel :
    (frontEnd (.sample true) globalSum).isOk = true)
  have facts : (frontEnd (.sample true) globalSum).toOption.map (fun c =>
      (namedCode tempText (intermediateCode (.sample true) c).code).take 2) =
        some [⟨.loadval, some "5".toList, none, some (tempText 0)⟩,
          ⟨.store, some (tempText 0), none, some "x".toList⟩] := by decide +kernel
  simp only [accepted, Except.toOption, Option.map_some, Option.some.injEq] at facts
  refine ⟨checked, accepted, fun stated => ?_⟩
  let code := namedCode tempText (intermediateCode (.sample true) checked).code
  have first : code[0]? = some ⟨.loadval, some "5".toList, none, some (tempText 0)⟩ := by
    rw [← List.getElem?_take_of_lt (Nat.succ_pos 1), facts]
    rfl
  have second : code[1]? = some ⟨.store, some (tempText 0), none, some "x".toList⟩ := by
    rw [← List.getElem?_take_of_lt (Nat.lt_succ_self 1), facts]
    rfl
  have occurs : tempText 0 ∈ code.flatMap Instr.operands :=
    List.mem_flatMap.mpr ⟨_, List.mem_of_getElem? first, by simp [Instr.operands]⟩
  obtain ⟨w, line, inside⟩ := stated (tempText 0) occurs rfl
  have write : 0 = w := (line.written 0).mp (by
    show code[0]?.bind Instr.reg = some (tempText 0)
    rw [first]
    rfl)
  obtain ⟨e, l, f, -, before, -⟩ := inside 1 ⟨_, second, by simp [Instr.sources]⟩
  omega

/-- `x + 1` is written at position 5 and read by the RET behind it. -/
theorem temporaries_single_assignment_sum :
    ∃ checked, frontEnd (.sample true) globalSum = .ok checked ∧
      let code := namedCode tempText (intermediateCode (.sample true) checked).code
      StraightLine code (tempText 2) 5 ∧ ReadAt code (tempText 2) 6 ∧
        ((∃ e l f, InMethod code e l f ∧ e < 5 ∧ 6 < l) ∨
          ∃ d : GlobalDecl checked.headAst,
            d.start (.sample true) checked.tab ≤ 5 ∧ 6 < d.stop (.sample true) checked.tab) := by
  obtain ⟨checked, accepted⟩ := Fallible.isOk_iff.mp (by decide +kernel :
    (frontEnd (.sample true) globalSum).isOk = true)
  have facts : (frontEnd (.sample true) globalSum).toOption.map (fun c =>
      ((namedCode tempText (intermediateCode (.sample true) c).code).drop 5).take 2) =
        some [⟨.add, some "x".toList, some (tempText 1), some (tempText 2)⟩,
          ⟨.ret, some (tempText 2), none, none⟩] := by decide +kernel
  simp only [accepted, Except.toOption, Option.map_some, Option.some.injEq] at facts
  let code := namedCode tempText (intermediateCode (.sample true) checked).code
  have sum : code[5]? = some ⟨.add, some "x".toList, some (tempText 1), some (tempText 2)⟩ := by
    have at' := congrArg (fun l : List (Instr CString) => l[0]?) facts
    rwa [List.getElem?_take_of_lt (Nat.succ_pos 1), List.getElem?_drop] at at'
  have ret : code[6]? = some ⟨.ret, some (tempText 2), none, none⟩ := by
    have at' := congrArg (fun l : List (Instr CString) => l[1]?) facts
    rwa [List.getElem?_take_of_lt (Nat.lt_succ_self 1), List.getElem?_drop] at at'
  have occurs : tempText 2 ∈ code.flatMap Instr.operands :=
    List.mem_flatMap.mpr ⟨_, List.mem_of_getElem? sum, by simp [Instr.operands]⟩
  obtain ⟨w, line, place⟩ := temporaries_single_assignment (.sample true)
    (frontEnd_compilable accepted).shape (tempText 2) occurs rfl
  have write : 5 = w := (line.written 5).mp (by
    show code[5]?.bind Instr.reg = some (tempText 2)
    rw [sum]
    rfl)
  have read : ReadAt code (tempText 2) 6 := ⟨_, ret, by simp [Instr.sources]⟩
  subst write
  exact ⟨checked, accepted, line, read, place 6 read⟩

end Ctds
