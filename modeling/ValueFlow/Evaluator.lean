import ValueFlow.Dialects

/-!
# Evaluation

The value of an expression and the state after it, for a state before it. States are threaded from
left to right; where paths part, each starts from the same state, and where they meet, their
outcomes are merged. A path that does not go on has the value `nothing`, and ends what it is part
of.
-/

namespace ValueFlow

structure Options where
  /-- Report every node as it is evaluated. -/
  trace : Bool
  /-- The language of nodes that name none. -/
  defaultLanguage : String

def Options.standard : Options := ⟨false, Dialects.defaultLanguage⟩

/-- Integers are reduced to 64 bits; of texts only characters are known. -/
def Literal.eval (isChar : Bool) : Literal → Value
  | .null => .null
  | .bool b => .bool b
  | .int n => .int (Word.wrap n)
  | .double x => .double x
  | .text s => if isChar then (Value.ofCharacter s).toOption.getD .undetermined else .undetermined
  | .unit => .undetermined

structure Evaluator where
  dialects : Dialects
  options : Options

namespace Evaluator

def dialectFor (ev : Evaluator) (language : Option String) : Traced Dialect :=
  ev.dialects.get (orElse (language.getD "") ev.options.defaultLanguage)

/-- Reports a node once it is evaluated. -/
def report (ev : Evaluator) (e : Expr) (run : Traced Outcome) : Traced Outcome := do
  let o ← run
  if ev.options.trace then Traced.emit (.evaluated e (← o.value.text))
  return o

/-- Binds the value of `source` to the target, if there is one. -/
def assign (target : Option Symbol) (source : Expr) (o : Outcome) : Outcome :=
  if o.isReachable then
    match target with
    | none => ⟨.undetermined, o.state⟩
    | some x => ⟨.undetermined, o.state.assign x o.value (some source)⟩
  else ⟨.nothing, o.state⟩

/-- A known condition chooses a branch. -/
def choose (condition : Value) (thenOutcome elseOutcome : Outcome) : Except Fault Outcome :=
  match condition.coreConstant? with
  | some (.bool b) => .ok (if b then thenOutcome else elseOutcome)
  | _ => thenOutcome.merge elseOutcome

/-- The operators that mean the same in every language, and those that a dialect gives meaning. -/
def applyBinary (ev : Evaluator) (op : BinaryOp) (language : Option String) (left right : Value)
    (s : State) (target : Option Symbol) : Traced Outcome :=
  match op with
  | .plus => do return ⟨← Arithmetic.plus left right, s⟩
  | .minus => do return ⟨← Arithmetic.minus left right, s⟩
  | op => do
    let d ← ev.dialectFor language
    d.evalBinary op left right s target

mutual

def eval (ev : Evaluator) : Expr → State → Traced Outcome
  | e@(.literal _ value isChar), s => ev.report e <| pure ⟨value.eval isChar, s⟩
  | e@(.classLiteral _ none), s => ev.report e <| pure ⟨.undetermined, s⟩
  | e@(.classLiteral _ (some name)), s => ev.report e <| pure ⟨.const (.typeLiteral name), s⟩
  | e@(.ret ..), s => ev.report e <| pure ⟨.nothing, s⟩
  | e@(.brk ..), s => ev.report e <| pure ⟨.nothing, s⟩
  | e@(.cont ..), s => ev.report e <| pure ⟨.nothing, s⟩
  | e@(.raise ..), s => ev.report e <| pure ⟨.nothing, s⟩
  | e@(.reference _ _ none), s => ev.report e <| pure ⟨.external (.node e), s⟩
  | e@(.reference _ _ (some (.decl x))), s => ev.report e <| pure ⟨s.lookup (.decl x), s⟩
  | e@(.reference _ _ (some (.entry c))), s => ev.report e <| pure ⟨.const (.entry c), s⟩
  | e@(.qualified _ receiver selector _ language), s => ev.report e do
    let r ← ev.eval receiver s
    if r.isReachable then
      let o ← ev.eval selector r.state
      let d ← ev.dialectFor language
      return d.evalQualified o
    else return r
  | e@(.call _ _ args), s => ev.report e <| ev.evalArgs (.external (.node e)) args s
  | e@(.binary _ left .assign right _), s => ev.report e do
    return assign left.target? right (← ev.eval right s)
  | e@(.binary _ left op right language), s => ev.report e do
    let l ← ev.eval left s
    if l.isReachable then
      let r ← ev.eval right l.state
      ev.applyBinary op language l.value r.value r.state left.target?
    else return ⟨.nothing, l.state⟩
  | e@(.prefixed _ op operand language), s => ev.report e do
    let o ← ev.eval operand s
    if o.isReachable then
      let d ← ev.dialectFor language
      d.evalPrefix op o.value o.state operand.target?
    else return o
  | e@(.postfixed _ operand op language), s => ev.report e do
    let o ← ev.eval operand s
    if o.isReachable then
      let d ← ev.dialectFor language
      d.evalPostfix op o.value o.state operand.target?
    else return o
  | e@(.cond _ condition thenBranch elseBranch _), s => ev.report e do
    let c ← ev.eval condition s
    let t ← ev.evalBranch thenBranch c.state
    let f ← ev.evalBranch elseBranch c.state
    choose c.value t f
  | e@(.block _ body), s => ev.report e <| ev.evalBlock body ⟨.undetermined, s⟩
  | e@(.declare _ _ none), s => ev.report e <| pure ⟨.undetermined, s⟩
  | e@(.declare _ target (some init)), s => ev.report e do
    return assign (some target) init (← ev.eval init s)
  | e@(.paren _ inner), s => ev.report e <| ev.eval inner s
  | e@(.unmodelled ..), s => ev.report e <| pure ⟨.undetermined, s⟩
  | .foreign what, _ => .fail (.unexpected what.label)

/-- An absent branch leaves the state as it is. -/
def evalBranch (ev : Evaluator) : Option Expr → State → Traced Outcome
  | none, s => pure ⟨.undetermined, s⟩
  | some e, s => ev.eval e s

/-- Evaluates arguments in order, up to one from which control does not return. -/
def evalArgs (ev : Evaluator) (result : Value) : List Expr → State → Traced Outcome
  | [], s => pure ⟨result, s⟩
  | arg :: args, s => do
    let o ← ev.eval arg s
    if o.isReachable then ev.evalArgs result args o.state else return ⟨.nothing, o.state⟩

/-- Evaluates a sequence, up to an expression from which control does not return. -/
def evalBlock (ev : Evaluator) : List Expr → Outcome → Traced Outcome
  | [], last => pure last
  | e :: es, last => do
    let o ← ev.eval e last.state
    if o.isReachable then ev.evalBlock es o else return o

end

end Evaluator

end ValueFlow
