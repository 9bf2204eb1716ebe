import ValueFlow.Value.Marked

/-!
# Building values

The three constructors that keep values in shape. Dependencies do not pile up in layers and are
never empty, a variable does not depend on itself, and a phi has at least two members and none that
is a phi.
-/

namespace ValueFlow.Value

/-- A value that depends on others. -/
def dependingOn (v : Value) (deps : List Value) : Value :=
  match distinct deps with
  | [] => v
  | D =>
    match v with
    | .dependent w E => .dependent w (union E D)
    | v => .dependent v D

/-- A variable of a given symbol. -/
def isVarOf (x : Symbol) : Value → Bool
  | .var y _ _ _ => y.same x
  | _ => false

def without (x : Symbol) (deps : List Value) : List Value :=
  distinct (deps.filter fun d => !d.isVarOf x)

/-- The value `v` bound to `x`. The variables of `x` are taken out of the dependencies and out of
those of `v`, so that `x = x + 1` does not make `x` depend on itself. -/
def boundTo : (v : Value) → (x : Symbol) → (deps : List Value) → (source : Option Expr) → Value
  | .var y w E s, x, deps, source =>
    let D := without x deps
    if y.same x then
      if equalSets D E && source.isNone then .var y w E s
      else .var x w (union D (without x E)) (source <|> s)
    else .var x (w.boundTo y (without x E) s) D source
  | .dependent w E, x, deps, source =>
    .var x (w.dependingOn (without x E)) (without x deps) source
  | v, x, deps, source => .var x v (without x deps) source

/-- The members of the phis in a list, and what else is in it. -/
def flatten (vs : List Value) : List Value :=
  vs.flatMap fun
    | .phi members => members
    | v => [v]

/-- The join of two or more distinct values. -/
def join (vs : List Value) : Except Fault Value :=
  match distinct (flatten vs) with
  | [] => .error .phiArity
  | [_] => .error .phiArity
  | members => .ok (.phi members)

/-- What a value was computed from. -/
def deps : Value → List Value
  | .dependent _ D => D
  | .var _ _ D _ => D
  | .phi members => depsOfAll members
  | _ => []
where
  depsOfAll : List Value → List Value
    | [] => []
    | v :: vs => union v.deps (depsOfAll vs)

/-- What a value hands on to all that is computed from it: a variable hands on itself too. -/
def provenance : Value → List Value
  | .var x v D source => union D [.var x v D source]
  | .dependent _ D => D
  | _ => []

end ValueFlow.Value
