import ValueFlow.Value.Build

/-!
# Merging values

The value at a point where two paths meet.
-/

namespace ValueFlow.Value

/-- A variable takes up the dependencies of a value that wraps the same as it does. -/
def mergeVar (x : Symbol) (v : Value) (D : List Value) (source : Option Expr) (other : Value) :
    Except Fault Value :=
  match other with
  | .var y w E _ =>
    if x.same y && v.equals w then .ok (v.boundTo x (union D E) source)
    else join [.var x v D source, other]
  | .dependent w E =>
    if v.equals w then .ok (v.boundTo x (union D E) source)
    else join [.var x v D source, other]
  | _ => join [.var x v D source, other]

def mergeDependent (v : Value) (D : List Value) (other : Value) : Except Fault Value :=
  match other with
  | .dependent w E =>
    if v.equals w then .ok (v.dependingOn (union D E)) else join [.dependent v D, other]
  | _ => join [.dependent v D, other]

/-- Holds of provenance around exactly the value `w`. -/
def isWrappedBy (w : Value) : Value → Bool
  | .dependent v _ => w.equals v
  | .var _ v _ _ => w.equals v
  | _ => false

/-- A path that does not go on has no part in the result, a value absorbs what it wraps, provenance
of one wrapped value is united, and all else is joined. -/
def merge (a b : Value) : Except Fault Value :=
  if a.equals b then .ok a
  else if a.isNothing then .ok b
  else if b.isNothing then .ok a
  else if b.isWrappedBy a then .ok a
  else if a.isWrappedBy b then .ok b
  else
    match a, b with
    | .var x v D s, b => mergeVar x v D s b
    | a, .var x v D s => mergeVar x v D s a
    | .dependent v D, b => mergeDependent v D b
    | a, .dependent v D => mergeDependent v D a
    | a, b => join [a, b]

end ValueFlow.Value
