import HornLogic.Bindings.Basic

/-!
# Bindings as a substitution

Bindings stand for the substitution that replaces each bound variable by its value, again and again
until only variables without a value are left.  Bindings may be cyclic, which a unifier without
the occurs check can bring about; a variable met inside its own value is then left as it is.  The
variables that are being replaced are distinct and bound, so their number bounds the nesting of
replacements.
-/

namespace HornLogic

namespace Bindings

/-- The value of a variable with every variable in it resolved, except those in `expanding`, which
are being resolved already.  The first argument bounds the nesting of replacements. -/
def resolveWithin (bindings : Bindings) : Nat → List String → String → Term
  | 0, _, name => .var name
  | room + 1, expanding, name =>
      if name ∈ expanding then .var name
      else
        match bindings.get? name with
        | some value => value.subst (bindings.resolveWithin room (name :: expanding))
        | none => .var name

/-- The value of a variable with every variable in it resolved. -/
def resolve (bindings : Bindings) (name : String) : Term :=
  bindings.resolveWithin bindings.size [] name

end Bindings

/-- Replaces every bound variable of a term by its resolved value. -/
def Term.substitute (term : Term) (bindings : Bindings) : Term :=
  term.subst bindings.resolve

end HornLogic
