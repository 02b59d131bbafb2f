import DeclBridge.Source.TypeExpr
import DeclBridge.Table
import DeclBridge.Types.Kind

/-!
# Resolved types

Types with every name resolved.  A declared type is referred to by its `SymbolId`, package and name,
and not by its definition, so a type is a finite tree even where declarations refer to each other in
a circle.

## Identity and substitution

* `Ty.same` — structural identity.  Two fields are the same wherever they were declared, so the
  place of a field does not count.
* `Ty.subst` — replaces type parameters by name.
* `Ty.parts` — a type with all the types inside it.
-/

namespace DeclBridge

/-- What identifies a symbol: its package and its name.  Predeclared symbols have no package. -/
structure SymbolId where
  package : Option String
  name : String
deriving DecidableEq, Repr, Inhabited

/-- A field of a struct with a type of the form `α`. -/
structure Field (α : Type) where
  name : String
  type : α
  tag : String := ""
  embedded : Bool := false
  exported : Bool := true
  span : Span := {}
deriving Repr

inductive Ty where
  | basic (kind : Kind)
  | pointer (elem : Ty)
  | array (elem : Ty) (length : Int)
  | slice (elem : Ty)
  | map (key elem : Ty)
  | chan (elem : Ty) (dir : ChanDir)
  | func (params results : List Ty) (variadic : Bool)
  | struct (fields : List (Field Ty))
  | named (symbol : SymbolId) (args : List Ty)
  | aliased (symbol : SymbolId) (args : List Ty)
  | interface (embeds : List Ty) (methods : List String)
  | union (terms : List (Term Ty))
  /-- A type parameter of the declaration around it. -/
  | param (name : String) (index : Nat)
deriving Repr, Inhabited

namespace Ty

/-! ## Identity -/

mutual

def same : Ty → Ty → Bool
  | basic k, basic k' => k == k'
  | pointer e, pointer e' => e.same e'
  | array e n, array e' n' => e.same e' && n == n'
  | slice e, slice e' => e.same e'
  | map k e, map k' e' => k.same k' && e.same e'
  | chan e d, chan e' d' => e.same e' && d == d'
  | func ps rs v, func ps' rs' v' => sameAll ps ps' && sameAll rs rs' && v == v'
  | struct fs, struct fs' => sameFields fs fs'
  | named s args, named s' args' => s == s' && sameAll args args'
  | aliased s args, aliased s' args' => s == s' && sameAll args args'
  | interface es ms, interface es' ms' => sameAll es es' && ms == ms'
  | union ts, union ts' => sameTerms ts ts'
  | param n i, param n' i' => n == n' && i == i'
  | _, _ => false
termination_by structural t => t

def sameAll : List Ty → List Ty → Bool
  | [], [] => true
  | t :: ts, t' :: ts' => t.same t' && sameAll ts ts'
  | _, _ => false
termination_by structural ts => ts

def sameFields : List (Field Ty) → List (Field Ty) → Bool
  | [], [] => true
  | f :: fs, f' :: fs' => sameField f f' && sameFields fs fs'
  | _, _ => false
termination_by structural fs => fs

def sameField : Field Ty → Field Ty → Bool
  | ⟨n, t, tag, em, ex, _⟩, f' =>
    n == f'.name && t.same f'.type && tag == f'.tag && em == f'.embedded && ex == f'.exported
termination_by structural f => f

def sameTerms : List (Term Ty) → List (Term Ty) → Bool
  | [], [] => true
  | t :: ts, t' :: ts' => sameTerm t t' && sameTerms ts ts'
  | _, _ => false
termination_by structural ts => ts

def sameTerm : Term Ty → Term Ty → Bool
  | ⟨tilde, t⟩, t' => tilde == t'.tilde && t.same t'.type
termination_by structural t => t

end

/-- The types of a list without later repetitions. -/
def dedupe (types : List Ty) : List Ty :=
  types.foldl (fun kept t => if kept.any (t.same ·) then kept else kept ++ [t]) []

/-! ## Substitution -/

mutual

/-- The type with each parameter that `args` names replaced. -/
def subst (args : Table String Ty) : Ty → Ty
  | basic k => basic k
  | pointer e => pointer (e.subst args)
  | array e n => array (e.subst args) n
  | slice e => slice (e.subst args)
  | map k e => map (k.subst args) (e.subst args)
  | chan e d => chan (e.subst args) d
  | func ps rs v => func (substAll args ps) (substAll args rs) v
  | struct fs => struct (substFields args fs)
  | named s ts => named s (substAll args ts)
  | aliased s ts => aliased s (substAll args ts)
  | interface es ms => interface (substAll args es) ms
  | union ts => union (substTerms args ts)
  | param n i => (args.get? n).getD (param n i)
termination_by structural t => t

def substAll (args : Table String Ty) : List Ty → List Ty
  | [] => []
  | t :: ts => t.subst args :: substAll args ts
termination_by structural ts => ts

def substFields (args : Table String Ty) : List (Field Ty) → List (Field Ty)
  | [] => []
  | f :: fs => substField args f :: substFields args fs
termination_by structural fs => fs

def substField (args : Table String Ty) : Field Ty → Field Ty
  | ⟨n, t, tag, em, ex, span⟩ => ⟨n, t.subst args, tag, em, ex, span⟩
termination_by structural f => f

def substTerms (args : Table String Ty) : List (Term Ty) → List (Term Ty)
  | [] => []
  | t :: ts => substTerm args t :: substTerms args ts
termination_by structural ts => ts

def substTerm (args : Table String Ty) : Term Ty → Term Ty
  | ⟨tilde, t⟩ => ⟨tilde, t.subst args⟩
termination_by structural t => t

end

/-! ## Parts -/

mutual

def parts : Ty → List Ty
  | basic k => [basic k]
  | pointer e => pointer e :: e.parts
  | array e n => array e n :: e.parts
  | slice e => slice e :: e.parts
  | map k e => map k e :: (k.parts ++ e.parts)
  | chan e d => chan e d :: e.parts
  | func ps rs v => func ps rs v :: (partsAll ps ++ partsAll rs)
  | struct fs => struct fs :: partsFields fs
  | named s ts => named s ts :: partsAll ts
  | aliased s ts => aliased s ts :: partsAll ts
  | interface es ms => interface es ms :: partsAll es
  | union ts => union ts :: partsTerms ts
  | param n i => [param n i]
termination_by structural t => t

def partsAll : List Ty → List Ty
  | [] => []
  | t :: ts => t.parts ++ partsAll ts
termination_by structural ts => ts

def partsFields : List (Field Ty) → List Ty
  | [] => []
  | f :: fs => partsField f ++ partsFields fs
termination_by structural fs => fs

def partsField : Field Ty → List Ty
  | ⟨_, t, _, _, _, _⟩ => t.parts
termination_by structural f => f

def partsTerms : List (Term Ty) → List Ty
  | [] => []
  | t :: ts => partsTerm t ++ partsTerms ts
termination_by structural ts => ts

def partsTerm : Term Ty → List Ty
  | ⟨_, t⟩ => t.parts
termination_by structural t => t

end

/-- Whether a type is the kind of an untyped constant. -/
def isUntyped : Ty → Bool
  | basic k => k.isUntyped
  | _ => false

end Ty

end DeclBridge
