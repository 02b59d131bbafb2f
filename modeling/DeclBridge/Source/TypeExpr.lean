import DeclBridge.Source.Expr

/-!
# Type expressions

Types as they are written.  Every node carries the place of its first token, and parentheses leave
no node.  Of an interface's methods only the names are kept, and of a parameter list only the types.

`TypeExpr.check` refuses what is written correctly and has no meaning: a literal that spells no
value, in an array length or a field tag, and an embedded field with type arguments.  The walk
visits a field's tag before its type and an array's length before its elements, so the first cause
in that order is the one reported.
-/

namespace DeclBridge

inductive ChanDir where
  | both | send | recv
deriving DecidableEq, Repr, Inhabited

/-- A term of a union: a type, or with a tilde all types that have it as their underlying type. -/
structure Term (α : Type) where
  tilde : Bool
  type : α
deriving DecidableEq, Repr

structure EmbeddedName where
  pos : Position
  package : Option String
  name : String
  /-- Whether type arguments follow. -/
  generic : Bool
deriving DecidableEq, Repr

/-- A line of a struct, with types of the form `α`. -/
inductive FieldDecl (α : Type) where
  | named (pos : Position) (names : List String) (type : α) (tag : Option Literal)
  | embedded (pos : Position) (pointer : Bool) (type : EmbeddedName) (tag : Option Literal)
deriving DecidableEq, Repr

inductive TypeExpr where
  | ref (pos : Position) (package : Option String) (name : String) (args : List TypeExpr)
  | pointer (pos : Position) (elem : TypeExpr)
  | array (pos : Position) (length : Expr) (elem : TypeExpr)
  | slice (pos : Position) (elem : TypeExpr)
  | map (pos : Position) (key elem : TypeExpr)
  | chan (pos : Position) (dir : ChanDir) (elem : TypeExpr)
  | func (pos : Position) (params results : List TypeExpr) (variadic : Bool)
  | struct (pos : Position) (fields : List (FieldDecl TypeExpr))
  | interface (pos : Position) (embeds : List TypeExpr) (methods : List String)
  | union (pos : Position) (terms : List (Term TypeExpr))
deriving Repr, Inhabited

namespace TypeExpr

def checkTag (tag : Option Literal) : Except Refusal Unit :=
  match tag with
  | some l => l.stringValue.map fun _ => ()
  | none => .ok ()

mutual

def check : TypeExpr → Except Refusal Unit
  | ref _ _ _ args => checkAll args
  | pointer _ elem => elem.check
  | array _ length elem => do
    length.check
    elem.check
  | slice _ elem => elem.check
  | map _ key elem => do
    key.check
    elem.check
  | chan _ _ elem => elem.check
  | func _ params results _ => do
    checkAll params
    checkAll results
  | struct _ fields => checkFields fields
  | interface _ embeds _ => checkAll embeds
  | union _ terms => checkTerms terms
termination_by structural t => t

def checkAll : List TypeExpr → Except Refusal Unit
  | [] => .ok ()
  | t :: rest => do
    t.check
    checkAll rest
termination_by structural ts => ts

def checkFields : List (FieldDecl TypeExpr) → Except Refusal Unit
  | [] => .ok ()
  | f :: rest => do
    checkField f
    checkFields rest
termination_by structural fs => fs

def checkField : FieldDecl TypeExpr → Except Refusal Unit
  | .named _ _ t tag => do
    checkTag tag
    t.check
  | .embedded p _ n tag => do
    checkTag tag
    if n.generic then .error (.invalid (.embeddedGeneric n.name p)) else .ok ()
termination_by structural f => f

def checkTerms : List (Term TypeExpr) → Except Refusal Unit
  | [] => .ok ()
  | t :: rest => do
    checkTerm t
    checkTerms rest
termination_by structural ts => ts

def checkTerm : Term TypeExpr → Except Refusal Unit
  | ⟨_, t⟩ => t.check
termination_by structural t => t

end

end TypeExpr

end DeclBridge
