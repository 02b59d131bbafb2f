import DeclBridge.Number.Decimal
import DeclBridge.Text.Alphanumeric
import DeclBridge.Text.Lines

/-!
# Command-line arguments

A command takes options and at most one argument beside them.  A long option may be shortened as
long as one option alone begins so, its value may follow after an equals sign or as the next
argument, and short options may stand together after one dash.  After `--` nothing is an option any
more.

## Shape of reading

Each argument is first told apart (`Arg`), then they are taken in order.  Something that nobody
asked for does not end the reading at once, so a request for help after it is still heard.
-/

namespace DeclBridge.Command

inductive OptionKind where
  /-- Nothing: it is given or not. -/
  | flag
  | text
  | number
deriving DecidableEq, Repr

structure OptionSpec where
  /-- Its spellings, of which the first identifies it. -/
  spellings : List String
  kind : OptionKind := .flag
deriving DecidableEq, Repr

def OptionSpec.takesValue (o : OptionSpec) : Bool := o.kind ≠ .flag

inductive Positional where
  | none | optional | required
deriving DecidableEq, Repr

structure Signature where
  options : List OptionSpec
  positional : Positional
deriving Repr

def helpOption : OptionSpec := { spellings := ["--help", "-h"] }

structure Given where
  positional : Option String := none
  /-- The options in order, each by its first spelling and with its value. -/
  options : List (String × String) := []
deriving DecidableEq, Repr

inductive Misuse where
  /-- The arguments are not those of a command. -/
  | usage
  | help
deriving DecidableEq, Repr

/-- What is joined to an option in one argument. -/
inductive Joined where
  | nothing
  /-- A text after an equals sign. -/
  | value (text : String)
  /-- Letters after a short option. -/
  | tail (letters : List Char)
deriving DecidableEq, Repr

inductive Arg where
  | plain (text : String)
  | mark
  | option (spec : OptionSpec) (joined : Joined)
  /-- What looks like an option and is none. -/
  | unknown
  /-- What more than one option begins with. -/
  | ambiguous
deriving DecidableEq, Repr

/-! ## Telling arguments apart -/

def optionSpelled? (options : List OptionSpec) (spelling : String) : Option OptionSpec :=
  options.find? (spelling ∈ ·.spellings)

def splitValue (arg : String) : String × Joined :=
  let cs := arg.toList
  let before := cs.takeWhile (· ≠ '=')
  match cs.drop before.length with
  | _ :: after => (String.ofList before, .value (String.ofList after))
  | [] => (arg, .nothing)

/-- The options that an argument may mean, each with what is joined to it: a long option by the way
it begins, a short one with letters after it. -/
def beginningWith (options : List OptionSpec) (arg : String) : List Arg :=
  let all := options.flatMap fun o => o.spellings.map fun s => (o, s)
  if "--".toList.isPrefixOf arg.toList then
    let (start, joined) := splitValue arg
    all.filterMap fun (o, s) =>
      if start.toList.isPrefixOf s.toList then some (.option o joined) else none
  else
    all.filterMap fun (o, s) =>
      if s.toList = arg.toList.take 2 then some (.option o (.tail (arg.toList.drop 2)))
      else if arg.toList.isPrefixOf s.toList then some (.option o .nothing)
      else none

/-- Whether an argument is a negative number and so no option. -/
def isNegativeNumber (arg : String) : Bool :=
  -- a line break may follow the number
  let trimmed := match arg.toList.reverse with
    | '\n' :: rest => rest.reverse
    | _ => arg.toList
  match trimmed with
  | '-' :: cs =>
    let whole := cs.takeWhile Text.isDecimal
    match cs.drop whole.length with
    | [] => !whole.isEmpty
    | '.' :: fraction => !fraction.isEmpty && fraction.all Text.isDecimal
    | _ => false
  | _ => false

def classify (options : List OptionSpec) (arg : String) : Arg :=
  let unmatched :=
    if isNegativeNumber arg || ' ' ∈ arg.toList then Arg.plain arg else .unknown
  match arg.toList with
  | '-' :: _ :: _ =>
    match optionSpelled? options arg with
    | some o => .option o .nothing
    | none =>
      let (start, joined) := splitValue arg
      match optionSpelled? options start with
      | some o => .option o joined
      | none =>
        match beginningWith options arg with
        | [] => unmatched
        | [found] => found
        | _ => .ambiguous
  | _ => .plain arg

def classifyAll (options : List OptionSpec) : List String → List Arg
  | [] => []
  | arg :: rest =>
    if arg = "--" then .mark :: rest.map .plain
    else classify options arg :: classifyAll options rest

/-! ## Numbers -/

/-- Digits, between which single underscores may stand. -/
def digits? : List Char → Option (List Nat)
  | [] => none
  | [c] => (Text.decimalValue? c).map ([·])
  | c :: '_' :: rest => do
    let d ← Text.decimalValue? c
    return d :: (← digits? rest)
  | c :: rest => do
    let d ← Text.decimalValue? c
    return d :: (← digits? rest)

/-- The whole number that a text spells, with blanks around it and a sign in front. -/
def wholeNumber? (s : String) : Option Int := do
  let cs := s.toList.dropWhile Text.isBlank
  let cs := (cs.reverse.dropWhile Text.isBlank).reverse
  let (negative, cs) := match cs with
    | '-' :: cs => (true, cs)
    | '+' :: cs => (false, cs)
    | cs => (false, cs)
  let ds ← digits? cs
  if Number.digitLimit < ds.length then none
  else
    let n : Nat := ds.foldl (fun n d => n * 10 + d) 0
    return if negative then -(n : Int) else n

/-! ## Taking arguments -/

/-- The options that letters after a short option stand for, and whether a letter without an option
ends them.  Neither a dash nor an equals sign may follow one. -/
def cluster (options : List OptionSpec) : List Char → Except Misuse (List OptionSpec × Bool)
  | [] => .ok ([], false)
  | c :: rest =>
    if c = '-' ∨ c = '=' then .error .usage
    else
      match optionSpelled? options ("-" ++ String.singleton c) with
      | none => .ok ([], true)
      | some o => do
        let (others, excess) ← cluster options rest
        return (o :: others, excess)

structure Reading where
  given : Given := {}
  /-- Whether the argument beside the options may still come. -/
  expecting : Bool
  /-- Whether that argument was the last one read; the mark may then follow without effect. -/
  justTaken : Bool := false
  /-- The option whose value must come next. -/
  awaiting : Option OptionSpec := none
  /-- Whether something was given that the command does not take. -/
  excess : Bool := false

namespace Reading

/-- Takes an option; help is given at once, and a number must be one. -/
def addOption (r : Reading) (o : OptionSpec) (value : String) : Except Misuse Reading :=
  if o = helpOption then .error .help
  else if o.kind = .number ∧ (wholeNumber? value).isNone then .error .usage
  else .ok { r with given.options := r.given.options ++ [(o.spellings.headD "", value)] }

def addJoined (options : List OptionSpec) (r : Reading) (o : OptionSpec) :
    Joined → Except Misuse Reading
  | .nothing => if o.takesValue then .ok { r with awaiting := some o } else r.addOption o ""
  | .value text => if o.takesValue then r.addOption o text else .error .usage
  | .tail letters =>
    if o.takesValue then r.addOption o (String.ofList letters)
    else do
      let (others, excess) ← cluster options letters
      (o :: others).foldlM (fun r o => r.addOption o "") { r with excess := r.excess || excess }

def addPlain (r : Reading) (text : String) : Reading :=
  if r.expecting then
    { r with given.positional := some text, expecting := false, justTaken := true }
  else { r with excess := true }

/-- Takes an argument when no value is awaited. -/
def stepFree (options : List OptionSpec) (r : Reading) : Arg → Except Misuse Reading
  | .plain text => .ok (r.addPlain text)
  | .mark => .ok { r with excess := r.excess || !(r.expecting || r.justTaken) }
  | .option o joined => { r with justTaken := false }.addJoined options o joined
  | .unknown => .ok { r with justTaken := false, excess := true }
  | .ambiguous => .error .usage

def step (options : List OptionSpec) (r : Reading) (arg : Arg) : Except Misuse Reading :=
  match r.awaiting, arg with
  | none, arg => r.stepFree options arg
  | some o, .plain value => { r with awaiting := none }.addOption o value
  | some _, _ => .error .usage

end Reading

def Signature.read (signature : Signature) (args : List String) : Except Misuse Given := do
  let options := helpOption :: signature.options
  let forms := classifyAll options args
  if .ambiguous ∈ forms then .error .usage
  let r ← forms.foldlM (Reading.step options) { expecting := signature.positional ≠ .none }
  let missing := r.expecting && signature.positional = .required
  if r.excess || missing || r.awaiting.isSome then .error .usage
  else return r.given

/-- The value of an option, of several the last. -/
def Given.value? (g : Given) (spelling : String) : Option String :=
  (g.options.reverse.find? (·.1 = spelling)).map (·.2)

def Given.has (g : Given) (spelling : String) : Bool := (g.value? spelling).isSome

end DeclBridge.Command
