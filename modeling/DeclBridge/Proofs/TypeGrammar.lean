import DeclBridge.Proofs.TypeTokens

/-!
# The grammar of types

How tokens are read as a type of the output language.  `Reads` is the grammar, in which `[]` binds
tighter than `&` and `&` tighter than `|`.  What no type in the output has, such as function types,
is left out.

`Reads.unique` says that tokens have one reading at most.  It is proved with a machine that takes
one token after another: every derivation in the grammar is a run of it.
-/

namespace DeclBridge.TypeGrammar

open List

variable {ts : List Token} {T : TypeTree} {A : Alphabet} {text : Text}

/-! ## Trees -/

structure Member (α : Type) where
  name : Text
  optional : Bool
  type : α

/-- A type of the output language. -/
inductive TypeTree where
  | null
  /-- A type that the language has a word for. -/
  | keyword (word : Text)
  /-- The type with a name, which may be qualified, applied to arguments. -/
  | ref (path : List Text) (args : List TypeTree)
  | array (elem : TypeTree)
  /-- The object type with values of one type under all strings. -/
  | record (value : TypeTree)
  | object (members : List (Member TypeTree))
  | inter (types : List TypeTree)
  | union (types : List TypeTree)
deriving Inhabited

namespace TypeTree

/-- The intersection of types, which for one type is the type itself. -/
def meet : List TypeTree → TypeTree
  | [T] => T
  | Ts => .inter Ts

/-- The union of types, which for one type is the type itself. -/
def join : List TypeTree → TypeTree
  | [T] => T
  | Ts => .union Ts

/-- The types that a type is the union of. -/
def alternatives : TypeTree → List TypeTree
  | .union Ts => Ts
  | T => [T]

/-- The types that a type is the intersection of. -/
def conjuncts : TypeTree → List TypeTree
  | .inter Ts => Ts
  | T => [T]

/-- Neither a union nor an intersection. -/
def Single : TypeTree → Prop
  | .union _ | .inter _ => False
  | _ => True

end TypeTree

open TypeTree

/-! ## The grammar -/

def keywords : List Text :=
  ["any", "bigint", "boolean", "never", "number", "object", "string", "symbol", "undefined",
    "unknown", "void"].map .ofString

/-- The words that are no name of a type: the reserved words of the language, and those that begin
another form of type. -/
def reserved : List Text :=
  ["await", "break", "case", "catch", "class", "const", "continue", "debugger", "default",
    "delete", "do", "else", "enum", "export", "extends", "false", "finally", "for", "function",
    "if", "implements", "import", "in", "infer", "instanceof", "interface", "keyof", "let", "new",
    "null", "package", "private", "protected", "public", "readonly", "return", "static", "super",
    "switch", "this", "throw", "true", "try", "typeof", "unique", "var", "while", "with",
    "yield"].map .ofString

/-- The tokens before the type of the values in a record. -/
def recordHeader : List Token :=
  [.mark '[', .word "key", .word "in", .word "string", .mark ']', .mark ':']

def dotted (first : Text) (rest : List Text) : List Token :=
  .word first :: rest.flatMap fun w => [.mark '.', .word w]

/-- The tokens between the name of a property and its type. -/
def colon (optional : Bool) : List Token :=
  if optional then [.mark '?', .mark ':'] else [.mark ':']

/-- The forms that tokens have. -/
inductive Phrase where
  | primary | suffixed | inter | union | type | args | members

inductive Reading where
  | type (T : TypeTree)
  | types (Ts : List TypeTree)
  | members (ms : List (Member TypeTree))

inductive Reads : Phrase → List Token → Reading → Prop
  | null : Reads .primary [.word "null"] (.type .null)
  | keyword {w : Text} (hw : w ∈ keywords) : Reads .primary [.word w] (.type (.keyword w))
  | ref {w : Text} {ws : List Text} (hkeyword : w ∉ keywords) (hreserved : w ∉ reserved) :
      Reads .primary (dotted w ws) (.type (.ref (w :: ws) []))
  | applied {w : Text} {ws : List Text} {ts : List Token} {Ts : List TypeTree}
      (hkeyword : w ∉ keywords) (hreserved : w ∉ reserved) (h : Reads .args ts (.types Ts)) :
      Reads .primary (dotted w ws ++ .mark '<' :: ts ++ [.mark '>']) (.type (.ref (w :: ws) Ts))
  | paren {ts : List Token} {T : TypeTree} (h : Reads .type ts (.type T)) :
      Reads .primary (.mark '(' :: ts ++ [.mark ')']) (.type T)
  | record {ts : List Token} {T : TypeTree} (h : Reads .type ts (.type T)) :
      Reads .primary (.mark '\x7b' :: recordHeader ++ ts ++ [.mark '\x7d']) (.type (.record T))
  | empty : Reads .primary [.mark '\x7b', .mark '\x7d'] (.type (.object []))
  | object {ts : List Token} {ms : List (Member TypeTree)} (h : Reads .members ts (.members ms)) :
      Reads .primary (.mark '\x7b' :: ts ++ [.mark '\x7d']) (.type (.object ms))
  | plain {ts : List Token} {T : TypeTree} (h : Reads .primary ts (.type T)) :
      Reads .suffixed ts (.type T)
  | array {ts : List Token} {T : TypeTree} (h : Reads .suffixed ts (.type T)) :
      Reads .suffixed (ts ++ [.mark '[', .mark ']']) (.type (.array T))
  | inter {ts : List Token} {T : TypeTree} (h : Reads .suffixed ts (.type T)) :
      Reads .inter ts (.types [T])
  | and {ts us : List Token} {Ts : List TypeTree} {U : TypeTree} (h : Reads .inter ts (.types Ts))
      (h' : Reads .suffixed us (.type U)) :
      Reads .inter (ts ++ .mark '&' :: us) (.types (Ts ++ [U]))
  | union {ts : List Token} {Ts : List TypeTree} (h : Reads .inter ts (.types Ts)) :
      Reads .union ts (.types [meet Ts])
  | or {ts us : List Token} {Ts Us : List TypeTree} (h : Reads .union ts (.types Ts))
      (h' : Reads .inter us (.types Us)) :
      Reads .union (ts ++ .mark '|' :: us) (.types (Ts ++ [meet Us]))
  | type {ts : List Token} {Ts : List TypeTree} (h : Reads .union ts (.types Ts)) :
      Reads .type ts (.type (join Ts))
  | arg {ts : List Token} {T : TypeTree} (h : Reads .type ts (.type T)) :
      Reads .args ts (.types [T])
  | comma {ts us : List Token} {Ts : List TypeTree} {U : TypeTree} (h : Reads .args ts (.types Ts))
      (h' : Reads .type us (.type U)) : Reads .args (ts ++ .mark ',' :: us) (.types (Ts ++ [U]))
  | member {name : Text} {optional : Bool} {ts : List Token} {T : TypeTree}
      (h : Reads .type ts (.type T)) :
      Reads .members (.string name :: colon optional ++ ts) (.members [⟨name, optional, T⟩])
  | semicolon {name : Text} {optional : Bool} {ts us : List Token} {ms : List (Member TypeTree)}
      {U : TypeTree} (h : Reads .members ts (.members ms)) (h' : Reads .type us (.type U)) :
      Reads .members (ts ++ .mark ';' :: .string name :: colon optional ++ us)
        (.members (ms ++ [⟨name, optional, U⟩]))

/-- A text is read as a type. -/
def Alphabet.Reads (A : Alphabet) (text : Text) (T : TypeTree) : Prop :=
  ∃ ts, A.tokens text = some ts ∧ TypeGrammar.Reads .type ts (.type T)

/-! ## One reading at most -/

/-- A form that is not complete. -/
inductive Frame where
  | paren
  | args (path : List Text) (done : List TypeTree)
  | record
  | member (done : List (Member TypeTree)) (name : Text) (optional : Bool)

/-- What is complete of a type: some alternatives, and some conjuncts of the one after them. -/
structure Level where
  alternatives : List TypeTree := []
  conjuncts : List TypeTree := []

/-- The type that ends with a conjunct. -/
def Level.close (L : Level) (T : TypeTree) : TypeTree :=
  join (L.alternatives ++ [meet (L.conjuncts ++ [T])])

/-- What the machine has read last. -/
inductive Stage where
  /-- The beginning of an operand. -/
  | operand
  /-- A name, which may be qualified further or applied to arguments. -/
  | name (path : List Text)
  /-- The dot in a qualified name. -/
  | dot (path : List Text)
  /-- An operand. -/
  | complete (T : TypeTree)
  /-- A bracket behind an operand. -/
  | bracket (T : TypeTree)
  /-- The brace of a record or an object. -/
  | brace
  /-- Some of the tokens before the type of the values in a record. -/
  | header (left : List Token)
  /-- Some properties of an object. -/
  | member (done : List (Member TypeTree))
  /-- The name of a property. -/
  | label (done : List (Member TypeTree)) (name : Text)
  /-- The name of a property and the mark that it is optional. -/
  | optional (done : List (Member TypeTree)) (name : Text)

/-- The operand that is complete at a stage. -/
def Stage.value? : Stage → Option TypeTree
  | .name path => some (.ref path [])
  | .complete T => some T
  | _ => none

/-- A machine that reads tokens. -/
structure Machine where
  stage : Stage
  level : Level
  outer : List (Frame × Level)

namespace Machine

/-- The step on a mark behind an operand. -/
def follow (L : Level) (outer : List (Frame × Level)) (T : TypeTree) (c : Char) : Option Machine :=
  match c, outer with
  | '[', _ => some ⟨.bracket T, L, outer⟩
  | '&', _ => some ⟨.operand, ⟨L.alternatives, L.conjuncts ++ [T]⟩, outer⟩
  | '|', _ => some ⟨.operand, ⟨L.alternatives ++ [meet (L.conjuncts ++ [T])], []⟩, outer⟩
  | ')', (.paren, K) :: outer => some ⟨.complete (L.close T), K, outer⟩
  | ',', (.args path done, K) :: outer =>
    some ⟨.operand, {}, (.args path (done ++ [L.close T]), K) :: outer⟩
  | '>', (.args path done, K) :: outer =>
    some ⟨.complete (.ref path (done ++ [L.close T])), K, outer⟩
  | ';', (.member done name optional, K) :: outer =>
    some ⟨.member (done ++ [⟨name, optional, L.close T⟩]), K, outer⟩
  | '\x7d', (.member done name optional, K) :: outer =>
    some ⟨.complete (.object (done ++ [⟨name, optional, L.close T⟩])), K, outer⟩
  | '\x7d', (.record, K) :: outer => some ⟨.complete (.record (L.close T)), K, outer⟩
  | _, _ => none

def step (m : Machine) (t : Token) : Option Machine :=
  match m.stage, t with
  | .operand, .word w =>
    if w = "null" then some { m with stage := .complete .null }
    else if w ∈ keywords then some { m with stage := .complete (.keyword w) }
    else if w ∈ reserved then none
    else some { m with stage := .name [w] }
  | .operand, .mark '(' => some ⟨.operand, {}, (.paren, m.level) :: m.outer⟩
  | .operand, .mark '\x7b' => some { m with stage := .brace }
  | .name path, .mark '.' => some { m with stage := .dot path }
  | .name path, .mark '<' => some ⟨.operand, {}, (.args path [], m.level) :: m.outer⟩
  | .name path, .mark c => follow m.level m.outer (.ref path []) c
  | .dot path, .word w => some { m with stage := .name (path ++ [w]) }
  | .complete T, .mark c => follow m.level m.outer T c
  | .bracket T, .mark ']' => some { m with stage := .complete (.array T) }
  | .brace, .mark '\x7d' => some { m with stage := .complete (.object []) }
  | .brace, .mark '[' => some { m with stage := .header recordHeader.tail }
  | .brace, .string name => some { m with stage := .label [] name }
  | .header [t'], t => if t = t' then some ⟨.operand, {}, (.record, m.level) :: m.outer⟩ else none
  | .header (t' :: left), t => if t = t' then some { m with stage := .header left } else none
  | .member done, .string name => some { m with stage := .label done name }
  | .label done name, .mark '?' => some { m with stage := .optional done name }
  | .label done name, .mark ':' =>
    some ⟨.operand, {}, (.member done name false, m.level) :: m.outer⟩
  | .optional done name, .mark ':' =>
    some ⟨.operand, {}, (.member done name true, m.level) :: m.outer⟩
  | _, _ => none

def run (m : Machine) (ts : List Token) : Option Machine := ts.foldlM step m

variable {m m' : Machine} {t : Token} {ts us : List Token} {L K : Level}
  {outer : List (Frame × Level)} {s : Stage} {c : Char}

theorem run_append (h : m.run ts = some m') : m.run (ts ++ us) = m'.run us := by
  rw [run, foldlM_append]
  rw [run] at h
  rw [h]
  rfl

theorem run_cons (h : m.step t = some m') : m.run (t :: us) = m'.run us := by
  rw [run, foldlM_cons, h]
  rfl

/-- A name and any other operand go on alike, except for what belongs to the name. -/
theorem step_of_value (hs : s.value? = some T) (hdot : c ≠ '.') (hangle : c ≠ '<') :
    step ⟨s, L, outer⟩ (.mark c) = follow L outer T c := by
  cases s with
  | name path =>
    cases hs
    simp only [step]
  | complete U =>
    cases hs
    rfl
  | _ => cases hs

/-- The name of a property after others leads to its type. -/
theorem run_colon {name : Text} {optional : Bool} (done : List (Member TypeTree)) :
    run ⟨.member done, K, outer⟩ (.string name :: colon optional) =
      some ⟨.operand, {}, (.member done name optional, K) :: outer⟩ := by
  cases optional <;> rfl

/-- A qualified name is read to its end. -/
theorem run_dotted {w : Text} {ws : List Text} (hkeyword : w ∉ keywords)
    (hreserved : w ∉ reserved) :
    run ⟨.operand, L, outer⟩ (dotted w ws) = some ⟨.name (w :: ws), L, outer⟩ := by
  have hnull : w ≠ "null" := by
    rintro rfl
    exact hreserved (by decide)
  have hfirst : step ⟨.operand, L, outer⟩ (.word w) = some ⟨.name [w], L, outer⟩ := by
    simp [step, hnull, hkeyword, hreserved]
  -- the part of the name that has been read grows at its end
  have hrest : ∀ path, run ⟨.name path, L, outer⟩ (ws.flatMap fun w => [.mark '.', .word w]) =
      some ⟨.name (path ++ ws), L, outer⟩ := by
    clear hfirst hnull hkeyword hreserved
    induction ws with
    | nil =>
      intro path
      rw [append_nil]
      rfl
    | cons v ws ih =>
      intro path
      have hstep : run ⟨.name path, L, outer⟩ [.mark '.', .word v] =
          some ⟨.name (path ++ [v]), L, outer⟩ := rfl
      rw [flatMap_cons, run_append hstep, ih, append_assoc]
      rfl
  rw [dotted, run_cons hfirst, hrest]
  rfl

end Machine

/-- What the machine does on tokens that have a reading. -/
def Phrase.Runs : Phrase → List Token → Reading → Prop
  | .primary, ts, .type T | .suffixed, ts, .type T =>
    ∀ L outer, ∃ s, Machine.run ⟨.operand, L, outer⟩ ts = some ⟨s, L, outer⟩ ∧ s.value? = some T
  | .inter, ts, .types Ts =>
    ∀ alternatives outer, ∃ s conjuncts T,
      Machine.run ⟨.operand, ⟨alternatives, []⟩, outer⟩ ts =
        some ⟨s, ⟨alternatives, conjuncts⟩, outer⟩ ∧
      s.value? = some T ∧ Ts = conjuncts ++ [T]
  | .union, ts, .types Ts =>
    ∀ outer, ∃ s L T, Machine.run ⟨.operand, {}, outer⟩ ts = some ⟨s, L, outer⟩ ∧
      s.value? = some T ∧ Ts = L.alternatives ++ [meet (L.conjuncts ++ [T])]
  | .type, ts, .type T =>
    ∀ outer, ∃ s L U, Machine.run ⟨.operand, {}, outer⟩ ts = some ⟨s, L, outer⟩ ∧
      s.value? = some U ∧ T = L.close U
  | .args, ts, .types Ts =>
    ∀ path K outer, ∃ s L T done,
      Machine.run ⟨.operand, {}, (.args path [], K) :: outer⟩ ts =
        some ⟨s, L, (.args path done, K) :: outer⟩ ∧
      s.value? = some T ∧ Ts = done ++ [L.close T]
  | .members, ts, .members ms =>
    ∀ K outer, ∃ s L T done name optional,
      Machine.run ⟨.brace, K, outer⟩ ts =
        some ⟨s, L, (.member done name optional, K) :: outer⟩ ∧
      s.value? = some T ∧ ms = done ++ [⟨name, optional, L.close T⟩]
  | _, _, _ => False

/-- Every derivation is a run of the machine. -/
theorem Reads.runs {phrase : Phrase} {reading : Reading}
    (h : Reads phrase ts reading) : phrase.Runs ts reading := by
  open Machine in
  induction h with
  | null =>
    intro L outer
    exact ⟨.complete .null, rfl, rfl⟩
  | @keyword w hw =>
    intro L outer
    refine ⟨.complete (.keyword w), ?_, rfl⟩
    have hnull : w ≠ "null" := by
      rintro rfl
      exact absurd hw (by decide)
    refine run_cons ?_
    simp [step, hnull, hw]
  | @ref w ws hkeyword hreserved =>
    intro L outer
    exact ⟨.name (w :: ws), run_dotted hkeyword hreserved, rfl⟩
  | @applied w ws ts Ts hkeyword hreserved _ ih =>
    intro L outer
    obtain ⟨s, L', T, done, hrun, hs, rfl⟩ := ih (w :: ws) L outer
    refine ⟨.complete (.ref (w :: ws) (done ++ [L'.close T])), ?_, rfl⟩
    rw [append_assoc, run_append (run_dotted hkeyword hreserved), cons_append,
      run_cons rfl, run_append hrun]
    exact run_cons (step_of_value hs (by decide) (by decide))
  | paren _ ih =>
    intro L outer
    obtain ⟨s, L', T, hrun, hs, rfl⟩ := ih ((.paren, L) :: outer)
    refine ⟨.complete (L'.close T), ?_, rfl⟩
    rw [cons_append, run_cons rfl, run_append hrun]
    exact run_cons (step_of_value hs (by decide) (by decide))
  | record _ ih =>
    intro L outer
    obtain ⟨s, L', T, hrun, hs, rfl⟩ := ih ((.record, L) :: outer)
    refine ⟨.complete (.record (L'.close T)), ?_, rfl⟩
    have hheader : run ⟨.operand, L, outer⟩ (.mark '\x7b' :: recordHeader) =
        some ⟨.operand, {}, (.record, L) :: outer⟩ := rfl
    rw [append_assoc, run_append hheader, run_append hrun]
    exact run_cons (step_of_value hs (by decide) (by decide))
  | empty =>
    intro L outer
    exact ⟨.complete (.object []), rfl, rfl⟩
  | object _ ih =>
    intro L outer
    obtain ⟨s, L', T, done, name, optional, hrun, hs, rfl⟩ := ih L outer
    refine ⟨.complete (.object (done ++ [⟨name, optional, L'.close T⟩])), ?_, rfl⟩
    rw [cons_append, run_cons rfl, run_append hrun]
    exact run_cons (step_of_value hs (by decide) (by decide))
  | plain _ ih => exact ih
  | @array ts T _ ih =>
    intro L outer
    obtain ⟨s, hrun, hs⟩ := ih L outer
    refine ⟨.complete (.array T), ?_, rfl⟩
    rw [run_append hrun, run_cons (step_of_value hs (by decide) (by decide))]
    rfl
  | @inter ts T _ ih =>
    intro alternatives outer
    obtain ⟨s, hrun, hs⟩ := ih ⟨alternatives, []⟩ outer
    exact ⟨s, [], T, hrun, hs, rfl⟩
  | @and ts us Ts U _ _ ih ih' =>
    intro alternatives outer
    obtain ⟨s, conjuncts, T, hrun, hs, rfl⟩ := ih alternatives outer
    obtain ⟨s', hrun', hs'⟩ := ih' ⟨alternatives, conjuncts ++ [T]⟩ outer
    refine ⟨s', conjuncts ++ [T], U, ?_, hs', rfl⟩
    rw [run_append hrun, run_cons (step_of_value hs (by decide) (by decide))]
    exact hrun'
  | union _ ih =>
    intro outer
    obtain ⟨s, conjuncts, T, hrun, hs, rfl⟩ := ih [] outer
    exact ⟨s, ⟨[], conjuncts⟩, T, hrun, hs, rfl⟩
  | or _ _ ih ih' =>
    intro outer
    obtain ⟨s, L, T, hrun, hs, rfl⟩ := ih outer
    obtain ⟨s', conjuncts, U, hrun', hs', rfl⟩ :=
      ih' (L.alternatives ++ [meet (L.conjuncts ++ [T])]) outer
    refine ⟨s', ⟨L.alternatives ++ [meet (L.conjuncts ++ [T])], conjuncts⟩, U, ?_, hs', rfl⟩
    rw [run_append hrun, run_cons (step_of_value hs (by decide) (by decide))]
    exact hrun'
  | type _ ih =>
    intro outer
    obtain ⟨s, L, T, hrun, hs, rfl⟩ := ih outer
    exact ⟨s, L, T, hrun, hs, rfl⟩
  | arg _ ih =>
    intro path K outer
    obtain ⟨s, L, T, hrun, hs, rfl⟩ := ih ((.args path [], K) :: outer)
    exact ⟨s, L, T, [], hrun, hs, rfl⟩
  | comma _ _ ih ih' =>
    intro path K outer
    obtain ⟨s, L, T, done, hrun, hs, rfl⟩ := ih path K outer
    obtain ⟨s', L', U, hrun', hs', rfl⟩ := ih' ((.args path (done ++ [L.close T]), K) :: outer)
    refine ⟨s', L', U, done ++ [L.close T], ?_, hs', rfl⟩
    rw [run_append hrun, run_cons (step_of_value hs (by decide) (by decide))]
    exact hrun'
  | @member name optional _ _ _ ih =>
    intro K outer
    obtain ⟨s, L, T, hrun, hs, rfl⟩ := ih ((.member [] name optional, K) :: outer)
    refine ⟨s, L, T, [], name, optional, ?_, hs, rfl⟩
    have hcolon : run ⟨.brace, K, outer⟩ (.string name :: colon optional) =
        some ⟨.operand, {}, (.member [] name optional, K) :: outer⟩ := by
      cases optional <;> rfl
    rw [run_append hcolon, hrun]
  | @semicolon name optional _ _ _ _ _ _ ih ih' =>
    intro K outer
    obtain ⟨s, L, T, done, name', optional', hrun, hs, rfl⟩ := ih K outer
    obtain ⟨s', L', U, hrun', hs', rfl⟩ :=
      ih' ((.member (done ++ [⟨name', optional', L.close T⟩]) name optional, K) :: outer)
    refine ⟨s', L', U, _, name, optional, ?_, hs', rfl⟩
    rw [append_assoc, run_append hrun, cons_append,
      run_cons (step_of_value hs (by decide) (by decide))]
    exact (run_append (run_colon _)).trans hrun'

theorem Reads.unique {T' : TypeTree} (h : Reads .type ts (.type T))
    (h' : Reads .type ts (.type T')) : T = T' := by
  obtain ⟨s, L, U, hrun, hs, rfl⟩ := h.runs []
  obtain ⟨s', L', U', hrun', hs', rfl⟩ := h'.runs []
  cases hrun.symm.trans hrun'
  cases hs.symm.trans hs'
  rfl

theorem Alphabet.not_reads
    (htokens : A.tokens text = some ts) (h : Machine.run ⟨.operand, {}, []⟩ ts = none) :
    ¬ A.Reads text T := by
  rintro ⟨us, hus, hreads⟩
  cases htokens.symm.trans hus
  obtain ⟨s, L, U, hrun, -, -⟩ := hreads.runs []
  cases h.symm.trans hrun

theorem Alphabet.Reads.unique {T' : TypeTree} (h : A.Reads text T)
    (h' : A.Reads text T') : T = T' := by
  obtain ⟨ts, hts, hT⟩ := h
  obtain ⟨ts', hts', hT'⟩ := h'
  cases hts.symm.trans hts'
  exact hT.unique hT'

end DeclBridge.TypeGrammar
