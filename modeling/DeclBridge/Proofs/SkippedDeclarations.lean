import DeclBridge.Source.TokenStream
import Mathlib.Algebra.Order.Ring.Int

/-!
# Declarations that are left out

The pass that leaves out `func` and `var` declarations keeps a bracket depth and two marks, and it
never looks at a declaration as a whole.  On a sequence of declarations it works as if it did: what
comes out is the sequence without some of its members.

A `TopLevel` is a declaration with its semicolon, as the pass can meet it: its brackets are balanced
and no other semicolon stands outside of them.  The depth of the pass is then the number of brackets
that are open (`depthAfter_eq`), so the pass is through with a declaration exactly at its semicolon,
in the state it began with (`skipFrom_topLevel`).
-/

namespace DeclBridge

open List

variable {depth : Nat} {t : Token} {dialect : Dialect} {ts : List Token}

/-- Only words are spelled `func` or `var`. -/
def Token.Spelled (t : Token) : Prop :=
  TokenStream.beginsSkipped t = true → t.kind = .name ∨ ∃ k, t.kind = .keyword k

namespace TokenStream

/-! ## Brackets -/

/-- What a token does to the number of open brackets. -/
def delta (t : Token) : Int :=
  match t.kind with
  | .mark .lpar | .mark .lsqb | .mark .lbrace => 1
  | .mark .rpar | .mark .rsqb | .mark .rbrace => -1
  | _ => 0

/-- Opening brackets minus closing brackets. -/
def net (ts : List Token) : Int := (ts.map delta).sum

@[simp] theorem net_nil : net [] = 0 := rfl

@[simp] theorem net_cons (t : Token) (ts : List Token) : net (t :: ts) = delta t + net ts := by
  simp [net]

theorem delta_of_semicolon (h : t.kind = .semicolon) : delta t = 0 := by
  rw [delta, h]

theorem depthAfter_of_spelled (h : t.Spelled)
    (hskipped : beginsSkipped t = true) : depthAfter depth t.kind = depth := by
  rcases h hskipped with hkind | ⟨k, hkind⟩ <;> rw [hkind] <;> rfl

/-- As long as no bracket is closed that is not open, the depth counts the open ones. -/
theorem depthAfter_eq (h : 0 ≤ depth + delta t) :
    (depthAfter depth t.kind : Int) = depth + delta t := by
  unfold delta at h ⊢
  unfold depthAfter
  split <;> simp_all <;> omega

/-! ## Declarations -/

/-- The rest of a declaration without its semicolon, where `depth` brackets are open: they are all
closed in it, none is closed that is not open, and no semicolon stands outside of brackets. -/
structure Closes (depth : Nat) (ts : List Token) : Prop where
  nested : ∀ before, before <+: ts → 0 ≤ depth + net before
  balanced : depth + net ts = 0
  inside : ∀ before t, before ++ [t] <+: ts → t.kind = .semicolon → depth + net before ≠ 0

/-- A declaration with its semicolon. -/
structure TopLevel where
  body : List Token
  semicolon : Token
  kind_semicolon : semicolon.kind = .semicolon
  closes : Closes 0 body
  spelled : ∀ t ∈ body ++ [semicolon], t.Spelled

namespace TopLevel

def tokens (d : TopLevel) : List Token := d.body ++ [d.semicolon]

/-- Whether the first token of a declaration is `func` or `var`. -/
def isSkipped (d : TopLevel) : Bool := d.tokens.head?.any beginsSkipped

end TopLevel

theorem Closes.tail (h : Closes depth (t :: ts)) : Closes (depthAfter depth t.kind) ts ∧
      (t.kind = .semicolon → depthAfter depth t.kind ≠ 0) := by
  have hdepth : (depthAfter depth t.kind : Int) = depth + delta t := by
    refine depthAfter_eq ?_
    simpa using h.nested [t] ⟨ts, rfl⟩
  refine ⟨⟨fun before hbefore => ?_, ?_, fun before t' hbefore hkind => ?_⟩, fun hkind => ?_⟩
  · have hnested := h.nested (t :: before) (cons_prefix_cons.2 ⟨rfl, hbefore⟩)
    rw [net_cons] at hnested
    omega
  · have hbalanced := h.balanced
    rw [net_cons] at hbalanced
    omega
  · have hinside := h.inside (t :: before) t' (cons_prefix_cons.2 ⟨rfl, hbefore⟩) hkind
    rw [net_cons] at hinside
    omega
  · have hinside := h.inside [] t ⟨ts, rfl⟩ hkind
    rw [delta_of_semicolon hkind] at hdepth
    rw [net_nil] at hinside
    omega

theorem Closes.eq_zero (h : Closes depth []) : depth = 0 := by
  have hbalanced := h.balanced
  rw [net_nil] at hbalanced
  omega

variable {rest : List Token} {semi : Token}

/-- What is left of a declaration that has begun is left out or kept with it. -/
theorem skipFrom_begun (skipping : Bool) {fresh : Bool} (hbegun : skipping = true ∨ fresh = false)
    (h : Closes depth ts) (hsemi : semi.kind = .semicolon) :
    skipFrom depth fresh skipping (ts ++ semi :: rest) =
      (if skipping then [] else ts ++ [semi]) ++ skipFrom 0 true false rest := by
  induction ts generalizing depth with
  | nil =>
    obtain rfl := h.eq_zero
    cases skipping <;> simp_all [skipFrom, depthAfter]
  | cons t ts ih =>
    obtain ⟨hcloses, hinside⟩ := h.tail
    have hends : (decide (t.kind = .semicolon) && depthAfter depth t.kind == 0) = false := by
      simpa using hinside
    have hrest := ih hcloses
    cases skipping with
    | false =>
      obtain rfl : fresh = false := by simpa using hbegun
      simpa [skipFrom, hends] using hrest
    | true => simpa [skipFrom, hends] using hrest

/-- At the start of a declaration the pass takes the whole declaration, or nothing of it. -/
theorem skipFrom_topLevel (d : TopLevel) (rest : List Token) :
    skipFrom 0 true false (d.tokens ++ rest) =
      (if d.isSkipped then [] else d.tokens) ++ skipFrom 0 true false rest := by
  obtain ⟨body, semi, hsemi, hcloses, hspelled⟩ := d
  simp only [TopLevel.tokens, TopLevel.isSkipped, append_assoc, singleton_append]
  cases body with
  | nil =>
    have hplain : beginsSkipped semi = false := by
      by_contra hskipped
      rcases hspelled semi (by simp) (Bool.eq_true_of_not_eq_false hskipped) with hkind | ⟨k, hkind⟩
        <;> rw [hsemi] at hkind <;> cases hkind
    simp [skipFrom, hsemi, depthAfter, hplain]
  | cons t body =>
    obtain ⟨htail, hinside⟩ := hcloses.tail
    have hends : (decide (t.kind = .semicolon) && depthAfter 0 t.kind == 0) = false := by
      simpa using hinside
    simp only [cons_append, head?_cons, Option.any_some, skipFrom, hends,
      Bool.true_and, Bool.false_eq_true, if_false]
    by_cases hskipped : beginsSkipped t = true
    · -- a word opens no bracket
      have hdepth : depthAfter 0 t.kind = 0 := depthAfter_of_spelled (hspelled t (by simp)) hskipped
      rw [hdepth] at htail ⊢
      simpa [hskipped] using skipFrom_begun true (.inl rfl) htail hsemi
    · simpa [hskipped] using skipFrom_begun false (.inr rfl) htail hsemi

theorem skipFrom_topLevels (ds : List TopLevel) :
    skipFrom 0 true false (ds.flatMap TopLevel.tokens) =
      (ds.filter (!·.isSkipped)).flatMap TopLevel.tokens := by
  induction ds with
  | nil => rfl
  | cons d ds ih =>
    rw [flatMap_cons, skipFrom_topLevel, ih, filter_cons]
    cases d.isSkipped <;> simp

/-! ## Spelling -/

/-- A text that begins like `func` or `var` begins with a word. -/
theorem lexeme_word {c : Char} (h : c = 'f' ∨ c = 'v') (rest : List Char) :
    lexeme? dialect (c :: rest) = some (Lexeme.word dialect (c :: rest)) := by
  have hword : Text.isDecimal c = false ∧ (c == '.') = false ∧ (c == '\'') = false ∧
      (c == '"') = false ∧ (c.toNat == 0x60) = false ∧ Text.isWordStart c = true := by
    rcases h with rfl | rfl <;> decide +kernel
  obtain ⟨hdecimal, hdot, hquote, hdouble, hback, hstart⟩ := hword
  simp [lexeme?, hdecimal, hdot, hquote, hdouble, hback, hstart]

theorem scanFrom_spelled {skip : Nat} {pos : Position} {cs : List Char} :
    ∀ t ∈ (scanFrom dialect skip pos cs).tokens, t.Spelled := by
  fun_induction scanFrom dialect skip pos cs with
  | case1 => simp
  | case2 _ _ _ _ ih => exact ih
  | case3 => simp
  | case4 _ _ _ _ _ ih => exact ih
  | case5 pos c rest kind length hlexeme ih =>
    refine forall_mem_cons.2 ⟨fun hskipped => ?_, ih⟩
    have hhead : c = 'f' ∨ c = 'v' := by
      simp only [beginsSkipped, Bool.or_eq_true, beq_iff_eq, String.ext_iff,
        String.toList_ofList] at hskipped
      cases length with
      | zero => simp at hskipped
      | succ => exact hskipped.imp (fun h => (cons.inj h).1) fun h => (cons.inj h).1
    rw [lexeme_word hhead] at hlexeme
    have hkind := congrArg Lexeme.kind (Option.some.inj hlexeme)
    simp only [Lexeme.word, Option.some.injEq] at hkind
    subst hkind
    split
    · exact .inr ⟨_, rfl⟩
    · exact .inl rfl

theorem semicolonsFrom_spelled {closing : Bool} {last pending : Option Token}
    (hpending : ∀ t ∈ pending, t.Spelled) (h : ∀ t ∈ ts, t.Spelled) :
    ∀ t ∈ semicolonsFrom closing last pending ts, t.Spelled := by
  have hsemi {text : String} {pos : Position} (h : text = "\n" ∨ text = "") :
      Token.Spelled ⟨.semicolon, text, pos⟩ := by
    rcases h with rfl | rfl <;> exact fun hskipped => (by cases hskipped)
  fun_induction semicolonsFrom closing last pending ts with
  | case1 last pending _ =>
    unfold finalSemicolon
    split
    · simpa using hpending
    · split <;> simp [hsemi]
    · simp
  | case2 => simp
  | case3 last pending t rest hkind hends semi ih =>
    exact ih (by simp [semi, hsemi]) (forall_mem_cons.1 h).2
  | case4 last pending t rest hkind hends ih => exact ih hpending (forall_mem_cons.1 h).2
  | case5 last pending t rest hkind ih =>
    rw [forall_mem_cons] at h
    rw [forall_mem_append, forall_mem_cons]
    exact ⟨by simpa using hpending, h.1, ih (by simp) h.2⟩

/-- Of a sequence of declarations exactly those are passed on, unchanged and in order, that do not
begin with `func` or `var`; so whatever the reader sees of a sequence, it sees the same with a
declaration that is left out put in anywhere.  What is asked of the spelling of tokens holds of all
tokens that come out of a text. -/
theorem skipDeclarations_eq_filter (ds : List TopLevel) (stray : Option StrayCharacter) :
    skipDeclarations ⟨ds.flatMap TopLevel.tokens, stray⟩ =
        ⟨(ds.filter (!·.isSkipped)).flatMap TopLevel.tokens, stray⟩ ∧
      (∀ before after (d : TopLevel), ds = before ++ after → d.isSkipped = true →
        skipDeclarations ⟨(before ++ d :: after).flatMap TopLevel.tokens, stray⟩ =
          skipDeclarations ⟨ds.flatMap TopLevel.tokens, stray⟩) ∧
      ∀ (source : String), ∀ t ∈ ((scan .file source).insertSemicolons true).tokens, t.Spelled := by
  refine ⟨by rw [skipDeclarations, skipFrom_topLevels], ?_, fun source =>
    semicolonsFrom_spelled (by simp) scanFrom_spelled⟩
  rintro before after d rfl hskipped
  rw [skipDeclarations, skipDeclarations, skipFrom_topLevels, skipFrom_topLevels]
  simp [filter_append, hskipped]

end TokenStream

end DeclBridge
