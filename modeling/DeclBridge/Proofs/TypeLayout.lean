import DeclBridge.Output.TypeText
import DeclBridge.Proofs.TypeGrammar

/-!
# How the texts of types are laid out

The functions that make texts of types decide by searching those texts: for bars and ampersands
before a text is put in parentheses, for a null at its end before it is made nullable.  The searches
are right because of how a text is laid out.  Bars separate its alternatives (`Join`), ampersands
what is merged in an alternative (`Meet`), and what then remains is closed by a bracket or has no
blank in it (`Factor`), so that what is inside is never taken for what is around.

There is one lemma for each form of type, which says what the text is read as.
-/

namespace DeclBridge.TypeGrammar

open TypeTree TypeText Alphabet List Text

variable {text' w sep : Text} {T' : TypeTree} {before part : List CodePoint} {Ts : List TypeTree}
  {members : List (Member TypeTree)} {parts : List (Text × TypeTree)} {path texts : List Text}
  {properties : List (Property Text)} {α : Type} {text : Text} {T : TypeTree}

/-! ## Texts with separators -/

section Join

variable {x : Text} {xs : List Text}

theorem points_append (a b : Text) : (a ++ b).points = a.points ++ b.points := rfl

theorem text_append_assoc (a b c : Text) : a ++ b ++ c = a ++ (b ++ c) :=
  congrArg Text.mk (append_assoc a.points b.points c.points)

theorem join_append (ys : List Text) (hxs : xs ≠ []) (hys : ys ≠ []) :
    join sep (xs ++ ys) = join sep xs ++ (sep ++ join sep ys) := by
  induction xs with
  | nil => exact absurd rfl hxs
  | cons z zs ih =>
    cases zs with
    | nil =>
      obtain ⟨y, ys, rfl⟩ := exists_cons_of_ne_nil hys
      exact text_append_assoc _ _ _
    | cons z' zs =>
      have hcons : join sep (z :: z' :: zs ++ ys) =
          z ++ sep ++ join sep (z' :: zs ++ ys) := rfl
      rw [hcons, ih (cons_ne_nil _ _), ← text_append_assoc]
      rfl

theorem occursIn_iff {points : List CodePoint} :
    occursIn part points = true ↔ part <:+: points := by
  induction points with
  | nil => simp [occursIn]
  | cons p points ih =>
    rw [occursIn, Bool.or_eq_true, ih, isPrefixOf_iff_prefix, infix_cons_iff]

theorem contains_join (hlength : 2 ≤ xs.length) : (join sep xs).contains sep = true := by
  obtain _ | ⟨y, _ | ⟨z, zs⟩⟩ := xs
  · cases hlength
  · simp at hlength
  · exact occursIn_iff.2 ⟨y.points, (join sep (z :: zs)).points, rfl⟩

end Join

variable {A : Alphabet}

/-- The tokens of a text with separators, by what the tokens of a part are and how they combine. -/
theorem exists_tokens_join (sep : Text) (c : Char) (One : List Token → α → Prop)
    (Many : List Token → List α → Prop)
    (hsep : A.scan .between sep.points = some ([.mark c], .between))
    (hhead : ∀ p ∈ sep.points.head?, A.continues p = false) (hone : ∀ ts a, One ts a → Many ts [a])
    (hmore : ∀ ts as us a, Many ts as → One us a → Many (ts ++ .mark c :: us) (as ++ [a]))
    {parts : List (Text × α)} (hne : parts ≠ [])
    (hparts : ∀ p ∈ parts, ∃ ts, A.tokens p.1 = some ts ∧ One ts p.2) :
    ∃ ts, A.tokens (join sep (parts.map (·.1))) = some ts ∧ Many ts (parts.map (·.2)) := by
  induction parts using reverseRecOn with
  | nil => exact absurd rfl hne
  | append_singleton parts part ih =>
    obtain ⟨us, hus, hone'⟩ := hparts part (by simp)
    by_cases hempty : parts = []
    · subst hempty
      exact ⟨us, hus, hone us part.2 hone'⟩
    · obtain ⟨ts, hts, hmany⟩ := ih hempty fun p hp => hparts p (mem_append_left _ hp)
      refine ⟨ts ++ .mark c :: us, ?_, ?_⟩
      · rw [map_append, join_append _ (by simpa using hempty) (by simp)]
        refine tokens_append hts (tokens_append_of_scan hsep hus) fun p hp => ?_
        refine hhead p ?_
        obtain ⟨points⟩ := sep
        cases points with
        | nil => cases hsep
        | cons q points => exact hp
      · rw [map_append]
        exact hmore _ _ _ _ hmany hone'

/-- A text that binds tighter than the separators around it, and that does not end like a union with
null. -/
structure Factor (A : Alphabet) (text : Text) (T : TypeTree) : Prop where
  reads : ∃ ts, A.tokens text = some ts ∧ Reads .suffixed ts (.type T)
  single : T.Single
  ends : .ofChar ' ' ∉ text.points ∨ ∃ p ∈ text.points.getLast?, p ≠ .ofChar 'l'

/-- A text with parts of one kind between separators, and the type that is made of theirs. -/
def Joined (sep : Text) (make : List TypeTree → TypeTree) (Part : Text → TypeTree → Prop)
    (text : Text) (T : TypeTree) : Prop :=
  ∃ parts : List (Text × TypeTree), parts ≠ [] ∧ (∀ p ∈ parts, Part p.1 p.2) ∧
    text = join sep (parts.map (·.1)) ∧ T = make (parts.map (·.2))

def Meet (A : Alphabet) : Text → TypeTree → Prop := Joined " & " meet (Factor A)

def Join (A : Alphabet) : Text → TypeTree → Prop := Joined " | " join (Meet A)

theorem Factor.meet (h : Factor A text T) : Meet A text T :=
  ⟨[(text, T)], cons_ne_nil _ _, by simpa using h, rfl, rfl⟩

theorem Meet.join (h : Meet A text T) : Join A text T :=
  ⟨[(text, T)], cons_ne_nil _ _, by simpa using h, rfl, rfl⟩

theorem Factor.join (h : Factor A text T) : Join A text T := h.meet.join

theorem Meet.reads (h : Meet A text T) :
    ∃ ts Ts, A.tokens text = some ts ∧ Reads .inter ts (.types Ts) ∧ T = meet Ts := by
  obtain ⟨parts, hne, hparts, rfl, rfl⟩ := h
  obtain ⟨ts, hts, hreads⟩ := exists_tokens_join " & " '&'
    (fun ts T => Reads .suffixed ts (.type T)) (fun ts Ts => Reads .inter ts (.types Ts))
    rfl (by rintro p ⟨⟩; rfl) (fun _ _ => .inter) (fun _ _ _ _ => .and) hne
    fun p hp => (hparts p hp).reads
  exact ⟨ts, _, hts, hreads, rfl⟩

theorem Join.reads (h : Join A text T) : A.Reads text T := by
  obtain ⟨parts, hne, hparts, rfl, rfl⟩ := h
  obtain ⟨ts, hts, hreads⟩ := exists_tokens_join " | " '|'
    (fun ts T => ∃ Ts, Reads .inter ts (.types Ts) ∧ T = meet Ts)
    (fun ts Ts => Reads .union ts (.types Ts))
    rfl (by rintro p ⟨⟩; rfl)
    (by rintro ts _ ⟨Ts, h, rfl⟩; exact .union h)
    (by rintro ts Ts us _ h ⟨Us, h', rfl⟩; exact .or h h') hne
    fun p hp => by
      obtain ⟨ts, Ts, hts, h, heq⟩ := (hparts p hp).reads
      exact ⟨ts, hts, Ts, h, heq⟩
  exact ⟨ts, hts, .type hreads⟩

/-! ## Ends of texts -/

/-- The ends of the mark without a blank in them, behind a blank. -/
theorem nullMark_split {front : List CodePoint} (h : nullMark.points = front ++ part)
    (hblank : .ofChar ' ' ∉ part) (hfront : front.getLast? = some (.ofChar ' ')) :
    front = (" | " : Text).points ∧ part = ("null" : Text).points := by
  have htable : ∀ k < 8, .ofChar ' ' ∉ nullMark.points.drop k →
      (nullMark.points.take k).getLast? = some (.ofChar ' ') → k = 3 := by decide
  have hlength : front.length < 8 := by
    have heq : 7 = front.length + part.length :=
      (congrArg length h).trans length_append
    omega
  have hthree : front.length = 3 := by
    apply htable _ hlength
    · rwa [h, drop_left]
    · rwa [h, take_left]
  have hfront' : front = nullMark.points.take 3 := by
    rw [← hthree, h, take_left]
  have hpart' : part = nullMark.points.drop 3 := by
    rw [← hthree, h, drop_left]
  exact ⟨hfront', hpart'⟩

/-- A text ends like a union with null only when that is what it is. -/
theorem eq_null_of_suffix (hends : .ofChar ' ' ∉ part ∨ ∃ p ∈ part.getLast?, p ≠ .ofChar 'l')
    (hbefore : before = [] ∨ before.getLast? = some (.ofChar ' '))
    (h : nullMark.points <:+ before ++ part) :
    part = ("null" : Text).points ∧ (" | " : Text).points <:+ before := by
  obtain ⟨rest, hrest⟩ := h
  rcases hends with hblank | ⟨p, hp, hne⟩
  · have hmem : .ofChar ' ' ∈ nullMark.points := by decide
    rcases append_eq_append_iff.1 hrest with ⟨front, rfl, hmark⟩ | ⟨back, -, rfl⟩
    · have hfront : front ≠ [] := by
        rintro rfl
        exact hblank ((nil_append part).symm.trans hmark.symm ▸ hmem)
      have hlast : front.getLast? = some (.ofChar ' ') := by
        have hsome := getLast?_eq_some_getLast hfront
        simpa [hfront, getLast?_append, hsome] using hbefore
      obtain ⟨rfl, hpart⟩ := nullMark_split hmark hblank hlast
      exact ⟨hpart, suffix_append _ _⟩
    · exact absurd (mem_append_right _ hmem) hblank
  · have hlast := congrArg getLast? hrest
    rw [getLast?_append, getLast?_append, Option.mem_def.1 hp] at hlast
    exact absurd (Option.some.inj hlast).symm hne

theorem Meet.eq_null_of_suffix (h : Meet A text T)
    (hbefore : before = [] ∨ before.getLast? = some (.ofChar ' '))
    (hsuffix : nullMark.points <:+ before ++ text.points) :
    text = "null" ∧ (" | " : Text).points <:+ before := by
  obtain ⟨parts, hne, hparts, rfl, -⟩ := h
  obtain rfl | ⟨init, last, rfl⟩ := eq_nil_or_concat' parts
  · exact absurd rfl hne
  have hends := (hparts last (by simp)).ends
  by_cases hinit : init = []
  · subst hinit
    obtain ⟨hnull, hbar⟩ := TypeGrammar.eq_null_of_suffix hends hbefore hsuffix
    exact ⟨congrArg Text.mk hnull, hbar⟩
  · -- the last conjunct stands behind an ampersand and not behind a bar
    rw [map_append, join_append _ (by simpa using hinit) (by simp), points_append,
      points_append, ← append_assoc, ← append_assoc] at hsuffix
    obtain ⟨-, hbar⟩ := TypeGrammar.eq_null_of_suffix hends
      (.inr (by rw [getLast?_append]; rfl)) hsuffix
    have hand : (" | " : Text).points <:+ (" & " : Text).points :=
      suffix_of_suffix_length_le hbar (suffix_append _ _) (Nat.le_refl 3)
    exact absurd hand (by decide)

/-! ## Types made of others -/

section Joined

variable {make : List TypeTree → TypeTree} {split : TypeTree → List TypeTree}
  {Part : Text → TypeTree → Prop}

/-- A type that was made of others falls apart into them again. -/
theorem Joined.split_eq (hsplit : ∀ Ts, (∀ T ∈ Ts, split T = [T]) → split (make Ts) = Ts)
    (hpart : ∀ text T, Part text T → split T = [T])
    (hparts : ∀ p ∈ parts, Part p.1 p.2) : split (make (parts.map (·.2))) = parts.map (·.2) := by
  apply hsplit
  intro T hT
  obtain ⟨p, hp, rfl⟩ := mem_map.1 hT
  exact hpart p.1 p.2 (hparts p hp)

theorem Joined.append (hsplit : ∀ Ts, (∀ T ∈ Ts, split T = [T]) → split (make Ts) = Ts)
    (hpart : ∀ text T, Part text T → split T = [T])
    (h : Joined sep make Part text T) (h' : Joined sep make Part text' T') :
    ∃ U, Joined sep make Part (text ++ (sep ++ text')) U ∧ split U = split T ++ split T' := by
  obtain ⟨parts, hne, hparts, rfl, rfl⟩ := h
  obtain ⟨parts', hne', hparts', rfl, rfl⟩ := h'
  have happend : ∀ p ∈ parts ++ parts', Part p.1 p.2 := forall_mem_append.2 ⟨hparts, hparts'⟩
  refine ⟨_, ⟨parts ++ parts', by simp [hne], happend, ?_, rfl⟩, ?_⟩
  · rw [map_append, join_append _ (by simpa using hne) (by simpa using hne')]
  · rw [split_eq hsplit hpart happend, split_eq hsplit hpart hparts, split_eq hsplit hpart hparts',
      map_append]

end Joined

theorem conjuncts_meet (Ts : List TypeTree) (h : ∀ T ∈ Ts, T.conjuncts = [T]) :
    (meet Ts).conjuncts = Ts := by
  obtain _ | ⟨T, _ | ⟨U, Ts⟩⟩ := Ts
  · rfl
  · exact h T (by simp)
  · rfl

theorem alternatives_join (Ts : List TypeTree) (h : ∀ T ∈ Ts, T.alternatives = [T]) :
    (join Ts).alternatives = Ts := by
  obtain _ | ⟨T, _ | ⟨U, Ts⟩⟩ := Ts
  · rfl
  · exact h T (by simp)
  · rfl

theorem Factor.conjuncts (text : Text) (T : TypeTree) (h : Factor A text T) :
    T.conjuncts = [T] := by
  have hsingle := h.single
  cases T <;> first | rfl | exact hsingle.elim

theorem Meet.alternatives (text : Text) (T : TypeTree) (h : Meet A text T) :
    T.alternatives = [T] := by
  obtain ⟨parts, -, hparts, -, rfl⟩ := h
  obtain _ | ⟨p, _ | ⟨q, parts⟩⟩ := parts
  · rfl
  · have hsingle : p.2.Single := (hparts p (by simp)).single
    simp only [map_cons, map_nil, meet]
    cases hp : p.2 <;> rw [hp] at hsingle <;> first | rfl | exact hsingle.elim
  · rfl

theorem Meet.append (h : Meet A text T) (h' : Meet A text' T') :
    ∃ U, Meet A (text ++ (" & " ++ text')) U ∧ U.conjuncts = T.conjuncts ++ T'.conjuncts :=
  Joined.append conjuncts_meet Factor.conjuncts h h'

theorem Join.append (h : Join A text T) (h' : Join A text' T') :
    ∃ U, Join A (text ++ (" | " ++ text')) U ∧ U.alternatives = T.alternatives ++ T'.alternatives :=
  Joined.append alternatives_join Meet.alternatives h h'

theorem Join.factor (h : Join A text T) (hbar : text.contains " | " = false)
    (hand : text.contains " & " = false) : Factor A text T := by
  obtain ⟨parts, hne, hparts, rfl, rfl⟩ := h
  obtain _ | ⟨p, _ | ⟨q, parts⟩⟩ := parts
  · exact absurd rfl hne
  · obtain ⟨factors, hne', hfactors, htext, htree⟩ := hparts p (by simp)
    have htext' : join " | " ([p].map (·.1)) = p.1 := rfl
    have htree' : join ([p].map (·.2)) = p.2 := rfl
    rw [htext', htext] at hand ⊢
    rw [htree', htree]
    obtain _ | ⟨r, _ | ⟨r', factors⟩⟩ := factors
    · exact absurd rfl hne'
    · exact hfactors r (by simp)
    · rw [contains_join (by simp)] at hand
      cases hand
  · rw [contains_join (by simp)] at hbar
    cases hbar

/-- A type that is no union has the text of an intersection. -/
theorem Join.meet (h : Join A text T) (hT : ∀ Ts, T ≠ .union Ts) : Meet A text T := by
  obtain ⟨parts, hne, hparts, rfl, rfl⟩ := h
  obtain _ | ⟨p, _ | ⟨q, parts⟩⟩ := parts
  · exact absurd rfl hne
  · exact hparts p (by simp)
  · exact absurd rfl (hT _)

/-! ## Names -/

/-- A word that a type, a type parameter or a module can have as its name. -/
def Alphabet.Name (A : Alphabet) (w : Text) : Prop :=
  A.isIdentifier w = true ∧ w ∉ keywords ∧ w ∉ reserved

/-- A word that is a type by itself. -/
def Alphabet.Word (A : Alphabet) (w : Text) : Prop := w ∈ keywords ∨ A.Name w

/-- The type that a word stands for. -/
def TypeTree.ofWord (w : Text) : TypeTree := if w ∈ keywords then .keyword w else .ref [w] []

/-- The text of a name, which may be qualified. -/
structure Names (A : Alphabet) (text : Text) (path : List Text) : Prop where
  tokens : ∃ w ws, path = w :: ws ∧ A.tokens text = some (dotted w ws) ∧ w ∉ keywords ∧ w ∉ reserved
  blank : .ofChar ' ' ∉ text.points

theorem Alphabet.Name.names (h : A.Name w) : Names A w [w] where
  tokens := ⟨w, [], rfl, tokens_word h.1, h.2.1, h.2.2⟩
  blank := not_mem_of_isIdentifier h.1

theorem Alphabet.Name.qualified {m : Text} (hm : A.Name m) (hw : A.Name w) :
    Names A (m ++ "." ++ w) [m, w] where
  tokens := by
    have hdot : A.scan .between ("." : Text).points = some ([.mark '.'], .between) := rfl
    have hlast : A.tokens ("." ++ w) = some [.mark '.', .word w] :=
      tokens_append_of_scan hdot (tokens_word hw.1)
    refine ⟨m, [w], rfl, ?_, hm.2.1, hm.2.2⟩
    rw [text_append_assoc]
    exact tokens_append (tokens_word hm.1) hlast (by rintro p ⟨⟩; rfl)
  blank := by
    have hdot : .ofChar ' ' ∉ ("." : Text).points := by decide
    simp only [points_append, mem_append, not_or]
    exact ⟨⟨not_mem_of_isIdentifier hm.1, hdot⟩, not_mem_of_isIdentifier hw.1⟩

theorem factor_keyword (h : w ∈ keywords) : Factor A w (.keyword w) := by
  have hidentifier : ∀ w ∈ keywords, A.isIdentifier w = true := all_eq_true.1 rfl
  exact ⟨⟨_, tokens_word (hidentifier w h), .plain (.keyword h)⟩, trivial,
    .inl (not_mem_of_isIdentifier (hidentifier w h))⟩

theorem factor_null : Factor A "null" .null where
  reads := ⟨_, tokens_word rfl, .plain .null⟩
  single := trivial
  ends := .inl (by decide)

theorem Names.factor (h : Names A text path) : Factor A text (.ref path []) where
  reads := by
    obtain ⟨w, ws, rfl, htokens, hkeyword, hreserved⟩ := h.tokens
    exact ⟨_, htokens, .plain (.ref hkeyword hreserved)⟩
  single := trivial
  ends := .inl h.blank

theorem Alphabet.Word.factor (h : A.Word w) : Factor A w (.ofWord w) := by
  rw [TypeTree.ofWord]
  split_ifs with hw
  · exact factor_keyword hw
  · exact (h.resolve_left hw).names.factor

/-! ## Forms of types -/

theorem ends_append {a b : Text} (h : ∃ p ∈ b.points.getLast?, p ≠ .ofChar 'l') :
    ∃ p ∈ (a ++ b).points.getLast?, p ≠ .ofChar 'l' := by
  obtain ⟨p, hp, hne⟩ := h
  refine ⟨p, ?_, hne⟩
  rw [points_append, getLast?_append, Option.mem_def.1 hp]
  rfl

theorem Factor.comment (h : Factor A text T) {c : Text} (hc : .ofChar '*' ∉ c.points) :
    Factor A (text ++ (" /* " ++ c ++ " */")) T where
  reads := by
    obtain ⟨ts, hts, hreads⟩ := h.reads
    refine ⟨ts, ?_, hreads⟩
    have htokens := tokens_append hts (tokens_comment hc) (by rintro p ⟨⟩; rfl)
    rwa [append_nil] at htokens
  single := h.single
  ends := .inr (ends_append (ends_append ⟨.ofChar '/', by decide, by decide⟩))

theorem Join.arrayOf (h : Join A text T) : Factor A (arrayOf text) (.array T) where
  reads := by
    obtain ⟨ts, hts, hreads⟩ := h.reads
    rw [TypeText.arrayOf]
    split_ifs with hcontains
    · refine ⟨.mark '(' :: ts ++ [.mark ')', .mark '[', .mark ']'], ?_, ?_⟩
      · have hopen : A.scan .between ("(" : Text).points = some ([.mark '('], .between) := rfl
        exact tokens_append (tokens_append_of_scan hopen hts)
          (tokens_of_scan rfl) (by rintro p ⟨⟩; rfl)
      · have hparen := Reads.array (.plain (.paren hreads))
        rwa [append_assoc] at hparen
    · rw [Bool.or_eq_true, not_or, Bool.not_eq_true, Bool.not_eq_true] at hcontains
      obtain ⟨us, hus, hfactor⟩ := (h.factor hcontains.1 hcontains.2).reads
      exact ⟨_, tokens_append hus (tokens_of_scan rfl) (by rintro p ⟨⟩; rfl),
        .array hfactor⟩
  single := trivial
  ends := by
    rw [TypeText.arrayOf]
    split_ifs
    · exact .inr (ends_append ⟨.ofChar ']', by decide, by decide⟩)
    · exact .inr (ends_append ⟨.ofChar ']', by decide, by decide⟩)

theorem Join.recordOf (h : Join A text T) : Factor A (recordOf text) (.record T) where
  reads := by
    obtain ⟨ts, hts, hreads⟩ := h.reads
    have hopen : A.scan .between ("\x7b [key in string]: " : Text).points =
        some (.mark '\x7b' :: recordHeader, .between) := rfl
    exact ⟨_, tokens_append (tokens_append_of_scan hopen hts)
      (tokens_of_scan rfl) (by rintro p ⟨⟩; rfl), .plain (.record hreads)⟩
  single := trivial
  ends := .inr (ends_append ⟨.ofChar '\x7d', by decide, by decide⟩)

/-- The parts of a list that correspond to each other, side by side. -/
theorem exists_zip {β : Type} {R : α → β → Prop} {as : List α} {bs : List β}
    (h : List.Forall₂ R as bs) :
    ∃ pairs : List (α × β), pairs.map (·.1) = as ∧ pairs.map (·.2) = bs ∧
      ∀ p ∈ pairs, R p.1 p.2 := by
  induction h with
  | nil => exact ⟨[], rfl, rfl, by simp⟩
  | @cons a b as bs hab _ ih =>
    obtain ⟨pairs, rfl, rfl, hpairs⟩ := ih
    exact ⟨(a, b) :: pairs, rfl, rfl, forall_mem_cons.2 ⟨hab, hpairs⟩⟩

theorem Names.applied (h : Names A text path) {args : List Text}
    (hargs : List.Forall₂ (Join A) args Ts) : Factor A (text ++ bracketed args) (.ref path Ts) := by
  obtain ⟨pairs, rfl, rfl, hpairs⟩ := exists_zip hargs
  by_cases hempty : pairs = []
  · subst hempty
    have hnil : text ++ bracketed [] = text :=
      congrArg Text.mk (append_nil text.points)
    exact hnil.symm ▸ h.factor
  · have htext : bracketed (pairs.map (·.1)) =
        "<" ++ (join ", " (pairs.map (·.1)) ++ ">") := by
      rw [bracketed, if_neg (by simpa using hempty)]
      exact text_append_assoc _ _ _
    rw [htext]
    refine ⟨?_, trivial, .inr (ends_append (ends_append (ends_append
      ⟨.ofChar '>', by decide, by decide⟩)))⟩
    obtain ⟨w, ws, rfl, htokens, hkeyword, hreserved⟩ := h.tokens
    obtain ⟨ts, hts, hreads⟩ := exists_tokens_join ", " ','
      (fun ts T => Reads .type ts (.type T)) (fun ts Ts => Reads .args ts (.types Ts))
      rfl (by rintro p ⟨⟩; rfl) (fun _ _ => .arg) (fun _ _ _ _ => .comma) hempty
      fun p hp => (hpairs p hp).reads
    have hopen : A.scan .between ("<" : Text).points = some ([.mark '<'], .between) := rfl
    have hclose : A.tokens (join ", " (pairs.map (·.1)) ++ ">") = some (ts ++ [.mark '>']) :=
      tokens_append hts (tokens_of_scan rfl) (by rintro p ⟨⟩; rfl)
    refine ⟨_, tokens_append htokens (tokens_append_of_scan hopen hclose)
      (by rintro p ⟨⟩; rfl), ?_⟩
    rw [← singleton_append, ← append_assoc, ← append_assoc]
    rw [append_assoc (dotted w ws)]
    exact .plain (.applied hkeyword hreserved hreads)

/-- What a text ends with when it is the union of another with null. -/
theorem Join.of_endsWith (h : Join A text T) (hends : text.endsWith nullMark = true) :
    ∃ rest U, Join A rest U ∧ text = rest ++ nullMark ∧
      T.alternatives = U.alternatives ++ [.null] := by
  obtain ⟨parts, hne, hparts, rfl, rfl⟩ := h
  obtain rfl | ⟨init, last, rfl⟩ := eq_nil_or_concat' parts
  · exact absurd rfl hne
  have hlast : Meet A last.1 last.2 := hparts last (by simp)
  have hinit : ∀ p ∈ init, Meet A p.1 p.2 := fun p hp => hparts p (mem_append_left _ hp)
  have hsuffix := isSuffixOf_iff_suffix.1 hends
  by_cases hempty : init = []
  · -- a single alternative does not end like a union
    subst hempty
    obtain ⟨-, hbar⟩ := hlast.eq_null_of_suffix (.inl rfl) hsuffix
    exact absurd hbar (by decide)
  · have hjoin : join " | " ((init ++ [last]).map (·.1)) =
        join " | " (init.map (·.1)) ++ (" | " ++ last.1) := by
      rw [map_append, join_append _ (by simpa using hempty) (by simp)]
      rfl
    rw [hjoin, points_append, points_append, ← append_assoc] at hsuffix
    obtain ⟨hnull, -⟩ := hlast.eq_null_of_suffix (.inr (by rw [getLast?_append]; rfl)) hsuffix
    have htree : last.2 = .null := by
      rw [hnull] at hlast
      exact hlast.join.reads.unique factor_null.join.reads
    refine ⟨_, _, ⟨init, hempty, hinit, rfl, rfl⟩, ?_, ?_⟩
    · rw [hjoin, hnull]
      rfl
    · rw [Joined.split_eq alternatives_join Meet.alternatives hparts,
        Joined.split_eq alternatives_join Meet.alternatives hinit, map_append,
        map_cons, map_nil, htree]

theorem Join.nullable (h : Join A text T) : ∃ U, Join A (nullable text) U ∧
    ∀ V, V ∈ U.alternatives ↔ V ∈ T.alternatives ∨ V = .null := by
  rw [TypeText.nullable]
  split_ifs with hends
  · obtain ⟨rest, U, -, -, hT⟩ := h.of_endsWith hends
    refine ⟨T, h, fun V => ?_⟩
    rw [hT, mem_append, mem_singleton, or_assoc, or_self]
  · obtain ⟨U, hU, halternatives⟩ := h.append factor_null.join
    refine ⟨U, hU, fun V => ?_⟩
    rw [halternatives, mem_append]
    exact or_congr_right mem_singleton

theorem join_join (hne : parts ≠ [])
    (h : ∀ p ∈ parts, Join A p.1 p.2) : ∃ U, Join A (join " | " (parts.map (·.1))) U ∧
      U.alternatives = parts.flatMap (·.2.alternatives) := by
  induction parts with
  | nil => exact absurd rfl hne
  | cons p parts ih =>
    obtain ⟨hp, hparts⟩ := forall_mem_cons.1 h
    by_cases hempty : parts = []
    · subst hempty
      exact ⟨p.2, hp, by simp⟩
    · obtain ⟨U, hU, halternatives⟩ := ih hempty hparts
      obtain ⟨V, hV, halternatives'⟩ := hp.append hU
      refine ⟨V, ?_, ?_⟩
      · rw [map_cons, ← singleton_append,
          join_append _ (cons_ne_nil _ _) (by simpa using hempty)]
        exact hV
      · rw [halternatives', halternatives, flatMap_cons]

theorem mem_foldl_kept {kept : List Text} {t : Text} :
    t ∈ texts.foldl (fun kept t => if t ∈ kept then kept else kept ++ [t]) kept ↔
      t ∈ kept ∨ t ∈ texts := by
  induction texts generalizing kept with
  | nil => simp
  | cons u texts ih =>
    rw [foldl_cons, ih, mem_cons]
    split_ifs with hu
    · constructor
      · rintro (h | h)
        · exact .inl h
        · exact .inr (.inr h)
      · rintro (h | rfl | h)
        · exact .inl h
        · exact .inl hu
        · exact .inr h
    · rw [mem_append, mem_singleton, or_assoc]

theorem join_alternatives (hne : texts ≠ [])
    (h : List.Forall₂ (Join A) texts Ts) : ∃ U, Join A (alternatives texts) U ∧
      ∀ V, V ∈ U.alternatives ↔ ∃ T ∈ Ts, V ∈ T.alternatives := by
  obtain ⟨pairs, rfl, rfl, hpairs⟩ := exists_zip h
  -- texts that are the same are read as the same type
  have hread : ∀ t ∈ pairs.map (·.1), ∃ T, (t, T) ∈ pairs := by
    intro t ht
    obtain ⟨p, hp, rfl⟩ := mem_map.1 ht
    exact ⟨p.2, hp⟩
  choose! read hread using hread
  have hsame : ∀ p ∈ pairs, read p.1 = p.2 := fun p hp =>
    (hpairs _ (hread p.1 (mem_map_of_mem hp))).reads.unique (hpairs p hp).reads
  obtain ⟨kept, hkept⟩ : ∃ kept, kept = (pairs.map (·.1)).foldl
      (fun kept t => if t ∈ kept then kept else kept ++ [t]) [] := ⟨_, rfl⟩
  have hmem : ∀ t, t ∈ kept ↔ t ∈ pairs.map (·.1) := by
    intro t
    rw [hkept, mem_foldl_kept]
    simp
  have hkeptNe : kept ≠ [] := by
    obtain ⟨first, hfirst⟩ := exists_mem_of_ne_nil _ hne
    exact ne_nil_of_mem ((hmem first).2 hfirst)
  have hjoins : ∀ p ∈ kept.map fun t => (t, read t), Join A p.1 p.2 := by
    intro p hp
    obtain ⟨t, ht, rfl⟩ := mem_map.1 hp
    exact hpairs _ (hread t ((hmem t).1 ht))
  obtain ⟨U, hU, halternatives⟩ := join_join (by simpa using hkeptNe) hjoins
  refine ⟨U, ?_, fun V => ?_⟩
  · have hmap : (kept.map fun t => (t, read t)).map (·.1) = kept := by
      rw [map_map]
      exact map_id kept
    rw [hmap] at hU
    rwa [TypeText.alternatives, ← hkept]
  · rw [halternatives]
    simp only [mem_flatMap, mem_map, exists_exists_and_eq_and]
    constructor
    · rintro ⟨t, ht, hV⟩
      exact ⟨(t, read t), hread t ((hmem t).1 ht), hV⟩
    · rintro ⟨p, hp, hV⟩
      exact ⟨p.1, (hmem p.1).2 (mem_map_of_mem hp), hsame p hp ▸ hV⟩

/-- What a type contributes to the object that it is merged into: itself, or the properties of the
type beside null, all of them optional. -/
inductive Merged : TypeTree → List TypeTree → Prop
  | whole {T : TypeTree} (h : T.alternatives = [T]) : Merged T T.conjuncts
  | nullable {T U : TypeTree} (h : T.alternatives = U.alternatives ++ [.null]) :
      Merged T [.ref ["Partial"] [U]]

/-- The text of a type is merged as some conjuncts. -/
def MergedText (A : Alphabet) (text : Text) (Us : List TypeTree) : Prop :=
  ∃ U, Meet A (merged text) U ∧ U.conjuncts = Us

theorem Join.merged (h : Join A text T)
    (hunion : ∀ Ts, T = .union Ts → text.endsWith nullMark = true) :
    ∃ Us, MergedText A text Us ∧ Merged T Us := by
  by_cases hends : text.endsWith nullMark = true
  · obtain ⟨rest, U, hU, rfl, hT⟩ := h.of_endsWith hends
    have hdrop : (rest ++ nullMark).dropEnd nullMark.points.length = rest := by
      rw [dropEnd, points_append, length_append, Nat.add_sub_cancel, take_left]
    have hname : A.Name "Partial" := ⟨rfl, by decide, by decide⟩
    have hfactor := hname.names.applied (.cons hU .nil)
    have htext : ("Partial" : Text) ++ bracketed [rest] = "Partial<" ++ rest ++ ">" := by
      have hbracketed : bracketed [rest] = "<" ++ rest ++ ">" := rfl
      rw [hbracketed, ← text_append_assoc, ← text_append_assoc]
      rfl
    refine ⟨[.ref ["Partial"] [U]], ⟨.ref ["Partial"] [U], ?_, rfl⟩, .nullable hT⟩
    rw [merged, if_pos hends, hdrop, ← htext]
    exact hfactor.meet
  · have hmeet := h.meet fun Ts hTs => hends (hunion Ts hTs)
    refine ⟨T.conjuncts, ⟨T, ?_, rfl⟩, .whole hmeet.alternatives⟩
    rwa [TypeText.merged, if_neg hends]

/-- The text of a property is read as a member of an object. -/
structure MemberText (A : Alphabet) (p : Property Text) (m : Member TypeTree) : Prop where
  name : m.name = p.name
  optional : m.optional = p.optional
  type : Join A p.type m.type

theorem tokens_member {p : Property Text} {ts : List Token} (h : A.tokens p.type = some ts) :
    A.tokens (member p) = some (.string p.name :: colon p.optional ++ ts) := by
  have hcolon : A.scan .between (ofString (if p.optional then "?: " else ": ")).points =
      some (colon p.optional, .between) := by
    cases p.optional <;> rfl
  exact tokens_append_of_scan (scan_append (scan_jsonQuoted _) hcolon) h

theorem exists_tokens_members {pairs : List (Property Text × Member TypeTree)} (hne : pairs ≠ [])
    (h : ∀ p ∈ pairs, MemberText A p.1 p.2) :
    ∃ ts, A.tokens (join "; " ((pairs.map (·.1)).map member)) = some ts ∧
      Reads .members ts (.members (pairs.map (·.2))) := by
  obtain ⟨parts, hparts⟩ : ∃ parts, parts = pairs.map fun p => (member p.1, p.2) :=
    ⟨_, rfl⟩
  have hnames : parts.map (·.1) = (pairs.map (·.1)).map member := by
    rw [hparts, map_map, map_map]
    rfl
  have hmembers : parts.map (·.2) = pairs.map (·.2) := by
    rw [hparts, map_map]
    rfl
  have htokens : ∀ q ∈ parts, ∃ ts, A.tokens q.1 = some ts ∧ ∃ us,
      ts = .string q.2.name :: colon q.2.optional ++ us ∧ Reads .type us (.type q.2.type) := by
    intro q hq
    rw [hparts] at hq
    obtain ⟨p, hp, rfl⟩ := mem_map.1 hq
    obtain ⟨us, hus, hreads⟩ := (h p hp).type.reads
    refine ⟨_, tokens_member hus, us, ?_, hreads⟩
    rw [(h p hp).name, (h p hp).optional]
  rw [← hnames, ← hmembers]
  refine exists_tokens_join "; " ';'
    (fun ts m => ∃ us, ts = .string m.name :: colon m.optional ++ us ∧
      Reads .type us (.type m.type))
    (fun ts ms => Reads .members ts (.members ms)) rfl (by rintro p ⟨⟩; rfl) ?_ ?_
    (by simpa [hparts] using hne) htokens
  · rintro _ m ⟨us, rfl, hreads⟩
    exact .member hreads
  · rintro ts ms _ m hms ⟨us, rfl, hreads⟩
    have hnext : Reads .members (ts ++ .mark ';' :: .string m.name :: colon m.optional ++ us)
      (.members (ms ++ [m])) := .semicolon hms hreads
    rwa [append_assoc] at hnext

theorem factor_object (h : List.Forall₂ (MemberText A) properties members) :
    Factor A (object ⟨properties, []⟩) (.object members) := by
  obtain ⟨pairs, rfl, rfl, hpairs⟩ := exists_zip h
  by_cases hempty : pairs = []
  · subst hempty
    exact ⟨⟨_, tokens_of_scan rfl, .plain .empty⟩, trivial, .inl (by decide)⟩
  · have htext : object ⟨pairs.map (·.1), []⟩ =
        "\x7b " ++ join "; " ((pairs.map (·.1)).map member) ++ " \x7d" := by
      simp only [TypeText.object, foldl_nil]
      rw [if_neg (by simpa using hempty)]
    obtain ⟨ts, hts, hreads⟩ := exists_tokens_members hempty hpairs
    have hopen : A.scan .between ("\x7b " : Text).points = some ([.mark '\x7b'], .between) := rfl
    rw [htext]
    exact ⟨⟨_, tokens_append (tokens_append_of_scan hopen hts)
      (tokens_of_scan rfl) (by rintro p ⟨⟩; rfl), .plain (.object hreads)⟩, trivial,
      .inr (ends_append ⟨.ofChar '\x7d', by decide, by decide⟩)⟩

theorem meet_object {embeds : List Text} {parts : List (List TypeTree)}
    (hproperties : List.Forall₂ (MemberText A) properties members)
    (hembeds : List.Forall₂ (MergedText A) embeds parts) :
    ∃ T, Meet A (object ⟨properties, embeds⟩) T ∧
      T.conjuncts = .object members :: parts.flatten := by
  -- the types are merged into any intersection that stands before them
  have hfold : ∀ (body : Text) (T : TypeTree), Meet A body T → ∃ U, Meet A
      (embeds.foldl (fun body embed => body ++ " & " ++ merged embed) body) U ∧
      U.conjuncts = T.conjuncts ++ parts.flatten := by
    clear hproperties
    induction hembeds with
    | nil =>
      intro body T hT
      exact ⟨T, hT, by simp⟩
    | @cons embed Us embeds parts h _ ih =>
      intro body T hT
      obtain ⟨U, hU, rfl⟩ := h
      obtain ⟨V, hV, hconjuncts⟩ := hT.append hU
      rw [← text_append_assoc] at hV
      obtain ⟨W, hW, hconjuncts'⟩ := ih _ V hV
      exact ⟨W, hW, by rw [hconjuncts', hconjuncts, flatten_cons, append_assoc]⟩
  exact hfold _ _ (factor_object hproperties).meet

end DeclBridge.TypeGrammar
