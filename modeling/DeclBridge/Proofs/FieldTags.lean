import DeclBridge.Output.Tag
import DeclBridge.Proofs.QuotedStrings

/-!
# Field tags

A conventional tag is a list of pairs of a key and a quoted value.  However the values are quoted and
the pairs are spaced, a look-up gives the value of the first pair with its key, and the `json` value
falls into its name and its options (`Tag.lookup_conventional`).

The scan for a key is a loop over the text.  What one round of it takes off is a pair exactly where
the text begins with one (`Tag.BeginsWith`), and the rounds are never cut short.
-/

namespace DeclBridge

open List

variable {c : Char} {cs w body rest tag : List Char} {e : Escape} {key : String} {pair : Pair}

namespace Tag

/-! ## Pairs -/

/-- A text within quotes: a backslash takes the next character with it, and no quote is left. -/
inductive Inside : List Char → Prop
  | nil : Inside []
  | char {c : Char} {cs : List Char} (hquote : c ≠ '"') (hbackslash : c ≠ '\\') (h : Inside cs) :
    Inside (c :: cs)
  | pair (c : Char) {cs : List Char} (h : Inside cs) : Inside ('\\' :: c :: cs)

theorem Inside.append {cs' : List Char} (h : Inside cs) (h' : Inside cs') : Inside (cs ++ cs') := by
  induction h with
  | nil => exact h'
  | char hquote hbackslash _ ih => exact .char hquote hbackslash ih
  | pair c _ ih => exact .pair c ih

theorem Inside.closeQuote (h : Inside body) (rest : List Char) :
    closeQuote (body ++ '"' :: rest) = some (body ++ ['"'], rest) := by
  induction h with
  | nil =>
    rw [nil_append, Tag.closeQuote] <;> simp
  | char hquote hbackslash _ ih =>
    rw [cons_append, Tag.closeQuote, if_neg hquote, ih]
    · rfl
    all_goals
      intros
      simp_all
  | pair c _ ih =>
    rw [cons_append, cons_append, Tag.closeQuote, ih]
    rfl

theorem exists_inside {value : List Char} (h : closeQuote cs = some (value, rest)) :
    ∃ body, Inside body ∧ value = body ++ ['"'] ∧ cs = body ++ '"' :: rest := by
  fun_induction closeQuote cs generalizing value rest with
  | case1 | case2 => cases h
  | case3 c cs ih =>
    obtain ⟨⟨value, rest⟩, hfound, heq⟩ := Option.map_eq_some_iff.1 h
    cases heq
    obtain ⟨body, hbody, rfl, rfl⟩ := ih hfound
    exact ⟨'\\' :: c :: body, .pair c hbody, rfl, rfl⟩
  | case4 cs =>
    cases h
    exact ⟨[], .nil, rfl, rfl⟩
  | case5 c cs hlone hpair hquote ih =>
    obtain ⟨⟨value, rest⟩, hfound, heq⟩ := Option.map_eq_some_iff.1 h
    cases heq
    obtain ⟨body, hbody, rfl, rfl⟩ := ih hfound
    refine ⟨c :: body, .char hquote ?_ hbody, rfl, rfl⟩
    rintro rfl
    cases body with
    | nil | cons => exact hpair _ _ rfl rfl

/-- A key is not empty and has no control characters, spaces, colons and quotes. -/
def IsKey (key : String) : Prop :=
  key ≠ "" ∧ ∀ c ∈ key.toList, ' ' < c ∧ c ≠ ':' ∧ c ≠ '"' ∧ c ≠ '\x7f'

/-- A tag that begins with a pair, after any number of spaces. -/
def BeginsWith (tag : List Char) (key : String) (body rest : List Char) : Prop :=
  IsKey key ∧ Inside body ∧
    ∃ n, tag = replicate n ' ' ++ (key.toList ++ ':' :: '"' :: (body ++ '"' :: rest))

theorem isKeyChar_iff : isKeyChar c = true ↔ ' ' < c ∧ c ≠ ':' ∧ c ≠ '"' ∧ c ≠ '\x7f' := by
  simp [isKeyChar, and_assoc]

theorem BeginsWith.firstPair (h : BeginsWith tag key body rest) :
    firstPair tag = some (⟨key, enclosed body⟩, rest) := by
  obtain ⟨⟨hne, hkey⟩, hbody, n, rfl⟩ := h
  have hchars : ∀ c ∈ key.toList, isKeyChar c = true := fun c hc => isKeyChar_iff.2 (hkey c hc)
  have hspaces : (replicate n ' ' ++ (key.toList ++ ':' :: '"' :: (body ++ '"' :: rest))).dropWhile
      (· = ' ') = key.toList ++ ':' :: '"' :: (body ++ '"' :: rest) := by
    rw [dropWhile_append_of_pos (by simp)]
    cases hlist : key.toList with
    | nil => exact absurd (String.toList_eq_nil_iff.1 hlist) hne
    | cons c cs =>
      have hc := (hkey c (by simp [hlist])).1
      rw [cons_append, dropWhile_cons_of_neg]
      rw [decide_eq_true_eq]
      rintro rfl
      exact absurd hc (by decide)
  have htake : (key.toList ++ ':' :: '"' :: (body ++ '"' :: rest)).takeWhile isKeyChar =
      key.toList := by
    rw [takeWhile_append_of_pos hchars]
    simp [isKeyChar]
  rw [Tag.firstPair]
  simp only [hspaces, htake, drop_left]
  cases hlist : key.toList with
  | nil => exact absurd (String.toList_eq_nil_iff.1 hlist) hne
  | cons c cs =>
    show (Tag.closeQuote (body ++ '"' :: rest)).map _ = _
    rw [hbody.closeQuote, Option.map_some, ← hlist, String.ofList_toList]
    rfl

theorem beginsWith_of_firstPair (h : firstPair tag = some (pair, rest)) :
    ∃ body, BeginsWith tag pair.key body rest ∧ pair.quoted = enclosed body := by
  have htag : tag = tag.takeWhile (· = ' ') ++ tag.dropWhile (· = ' ') :=
    takeWhile_append_dropWhile.symm
  have hspaces : tag.takeWhile (· = ' ') =
      replicate (tag.takeWhile (· = ' ')).length ' ' :=
    eq_replicate_of_mem fun c hc => by simpa using mem_takeWhile_imp hc
  rw [Tag.firstPair] at h
  simp only at h
  generalize tag.dropWhile (· = ' ') = trimmed at h htag
  have htrimmed : trimmed.takeWhile isKeyChar ++
      trimmed.drop (trimmed.takeWhile isKeyChar).length = trimmed :=
    prefix_iff_eq_append.1 <| takeWhile_prefix _
  have hkey : ∀ c ∈ trimmed.takeWhile isKeyChar, isKeyChar c = true :=
    fun c hc => mem_takeWhile_imp hc
  generalize trimmed.takeWhile isKeyChar = key, trimmed.drop _ = after at h htrimmed hkey
  split at h
  · rename_i c cs after
    obtain ⟨⟨value, rest'⟩, hfound, heq⟩ := Option.map_eq_some_iff.1 h
    cases heq
    obtain ⟨body, hbody, rfl, rfl⟩ := exists_inside hfound
    refine ⟨body, ⟨⟨by simp, ?_⟩, hbody, (tag.takeWhile (· = ' ')).length, ?_⟩, rfl⟩
    · simpa [isKeyChar_iff] using hkey
    · rw [← hspaces]
      conv_lhs => rw [htag, ← htrimmed]
      simp
  · cases h

theorem length_of_firstPair (h : firstPair tag = some (pair, rest)) : rest.length < tag.length := by
  obtain ⟨body, ⟨-, -, n, rfl⟩, -⟩ := beginsWith_of_firstPair h
  simp only [length_append, length_cons]
  omega

/-- As many steps as there are characters are enough. -/
theorem pairsWithin_eq {count : Nat} (h : tag.length ≤ count) :
    pairsWithin count tag = pairsWithin tag.length tag := by
  induction count using Nat.strong_induction_on generalizing tag with
  | h count ih =>
    cases hfirst : firstPair tag with
    | none => cases count <;> cases tag.length <;> simp [pairsWithin, hfirst]
    | some found =>
      obtain ⟨pair, rest⟩ := found
      have hlength := length_of_firstPair hfirst
      obtain ⟨n, hn⟩ := Nat.exists_eq_add_one_of_ne_zero (Nat.ne_zero_of_lt hlength)
      obtain ⟨m, rfl⟩ := Nat.exists_eq_add_one_of_ne_zero
        (Nat.ne_zero_of_lt (hlength.trans_le h))
      rw [hn, pairsWithin, pairsWithin, hfirst]
      simp only
      rw [ih m (by omega) (by omega)]
      by_cases hm : n < m + 1
      · rw [ih n hm (by omega)]
      · omega

def first? (tag : List Char) (key : String) : Option Pair :=
  (pairsWithin tag.length tag).find? (·.key = key)

theorem first?_of_none (h : firstPair tag = none) : first? tag key = none := by
  rw [first?]
  cases tag.length <;> simp [pairsWithin, h]

theorem BeginsWith.first? {other : String} (h : BeginsWith tag other body rest) :
    first? tag key = if other = key then some ⟨other, enclosed body⟩ else first? rest key := by
  have hlength := length_of_firstPair h.firstPair
  obtain ⟨n, hn⟩ := Nat.exists_eq_add_one_of_ne_zero (Nat.ne_zero_of_lt hlength)
  rw [Tag.first?, hn, pairsWithin, h.firstPair]
  simp only [find?_cons]
  split
  · simp_all
  · rw [if_neg (by simp_all), pairsWithin_eq (by omega), Tag.first?]

theorem lookup_eq (tag key : String) : lookup tag key = match first? tag.toList key with
    | none => .ok none
    | some pair =>
      match unquote pair.quoted with
      | .ok value => .ok (some value)
      | .error (.invalid _) => .ok none
      | .error (.fault why) => .error why := by
  rw [lookup, pairs, ← String.length_toList]
  rfl

/-! ## Conventional tags -/

theorem inside_flatten {α : Type} {R : α → List Char → Prop} (hR : ∀ a w, R a w → Inside w)
    {as : List α} {ws : List (List Char)} (h : List.Forall₂ R as ws) : Inside ws.flatten := by
  induction h with
  | nil => exact .nil
  | cons hhead _ ih => exact (hR _ _ hhead).append ih

theorem inside_digits {base : Nat} (hbase : base ≤ 16) {ds : List Nat}
    (h : List.Forall₂ (IsDigit base) cs ds) : Inside cs := by
  induction h with
  | nil => exact .nil
  | @cons c d cs ds hd _ ih =>
    have hc : c ≠ '"' ∧ c ≠ '\\' := by
      have h16 : d < 16 := hd.1.trans_le hbase
      rcases hd.2 with rfl | rfl <;> interval_cases d <;> decide
    exact .char hc.1 hc.2 ih

theorem inside_escape (h : EscapeForm w e) : Inside w := by
  have hnumeral {base count v : Nat} {cs : List Char} (hbase : base ≤ 16)
      (h : Numeral base count cs v) : Inside cs := by
    obtain ⟨-, ds, hds, -⟩ := h
    exact inside_digits hbase hds
  cases h with
  | letter => exact .pair _ .nil
  | octal h =>
    obtain ⟨hlength, ds, hds, -⟩ := h
    cases hds with
    | nil => cases hlength
    | cons _ hds => exact .pair _ (inside_digits (by omega) hds)
  | byte h | short h | long h => exact .pair _ (hnumeral (by omega) h)

theorem inside_writesChar (h : WritesChar c w) : Inside w := by
  cases h with
  | plain h => exact .char h.2.1 h.1 .nil
  | letter h | point h => exact inside_escape h
  | bytes h => exact inside_flatten (fun _ _ hw => hw.elim inside_escape inside_escape) h

/-- The ways to write pairs of a key and a value as a tag. -/
inductive Conventional : List (String × String) → List Char → Prop
  | nil (n : Nat) : Conventional [] (replicate n ' ')
  | cons (n : Nat) {key value quoted : String} {pairs : List (String × String)} {rest : List Char}
    (hkey : IsKey key) (hquoted : Quotes value quoted) (h : Conventional pairs rest) :
    Conventional ((key, value) :: pairs)
      (replicate n ' ' ++ (key.toList ++ ':' :: (quoted.toList ++ rest)))

theorem firstPair_spaces (n : Nat) : firstPair (replicate n ' ') = none := by
  have hspaces : (replicate n ' ').dropWhile (· = ' ') = [] := by simp
  simp [firstPair, hspaces]

/-- The first pair of a conventional tag with a key is the first of those that were written. -/
theorem Conventional.first? {pairs : List (String × String)} (h : Conventional pairs tag)
    (key : String) : Option.Rel (fun value pair => Quotes value pair.quoted) (pairs.lookup key)
      (first? tag key) := by
  induction h with
  | nil n =>
    rw [first?_of_none (firstPair_spaces n)]
    exact .none
  | @cons n other value quoted pairs rest hkey hquoted _ ih =>
    obtain ⟨ws, hws, rfl⟩ := id hquoted
    have hbegins : BeginsWith (replicate n ' ' ++
        (other.toList ++ ':' :: ((enclosed ws.flatten).toList ++ rest))) other ws.flatten rest :=
      ⟨hkey, inside_flatten (fun _ _ => inside_writesChar) hws, n, by simp [enclosed]⟩
    rw [hbegins.first?, lookup_cons]
    by_cases heq : other = key
    · rw [if_pos heq, beq_iff_eq.2 heq.symm]
      exact .some hquoted
    · rw [if_neg heq, beq_eq_false_iff_ne.2 (Ne.symm heq)]
      exact ih

theorem JsonValue.ofString_intercalate {name : String} {options : List String}
    (h : ∀ s ∈ name :: options, ',' ∉ s.toList) :
    JsonValue.ofString (",".intercalate (name :: options)) =
      ⟨",".intercalate (name :: options), name, options⟩ := by
  have hsplit : (",".intercalate (name :: options)).toList.splitOn ',' =
      (name :: options).map String.toList := by
    rw [String.toList_intercalate, show ",".toList = [','] from rfl,
      splitOn_intercalate _ (by simpa using h) (by simp)]
  have hnames : ((name :: options).map String.toList).map String.ofList = name :: options := by
    rw [map_map]
    exact map_id'' (fun _ => String.ofList_toList) _
  rw [JsonValue.ofString, hsplit, hnames]

/-- In a tag that is written in the conventional way, a look-up gives the value of the first pair
with its key, and none when there is no such pair.  A `json` value that is made of a name and options
is taken apart into them. -/
theorem lookup_conventional {pairs : List (String × String)} {tag : String}
    (h : Conventional pairs tag.toList) : (∀ key, lookup tag key = .ok (pairs.lookup key)) ∧
    (pairs.lookup "json" = none → json tag = .ok none) ∧
    ∀ name options, pairs.lookup "json" = some (",".intercalate (name :: options)) →
      (∀ s ∈ name :: options, ',' ∉ s.toList) →
      json tag = .ok (some ⟨",".intercalate (name :: options), name, options⟩) := by
  have hlookup (key : String) : lookup tag key = .ok (pairs.lookup key) := by
    rw [lookup_eq]
    have hfirst := h.first? key
    generalize pairs.lookup key = value, first? tag.toList key = found at hfirst
    cases hfirst with
    | none => rfl
    | some hquotes =>
      obtain ⟨body, hquoted, hadmitted, htext⟩ := hquotes.exists_pieces
      simp only [hquoted, unquote_of_admitted hadmitted, htext]
  refine ⟨hlookup, fun hnone => ?_, fun name options hsome hfree => ?_⟩
  · rw [json, hlookup, hnone]
    rfl
  · rw [json, hlookup, hsome]
    exact congrArg (fun value => Except.ok (some value)) (JsonValue.ofString_intercalate hfree)

/-- Two pairs, the first with a quote in its value. -/
theorem lookup_conventional_escaped : Conventional [("doc", "a\"b"), ("json", "id,omitempty")]
      "doc:\"a\\\"b\"  json:\"id,omitempty\"".toList ∧
    lookup "doc:\"a\\\"b\"  json:\"id,omitempty\"" "doc" = .ok (some "a\"b") ∧
    json "doc:\"a\\\"b\"  json:\"id,omitempty\"" =
      .ok (some ⟨"id,omitempty", "id", ["omitempty"]⟩) := by
  have hplain {s : String} (h : ∀ c ∈ s.toList, IsPlain c) : Quotes s (enclosed s.toList) := by
    refine ⟨s.toList.map ([·]), ?_, by rw [← flatMap_def, flatMap_singleton']⟩
    rw [forall₂_map_right_iff, forall₂_same]
    exact fun c hc => .plain (h c hc)
  have hdoc : Quotes "a\"b" (enclosed ['a', '\\', '"', 'b']) :=
    ⟨[['a'], ['\\', '"'], ['b']], .cons (.plain (by decide)) (.cons
      (.letter (.letter (by decide))) (.cons (.plain (by decide)) .nil)), rfl⟩
  have htag : Conventional [("doc", "a\"b"), ("json", "id,omitempty")]
      "doc:\"a\\\"b\"  json:\"id,omitempty\"".toList :=
    .cons 0 ⟨by decide, by simp⟩ hdoc
      (.cons 2 ⟨by decide, by simp⟩ (hplain (s := "id,omitempty") (by simp [IsPlain])) (.nil 0))
  exact ⟨htag, (lookup_conventional htag).1 "doc",
    (lookup_conventional htag).2.2 "id" ["omitempty"] rfl (by decide)⟩

end Tag

end DeclBridge
