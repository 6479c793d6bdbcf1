import Baudtime.Console.Regexp

/-!
# The console's command line

`main` of the console splits each line it reads with the pattern `'.*?'|".*?"|\S+` and
`FindAllString`. It skips a line with no token; otherwise it lower-cases the first token as
the command, with `strings.ToLower`, and strips the quotes `"` and `'` from both ends of
each other token, which are the command's arguments. `strings.ToLower` maps
`unicode.ToLower` over the runes of its argument; that table belongs to Go's library, not
to the sources at hand, so the model takes the rune mapping as a parameter and every
result here holds for any mapping.

A character where no alternative of the pattern starts is a space, since `\S+` starts at
any other; so a line splits into its tokens with only whitespace between and around them,
and `main` skips exactly the lines of whitespace. A token is a text in quotes of one kind
on one line, holding no quote of its kind, or a run of non-space characters. An argument
written in single quotes, `'…'`, is read back whole, spaces and double quotes inside it
included, as long as it holds no single quote and no line break and does not begin or end
with a double quote.

## Main definitions

* `consolePattern`, `parseLine` — the split of a line into a command and its arguments
* `IsToken`, `Splits` — the forms of a token, and a line made of tokens and whitespace
* `formatLine` — a command followed by its arguments in single quotes

## Main results

* `matchAlts_console` — what the pattern matches at the start of a text
* `findAllString_splits`, `lines_split_into_tokens` — only whitespace is dropped
* `parseLine_formatLine` — a formatted line reads back as its command and arguments
-/

namespace Baudtime.Console

/-- RE2's `\s`: the class `[\t\n\f\r ]`. -/
def isSpace (c : Char) : Bool :=
  c == '\t' || c == '\n' || c == '\x0c' || c == '\r' || c == ' '

/-- The pattern `'.*?'|".*?"|\S+` of `main`; `.` is any character but a line break. -/
def consolePattern : List (List Piece) :=
  [[.one (· == '\x27'), .lazyStar (· != '\n'), .one (· == '\x27')],
    [.one (· == '\x22'), .lazyStar (· != '\n'), .one (· == '\x22')],
    [.plus fun c => !isSpace c]]

/-- `strings.Trim(s, cutset)`: `s` without its leading and trailing characters of `cutset`. -/
def trim (cutset s : List Char) : List Char :=
  ((s.dropWhile cutset.contains).reverse.dropWhile cutset.contains).reverse

/-- The cutset `"'` that `main` trims from the arguments. -/
def quoteChars : List Char := ['\x22', '\x27']

/-- What `main` takes from a line: `none` for a line with no token, which it skips;
otherwise the command `strings.ToLower(cmds[0])` and the arguments
`strings.Trim(cmds[1+i], "\"'")` it passes to `execCommand`. `strings.ToLower(s)` is
`strings.Map(unicode.ToLower, s)`, its ASCII fast path lowering the same letters; `toLower`
is the rune mapping `unicode.ToLower`. -/
def parseLine (toLower : Char → Char) (line : String) : Option (String × List String) :=
  match findAllString consolePattern line.data with
  | [] => none
  | cmd :: args =>
    some ((String.mk cmd).map toLower, args.map fun a => String.mk (trim quoteChars a))

/-- The forms of a token: a text in quotes of one kind on one line, holding no quote of its
kind, or a run of non-space characters. -/
inductive IsToken : List Char → Prop
  | quoted (q : Char) (a : List Char) (hq : q ∈ quoteChars) (ha : ∀ c ∈ a, c ≠ '\n' ∧ c ≠ q) :
    IsToken (q :: a ++ [q])
  | word (w : List Char) (hne : w ≠ []) (hw : ∀ c ∈ w, isSpace c = false) : IsToken w

theorem IsToken.ne_nil {t : List Char} (h : IsToken t) : t ≠ [] := by
  cases h with
  | quoted => exact List.cons_ne_nil _ _
  | word _ hne => exact hne

/-- The text `s` is the tokens `ts`, with runs of whitespace between and around them. -/
inductive Splits : List Char → List (List Char) → Prop
  | last (g : List Char) (hg : ∀ c ∈ g, isSpace c = true) : Splits g []
  | token (g t s : List Char) (ts : List (List Char)) (hg : ∀ c ∈ g, isSpace c = true)
    (ht : IsToken t) (hs : Splits s ts) : Splits (g ++ t ++ s) (t :: ts)

/-- Whitespace before a text made of tokens joins its first run of whitespace. -/
theorem Splits.cons_space {c : Char} {s : List Char} {ts : List (List Char)}
    (hc : isSpace c = true) (h : Splits s ts) : Splits (c :: s) ts := by
  cases h with
  | last _ hg => exact .last _ (by simpa [hc] using hg)
  | token g t s ts hg ht hs => exact .token (c :: g) t s ts (by simpa [hc] using hg) ht hs

/-! ## What the pattern matches -/

/-- An alternative `q.*?q` matches a text in quotes `q` on one line, up to the first `q`. -/
theorem matchSeq_quoted_eq_some {q : Char} {s r : List Char} :
    matchSeq [.one (· == q), .lazyStar (· != '\n'), .one (· == q)] s = some r ↔
      ∃ a, s = q :: a ++ q :: r ∧ ∀ c ∈ a, c ≠ '\n' ∧ c ≠ q := by
  cases s with
  | nil => simp [matchSeq]
  | cons c s =>
    by_cases hc : c = q
    · subst hc
      simp only [matchSeq_one_cons, matchSeq_lazyStar, beq_self_eq_true, if_true,
        lazyStar_one_eq_some, bne_iff_ne, ne_eq, List.cons_append, List.cons.injEq, true_and]
    · simp [hc, Ne.symm hc]

/-- `\S+` matches a longest run of non-space characters. -/
theorem matchSeq_word (c : Char) (s : List Char) :
    matchSeq [.plus fun c => !isSpace c] (c :: s) =
      if isSpace c then none else some (s.dropWhile fun c => !isSpace c) := by
  cases hc : isSpace c <;> simp only [matchSeq_plus_cons, hc, greedyStar_nil] <;> rfl

/-- What the console's pattern matches at the start of a text is a token. -/
theorem matchAlts_console {s r : List Char} (h : matchAlts consolePattern s = some r) :
    ∃ t, s = t ++ r ∧ IsToken t := by
  simp only [matchAlts, consolePattern, List.findSome?_cons, List.findSome?_nil] at h
  split at h
  · next b hb =>
    cases h
    obtain ⟨a, rfl, ha⟩ := matchSeq_quoted_eq_some.mp hb
    exact ⟨_, by simp, .quoted _ a (by simp [quoteChars]) ha⟩
  · split at h
    · next b hb =>
      cases h
      obtain ⟨a, rfl, ha⟩ := matchSeq_quoted_eq_some.mp hb
      exact ⟨_, by simp, .quoted _ a (by simp [quoteChars]) ha⟩
    · split at h
      · next b hb =>
        cases h
        cases s with
        | nil => cases hb
        | cons c s =>
          rw [matchSeq_word] at hb
          split at hb
          · cases hb
          · next hc =>
            cases hb
            refine ⟨c :: s.takeWhile fun c => !isSpace c, by simp, .word _ (List.cons_ne_nil _ _) ?_⟩
            intro x hx
            rcases List.mem_cons.mp hx with rfl | hx
            · simpa using hc
            · simpa using List.mem_takeWhile_imp hx
      · cases h

/-- No token starts at a space. -/
theorem matchAlts_console_space {c : Char} (hc : isSpace c = true) (s : List Char) :
    matchAlts consolePattern (c :: s) = none := by
  have h1 : c ≠ '\x27' := by rintro rfl; cases hc
  have h2 : c ≠ '\x22' := by rintro rfl; cases hc
  simp [matchAlts, consolePattern, matchSeq, h1, h2, hc]

/-- A token starts at every other character. -/
theorem matchAlts_console_isSome {c : Char} (hc : isSpace c = false) (s : List Char) :
    (matchAlts consolePattern (c :: s)).isSome := by
  simp only [matchAlts, consolePattern, List.findSome?_cons, List.findSome?_nil]
  split
  · rfl
  · split
    · rfl
    · rw [matchSeq_word, if_neg (by simp [hc])]
      rfl

/-! ## A line is its tokens and whitespace -/

/-- `FindAllString` with the console's pattern drops only whitespace: the text is its
tokens, with whitespace between and around them. -/
theorem findAllString_splits (s : List Char) : Splits s (findAllString consolePattern s) := by
  induction s using findAllString.induct consolePattern with
  | case1 => rw [findAllString_nil]; exact .last [] (by simp)
  | case2 c s rest h _ ih =>
    obtain ⟨t, hs, ht⟩ := matchAlts_console h
    rw [hs, findAllString_of_some ht.ne_nil (hs ▸ h)]
    exact .token [] t rest _ (by simp) ht ih
  | case3 c s rest h hlt =>
    obtain ⟨t, hs, ht⟩ := matchAlts_console h
    have hlen : s.length + 1 = t.length + rest.length := by
      rw [← List.length_cons, hs, List.length_append]
    have := List.length_pos.mpr ht.ne_nil
    omega
  | case4 c s h ih =>
    rw [findAllString_of_none h]
    cases hc : isSpace c
    · exact absurd h (Option.ne_none_iff_isSome.mpr (matchAlts_console_isSome hc s))
    · exact ih.cons_space hc

theorem Splits.nil_iff {s : List Char} : Splits s [] ↔ ∀ c ∈ s, isSpace c = true := by
  constructor
  · rintro ⟨⟩; assumption
  · exact .last s

/-- A text of whitespace has no token. -/
theorem findAllString_spaces {s : List Char} (h : ∀ c ∈ s, isSpace c = true) :
    findAllString consolePattern s = [] := by
  induction s with
  | nil => exact findAllString_nil _
  | cons c s ih =>
    rw [findAllString_of_none (matchAlts_console_space (h c (List.mem_cons_self _ _)) s)]
    exact ih fun x hx => h x (List.mem_cons_of_mem _ hx)

/-- Over every line, `FindAllString` with the console's pattern splits the line into
tokens, each a text in quotes of one kind on one line or a run of non-space characters,
with only whitespace between and around them; so `main` skips exactly the lines of
whitespace. -/
theorem lines_split_into_tokens (toLower : Char → Char) (line : String) :
    Splits line.data (findAllString consolePattern line.data) ∧
      (parseLine toLower line = none ↔ ∀ c ∈ line.data, isSpace c = true) := by
  have hnone : (∀ c ∈ line.data, isSpace c = true) ↔ findAllString consolePattern line.data = [] :=
    ⟨findAllString_spaces, fun h => Splits.nil_iff.mp (h ▸ findAllString_splits line.data)⟩
  refine ⟨findAllString_splits line.data, ?_⟩
  rw [hnone, parseLine]
  split <;> simp_all

/-! ## Reading back a formatted line -/

/-- `cmd 'a₁' 'a₂' …`: a command followed by its arguments, each in single quotes after a
space. -/
def formatLine (cmd : String) (args : List String) : String :=
  ⟨cmd.data ++ args.flatMap fun a => ' ' :: '\x27' :: a.data ++ ['\x27']⟩

/-- A text in single quotes holding no single quote nor line break is one token. -/
theorem matchAlts_console_quoted {a : List Char} (ha : ∀ c ∈ a, c ≠ '\n' ∧ c ≠ '\x27')
    (r : List Char) : matchAlts consolePattern (('\x27' :: a ++ ['\x27']) ++ r) = some r := by
  have h : matchSeq [.one (· == '\x27'), .lazyStar (· != '\n'), .one (· == '\x27')]
      (('\x27' :: a ++ ['\x27']) ++ r) = some r := matchSeq_quoted_eq_some.mpr ⟨a, by simp, ha⟩
  simp only [matchAlts, consolePattern, List.findSome?_cons, h]

/-- A run of non-space characters that does not start with a quote, followed by a space
or by nothing, is one token. -/
theorem matchAlts_console_word {w r : List Char} (hne : w ≠ [])
    (hw : ∀ c ∈ w, isSpace c = false) (hq : ∀ q ∈ quoteChars, w.head? ≠ some q)
    (hr : r = [] ∨ ∃ c r', r = c :: r' ∧ isSpace c = true) :
    matchAlts consolePattern (w ++ r) = some r := by
  obtain ⟨c, w, rfl⟩ := List.exists_cons_of_ne_nil hne
  have h1 : c ≠ '\x27' := fun h => hq '\x27' (by simp [quoteChars]) (by simp [h])
  have h2 : c ≠ '\x22' := fun h => hq '\x22' (by simp [quoteChars]) (by simp [h])
  have hrest : (w ++ r).dropWhile (fun c => !isSpace c) = r := by
    rw [List.dropWhile_append_of_pos fun x hx => by simp [hw x (List.mem_cons_of_mem _ hx)]]
    rcases hr with rfl | ⟨x, r', rfl, hx⟩
    · rfl
    · exact List.dropWhile_cons_of_neg (by simp [hx])
  simp only [matchAlts, consolePattern, List.findSome?_cons, List.findSome?_nil, List.cons_append,
    matchSeq_one_cons, matchSeq_plus_cons, beq_iff_eq, h1, h2, if_false,
    hw c (List.mem_cons_self _ _), Bool.not_false, if_true, greedyStar_nil, hrest]

theorem dropWhile_contains_of_head {cutset l : List Char} (h : ∀ q ∈ cutset, l.head? ≠ some q) :
    l.dropWhile cutset.contains = l := by
  cases l with
  | nil => rfl
  | cons c l => exact List.dropWhile_cons_of_neg (by simpa using fun hc => h c hc rfl)

/-- `strings.Trim` with the cutset `"'` takes off the single quotes around a text that
holds no single quote and neither starts nor ends with a double quote. -/
theorem trim_quoted {a : List Char} (ha : ∀ c ∈ a, c ≠ '\x27') (hh : a.head? ≠ some '\x22')
    (hl : a.getLast? ≠ some '\x22') : trim quoteChars ('\x27' :: a ++ ['\x27']) = a := by
  rcases List.eq_nil_or_concat a with rfl | ⟨b, x, rfl⟩
  · rfl
  rw [List.concat_eq_append] at *
  · have hx : x ∉ quoteChars := by
      have := ha x (by simp)
      simp_all [quoteChars]
    have hb : ∀ q ∈ quoteChars, (b ++ [x] ++ ['\x27']).head? ≠ some q := by
      intro q hq heq
      rcases b with _ | ⟨y, b⟩
      · simp_all
      · have := ha y (by simp)
        simp_all [quoteChars]
    rw [trim, List.cons_append, List.dropWhile_cons_of_pos (by decide),
      dropWhile_contains_of_head hb, List.reverse_append, List.reverse_singleton,
      List.singleton_append, List.dropWhile_cons_of_pos (by decide), List.reverse_append,
      List.reverse_singleton, List.singleton_append,
      List.dropWhile_cons_of_neg (by simpa using hx), List.reverse_cons, List.reverse_reverse]

/-- The arguments in single quotes, each after a space, are read as one token each. -/
theorem findAllString_quoted_args {args : List String}
    (hargs : ∀ a ∈ args, ∀ c ∈ a.data, c ≠ '\n' ∧ c ≠ '\x27') :
    findAllString consolePattern (args.flatMap fun a => ' ' :: '\x27' :: a.data ++ ['\x27']) =
      args.map fun a => '\x27' :: a.data ++ ['\x27'] := by
  induction args with
  | nil => simp
  | cons a args ih =>
    have hq := matchAlts_console_quoted (hargs a (List.mem_cons_self _ _))
      (args.flatMap fun a => ' ' :: '\x27' :: a.data ++ ['\x27'])
    have hsplit : (a :: args).flatMap (fun a => ' ' :: '\x27' :: a.data ++ ['\x27']) =
        ' ' :: (('\x27' :: a.data ++ ['\x27']) ++
          args.flatMap fun a => ' ' :: '\x27' :: a.data ++ ['\x27']) := by
      simp
    rw [hsplit, findAllString_of_none (matchAlts_console_space (show isSpace ' ' = true from rfl) _),
      findAllString_of_some (by simp) hq,
      ih fun a ha => hargs a (List.mem_cons_of_mem _ ha), List.map_cons]

/-- A command that is a run of non-space characters not starting with a quote, followed by
arguments in single quotes that hold no single quote nor line break and neither start nor
end with a double quote, reads back as the command lower-cased rune by rune and the
arguments as they were, spaces and double quotes inside them included. -/
theorem parseLine_formatLine (toLower : Char → Char) {cmd : String} {args : List String}
    (hne : cmd.data ≠ [])
    (hword : ∀ c ∈ cmd.data, isSpace c = false) (hhead : ∀ q ∈ quoteChars, cmd.data.head? ≠ some q)
    (hargs : ∀ a ∈ args, (∀ c ∈ a.data, c ≠ '\n' ∧ c ≠ '\x27') ∧ a.data.head? ≠ some '\x22' ∧
      a.data.getLast? ≠ some '\x22') :
    parseLine toLower (formatLine cmd args) = some (cmd.map toLower, args) := by
  have hr : (args.flatMap fun a => ' ' :: '\x27' :: a.data ++ ['\x27']) = [] ∨
      ∃ c r', (args.flatMap fun a => ' ' :: '\x27' :: a.data ++ ['\x27']) = c :: r' ∧
        isSpace c = true := by
    cases args with
    | nil => exact .inl rfl
    | cons a args => exact .inr ⟨_, _, rfl, rfl⟩
  rw [parseLine, formatLine, findAllString_of_some hne (matchAlts_console_word hne hword hhead hr),
    findAllString_quoted_args fun a ha => (hargs a ha).1]
  have htrim : ∀ a ∈ args,
      (fun a : String => String.mk (trim quoteChars ('\x27' :: a.data ++ ['\x27']))) a = id a :=
    fun a ha => by
      obtain ⟨h1, h2, h3⟩ := hargs a ha
      dsimp only
      rw [trim_quoted (fun c hc => (h1 c hc).2) h2 h3]
      rfl
  dsimp only
  rw [List.map_map, Function.comp_def, List.map_congr_left htrim, List.map_id]

/-- The console reads the query command with an argument holding spaces and parentheses;
on ASCII letters `unicode.ToLower` is `Char.toLower`. -/
theorem parseLine_formatLine_query :
    parseLine Char.toLower (formatLine "QUERY" ["sum by (job) (up)", "1h"]) =
      some ("QUERY".map Char.toLower, ["sum by (job) (up)", "1h"]) :=
  parseLine_formatLine Char.toLower (by decide) (by decide) (by decide) (by decide)

end Baudtime.Console
