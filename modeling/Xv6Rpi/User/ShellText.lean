/-
# User.ShellText -- from characters to tokens and back

The parser does the same over the characters of a buffer as over the tokens of the string
(`parseline_agree`, by the simulation `Matches` of the two streams): it stops in the same way,
or returns the same tree with pointers in place of words.  `nulterminate` writes only where no
word is, so that the strings at those pointers are the words.
-/
import Mathlib.Data.List.Forall2
import Mathlib.Data.List.TakeWhile
import Xv6Rpi.User.ShellParse

namespace Xv6Rpi.User.Shell

set_option autoImplicit false

/-! ## The same parser over two streams -/

section Simulation

variable {σ τ W V : Type}

/-- The same tree over related words. -/
inductive Cmd.Like (same : W → V → Prop) : Cmd W → Cmd V → Prop where
  | exec {argv : List W} {argv' : List V} (args : List.Forall₂ same argv argv') :
      Like same (.exec argv) (.exec argv')
  | redir {c : Cmd W} {c' : Cmd V} {file : W} {file' : V} {mode fd : Nat} (inner : Like same c c')
      (files : same file file') : Like same (.redir c file mode fd) (.redir c' file' mode fd)
  | pipe {l r : Cmd W} {l' r' : Cmd V} (left : Like same l l') (right : Like same r r') :
      Like same (.pipe l r) (.pipe l' r')
  | list {l r : Cmd W} {l' r' : Cmd V} (left : Like same l l') (right : Like same r r') :
      Like same (.list l r) (.list l' r')
  | back {c : Cmd W} {c' : Cmd V} (inner : Like same c c') : Like same (.back c) (.back c')

/-- Two streams that show the same tokens, in related states. -/
structure Matches (S : Stream σ W) (T : Stream τ V) (R : σ → τ → Prop) (same : W → V → Prop) :
    Prop where
  peek : ∀ {s : σ} {t : τ} (cs : List Char), R s t → cs ⊆ symbols →
    ∃ seen s' t', S.peek s cs = (seen, s') ∧ T.peek t cs = (seen, t') ∧ R s' t'
  gettoken : ∀ {s : σ} {t : τ}, R s t →
    ∃ k w v s' t', S.gettoken s = ((k, w), s') ∧ T.gettoken t = ((k, v), t') ∧ R s' t' ∧
      (k = 'a' → same w v)

variable {S : Stream σ W} {T : Stream τ V} {R : σ → τ → Prop} {same : W → V → Prop}

/-- The results of the two parses: the same stop, or related trees and states. -/
inductive Agree (R : σ → τ → Prop) (same : W → V → Prop) :
    Parse (Cmd W × σ) → Parse (Cmd V × τ) → Prop where
  | ok {c : Cmd W} {c' : Cmd V} {s : σ} {t : τ} (trees : c.Like same c') (states : R s t) :
      Agree R same (.ok (c, s)) (.ok (c', t))
  | error (e : Stop) : Agree R same (.error e) (.error e)

theorem Agree.bind {x : Parse (Cmd W × σ)} {y : Parse (Cmd V × τ)}
    {f : Cmd W × σ → Parse (Cmd W × σ)} {g : Cmd V × τ → Parse (Cmd V × τ)} (agree : Agree R same x y)
    (next : ∀ c c' s t, Cmd.Like same c c' → R s t → Agree R same (f (c, s)) (g (c', t))) :
    Agree R same (x.bind f) (y.bind g) := by
  cases agree with
  | ok trees states => exact next _ _ _ _ trees states
  | error e => exact .error e

theorem Cmd.Like.addArg {c : Cmd W} {c' : Cmd V} {w : W} {v : V} (trees : c.Like same c')
    (words : same w v) : (c.addArg w).Like same (c'.addArg v) := by
  induction trees with
  | exec args => exact .exec (List.rel_append args (.cons words .nil))
  | redir _ files ih => exact .redir ih files
  | pipe left right => exact .pipe left right
  | list left right => exact .list left right
  | back inner => exact .back inner

theorem Cmd.Like.redircmd {c : Cmd W} {c' : Cmd V} {w : W} {v : V} {tok : Char}
    (trees : c.Like same c') (words : same w v) :
    (Shell.redircmd c tok w).Like same (Shell.redircmd c' tok v) := by
  unfold Shell.redircmd
  split
  · exact .redir trees words
  · split
    · exact .redir trees words
    · split
      · exact .redir trees words
      · exact trees

variable (matches_ : Matches S T R same)
include matches_

theorem parseredirs_agree (fuel : Nat) {c : Cmd W} {c' : Cmd V} {s : σ} {t : τ}
    (trees : c.Like same c') (states : R s t) :
    Agree R same (parseredirs S fuel c s) (parseredirs T fuel c' t) := by
  induction fuel generalizing c c' s t with
  | zero => exact .error _
  | succ fuel ih =>
    obtain ⟨seen, s, t, sPeek, tPeek, states⟩ := matches_.peek ['<', '>'] states (by decide)
    rw [parseredirs, parseredirs, sPeek, tPeek]
    cases seen with
    | false => exact .ok trees states
    | true =>
      obtain ⟨k, w0, v0, s, t, sTok, tTok, states, -⟩ := matches_.gettoken states
      obtain ⟨kind, w, v, s', t', sFile, tFile, states, words⟩ := matches_.gettoken states
      simp only [sTok, tTok, sFile, tFile]
      by_cases isWord : kind = 'a'
      · rw [if_pos isWord, if_pos isWord]
        exact ih (trees.redircmd (words isWord)) states
      · rw [if_neg isWord, if_neg isWord]
        exact .error _

theorem args_agree (fuel argc : Nat) {c : Cmd W} {c' : Cmd V} {s : σ} {t : τ}
    (trees : c.Like same c') (states : R s t) :
    Agree R same (args S fuel argc c s) (args T fuel argc c' t) := by
  induction fuel generalizing argc c c' s t with
  | zero => exact .error _
  | succ fuel ih =>
    obtain ⟨seen, s, t, sPeek, tPeek, states⟩ :=
      matches_.peek ['|', ')', '&', ';'] states (by decide)
    rw [args, args, sPeek, tPeek]
    cases seen with
    | true => exact .ok trees states
    | false =>
      obtain ⟨k, w, v, s, t, sTok, tTok, states, words⟩ := matches_.gettoken states
      simp only [sTok, tTok]
      by_cases isEnd : k = NUL
      · rw [if_pos isEnd, if_pos isEnd]
        exact .ok trees states
      rw [if_neg isEnd, if_neg isEnd]
      by_cases isWord : k = 'a'
      · rw [if_pos isWord, if_pos isWord]
        by_cases full : MAXARGS ≤ argc + 1
        · rw [if_pos full, if_pos full]
          exact .error _
        · rw [if_neg full, if_neg full]
          exact (parseredirs_agree matches_ fuel (trees.addArg (words isWord)) states).bind
            fun _ _ _ _ trees states => ih (argc + 1) trees states
      · rw [if_neg isWord, if_neg isWord]
        exact .error _

theorem backs_agree (fuel : Nat) {c : Cmd W} {c' : Cmd V} {s : σ} {t : τ} (trees : c.Like same c')
    (states : R s t) : Agree R same (backs S fuel c s) (backs T fuel c' t) := by
  induction fuel generalizing c c' s t with
  | zero => exact .error _
  | succ fuel ih =>
    obtain ⟨seen, s, t, sPeek, tPeek, states⟩ := matches_.peek ['&'] states (by decide)
    rw [backs, backs, sPeek, tPeek]
    cases seen with
    | false => exact .ok trees states
    | true =>
      obtain ⟨k, w, v, s', t', sTok, tTok, states, -⟩ := matches_.gettoken states
      simp only [sTok, tTok]
      exact ih (.back trees) states

/-- **The parsing functions agree**, for any amount of fuel. -/
theorem parse_agree (fuel : Nat) :
    (∀ s t, R s t → Agree R same (parseline S fuel s) (parseline T fuel t)) ∧
      (∀ s t, R s t → Agree R same (parsepipe S fuel s) (parsepipe T fuel t)) ∧
      (∀ s t, R s t → Agree R same (parseexec S fuel s) (parseexec T fuel t)) ∧
      ∀ s t, R s t → Agree R same (parseblock S fuel s) (parseblock T fuel t) := by
  induction fuel with
  | zero => exact ⟨fun _ _ _ => .error _, fun _ _ _ => .error _, fun _ _ _ => .error _,
      fun _ _ _ => .error _⟩
  | succ fuel ih =>
    obtain ⟨line, pipe, exec, block⟩ := ih
    refine ⟨fun s t states => ?_, fun s t states => ?_, fun s t states => ?_, fun s t states => ?_⟩
    · rw [parseline, parseline]
      refine (pipe s t states).bind fun c c' s t trees states => ?_
      refine (backs_agree matches_ fuel trees states).bind fun c c' s t trees states => ?_
      obtain ⟨seen, s, t, sPeek, tPeek, states⟩ := matches_.peek [';'] states (by decide)
      simp only [sPeek, tPeek]
      cases seen with
      | false => exact .ok trees states
      | true =>
        obtain ⟨k, w, v, s, t, sTok, tTok, states, -⟩ := matches_.gettoken states
        simp only [sTok, tTok]
        exact (line s t states).bind fun _ _ _ _ right states => .ok (.list trees right) states
    · rw [parsepipe, parsepipe]
      refine (exec s t states).bind fun c c' s t trees states => ?_
      obtain ⟨seen, s, t, sPeek, tPeek, states⟩ := matches_.peek ['|'] states (by decide)
      simp only [sPeek, tPeek]
      cases seen with
      | false => exact .ok trees states
      | true =>
        obtain ⟨k, w, v, s, t, sTok, tTok, states, -⟩ := matches_.gettoken states
        simp only [sTok, tTok]
        exact (pipe s t states).bind fun _ _ _ _ right states => .ok (.pipe trees right) states
    · obtain ⟨seen, s, t, sPeek, tPeek, states⟩ := matches_.peek ['('] states (by decide)
      rw [parseexec, parseexec, sPeek, tPeek]
      cases seen with
      | true => exact block s t states
      | false =>
        exact (parseredirs_agree matches_ fuel (.exec .nil) states).bind
          fun _ _ _ _ trees states => args_agree matches_ fuel 0 trees states
    · obtain ⟨seen, s, t, sPeek, tPeek, states⟩ := matches_.peek ['('] states (by decide)
      rw [parseblock, parseblock, sPeek, tPeek]
      cases seen with
      | false => exact .error _
      | true =>
        obtain ⟨k, w, v, s, t, sTok, tTok, states, -⟩ := matches_.gettoken states
        simp only [sTok, tTok]
        refine (line s t states).bind fun c c' s t trees states => ?_
        obtain ⟨seen, s, t, sPeek, tPeek, states⟩ := matches_.peek [')'] states (by decide)
        simp only [sPeek, tPeek]
        cases seen with
        | false => exact .error _
        | true =>
          obtain ⟨k, w, v, s, t, sTok, tTok, states, -⟩ := matches_.gettoken states
          simp only [sTok, tTok]
          exact parseredirs_agree matches_ fuel trees states

end Simulation

/-! ## Lexing -/

section Lexing

variable {s : List Char} {p : Nat} {test : Char → Bool}

theorem charAt_of_drop {c : Char} {rest : List Char} (split : s.drop p = c :: rest) :
    charAt (s ++ [NUL]) p = c := by
  have inside : p < s.length := by
    by_contra out
    rw [List.drop_eq_nil_of_le (by omega)] at split
    cases split
  have found : s[p]? = some c := by rw [← List.head?_drop, split, List.head?_cons]
  rw [charAt, List.getD_eq_getElem?_getD, List.getElem?_append_left inside, found]
  rfl

theorem charAt_end : charAt (s ++ [NUL]) s.length = NUL := by
  rw [charAt, List.getD_eq_getElem?_getD, List.getElem?_append_right (Nat.le_refl _)]
  simp

theorem drop_takeWhile_length (l : List Char) : l.drop (l.takeWhile test).length = l.dropWhile test := by
  have whole := List.takeWhile_append_dropWhile (p := test) (l := l)
  calc l.drop (l.takeWhile test).length
      = (l.takeWhile test ++ l.dropWhile test).drop (l.takeWhile test).length := by rw [whole]
    _ = l.dropWhile test := List.drop_left

/-- A loop over characters stops behind those that pass the test. -/
theorem advance_eq (test : Char → Bool) (fuel : Nat) (le : p ≤ s.length) (enough : s.length ≤ p + fuel) :
    advance test (s ++ [NUL]) s.length fuel p = p + ((s.drop p).takeWhile test).length := by
  induction fuel generalizing p with
  | zero =>
    rw [List.drop_eq_nil_of_le (by omega)]
    rfl
  | succ fuel ih =>
    rw [advance]
    cases split : s.drop p with
    | nil =>
      have out : ¬ p < s.length := by
        have := List.drop_eq_nil_iff.1 split
        omega
      rw [if_neg fun both => out both.1]
      rfl
    | cons c rest =>
      have inside : p < s.length := by
        by_contra out
        rw [List.drop_eq_nil_of_le (by omega)] at split
        cases split
      have onward : s.drop (p + 1) = rest := by rw [← List.drop_drop, split, List.drop_one, List.tail_cons]
      rw [charAt_of_drop split]
      by_cases passes : test c = true
      · rw [if_pos ⟨inside, passes⟩, ih (by omega) (by omega), onward,
          List.takeWhile_cons_of_pos passes, List.length_cons]
        omega
      · rw [if_neg fun both => passes both.2, List.takeWhile_cons_of_neg passes]
        rfl

theorem drop_advance (test : Char → Bool) (le : p ≤ s.length) :
    s.drop (advance test (s ++ [NUL]) s.length s.length p) = (s.drop p).dropWhile test ∧
      advance test (s ++ [NUL]) s.length s.length p ≤ s.length := by
  rw [advance_eq test s.length le (by omega)]
  constructor
  · rw [← List.drop_drop, drop_takeWhile_length]
  · have short := (List.takeWhile_sublist test (l := s.drop p)).length_le
    rw [List.length_drop] at short
    omega

theorem lex_dropWhile (l : List Char) : lex (l.dropWhile fun c => c ∈ whitespace) = lex l := by
  induction l with
  | nil => rfl
  | cons c l ih =>
    by_cases blank : c ∈ whitespace
    · rw [List.dropWhile_cons_of_pos (by simpa using blank), ih, lex, if_pos blank]
    · rw [List.dropWhile_cons_of_neg (by simpa using blank)]

/-- The parser is at `p`, before these tokens. -/
def Before (s : List Char) (p : Nat) (ts : List Tok) : Prop := p ≤ s.length ∧ lex (s.drop p) = ts

/-- After white space is skipped: the end, or a character that starts the first token. -/
theorem skip_cases {ts : List Tok} (before : Before s p ts) :
    Before s (skip (s ++ [NUL]) s.length p) ts ∧
      ((skip (s ++ [NUL]) s.length p = s.length ∧ ts = []) ∨
        ∃ c rest, s.drop (skip (s ++ [NUL]) s.length p) = c :: rest ∧ c ∉ whitespace) := by
  obtain ⟨le, rfl⟩ := before
  obtain ⟨rest, le'⟩ := drop_advance (fun c => c ∈ whitespace) le
  have same : Before s (skip (s ++ [NUL]) s.length p) (lex (s.drop p)) := by
    refine ⟨le', ?_⟩
    rw [skip, rest, lex_dropWhile]
  refine ⟨same, ?_⟩
  rw [skip]
  cases left : (s.drop p).dropWhile fun c => c ∈ whitespace with
  | nil =>
    left
    rw [left] at rest
    have out := List.drop_eq_nil_iff.1 rest
    refine ⟨by omega, ?_⟩
    rw [← lex_dropWhile, left, lex]
  | cons c l =>
    right
    refine ⟨c, l, rest.trans left, ?_⟩
    have stopped := List.head?_dropWhile_not (fun c => decide (c ∈ whitespace)) (s.drop p)
    rw [left] at stopped
    simpa using stopped

/-- The characters that words are made of. -/
def Plain (c : Char) : Prop := isWordChar c = true ∧ c ≠ NUL

/-- The buffer has these characters at `q`, all of them plain. -/
def Spells (buf : List Char) : Nat → Word → Prop
  | _, [] => True
  | q, c :: t => charAt buf q = c ∧ Plain c ∧ Spells buf (q + 1) t

/-- A pair of pointers, and the word between them; what is behind it is not plain. -/
structure IsWord (buf : List Char) (w : Nat × Nat) (t : Word) : Prop where
  spells : Spells buf w.1 t
  ends : w.2 = w.1 + t.length
  stops : ¬ Plain (charAt buf w.2)

theorem spells_of_drop {t : Word} (post : Word) (split : s.drop p = t ++ post) (plain : ∀ c ∈ t, Plain c) :
    Spells (s ++ [NUL]) p t := by
  induction t generalizing p with
  | nil => trivial
  | cons c t ih =>
    refine ⟨charAt_of_drop split, plain c (by simp), ih ?_ fun d member => plain d (by simp [member])⟩
    rw [← List.drop_drop, split]
    rfl

theorem not_plain_of_drop {l : List Char} (split : s.drop p = l.dropWhile isWordChar)
    (le : p ≤ s.length) : ¬ Plain (charAt (s ++ [NUL]) p) := by
  cases rest : l.dropWhile isWordChar with
  | nil =>
    rw [rest] at split
    have out := List.drop_eq_nil_iff.1 split
    obtain rfl : p = s.length := by omega
    rw [charAt_end]
    exact fun plain => plain.2 rfl
  | cons c rest' =>
    have stopped := List.head?_dropWhile_not isWordChar l
    rw [rest] at stopped split
    rw [charAt_of_drop split]
    rintro ⟨isChar, -⟩
    simp [isChar] at stopped

/-- The sign a character stands for. -/
theorem lex_sign {c : Char} (rest : List Char) (isSign : c ∈ ['|', '(', ')', ';', '&', '<']) :
    ∃ t, lex (c :: rest) = t :: lex rest ∧ t.code = c ∧ t.first = c := by
  simp only [List.mem_cons, List.not_mem_nil, or_false] at isSign
  rcases isSign with rfl | rfl | rfl | rfl | rfl | rfl
  · exact ⟨.bar, by rw [lex]; simp [whitespace], rfl, rfl⟩
  · exact ⟨.left, by rw [lex]; simp [whitespace], rfl, rfl⟩
  · exact ⟨.right, by rw [lex]; simp [whitespace], rfl, rfl⟩
  · exact ⟨.semi, by rw [lex]; simp [whitespace], rfl, rfl⟩
  · exact ⟨.amp, by rw [lex]; simp [whitespace], rfl, rfl⟩
  · exact ⟨.dir .input, by rw [lex]; simp [whitespace], rfl, rfl⟩

theorem lex_greater (rest : List Char) :
    lex ('>' :: rest) =
      if rest.head? = some '>' then .dir .append :: lex rest.tail else .dir .output :: lex rest := by
  rw [lex]
  simp [whitespace]

theorem lex_word {c : Char} {rest : List Char} (isChar : isWordChar c = true) :
    lex (c :: rest) =
      .word (c :: rest.takeWhile isWordChar) :: lex (rest.dropWhile isWordChar) := by
  rw [lex]
  simp only [isWordChar, symbols, List.mem_cons, List.not_mem_nil, or_false, not_or,
    Bool.and_eq_true, decide_eq_true_eq] at isChar
  simp [isChar]

/-- What a character that is no white space can be. -/
theorem char_cases {c : Char} (notBlank : c ∉ whitespace) :
    c ∈ ['|', '(', ')', ';', '&', '<'] ∨ c = '>' ∨ isWordChar c = true := by
  by_cases isSymbol : c ∈ symbols
  · simp only [symbols, List.mem_cons, List.not_mem_nil, or_false] at isSymbol ⊢
    tauto
  · exact .inr (.inr (by simp [isWordChar, notBlank, isSymbol]))

/-- The first character of the first token. -/
theorem lex_first {c : Char} (rest : List Char) (notBlank : c ∉ whitespace) :
    ∃ t ts, lex (c :: rest) = t :: ts ∧ (t.first = c ∨ (t.first ∉ symbols ∧ c ∉ symbols)) := by
  rcases char_cases notBlank with isSign | rfl | isChar
  · obtain ⟨t, lexed, -, first⟩ := lex_sign rest isSign
    exact ⟨t, _, lexed, .inl first⟩
  · rw [lex_greater]
    split
    · exact ⟨_, _, rfl, .inl rfl⟩
    · exact ⟨_, _, rfl, .inl rfl⟩
  · refine ⟨_, _, lex_word isChar, .inr ⟨by simp [Tok.first, Tok.code, symbols], ?_⟩⟩
    simp only [isWordChar, Bool.and_eq_true, decide_eq_true_eq] at isChar
    exact isChar.2

theorem drop_succ_of_cons {c : Char} {rest : List Char} (split : s.drop p = c :: rest) :
    s.drop (p + 1) = rest ∧ p + 1 ≤ s.length := by
  refine ⟨by rw [← List.drop_drop, split, List.drop_one, List.tail_cons], ?_⟩
  by_contra out
  rw [List.drop_eq_nil_of_le (by omega)] at split
  cases split

/-- **`peek`** on characters sees what it sees on tokens. -/
theorem peek_match (isString : NUL ∉ s) {ts : List Tok} {cs : List Char} (before : Before s p ts)
    (known : cs ⊆ symbols) :
    ∃ seen p', peek (s ++ [NUL]) s.length p cs = (seen, p') ∧ tokens.peek ts cs = (seen, ts) ∧
      Before s p' ts := by
  obtain ⟨before', cases_⟩ := skip_cases before
  refine ⟨_, _, rfl, ?_, before'⟩
  rcases cases_ with ⟨isEnd, rfl⟩ | ⟨c, rest, split, notBlank⟩
  · simp [isEnd, charAt_end]
  · obtain ⟨t, ts', lexed, first⟩ := lex_first rest notBlank
    obtain rfl : t :: ts' = ts := by rw [← lexed, ← split, before'.2]
    have notNul : c ≠ NUL := by
      rintro rfl
      exact isString (List.mem_of_mem_drop (split ▸ List.mem_cons_self))
    rw [charAt_of_drop split, peek_cons]
    rcases first with same | ⟨noSymbol, noSymbol'⟩
    · simp [same, notNul]
    · have unseen : t.first ∉ cs := fun member => noSymbol (known member)
      have unseen' : c ∉ cs := fun member => noSymbol' (known member)
      simp [unseen, unseen']

/-- **`gettoken`** reads the first token, and returns the pointers of a word. -/
theorem gettoken_match (isString : NUL ∉ s) {ts : List Tok} (before : Before s p ts) :
    ∃ k w v p' ts', gettoken (s ++ [NUL]) s.length p = ((k, w), p') ∧
      tokens.gettoken ts = ((k, v), ts') ∧ Before s p' ts' ∧ (k = 'a' → IsWord (s ++ [NUL]) w v) := by
  obtain ⟨before', cases_⟩ := skip_cases before
  rw [gettoken]
  generalize skip (s ++ [NUL]) s.length p = q at before' cases_
  rcases cases_ with ⟨rfl, rfl⟩ | ⟨c, rest, split, notBlank⟩
  · -- the end of the string
    simp only [charAt_end, if_pos]
    refine ⟨_, _, _, _, _, rfl, rfl, (skip_cases before').1, ?_⟩
    intro isWord
    cases isWord
  have notNul : c ≠ NUL := by
    rintro rfl
    exact isString (List.mem_of_mem_drop (split ▸ List.mem_cons_self))
  obtain ⟨onward, inside⟩ := drop_succ_of_cons split
  obtain ⟨le, lexed⟩ := before'
  rw [split] at lexed
  simp only [charAt_of_drop split, if_neg notNul]
  rcases char_cases notBlank with isSign | rfl | isChar
  · obtain ⟨t, lexedSign, code, -⟩ := lex_sign rest isSign
    rw [lexedSign] at lexed
    subst lexed
    simp only [if_pos isSign]
    refine ⟨_, _, _, _, _, rfl, by rw [gettoken_cons, code], ?_, ?_⟩
    · exact (skip_cases ⟨inside, by rw [onward]⟩).1
    · rintro rfl
      simp at isSign
  · rw [lex_greater] at lexed
    simp only [List.mem_cons, List.not_mem_nil, or_false, Char.reduceEq, if_false, if_true]
    by_cases double : rest.head? = some '>'
    · obtain ⟨rest, rfl⟩ : ∃ more, rest = '>' :: more := by
        cases rest with
        | nil => cases double
        | cons d more =>
          obtain rfl : d = '>' := Option.some.inj double
          exact ⟨more, rfl⟩
      obtain ⟨onward', inside'⟩ := drop_succ_of_cons onward
      rw [if_pos double] at lexed
      subst lexed
      simp only [charAt_of_drop onward, if_pos]
      refine ⟨_, _, _, _, _, rfl, rfl, (skip_cases ⟨inside', ?_⟩).1, ?_⟩
      · rw [onward', List.tail_cons]
      · intro isWord
        cases isWord
    · have single : charAt (s ++ [NUL]) (q + 1) ≠ '>' := by
        cases rest with
        | nil =>
          have out := List.drop_eq_nil_iff.1 onward
          obtain isEnd : q + 1 = s.length := by omega
          rw [isEnd, charAt_end]
          decide
        | cons d more =>
          rw [charAt_of_drop onward]
          simpa using double
      rw [if_neg double] at lexed
      subst lexed
      simp only [if_neg single]
      refine ⟨_, _, _, _, _, rfl, rfl, (skip_cases ⟨inside, by rw [onward]⟩).1, ?_⟩
      intro isWord
      cases isWord
  · rw [lex_word isChar] at lexed
    subst lexed
    have notSign : c ∉ ['|', '(', ')', ';', '&', '<'] ∧ c ≠ '>' := by
      simp only [isWordChar, symbols, List.mem_cons, List.not_mem_nil, or_false, not_or,
        Bool.and_eq_true, decide_eq_true_eq] at isChar ⊢
      tauto
    simp only [if_neg notSign.1, if_neg notSign.2]
    obtain ⟨left, le'⟩ := drop_advance isWordChar le
    have length := advance_eq isWordChar s.length le (by omega)
    rw [split, List.takeWhile_cons_of_pos isChar] at length
    rw [split, List.dropWhile_cons_of_pos isChar] at left
    refine ⟨_, _, _, _, _, rfl, rfl, (skip_cases ⟨le', by rw [left]⟩).1, fun _ => ⟨?_, length, ?_⟩⟩
    · refine spells_of_drop (rest.dropWhile isWordChar) ?_ ?_
      · rw [split, Tok.text, List.cons_append, List.takeWhile_append_dropWhile]
      · intro d member
        have inString : d ∈ s := by
          refine List.mem_of_mem_drop (i := q) (split ▸ ?_)
          rcases List.mem_cons.1 member with rfl | later
          · exact List.mem_cons_self
          · exact List.mem_cons_of_mem _ ((List.takeWhile_sublist _).subset later)
        refine ⟨?_, fun isNul => isString (isNul ▸ inString)⟩
        rcases List.mem_cons.1 member with rfl | later
        · exact isChar
        · exact List.mem_takeWhile_imp later
    · exact not_plain_of_drop left le'

theorem chars_match (isString : NUL ∉ s) :
    Matches (chars (s ++ [NUL]) s.length) tokens (Before s) (IsWord (s ++ [NUL])) where
  peek cs before known := by
    obtain ⟨seen, p', ofChars, ofTokens, before'⟩ := peek_match isString before known
    exact ⟨seen, p', _, ofChars, ofTokens, before'⟩
  gettoken before := gettoken_match isString before

end Lexing

/-! ## nulterminate -/

section Strings

variable {buf : List Char} {q : Nat} {t : Word}

/-- The places where `nulterminate` writes. -/
def Cmd.ends : Cmd (Nat × Nat) → List Nat
  | .exec argv => argv.map Prod.snd
  | .redir cmd file _ _ => cmd.ends ++ [file.2]
  | .pipe left right => left.ends ++ right.ends
  | .list left right => left.ends ++ right.ends
  | .back cmd => cmd.ends

theorem charAt_set (buf : List Char) (e i : Nat) :
    charAt (buf.set e NUL) i = if i = e then NUL else charAt buf i := by
  rw [charAt, charAt, List.getD_eq_getElem?_getD, List.getD_eq_getElem?_getD, List.getElem?_set]
  by_cases same : e = i
  · subst same
    by_cases inside : e < buf.length <;> simp [inside]
  · have ne : i ≠ e := fun equal => same equal.symm
    simp [same, ne]

theorem charAt_sets (argv : List (Nat × Nat)) (buf : List Char) (i : Nat) :
    charAt (argv.foldl (fun buf w => buf.set w.2 NUL) buf) i =
      if i ∈ argv.map Prod.snd then NUL else charAt buf i := by
  induction argv generalizing buf with
  | nil => simp
  | cons w argv ih =>
    rw [List.foldl_cons, ih, charAt_set, List.map_cons]
    by_cases later : i ∈ argv.map Prod.snd
    · rw [if_pos later, if_pos (List.mem_cons_of_mem _ later)]
    · by_cases now : i = w.2
      · rw [if_neg later, if_pos now, if_pos (now ▸ List.mem_cons_self)]
      · rw [if_neg later, if_neg now, if_neg]
        exact fun member => (List.mem_cons.1 member).elim now later

theorem charAt_nulterminate (c : Cmd (Nat × Nat)) (buf : List Char) (i : Nat) :
    charAt (nulterminate c buf) i = if i ∈ c.ends then NUL else charAt buf i := by
  induction c generalizing buf with
  | exec argv => exact charAt_sets argv buf i
  | redir cmd file mode fd ih =>
    rw [nulterminate, charAt_set, ih, Cmd.ends]
    by_cases last : i = file.2
    · simp [last]
    · simp [last]
  | pipe left right ihLeft ihRight =>
    rw [nulterminate, ihRight, ihLeft, Cmd.ends]
    by_cases inRight : i ∈ right.ends <;> simp [inRight]
  | list left right ihLeft ihRight =>
    rw [nulterminate, ihRight, ihLeft, Cmd.ends]
    by_cases inRight : i ∈ right.ends <;> simp [inRight]
  | back cmd ih => exact ih buf

theorem cstring_nul (isNul : charAt buf q = NUL) : cstring buf q = [] := by
  rw [cstring]
  rw [charAt, List.getD_eq_getElem?_getD, ← List.head?_drop] at isNul
  cases rest : buf.drop q with
  | nil => rfl
  | cons c l =>
    rw [rest] at isNul
    obtain rfl : c = NUL := isNul
    exact List.takeWhile_cons_of_neg (by simp)

theorem cstring_cons {c : Char} (isChar : charAt buf q = c) (notNul : c ≠ NUL) :
    cstring buf q = c :: cstring buf (q + 1) := by
  rw [cstring, cstring]
  rw [charAt, List.getD_eq_getElem?_getD, ← List.head?_drop] at isChar
  rw [← List.drop_drop]
  cases rest : buf.drop q with
  | nil =>
    rw [rest] at isChar
    exact absurd isChar.symm notNul
  | cons d l =>
    rw [rest] at isChar
    obtain rfl : d = c := isChar
    rw [List.takeWhile_cons_of_pos (by simpa using notNul)]
    rfl

/-- A word that is intact and has a NUL behind it is a C string. -/
theorem cstring_of_spells {buf' : List Char} (spells : Spells buf q t)
    (kept : ∀ i, Plain (charAt buf i) → charAt buf' i = charAt buf i)
    (ended : charAt buf' (q + t.length) = NUL) : cstring buf' q = t := by
  induction t generalizing q with
  | nil => exact cstring_nul ended
  | cons c t ih =>
    obtain ⟨isChar, plain, rest⟩ := spells
    have same : charAt buf' q = c := (kept q (isChar ▸ plain)).trans isChar
    rw [cstring_cons same plain.2, ih rest]
    rw [List.length_cons] at ended
    rwa [Nat.add_assoc, Nat.add_comm 1]

/-- No word has a plain character where `nulterminate` writes. -/
theorem Cmd.Like.ends_stop {c : Cmd (Nat × Nat)} {tree : Cmd Word} (like : c.Like (IsWord buf) tree) :
    ∀ e ∈ c.ends, ¬ Plain (charAt buf e) := by
  have ofArgs : ∀ {argv : List (Nat × Nat)} {argv' : List Word},
      List.Forall₂ (IsWord buf) argv argv' → ∀ e ∈ argv.map Prod.snd, ¬ Plain (charAt buf e) := by
    intro argv argv' args
    induction args with
    | nil => simp
    | cons isWord _ ih =>
      intro e member
      rcases List.mem_cons.1 member with rfl | later
      · exact isWord.stops
      · exact ih e later
  induction like with
  | exec args => exact ofArgs args
  | redir _ isWord ih =>
    intro e member
    rcases List.mem_append.1 member with inner | last
    · exact ih e inner
    · obtain rfl := List.mem_singleton.1 last
      exact isWord.stops
  | pipe _ _ ihLeft ihRight =>
    intro e member
    exact (List.mem_append.1 member).elim (ihLeft e) (ihRight e)
  | list _ _ ihLeft ihRight =>
    intro e member
    exact (List.mem_append.1 member).elim (ihLeft e) (ihRight e)
  | back _ ih => exact ih

/-- In a buffer with NULs at the ends of its words, and plain characters as they were, a tree
has the strings of its words. -/
theorem Cmd.Like.strings_eq {c : Cmd (Nat × Nat)} {tree : Cmd Word} {buf' : List Char}
    (like : c.Like (IsWord buf) tree)
    (kept : ∀ i, Plain (charAt buf i) → charAt buf' i = charAt buf i)
    (ended : ∀ e ∈ c.ends, charAt buf' e = NUL) : c.strings buf' = tree := by
  have ofWord : ∀ {w : Nat × Nat} {t : Word}, IsWord buf w t → charAt buf' w.2 = NUL →
      cstring buf' w.1 = t := by
    intro w t isWord nul
    exact cstring_of_spells isWord.spells kept (isWord.ends ▸ nul)
  induction like with
  | @exec argv argv' args =>
    show Cmd.exec _ = _
    congr 1
    induction args with
    | nil => rfl
    | cons isWord _ ih =>
      rw [List.map_cons, ofWord isWord (ended _ (by simp [Cmd.ends])), ih]
      intro e member
      exact ended e (List.mem_cons_of_mem _ member)
  | redir _ isWord ih =>
    rw [Cmd.strings, ih fun e member => ended e (List.mem_append_left _ member),
      ofWord isWord (ended _ (by simp [Cmd.ends]))]
  | pipe _ _ ihLeft ihRight =>
    rw [Cmd.strings, ihLeft fun e member => ended e (List.mem_append_left _ member),
      ihRight fun e member => ended e (List.mem_append_right _ member)]
  | list _ _ ihLeft ihRight =>
    rw [Cmd.strings, ihLeft fun e member => ended e (List.mem_append_left _ member),
      ihRight fun e member => ended e (List.mem_append_right _ member)]
  | back _ ih => rw [Cmd.strings, ih ended]

/-- **The strings of the tree are its words**, after `nulterminate`. -/
theorem nulterminate_strings {c : Cmd (Nat × Nat)} {tree : Cmd Word}
    (like : c.Like (IsWord buf) tree) : c.strings (nulterminate c buf) = tree := by
  apply like.strings_eq
  · intro i plain
    rw [charAt_nulterminate, if_neg]
    exact fun isEnd => like.ends_stop i isEnd plain
  · intro e isEnd
    rw [charAt_nulterminate, if_pos isEnd]

end Strings

/-! ## parsecmd -/

theorem length_lex_le (l : List Char) : (lex l).length ≤ l.length := by
  induction size : l.length using Nat.strong_induction_on generalizing l with
  | _ n ih =>
    subst size
    cases l with
    | nil => simp [lex]
    | cons c rest =>
      have shorter : ∀ l : List Char, l.length ≤ rest.length → (lex l).length ≤ rest.length := by
        intro l le
        exact (ih l.length (by rw [List.length_cons]; omega) l rfl).trans le
      rw [List.length_cons]
      by_cases blank : c ∈ whitespace
      · rw [lex, if_pos blank]
        exact (shorter rest (Nat.le_refl _)).trans (Nat.le_succ _)
      rcases char_cases blank with isSign | rfl | isChar
      · obtain ⟨t, lexed, -⟩ := lex_sign rest isSign
        rw [lexed, List.length_cons]
        exact Nat.succ_le_succ (shorter rest (Nat.le_refl _))
      · rw [lex_greater]
        split
        · exact Nat.succ_le_succ (shorter _ (by simp))
        · exact Nat.succ_le_succ (shorter rest (Nat.le_refl _))
      · rw [lex_word isChar, List.length_cons]
        exact Nat.succ_le_succ (shorter _ (List.dropWhile_suffix _).length_le)

variable {s : List Char}

/-- The stop that the parser reports is not `loops`: it has panicked. -/
theorem parsecmd_cases (isString : NUL ∉ s) :
    (∃ d c, Line.yield d = lex s ∧ c.Like (IsWord (s ++ [NUL])) d.cmd ∧
        parsecmd s = .ok (c, nulterminate c (s ++ [NUL]))) ∨
      (∃ e, parsecmd s = .error e ∧ e ≠ .loops) ∧ ∀ d, Line.yield d ≠ lex s := by
  have fuel : 4 * (lex s).length + 4 ≤ enough s.length := by
    have := length_lex_le s
    unfold enough
    omega
  have agree := (parse_agree (chars_match isString) (enough s.length)).1 0 (lex s)
    ⟨Nat.zero_le _, by rw [List.drop_zero]⟩
  have accepted : ∀ d : Line, d.yield = lex s →
      parseline tokens (enough s.length) (lex s) = .ok (d.cmd, []) := by
    intro d derives
    have parsed := @Line.parse d (enough s.length) [] (by rw [derives]; exact fuel)
      (by simp [Starts])
    rwa [List.append_nil, derives] at parsed
  rw [parsecmd]
  rcases parseline_outcome (lex s) fuel with ⟨d, r, split, result⟩ | ⟨msg, panics⟩
  · rw [result] at agree
    generalize parseline (chars (s ++ [NUL]) s.length) (enough s.length) 0 = parsed at agree
    cases agree with
    | @ok c c' p t like before =>
      obtain ⟨⟨le, lexed⟩, atEnd⟩ := skip_cases before
      show _ ∨ (∃ e, (if skip (s ++ [NUL]) s.length p = s.length then _ else _) = Except.error e ∧ _) ∧ _
      rcases atEnd with ⟨isEnd, rfl⟩ | ⟨c0, rest, drop, notBlank⟩
      · left
        refine ⟨d, c, by simpa using split.symm, like, ?_⟩
        exact if_pos isEnd
      · right
        obtain ⟨-, inside⟩ := drop_succ_of_cons drop
        obtain ⟨t', ts', lexedFirst, -⟩ := lex_first rest notBlank
        rw [drop, lexedFirst] at lexed
        refine ⟨⟨_, if_neg (by omega), by simp⟩, fun d' derives => ?_⟩
        rw [accepted d' derives, ← lexed] at result
        cases (Prod.mk.inj (Except.ok.inj result)).2
  · rw [panics] at agree
    generalize parseline (chars (s ++ [NUL]) s.length) (enough s.length) 0 = parsed at agree
    cases agree with
    | error e =>
      refine .inr ⟨⟨_, rfl, by simp⟩, fun d derives => ?_⟩
      rw [accepted d derives] at panics
      cases panics

/-- **The shell's parser is correct**: it ends; it returns a tree exactly for the strings of
the grammar; the derivation is unique; and the tree, with the strings that its pointers lead
to after `nulterminate`, is that of the derivation. -/
theorem parsecmd_correct (s : List Char) (isString : NUL ∉ s) :
    parsecmd s ≠ .error .loops ∧
      ((∃ c buf, parsecmd s = .ok (c, buf)) ↔ ∃ d : Line, d.yield = lex s) ∧
      (∀ d d' : Line, d.yield = lex s → d'.yield = lex s → d = d') ∧
      ∀ c buf, parsecmd s = .ok (c, buf) → ∃ d : Line, d.yield = lex s ∧ c.strings buf = d.cmd := by
  have unique : ∀ d d' : Line, d.yield = lex s → d'.yield = lex s → d = d' := by
    intro d d' derives derives'
    exact (@Line.yield_inj d d' [] [] (by simp [Starts]) (by simp [Starts])
      (by rw [derives, derives'])).1
  rcases parsecmd_cases isString with ⟨d, c, derives, like, result⟩ | ⟨⟨e, stopped, ends⟩, none_⟩
  · refine ⟨by rw [result]; simp, ⟨fun _ => ⟨d, derives⟩, fun _ => ⟨_, _, result⟩⟩, unique, ?_⟩
    intro c' buf result'
    rw [result] at result'
    obtain ⟨rfl, rfl⟩ := Prod.mk.injEq .. ▸ Except.ok.inj result'
    exact ⟨d, derives, nulterminate_strings like⟩
  · refine ⟨?_, ⟨?_, ?_⟩, unique, ?_⟩
    · rw [stopped]
      intro same
      exact ends (Except.error.inj same)
    · rintro ⟨c, buf, result⟩
      rw [stopped] at result
      cases result
    · rintro ⟨d, derives⟩
      exact absurd derives (none_ d)
    · intro c buf result
      rw [stopped] at result
      cases result

theorem parsecmd_correct_line :
    ∃ c buf, parsecmd "(ls -l >out|wc);echo a>>b&".toList = .ok (c, buf) ∧
      c.strings buf = .list
        (.pipe (.redir (.exec [['l', 's'], ['-', 'l']]) ['o', 'u', 't'] 513 1) (.exec [['w', 'c']]))
        (.back (.redir (.exec [['e', 'c', 'h', 'o'], ['a']]) ['b'] 513 1)) ∧
      ∃ d : Line, d.yield = lex "(ls -l >out|wc);echo a>>b&".toList ∧ c.strings buf = d.cmd := by
  have parsed : (parsecmd "(ls -l >out|wc);echo a>>b&".toList).toOption.map
      (fun r => r.1.strings r.2) = some (.list
        (.pipe (.redir (.exec [['l', 's'], ['-', 'l']]) ['o', 'u', 't'] 513 1) (.exec [['w', 'c']]))
        (.back (.redir (.exec [['e', 'c', 'h', 'o'], ['a']]) ['b'] 513 1))) := by decide +kernel
  obtain ⟨-, -, -, tree⟩ := parsecmd_correct "(ls -l >out|wc);echo a>>b&".toList (by decide +kernel)
  cases result : parsecmd "(ls -l >out|wc);echo a>>b&".toList with
  | error e =>
    rw [result] at parsed
    cases parsed
  | ok r =>
    rw [result] at parsed
    exact ⟨r.1, r.2, rfl, Option.some.inj parsed, tree r.1 r.2 result⟩

end Xv6Rpi.User.Shell
