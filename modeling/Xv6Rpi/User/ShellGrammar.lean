/-
# User.ShellGrammar -- the shell's language

What the parser is for, independent of it: the tokens of a string (`lex`), and the grammar

    line    ::= pipe '&'* [';' line]
    pipe    ::= command ['|' pipe]
    command ::= '(' line ')' redir*  |  redir* (word redir*)*
    redir   ::= ('<' | '>' | '>>') word

with fewer than `MAXARGS` words in a command.  A derivation is a value of `Line`; `yield` gives
its tokens and `cmd` its tree, with redirections nested in source order.

The grammar is unambiguous: a derivation is determined by its tokens (`Line.yield_inj`).
-/
import Mathlib.Logic.Function.Iterate
import Xv6Rpi.User.Shell

namespace Xv6Rpi.User.Shell

set_option autoImplicit false

abbrev Word := List Char

/-- `<`, `>` and `>>` -/
inductive Dir where
  | input
  | output
  | append
  deriving DecidableEq, Repr

inductive Tok where
  | word (w : Word)
  | dir (d : Dir)
  | bar
  | left
  | right
  | semi
  | amp
  deriving DecidableEq, Repr

/-! ## Tokens -/

/-- The tokens of a string: symbols, and runs of characters that are neither symbols nor white
space. -/
def lex : List Char → List Tok
  | [] => []
  | c :: rest =>
    if c ∈ whitespace then lex rest
    else if c = '|' then .bar :: lex rest
    else if c = '(' then .left :: lex rest
    else if c = ')' then .right :: lex rest
    else if c = ';' then .semi :: lex rest
    else if c = '&' then .amp :: lex rest
    else if c = '<' then .dir .input :: lex rest
    else if c = '>' then
      if rest.head? = some '>' then .dir .append :: lex rest.tail else .dir .output :: lex rest
    else .word (c :: rest.takeWhile isWordChar) :: lex (rest.dropWhile isWordChar)
termination_by l => l.length
decreasing_by
  all_goals simp only [List.length_cons, List.length_tail]
  all_goals first
    | omega
    | exact Nat.lt_succ_of_le (List.dropWhile_suffix _).length_le

/-! ## Derivations -/

structure Redir where
  dir : Dir
  file : Word
  deriving DecidableEq, Repr

mutual

inductive Line where
  | last (p : Pipe) (amps : Nat)
  | seq (p : Pipe) (amps : Nat) (rest : Line)

inductive Pipe where
  | last (c : Command)
  | pipe (c : Command) (rest : Pipe)

inductive Command where
  | block (l : Line) (rs : List Redir)
  | simple (rs : List Redir) (ws : List (Word × List Redir)) (few : ws.length < MAXARGS)

end

def redirs (rs : List Redir) : List Tok := rs.flatMap fun r => [.dir r.dir, .word r.file]

def words (ws : List (Word × List Redir)) : List Tok := ws.flatMap fun w => .word w.1 :: redirs w.2

mutual

/-- The tokens of a derivation. -/
def Line.yield : Line → List Tok
  | .last p amps => p.yield ++ List.replicate amps .amp
  | .seq p amps rest => p.yield ++ (List.replicate amps .amp ++ .semi :: rest.yield)

def Pipe.yield : Pipe → List Tok
  | .last c => c.yield
  | .pipe c rest => c.yield ++ .bar :: rest.yield

def Command.yield : Command → List Tok
  | .block l rs => .left :: (l.yield ++ .right :: redirs rs)
  | .simple rs ws _ => redirs rs ++ words ws

end

/-- The mode and the descriptor of a redirection. -/
def Dir.wrap (d : Dir) (file : Word) (c : Cmd Word) : Cmd Word :=
  match d with
  | .input => .redir c file ORDONLY 0
  | .output => .redir c file (OWRONLY ||| OCREATE) 1
  | .append => .redir c file (OWRONLY ||| OCREATE) 1

/-- Redirections in source order, the first one inside. -/
def wrap (rs : List Redir) (c : Cmd Word) : Cmd Word := rs.foldl (fun c r => r.dir.wrap r.file c) c

mutual

/-- The tree of a derivation. -/
def Line.cmd : Line → Cmd Word
  | .last p amps => Cmd.back^[amps] p.cmd
  | .seq p amps rest => .list (Cmd.back^[amps] p.cmd) rest.cmd

def Pipe.cmd : Pipe → Cmd Word
  | .last c => c.cmd
  | .pipe c rest => .pipe c.cmd rest.cmd

def Command.cmd : Command → Cmd Word
  | .block l rs => wrap rs l.cmd
  | .simple rs ws _ => wrap (rs ++ ws.flatMap Prod.snd) (.exec (ws.map Prod.fst))

end

/-! ## Unambiguity -/

/-- The tokens are none, or start with one of these. -/
def Starts (first : Tok → Prop) (r : List Tok) : Prop := ∀ t ∈ r.head?, first t

/-- What can follow a line, a pipe and a command. -/
def AfterLine (t : Tok) : Prop := t = .right
def AfterPipe (t : Tok) : Prop := t = .right ∨ t = .amp ∨ t = .semi
def AfterCommand (t : Tok) : Prop := t = .right ∨ t = .amp ∨ t = .semi ∨ t = .bar

variable {r r' : List Tok}

theorem Starts.mono {first first' : Tok → Prop} (starts : Starts first r)
    (weaker : ∀ t, first t → first' t) : Starts first' r :=
  fun t isHead => weaker t (starts t isHead)

@[simp] theorem starts_cons {first : Tok → Prop} {t : Tok} : Starts first (t :: r) ↔ first t := by
  simp [Starts]

theorem redirs_cons (a : Redir) (rs : List Redir) :
    redirs (a :: rs) = .dir a.dir :: .word a.file :: redirs rs := rfl

theorem words_cons (w : Word × List Redir) (ws : List (Word × List Redir)) :
    words (w :: ws) = .word w.1 :: (redirs w.2 ++ words ws) := rfl

/-- Redirections end where something else starts. -/
theorem redirs_inj {rs rs' : List Redir} (starts : Starts (fun t => ∀ d, t ≠ .dir d) r)
    (starts' : Starts (fun t => ∀ d, t ≠ .dir d) r') (same : redirs rs ++ r = redirs rs' ++ r') :
    rs = rs' ∧ r = r' := by
  induction rs generalizing rs' with
  | nil =>
    cases rs' with
    | nil => exact ⟨rfl, same⟩
    | cons b rs' =>
      obtain rfl : r = _ := same
      rw [redirs_cons, List.cons_append, starts_cons] at starts
      exact absurd rfl (starts b.dir)
  | cons a rs ih =>
    cases rs' with
    | nil =>
      obtain rfl : _ = r' := same
      rw [redirs_cons, List.cons_append, starts_cons] at starts'
      exact absurd rfl (starts' a.dir)
    | cons b rs' =>
      simp only [redirs_cons, List.cons_append, List.cons.injEq, Tok.dir.injEq, Tok.word.injEq]
        at same
      obtain ⟨sameDir, sameFile, rest⟩ := same
      obtain ⟨rfl, rfl⟩ := ih rest
      obtain ⟨dir, file⟩ := a
      obtain ⟨dir', file'⟩ := b
      obtain rfl : dir = dir' := sameDir
      obtain rfl : file = file' := sameFile
      exact ⟨rfl, rfl⟩

theorem words_start (ws : List (Word × List Redir)) (starts : Starts AfterCommand r) :
    Starts (fun t => ∀ d, t ≠ .dir d) (words ws ++ r) := by
  cases ws with
  | nil =>
    refine starts.mono fun t after d => ?_
    rintro rfl
    simp [AfterCommand] at after
  | cons w ws => simp [words_cons]

/-- So do the words with their redirections. -/
theorem words_inj {ws ws' : List (Word × List Redir)} (starts : Starts AfterCommand r)
    (starts' : Starts AfterCommand r') (same : words ws ++ r = words ws' ++ r') :
    ws = ws' ∧ r = r' := by
  induction ws generalizing ws' with
  | nil =>
    cases ws' with
    | nil => exact ⟨rfl, same⟩
    | cons w' ws' =>
      obtain rfl : r = _ := same
      simp [words_cons, AfterCommand] at starts
  | cons w ws ih =>
    cases ws' with
    | nil =>
      obtain rfl : _ = r' := same
      simp [words_cons, AfterCommand] at starts'
    | cons w' ws' =>
      simp only [words_cons, List.cons_append, List.append_assoc, List.cons.injEq,
        Tok.word.injEq] at same
      obtain ⟨sameWord, rest⟩ := same
      obtain ⟨sameRedirs, rest⟩ := redirs_inj (words_start _ starts) (words_start _ starts') rest
      obtain ⟨rfl, rfl⟩ := ih rest
      obtain ⟨word, rs⟩ := w
      obtain ⟨word', rs'⟩ := w'
      obtain rfl : word = word' := sameWord
      obtain rfl : rs = rs' := sameRedirs
      exact ⟨rfl, rfl⟩

theorem amps_inj {n n' : Nat} (starts : Starts (fun t => t ≠ .amp) r)
    (starts' : Starts (fun t => t ≠ .amp) r')
    (same : List.replicate n Tok.amp ++ r = List.replicate n' Tok.amp ++ r') : n = n' ∧ r = r' := by
  induction n generalizing n' with
  | zero =>
    cases n' with
    | zero => exact ⟨rfl, same⟩
    | succ n' =>
      obtain rfl : r = _ := same
      simp [List.replicate_succ] at starts
  | succ n ih =>
    cases n' with
    | zero =>
      obtain rfl : _ = r' := same
      simp [List.replicate_succ] at starts'
    | succ n' =>
      obtain ⟨rfl, rfl⟩ := ih (List.cons.inj same).2
      exact ⟨rfl, rfl⟩

theorem amps_start {n : Nat} (starts : Starts AfterPipe r) :
    Starts AfterPipe (List.replicate n Tok.amp ++ r) := by
  cases n with
  | zero => simpa using starts
  | succ n => simp [List.replicate_succ, AfterPipe]

theorem Starts.afterPipe (starts : Starts AfterLine r) : Starts AfterPipe r :=
  starts.mono fun _ after => .inl after

theorem Starts.afterCommand (starts : Starts AfterPipe r) : Starts AfterCommand r := by
  refine starts.mono fun t after => ?_
  rcases after with isRight | isAmp | isSemi
  · exact .inl isRight
  · exact .inr (.inl isAmp)
  · exact .inr (.inr (.inl isSemi))

theorem Starts.notAmp (starts : Starts AfterLine r) : Starts (fun t => t ≠ .amp) r := by
  refine starts.mono fun t after => ?_
  rw [after]
  simp

/-- A command that is not a block does not start like one. -/
theorem simple_start (rs : List Redir) (ws : List (Word × List Redir)) (starts : Starts AfterCommand r) :
    Starts (fun t => t ≠ .left) (redirs rs ++ (words ws ++ r)) := by
  cases rs with
  | nil =>
    cases ws with
    | nil =>
      refine starts.mono fun t after => ?_
      rintro rfl
      simp [AfterCommand] at after
    | cons w ws => simp [redirs, words_cons]
  | cons a rs => simp [redirs_cons]

mutual

/-- **The grammar is unambiguous**: tokens determine the derivation, and where it ends. -/
theorem Line.yield_inj : ∀ (d d' : Line) {r r' : List Tok}, Starts AfterLine r →
    Starts AfterLine r' → d.yield ++ r = d'.yield ++ r' → d = d' ∧ r = r'
  | .last p n, .last p' n', r, r', starts, starts', same => by
      simp only [Line.yield, List.append_assoc] at same
      obtain ⟨rfl, rest⟩ := Pipe.yield_inj p p' (amps_start starts.afterPipe)
        (amps_start starts'.afterPipe) same
      obtain ⟨rfl, rfl⟩ := amps_inj starts.notAmp starts'.notAmp rest
      exact ⟨rfl, rfl⟩
  | .last p n, .seq p' n' l', r, r', starts, starts', same => by
      simp only [Line.yield, List.append_assoc, List.cons_append] at same
      obtain ⟨rfl, rest⟩ := Pipe.yield_inj p p' (amps_start starts.afterPipe)
        (amps_start (by simp [AfterPipe])) same
      obtain ⟨rfl, rfl⟩ := amps_inj starts.notAmp (by simp) rest
      simp [AfterLine] at starts
  | .seq p n l, .last p' n', r, r', starts, starts', same => by
      simp only [Line.yield, List.append_assoc, List.cons_append] at same
      obtain ⟨rfl, rest⟩ := Pipe.yield_inj p p' (amps_start (by simp [AfterPipe]))
        (amps_start starts'.afterPipe) same
      obtain ⟨rfl, rfl⟩ := amps_inj (by simp) starts'.notAmp rest
      simp [AfterLine] at starts'
  | .seq p n l, .seq p' n' l', r, r', starts, starts', same => by
      simp only [Line.yield, List.append_assoc, List.cons_append] at same
      obtain ⟨rfl, rest⟩ := Pipe.yield_inj p p' (amps_start (by simp [AfterPipe]))
        (amps_start (by simp [AfterPipe])) same
      obtain ⟨rfl, onward⟩ := amps_inj (by simp) (by simp) rest
      obtain ⟨rfl, rfl⟩ := Line.yield_inj l l' starts starts' (List.cons.inj onward).2
      exact ⟨rfl, rfl⟩

theorem Pipe.yield_inj : ∀ (d d' : Pipe) {r r' : List Tok}, Starts AfterPipe r →
    Starts AfterPipe r' → d.yield ++ r = d'.yield ++ r' → d = d' ∧ r = r'
  | .last c, .last c', r, r', starts, starts', same => by
      obtain ⟨rfl, rfl⟩ := Command.yield_inj c c' starts.afterCommand starts'.afterCommand same
      exact ⟨rfl, rfl⟩
  | .last c, .pipe c' p', r, r', starts, starts', same => by
      simp only [Pipe.yield, List.append_assoc, List.cons_append] at same
      obtain ⟨rfl, rfl⟩ := Command.yield_inj c c' starts.afterCommand (by simp [AfterCommand]) same
      simp [AfterPipe] at starts
  | .pipe c p, .last c', r, r', starts, starts', same => by
      simp only [Pipe.yield, List.append_assoc, List.cons_append] at same
      obtain ⟨rfl, rfl⟩ := Command.yield_inj c c' (by simp [AfterCommand]) starts'.afterCommand same
      simp [AfterPipe] at starts'
  | .pipe c p, .pipe c' p', r, r', starts, starts', same => by
      simp only [Pipe.yield, List.append_assoc, List.cons_append] at same
      obtain ⟨rfl, rest⟩ := Command.yield_inj c c' (by simp [AfterCommand]) (by simp [AfterCommand]) same
      obtain ⟨rfl, rfl⟩ := Pipe.yield_inj p p' starts starts' (List.cons.inj rest).2
      exact ⟨rfl, rfl⟩

theorem Command.yield_inj : ∀ (d d' : Command) {r r' : List Tok}, Starts AfterCommand r →
    Starts AfterCommand r' → d.yield ++ r = d'.yield ++ r' → d = d' ∧ r = r'
  | .block l rs, .block l' rs', r, r', starts, starts', same => by
      simp only [Command.yield, List.append_assoc, List.cons_append] at same
      obtain ⟨rfl, rest⟩ := Line.yield_inj l l' (by simp [AfterLine]) (by simp [AfterLine])
        (List.cons.inj same).2
      obtain ⟨rfl, rfl⟩ := redirs_inj (words_start [] starts) (words_start [] starts')
        (List.cons.inj rest).2
      exact ⟨rfl, rfl⟩
  | .block l rs, .simple rs' ws' few', r, r', starts, starts', same => by
      simp only [Command.yield, List.append_assoc, List.cons_append] at same
      have notLeft := simple_start rs' ws' starts'
      simp [← same] at notLeft
  | .simple rs ws few, .block l' rs', r, r', starts, starts', same => by
      simp only [Command.yield, List.append_assoc, List.cons_append] at same
      have notLeft := simple_start rs ws starts
      simp [same] at notLeft
  | .simple rs ws few, .simple rs' ws' few', r, r', starts, starts', same => by
      simp only [Command.yield, List.append_assoc] at same
      obtain ⟨rfl, rest⟩ := redirs_inj (words_start _ starts) (words_start _ starts') same
      obtain ⟨rfl, rfl⟩ := words_inj starts starts' rest
      exact ⟨rfl, rfl⟩

end

end Xv6Rpi.User.Shell
