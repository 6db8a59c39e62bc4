/-
# User.ShellParse -- the parser accepts the grammar

The parser over a list of tokens (`tokens`) accepts exactly the derivable lists:

* `parseline_outcome`: with enough fuel it panics, or returns the tree of a derivation of the
  tokens it has read;
* `Line.parse`: on the tokens of a derivation, followed by what may follow a line, it returns
  the derivation's tree.
-/
import Xv6Rpi.User.ShellGrammar

namespace Xv6Rpi.User.Shell

set_option autoImplicit false

/-! ## The stream of tokens -/

/-- What `gettoken` returns for a token. -/
def Tok.code : Tok → Char
  | .word _ => 'a'
  | .dir .input => '<'
  | .dir .output => '>'
  | .dir .append => '+'
  | .bar => '|'
  | .left => '('
  | .right => ')'
  | .semi => ';'
  | .amp => '&'

/-- The character `peek` sees; that of a word is no symbol. -/
def Tok.first : Tok → Char
  | .dir .append => '>'
  | t => t.code

def Tok.text : Tok → Word
  | .word w => w
  | _ => []

/-- A list of tokens to read from. -/
def tokens : Stream (List Tok) Word where
  peek ts cs := (ts.head?.any fun t => t.first ∈ cs, ts)
  gettoken
    | [] => ((NUL, []), [])
    | t :: ts => ((t.code, t.text), ts)

@[simp] theorem peek_nil (cs : List Char) : tokens.peek [] cs = (false, []) := rfl

@[simp] theorem peek_cons (t : Tok) (ts : List Tok) (cs : List Char) :
    tokens.peek (t :: ts) cs = (decide (t.first ∈ cs), t :: ts) := rfl

@[simp] theorem gettoken_cons (t : Tok) (ts : List Tok) :
    tokens.gettoken (t :: ts) = ((t.code, t.text), ts) := rfl

/-- A token that cannot start the list is not seen. -/
theorem peek_false {first : Tok → Prop} {r : List Tok} {cs : List Char} (starts : Starts first r)
    (none_ : ∀ t, first t → t.first ∉ cs) : tokens.peek r cs = (false, r) := by
  cases r with
  | nil => rfl
  | cons t r => simp [none_ t (starts_cons.1 starts)]

variable {r : List Tok} {c : Cmd Word} {fuel : Nat}

theorem Tok.first_dir (d : Dir) : (Tok.dir d).first ∈ ['<', '>'] := by cases d <;> decide

theorem Tok.first_mem_dir {t : Tok} : t.first ∈ ['<', '>'] ↔ ∃ d, t = .dir d := by
  rcases t with w | d | _ | _ | _ | _ | _
  · simp [Tok.first, Tok.code]
  · simpa using Tok.first_dir d
  all_goals simp [Tok.first, Tok.code]

/-- A token that is one character and no redirection. -/
def Tok.isSign : Tok → Bool
  | .word _ => false
  | .dir _ => false
  | _ => true

/-- Looking for the character of a sign finds that sign. -/
theorem Tok.first_mem_sign {t x : Tok} (isSign : x.isSign = true) : t.first ∈ [x.first] ↔ t = x := by
  have signs : x = .bar ∨ x = .left ∨ x = .right ∨ x = .semi ∨ x = .amp := by
    cases x <;> simp_all [Tok.isSign]
  rcases t with w | d | _ | _ | _ | _ | _
  · rcases signs with rfl | rfl | rfl | rfl | rfl <;> simp [Tok.first, Tok.code]
  · rcases signs with rfl | rfl | rfl | rfl | rfl <;> cases d <;> simp [Tok.first, Tok.code]
  all_goals rcases signs with rfl | rfl | rfl | rfl | rfl <;> decide

theorem peek_sign_ne {x : Tok} (isSign : x.isSign = true) (starts : Starts (fun t => t ≠ x) r) :
    tokens.peek r [x.first] = (false, r) :=
  peek_false starts fun _ ne seen => ne ((Tok.first_mem_sign isSign).1 seen)

/-! ## Redirections -/

theorem redircmd_dir (d : Dir) (file : Word) : redircmd c (Tok.dir d).code file = d.wrap file c := by
  cases d <;> rfl

theorem parseredirs_dir (d : Dir) (file : Word) (ts : List Tok) :
    parseredirs tokens (fuel + 1) c (.dir d :: .word file :: ts) =
      parseredirs tokens fuel (d.wrap file c) ts := by
  rw [parseredirs, peek_cons, decide_eq_true (Tok.first_dir d), ← redircmd_dir]
  rfl

theorem parseredirs_end (starts : Starts (fun t => ∀ d, t ≠ .dir d) r) :
    parseredirs tokens (fuel + 1) c r = .ok (c, r) := by
  rw [parseredirs, peek_false starts]
  intro t notDir isDir
  obtain ⟨d, rfl⟩ := Tok.first_mem_dir.1 isDir
  exact notDir d rfl

theorem parseredirs_redirs (rs : List Redir) (starts : Starts (fun t => ∀ d, t ≠ .dir d) r)
    (enough : rs.length < fuel) :
    parseredirs tokens fuel c (redirs rs ++ r) = .ok (wrap rs c, r) := by
  induction rs generalizing fuel c with
  | nil =>
    obtain ⟨fuel, rfl⟩ : ∃ n, fuel = n + 1 := ⟨fuel - 1, by simp at enough; omega⟩
    exact parseredirs_end starts
  | cons a rs ih =>
    obtain ⟨fuel, rfl⟩ : ∃ n, fuel = n + 1 := ⟨fuel - 1, by simp at enough; omega⟩
    rw [redirs_cons, List.cons_append, List.cons_append, parseredirs_dir, ih]
    · rfl
    · simpa using enough

/-- A parse panics, or reads something of the grammar and returns its tree. -/
def Outcome {D : Type} (yield : D → List Tok) (tree : D → Cmd Word) (ts : List Tok)
    (result : Parse (Cmd Word × List Tok)) : Prop :=
  (∃ d r, ts = yield d ++ r ∧ result = .ok (tree d, r)) ∨ ∃ msg, result = .error (.panic msg)

theorem parseredirs_outcome (fuel : Nat) (c : Cmd Word) (ts : List Tok) (enough : ts.length < fuel) :
    Outcome redirs (fun rs => wrap rs c) ts (parseredirs tokens fuel c ts) := by
  induction fuel generalizing c ts with
  | zero => omega
  | succ fuel ih =>
    by_cases starts : Starts (fun t => ∀ d, t ≠ .dir d) ts
    · exact .inl ⟨[], ts, rfl, parseredirs_end starts⟩
    · obtain ⟨d, ts, rfl⟩ : ∃ d rest, ts = .dir d :: rest := by
        cases ts with
        | nil => simp [Starts] at starts
        | cons t ts =>
          simp only [starts_cons, not_forall, not_not] at starts
          obtain ⟨d, rfl⟩ := starts
          exact ⟨d, ts, rfl⟩
      rcases ts with _ | ⟨t, ts⟩
      · right
        rw [parseredirs, peek_cons, decide_eq_true (Tok.first_dir d)]
        exact ⟨_, rfl⟩
      · by_cases isWord : ∃ file, t = .word file
        · obtain ⟨file, rfl⟩ := isWord
          rw [parseredirs_dir]
          rcases ih (d.wrap file c) ts (by simp at enough; omega) with
            ⟨rs, r, rfl, result⟩ | panics
          · exact .inl ⟨⟨d, file⟩ :: rs, r, rfl, result⟩
          · exact .inr panics
        · right
          rw [parseredirs, peek_cons, decide_eq_true (Tok.first_dir d)]
          have notWord : t.code ≠ 'a' := by
            rcases t with w | d | _ | _ | _ | _ | _
            · exact absurd ⟨w, rfl⟩ isWord
            · cases d <;> decide
            all_goals decide
          exact ⟨_, if_neg notWord⟩

/-! ## Words -/

theorem addArg_wrap (rs : List Redir) (w : Word) : (wrap rs c).addArg w = wrap rs (c.addArg w) := by
  induction rs generalizing c with
  | nil => rfl
  | cons a rs ih =>
    have inner : (a.dir.wrap a.file c).addArg w = a.dir.wrap a.file (c.addArg w) := by
      cases a.dir <;> rfl
    show (wrap rs (a.dir.wrap a.file c)).addArg w = wrap rs (a.dir.wrap a.file (c.addArg w))
    rw [ih, inner]

theorem wrap_append (rs rs' : List Redir) : wrap (rs ++ rs') c = wrap rs' (wrap rs c) :=
  List.foldl_append

/-- The tree with the words read so far, and the redirections among them. -/
def gathered (rs : List Redir) (argv : List Word) (ws : List (Word × List Redir)) : Cmd Word :=
  wrap (rs ++ ws.flatMap Prod.snd) (.exec (argv ++ ws.map Prod.fst))

theorem gathered_nil (rs : List Redir) (argv : List Word) :
    gathered rs argv [] = wrap rs (.exec argv) := by
  simp [gathered]

theorem gathered_cons (rs : List Redir) (argv : List Word) (w : Word × List Redir)
    (ws : List (Word × List Redir)) :
    gathered rs argv (w :: ws) = gathered (rs ++ w.2) (argv ++ [w.1]) ws := by
  simp [gathered]

theorem addArg_gathered (rs rs' : List Redir) (argv : List Word) (w : Word) :
    wrap rs' ((gathered rs argv []).addArg w) = gathered (rs ++ rs') (argv ++ [w]) [] := by
  rw [gathered_nil, addArg_wrap, gathered_nil, wrap_append]
  rfl

theorem length_redirs (rs : List Redir) : (redirs rs).length = 2 * rs.length := by
  induction rs with
  | nil => rfl
  | cons a rs ih =>
    simp only [redirs_cons, List.length_cons, ih]
    omega

theorem args_word {argc : Nat} {ret : Cmd Word} (w : Word) (ts : List Tok) (few : argc + 1 < MAXARGS) :
    args tokens (fuel + 1) argc ret (.word w :: ts) =
      (parseredirs tokens fuel (ret.addArg w) ts).bind fun r => args tokens fuel (argc + 1) r.1 r.2 := by
  rw [args, peek_cons]
  show (if MAXARGS ≤ argc + 1 then _ else _) = _
  rw [if_neg (by omega)]
  rfl

theorem args_end {argc : Nat} {ret : Cmd Word} (starts : Starts AfterCommand r) :
    args tokens (fuel + 1) argc ret r = .ok (ret, r) := by
  cases r with
  | nil => rfl
  | cons t r =>
    have isEnd : t.first ∈ ['|', ')', '&', ';'] := by
      rcases starts_cons.1 starts with rfl | rfl | rfl | rfl <;> decide
    rw [args, peek_cons, decide_eq_true isEnd]

theorem args_words (ws : List (Word × List Redir)) {argc : Nat} {rs : List Redir} {argv : List Word}
    (starts : Starts AfterCommand r) (few : argc + ws.length < MAXARGS)
    (enough : (words ws).length < fuel) :
    args tokens fuel argc (gathered rs argv []) (words ws ++ r) = .ok (gathered rs argv ws, r) := by
  induction ws generalizing fuel argc rs argv with
  | nil =>
    obtain ⟨fuel, rfl⟩ : ∃ n, fuel = n + 1 := ⟨fuel - 1, by omega⟩
    exact args_end starts
  | cons w ws ih =>
    obtain ⟨fuel, rfl⟩ : ∃ n, fuel = n + 1 := ⟨fuel - 1, by omega⟩
    simp only [words_cons, List.length_cons, List.length_append] at enough few
    have short := length_redirs w.2
    rw [words_cons, List.cons_append, List.append_assoc, args_word _ _ (by omega),
      parseredirs_redirs w.2 (words_start _ starts) (by omega), addArg_gathered, gathered_cons]
    exact ih (by omega) (by omega)

theorem args_outcome (fuel argc : Nat) (rs : List Redir) (argv : List Word) (ts : List Tok)
    (few : argc < MAXARGS) (enough : ts.length < fuel) :
    (∃ ws r, ts = words ws ++ r ∧ argc + ws.length < MAXARGS ∧
        args tokens fuel argc (gathered rs argv []) ts = .ok (gathered rs argv ws, r)) ∨
      ∃ msg, args tokens fuel argc (gathered rs argv []) ts = .error (.panic msg) := by
  induction fuel generalizing argc rs argv ts with
  | zero => omega
  | succ fuel ih =>
    by_cases starts : Starts AfterCommand ts
    · exact .inl ⟨[], ts, rfl, few, args_end starts⟩
    cases ts with
    | nil => simp [Starts] at starts
    | cons t ts =>
      rw [starts_cons] at starts
      by_cases isWord : ∃ w, t = .word w
      · obtain ⟨w, rfl⟩ := isWord
        by_cases more : argc + 1 < MAXARGS
        · rw [args_word w ts more]
          simp only [List.length_cons] at enough
          rcases parseredirs_outcome fuel ((gathered rs argv []).addArg w) ts (by omega)
            with ⟨rs', r, rfl, result⟩ | ⟨msg, panics⟩
          · simp only [result, addArg_gathered, Except.bind]
            simp only [List.length_append] at enough
            rcases ih (argc + 1) (rs ++ rs') (argv ++ [w]) r more (by omega) with
              ⟨ws, r, rfl, fits, result⟩ | panics
            · refine .inl ⟨(w, rs') :: ws, r, ?_, ?_, ?_⟩
              · rw [words_cons, List.cons_append, List.append_assoc]
              · simp only [List.length_cons]
                omega
              · rw [gathered_cons]
                exact result
            · exact .inr panics
          · rw [panics]
            exact .inr ⟨msg, rfl⟩
        · right
          refine ⟨"too many args", ?_⟩
          rw [args, peek_cons]
          show (if MAXARGS ≤ argc + 1 then _ else _) = _
          exact if_pos (by omega)
      · right
        have notEnd : t.first ∉ ['|', ')', '&', ';'] ∧ t.code ≠ NUL ∧ t.code ≠ 'a' := by
          rcases t with w | d | _ | _ | _ | _ | _
          · exact absurd ⟨w, rfl⟩ isWord
          · cases d <;> decide
          · simp [AfterCommand] at starts
          · decide
          all_goals simp [AfterCommand] at starts
        rw [args, peek_cons, decide_eq_false notEnd.1]
        exact ⟨"syntax", (if_neg notEnd.2.1).trans (if_neg notEnd.2.2)⟩

/-! ## Ampersands -/

theorem backs_amp (ts : List Tok) :
    backs tokens (fuel + 1) c (.amp :: ts) = backs tokens fuel (.back c) ts := rfl

theorem backs_end (starts : Starts (fun t => t ≠ .amp) r) : backs tokens (fuel + 1) c r = .ok (c, r) := by
  rw [backs]
  simp only [show ['&'] = [Tok.amp.first] from rfl, peek_sign_ne rfl starts]

theorem backs_amps (fuel n : Nat) (starts : Starts (fun t => t ≠ .amp) r) (enough : n < fuel) :
    backs tokens fuel c (List.replicate n .amp ++ r) = .ok (Cmd.back^[n] c, r) := by
  induction n generalizing fuel c with
  | zero =>
    obtain ⟨fuel, rfl⟩ : ∃ n, fuel = n + 1 := ⟨fuel - 1, by omega⟩
    exact backs_end starts
  | succ n ih =>
    obtain ⟨fuel, rfl⟩ : ∃ n, fuel = n + 1 := ⟨fuel - 1, by omega⟩
    rw [List.replicate_succ, List.cons_append, backs_amp, ih fuel (by omega), Function.iterate_succ_apply]

/-- Any list of tokens starts with some number of ampersands. -/
theorem exists_amps (ts : List Tok) :
    ∃ n r, ts = List.replicate n .amp ++ r ∧ Starts (fun t => t ≠ .amp) r := by
  induction ts with
  | nil => exact ⟨0, [], rfl, by simp [Starts]⟩
  | cons t ts ih =>
    by_cases isAmp : t = .amp
    · obtain ⟨n, r, rfl, starts⟩ := ih
      exact ⟨n + 1, r, by simp [isAmp, List.replicate_succ], starts⟩
    · exact ⟨0, t :: ts, rfl, starts_cons.2 isAmp⟩

/-! ## What is accepted is derivable -/

section Sound

variable (ts : List Tok)

theorem Outcome.panics {D : Type} {yield : D → List Tok} {tree : D → Cmd Word} {ts : List Tok}
    (msg : String) : Outcome yield tree ts (.error (.panic msg)) :=
  .inr ⟨msg, rfl⟩

theorem parseexec_simple (starts : Starts (fun t => t ≠ .left) r) :
    parseexec tokens (fuel + 1) r =
      (parseredirs tokens fuel (.exec []) r).bind fun r => args tokens fuel 0 r.1 r.2 := by
  rw [parseexec]
  simp only [show ['('] = [Tok.left.first] from rfl, peek_sign_ne rfl starts]

/-- A command without a block, with enough fuel. -/
theorem simple_outcome (starts : Starts (fun t => t ≠ .left) ts) (enough : ts.length + 1 < fuel) :
    Outcome Command.yield Command.cmd ts (parseexec tokens fuel ts) := by
  obtain ⟨fuel, rfl⟩ : ∃ n, fuel = n + 1 := ⟨fuel - 1, by omega⟩
  rw [parseexec_simple starts]
  rcases parseredirs_outcome fuel (.exec []) ts (by omega) with
    ⟨rs, r, rfl, result⟩ | ⟨msg, panics⟩
  · rw [result]
    simp only [List.length_append] at enough
    rcases args_outcome fuel 0 rs [] r (by decide) (by omega) with
      ⟨ws, r, rfl, few, result⟩ | ⟨msg, panics⟩
    · refine .inl ⟨.simple rs ws (by omega), r, ?_, ?_⟩
      · simp [Command.yield]
      · rw [gathered_nil] at result
        simpa [Except.bind, Command.cmd, gathered] using result
    · rw [gathered_nil] at panics
      exact .inr ⟨msg, panics⟩
  · rw [panics]
    exact .inr ⟨msg, rfl⟩

/-- The four functions, with the fuel each of them needs: the grammar takes four calls to get
to the next token. -/
structure Sound (fuel : Nat) : Prop where
  line : ∀ ts : List Tok, 4 * ts.length + 4 ≤ fuel →
    Outcome Line.yield Line.cmd ts (parseline tokens fuel ts)
  pipe : ∀ ts : List Tok, 4 * ts.length + 3 ≤ fuel →
    Outcome Pipe.yield Pipe.cmd ts (parsepipe tokens fuel ts)
  exec : ∀ ts : List Tok, 4 * ts.length + 2 ≤ fuel →
    Outcome Command.yield Command.cmd ts (parseexec tokens fuel ts)
  block : ∀ ts : List Tok, 4 * ts.length + 1 ≤ fuel →
    Outcome Command.yield Command.cmd ts (parseblock tokens fuel ts)

theorem Sound.block_succ (sound : Sound fuel) (ts : List Tok) (enough : 4 * ts.length ≤ fuel) :
    Outcome Command.yield Command.cmd ts (parseblock tokens (fuel + 1) ts) := by
  rw [parseblock]
  rcases ts with _ | ⟨t, ts⟩
  · exact .panics _
  by_cases isLeft : t = .left
  · subst isLeft
    simp only [List.length_cons] at enough
    show Outcome _ _ _ ((parseline tokens fuel ts).bind _)
    rcases sound.line ts (by omega) with ⟨l, r, rfl, result⟩ | ⟨msg, panics⟩
    · rw [result]
      simp only [Except.bind]
      rcases r with _ | ⟨t, r⟩
      · exact .panics _
      by_cases isRight : t = .right
      · subst isRight
        show Outcome _ _ _ (parseredirs tokens fuel l.cmd r)
        simp only [List.length_append, List.length_cons] at enough
        rcases parseredirs_outcome fuel l.cmd r (by omega) with
          ⟨rs, r, rfl, result⟩ | panics
        · exact .inl ⟨.block l rs, r, by simp [Command.yield], result⟩
        · exact .inr panics
      · have notRight : Starts (fun t => t ≠ .right) (t :: r) := starts_cons.2 isRight
        simp only [show [')'] = [Tok.right.first] from rfl, peek_sign_ne rfl notRight]
        exact .panics _
    · rw [panics]
      exact .panics _
  · have notLeft : Starts (fun t => t ≠ .left) (t :: ts) := starts_cons.2 isLeft
    simp only [show ['('] = [Tok.left.first] from rfl, peek_sign_ne rfl notLeft]
    exact .panics _

theorem Sound.exec_succ (sound : Sound fuel) (ts : List Tok) (enough : 4 * ts.length + 1 ≤ fuel) :
    Outcome Command.yield Command.cmd ts (parseexec tokens (fuel + 1) ts) := by
  rcases ts with _ | ⟨t, ts⟩
  · exact simple_outcome [] (by simp [Starts]) (by simp; omega)
  by_cases isLeft : t = .left
  · subst isLeft
    exact sound.block (.left :: ts) enough
  · exact simple_outcome (t :: ts) (starts_cons.2 isLeft) (by omega)

theorem Sound.pipe_succ (sound : Sound fuel) (ts : List Tok) (enough : 4 * ts.length + 2 ≤ fuel) :
    Outcome Pipe.yield Pipe.cmd ts (parsepipe tokens (fuel + 1) ts) := by
  rw [parsepipe]
  rcases sound.exec ts enough with ⟨c, r, rfl, result⟩ | ⟨msg, panics⟩
  · rw [result]
    simp only [Except.bind]
    rcases r with _ | ⟨t, r⟩
    · exact .inl ⟨.last c, [], rfl, rfl⟩
    by_cases isBar : t = .bar
    · subst isBar
      show Outcome _ _ _ ((parsepipe tokens fuel r).bind _)
      simp only [List.length_append, List.length_cons] at enough
      rcases sound.pipe r (by omega) with ⟨p, r, rfl, result⟩ | ⟨msg, panics⟩
      · rw [result]
        exact .inl ⟨.pipe c p, r, by simp [Pipe.yield], rfl⟩
      · rw [panics]
        exact .panics _
    · have notBar : Starts (fun t => t ≠ .bar) (t :: r) := starts_cons.2 isBar
      simp only [show ['|'] = [Tok.bar.first] from rfl, peek_sign_ne rfl notBar]
      exact .inl ⟨.last c, t :: r, rfl, rfl⟩
  · rw [panics]
    exact .panics _

theorem Sound.line_succ (sound : Sound fuel) (ts : List Tok) (enough : 4 * ts.length + 3 ≤ fuel) :
    Outcome Line.yield Line.cmd ts (parseline tokens (fuel + 1) ts) := by
  rw [parseline]
  rcases sound.pipe ts enough with ⟨p, r, rfl, result⟩ | ⟨msg, panics⟩
  · obtain ⟨n, r, rfl, starts⟩ := exists_amps r
    simp only [List.length_append, List.length_replicate] at enough
    simp only [result, Except.bind, backs_amps fuel n starts (c := p.cmd) (by omega)]
    rcases r with _ | ⟨t, r⟩
    · exact .inl ⟨.last p n, [], by simp [Line.yield], rfl⟩
    by_cases isSemi : t = .semi
    · subst isSemi
      show Outcome _ _ _ ((parseline tokens fuel r).bind _)
      simp only [List.length_cons] at enough
      rcases sound.line r (by omega) with ⟨l, r, rfl, result⟩ | ⟨msg, panics⟩
      · rw [result]
        exact .inl ⟨.seq p n l, r, by simp [Line.yield], rfl⟩
      · rw [panics]
        exact .panics _
    · have notSemi : Starts (fun t => t ≠ .semi) (t :: r) := starts_cons.2 isSemi
      simp only [show [';'] = [Tok.semi.first] from rfl, peek_sign_ne rfl notSemi]
      exact .inl ⟨.last p n, t :: r, by simp [Line.yield], rfl⟩
  · rw [panics]
    exact .panics _

theorem sound_all (fuel : Nat) : Sound fuel := by
  induction fuel with
  | zero =>
    constructor
    all_goals
      intro ts enough
      omega
  | succ fuel ih =>
    constructor
    · exact fun ts enough => ih.line_succ ts (by omega)
    · exact fun ts enough => ih.pipe_succ ts (by omega)
    · exact fun ts enough => ih.exec_succ ts (by omega)
    · exact fun ts enough => ih.block_succ ts (by omega)

/-- **The parser ends**, and what it accepts is derivable. -/
theorem parseline_outcome (enough : 4 * ts.length + 4 ≤ fuel) :
    Outcome Line.yield Line.cmd ts (parseline tokens fuel ts) :=
  (sound_all fuel).line ts enough

end Sound

/-! ## What is derivable is accepted -/

theorem Starts.afterWords (starts : Starts AfterCommand r) : Starts (fun t => ∀ d, t ≠ .dir d) r :=
  words_start [] starts

mutual

/-- **The tokens of a derivation are accepted**, and give its tree. -/
theorem Line.parse : ∀ (d : Line) {fuel : Nat} {r : List Tok}, 4 * d.yield.length + 4 ≤ fuel →
    Starts AfterLine r → parseline tokens fuel (d.yield ++ r) = .ok (d.cmd, r)
  | .last p n, fuel, r, enough, starts => by
      obtain ⟨fuel, rfl⟩ : ∃ n, fuel = n + 1 := ⟨fuel - 1, by omega⟩
      simp only [Line.yield, List.length_append, List.length_replicate] at enough
      have notSemi : Starts (fun t => t ≠ .semi) r := starts.mono fun t after => by
        rw [after]
        simp
      rw [parseline, Line.yield, List.append_assoc,
        Pipe.parse p (by omega) (amps_start starts.afterPipe)]
      simp only [Except.bind, backs_amps fuel n starts.notAmp (c := p.cmd) (by omega),
        show [';'] = [Tok.semi.first] from rfl, peek_sign_ne rfl notSemi]
      rfl
  | .seq p n l, fuel, r, enough, starts => by
      obtain ⟨fuel, rfl⟩ : ∃ n, fuel = n + 1 := ⟨fuel - 1, by omega⟩
      simp only [Line.yield, List.length_append, List.length_replicate, List.length_cons] at enough
      have semi : Starts AfterPipe (.semi :: (l.yield ++ r)) := by simp [AfterPipe]
      rw [parseline, Line.yield, List.append_assoc, List.append_assoc, List.cons_append,
        Pipe.parse p (by omega) (amps_start semi)]
      simp only [Except.bind, backs_amps fuel n (r := .semi :: (l.yield ++ r)) (c := p.cmd)
        (by simp) (by omega)]
      show (parseline tokens fuel (l.yield ++ r)).bind _ = _
      rw [Line.parse l (by omega) starts]
      rfl

theorem Pipe.parse : ∀ (d : Pipe) {fuel : Nat} {r : List Tok}, 4 * d.yield.length + 3 ≤ fuel →
    Starts AfterPipe r → parsepipe tokens fuel (d.yield ++ r) = .ok (d.cmd, r)
  | .last c, fuel, r, enough, starts => by
      obtain ⟨fuel, rfl⟩ : ∃ n, fuel = n + 1 := ⟨fuel - 1, by omega⟩
      simp only [Pipe.yield] at enough
      have notBar : Starts (fun t => t ≠ .bar) r := starts.mono fun t after => by
        rcases after with rfl | rfl | rfl <;> simp
      rw [parsepipe, Pipe.yield, Command.parse c (by omega) starts.afterCommand]
      simp only [Except.bind, show ['|'] = [Tok.bar.first] from rfl, peek_sign_ne rfl notBar]
      rfl
  | .pipe c p, fuel, r, enough, starts => by
      obtain ⟨fuel, rfl⟩ : ∃ n, fuel = n + 1 := ⟨fuel - 1, by omega⟩
      simp only [Pipe.yield, List.length_append, List.length_cons] at enough
      rw [parsepipe, Pipe.yield, List.append_assoc, List.cons_append,
        Command.parse c (by omega) (by simp [AfterCommand])]
      show (parsepipe tokens fuel (p.yield ++ r)).bind _ = _
      rw [Pipe.parse p (by omega) starts]
      rfl

theorem Command.parse : ∀ (d : Command) {fuel : Nat} {r : List Tok}, 4 * d.yield.length + 2 ≤ fuel →
    Starts AfterCommand r → parseexec tokens fuel (d.yield ++ r) = .ok (d.cmd, r)
  | .block l rs, fuel, r, enough, starts => by
      obtain ⟨fuel, rfl⟩ : ∃ n, fuel = n + 2 := ⟨fuel - 2, by omega⟩
      simp only [Command.yield, List.length_append, List.length_cons, length_redirs] at enough
      rw [Command.yield, List.cons_append, List.append_assoc, List.cons_append]
      show (parseline tokens fuel (l.yield ++ .right :: (redirs rs ++ r))).bind _ = _
      rw [Line.parse l (by omega) (by simp [AfterLine])]
      show parseredirs tokens fuel l.cmd (redirs rs ++ r) = _
      exact parseredirs_redirs rs starts.afterWords (by omega)
  | .simple rs ws few, fuel, r, enough, starts => by
      obtain ⟨fuel, rfl⟩ : ∃ n, fuel = n + 1 := ⟨fuel - 1, by omega⟩
      simp only [Command.yield, List.length_append, length_redirs] at enough
      rw [Command.yield, List.append_assoc, parseexec_simple (simple_start _ _ starts),
        parseredirs_redirs rs (words_start _ starts) (by omega)]
      show args tokens fuel 0 (wrap rs (.exec [])) (words ws ++ r) = _
      rw [← gathered_nil, args_words ws starts (by omega) (by omega)]
      rfl

end

end Xv6Rpi.User.Shell
