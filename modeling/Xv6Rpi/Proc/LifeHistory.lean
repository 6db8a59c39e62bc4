/-
# Proc.LifeHistory -- who forked, exited and was waited for

`History` ties what was seen of forks, exits and waits to the table: a process is in a
slot from its fork until one `wait` takes it away, and that `wait` is its creator's, or
init's once the creator has exited.

The marks `kill` sets are another matter.  `kill` looks at the pid of every slot, and a
slot without a process has one too: 0 after a `wait`, or the one a failed `fork` left
there.  The mark stays for the next process in the slot, whose `wait` then returns -1
although nobody killed it.  `Marks` says when marks are true.
-/
import Xv6Rpi.Proc.LifeRun

namespace Xv6Rpi.Proc

open Theory Theory.Machine Kernel

set_option autoImplicit false

/-- Forks, exits and successful waits. -/
def ProcObs.isTree : ProcObs → Bool
  | .forked .. | .exited _ | .reaped .. => true
  | _ => false

theorem ProcObs.not_tree_of_quiet {o : ProcObs} (quiet : o.isQuiet = true) : o.isTree = false := by
  cases o <;> first | rfl | cases quiet

/-- `wait` of process `w` takes process `i` away: `i` has exited and was not taken before,
and `w` is its creator or, when that has exited, init. -/
def TakenBy (before : List ProcObs) (w i : Nat) (pid : Int) : Prop :=
  .exited i ∈ before ∧ (∀ w' pid', .reaped w' i pid' ∉ before) ∧ pid = int32 (i % 4294967296) ∧
    ∃ c, .forked c i ∈ before ∧ ((w = c ∧ .exited c ∉ before) ∨ (.exited c ∈ before ∧ w = 1))

/-- All successful waits were in order. -/
def Orderly (seen : List ProcObs) : Prop :=
  Each (fun before o => ∀ w i pid, o = .reaped w i pid → TakenBy before w i pid) seen

/-- What was seen fits the table. -/
structure History (seen : List ProcObs) (s : Procs) : Prop where
  past : ∀ c i, .forked c i ∈ seen → 1 < i ∧ i < s.nextpid
  creators : ∀ c c' i, .forked c i ∈ seen → .forked c' i ∈ seen → c = c'
  exitedForked : ∀ i, .exited i ∈ seen → ∃ c, .forked c i ∈ seen
  reapedForked : ∀ w i pid, .reaped w i pid ∈ seen → ∃ c, .forked c i ∈ seen
  exited : ∀ p, s.Live p → (.exited (s.born p) ∈ seen ↔ s.Zombie p)
  kept : ∀ p, s.Live p → ∀ w pid, .reaped w (s.born p) pid ∉ seen
  created : ∀ p, s.Live p → p ≠ INITPROC → ∃ c, .forked c (s.born p) ∈ seen ∧
    ((∃ q, (s.table p).parent = some q ∧ s.born q = c) ∨
      (.exited c ∈ seen ∧ (s.table p).parent = some INITPROC))
  lives : ∀ c i, .forked c i ∈ seen →
    (∃ p, s.Live p ∧ s.born p = i) ∨ ∃ w pid, .reaped w i pid ∈ seen
  orderly : Orderly seen

/-- Other observations add nothing. -/
theorem mem_append_tree {seen obs : List ProcObs} {o : ProcObs}
    (other : ∀ o ∈ obs, o.isTree = false) (tree : o.isTree = true) : o ∈ seen ++ obs ↔ o ∈ seen := by
  rw [List.mem_append]
  constructor
  · rintro (old | new)
    · exact old
    · rw [other o new] at tree
      cases tree
  · exact .inl

/-- Only a successful wait has to be in order. -/
theorem Orderly.append {seen obs : List ProcObs} (orderly : Orderly seen)
    (none : ∀ w i pid, .reaped w i pid ∉ obs) : Orderly (seen ++ obs) := by
  apply Each.append orderly
  intro before o after split w i pid isReaped
  subst isReaped
  exact absurd (by simp [split]) (none w i pid)

namespace History

variable {hits : Procs → Pid → Prop} {seen obs : List ProcObs} {s s' : Procs} {p q np : Pid}

/-- Nothing happens to the family. -/
theorem same (history : History seen s) (born : s'.born = s.born) (nextpid : s.nextpid ≤ s'.nextpid)
    (live : ∀ p, s'.Live p ↔ s.Live p) (zombie : ∀ p, s'.Zombie p ↔ s.Zombie p)
    (parent : ∀ p, (s'.table p).parent = (s.table p).parent)
    (other : ∀ o ∈ obs, o.isTree = false) : History (seen ++ obs) s' := by
  have forked : ∀ c i, .forked c i ∈ seen ++ obs ↔ .forked c i ∈ seen :=
    fun c i => mem_append_tree other rfl
  have exits : ∀ i, .exited i ∈ seen ++ obs ↔ .exited i ∈ seen := fun i => mem_append_tree other rfl
  have reaped : ∀ w i pid, .reaped w i pid ∈ seen ++ obs ↔ .reaped w i pid ∈ seen :=
    fun w i pid => mem_append_tree other rfl
  refine ⟨?_, ?_, ?_, ?_, ?_, ?_, ?_, ?_, ?_⟩
  · intro c i fork
    have known := history.past c i ((forked c i).1 fork)
    omega
  · simpa only [forked] using history.creators
  · simpa only [forked, exits] using history.exitedForked
  · simpa only [forked, reaped] using history.reapedForked
  · simpa only [exits, live, zombie, born] using history.exited
  · simpa only [reaped, live, born] using history.kept
  · simpa only [forked, exits, live, born, parent] using history.created
  · simpa only [forked, reaped, live, born] using history.lives
  · apply history.orderly.append
    intro w i pid isIn
    cases other _ isIn

theorem calm (history : History seen s) (calm : Calm s s') (quiet : ∀ o ∈ obs, o.isQuiet = true) :
    History (seen ++ obs) s' :=
  history.same calm.born (Nat.le_of_eq calm.nextpid.symm) (fun _ => calm.live_iff)
    (fun _ => calm.zombie_iff) calm.parent
    (fun o isIn => ProcObs.not_tree_of_quiet (quiet o isIn))

theorem forkFailed (history : History seen s) (free : (s.table np).state = .unused) :
    History (seen ++ [.allocproc]) (s.stillborn np) := by
  have entry := Procs.stillborn_entry free
  refine history.same rfl (Nat.le_succ _) (Procs.stillborn_live free) ?_ ?_ ?_
  · intro p
    unfold Procs.Zombie
    rw [entry p]
  · intro p
    rw [entry p]
  · simp [ProcObs.isTree]

theorem strike (history : History seen s) : History (seen ++ (s.strike q).2) (s.strike q).1 := by
  refine history.same rfl (Nat.le_refl _) ?_ ?_ ?_ ?_
  · exact fun r => not_congr (Roster.strike_state_iff s q r rfl)
  · exact fun r => Roster.strike_state_iff s q r rfl
  · exact fun r => (Roster.strike_entry s q r).2.1
  · intro o isIn
    unfold Procs.strike at isIn
    dsimp only at isIn
    split at isIn
    · cases isIn
    · rw [List.mem_singleton.1 isIn]
      rfl

/-- A new process has no history. -/
theorem fresh (history : History seen s) :
    (∀ c, .forked c s.nextpid ∉ seen) ∧ .exited s.nextpid ∉ seen ∧
      ∀ w pid, .reaped w s.nextpid pid ∉ seen := by
  have never : ∀ c, .forked c s.nextpid ∉ seen := by
    intro c isIn
    have known := history.past c _ isIn
    omega
  refine ⟨never, ?_, ?_⟩
  · intro isIn
    obtain ⟨c, forked⟩ := history.exitedForked _ isIn
    exact never c forked
  · intro w pid isIn
    obtain ⟨c, forked⟩ := history.reapedForked _ _ _ isIn
    exact never c forked

theorem fork (history : History seen s) (roster : Roster seen s) (current : s.cur = some p)
    (free : (s.table np).state = .unused) :
    History (seen ++ [.allocproc, .forked (s.born p) s.nextpid]) (s.child p np) := by
  obtain ⟨neverForked, neverExited, neverReaped⟩ := history.fresh
  have forked : ∀ c i, .forked c i ∈ seen ++ [.allocproc, .forked (s.born p) s.nextpid] ↔
      .forked c i ∈ seen ∨ (c = s.born p ∧ i = s.nextpid) := by simp
  have exits : ∀ i, .exited i ∈ seen ++ [.allocproc, .forked (s.born p) s.nextpid] ↔
      .exited i ∈ seen := by simp
  have reaped : ∀ w i pid, .reaped w i pid ∈ seen ++ [.allocproc, .forked (s.born p) s.nextpid] ↔
      .reaped w i pid ∈ seen := by simp
  have entry : ∀ q, q ≠ np → (s.child p np).table q = s.table q := fun q other => upd_ne _ _ other
  have born : ∀ q, q ≠ np → (s.child p np).born q = s.born q := fun q other => upd_ne _ _ other
  have here : (s.child p np).born np = s.nextpid := upd_same _ _ _
  have other : ∀ q, s.Alive q → q ≠ np := by
    rintro q alive rfl
    exact alive.live free
  have live : ∀ q, q ≠ np → ((s.child p np).Live q ↔ s.Live q) := by
    intro q apart
    unfold Procs.Live
    rw [entry q apart]
  have newLive : (s.child p np).Live np := by simp [Procs.Live, Procs.child]
  have initOlder := roster.older _ roster.initAlive.live
  refine ⟨?_, ?_, ?_, ?_, ?_, ?_, ?_, ?_, ?_⟩
  · intro c i isIn
    show 1 < i ∧ i < s.nextpid + 1
    rcases (forked c i).1 isIn with old | ⟨_, rfl⟩
    · have known := history.past c i old
      omega
    · rw [roster.initBorn] at initOlder
      omega
  · intro c c' i first second
    rcases (forked c i).1 first with old | ⟨rfl, rfl⟩
    · rcases (forked c' i).1 second with old' | ⟨_, rfl⟩
      · exact history.creators c c' i old old'
      · exact absurd old (neverForked c)
    · rcases (forked c' _).1 second with old' | ⟨rfl, _⟩
      · exact absurd old' (neverForked c')
      · rfl
  · intro i isIn
    obtain ⟨c, known⟩ := history.exitedForked i ((exits i).1 isIn)
    exact ⟨c, (forked c i).2 (.inl known)⟩
  · intro w i pid isIn
    obtain ⟨c, known⟩ := history.reapedForked w i pid ((reaped w i pid).1 isIn)
    exact ⟨c, (forked c i).2 (.inl known)⟩
  · intro q lives
    rw [exits]
    by_cases same : q = np
    · subst same
      rw [here]
      simp [neverExited, Procs.Zombie, Procs.child]
    · rw [born q same]
      unfold Procs.Zombie
      rw [entry q same]
      exact history.exited q ((live q same).1 lives)
  · intro q lives w pid isIn
    rw [reaped] at isIn
    by_cases same : q = np
    · subst same
      rw [here] at isIn
      exact neverReaped w pid isIn
    · rw [born q same] at isIn
      exact history.kept q ((live q same).1 lives) w pid isIn
  · intro q lives notInit
    by_cases same : q = np
    · subst same
      refine ⟨s.born p, (forked _ _).2 (.inr ⟨rfl, here⟩), .inl ⟨p, by simp [Procs.child], ?_⟩⟩
      exact born p (other p (roster.cur_alive current))
    · obtain ⟨c, known, how⟩ := history.created q ((live q same).1 lives) notInit
      refine ⟨c, (forked _ _).2 (.inl (by rwa [born q same])), ?_⟩
      rw [entry q same, exits]
      rcases how with ⟨r, isParent, isCreator⟩ | gone
      · refine .inl ⟨r, isParent, ?_⟩
        rw [born r (other r (roster.parent_alive isParent)), isCreator]
      · exact .inr gone
  · intro c i isIn
    rcases (forked c i).1 isIn with old | ⟨_, rfl⟩
    · rcases history.lives c i old with ⟨q, lives, isBorn⟩ | ⟨w, pid, taken⟩
      · have apart : q ≠ np := by
          rintro rfl
          exact lives free
        exact .inl ⟨q, (live q apart).2 lives, (born q apart).trans isBorn⟩
      · exact .inr ⟨w, pid, (reaped w i pid).2 taken⟩
    · exact .inl ⟨np, newLive, here⟩
  · apply history.orderly.append
    simp

theorem die (history : History seen s) (roster : Roster seen s) (current : s.cur = some p)
    (exiting : s.place p = .exiting) : History (seen ++ [.exited (s.born p)]) (s.die p).1 := by
  have notInit := roster.not_init_of_exiting exiting
  have exited := Ptable.exit_spec s.table notInit
  have alive := roster.cur_alive current
  have forked : ∀ c i, .forked c i ∈ seen ++ [.exited (s.born p)] ↔ .forked c i ∈ seen := by simp
  have exits : ∀ i, .exited i ∈ seen ++ [.exited (s.born p)] ↔ .exited i ∈ seen ∨ i = s.born p := by
    simp
  have reaped : ∀ w i pid, .reaped w i pid ∈ seen ++ [.exited (s.born p)] ↔
      .reaped w i pid ∈ seen := by simp
  have live : ∀ q, (s.die p).1.Live q ↔ s.Live q := fun q => roster.die_live current exiting
  refine ⟨?_, ?_, ?_, ?_, ?_, ?_, ?_, ?_, ?_⟩
  · simp only [forked]
    exact history.past
  · simpa only [forked] using history.creators
  · intro i isIn
    simp only [forked]
    rcases (exits i).1 isIn with old | rfl
    · exact history.exitedForked i old
    · obtain ⟨c, known, _⟩ := history.created p alive.live notInit
      exact ⟨c, known⟩
  · simpa only [forked, reaped] using history.reapedForked
  · intro q lives
    rw [exits]
    show .exited (s.born q) ∈ seen ∨ s.born q = s.born p ↔ _
    by_cases same : q = p
    · subst same
      exact iff_of_true (.inr rfl) exited.dead
    · have apart : s.born q ≠ s.born p := fun equal =>
        same (roster.apart q p ((live q).1 lives) alive.live equal)
      have before := history.exited q ((live q).1 lives)
      simp only [apart, or_false]
      exact before.trans (Roster.exit_state_iff exited same rfl).symm
  · simp only [reaped, live]
    exact history.kept
  · intro q lives qNotInit
    obtain ⟨c, known, how⟩ := history.created q ((live q).1 lives) qNotInit
    refine ⟨c, (forked _ _).2 known, ?_⟩
    have parent : ((s.die p).1.table q).parent =
        if (s.table q).parent = some p then some INITPROC else (s.table q).parent := exited.parent q
    rw [parent, exits]
    rcases how with ⟨r, isParent, isCreator⟩ | ⟨gone, byInit⟩
    · by_cases mine : r = p
      · subst mine
        exact .inr ⟨.inr isCreator.symm, by simp [isParent]⟩
      · exact .inl ⟨r, by simp [isParent, mine], isCreator⟩
    · exact .inr ⟨.inl gone, by simp [byInit]⟩
  · simp only [forked, reaped, live]
    exact history.lives
  · apply history.orderly.append
    simp

theorem reap (history : History seen s) (roster : Roster seen s) (current : s.cur = some p)
    (child : (s.table q).parent = some p) (dead : s.Zombie q) :
    History (seen ++ [.reaped (s.born p) (s.born q) (s.table q).pid])
      { s with table := s.table.reap q } := by
  have alive := roster.cur_alive current
  have notInit : q ≠ INITPROC := by
    rintro rfl
    exact roster.initAlive.not_zombie dead
  obtain ⟨c, known, how⟩ := history.created q dead.live notInit
  have forked : ∀ c i, .forked c i ∈ seen ++ [.reaped (s.born p) (s.born q) (s.table q).pid] ↔
      .forked c i ∈ seen := by simp
  have exits : ∀ i, .exited i ∈ seen ++ [.reaped (s.born p) (s.born q) (s.table q).pid] ↔
      .exited i ∈ seen := by simp
  have reaped : ∀ w i pid, .reaped w i pid ∈ seen ++ [.reaped (s.born p) (s.born q) (s.table q).pid] ↔
      .reaped w i pid ∈ seen ∨ (w = s.born p ∧ i = s.born q ∧ pid = (s.table q).pid) := by simp
  have entry : ∀ r, r ≠ q → s.table.reap q r = s.table r := fun r apart => upd_ne _ _ apart
  have live : ∀ r, Procs.Live { s with table := s.table.reap q } r → r ≠ q ∧ s.Live r := by
    intro r lives
    have apart : r ≠ q := by
      rintro rfl
      exact lives (by simp [Ptable.reap])
    refine ⟨apart, ?_⟩
    simp only [Procs.Live, entry r apart] at lives
    exact lives
  refine ⟨?_, ?_, ?_, ?_, ?_, ?_, ?_, ?_, ?_⟩
  · simpa only [forked] using history.past
  · simpa only [forked] using history.creators
  · simpa only [forked, exits] using history.exitedForked
  · intro w i pid isIn
    simp only [forked]
    rcases (reaped w i pid).1 isIn with old | ⟨_, rfl, _⟩
    · exact history.reapedForked w i pid old
    · exact ⟨c, known⟩
  · intro r lives
    rw [exits]
    simp only [Procs.Zombie, entry r (live r lives).1]
    exact history.exited r (live r lives).2
  · intro r lives w pid isIn
    rcases (reaped w _ pid).1 isIn with old | ⟨_, equal, _⟩
    · exact history.kept r (live r lives).2 w pid old
    · exact (live r lives).1 (roster.apart r q (live r lives).2 dead.live equal)
  · intro r lives rNotInit
    simp only [forked, exits, entry r (live r lives).1]
    exact history.created r (live r lives).2 rNotInit
  · intro c i isIn
    rcases history.lives c i ((forked c i).1 isIn) with ⟨r, lives, isBorn⟩ | ⟨w, pid, taken⟩
    · by_cases same : r = q
      · subst same
        exact .inr ⟨s.born p, (s.table r).pid, (reaped _ _ _).2 (.inr ⟨rfl, isBorn.symm, rfl⟩)⟩
      · refine .inl ⟨r, ?_, isBorn⟩
        simp only [Procs.Live, entry r same]
        exact lives
    · exact .inr ⟨w, pid, (reaped w i pid).2 (.inl taken)⟩
  · apply Each.snoc history.orderly
    rintro w i pid taken
    cases taken
    refine ⟨(history.exited q dead.live).2 dead, history.kept q dead.live,
      roster.numbered q dead.live, c, known, ?_⟩
    rcases how with ⟨r, isParent, isCreator⟩ | ⟨gone, byInit⟩
    · rw [child] at isParent
      obtain rfl := Option.some.inj isParent
      refine .inl ⟨isCreator, ?_⟩
      rw [← isCreator, history.exited p alive.live]
      exact alive.not_zombie
    · rw [child] at byInit
      obtain rfl := Option.some.inj byInit
      exact .inr ⟨gone, roster.initBorn⟩

theorem effect (history : History seen s) (roster : Roster seen s) (effect : Effect hits s s' obs) :
    History (seen ++ obs) s' := by
  cases effect with
  | calm calm quiet => exact history.calm calm quiet
  | user =>
    refine history.same rfl (Nat.le_refl _) (fun _ => Iff.rfl) (fun _ => Iff.rfl) (fun _ => rfl) ?_
    simp [ProcObs.isTree]
  | fork current free => exact history.fork roster current free
  | forkFailed free => exact history.forkFailed free
  | strike => exact history.strike
  | die current exiting => exact history.die roster current exiting
  | reap current child dead => exact history.reap roster current child dead

end History

/-! ## Marks -/

/-- A marked process was killed, and free slots are unmarked. -/
structure Marks (seen : List ProcObs) (s : Procs) : Prop where
  clean : ∀ p, ¬ s.Live p → (s.table p).killed = false
  marked : ∀ p, s.Live p → (s.table p).killed = true → .killed (s.born p) ∈ seen

/-- `kill` finds a process. -/
def FindsProcess (s : Procs) (q : Pid) : Prop := s.Live q

instance (s : Procs) (q : Pid) : Decidable (FindsProcess s q) := inferInstanceAs (Decidable (s.Live q))

namespace Marks

variable {seen obs : List ProcObs} {s s' : Procs} {p q np : Pid}

/-- Marks stay where they are. -/
theorem same (marks : Marks seen s) (live : ∀ p, s'.Live p → s.Live p ∧ s'.born p = s.born p)
    (killed : ∀ p, (s'.table p).killed = true → (s.table p).killed = true ∧ (s.Live p → s'.Live p)) :
    Marks (seen ++ obs) s' := by
  constructor
  · intro p free
    by_contra marked
    obtain ⟨was, keeps⟩ := killed p (by simpa using marked)
    have wasFree : ¬ s.Live p := fun lives => free (keeps lives)
    rw [marks.clean p wasFree] at was
    cases was
  · intro p lives marked
    rw [(live p lives).2]
    exact List.mem_append_left _ (marks.marked p (live p lives).1 (killed p marked).1)

theorem effect (marks : Marks seen s) (roster : Roster seen s)
    (effect : Effect FindsProcess s s' obs) : Marks (seen ++ obs) s' := by
  cases effect with
  | calm calm _ =>
    apply marks.same
    · exact fun p lives => ⟨calm.live_iff.1 lives, by rw [calm.born]⟩
    · exact fun p marked => ⟨(calm.killed p).symm.trans marked, calm.live_iff.2⟩
  | user => exact marks.same (fun p lives => ⟨lives, rfl⟩) (fun p marked => ⟨marked, id⟩)
  | @fork p np current free =>
    have unmarked := marks.clean np (fun lives => lives free)
    have entry : ∀ q, q ≠ np → (s.child p np).table q = s.table q := fun q other => upd_ne _ _ other
    have here : ((s.child p np).table np).killed = false := by simpa [Procs.child] using unmarked
    constructor
    · intro q dead
      have other : q ≠ np := by
        rintro rfl
        exact dead (by simp [Procs.Live, Procs.child])
      unfold Procs.Live at dead
      rw [entry q other] at dead ⊢
      exact marks.clean q dead
    · intro q lives marked
      have other : q ≠ np := by
        rintro rfl
        rw [here] at marked
        cases marked
      unfold Procs.Live at lives
      rw [entry q other] at lives marked
      have born : (s.child p np).born q = s.born q := upd_ne _ _ other
      rw [born]
      exact List.mem_append_left _ (marks.marked q lives marked)
  | @forkFailed np free =>
    have live := Procs.stillborn_live free
    apply marks.same
    · exact fun q lives => ⟨(live q).1 lives, rfl⟩
    · intro q marked
      rw [Procs.stillborn_entry free q] at marked
      exact ⟨marked, (live q).2⟩
  | @strike q hit =>
    have live : ∀ r, (s.strike q).1.Live r ↔ s.Live r :=
      fun r => not_congr (Roster.strike_state_iff s q r rfl)
    have shown : (s.strike q).2 = [.killed (s.born q)] := if_neg hit
    have entry : ∀ r, r ≠ q → (s.strike q).1.table r = s.table r := fun r other => upd_ne _ _ other
    rw [shown]
    constructor
    · intro r free
      have other : r ≠ q := by
        rintro rfl
        exact free ((live r).2 hit)
      rw [entry r other]
      exact marks.clean r (fun lives => free ((live r).2 lives))
    · intro r lives marked
      by_cases same : r = q
      · subst same
        exact List.mem_append_right _ (List.mem_singleton.2 rfl)
      · rw [entry r same] at marked
        exact List.mem_append_left _ (marks.marked r ((live r).1 lives) marked)
  | @die p current exiting =>
    have exited := Ptable.exit_spec s.table (roster.not_init_of_exiting exiting)
    have live : ∀ q, (s.die p).1.Live q ↔ s.Live q := fun q => roster.die_live current exiting
    apply marks.same
    · exact fun q lives => ⟨(live q).1 lives, rfl⟩
    · exact fun q marked => ⟨(exited.killed q).symm.trans marked, (live q).2⟩
  | @reap p q current child dead =>
    have freed : (s.table.reap q q).killed = false := by simp [Ptable.reap]
    have entry : ∀ r, r ≠ q → s.table.reap q r = s.table r := fun r apart => upd_ne _ _ apart
    apply marks.same
    · intro r lives
      have other : r ≠ q := by
        rintro rfl
        exact lives (by simp [Ptable.reap])
      simp only [Procs.Live, entry r other] at lives
      exact ⟨lives, rfl⟩
    · intro r marked
      have other : r ≠ q := by
        rintro rfl
        cases freed.symm.trans marked
      simp only [entry r other] at marked
      refine ⟨marked, ?_⟩
      simp only [Procs.Live, entry r other]
      exact id

end Marks

/-! ## wait returns -1 -/

section Failing

variable {s s' : Procs} {p : Pid} {w : Nat} {obs : List ProcObs}

theorem Procs.wait_failed (failed : .waitFailed w ∈ (s.wait p).2) :
    w = s.born p ∧ ((∀ q, (s.table q).parent ≠ some p) ∨ (s.table p).killed = true) := by
  unfold wait at failed
  cases found : s.table.zombieChild p with
  | some q => simp [found, trapret] at failed
  | none =>
    simp only [found] at failed
    split at failed
    case isTrue why =>
      refine ⟨by simpa [trapret] using failed, ?_⟩
      simpa [Ptable.havekids, List.mem_finRange] using why
    case isFalse => cases failed

theorem Procs.act_waitFailed {op : ProcOp} (stepped : s.act p op = some (s', obs))
    (failed : .waitFailed w ∈ obs) :
    w = s.born p ∧ ((∀ q, (s.table q).parent ≠ some p) ∨ (s.table p).killed = true) := by
  cases op with
  | wait =>
    obtain ⟨_, rfl, rfl⟩ := taken stepped
    exact wait_failed failed
  | fork stack pages =>
    obtain ⟨_, rfl, rfl⟩ := taken stepped
    unfold fork at failed
    split at failed
    · simp at failed
    · split at failed <;> simp at failed
  | kill pid =>
    obtain ⟨_, rfl, rfl⟩ := taken stepped
    unfold kill strike at failed
    split at failed
    · dsimp only at failed
      split at failed <;> simp at failed
    · simp at failed
  | user | exit | enter | wakeup | sleep | leave | die =>
    obtain ⟨_, rfl, rfl⟩ := taken stepped
    simp [trapret, die] at failed
  | schedule p => cases stepped
  | irq chans => cases stepped

/-- A `wait` that returns -1 is one of a living process without children, or marked. -/
theorem Procs.step_waitFailed {op : ProcOp} (runs : s.Runs)
    (stepped : s.step op = some (s', obs)) (failed : .waitFailed w ∈ obs) :
    ∃ p, s.Alive p ∧ s.born p = w ∧
      ((∀ q, (s.table q).parent ≠ some p) ∨ (s.table p).killed = true) := by
  unfold step at stepped
  split at stepped
  case h_1 =>
    obtain ⟨_, rfl, rfl⟩ := taken stepped
    unfold interrupted at failed
    split at failed
    · split at failed <;> simp at failed
    · cases failed
  case h_2 _ _ p _ =>
    obtain ⟨picked, rfl, rfl⟩ := taken stepped
    have awake := Calm.awaken picked
    have alive : s.Alive p := by
      unfold Alive
      rw [picked]
      rfl
    cases place : s.place p with
    | waiting =>
      have inWait : .waitFailed w ∈
          (Procs.wait { s with table := s.table.awaken p, cur := some p } p).2 := by
        simpa [dispatch, place] using failed
      obtain ⟨isBorn, why⟩ := wait_failed inWait
      have parent : ∀ q, (s.table.awaken p q).parent = (s.table q).parent := awake.parent
      have killed : (s.table.awaken p p).killed = (s.table p).killed := awake.killed p
      simp only [parent, killed] at why
      exact ⟨p, alive, isBorn.symm, why⟩
    | user | fresh | exiting | kernel => simp [dispatch, trapret, place] at failed
  case h_4 => cases stepped
  case h_3 p _ current =>
    have alive : s.Alive p := by
      unfold Alive
      rw [runs p current]
      rfl
    obtain ⟨isBorn, why⟩ := act_waitFailed stepped failed
    exact ⟨p, alive, isBorn.symm, why⟩

end Failing

/-! ## Whole runs -/

/-- The three invariants together. -/
structure Family (seen : List ProcObs) (s : Procs) : Prop where
  roster : Roster seen s
  waiters : Waiters s
  history : History seen s

theorem Family.boot : Family [] Procs.boot := by
  have only : ∀ p, Procs.boot.Live p → p = INITPROC := by
    intro p live
    by_contra other
    exact live (by simp [Procs.boot, other, Entry.zeroed])
  have running : ∀ p, (Procs.boot.table p).state = .runnable ∨ (Procs.boot.table p).state = .unused := by
    intro p
    by_cases same : p = INITPROC
    · exact .inl (by simp [Procs.boot, same])
    · exact .inr (by simp [Procs.boot, same, Entry.zeroed])
  have orphans : ∀ p, (Procs.boot.table p).parent = none := by
    intro p
    by_cases same : p = INITPROC <;> simp [Procs.boot, same, Entry.zeroed]
  have awake : ∀ p, (Procs.boot.table p).state ≠ .sleeping := by
    intro p sleeps
    rcases running p with is | is <;> cases is.symm.trans sleeps
  refine ⟨⟨?_, ?_, ?_, rfl, ?_, ?_, ?_, ?_, ?_, ?_, orphans _, ?_, ?_⟩, ⟨?_, ?_⟩,
    ⟨?_, ?_, ?_, ?_, ?_, ?_, ?_, ?_, Each.nil⟩⟩
  · intro p nobody
    cases nobody
  · rfl
  · simp [Procs.boot]
  · intro p embryo
    rcases running p with is | is <;> cases is.symm.trans embryo
  · intro p _
    exact ⟨Nat.one_pos, Nat.one_lt_two⟩
  · intro p q liveP liveQ _
    rw [only p liveP, only q liveQ]
  · intro p live
    rw [only p live]
    rfl
  · exact fun p _ => orphans p
  · intro p live notInit
    exact absurd (only p live) notInit
  · intro p own
    rw [orphans] at own
    cases own
  · simp [Procs.boot]
  · exact fun p _ sleeps => absurd sleeps (awake p)
  · exact fun p asleep => absurd asleep.1 (awake p)
  · intro c i none
    cases none
  · intro c c' i none
    cases none
  · intro i none
    cases none
  · intro w i pid none
    cases none
  · intro p live
    rw [only p live]
    refine iff_of_false (fun none => by cases none) ?_
    intro dead
    rcases running INITPROC with is | is <;> cases is.symm.trans dead
  · intro p _ w pid none
    cases none
  · intro p live notInit
    exact absurd (only p live) notInit
  · intro c i none
    cases none

theorem Family.effect {hits : Procs → Pid → Prop} {seen obs : List ProcObs} {s s' : Procs}
    (family : Family seen s) (effect : Effect hits s s' obs) : Family (seen ++ obs) s' :=
  ⟨family.roster.effect effect, family.waiters.effect family.roster effect,
    family.history.effect family.roster effect⟩

/-- **The family is kept by every step**, whatever is killed. -/
theorem Family.step {seen obs : List ProcObs} {s s' : Procs} {op : ProcOp}
    (family : Family seen s) (stepped : s.step op = some (s', obs)) : Family (seen ++ obs) s' := by
  have effects : Effects (fun _ _ => True) s s' obs :=
    Procs.step_effects family.roster.runs (fun _ _ _ _ => trivial) stepped
  exact effects.keeps (I := Family) (fun _ _ _ _ holds effect => holds.effect effect) family

/-- The family with true marks is kept by steps in which `kill` finds processes. -/
theorem Family.step_marks {seen obs : List ProcObs} {s s' : Procs} {op : ProcOp}
    (holds : Family seen s ∧ Marks seen s) (found : op.Hits FindsProcess s)
    (stepped : s.step op = some (s', obs)) : Family (seen ++ obs) s' ∧ Marks (seen ++ obs) s' := by
  have effects : Effects FindsProcess s s' obs :=
    Procs.step_effects holds.1.roster.runs found stepped
  refine effects.keeps (I := fun seen s => Family seen s ∧ Marks seen s) ?_ holds
  intro seen s s' obs now effect
  exact ⟨now.1.effect effect, now.2.effect now.1.roster effect⟩

theorem Marks.boot : Marks [] Procs.boot := by
  have unmarked : ∀ p, (Procs.boot.table p).killed = false := by
    intro p
    by_cases same : p = INITPROC <;> simp [Procs.boot, same, Entry.zeroed]
  constructor
  · exact fun p _ => unmarked p
  · intro p _ marked
    rw [unmarked] at marked
    cases marked

/-- `wait` of process `w` returns the pid of process `i`, for the first and last time.
Process 1 is init. -/
def ReapedOnce (before : List ProcObs) (w i : Nat) (pid : Int) : Prop :=
  .exited i ∈ before ∧ pid = i ∧ (∀ w' i', .reaped w' i' pid ∉ before) ∧
    ∃ c, .forked c i ∈ before ∧ ((w = c ∧ .exited c ∉ before) ∨ (.exited c ∈ before ∧ w = 1))

/-- A pid is what it was meant to be until the counter leaves the positive `int`s. -/
theorem int32_of_small {i : Nat} (small : i < 2147483648) : int32 (i % 4294967296) = i := by
  unfold int32
  rw [Nat.mod_eq_of_lt (by omega), if_pos small]

namespace Family

variable {seen : List ProcObs} {z : Procs}

theorem pid_eq_born (family : Family seen z) (few : z.nextpid < 2147483648) {p : Pid}
    (live : z.Live p) : (z.table p).pid = z.born p := by
  have older := family.roster.older p live
  rw [family.roster.numbered p live]
  exact int32_of_small (by omega)

/-- A pid is handed out by one `wait` only. -/
theorem reapedOnce (family : Family seen z) (few : z.nextpid < 2147483648) :
    Each (fun before o => ∀ w i pid, o = .reaped w i pid → ReapedOnce before w i pid) seen := by
  intro before o after split w i pid isReaped
  obtain ⟨exited, first, isPid, creator⟩ := family.history.orderly before o after split w i pid isReaped
  have small : ∀ w' i' pid', .reaped w' i' pid' ∈ seen → i' < 2147483648 := by
    intro w' i' pid' isIn
    obtain ⟨c, forked⟩ := family.history.reapedForked w' i' pid' isIn
    have known := family.history.past c i' forked
    omega
  subst isReaped
  have here := small w i pid (by simp [split])
  refine ⟨exited, isPid.trans (int32_of_small here), ?_, creator⟩
  intro w' i' again
  -- the earlier wait got the same pid, so it was the same process
  obtain ⟨early, between, isBefore⟩ := List.append_of_mem again
  have there := small w' i' pid (by simp [split, again])
  have taken := family.history.orderly early _ (between ++ .reaped w i pid :: after)
    (by simp [split, isBefore]) w' i' pid rfl
  have samePid : (i : Int) = i' := by
    rw [← int32_of_small here, ← int32_of_small there, ← isPid, ← taken.2.2.1]
  obtain rfl : i = i' := by exact_mod_cast samePid
  exact first w' pid again

/-- A process is in its slot until it is waited for. -/
theorem in_slot_iff (family : Family seen z) {c i : Nat} (forked : .forked c i ∈ seen) :
    (∃ p, z.Live p ∧ z.born p = i) ↔ ∀ w pid, .reaped w i pid ∉ seen := by
  constructor
  · rintro ⟨p, live, rfl⟩
    exact family.history.kept p live
  · intro never
    rcases family.history.lives c i forked with known | ⟨w, pid, taken⟩
    · exact known
    · exact absurd taken (never w pid)

theorem waiter_childless (family : Family seen z) {p : Pid} (waits : z.place p = .waiting)
    (sleeps : (z.table p).state = .sleeping) (q : Pid) (child : (z.table q).parent = some p) :
    (z.table q).state ≠ .zombie :=
  family.waiters.childless p ⟨sleeps, family.waiters.chan p waits sleeps⟩ q child

end Family

/-- **Exit and wait pair up, exactly once, and no child is lost**, in every run.  A `wait` that
returns -1 is as it should be in every run in which `kill` finds processes only. -/
theorem exit_wait_once (ops : List ProcOp) (z : Procs) (seen : List ProcObs)
    (ran : run Procs.step Procs.boot ops = some (z, seen))
    (few : seen.count .allocproc + 1 < 2147483647) :
    (∀ p, z.Live p → 0 < (z.table p).pid) ∧
    (∀ p q, z.Live p → z.Live q → (z.table p).pid = (z.table q).pid → p = q) ∧
    (∀ p, z.Live p → p ≠ INITPROC →
      ∃ q, (z.table p).parent = some q ∧ z.Live q ∧ (z.table q).state ≠ .zombie) ∧
    Each (fun before o => ∀ w i pid, o = .reaped w i pid → ReapedOnce before w i pid) seen ∧
    (∀ c i, .forked c i ∈ seen →
      ((∃ p, z.Live p ∧ z.born p = i) ↔ ∀ w pid, .reaped w i pid ∉ seen)) ∧
    (∀ p, z.place p = .waiting → (z.table p).state = .sleeping →
      ∀ q, (z.table q).parent = some p → (z.table q).state ≠ .zombie) ∧
    (Meets Procs.step (fun s op => op.Hits FindsProcess s) Procs.boot ops →
      ∀ op z' more p, z.step op = some (z', more) → z.Live p → .waitFailed (z.born p) ∈ more →
        (∀ q, (z.table q).parent ≠ some p) ∨ .killed (z.born p) ∈ seen) := by
  have family : Family seen z := run_keeps (I := Family)
    (fun _ _ _ _ _ now stepped => now.step stepped) ops [] Procs.boot z seen Family.boot ran
  have small : z.nextpid < 2147483648 := by
    have counted := family.roster.counted
    omega
  have pid := fun p => family.pid_eq_born small (p := p)
  refine ⟨?_, ?_, ?_, family.reapedOnce small, fun c i => family.in_slot_iff,
    fun p => family.waiter_childless, ?_⟩
  · intro p live
    have older := family.roster.older p live
    rw [pid p live]
    omega
  · intro p q liveP liveQ same
    rw [pid p liveP, pid q liveQ] at same
    exact family.roster.apart p q liveP liveQ (by exact_mod_cast same)
  · intro p live notInit
    obtain ⟨q, isParent, alive⟩ := family.roster.parent p live notInit
    exact ⟨q, isParent, alive.live, alive.not_zombie⟩
  · intro found op z' more p stepped live failed
    have holds := run_keeps_where (I := fun seen s => Family seen s ∧ Marks seen s)
      (fun _ _ _ _ _ now met stepped => Family.step_marks now met stepped) ops [] Procs.boot z seen
      ⟨Family.boot, Marks.boot⟩ found ran
    obtain ⟨-, marks⟩ : Family seen z ∧ Marks seen z := holds
    obtain ⟨q, alive, isBorn, why⟩ := Procs.step_waitFailed family.roster.runs stepped failed
    obtain rfl := family.roster.apart q p alive.live live isBorn
    rcases why with childless | marked
    · exact .inl childless
    · exact .inr (marks.marked q live marked)

/-- init forks and waits, and the child exits. -/
def forkAndWait : List ProcOp :=
  [.schedule 0, .fork true true, .wait, .schedule 1, .exit, .die, .schedule 0]

theorem exit_wait_once_child : ∃ z seen,
    run Procs.step Procs.boot forkAndWait = some (z, seen) ∧ .reaped 1 2 2 ∈ seen ∧
      (∀ c i, .forked c i ∈ seen →
        ((∃ p, z.Live p ∧ z.born p = i) ↔ ∀ w pid, .reaped w i pid ∉ seen)) ∧
      ∀ op z' more p, z.step op = some (z', more) → z.Live p → .waitFailed (z.born p) ∈ more →
        (∀ q, (z.table q).parent ≠ some p) ∨ .killed (z.born p) ∈ seen := by
  have shown : (run Procs.step Procs.boot forkAndWait).map (·.2) =
      some [.returned 1, .allocproc, .forked 1 2, .returned 1, .returned 2, .exited 2,
        .reaped 1 2 2, .returned 1] := by decide +kernel
  obtain ⟨⟨z, seen⟩, ran, rfl⟩ := Option.map_eq_some_iff.1 shown
  obtain ⟨-, -, -, -, inSlot, -, failed⟩ := exit_wait_once forkAndWait z _ ran (by decide)
  exact ⟨z, _, ran, by simp, inSlot, failed (by decide +kernel)⟩

/-- **A mark on an empty slot makes the next process in it fail to wait**: init calls
`kill(0)`, which marks slot 1, and forks; the child forks a child of its own, and its `wait`
returns -1 although the grandchild lives and nobody killed the caller. -/
theorem wait_fails_unkilled : ∃ z seen z' more,
    run Procs.step Procs.boot [.schedule 0, .kill 0, .fork true true, .wait, .schedule 1,
      .fork true true] = some (z, seen) ∧
    z.step .wait = some (z', more) ∧ .waitFailed (z.born 1) ∈ more ∧ z.Live 1 ∧
    (z.table 2).parent = some 1 ∧ .killed (z.born 1) ∉ seen := by
  obtain ⟨⟨z, seen⟩, ran⟩ := Option.isSome_iff_exists.1
    (show (run Procs.step Procs.boot [.schedule 0, .kill 0, .fork true true, .wait, .schedule 1,
      .fork true true]).isSome = true by decide +kernel)
  have facts : (run Procs.step Procs.boot [.schedule 0, .kill 0, .fork true true, .wait, .schedule 1,
      .fork true true]).all (fun r => decide
        ((r.1.step .wait).map (·.2) = some [.waitFailed 2, .returned 2] ∧ r.1.born 1 = 2 ∧
          r.1.Live 1 ∧ (r.1.table 2).parent = some 1 ∧ .killed 2 ∉ r.2)) = true := by
    decide +kernel
  rw [ran] at facts
  obtain ⟨failed, isBorn, live, isParent, unkilled⟩ := of_decide_eq_true facts
  replace isBorn : z.born 1 = 2 := isBorn
  obtain ⟨⟨z', more⟩, stepped, rfl⟩ := Option.map_eq_some_iff.1 failed
  exact ⟨z, seen, z', _, ran, stepped, by simp [isBorn], live, isParent, by rwa [isBorn]⟩

end Xv6Rpi.Proc
