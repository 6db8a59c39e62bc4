/-
# Kernel.LogCrash -- the log makes transactions atomic under crashes

A machine boots from a disk, runs `initlog` and then any transactions, and stops
at any point: between two sector writes, or at a panic.  What is on the disk then
is all that is left.  Recovery is `initlog` again, from zeroed memory; it may be
stopped at any point and started over.

The commits of a run are its header writes with `n` not zero.  `crash_atomic` says
that recovery leaves the content after exactly the committed transactions, in
every case.
-/
import Xv6Rpi.Kernel.LogCommit

namespace Xv6Rpi.Kernel

open Theory

set_option autoImplicit false

/-! ## The machine -/

/-- Memory right after the machine comes up on a disk: `binit` has run. -/
@[irreducible] def bootState (disk : Disk) (disksize : Nat) : KState :=
  { KState.zeroed disk disksize with bio := Bio.binit disk disksize }

/-- A transaction: the process that runs it, and the blocks it logs, in order. -/
structure Tx where
  proc : Pid
  writes : List (Nat × Block)

/-- The typical use of `log_write`. -/
def logBlock (w : Nat × Block) : K Unit := do
  let bp ← bread ROOTDEV w.1
  setData bp w.2
  logWrite bp
  brelse bp

def Tx.run (tx : Tx) : K Unit := do
  Act.modify fun s => { s with mem := { s.mem with proc := tx.proc } }
  beginTrans
  Act.forEach logBlock tx.writes
  commitTrans

/-- The kernel's life: recovery, then transactions. -/
def runLog (txs : List Tx) : K Unit := do
  initlog
  Act.forEach Tx.run txs

/-- The disk when the machine stops after some events of a run from `s`. -/
def diskAfter (s : KState) (events : List (Event × KState)) : Disk :=
  match events.getLast? with
  | none => s.bio.disk
  | some e => e.2.bio.disk

/-- Recoveries that are stopped at some point, one after the other. -/
inductive Recovering (disksize : Nat) (d : Disk) : Disk → Prop where
  | start : Recovering disksize d d
  | stopped {d' : Disk} {events : List (Event × KState)} (before : Recovering disksize d d')
      (some_ : events <+: (initlog (bootState d' disksize)).trace) :
      Recovering disksize d (diskAfter (bootState d' disksize) events)

/-- A header write that commits. -/
def isCommit (start : Nat) : Event → Bool
  | .write x y => x == start && headCount y != 0
  | _ => false

/-- The number of transactions whose header has reached the disk. -/
def commits (start : Nat) (events : List (Event × KState)) : Nat :=
  events.countP fun e => isCommit start e.1

def applyWrites (ws : List (Nat × Block)) (d : Disk) : Disk :=
  ws.foldl (fun d w => upd d w.1 w.2) d

/-- The content after some transactions. -/
def contentAfter (txs : List Tx) (d : Disk) : Disk :=
  txs.foldl (fun d tx => applyWrites tx.writes d) d

/-- The transactions that have a header to write. -/
def logging (txs : List Tx) : List Tx := txs.filter fun tx => !tx.writes.isEmpty

/-! ## What is on the disk at every point -/

/-- Anything may happen but a commit, as long as the disk stands for `A`. -/
def standing (g : Geo) (A : Disk) : KContract where
  rest := fun _ => True
  fails := fun _ _ => True
  shows := fun v s => isCommit g.start v = false ∧ Committed g A s.bio.disk
  given := fun _ => True

section Standing

variable {g : Geo} {A v : Disk} {L : Finset Nat} {t : Option Pid} {m : Mem} {s : KState}

theorem quiet_standing (g : Geo) (A : Disk) : Quiet (standing g A) g A := by
  intro x y s empty com
  refine ⟨?_, com⟩
  by_cases eq : x = g.start
  · simp [isCommit, empty eq]
  · simp [isCommit, eq]

theorem logBlock_stands (io : Io g A v L Held.nothing t m s) (ok : g.Ok) {w : Nat × Block}
    (home : ¬ g.InLog w.1) (super : w.1 = 1 → g.Super w.2) :
    Sat (standing g A) (fun _ s' => Io g A (upd v w.1 w.2) (insert w.1 L) Held.nothing t m s')
      (logBlock w s) := by
  have com := io.committed ok
  unfold logBlock
  by_cases inside : w.1 < g.disksize
  · refine io.bread inside home (fun b held => by cases held) (Or.inr fun _ => trivial)
      fun b s1 idle io1 => ?_
    have held : upd Held.nothing b (some w.1) b = some w.1 := upd_same _ _ _
    refine io1.logWrite ok held (quiet_standing g A) (fun s' same => ⟨rfl, ?_⟩)
      (Or.inr fun _ _ => trivial) (Or.inr fun _ => trivial) (Or.inr fun _ _ _ => trivial) super
      fun s2 io2 => ?_
    · rw [same]
      exact io1.committed ok
    · obtain ⟨s3, released, io3⟩ := io2.brelse held
      rw [Held.upd_upd_none idle] at io3
      rw [released]
      exact io3
  · obtain ⟨v', d, looks, -⟩ := io.bio
    have past : s.bio.disksize ≤ w.1 := by
      rw [io.disksize]
      omega
    obtain ⟨e, s', failed⟩ : ∃ e s', bread ROOTDEV w.1 s = .fail e s' :=
      bread_fails looks.inv (Or.inr past)
    rw [Act.bind_apply, failed]
    exact trivial

theorem logBlocks_stand (ok : g.Ok) (ws : List (Nat × Block)) :
    ∀ (v : Disk) (L : Finset Nat) (s : KState), Io g A v L Held.nothing t m s →
      (∀ w ∈ ws, ¬ g.InLog w.1 ∧ (w.1 = 1 → g.Super w.2)) →
      Sat (standing g A) (fun _ s' => ∃ L', (L' = ∅ ↔ L = ∅ ∧ ws = []) ∧
        Io g A (applyWrites ws v) L' Held.nothing t m s') (Act.forEach logBlock ws s) := by
  induction ws with
  | nil => exact fun v L s io _ => ⟨L, by simp, io⟩
  | cons w ws ih =>
    intro v L s io good
    obtain ⟨home, super⟩ := good w List.mem_cons_self
    refine (logBlock_stands io ok home super).seq fun _ s1 io1 => ?_
    refine (ih _ _ s1 io1 fun u member => good u (List.mem_cons_of_mem _ member)).mono ?_
    rintro _ s2 ⟨L', empty, io2⟩
    refine ⟨L', ?_, io2⟩
    rw [empty]
    simp

end Standing

/-- The observer counts commits. -/
def countCommit (start : Nat) (k : Nat) (v : Event) : Nat := if isCommit start v then k + 1 else k

/-- At count `k` the disk stands for content `A k`. -/
def StandsFor (g : Geo) (A : Nat → Disk) (k : Nat) (_ : Event) (s : KState) : Prop :=
  Committed g (A k) s.bio.disk

section Watching

variable {g : Geo} {A : Nat → Disk} {s : KState} {k : Nat}

theorem watch_standing {α : Type} {Q : α → KState → Prop} {o : Outcome KState Panic Event α}
    (sat : Sat (standing g (A k)) Q o) :
    Watch (countCommit g.start) (StandsFor g A) (fun k' a s' => k' = k ∧ Q a s') k o := by
  refine sat.watch fun v s shown => ⟨trivial, ?_, shown.2⟩
  simp [countCommit, shown.1]

/-- The commit of a transaction that has logged something: one commit, first of all. -/
theorem commitTrans_watched {v : Disk} {L : Finset Nat} {t : Option Pid} {m : Mem}
    (io : Io g (A k) v L Held.nothing t m s) (ok : g.Ok) (some_ : L ≠ ∅) (next : v = A (k + 1)) :
    Watch (countCommit g.start) (StandsFor g A)
      (fun k' _ s' => k' = k + 1 ∧ Io g (A (k + 1)) (A (k + 1)) ∅ Held.nothing none m s') k
      (commitTrans s) := by
  subst next
  have positive : 0 < s.log.lh.n := by
    rw [io.count_eq_card]
    exact Finset.card_pos.2 (Finset.nonempty_iff_ne_empty.2 some_)
  unfold commitTrans
  rw [Act.bind_apply, Act.get_apply, Outcome.done_bind, decide_eq_true positive]
  refine Watch.seq (x := Act.runIf true _) (P := fun k' _ s' => k' = k + 1 ∧
    Io g (A (k + 1)) (A (k + 1)) ∅ Held.nothing t m s') ?_ ?_
  · rw [Act.runIf_true, Act.bind_apply]
    by_cases room : s.bio.Room g.start
    · obtain ⟨y, s1, s2, eq, count, com, inv⟩ := io.writeHead ok room
      have isOne : isCommit g.start (.write g.start y) = true := by
        simp [isCommit, count]
        omega
      have counted : countCommit g.start k (.write g.start y) = k + 1 := by
        simp [countCommit, isOne]
      rw [eq]
      refine ⟨by rw [counted]; exact com, ?_⟩
      rw [counted]
      exact watch_standing (Sat.installAndErase inv ok io.header_ok (quiet_standing g _)
        (Or.inr (Or.inr fun _ => trivial)))
    · obtain ⟨v', d, looks, -⟩ := io.bio
      rw [writeHead_no_room looks io.placed room]
      exact trivial
  · rintro k' _ s' ⟨rfl, io'⟩
    exact ⟨rfl, io'.finish⟩

theorem tx_watched (ok : g.Ok) {m : Mem} (io : Io g (A k) (A k) ∅ Held.nothing none m s) {tx : Tx}
    (good : ∀ w ∈ tx.writes, ¬ g.InLog w.1 ∧ (w.1 = 1 → g.Super w.2))
    (next : tx.writes ≠ [] → applyWrites tx.writes (A k) = A (k + 1)) :
    Watch (countCommit g.start) (StandsFor g A)
      (fun k' _ s' => k' = (if tx.writes = [] then k else k + 1) ∧
        ∃ m', Io g (A k') (A k') ∅ Held.nothing none m' s') k (tx.run s) := by
  have io1 : Io g (A k) (A k) ∅ Held.nothing none { m with proc := tx.proc }
      { s with mem := { s.mem with proc := tx.proc } } :=
    { io with bio := io.bio, mem := by rw [io.mem] }
  obtain ⟨s2, began, io2⟩ := io1.beginTrans
  unfold Tx.run
  rw [Act.bind_apply, Act.modify_apply, Outcome.done_bind, Act.bind_apply, began,
    Outcome.done_bind]
  refine Watch.seq (watch_standing (logBlocks_stand ok tx.writes (A k) ∅ s2 io2 good)) ?_
  rintro k' _ s3 ⟨rfl, L, empty, io3⟩
  by_cases nothing : tx.writes = []
  · have isEmpty : L = ∅ := empty.2 ⟨rfl, nothing⟩
    subst isEmpty
    rw [nothing] at io3
    obtain ⟨s4, returned, io4⟩ := io3.commitTrans_empty
    rw [returned, if_pos nothing]
    exact ⟨rfl, _, io4⟩
  · have notEmpty : L ≠ ∅ := fun isEmpty => nothing (empty.1 isEmpty).2
    rw [if_neg nothing]
    refine (commitTrans_watched io3 ok notEmpty (next nothing)).mono ?_
    rintro k' _ s4 ⟨rfl, io4⟩
    exact ⟨rfl, _, io4⟩

end Watching

section Runs

variable {g : Geo} {disk : Disk}

theorem contentAfter_snoc (txs : List Tx) (tx : Tx) (d : Disk) :
    contentAfter (txs ++ [tx]) d = applyWrites tx.writes (contentAfter txs d) := by
  simp [contentAfter]

/-- The transactions of a run, from the one with number `k` on. -/
theorem txs_watched (ok : g.Ok) (all txs : List Tx) : ∀ (done_ : List Tx) (m : Mem) (s : KState),
    logging all = done_ ++ logging txs →
    (∀ tx ∈ txs, ∀ w ∈ tx.writes, ¬ g.InLog w.1 ∧ (w.1 = 1 → g.Super w.2)) →
    Io g (contentAfter done_ disk) (contentAfter done_ disk) ∅ Held.nothing none m s →
    Watch (countCommit g.start) (StandsFor g fun k => contentAfter ((logging all).take k) disk)
      (fun _ _ _ => True) done_.length (Act.forEach Tx.run txs s) := by
  induction txs with
  | nil => exact fun _ _ _ _ _ _ => trivial
  | cons tx txs ih =>
    intro done_ m s split good io
    have here : (logging all).take done_.length = done_ := by rw [split, List.take_left']; rfl
    have io' : Io g (contentAfter ((logging all).take done_.length) disk)
        (contentAfter ((logging all).take done_.length) disk) ∅ Held.nothing none m s := by
      rw [here]
      exact io
    refine Watch.seq (tx_watched (A := fun k => contentAfter ((logging all).take k) disk) ok io'
      (good tx List.mem_cons_self) fun some_ => ?_) ?_
    · have split' : logging all = (done_ ++ [tx]) ++ logging txs := by
        rw [split, List.append_assoc]
        simp [logging, some_]
      have there : (logging all).take (done_.length + 1) = done_ ++ [tx] := by
        rw [split', List.take_left' (by simp)]
      show _ = contentAfter ((logging all).take (done_.length + 1)) disk
      rw [there, here, contentAfter_snoc]
    · rintro k' _ s' ⟨rfl, m', io''⟩
      have good' : ∀ tx' ∈ txs, ∀ w ∈ tx'.writes, ¬ g.InLog w.1 ∧ (w.1 = 1 → g.Super w.2) :=
        fun tx' member => good tx' (List.mem_cons_of_mem _ member)
      by_cases nothing : tx.writes = []
      · rw [if_pos nothing] at io'' ⊢
        rw [here] at io''
        refine ih done_ m' s' ?_ good' io''
        rw [split]
        simp [logging, nothing]
      · rw [if_neg nothing] at io'' ⊢
        have split' : logging all = (done_ ++ [tx]) ++ logging txs := by
          rw [split, List.append_assoc]
          simp [logging, nothing]
        have there : (logging all).take (done_.length + 1) = done_ ++ [tx] := by
          rw [split', List.take_left' (by simp)]
        rw [there] at io''
        have watched := ih (done_ ++ [tx]) m' s' split' good' io''
        rwa [List.length_append, List.length_singleton] at watched

theorem foldl_countCommit (start : Nat) (events : List (Event × KState)) : ∀ k,
    events.foldl (fun k e => countCommit start k e.1) k = k + commits start events := by
  induction events with
  | nil => exact fun k => rfl
  | cons e events ih =>
    intro k
    rw [List.foldl_cons, ih, commits, commits, List.countP_cons, countCommit]
    cases isCommit start e.1 with
    | true => simp; omega
    | false => simp

theorem bio_bootState (d : Disk) (disksize : Nat) :
    (bootState d disksize).bio = Bio.binit d disksize := by
  unfold bootState
  rfl

theorem disk_bootState (d : Disk) (disksize : Nat) :
    (bootState d disksize).bio.disk = d := by
  rw [bio_bootState]
  exact (binit_fresh d disksize).1

theorem initlog_boot {C : KContract} {A d : Disk} (com : Committed g A d)
    (ok : g.Ok) (quiet : Quiet C g A) :
    Sat C (fun _ s' => Io g A A ∅ Held.nothing none (bootState d g.disksize).mem s')
      (initlog (bootState d g.disksize)) := by
  have owner : (bootState d g.disksize).log.busy = none := by
    unfold bootState
    rfl
  exact Sat.initlog com ok quiet (bio_bootState d g.disksize) owner

/-- A disk with an empty log stands for itself. -/
theorem committed_of_clean (super : g.Super (disk 1)) (clean : headCount (disk g.start) = 0) :
    Committed g disk disk := by
  have none_ : g.redo.entries (disk g.redo.start) = [] := headEntries_nil clean
  refine ⟨Redo.sound_of_clean none_, fun x _ => ?_, ?_, ?_, super, super⟩
  · rw [Redo.logical_of_clean none_]
  · omega
  · rw [headEntries_nil clean]
    exact fun x member => by cases member

/-- The disk at every point of a run stands for the committed transactions. -/
theorem run_stands (ok : g.Ok) (super : g.Super (disk 1)) (clean : headCount (disk g.start) = 0)
    {txs : List Tx}
    (good : ∀ tx ∈ txs, ∀ w ∈ tx.writes, ¬ g.InLog w.1 ∧ (w.1 = 1 → g.Super w.2))
    {events : List (Event × KState)}
    (stopped : events <+: (runLog txs (bootState disk g.disksize)).trace) :
    Committed g (contentAfter ((logging txs).take (commits g.start events)) disk)
      (diskAfter (bootState disk g.disksize) events) := by
  have com := committed_of_clean super clean
  have watched : Watch (countCommit g.start)
      (StandsFor g fun k => contentAfter ((logging txs).take k) disk) (fun _ _ _ => True) 0
      (runLog txs (bootState disk g.disksize)) := by
    unfold runLog
    have recovered := watch_standing (A := fun k => contentAfter ((logging txs).take k) disk) (k := 0)
      (initlog_boot com ok (quiet_standing g disk))
    refine Watch.seq recovered ?_
    rintro k' _ s ⟨rfl, io⟩
    exact txs_watched ok txs txs [] _ s rfl good io
  obtain ⟨after, split⟩ := stopped
  rcases List.eq_nil_or_concat events with rfl | ⟨before, e, isConcat⟩
  · show Committed g (contentAfter ((logging txs).take 0) disk) (bootState disk g.disksize).bio.disk
    rw [disk_bootState]
    exact com
  · rw [List.concat_eq_append] at isConcat
    subst isConcat
    have here : (runLog txs (bootState disk g.disksize)).trace = before ++ e :: after := by
      simpa using split.symm
    have shown := watched.atEvent here
    rw [foldl_countCommit, Nat.zero_add] at shown
    have last : diskAfter (bootState disk g.disksize) (before ++ [e]) = e.2.bio.disk := by
      simp [diskAfter]
    rw [last]
    exact shown

/-- A recovery that is stopped leaves a disk that stands for the same content. -/
theorem recovering_stands (ok : g.Ok) {A d d' : Disk} (com : Committed g A d)
    (recovering : Recovering g.disksize d d') : Committed g A d' := by
  induction recovering with
  | start => exact com
  | @stopped d' events _ some_ ih =>
    have sat := initlog_boot ih ok (quiet_standing g A)
    obtain ⟨after, split⟩ := some_
    rcases List.eq_nil_or_concat events with rfl | ⟨before, e, isConcat⟩
    · show Committed g A (bootState d' g.disksize).bio.disk
      rw [disk_bootState]
      exact ih
    · rw [List.concat_eq_append] at isConcat
      subst isConcat
      have here : (initlog (bootState d' g.disksize)).trace = before ++ e :: after := by
        simpa using split.symm
      have shown := sat.shows here fun _ _ => trivial
      have last : diskAfter (bootState d' g.disksize) (before ++ [e]) = e.2.bio.disk := by
        simp [diskAfter]
      rw [last]
      exact shown.2

/-- A recovery that is not stopped runs to its end and leaves that content, with an
empty log. -/
theorem recovery_restores (ok : g.Ok) {A d : Disk} (com : Committed g A d) :
    ∃ s, (initlog (bootState d g.disksize)).leaf = .done () s ∧
      headCount (s.bio.disk g.start) = 0 ∧ ∀ x, ¬ g.InLog x → s.bio.disk x = A x := by
  have quiet : Quiet Contract.total g A := fun _ _ _ _ _ => trivial
  obtain ⟨_, s, returned, io⟩ := (initlog_boot com ok quiet).returns
  obtain ⟨v', d', looks, clean, shown, -⟩ := io.bio
  refine ⟨s, returned, ?_, fun x out => ?_⟩
  · rw [looks.disk]
    exact clean
  · rw [looks.disk]
    exact (shown x out).2

/-- **Crash atomicity.**  Stop a run of transactions anywhere and recover, with
any number of recoveries stopped on the way: the recovery that is not stopped ends
with the content after exactly the transactions whose header was written, and with
an empty log.  The superblock lies outside the log, and transactions that write it
leave the log where it is. -/
theorem crash_atomic (ok : g.Ok) (super : g.Super (disk 1)) (clean : headCount (disk g.start) = 0)
    {txs : List Tx} (outside : ∀ tx ∈ txs, ∀ w ∈ tx.writes, ¬ g.InLog w.1)
    (keepsLog : ∀ tx ∈ txs, ∀ w ∈ tx.writes, w.1 = 1 → g.Super w.2)
    {events : List (Event × KState)}
    (stopped : events <+: (runLog txs (bootState disk g.disksize)).trace) {d : Disk}
    (recovering : Recovering g.disksize (diskAfter (bootState disk g.disksize) events) d) :
    ∃ s, (initlog (bootState d g.disksize)).leaf = .done () s ∧
      headCount (s.bio.disk g.start) = 0 ∧
      ∀ x, ¬ g.InLog x →
        s.bio.disk x = contentAfter ((logging txs).take (commits g.start events)) disk x := by
  have stands := run_stands ok super clean
    (fun tx member w inTx => ⟨outside tx member w inTx, keepsLog tx member w inTx⟩) stopped
  exact recovery_restores ok (recovering_stands ok stands recovering)

end Runs

/-! ## Two small disks -/

/-- A block with 32-bit fields at its start, zero after them. -/
def wordsBlock (ws : List Nat) : Block := ws.zipIdx.foldl (fun b w => b.put32 (4 * w.2) w.1) Bytes.zero

/-- Twelve blocks with a log of three at block 4; blocks 7 and 8 read like a log
with one entry, for block 3. -/
def smallDisk : Disk
  | 1 => wordsBlock [7, 2, 8, 3]
  | 7 => wordsBlock [1, 3]
  | 8 => wordsBlock [99]
  | _ => Bytes.zero

def smallGeo : Geo := ⟨4, 3, 12⟩

/-- Writes one data block. -/
def oneBlock : Tx := ⟨0, [(2, wordsBlock [5])]⟩

/-- Rewrites the superblock, so that the log begins at block 7. -/
def movesLog : Tx := ⟨0, [(1, wordsBlock [10, 2, 8, 3])]⟩

/-- A crash right after the header write: the block is recovered. -/
theorem crash_atomic_one_block :
    ∃ s, (initlog (bootState (diskAfter (bootState smallDisk 12)
        ((runLog [oneBlock] (bootState smallDisk 12)).trace.take 4)) 12)).leaf = .done () s ∧
      headCount (s.bio.disk 4) = 0 ∧
      ∀ x, ¬ smallGeo.InLog x →
        s.bio.disk x = contentAfter ((logging [oneBlock]).take
          (commits 4 ((runLog [oneBlock] (bootState smallDisk 12)).trace.take 4))) smallDisk x :=
  crash_atomic (g := smallGeo) ⟨by decide, by decide, by decide, by decide⟩ (by decide +kernel)
    (by decide +kernel) (by decide) (by decide) (List.take_prefix _ _) .start

/-- Once the log is moved, the next recovery takes blocks 7 and 8 for the log and
overwrites block 3, which no transaction wrote. -/
theorem crash_atomic_log_moved :
    smallGeo.Ok ∧ smallGeo.Super (smallDisk 1) ∧ headCount (smallDisk 4) = 0 ∧
      (∀ w ∈ movesLog.writes, ¬ smallGeo.InLog w.1) ∧ ¬ smallGeo.InLog 3 ∧
      ∃ s, (initlog (bootState (diskAfter (bootState smallDisk 12)
          (runLog [movesLog] (bootState smallDisk 12)).trace) 12)).leaf = .done () s ∧
        s.bio.disk 3 ≠ contentAfter ((logging [movesLog]).take
          (commits 4 (runLog [movesLog] (bootState smallDisk 12)).trace)) smallDisk 3 := by
  refine ⟨⟨by decide, by decide, by decide, by decide⟩, by decide +kernel, by decide +kernel,
    by decide, by decide, _, Outcome.leaf_of_value? (by decide +kernel), fun same => ?_⟩
  have byte := congrArg (fun b : Block => (b.get 0).toNat) same
  revert byte
  decide +kernel

end Xv6Rpi.Kernel
