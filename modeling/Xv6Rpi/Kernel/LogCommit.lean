/-
# Kernel.LogCommit -- committing a transaction, and recovery

Both run `install_trans` between two header writes.  `Installing g A F t m lh todo s`
is what holds inside: the header on the disk names the blocks of `lh`, the disk
stands for `A`, and every block but those of the slots `todo` has reached its home
location.  So the header may be erased once nothing is left to do.  `F` bounds the
dirty blocks: the transaction's own in a commit, none in recovery.
-/
import Xv6Rpi.Kernel.LogInv

namespace Xv6Rpi.Kernel

open Theory

set_option autoImplicit false

/-- Where the log is kept and what its header in memory is. -/
structure Placed (g : Geo) (lh : LogHeader) (t : Option Pid) (m : Mem) (s : KState) : Prop where
  disksize : s.bio.disksize = g.disksize
  start : s.log.start = g.start
  size : s.log.size = g.nlog
  dev : s.log.dev = ROOTDEV
  header : s.log.lh = lh
  owner : s.log.busy = t
  mem : s.mem = m

/-- The header names distinct blocks of the disk outside the log, one for each slot. -/
structure LogHeader.Ok (g : Geo) (lh : LogHeader) : Prop where
  few : lh.n ≤ LOGSIZE
  fits : lh.n < g.nlog
  distinct : lh.entries.Nodup
  home : ∀ x ∈ lh.entries, ¬ g.InLog x ∧ x < g.disksize

structure Installing (g : Geo) (A : Disk) (F : Finset Nat) (t : Option Pid) (m : Mem)
    (lh : LogHeader) (todo : List Nat) (s : KState) : Prop where
  placed : Placed g lh t m s
  bio : ∃ v d D, Looks ∅ s.bio v d D Held.nothing ∧ Committed g A d ∧
    headEntries (d g.start) = lh.entries ∧ (∀ x ∈ D, x ∈ F ∧ ∃ i ∈ todo, lh.sector i = x) ∧
    ∀ i < lh.n, i ∉ todo → d (lh.sector i) = d (g.start + 1 + i)
  nodup : todo.Nodup
  below : ∀ i ∈ todo, i < lh.n

section Rules

variable {g : Geo} {A v d : Disk} {D : Set Nat} {F : Finset Nat} {t : Option Pid} {m : Mem}
  {lh : LogHeader} {s : KState} {C : KContract}

theorem Placed.keep {s' : KState} (placed : Placed g lh t m s) (kept : Kept s s') :
    Placed g lh t m s' := by
  obtain ⟨bio, log, mem⟩ := s'
  obtain rfl : log = s.log := kept.log
  exact { placed with
    disksize := kept.size.trans placed.disksize
    mem := kept.mem.trans placed.mem }

theorem Kept.trans {s s' s'' : KState} (first : Kept s s') (second : Kept s' s'') : Kept s s'' :=
  ⟨second.log.trans first.log, second.mem.trans first.mem, second.size.trans first.size⟩

/-- **write_head**: one sector write, of a block that reads back as the header. -/
theorem Looks.writeHead (looks : Looks ∅ s.bio v d D Held.nothing)
    (placed : Placed g lh t m s) (ok : g.Ok) (few : lh.n ≤ LOGSIZE)
    (small : ∀ x ∈ lh.entries, x < g.disksize) (clean : g.start ∉ D) (room : s.bio.Room g.start) :
    ∃ y s1 s2, Kernel.writeHead s = .event (.write g.start y) s1 (.done () s2) ∧
      headCount y = lh.n ∧ headEntries y = lh.entries ∧ s1.bio.disk = upd d g.start y ∧
      Kept s s2 ∧ Looks ∅ s2.bio (upd v g.start y) (upd d g.start y) D Held.nothing := by
  have inside : g.start < s.bio.disksize := by
    have onDisk := ok.onDisk
    have some_ := ok.someBlock
    rw [placed.disksize]
    omega
  obtain ⟨b, c, returned, idle, size, looks1⟩ :=
    looks.bread inside (fun b held => by cases held) room
  have held : upd Held.nothing b (some g.start) b = some g.start := upd_same _ _ _
  obtain ⟨count, entries⟩ := headEntries_encodeHead (b := v g.start) few fun i below => by
    have bound := small _ (LogHeader.mem_entries.2 ⟨i, below, rfl⟩)
    have isInt := ok.isInt
    omega
  have stored := looks1.stored held (encodeHead (v g.start) lh)
  obtain ⟨wrote, looks2⟩ := Looks.bwrite
    (s := { s with bio := c.stored b (encodeHead (v g.start) lh) }) stored held
  have same : D \ {g.start} = D := Set.sdiff_singleton_eq_self clean
  rw [upd_same, same, show insert g.start (∅ : Set Nat) \ {g.start} = ∅ by simp] at looks2
  rw [upd_same] at wrote
  obtain ⟨released, looks3⟩ := Looks.brelse
    (s := { s with bio := (c.stored b (encodeHead (v g.start) lh)).written b }) looks2 held
    (Set.notMem_empty _)
  rw [Held.upd_upd_none idle] at looks3
  refine ⟨encodeHead (v g.start) lh,
    { s with bio := (c.stored b (encodeHead (v g.start) lh)).written b },
    { s with bio := ((c.stored b (encodeHead (v g.start) lh)).written b).released b }, ?_,
    count, entries, looks2.disk, ⟨rfl, rfl, size⟩, looks3⟩
  unfold Kernel.writeHead
  rw [Act.bind_apply, Act.get_apply, Outcome.done_bind, placed.dev, placed.start, placed.header,
    Act.bind_apply, returned, Outcome.done_bind, Act.bind_apply]
  show (Outcome.done (c.bufs b).data { s with bio := c }).bind _ = _
  rw [Outcome.done_bind, looks1.data held, Act.bind_apply, setData_eq, Outcome.done_bind,
    Act.bind_apply, wrote, Outcome.event_bind, Outcome.done_bind, released]

theorem Sat.writeHead {Q : Unit → KState → Prop} (looks : Looks ∅ s.bio v d D Held.nothing)
    (placed : Placed g lh t m s) (ok : g.Ok) (few : lh.n ≤ LOGSIZE)
    (small : ∀ x ∈ lh.entries, x < g.disksize) (clean : g.start ∉ D) (room : s.bio.Room g.start)
    (shown : ∀ y s', headCount y = lh.n → headEntries y = lh.entries →
      s'.bio.disk = upd d g.start y → C.shows (.write g.start y) s')
    (next : ∀ y s', headCount y = lh.n → headEntries y = lh.entries → Kept s s' →
      Looks ∅ s'.bio (upd v g.start y) (upd d g.start y) D Held.nothing → Q () s') :
    Sat C Q (writeHead s) := by
  obtain ⟨y, s1, s2, eq, count, entries, disk, kept, looks'⟩ :=
    looks.writeHead placed ok few small clean room
  rw [eq]
  exact ⟨shown y s1 count entries disk, fun _ => next y s2 count entries kept looks'⟩

theorem writeHead_no_room (looks : Looks ∅ s.bio v d D Held.nothing) (placed : Placed g lh t m s)
    (full : ¬ s.bio.Room g.start) : writeHead s = .fail .bget s := by
  unfold Kernel.writeHead
  rw [Act.bind_apply, Act.get_apply, Outcome.done_bind, placed.dev, placed.start, Act.bind_apply,
    bread_no_room looks.inv full]
  rfl

/-- The disk after one block has been copied home. -/
theorem committed_install (ok : g.Ok) (com : Committed g A d)
    (entries : headEntries (d g.start) = lh.entries) (hok : lh.Ok g) {i : Nat} (below : i < lh.n) :
    Committed g A (upd d (lh.sector i) (d (g.start + i + 1))) := by
  have member : lh.sector i ∈ lh.entries := LogHeader.mem_entries.2 ⟨i, below, rfl⟩
  have named : lh.sector i ∈ g.redo.entries (d g.redo.start) := by
    show lh.sector i ∈ headEntries (d g.start)
    rwa [entries]
  have index : g.redo.start + 1 + (g.redo.entries (d g.redo.start)).idxOf (lh.sector i) =
      g.start + i + 1 := by
    show g.start + 1 + (headEntries (d g.start)).idxOf (lh.sector i) = _
    rw [entries, LogHeader.idxOf_entries hok.distinct below]
    omega
  obtain ⟨home, -⟩ := hok.home _ member
  have header : upd d (lh.sector i) (d (g.start + i + 1)) g.start = d g.start :=
    upd_ne _ _ fun same => home (same ▸ ok.start_inLog)
  have install := Redo.logical_install com.sound named
  have sound := Redo.sound_install (b := d (g.start + i + 1)) com.sound named
  rw [index] at install
  rw [← upd_eq_update] at install sound
  refine ⟨sound, ?_, ?_, ?_, ?_, com.super.2⟩
  · intro x out
    rw [install]
    exact com.stands x out
  · rw [header]
    exact com.few
  · rw [header]
    exact com.onDisk
  · -- a superblock that is installed is the committed one
    have slot : d (g.start + i + 1) = A (lh.sector i) := by
      rw [← com.stands _ home, Redo.logical, if_pos named, index]
    rw [upd_apply]
    by_cases eq : 1 = lh.sector i
    · rw [if_pos eq, slot, ← eq]
      exact com.super.2
    · rw [if_neg eq]
      exact com.super.1

/-- The cache has buffers for a log block and its home block, or panics are accepted. -/
def InstallRoom (C : KContract) (F : Finset Nat) (lh : LogHeader) : Prop :=
  (F.card < NBUF ∧ ∀ x ∈ lh.entries, x ∈ F) ∨ F.card + 1 < NBUF ∨ ∀ s, C.fails .bget s

/-- One round of `install_trans`. -/
theorem Sat.installBlock {i : Nat} {todo : List Nat} (inv : Installing g A F t m lh (i :: todo) s)
    (ok : g.Ok) (hok : lh.Ok g) (quiet : Quiet C g A)
    (room : InstallRoom C F lh) :
    Sat C (fun _ s' => Installing g A F t m lh todo s') (installBlock i s) := by
  obtain ⟨v, d, D, looks, com, entries, dirty, done_⟩ := inv.bio
  have below : i < lh.n := inv.below i List.mem_cons_self
  have member : lh.sector i ∈ lh.entries := LogHeader.mem_entries.2 ⟨i, below, rfl⟩
  obtain ⟨home, onDisk⟩ := hok.home _ member
  have fits := hok.fits
  have areaOnDisk := ok.onDisk
  have inLog : g.InLog (g.start + i + 1) := ⟨by omega, by omega⟩
  have apart : g.start + i + 1 ≠ lh.sector i := fun same => home (same ▸ inLog)
  have homes : ∀ x ∈ D, x ∈ lh.entries := by
    intro x xIn
    obtain ⟨-, j, jIn, rfl⟩ := dirty x xIn
    exact LogHeader.mem_entries.2 ⟨j, inv.below j jIn, rfl⟩
  have slotClean : g.start + i + 1 ∉ D := fun isDirty => (hok.home _ (homes _ isDirty)).1 inLog
  unfold Kernel.installBlock
  refine Sat.step (Act.get_apply s) ?_
  rw [inv.placed.dev, inv.placed.start, inv.placed.header]
  refine Sat.bread looks ?_ (fun b held => by cases held) ?_ fun lbuf s1 kept1 idleL looks1 => ?_
  · rw [inv.placed.disksize]
    omega
  · have enough : F.card < NBUF → s.bio.Room (g.start + i + 1) := fun few =>
      looks.room (fun x xIn => (dirty x xIn).1) (by rw [Held.count_nothing]; omega) _
    rcases room with ⟨few, -⟩ | few | accepted
    · exact Or.inl (enough few)
    · exact Or.inl (enough (by omega))
    · exact Or.inr fun _ => accepted _
  have heldL : upd Held.nothing lbuf (some (g.start + i + 1)) lbuf = some (g.start + i + 1) :=
    upd_same _ _ _
  have free : ∀ b, upd Held.nothing lbuf (some (g.start + i + 1)) b ≠ some (lh.sector i) :=
    forall_upd (P := fun _ o => o ≠ some (lh.sector i)) (fun same => apart (Option.some.inj same))
      fun _ _ held => by cases held
  refine Sat.bread looks1 ?_ free ?_ fun dbuf s2 kept2 idleD looks2 => ?_
  · rw [kept1.size, inv.placed.disksize]
    exact onDisk
  · rcases room with ⟨few, all⟩ | few | accepted
    · left
      by_cases isDirty : lh.sector i ∈ D
      · obtain ⟨b, holds, -⟩ := (looks1.dirty _).2 isDirty
        exact Or.inl ⟨b, holds⟩
      · refine looks1.room (L := F.erase (lh.sector i)) (fun x xIn => ?_) ?_ _
        · exact Finset.mem_erase.2 ⟨fun same => isDirty (same ▸ xIn), (dirty x xIn).1⟩
        · have some_ : 0 < F.card := Finset.card_pos.2 ⟨_, all _ member⟩
          rw [Held.count_upd_some idleL, Held.count_nothing, Finset.card_erase_of_mem (all _ member)]
          omega
    · refine Or.inl (looks1.room (fun x xIn => (dirty x xIn).1) ?_ _)
      rw [Held.count_upd_some idleL, Held.count_nothing]
      omega
    · exact Or.inr fun _ => accepted _
  have ne : lbuf ≠ dbuf := by
    rintro rfl
    rw [heldL] at idleD
    cases idleD
  have heldL2 : upd (upd Held.nothing lbuf (some (g.start + i + 1))) dbuf (some (lh.sector i)) lbuf =
      some (g.start + i + 1) := by rw [upd_ne _ _ ne, heldL]
  have heldD2 : upd (upd Held.nothing lbuf (some (g.start + i + 1))) dbuf (some (lh.sector i)) dbuf =
      some (lh.sector i) := upd_same _ _ _
  have com' := committed_install ok com entries hok below
  refine Sat.bdata looks2 heldL2 ?_
  rw [looks.clean slotClean]
  refine Sat.bwrite looks2 heldD2 (Set.notMem_empty _) (fun s3 _ disk => ?_)
    fun s3 kept3 looks3 => ?_
  · refine quiet _ _ s3 (fun same => ?_) (disk ▸ com')
    exact absurd (same ▸ ok.start_inLog) home
  refine Sat.call (Sat.brelse looks3 heldL2 (Set.notMem_empty _) fun s4 kept4 looks4 => ?_)
  have heldD4 : upd (upd (upd Held.nothing lbuf (some (g.start + i + 1))) dbuf
      (some (lh.sector i))) lbuf none dbuf = some (lh.sector i) := by
    rw [upd_ne _ _ (Ne.symm ne), upd_same]
  refine Sat.brelse looks4 heldD4 (Set.notMem_empty _) fun s5 kept5 looks5 => ?_
  have back : upd (upd (upd (upd Held.nothing lbuf (some (g.start + i + 1))) dbuf
      (some (lh.sector i))) lbuf none) dbuf none = Held.nothing := by
    funext b
    simp only [upd_apply]
    split_ifs
    all_goals rfl
  rw [back] at looks5
  obtain ⟨fresh, nodup⟩ := List.nodup_cons.1 inv.nodup
  refine ⟨?_, ⟨_, _, _, looks5, com', ?_, ?_, ?_⟩, nodup, fun j jIn =>
    inv.below j (List.mem_cons_of_mem _ jIn)⟩
  · exact ((((inv.placed.keep kept1).keep kept2).keep kept3).keep kept4).keep kept5
  · rw [upd_ne _ _ (show g.start ≠ lh.sector i from fun same => home (same ▸ ok.start_inLog))]
    exact entries
  · rintro x ⟨xIn, other⟩
    obtain ⟨inF, j, jIn, rfl⟩ := dirty x xIn
    rcases List.mem_cons.1 jIn with rfl | later
    · exact absurd rfl other
    · exact ⟨inF, j, later, rfl⟩
  · intro j jBelow jOut
    have slotJ : g.InLog (g.start + 1 + j) := ⟨by omega, by omega⟩
    have slotNe : g.start + 1 + j ≠ lh.sector i := fun same => home (same ▸ slotJ)
    rw [upd_ne _ _ slotNe]
    by_cases eq : j = i
    · subst eq
      rw [upd_same]
      congr 1
      omega
    · rw [upd_ne _ _ fun same => eq (LogHeader.sector_inj hok.distinct jBelow below same)]
      refine done_ j jBelow fun inTodo => ?_
      rcases List.mem_cons.1 inTodo with rfl | later
      · exact eq rfl
      · exact jOut later

/-- **install_trans** copies every committed block home, and the disk stands for
the same content all along. -/
theorem Sat.installTrans (inv : Installing g A F t m lh (List.range lh.n) s) (ok : g.Ok)
    (hok : lh.Ok g) (quiet : Quiet C g A) (room : InstallRoom C F lh) :
    Sat C (fun _ s' => Installing g A F t m lh [] s') (installTrans s) := by
  unfold Kernel.installTrans
  refine Sat.step (Act.get_apply s) ?_
  rw [inv.placed.header]
  exact Sat.forEach (I := fun todo s' => Installing g A F t m lh todo s')
    (fun i todo s' inv' => Sat.installBlock inv' ok hok quiet room) _ s inv

/-- Erasing the header, once everything is installed. -/
theorem committed_erase (ok : g.Ok) (com : Committed g A d)
    (entries : headEntries (d g.start) = lh.entries)
    (done_ : ∀ i < lh.n, d (lh.sector i) = d (g.start + 1 + i)) (hok : lh.Ok g) {y : Block}
    (empty : headCount y = 0) :
    Committed g A (upd d g.start y) ∧ ∀ x, ¬ g.InLog x → upd d g.start y x = A x := by
  have after := ok.afterSuper
  have none_ : headEntries y = [] := headEntries_nil empty
  have clean : g.redo.entries (upd d g.start y g.redo.start) = [] := by
    show headEntries (upd d g.start y g.start) = []
    rw [upd_same, none_]
  have installed : ∀ x ∈ g.redo.entries (d g.redo.start),
      d x = d (g.redo.start + 1 + (g.redo.entries (d g.redo.start)).idxOf x) := by
    intro x named
    have member : x ∈ lh.entries := by rwa [← entries]
    obtain ⟨i, below, rfl⟩ := LogHeader.mem_entries.1 member
    show d (lh.sector i) = d (g.start + 1 + (headEntries (d g.start)).idxOf (lh.sector i))
    rw [entries, LogHeader.idxOf_entries hok.distinct below]
    exact done_ i below
  have stands : ∀ x, ¬ g.InLog x → g.redo.logical (upd d g.start y) x = A x := by
    intro x out
    rw [← com.stands x out, upd_eq_update]
    exact Redo.logical_erase none_ (fun inArea => out ((ok.mem_area x).1 inArea)) installed
  refine ⟨⟨Redo.sound_of_clean clean, stands, ?_, ?_, ?_, com.super.2⟩, ?_⟩
  · rw [upd_same]
    omega
  · rw [upd_same, none_]
    exact fun x member => by cases member
  · rw [upd_ne _ _ (by omega)]
    exact com.super.1
  · intro x out
    rw [← stands x out, Redo.logical_of_clean clean]

/-- The second half of a commit, and all of recovery but its reads: install, then
erase the header. -/
theorem Sat.installAndErase (inv : Installing g A F t m lh (List.range lh.n) s) (ok : g.Ok)
    (hok : lh.Ok g) (quiet : Quiet C g A) (room : InstallRoom C F lh) :
    Sat C (fun _ s' => Io g A A ∅ Held.nothing t m s')
      ((Kernel.installTrans >>= fun _ => setLogCount 0 >>= fun _ => Kernel.writeHead) s) := by
  refine (Sat.installTrans inv ok hok quiet room).seq fun _ s1 inv1 => ?_
  refine Sat.step (setLogCount_eq 0) ?_
  obtain ⟨v, d, D, looks, com, entries, dirty, done_⟩ := inv1.bio
  have noneDirty : D = ∅ := by
    ext x
    simp only [Set.mem_empty_iff_false, iff_false]
    intro member
    obtain ⟨-, i, impossible, -⟩ := dirty x member
    cases impossible
  subst noneDirty
  have done' : ∀ i < lh.n, d (lh.sector i) = d (g.start + 1 + i) := fun i below =>
    done_ i below (by simp)
  have placed : Placed g { lh with n := 0 } t m
      { s1 with log := { s1.log with lh := { s1.log.lh with n := 0 } } } := by
    have old := inv1.placed
    refine ⟨old.disksize, old.start, old.size, old.dev, ?_, old.owner, old.mem⟩
    show { s1.log.lh with n := 0 } = _
    rw [old.header]
  have noEntries : ({ lh with n := 0 } : LogHeader).entries = [] := rfl
  refine Sat.writeHead looks placed ok (Nat.zero_le _) (by simp [noEntries])
    (Set.notMem_empty _) (looks.room_idle _) (fun y s' empty _ disk => ?_)
    fun y s' empty _ kept looks' => ?_
  · refine quiet g.start y s' (fun _ => empty) ?_
    rw [disk]
    exact (committed_erase ok com entries done' hok empty).1
  · have placed' := placed.keep kept
    have standsA := (committed_erase ok com entries done' hok empty).2
    have shown : ∀ x, ¬ g.InLog x → upd v g.start y x = A x := fun x out =>
      (looks'.clean (Set.notMem_empty x)).trans (standsA x out)
    have header := placed'.header
    exact {
      bio := ⟨_, _, by simpa using looks', by rw [upd_same]; exact empty,
        fun x out => ⟨shown x out, standsA x out⟩, by rw [header]; intro i below; cases below⟩
      disksize := placed'.disksize
      start := placed'.start
      size := placed'.size
      dev := placed'.dev
      few := by rw [header]; exact Nat.zero_le _
      fits := by rw [header]; exact ok.someBlock
      distinct := by rw [header, noEntries]; exact List.nodup_nil
      logged := by rw [header, noEntries]; simp
      home := by simp
      apart := fun b x held => by cases held
      owner := placed'.owner
      idle := fun _ => rfl
      mem := placed'.mem
      super := ⟨com.super.2, com.super.2⟩ }

/-! ## Transactions -/

theorem Io.header_ok {L : Finset Nat} {h : Held} (io : Io g A v L h t m s) : s.log.lh.Ok g :=
  ⟨io.few, io.fits, io.distinct, fun x member => io.home x ((io.logged x).1 member)⟩

theorem Io.placed {L : Finset Nat} {h : Held} (io : Io g A v L h t m s) :
    Placed g s.log.lh t m s :=
  ⟨io.disksize, io.start, io.size, io.dev, rfl, io.owner, io.mem⟩

/-- **begin_trans** of a process that finds no transaction open. -/
theorem Io.beginTrans {h : Held} (io : Io g A v ∅ h none m s) :
    ∃ s', Kernel.beginTrans s = .done () s' ∧ Io g A v ∅ h (some m.proc) m s' := by
  have ready : s.log.busy.isNone = true := by
    rw [io.owner]
    rfl
  refine ⟨{ s with log := { s.log with busy := some s.mem.proc } }, ?_, ?_⟩
  · unfold Kernel.beginTrans
    rw [Act.bind_apply, Act.await_of_ready (fun s : KState => s.log.busy.isNone) ready]
    rfl
  · exact { io with
      bio := io.bio
      owner := by show some s.mem.proc = _; rw [io.mem]
      idle := fun _ => rfl }

/-- Without a log entry the cache shows what is committed. -/
theorem Io.same {h : Held} (io : Io g A v ∅ h t m s) {x : Nat} (out : ¬ g.InLog x) :
    v x = A x := by
  obtain ⟨v', d, looks, -, shown, -⟩ := io.bio
  rw [← (shown x out).1, ← (shown x out).2]
  exact looks.clean (by simp)

/-- The header write of a commit: the disk stands for the transaction's content. -/
theorem Io.committed_header {L : Finset Nat} {h : Held} (io : Io g A v L h t m s) (ok : g.Ok)
    {v' d : Disk} (looks : Looks ∅ s.bio v' d L h)
    (shown : ∀ x, ¬ g.InLog x → v' x = v x ∧ d x = A x)
    (slots : ∀ i < s.log.lh.n, v' (g.start + 1 + i) = v' (s.log.lh.sector i)) {y : Block}
    (count : headCount y = s.log.lh.n) (entries : headEntries y = s.log.lh.entries) :
    Committed g v (upd d g.start y) := by
  have after := ok.afterSuper
  have hok := io.header_ok
  have fits := io.fits
  have named : g.redo.entries (upd d g.start y g.redo.start) = s.log.lh.entries := by
    show headEntries (upd d g.start y g.start) = _
    rw [upd_same, entries]
  refine ⟨⟨?_, ?_, ?_⟩, ?_, ?_, ?_, ?_, io.super.2⟩
  · rw [named]
    exact hok.distinct
  · rw [named]
    exact fun x member inArea => (hok.home x member).1 ((ok.mem_area x).1 inArea)
  · rw [named, LogHeader.length_entries]
    show _ ≤ g.nlog - 1
    omega
  · intro x out
    have outArea : x ∉ g.redo.area := fun inArea => out ((ok.mem_area x).1 inArea)
    rw [upd_eq_update, show g.start = g.redo.start from rfl, Redo.logical_commit outArea]
    show (if x ∈ headEntries y then d (g.start + 1 + (headEntries y).idxOf x) else d x) = v x
    rw [entries]
    by_cases member : x ∈ s.log.lh.entries
    · obtain ⟨i, below, rfl⟩ := LogHeader.mem_entries.1 member
      have slotIn : g.InLog (g.start + 1 + i) := ⟨by omega, by omega⟩
      have slotClean : g.start + 1 + i ∉ L := fun inL => (io.home _ inL).1 slotIn
      rw [if_pos member, LogHeader.idxOf_entries hok.distinct below, ← looks.clean slotClean,
        slots i below, (shown _ out).1]
    · rw [if_neg member, ← looks.clean fun inL => member ((io.logged x).2 inL), (shown x out).1]
  · rw [upd_same, count]
    exact hok.few
  · rw [upd_same, entries]
    exact fun x member => (hok.home x member).2
  · have one : ¬ g.InLog 1 := fun inLog => absurd inLog.1 (by omega)
    rw [upd_ne _ _ (by omega), (shown 1 one).2]
    exact io.super.1

/-- The commit point: a transaction that has logged something writes its header
with one sector write, and from then on the disk stands for its content. -/
theorem Io.writeHead {L : Finset Nat} (io : Io g A v L Held.nothing t m s) (ok : g.Ok)
    (room : s.bio.Room g.start) :
    ∃ y s1 s2, Kernel.writeHead s = .event (.write g.start y) s1 (.done () s2) ∧
      headCount y = s.log.lh.n ∧ Committed g v s1.bio.disk ∧
      Installing g v L t m s.log.lh (List.range s.log.lh.n) s2 := by
  obtain ⟨v', d, looks, clean, shown, slots⟩ := io.bio
  have hok := io.header_ok
  have startClean : g.start ∉ (L : Set Nat) := fun inL => (io.home _ inL).1 ok.start_inLog
  obtain ⟨y, s1, s2, eq, count, entries, disk, kept, looks'⟩ :=
    looks.writeHead io.placed ok hok.few (fun x member => (hok.home x member).2) startClean room
  have com := io.committed_header ok looks shown slots count entries
  refine ⟨y, s1, s2, eq, count, disk ▸ com, io.placed.keep kept,
    ⟨_, _, _, looks', com, ?_, ?_, ?_⟩, List.nodup_range, fun i member => List.mem_range.1 member⟩
  · rw [upd_same, entries]
  · intro x member
    obtain ⟨i, below, same⟩ := LogHeader.mem_entries.1 ((io.logged x).2 member)
    exact ⟨member, i, List.mem_range.2 below, same⟩
  · exact fun i below out => absurd (List.mem_range.2 below) out

theorem Io.finish {h : Held} (io : Io g A v ∅ h t m s) :
    Io g A v ∅ h none m { s with log := { s.log with busy := none } } :=
  { io with bio := io.bio, owner := rfl, idle := fun _ => rfl }

/-- A transaction that has logged nothing has nothing to commit. -/
theorem Io.commitTrans_empty (io : Io g A v ∅ Held.nothing t m s) :
    ∃ s', Kernel.commitTrans s = .done () s' ∧ Io g v v ∅ Held.nothing none m s' := by
  have zero : s.log.lh.n = 0 := io.count_eq_card.trans Finset.card_empty
  obtain ⟨v', d, looks, clean, shown, slots⟩ := io.bio
  refine ⟨{ s with log := { s.log with busy := none } }, ?_, Io.finish (A := v) { io with
    bio := ⟨v', d, looks, clean, fun x out => ⟨(shown x out).1, ?_⟩, slots⟩
    super := ⟨io.super.2, io.super.2⟩ }⟩
  · unfold Kernel.commitTrans
    rw [Act.bind_apply, Act.get_apply, Outcome.done_bind, Act.bind_apply, zero]
    rfl
  · rw [(shown x out).2, io.same out]

/-- **commit_trans**: what the cache shows becomes what is committed. -/
theorem Io.commitTrans {L : Finset Nat} (io : Io g A v L Held.nothing t m s) (ok : g.Ok)
    (quiet : Quiet C g v)
    (commit : ∀ y s', headCount y ≠ 0 → Committed g v s'.bio.disk → C.shows (.write g.start y) s')
    (few : L.card < NBUF) :
    Sat C (fun _ s' => Io g v v ∅ Held.nothing none m s') (Kernel.commitTrans s) := by
  by_cases empty : L = ∅
  · subst empty
    obtain ⟨s', returned, io'⟩ := io.commitTrans_empty
    rw [returned]
    exact io'
  · have positive : 0 < s.log.lh.n := by
      rw [io.count_eq_card]
      exact Finset.card_pos.2 (Finset.nonempty_iff_ne_empty.2 empty)
    have room : s.bio.Room g.start := by
      obtain ⟨v', d, looks, -⟩ := io.bio
      exact looks.room (fun _ member => member) (by rw [Held.count_nothing]; omega) _
    obtain ⟨y, s1, s2, eq, count, com, inv⟩ := io.writeHead ok room
    unfold Kernel.commitTrans
    refine Sat.step (Act.get_apply s) (Sat.runIf (fun _ => ?_) fun none_ => ?_)
    · refine Sat.call ?_
      rw [Act.bind_apply, eq]
      refine ⟨commit y s1 (by omega) com, fun _ => ?_⟩
      exact (Sat.installAndErase inv ok io.header_ok quiet
        (Or.inl ⟨few, fun x member => (io.logged x).1 member⟩)).mono fun _ s3 io3 => io3.finish
    · exact absurd positive (of_decide_eq_false none_)

/-! ## Recovery -/

/-- `readsb`, for any contract. -/
theorem Sat.readsb {α : Type} {Q : α → KState → Prop} {f : Superblock → K α} {h : Held}
    (looks : Looks ∅ s.bio v d D h) (inside : 1 < s.bio.disksize) (free : ∀ b, h b ≠ some 1)
    (room : s.bio.Room 1)
    (next : ∀ s', Kept s s' → Looks ∅ s'.bio v d D h → Sat C Q (f (Superblock.ofBlock (v 1)) s')) :
    Sat C Q ((Kernel.readsb ROOTDEV >>= f) s) := by
  refine Sat.call ?_
  unfold Kernel.readsb
  refine Sat.bread looks inside free (Or.inl room) fun b s1 kept1 idle looks1 => ?_
  have held : upd h b (some 1) b = some 1 := upd_same _ _ _
  refine Sat.bdata looks1 held ?_
  refine Sat.call (Sat.brelse looks1 held (Set.notMem_empty _) fun s2 kept2 looks2 => ?_)
  rw [Held.upd_upd_none idle] at looks2
  exact next s2 (kept1.trans kept2) looks2

/-- **initlog** of a disk that stands for `A` ends with `A` on the disk, and no crash
inside it can change what the disk stands for. -/
theorem Sat.initlog {disk : Disk} (com : Committed g A disk) (ok : g.Ok) (quiet : Quiet C g A)
    (bio : s.bio = Bio.binit disk g.disksize) (owner : s.log.busy = none) :
    Sat C (fun _ s' => Io g A A ∅ Held.nothing none s.mem s') (Kernel.initlog s) := by
  have after := ok.afterSuper
  have onDisk := ok.onDisk
  have some_ := ok.someBlock
  have fresh := binit_fresh disk g.disksize
  have size : s.bio.disksize = g.disksize := by rw [bio, fresh.2.1]
  have looks : Looks ∅ s.bio disk disk ∅ Held.nothing := by
    rw [bio]
    refine ⟨bioInv_binit disk g.disksize, view_binit disk g.disksize, fresh.1, ?_, ?_⟩
    · intro x
      simp only [Set.mem_empty_iff_false, iff_false]
      rintro ⟨b, holds, -⟩
      exact not_holds_binit disk g.disksize b x holds
    · intro b
      rw [(fresh.2.2 b).2.1]
      rfl
  unfold Kernel.initlog
  refine Sat.failIf (fun big => absurd big (by decide)) fun _ => ?_
  refine Sat.readsb looks (by rw [size]; omega) (fun b held => by cases held) (looks.room_idle 1)
    fun s1 kept1 looks1 => ?_
  obtain ⟨isStart, isSize⟩ := com.super.1
  rw [isStart, isSize]
  refine Sat.step (Act.modify_apply _ _) ?_
  -- the header, read into memory
  unfold Kernel.recoverFromLog
  refine Sat.call ?_
  unfold Kernel.readHead
  refine Sat.step (Act.get_apply _) ?_
  refine Sat.bread looks1 ?_ (fun b held => by cases held) (Or.inl (looks1.room_idle g.start))
    fun b s2 kept2 idle looks2 => ?_
  · show g.start < s1.bio.disksize
    rw [kept1.size, size]
    omega
  have held : upd Held.nothing b (some g.start) b = some g.start := upd_same _ _ _
  refine Sat.bdata looks2 held ?_
  refine Sat.failIf (fun big => ?_) fun _ => ?_
  · exact absurd com.few (Nat.not_le.2 (of_decide_eq_true big))
  refine Sat.step (Act.modify_apply _ _) ?_
  refine Sat.brelse looks2 held (Set.notMem_empty _) fun s3 kept3 looks3 => ?_
  rw [Held.upd_upd_none idle] at looks3
  generalize lhEq : s3.log.lh = lh
  have fields : s3.log.start = g.start ∧ s3.log.size = g.nlog ∧ s3.log.dev = ROOTDEV ∧
      s3.log.busy = none ∧ s3.log.lh.n = headCount (disk g.start) ∧
      ∀ i < headCount (disk g.start), s3.log.lh.sector i = headSector (disk g.start) i := by
    rw [kept3.log, show s2.log = _ from kept2.log]
    refine ⟨rfl, rfl, rfl, ?_, rfl, fun i below => if_pos below⟩
    show s1.log.busy = none
    rw [kept1.log, owner]
  obtain ⟨start', size', dev', owner', count, sectors⟩ := fields
  rw [lhEq] at count sectors
  have entries : headEntries (disk g.start) = lh.entries := by
    unfold headEntries LogHeader.entries
    rw [count]
    exact (List.map_congr_left fun i member => sectors i (List.mem_range.1 member)).symm
  have hok : lh.Ok g := by
    have sound := com.sound
    have length : (g.redo.entries (disk g.redo.start)).length = lh.n := by
      show (headEntries (disk g.start)).length = _
      rw [entries, LogHeader.length_entries]
    refine ⟨by rw [count]; exact com.few, ?_, ?_, fun x member => ?_⟩
    · have fits := sound.fits
      rw [length] at fits
      have slots : lh.n ≤ g.nlog - 1 := fits
      omega
    · rw [← entries]
      exact sound.nodup
    · rw [← entries] at member
      exact ⟨fun inLog => sound.outside x member ((ok.mem_area x).2 inLog), com.onDisk x member⟩
  refine Sat.installAndErase (F := ∅) ⟨⟨?_, start', size', dev', lhEq, owner', ?_⟩,
    ⟨disk, disk, ∅, looks3, com, entries, ?_, ?_⟩, List.nodup_range, ?_⟩ ok hok quiet ?_
  · rw [kept3.size]
    show s2.bio.disksize = _
    rw [kept2.size]
    show s1.bio.disksize = _
    rw [kept1.size, size]
  · rw [kept3.mem]
    show s2.mem = _
    rw [kept2.mem]
    exact kept1.mem
  · exact fun x member => by cases member
  · exact fun i below out => absurd (List.mem_range.2 below) out
  · exact fun i member => List.mem_range.1 member
  · refine Or.inr (Or.inl ?_)
    rw [Finset.card_empty]
    decide

end Rules

end Xv6Rpi.Kernel
