/-
# Kernel.BioRefine -- the buffer cache refines the plain disk

Any number of processes call `bread`, store into the buffers they hold, and call
`bwrite`, the dirty-marking of `log_write`, and `brelse`, in any interleaving.  A
process keeps to two rules: it touches only buffers it holds, and it follows a
store by `bwrite` or the marking before it releases the buffer.  `bread` of a
buffer that is held elsewhere sleeps; the process tries again later.

The plain disk is a map from sectors to contents that a release updates
(`lastReleased`).  The refinement is `Session.Inv`: the cache's view of every
sector nobody holds is the plain disk's content.
-/
import Xv6Rpi.Kernel.BioInv
import Xv6Rpi.Theory.Machine

namespace Xv6Rpi.Kernel

open Theory

set_option autoImplicit false

inductive BufOp where
  | read (p : Pid) (dev sector : Nat)
  | change (p : Pid) (b : BufId) (d : Block)
  | write (p : Pid) (b : BufId)
  | mark (p : Pid) (b : BufId)
  | release (p : Pid) (b : BufId)

/-- What passes between the processes and the cache. -/
inductive BufObs where
  | read (dev sector : Nat) (data : Block)
  | release (sector : Nat) (data : Block)

/-- The plain disk after some observations: the last data released for each
sector, and what the disk held where nothing was released. -/
def lastReleased (disk : Disk) (seen : List BufObs) : Disk :=
  seen.foldl
    (fun d o =>
      match o with
      | .read _ _ _ => d
      | .release sector data => upd d sector data)
    disk

/-- The cache in use: who holds each buffer, and whether the holder has stored
into it since the last `bwrite` or marking. -/
structure Session where
  k : KState
  holder : BufId → Option Pid
  changed : BufId → Bool

namespace Session

/-- Nobody holds anything right after `binit`. -/
def boot (k : KState) (disk : Disk) (disksize : Nat) : Session :=
  { k := { k with bio := Bio.binit disk disksize }
    holder := fun _ => none
    changed := fun _ => false }

/-- Run an action of the holder of `b`. -/
def byHolder (y : Session) (p : Pid) (b : BufId) (x : K Unit) (allowed : Bool)
    (next : KState → Session × List BufObs) : Option (Session × List BufObs) :=
  if y.holder b = some p ∧ allowed = true then
    match (x y.k).leaf with
    | .done _ k => some (next k)
    | _ => none
  else none

/-- `log_write`'s `b->flags |= B_DIRTY`. -/
def markDirty (b : BufId) : K Unit := Act.modify fun s => { s with bio := s.bio.marked b }

/-- One call; `none` is a call against the rules, or a panic. -/
def step (y : Session) : BufOp → Option (Session × List BufObs)
  | .read p dev sector =>
    match (bread dev sector y.k).leaf with
    | .done b k =>
      some ({ y with k := k, holder := upd y.holder b (some p) },
        [.read dev sector (k.bio.bufs b).data])
    | .wait _ k _ => some ({ y with k := k }, [])
    | _ => none
  | .change p b d =>
    y.byHolder p b (setData b d) true fun k =>
      ({ y with k := k, changed := upd y.changed b true }, [])
  | .write p b =>
    y.byHolder p b (bwrite b) true fun k =>
      ({ y with k := k, changed := upd y.changed b false }, [])
  | .mark p b =>
    y.byHolder p b (markDirty b) true fun k =>
      ({ y with k := k, changed := upd y.changed b false }, [])
  | .release p b =>
    y.byHolder p b (brelse b) (!y.changed b) fun k =>
      ({ y with k := k, holder := upd y.holder b none },
        [.release (y.k.bio.bufs b).sector (y.k.bio.bufs b).data])

/-- The sectors whose holder still owes a `bwrite` or a marking. -/
def owed (y : Session) : Set Nat := {x | ∃ b, y.changed b = true ∧ (y.k.bio.bufs b).sector = x}

/-- Every read so far returned what the plain disk held at that point. -/
def Faithful (disk : Disk) (seen : List BufObs) : Prop :=
  ∀ before dev sector data after, seen = before ++ .read dev sector data :: after →
    dev = ROOTDEV ∧ data = lastReleased disk before sector

/-- The refinement relation between the cache and the plain disk. -/
structure Inv (disk : Disk) (seen : List BufObs) (y : Session) : Prop where
  bio : BioInv y.owed y.k.bio
  held : ∀ b, y.holder b ≠ none → (y.k.bio.bufs b).busy = true
  changed : ∀ b, y.changed b = true → y.holder b ≠ none
  plain : ∀ sector, ¬ y.k.bio.Busy sector → y.k.bio.view sector = lastReleased disk seen sector
  faithful : Faithful disk seen

theorem lastReleased_append (disk : Disk) (seen more : List BufObs) :
    lastReleased disk (seen ++ more) = lastReleased (lastReleased disk seen) more :=
  List.foldl_append

theorem Faithful.append {disk : Disk} {seen : List BufObs} (faithful : Faithful disk seen)
    {o : BufObs} (last : ∀ dev sector data, o = .read dev sector data →
      dev = ROOTDEV ∧ data = lastReleased disk seen sector) : Faithful disk (seen ++ [o]) := by
  intro before dev sector data after split
  rcases List.eq_nil_or_concat after with rfl | ⟨after', o', rfl⟩
  · obtain ⟨rfl, same⟩ := List.append_inj' split rfl
    exact last dev sector data (List.cons.inj same).1
  · rw [List.concat_eq_append, ← List.cons_append, ← List.append_assoc] at split
    obtain ⟨rfl, -⟩ := List.append_inj' split rfl
    exact faithful before dev sector data after' rfl

/-! ## What a call does -/

variable {disk : Disk} {seen : List BufObs} {y : Session}

theorem boot_inv (k : KState) (disk : Disk) (disksize : Nat) :
    Inv disk [] (boot k disk disksize) := by
  have none_ : (boot k disk disksize).owed = ∅ := by
    ext x
    simp [owed, boot]
  refine ⟨?_, ?_, ?_, ?_, ?_⟩
  · rw [none_]
    exact bioInv_binit disk disksize
  · exact fun b held => absurd rfl held
  · intro b changed
    cases changed
  · intro sector _
    exact congrFun (view_binit disk disksize) sector
  · intro before dev sector data after split
    simp at split

/-- A call by the holder, taken apart. -/
theorem byHolder_eq_some {p : Pid} {b : BufId} {x : K Unit} {allowed : Bool}
    {next : KState → Session × List BufObs} {r : Session × List BufObs} {k : KState}
    (called : y.byHolder p b x allowed next = some r)
    (returns : y.holder b = some p → (x y.k).leaf = .done () k) :
    y.holder b = some p ∧ allowed = true ∧ r = next k := by
  unfold byHolder at called
  by_cases rules : y.holder b = some p ∧ allowed = true
  · rw [if_pos rules, returns rules.1] at called
    exact ⟨rules.1, rules.2, (Option.some.inj called).symm⟩
  · rw [if_neg rules] at called
    cases called

/-- A `bread` that returns or sleeps, taken apart. -/
theorem read_eq_some (inv : Inv disk seen y) {p : Pid} {dev sector : Nat}
    {r : Session × List BufObs} (called : y.step (.read p dev sector) = some r) :
    r = (y, []) ∨
      dev = ROOTDEV ∧ ¬ y.k.bio.Busy sector ∧ ∃ b c, Bread y.owed y.k.bio sector b c ∧
        r = ({ y with k := { y.k with bio := c }, holder := upd y.holder b (some p) },
          [.read dev sector (c.bufs b).data]) := by
  simp only [step] at called
  by_cases outside : dev ≠ ROOTDEV ∨ y.k.bio.disksize ≤ sector
  · obtain ⟨e, s', failed⟩ := bread_fails inv.bio outside
    rw [failed] at called
    cases called
  · obtain ⟨isRoot, inside⟩ := not_or.1 outside
    obtain rfl := Decidable.not_not.1 isRoot
    by_cases busy : y.k.bio.Busy sector
    · obtain ⟨k, waits⟩ := bread_wait inv.bio busy
      rw [waits] at called
      exact Or.inl (Option.some.inj called).symm
    · by_cases room : y.k.bio.Room sector
      · obtain ⟨b, c, returned, post⟩ := bread_eq inv.bio (Nat.not_le.1 inside) busy room
        rw [returned] at called
        exact Or.inr ⟨rfl, busy, b, c, post, (Option.some.inj called).symm⟩
      · rw [bread_no_room inv.bio room] at called
        cases called

theorem owed_sector (inv : Inv disk seen y) {b : BufId} (busy : (y.k.bio.bufs b).busy = true) :
    (y.k.bio.bufs b).sector ∈ y.owed ↔ y.changed b = true := by
  constructor
  · rintro ⟨a, changed, same⟩
    have holdsA := inv.bio.holds_of_busy (inv.held a (inv.changed a changed))
    have holdsB := inv.bio.holds_of_busy busy
    rw [same] at holdsA
    rwa [inv.bio.unique a b _ holdsA holdsB] at changed
  · exact fun changed => ⟨b, changed, rfl⟩

/-- No buffer that is busy or dirty is recycled. -/
def Keeps (y y' : Session) : Prop :=
  ∀ a, (y.k.bio.bufs a).busy = true ∨ (y.k.bio.bufs a).dirty = true →
    (y'.k.bio.bufs a).dev = (y.k.bio.bufs a).dev ∧
      (y'.k.bio.bufs a).sector = (y.k.bio.bufs a).sector

theorem Inv.read (inv : Inv disk seen y) {p : Pid} {sector : Nat} {b : BufId} {c : Bio}
    (free : ¬ y.k.bio.Busy sector) (post : Bread y.owed y.k.bio sector b c) :
    let y' : Session := { y with k := { y.k with bio := c }, holder := upd y.holder b (some p) }
    Inv disk (seen ++ [.read ROOTDEV sector (c.bufs b).data]) y' ∧ Keeps y y' := by
  intro y'
  have apart : ∀ a, (y.k.bio.bufs a).busy = true → a ≠ b := by
    rintro a busy rfl
    rw [post.idle] at busy
    cases busy
  have owedSame : y'.owed = y.owed := by
    ext x
    refine exists_congr fun a => and_congr_right fun changed => ?_
    rw [show y'.k.bio.bufs a = _ from post.others a (apart a (inv.held a (inv.changed a changed)))]
  have same : (c.bufs b).data = lastReleased disk seen sector :=
    post.data.trans (inv.plain sector free)
  refine ⟨⟨?_, ?_, ?_, ?_, inv.faithful.append ?_⟩, ?_⟩
  · rw [owedSame]
    exact post.inv
  · intro a held
    by_cases eq : a = b
    · subst eq
      exact post.busy
    · show (c.bufs a).busy = true
      rw [post.others a eq]
      exact inv.held a (by simpa [y', eq] using held)
  · intro a changed
    have ne := apart a (inv.held a (inv.changed a changed))
    simpa [y', ne] using inv.changed a changed
  · intro x freeX
    rw [lastReleased_append]
    show c.view x = lastReleased disk seen x
    rw [post.view]
    refine inv.plain x ?_
    rintro ⟨a, holds, busy⟩
    have ne := apart a busy
    refine freeX ⟨a, ?_, ?_⟩
    · simpa [Bio.Holds, y', post.others a ne] using holds
    · simpa [y', post.others a ne] using busy
  · rintro _ _ _ ⟨⟩
    exact ⟨rfl, same⟩
  · intro a kept
    by_cases eq : a = b
    · subst eq
      rcases kept with busy | dirty
      · exact absurd rfl (apart a busy)
      · rcases post.recycled with clean | holds
        · rw [clean] at dirty
          cases dirty
        · exact ⟨post.holds.1.trans holds.1.symm, post.holds.2.trans holds.2.symm⟩
    · rw [show y'.k.bio.bufs a = _ from post.others a eq]
      exact ⟨rfl, rfl⟩

/-- A store, a write or a marking: the buffers keep their sectors and holders, and
the view changes at most at the sector that is held. -/
theorem Inv.touch (inv : Inv disk seen y) {p : Pid} {b : BufId} {c : Bio} {flag : Bool}
    (holder : y.holder b = some p) (d : Block)
    (blocks : ∀ a, (c.bufs a).dev = (y.k.bio.bufs a).dev ∧
      (c.bufs a).sector = (y.k.bio.bufs a).sector ∧ (c.bufs a).busy = (y.k.bio.bufs a).busy)
    (bio : BioInv (if flag then insert (y.k.bio.bufs b).sector y.owed
      else y.owed \ {(y.k.bio.bufs b).sector}) c)
    (view : c.view = y.k.bio.view ∨ c.view = upd y.k.bio.view (y.k.bio.bufs b).sector d) :
    let y' : Session := { y with k := { y.k with bio := c }, changed := upd y.changed b flag }
    Inv disk seen y' ∧ Keeps y y' := by
  intro y'
  have busyB : (y.k.bio.bufs b).busy = true := inv.held b (by simp [holder])
  have owedNow : y'.owed = if flag then insert (y.k.bio.bufs b).sector y.owed
      else y.owed \ {(y.k.bio.bufs b).sector} := by
    ext x
    have sectors : ∀ a, (y'.k.bio.bufs a).sector = (y.k.bio.bufs a).sector :=
      fun a => (blocks a).2.1
    cases flag with
    | true =>
      simp only [if_true, Set.mem_insert_iff]
      constructor
      · rintro ⟨a, changed, rfl⟩
        by_cases eq : a = b
        · exact Or.inl (by rw [sectors, eq])
        · exact Or.inr ⟨a, by simpa [y', eq] using changed, (sectors a).symm⟩
      · rintro (rfl | ⟨a, changed, rfl⟩)
        · exact ⟨b, by simp [y'], sectors b⟩
        · refine ⟨a, ?_, sectors a⟩
          by_cases eq : a = b
          · simp [y', eq]
          · simpa [y', eq] using changed
    | false =>
      simp only [Bool.false_eq_true, if_false, Set.mem_sdiff, Set.mem_singleton_iff]
      constructor
      · rintro ⟨a, changed, rfl⟩
        have ne : a ≠ b := by
          rintro rfl
          simp [y'] at changed
        have changed : y.changed a = true := by simpa [y', ne] using changed
        refine ⟨⟨a, changed, (sectors a).symm⟩, ?_⟩
        rw [sectors]
        intro same
        have holdsA := inv.bio.holds_of_busy (inv.held a (inv.changed a changed))
        rw [same] at holdsA
        exact ne (inv.bio.unique a b _ holdsA (inv.bio.holds_of_busy busyB))
      · rintro ⟨⟨a, changed, rfl⟩, other⟩
        have ne : a ≠ b := by
          rintro rfl
          exact other rfl
        exact ⟨a, by simpa [y', ne] using changed, sectors a⟩
  refine ⟨⟨?_, ?_, ?_, ?_, inv.faithful⟩, ?_⟩
  · rw [owedNow]
    exact bio
  · intro a held
    exact (blocks a).2.2.trans (inv.held a held)
  · intro a changed
    by_cases eq : a = b
    · simp [y', eq, holder]
    · exact inv.changed a (by simpa [y', eq] using changed)
  · intro x free
    have freeOld : ¬ y.k.bio.Busy x := by
      rintro ⟨a, holds, busy⟩
      exact free ⟨a, ⟨(blocks a).1.trans holds.1, (blocks a).2.1.trans holds.2⟩,
        (blocks a).2.2.trans busy⟩
    have other : x ≠ (y.k.bio.bufs b).sector := by
      rintro rfl
      exact freeOld ⟨b, inv.bio.holds_of_busy busyB, busyB⟩
    rw [← inv.plain x freeOld]
    rcases view with same | stored
    · exact congrFun same x
    · show c.view x = y.k.bio.view x
      rw [stored, upd_ne _ _ other]
  · intro a _
    exact ⟨(blocks a).1, (blocks a).2.1⟩

theorem Inv.release (inv : Inv disk seen y) {p : Pid} {b : BufId} (holder : y.holder b = some p)
    (settled : y.changed b = false) :
    let y' : Session :=
      { y with k := { y.k with bio := y.k.bio.released b }, holder := upd y.holder b none }
    Inv disk (seen ++ [.release (y.k.bio.bufs b).sector (y.k.bio.bufs b).data]) y' ∧
      Keeps y y' := by
  intro y'
  have busyB : (y.k.bio.bufs b).busy = true := inv.held b (by simp [holder])
  have holdsB := inv.bio.holds_of_busy busyB
  have owedSame : y'.owed = y.owed := by
    ext x
    simp only [owed, y', released_bufs]
  have synced : (y.k.bio.bufs b).sector ∉ y.owed := by
    rw [owed_sector inv busyB, settled]
    exact Bool.false_ne_true
  refine ⟨⟨?_, ?_, ?_, ?_, inv.faithful.append fun _ _ _ isRead => by cases isRead⟩, ?_⟩
  · rw [owedSame]
    exact bioInv_released inv.bio synced
  · intro a held
    have ne : a ≠ b := by
      rintro rfl
      simp [y'] at held
    have busy := inv.held a (by simpa [y', ne] using held)
    simp [y', released_bufs, busy, ne]
  · intro a changed
    have ne : a ≠ b := by
      rintro rfl
      rw [show y'.changed a = y.changed a from rfl, settled] at changed
      cases changed
    simpa [y', ne] using inv.changed a changed
  · intro x free
    rw [lastReleased_append]
    show (y.k.bio.released b).view x = upd (lastReleased disk seen) _ _ x
    rw [view_released]
    by_cases here : x = (y.k.bio.bufs b).sector
    · subst here
      rw [upd_same, Bio.view_of_holds inv.bio.unique holdsB]
    · rw [upd_ne _ _ here]
      refine inv.plain x ?_
      rintro ⟨a, holds, busy⟩
      have ne : a ≠ b := by
        rintro rfl
        exact here holds.2.symm
      refine free ⟨a, (holds_released a x).2 holds, ?_⟩
      simp [y', released_bufs, busy, ne]
  · intro a _
    simp [y', released_bufs]

theorem setData_leaf (b : BufId) (d : Block) :
    (setData b d y.k).leaf = .done () { y.k with bio := y.k.bio.stored b d } := rfl

theorem markDirty_leaf (b : BufId) :
    (markDirty b y.k).leaf = .done () { y.k with bio := y.k.bio.marked b } := rfl

theorem Inv.bwrite_leaf (inv : Inv disk seen y) {p : Pid} {b : BufId} (holder : y.holder b = some p) :
    (bwrite b y.k).leaf = .done () { y.k with bio := y.k.bio.written b } := by
  rw [bwrite_eq inv.bio (inv.held b (by simp [holder]))]
  rfl

theorem Inv.brelse_leaf (inv : Inv disk seen y) {p : Pid} {b : BufId} (holder : y.holder b = some p) :
    (brelse b y.k).leaf = .done () { y.k with bio := y.k.bio.released b } := by
  rw [brelse_eq inv.bio (inv.held b (by simp [holder]))]
  rfl

/-- The holder's part of a buffer a store or a flag change leaves alone. -/
theorem setBuf_blocks {c : Bio} {b : BufId} {x : Buf} (dev : x.dev = (c.bufs b).dev)
    (sector : x.sector = (c.bufs b).sector) (busy : x.busy = (c.bufs b).busy) (a : BufId) :
    ((c.setBuf b x).bufs a).dev = (c.bufs a).dev ∧
      ((c.setBuf b x).bufs a).sector = (c.bufs a).sector ∧
        ((c.setBuf b x).bufs a).busy = (c.bufs a).busy := by
  by_cases eq : a = b
  · subst eq
    simp [Bio.setBuf, dev, sector, busy]
  · simp [Bio.setBuf, eq]

/-- **One call keeps the refinement**, and recycles no buffer that is in use. -/
theorem Inv.step (inv : Inv disk seen y) {op : BufOp} {y' : Session} {more : List BufObs}
    (called : y.step op = some (y', more)) : Inv disk (seen ++ more) y' ∧ Keeps y y' := by
  cases op with
  | read p dev sector =>
    rcases read_eq_some inv called with slept | ⟨rfl, free, b, c, post, returned⟩
    · cases slept
      rw [List.append_nil]
      exact ⟨inv, fun _ _ => ⟨rfl, rfl⟩⟩
    · cases returned
      exact inv.read free post
  | change p b d =>
    rw [Session.step] at called
    obtain ⟨holder, -, same⟩ := byHolder_eq_some called fun _ => setData_leaf b d
    cases same
    rw [List.append_nil]
    have busy := inv.held b (by simp [holder])
    exact inv.touch holder d (setBuf_blocks rfl rfl rfl) (bioInv_stored inv.bio busy d)
      (Or.inr (view_stored inv.bio busy d))
  | write p b =>
    rw [Session.step] at called
    obtain ⟨holder, -, same⟩ := byHolder_eq_some called inv.bwrite_leaf
    cases same
    rw [List.append_nil]
    have busy := inv.held b (by simp [holder])
    exact inv.touch holder Bytes.zero (setBuf_blocks rfl rfl rfl) (bioInv_written inv.bio busy)
      (Or.inl (view_written inv.bio busy))
  | mark p b =>
    rw [Session.step] at called
    obtain ⟨holder, -, same⟩ := byHolder_eq_some called fun _ => markDirty_leaf b
    cases same
    rw [List.append_nil]
    have busy := inv.held b (by simp [holder])
    exact inv.touch holder Bytes.zero (setBuf_blocks rfl rfl rfl) (bioInv_marked inv.bio busy)
      (Or.inl (view_marked inv.bio busy))
  | release p b =>
    rw [Session.step] at called
    obtain ⟨holder, settled, same⟩ := byHolder_eq_some called inv.brelse_leaf
    cases same
    exact inv.release holder (by simpa using settled)

/-- The calls the rules allow. -/
def Allowed (y : Session) : BufOp → Prop
  | .read _ dev sector => dev = ROOTDEV ∧ sector < y.k.bio.disksize ∧ y.k.bio.Room sector
  | .change p b _ => y.holder b = some p
  | .write p b => y.holder b = some p
  | .mark p b => y.holder b = some p
  | .release p b => y.holder b = some p ∧ y.changed b = false

/-- No allowed call panics. -/
theorem Inv.step_isSome (inv : Inv disk seen y) {op : BufOp} (allowed : y.Allowed op) :
    (y.step op).isSome = true := by
  cases op with
  | read p dev sector =>
    obtain ⟨rfl, inside, room⟩ := allowed
    simp only [Session.step]
    by_cases busy : y.k.bio.Busy sector
    · obtain ⟨k, waits⟩ := bread_wait inv.bio busy
      rw [waits]
      rfl
    · obtain ⟨b, c, returned, -⟩ := bread_eq inv.bio inside busy room
      rw [returned]
      rfl
  | change p b d => simp [Session.step, byHolder, show y.holder b = some p from allowed, setData_leaf]
  | write p b =>
    have holder : y.holder b = some p := allowed
    simp [Session.step, byHolder, holder, inv.bwrite_leaf holder]
  | mark p b => simp [Session.step, byHolder, show y.holder b = some p from allowed, markDirty_leaf]
  | release p b =>
    obtain ⟨holder, settled⟩ := allowed
    simp [Session.step, byHolder, holder, settled, inv.brelse_leaf holder]

theorem Inv.run {k : KState} {disksize : Nat} {ops : List BufOp}
    (ran : Machine.run Session.step (boot k disk disksize) ops = some (y, seen)) :
    Inv disk seen y := by
  have kept := Machine.run_keeps (I := Inv disk)
    (fun seen y op y' more inv called => (inv.step called).1) ops [] (boot k disk disksize) y seen
    (boot_inv k disk disksize) ran
  simpa using kept

end Session

/-- **The buffer cache refines the plain disk.**  After any calls that keep the
rules: no two buffers hold one block (a buffer whose `dev` is `-1` holds none), the
list is a ring through all buffers, the next call recycles no busy or dirty buffer
and panics only if it breaks the rules or asks for more than `NBUF` buffers, and
every `bread` so far returned the last data released for its sector, or the
disk's own content. -/
theorem bcache_refines_disk {k : KState} {disk : Disk} {disksize : Nat} {ops : List BufOp}
    {y : Session} {seen : List BufObs}
    (ran : Machine.run Session.step (Session.boot k disk disksize) ops = some (y, seen)) :
    (∀ a b, (y.k.bio.bufs a).dev ≠ NODEV → (y.k.bio.bufs a).dev = (y.k.bio.bufs b).dev →
        (y.k.bio.bufs a).sector = (y.k.bio.bufs b).sector → a = b) ∧
      y.k.bio.RingOk ∧
      (∀ op y' more, y.step op = some (y', more) → y.Keeps y') ∧
      (∀ op, y.Allowed op → (y.step op).isSome = true) ∧
      ∀ before dev sector data after, seen = before ++ .read dev sector data :: after →
        dev = ROOTDEV ∧ data = lastReleased disk before sector := by
  have inv := Session.Inv.run ran
  refine ⟨?_, inv.bio.ring, ?_, ?_, inv.faithful⟩
  · intro a b bound sameDev sameSector
    have isRoot : (y.k.bio.bufs a).dev = ROOTDEV := by
      rcases inv.bio.bound a with fresh | ⟨isRoot, -, -⟩
      · exact absurd fresh.1 bound
      · exact isRoot
    exact inv.bio.unique a b _ ⟨isRoot, rfl⟩ ⟨sameDev.symm.trans isRoot, sameSector.symm⟩
  · intro op y' more called
    exact (inv.step called).2
  · intro op allowed
    exact inv.step_isSome allowed

/-- A session of two processes: one stores into sector 5 and marks it, the other
sleeps on it, and reads it once it is released. -/
theorem bcache_refines_disk_session :
    ∃ y seen,
      Machine.run Session.step (Session.boot (KState.zeroed (fun _ => Bytes.zero) 9)
          (fun _ => Bytes.zero) 9)
        [.read 0 ROOTDEV 5, .change 0 0 fun _ => 7, .read 1 ROOTDEV 5, .mark 0 0, .release 0 0,
          .read 1 ROOTDEV 5] = some (y, seen) ∧
        y.k.bio.RingOk ∧
          ∀ before dev sector data after, seen = before ++ .read dev sector data :: after →
            dev = ROOTDEV ∧ data = lastReleased (fun _ => Bytes.zero) before sector := by
  have runs : (Machine.run Session.step (Session.boot (KState.zeroed (fun _ => Bytes.zero) 9)
      (fun _ => Bytes.zero) 9)
        [.read 0 ROOTDEV 5, .change 0 0 fun _ => 7, .read 1 ROOTDEV 5, .mark 0 0, .release 0 0,
          .read 1 ROOTDEV 5]).isSome = true := by
    decide +kernel
  obtain ⟨⟨y, seen⟩, ran⟩ := Option.isSome_iff_exists.1 runs
  obtain ⟨-, ring, -, -, faithful⟩ := bcache_refines_disk ran
  exact ⟨y, seen, ran, ring, faithful⟩

end Xv6Rpi.Kernel
