/-
# Kernel.FileWrite -- a long write, in pieces

`filewrite` cuts a write into transactions of at most `WRITEMAX` bytes.  Each opens a transaction,
locks the inode, writes at the file's offset, advances it, and commits.

`writei` checks the size limit for every piece, not for the whole.  So a write that fits is one
`writei`, and one that does not fit leaves behind the pieces that did, and fails all the same.
-/
import Xv6Rpi.Kernel.FsFile

namespace Xv6Rpi.Kernel

open Theory Tools

set_option autoImplicit false

/-! ## The code -/

def file (f : FileId) : K File := do
  let s ← Act.get
  return s.mem.ftable f

def setFile (f : FileId) (g : File → File) : K Unit :=
  Act.modify fun s =>
    { s with mem := { s.mem with ftable := upd s.mem.ftable f (g (s.mem.ftable f)) } }

/-- `f->off += r`. -/
def advance (f : FileId) (r : Nat) : K Unit :=
  setFile f fun x => { x with off := (x.off + r) % 4294967296 }

/-- The bytes one transaction of `filewrite` writes at most. -/
abbrev WRITEMAX : Nat := (LOGSIZE - 1 - 1 - 2) / 2 * 512

/-- One transaction of `filewrite`. -/
def fileWriteChunk (f : FileId) (src : List Byte) : K (Option Nat) := do
  beginTrans
  let x ← file f
  ilock x.ip
  let x ← file f
  let r ← writei x.ip src x.off
  advance f (r.getD 0)
  iunlock x.ip
  commitTrans
  return r

/-- The loop of `filewrite`; `false` when it breaks off. -/
def fileWriteLoop (f : FileId) : Nat → List Byte → K Bool
  | 0, _ => Act.fail .loop
  | fuel + 1, src =>
    if src = [] then return true
    else do
      match ← fileWriteChunk f (src.take WRITEMAX) with
      | none => return false
      | some r =>
        Act.failIf (r != (src.take WRITEMAX).length) .shortFilewrite
        fileWriteLoop f fuel (src.drop WRITEMAX)

/-- Write to file `f`. -/
def filewrite (f : FileId) (src : List Byte) : K (Option Nat) := do
  let x ← file f
  if x.writable = false then return none
  else
    match x.type with
    | .pipe => return some src.length
    | .inode => do
        let whole ← fileWriteLoop f (src.length + 1) src
        return if whole then some src.length else none
    | .none => Act.fail .filewrite

/-- A piece of `filewrite` after `begin_trans`. -/
def fileWriteBody (f : FileId) (src : List Byte) : K (Option Nat) := do
  let x ← file f
  ilock x.ip
  let x ← file f
  let r ← writei x.ip src x.off
  advance f (r.getD 0)
  iunlock x.ip
  commitTrans
  return r

theorem fileWriteChunk_eq (f : FileId) (src : List Byte) :
    fileWriteChunk f src = (do beginTrans; fileWriteBody f src) := rfl

/-! ## Open files -/

/-- File structure `f` is open on inode `i`, which is not locked, and process `t`, if any, has opened
a transaction in which nothing is written yet. -/
structure Opened (sh : Shape) (v : Disk) (E : Inodes) (t : Option Pid) (m : Mem)
    (f : FileId) (i : Nat) (s : KState) : Prop where
  io : sh.Rests v v ∅ t m s
  rep : Rep sh v E ∅ none
  alloc : sh.Alloc E i
  isInode : (m.ftable f).type = .inode
  cached : Cached m (m.ftable f).ip i (E i)

/-- `k` bytes are written through file structure `f`: its offset has moved, and of the other tables
only the cached copy of the inode and its flags have changed. -/
structure Moved (f : FileId) (k : Nat) (m m' : Mem) : Prop where
  file : m'.ftable f = { m.ftable f with off := (m.ftable f).off + k }
  files : ∀ g, g ≠ f → m'.ftable g = m.ftable g
  inodes : ∀ ip, ip ≠ (m.ftable f).ip → m'.icache ip = m.icache ip
  refs : ∀ ip, (m'.icache ip).ref = (m.icache ip).ref
  procs : m'.procs = m.procs ∧ m'.proc = m.proc ∧ m'.console = m.console

theorem Moved.refl (f : FileId) (m : Mem) : Moved f 0 m m :=
  ⟨rfl, fun _ _ => rfl, fun _ _ => rfl, fun _ => rfl, rfl, rfl, rfl⟩

theorem Moved.trans {f : FileId} {k l : Nat} {m m1 m' : Mem} (first : Moved f k m m1)
    (second : Moved f l m1 m') : Moved f (k + l) m m' := by
  refine ⟨?_, fun g ne => (second.files g ne).trans (first.files g ne), fun ip ne => ?_,
    fun ip => (second.refs ip).trans (first.refs ip), second.procs.1.trans first.procs.1,
    second.procs.2.1.trans first.procs.2.1, second.procs.2.2.trans first.procs.2.2⟩
  · rw [second.file, first.file, Nat.add_assoc]
  · rw [second.inodes ip (by rw [first.file]; exact ne), first.inodes ip ne]

/-- How far a write of `n` bytes at `off` gets: to the end, or as many pieces as the size limit
allows. -/
def progress (off n : Nat) : Nat :=
  if off + n ≤ MAXFILE * BSIZE then n else (MAXFILE * BSIZE - off) / WRITEMAX * WRITEMAX

theorem progress_eq (off n : Nat) :
    progress off n = if off + n ≤ 71680 then n else (71680 - off) / 1536 * 1536 := rfl

theorem progress_le (off n : Nat) : progress off n ≤ n := by
  rw [progress_eq]
  split
  all_goals omega

/-- Nothing is written when the first piece does not fit. -/
theorem progress_none {off n : Nat} (inside : off ≤ MAXFILE * BSIZE)
    (large : MAXFILE * BSIZE < off + min n WRITEMAX) : progress off n = 0 := by
  have inside : off ≤ 71680 := inside
  have large : 71680 < off + min n 1536 := large
  rw [progress_eq, if_neg (by omega)]
  omega

/-- When it does, the rest goes on from there. -/
theorem progress_step {off n : Nat} (fits : off + min n WRITEMAX ≤ MAXFILE * BSIZE) :
    progress off n = min n WRITEMAX + progress (off + min n WRITEMAX) (n - min n WRITEMAX) := by
  have fits : off + min n 1536 ≤ 71680 := fits
  show progress off n = min n 1536 + progress (off + min n 1536) (n - min n 1536)
  rw [progress_eq, progress_eq]
  by_cases all : off + n ≤ 71680
  · rw [if_pos all, if_pos (by omega)]
    omega
  · rw [if_neg all, if_neg (by omega)]
    omega

/-- The number of pieces. -/
def pieces (n : Nat) : Nat := (n + (WRITEMAX - 1)) / WRITEMAX

theorem pieces_step {n : Nat} (some_ : n ≠ 0) : pieces n = pieces (n - min n WRITEMAX) + 1 := by
  show (n + 1535) / 1536 = (n - min n 1536 + 1535) / 1536 + 1
  omega

theorem take_pieces (src : List Byte) (k : Nat) :
    src.take (min src.length WRITEMAX + k) = src.take WRITEMAX ++ (src.drop WRITEMAX).take k := by
  rcases le_total src.length WRITEMAX with short | long
  · rw [Nat.min_eq_left short, List.take_of_length_le (Nat.le_add_right _ _),
      List.take_of_length_le short, List.drop_of_length_le short, List.take_nil, List.append_nil]
  · rw [Nat.min_eq_right long, List.take_add]

/-- A piece lies in at most four blocks. -/
theorem spans_piece (off : Nat) {n : Nat} (short : n ≤ WRITEMAX) : spans off n ≤ 4 := by
  have short : n ≤ 1536 := short
  unfold spans
  split
  · omega
  · show (off + n - 1) / 512 - off / 512 + 1 ≤ 4
    omega

section Write

variable {C : KContract} {sh : Shape} {v : Disk} {E : Inodes}
  {L : Finset Nat} {t : Option Pid} {m : Mem} {f : FileId} {i q : Nat} {s : KState} {src : List Byte}

theorem Io.file_eq {A : Disk} {h : Held} (io : Io sh.geo A v L h t m s) (f : FileId) :
    Kernel.file f s = .done (m.ftable f) s := by
  show Outcome.done (s.mem.ftable f) s = _
  rw [io.mem]

theorem Io.advance_eq {A : Disk} {h : Held} (io : Io sh.geo A v L h t m s) (f : FileId) (r : Nat)
    (small : (m.ftable f).off + r < 4294967296) :
    ∃ s', Kernel.advance f r s = .done () s' ∧ Io sh.geo A v L h t
      { m with ftable := upd m.ftable f { m.ftable f with off := (m.ftable f).off + r } } s' := by
  refine ⟨_, rfl, { io with mem := ?_ }⟩
  rw [← io.mem] at small ⊢
  dsimp only
  rw [Nat.mod_eq_of_lt small]

/-- The end of a piece: the offset is advanced, the inode unlocked, the transaction committed. -/
theorem fileWriteEnd_spec {A : Disk} {ip : InodeId} {k : Nat} {r : Option Nat}
    (y : Locked sh A v E L t (m.setInode ip { m.icache ip with busy := true, valid := true, d := E i })
      ip i s) (ok : sh.Ok) (shows_ : ∀ e s, C.shows e s) (isInode : (m.ftable f).type = .inode)
    (isEntry : (m.ftable f).ip = ip) (referenced : 1 ≤ (m.icache ip).ref)
    (small : (m.ftable f).off + k < 4294967296) :
    Sat C (fun r' s' => r' = r ∧ ∃ m', Opened sh v E none m' f i s' ∧ Moved f k m m')
      ((do
        advance f k
        iunlock ip
        commitTrans
        return r : K (Option Nat)) s) := by
  have dev := y.dev
  have inum := y.inum
  rw [Mem.setInode_icache] at dev inum
  obtain ⟨s1, advanced, io1⟩ := y.io.advance_eq f k small
  obtain ⟨s2, unlocked, io2⟩ := io1.iunlock_eq ip
    (by show (upd m.icache ip _ ip).busy = true; rw [upd_same])
    (by show 1 ≤ (upd m.icache ip _ ip).ref; rw [upd_same]; exact referenced)
  have few : L.card < NBUF := by
    have idle := y.io.idle_room ok
    rw [Held.count_nothing] at idle
    omega
  refine Sat.step advanced (Sat.step unlocked ?_)
  refine (io2.commitTrans ok.geo_ok (fun _ _ _ _ _ => shows_ _ _) (fun _ _ _ _ => shows_ _ _) few).seq
    fun _ s3 io3 => ⟨rfl, _, ⟨io3, y.rep, y.alloc, ?_, ?_⟩, ?_, ?_, ?_, ?_, rfl, rfl, rfl⟩
  · show (upd m.ftable f _ f).type = _
    rw [upd_same]
    exact isInode
  · have isIp : (upd m.ftable f { m.ftable f with off := (m.ftable f).off + k } f).ip = ip := by
      rw [upd_same]
      exact isEntry
    show Cached _ (upd m.ftable f { m.ftable f with off := (m.ftable f).off + k } f).ip i (E i)
    rw [isIp]
    constructor
    all_goals simp [Mem.setInode, dev, inum, referenced]
  · exact upd_same ..
  · exact fun g ne => upd_ne _ _ ne
  · intro jp ne
    rw [isEntry] at ne
    simp [Mem.setInode, ne]
  · intro jp
    by_cases same : jp = ip
    · simp [Mem.setInode, same]
    · simp [Mem.setInode, same]

/-- A piece, up to `writei`. -/
theorem fileWriteBody_begin {p : Pid} (x : Opened sh v E (some p) m f i s) (ok : sh.Ok)
    {Q : Option Nat → KState → Prop}
    (next : ∀ s', Locked sh v v E ∅ (some p) (m.setInode (m.ftable f).ip
        { m.icache (m.ftable f).ip with busy := true, valid := true, d := E i }) (m.ftable f).ip i s' →
      Sat C Q ((do
        let r ← writei (m.ftable f).ip src (m.ftable f).off
        advance f (r.getD 0)
        iunlock (m.ftable f).ip
        commitTrans
        return r : K (Option Nat)) s')) :
    Sat C Q (fileWriteBody f src s) := by
  unfold fileWriteBody
  refine Sat.step (x.io.file_eq f) ((ilock_spec x.io ok x.rep x.alloc x.cached).seq fun _ s1 io1 => ?_)
  refine Sat.step (io1.file_eq f) (next s1 ⟨io1, x.rep, x.alloc, ?_, ?_, ?_⟩)
  all_goals rw [Mem.setInode_icache]
  · exact x.cached.dev
  · exact x.cached.inum

/-- **A piece that fits**, in its transaction. -/
theorem fileWriteBody_spec {p : Pid} (x : Opened sh v E (some p) m f i s) (ok : sh.Ok)
    (notDev : (sh.nodes v E i).type ≠ T_DEV) (shows_ : ∀ e s, C.shows e s)
    (short : src.length ≤ WRITEMAX)
    (good : ¬ (sh.nodes v E i).BadRange (m.ftable f).off src.length)
    (supplies : Supplies C sh v ((E i).lacks + spans (m.ftable f).off src.length + q)) :
    Sat C (fun r s' => r = some src.length ∧ ∃ v' E' m', Opened sh v' E' none m' f i s' ∧
      Moved f src.length m m' ∧ Written sh i (m.ftable f).off src v E v' E' ∧
      Supplies C sh v' ((E' i).lacks + q)) (fileWriteBody f src s) := by
  have atMost := spans_piece (m.ftable f).off short
  have referenced := x.cached.referenced
  refine fileWriteBody_begin x ok fun s1 y => ?_
  generalize isEntry : (m.ftable f).ip = ip at *
  have small : (m.ftable f).off + src.length < 4294967296 := by
    by_contra large
    exact good (Or.inr (Or.inl (Nat.not_lt.1 large)))
  refine (y.writei ok notDev (trans_of_shows (by simp) shows_) (Or.inl ?_) supplies good).seq
    fun r s2 post => ?_
  · rw [Finset.card_empty]
    omega
  obtain ⟨rfl, v', E', L', y', written, supplies'⟩ := post
  have sameMem : (m.setInode ip { m.icache ip with busy := true, valid := true, d := E i }).setDinode ip
      (E' i) = m.setInode ip { m.icache ip with busy := true, valid := true, d := E' i } := by
    rw [Mem.setDinode, Mem.setInode_icache]
    exact Mem.setInode_again m ip _ _
  rw [sameMem] at y'
  refine (fileWriteEnd_spec y' ok shows_ x.isInode isEntry (isEntry ▸ referenced) small).mono
    fun r s' post => ?_
  obtain ⟨rfl, m', opened, moved⟩ := post
  exact ⟨rfl, v', E', m', opened, moved, written, supplies'⟩

/-- A piece that does not fit changes nothing. -/
theorem fileWriteBody_refused {p : Pid} (x : Opened sh v E (some p) m f i s) (ok : sh.Ok)
    (notDev : (sh.nodes v E i).type ≠ T_DEV) (shows_ : ∀ e s, C.shows e s)
    (small : (m.ftable f).off < 4294967296)
    (bad : (sh.nodes v E i).BadRange (m.ftable f).off src.length) :
    Sat C (fun r s' => r = none ∧ ∃ m', Opened sh v E none m' f i s' ∧ Moved f 0 m m')
      (fileWriteBody f src s) := by
  have referenced := x.cached.referenced
  refine fileWriteBody_begin x ok fun s1 y => ?_
  generalize isEntry : (m.ftable f).ip = ip at *
  refine Sat.step (y.writei_refused notDev bad) ?_
  exact fileWriteEnd_spec y ok shows_ x.isInode isEntry (isEntry ▸ referenced) small

theorem Opened.beginTrans (x : Opened sh v E none m f i s) :
    ∃ s', Kernel.beginTrans s = .done () s' ∧ Opened sh v E (some m.proc) m f i s' := by
  obtain ⟨s', began, io'⟩ := x.io.beginTrans
  exact ⟨s', began, { x with io := io' }⟩

/-- The loop: as far as the size limit allows, in whole pieces. -/
theorem fileWriteLoop_spec (fuel : Nat) (x : Opened sh v E none m f i s) (ok : sh.Ok)
    (notDev : (sh.nodes v E i).type ≠ T_DEV) (shows_ : ∀ e s, C.shows e s)
    (enough : src.length < fuel) (reach : (m.ftable f).off ≤ (sh.nodes v E i).size)
    (supplies : Supplies C sh v ((E i).lacks + 4 * pieces src.length)) :
    Sat C (fun whole s' => whole = decide ((m.ftable f).off + src.length ≤ MAXFILE * BSIZE) ∧
      ∃ v' E' m', Opened sh v' E' none m' f i s' ∧
        Moved f (progress (m.ftable f).off src.length) m m' ∧
        Written sh i (m.ftable f).off (src.take (progress (m.ftable f).off src.length)) v E v' E')
      (fileWriteLoop f fuel src s) := by
  induction fuel generalizing v E m s src with
  | zero => omega
  | succ fuel ih =>
    have bounded : (m.ftable f).off ≤ MAXFILE * BSIZE := by
      refine reach.trans ?_
      rw [nodes_of_alloc x.alloc]
      exact x.rep.bounded i x.alloc
    rw [fileWriteLoop]
    by_cases finished : src = []
    · subst finished
      have none_ : progress (m.ftable f).off 0 = 0 := Nat.le_zero.1 (progress_le _ 0)
      rw [if_pos rfl]
      refine ⟨(decide_eq_true bounded).symm, v, E, m, x, ?_, ?_⟩
      · rw [List.length_nil, none_]
        exact Moved.refl f m
      · rw [List.take_nil]
        exact Written.refl reach
    rw [if_neg finished]
    have some_ : src.length ≠ 0 := fun none_ => finished (List.length_eq_zero_iff.1 none_)
    have lengthTake : (src.take WRITEMAX).length = min src.length WRITEMAX := by
      rw [List.length_take, Nat.min_comm]
    have lengthDrop : (src.drop WRITEMAX).length = src.length - min src.length WRITEMAX := by
      rw [List.length_drop]
      omega
    rw [pieces_step some_, ← lengthDrop] at supplies
    obtain ⟨s1, began, x1⟩ := x.beginTrans
    rw [fileWriteChunk_eq]
    refine Sat.call (Sat.step began ?_)
    have short : (src.take WRITEMAX).length ≤ WRITEMAX := by
      rw [lengthTake]
      omega
    have bounded' : (m.ftable f).off ≤ 71680 := bounded
    have shortest : min src.length WRITEMAX ≤ 1536 := Nat.min_le_right _ _
    by_cases fits : (m.ftable f).off + min src.length WRITEMAX ≤ MAXFILE * BSIZE
    · have good : ¬ (sh.nodes v E i).BadRange (m.ftable f).off (src.take WRITEMAX).length := by
        rw [lengthTake]
        rintro (past | wraps | large)
        all_goals omega
      have atMost := spans_piece (m.ftable f).off short
      have first : Supplies C sh v ((E i).lacks + spans (m.ftable f).off (src.take WRITEMAX).length +
          4 * pieces (src.drop WRITEMAX).length) := supplies.mono (by omega)
      refine (fileWriteBody_spec x1 ok notDev shows_ short good first).mono fun r s2 post => ?_
      obtain ⟨rfl, v2, E2, m2, x2, moved, written, supplies2⟩ := post
      rw [lengthTake] at moved
      have off2 : (m2.ftable f).off = (m.ftable f).off + min src.length WRITEMAX := by rw [moved.file]
      have notDev2 : (sh.nodes v2 E2 i).type ≠ T_DEV := by
        rw [written.node]
        exact notDev
      have reach2 : (m2.ftable f).off ≤ (sh.nodes v2 E2 i).size := by
        rw [written.node, off2, ← lengthTake]
        exact le_max_right _ _
      refine Sat.failIf (fun differs => ?_) fun _ => ?_
      · rw [bne_self_eq_false] at differs
        cases differs
      have fewer : (src.drop WRITEMAX).length < fuel := by
        rw [lengthDrop]
        show src.length - min src.length 1536 < fuel
        omega
      refine (ih x2 notDev2 fewer reach2 supplies2).mono fun whole s' post => ?_
      obtain ⟨isWhole, v', E', m', x', moved', written'⟩ := post
      rw [off2, lengthDrop] at isWhole moved' written'
      have both := progress_step fits
      refine ⟨?_, v', E', m', x', ?_, ?_⟩
      · rw [isWhole]
        exact decide_eq_decide.2 (by omega)
      · rw [both]
        exact moved.trans moved'
      · rw [← lengthTake] at written'
        have whole := written.trans written'
        rw [lengthTake, ← take_pieces] at whole
        rw [both]
        exact whole
    · have bad : (sh.nodes v E i).BadRange (m.ftable f).off (src.take WRITEMAX).length := by
        rw [lengthTake]
        exact Or.inr (Or.inr (Nat.not_le.1 fits))
      refine (fileWriteBody_refused x1 ok notDev shows_ (by omega) bad).mono fun r s2 post => ?_
      obtain ⟨rfl, m2, x2, moved⟩ := post
      have none_ := progress_none bounded (Nat.not_le.1 fits)
      have large : ¬ (m.ftable f).off + src.length ≤ MAXFILE * BSIZE := by omega
      rw [none_]
      exact ⟨(decide_eq_false large).symm, v, E, m2, x2, moved, Written.refl reach⟩

/-- **filewrite** to a file, from within it. -/
theorem filewrite_spec (x : Opened sh v E none m f i s) (ok : sh.Ok)
    (writable : (m.ftable f).writable = true) (notDev : (sh.nodes v E i).type ≠ T_DEV)
    (shows_ : ∀ e s, C.shows e s) (reach : (m.ftable f).off ≤ (sh.nodes v E i).size)
    (supplies : Supplies C sh v ((E i).lacks + 4 * pieces src.length)) :
    Sat C (fun r s' =>
      r = (if (m.ftable f).off + src.length ≤ MAXFILE * BSIZE then some src.length else none) ∧
      ∃ v' E' m', Opened sh v' E' none m' f i s' ∧
        Moved f (progress (m.ftable f).off src.length) m m' ∧
        Written sh i (m.ftable f).off (src.take (progress (m.ftable f).off src.length)) v E v' E')
      (filewrite f src s) := by
  unfold filewrite
  refine Sat.step (x.io.file_eq f) ?_
  have isWritable : ¬ (m.ftable f).writable = false := by
    rw [writable]
    decide
  rw [if_neg isWritable, x.isInode]
  refine (fileWriteLoop_spec (src.length + 1) x ok notDev shows_ (Nat.lt_succ_self _) reach
    supplies).seq fun whole s' post => ?_
  obtain ⟨rfl, facts⟩ := post
  refine ⟨?_, facts⟩
  by_cases fits : (m.ftable f).off + src.length ≤ MAXFILE * BSIZE
  · rw [decide_eq_true fits, if_pos fits]
    rfl
  · rw [decide_eq_false fits, if_neg fits]
    rfl

end Write

/-! ## One `writei` -/

/-- What one `writei` at the offset returns, and leaves of the file and of the offset when it is
advanced by what was written (`Locked.writei`, `Locked.writei_refused`). -/
def Node.writeOnce (n : Node) (off : Nat) (src : List Byte) : Option Nat × Node × Nat :=
  if n.BadRange off src.length then (none, n, off)
  else (some src.length, n.write off src, off + src.length)

/-- The result, the content, the size and the offset are those of one `writei`. -/
def AsOnce (n : Node) (off : Nat) (src : List Byte) (r : Option Nat) (n' : Node) (off' : Nat) : Prop :=
  r = (n.writeOnce off src).1 ∧ n'.size = (n.writeOnce off src).2.1.size ∧
    n'.data = (n.writeOnce off src).2.1.data ∧ off' = (n.writeOnce off src).2.2

/-- The whole write fits, or not even its first piece does. -/
def FitsOrNot (off n : Nat) : Prop :=
  off + n ≤ MAXFILE * BSIZE ∨ MAXFILE * BSIZE < off + min n WRITEMAX

/-- What is done in pieces is as one `writei` exactly then. -/
theorem asOnce_iff {sh : Shape} {v v' : Disk} {E E' : Inodes} {i off : Nat}
    {src : List Byte} (reach : off ≤ (sh.nodes v E i).size)
    (bounded : (sh.nodes v E i).size ≤ MAXFILE * BSIZE)
    (written : Written sh i off (src.take (progress off src.length)) v E v' E') :
    AsOnce (sh.nodes v E i) off src
      (if off + src.length ≤ MAXFILE * BSIZE then some src.length else none) (sh.nodes v' E' i)
      (off + progress off src.length) ↔ FitsOrNot off src.length := by
  have bounded' : (sh.nodes v E i).size ≤ 71680 := bounded
  by_cases fits : off + src.length ≤ MAXFILE * BSIZE
  · have fits' : off + src.length ≤ 71680 := fits
    have good : ¬ (sh.nodes v E i).BadRange off src.length := by
      rintro (past | wraps | large)
      all_goals omega
    have all : progress off src.length = src.length := if_pos fits
    have once : (sh.nodes v E i).writeOnce off src =
        (some src.length, (sh.nodes v E i).write off src, off + src.length) := if_neg good
    rw [all, List.take_length] at written
    rw [AsOnce, once, if_pos fits, all, written.node]
    exact ⟨fun _ => Or.inl fits, fun _ => ⟨rfl, rfl, rfl, rfl⟩⟩
  · have bad : (sh.nodes v E i).BadRange off src.length := Or.inr (Or.inr (Nat.not_le.1 fits))
    have once : (sh.nodes v E i).writeOnce off src = (none, sh.nodes v E i, off) := if_pos bad
    rw [AsOnce, once, if_neg fits]
    constructor
    · rintro ⟨-, -, -, same⟩
      have same : off + progress off src.length = off := same
      have fits : ¬ off + src.length ≤ 71680 := fits
      rw [progress_eq, if_neg fits] at same
      right
      show 71680 < off + min src.length 1536
      omega
    · rintro (whole | first)
      · exact absurd whole fits
      · have none_ := progress_none (reach.trans bounded) first
        rw [none_, List.take_zero] at written
        rw [none_, written.node, Node.write_nil _ reach]
        exact ⟨rfl, rfl, rfl, rfl⟩

/-- A panic is accepted where every block is marked. -/
def unlessDiskFull (sh : Shape) : KContract :=
  { unlessFull sh with fails := fun e s => e = .balloc ∧ s.NoBlock sh }

theorem unlessDiskFull_supplies (sh : Shape) (v : Disk) (n : Nat) :
    Supplies (unlessDiskFull sh) sh v n :=
  Or.inr ⟨fun b isGiven => isGiven b rfl, fun _ none_ => ⟨rfl, none_⟩⟩

/-- **A write in pieces is one `writei` exactly when it fits as a whole or its first piece does not
fit.**  From within a file, `filewrite` returns, unless the disk runs out, and it does return when
there are four blocks for every piece and one more. -/
theorem filewrite_as_writei_iff {sh : Shape} {v : Disk} {E : Inodes} {m : Mem} {f : FileId}
    {i : Nat} {s : KState} (ok : sh.Ok) (x : Opened sh v E none m f i s)
    (writable : (m.ftable f).writable = true) (notDev : (sh.nodes v E i).type ≠ T_DEV)
    (reach : (m.ftable f).off ≤ (sh.nodes v E i).size) (src : List Byte) :
    Sat (unlessDiskFull sh) (fun r s' => ∃ v' E' m', Opened sh v' E' none m' f i s' ∧
      (∀ j, j ≠ i → sh.nodes v' E' j = sh.nodes v E j) ∧
      (AsOnce (sh.nodes v E i) (m.ftable f).off src r (sh.nodes v' E' i) (m'.ftable f).off ↔
        FitsOrNot (m.ftable f).off src.length)) (filewrite f src s) ∧
    (1 + 4 * pieces src.length ≤ (sh.spare v).card →
      ∃ r s' v' E' m', (filewrite f src s).leaf = .done r s' ∧ Opened sh v' E' none m' f i s' ∧
        (∀ j, j ≠ i → sh.nodes v' E' j = sh.nodes v E j) ∧
        (AsOnce (sh.nodes v E i) (m.ftable f).off src r (sh.nodes v' E' i) (m'.ftable f).off ↔
          FitsOrNot (m.ftable f).off src.length)) := by
  have bounded : (sh.nodes v E i).size ≤ MAXFILE * BSIZE := by
    rw [nodes_of_alloc x.alloc]
    exact x.rep.bounded i x.alloc
  constructor
  · refine (filewrite_spec x ok writable notDev (fun _ _ => trivial) reach
      (unlessDiskFull_supplies sh v _)).mono fun r s' post => ?_
    obtain ⟨rfl, v', E', m', x', moved, written⟩ := post
    refine ⟨v', E', m', x', written.others, ?_⟩
    rw [moved.file]
    exact asOnce_iff reach bounded written
  · intro enough
    have atMost := (E i).lacks_le
    have sat := filewrite_spec (C := Contract.total) x ok writable notDev (fun _ _ => trivial) reach
      (Or.inl (le_trans (Nat.add_le_add_right atMost _) enough))
    obtain ⟨r, s', leaf, rfl, v', E', m', x', moved, written⟩ := sat.returns
    refine ⟨_, s', v', E', m', leaf, x', written.others, ?_⟩
    rw [moved.file]
    exact asOnce_iff reach bounded written

theorem opened_oneFile : Opened mkfsShape oneFileDisk oneFileInodes none (oneFileMem false false) 0 2
    (setUp oneFileDisk (oneFileMem false false)) :=
  ⟨oneFile_io (oneFileMem false false), rep_oneFile, alloc_oneFile, rfl, rfl, rfl, le_rfl, rfl,
    fun valid => by cases valid⟩

/-- 4000 bytes are written to the empty file, in three pieces. -/
theorem filewrite_as_writei_pieces :
    ∃ s, Opened mkfsShape oneFileDisk oneFileInodes none (oneFileMem false false) 0 2 s ∧
      pieces 4000 = 3 ∧
      ∃ s' v' E' m', (filewrite 0 (List.replicate 4000 7) s).leaf = .done (some 4000) s' ∧
        Opened mkfsShape v' E' none m' 0 2 s' ∧
        (∀ j, j ≠ 2 → mkfsShape.nodes v' E' j = oneFileNodes j) ∧
        (mkfsShape.nodes v' E' 2).size = 4000 ∧ (mkfsShape.nodes v' E' 2).data 3999 = 7 ∧
        (m'.ftable 0).off = 4000 := by
  have x := opened_oneFile
  have length : (List.replicate 4000 (7 : Byte)).length = 4000 := List.length_replicate
  have last : (List.replicate 4000 (7 : Byte)).getD 3999 0 = 7 := List.getD_replicate _ (by decide)
  generalize List.replicate 4000 (7 : Byte) = src at length last ⊢
  have enough : 1 + 4 * pieces src.length ≤ (mkfsShape.spare oneFileDisk).card := by
    rw [spare_oneFile, length]
    decide
  obtain ⟨r, s', v', E', m', leaf, x', others, asOnce⟩ :=
    (filewrite_as_writei_iff mkfsShape_ok x rfl notDev_oneFile (Nat.zero_le _) src).2 enough
  have offset : ((oneFileMem false false).ftable 0).off = 0 := rfl
  rw [offset, length] at asOnce
  have good : ¬ (oneFileNodes 2).BadRange 0 src.length := by
    rw [length]
    rintro (past | wraps | large)
    · exact Nat.not_lt_zero _ past
    · exact absurd wraps (by decide)
    · exact absurd large (by decide)
  have once : (oneFileNodes 2).writeOnce 0 src =
      (some src.length, (oneFileNodes 2).write 0 src, 0 + src.length) :=
    if_neg good
  obtain ⟨isR, isSize, isData, isOff⟩ := asOnce.2 (Or.inl (by decide))
  rw [once] at isR isSize isData isOff
  rw [isR, length] at leaf
  refine ⟨_, x, by decide, s', v', E', m', leaf, x', others, ?_, ?_, ?_⟩
  · rw [isSize]
    show max (oneFileNodes 2).size (0 + _) = _
    rw [size_oneFile, length]
    rfl
  · rw [isData]
    show (if 0 ≤ 3999 ∧ 3999 < 0 + src.length then src.getD (3999 - 0) 0 else _) = _
    rw [if_pos ⟨by decide, by omega⟩]
    exact last
  · rw [isOff, length]

/-- A write of one byte more than a file can hold fails and leaves 46 pieces in the file, and the
offset after them. -/
theorem filewrite_leaves_pieces :
    ∃ s, Opened mkfsShape oneFileDisk oneFileInodes none (oneFileMem false false) 0 2 s ∧
      ∃ s' v' E' m', (filewrite 0 (List.replicate 71681 7) s).leaf = .done none s' ∧
        Opened mkfsShape v' E' none m' 0 2 s' ∧ (m'.ftable 0).off = 70656 ∧
        (mkfsShape.nodes v' E' 2).size = 70656 ∧ (mkfsShape.nodes v' E' 2).data 0 = 7 ∧
        ((oneFileNodes 2).writeOnce 0 (List.replicate 71681 7)).1 = none ∧
        ((oneFileNodes 2).writeOnce 0 (List.replicate 71681 7)).2.1.size =
          0 ∧
        ((oneFileNodes 2).writeOnce 0 (List.replicate 71681 7)).2.2 =
          0 := by
  have x := opened_oneFile
  have length : (List.replicate 71681 (7 : Byte)).length = 71681 := List.length_replicate
  have taken : (List.replicate 71681 (7 : Byte)).take 70656 = List.replicate 70656 7 := by
    rw [List.take_replicate]
    rfl
  generalize List.replicate 71681 (7 : Byte) = src at length taken ⊢
  have supplies : Supplies Contract.total mkfsShape oneFileDisk
      ((oneFileInodes 2).lacks + 4 * pieces src.length) := by
    left
    rw [spare_oneFile, length]
    decide
  obtain ⟨r, s', leaf, isNone, v', E', m', x', moved, written⟩ := (filewrite_spec x mkfsShape_ok rfl
    notDev_oneFile (fun _ _ => trivial) (Nat.zero_le _) supplies).returns
  have bad : (oneFileNodes 2).BadRange 0 src.length := by
    right
    right
    rw [length]
    decide
  have once : (oneFileNodes 2).writeOnce 0 src =
      (none, oneFileNodes 2, 0) := if_pos bad
  have offset : ((oneFileMem false false).ftable 0).off = 0 := rfl
  have stops : progress 0 71681 = 70656 := by decide
  rw [offset, length, stops] at moved written
  rw [offset, length, if_neg (by decide)] at isNone
  rw [isNone] at leaf
  rw [taken] at written
  have lengthTaken : (List.replicate 70656 (7 : Byte)).length = 70656 := List.length_replicate
  have first : (List.replicate 70656 (7 : Byte)).getD 0 0 = 7 := List.getD_replicate _ (by decide)
  generalize List.replicate 70656 (7 : Byte) = w at written lengthTaken first
  refine ⟨_, x, s', v', E', m', leaf, x', ?_, ?_, ?_, ?_, ?_, ?_⟩
  · rw [moved.file, offset]
  · rw [written.node]
    show max (oneFileNodes 2).size (0 + _) = _
    rw [size_oneFile, lengthTaken]
    rfl
  · rw [written.node]
    show (if 0 ≤ 0 ∧ 0 < 0 + w.length then w.getD (0 - 0) 0 else _) = _
    rw [if_pos ⟨le_rfl, by omega⟩]
    exact first
  · rw [once]
  · rw [once]
    exact size_oneFile
  · rw [once]

end Xv6Rpi.Kernel
