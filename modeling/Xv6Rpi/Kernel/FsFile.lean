/-
# Kernel.FsFile -- a file is an array of bytes

`readi` and `writei` of an inode the caller has locked, on a file system whose blocks are owned
and whose files have no holes (`Rep`).  The specification is `Node.read` and `Node.write`: the
file's node holds the size and the bytes.

A write may find the disk or the log full.  `unlessFull` accepts the panics of that in the states
where it is so, and asks nothing more once `balloc` has left the data area.
-/
import Xv6Rpi.Kernel.BlockClient
import Xv6Rpi.Kernel.FsWrite

namespace Xv6Rpi.Kernel

open Theory Tools

set_option autoImplicit false

/-! ## Nodes -/

section Nodes

variable {sh : Shape} {v v' v1 : Disk} {E E' E1 : Inodes} {i off n : Nat}

theorem alloc_of_node (some_ : (sh.nodes v E i).type ≠ 0) : sh.Alloc E i := by
  by_contra free
  rw [nodes_of_free free] at some_
  exact some_ rfl

/-- `readi` returns bytes of the node. -/
theorem Rep.readResult_eq {Q : Set Nat} {x : Option Nat} (rep : Rep sh v E Q x)
    (alloc : sh.Alloc E i) : (E i).readResult v off n = (sh.nodes v E i).read off n := by
  have size : (sh.nodes v E i).size = (E i).size := by
    rw [nodes_of_alloc alloc]
    rfl
  rw [Dinode.readResult, Node.read, size]
  split
  case isTrue => rfl
  case isFalse =>
    refine congrArg some (List.map_congr_left fun j member => ?_)
    have below := List.mem_range.1 member
    rw [rep.node_data alloc, if_pos (by omega)]

/-- One write after the other. -/
theorem Written.trans {a b : List Byte} (first : Written sh i off a v E v1 E1)
    (second : Written sh i (off + a.length) b v1 E1 v' E') : Written sh i off (a ++ b) v E v' E' := by
  refine ⟨?_, fun k some_ => ?_, fun j ne => (second.others j ne).trans (first.others j ne)⟩
  · rw [second.node, first.node, ← Node.write_write]
    rfl
  · have kept := first.kept k some_
    rw [second.kept k (by rw [kept]; exact some_), kept]

theorem Written.refl (inside : off ≤ (sh.nodes v E i).size) : Written sh i off [] v E v E :=
  ⟨by rw [Node.write_nil _ inside], fun _ _ => rfl, fun _ _ => rfl⟩

end Nodes

/-- A range that `writei` refuses. -/
def Node.BadRange (f : Node) (off n : Nat) : Prop :=
  f.size < off ∨ 4294967296 ≤ off + n ∨ MAXFILE * BSIZE < off + n

instance (f : Node) (off n : Nat) : Decidable (f.BadRange off n) :=
  inferInstanceAs (Decidable (_ ∨ _ ∨ _))

/-! ## A full disk -/

/-- A panic is accepted where every block is marked, where the log is full, and where there is no
buffer to recycle and the log is all but full.  After `balloc` has picked a block of the log nothing
is owed. -/
def unlessFull (sh : Shape) : KContract where
  rest := fun _ => False
  fails := fun e s => e = .balloc ∧ s.NoBlock sh ∨ e = .tooBig ∧ s.log.full = true ∨
    e = .bget ∧ 8 ≤ s.log.lh.n ∧ s.NoBuffer
  shows := fun _ _ => True
  given := fun e => ∀ b, e = .balloc b → b < sh.log

theorem unlessFull_fits (sh : Shape) (n : Nat) : Fits (unlessFull sh) n :=
  Or.inr ⟨fun _ full => Or.inr (Or.inl ⟨rfl, full⟩),
    fun _ few none_ => Or.inr (Or.inr ⟨rfl, few, none_⟩)⟩

theorem unlessFull_supplies (sh : Shape) (v : Disk) (n : Nat) :
    Supplies (unlessFull sh) sh v n :=
  Or.inr ⟨fun b isGiven => isGiven b rfl, fun _ none_ => Or.inl ⟨rfl, none_⟩⟩

/-- In a transaction, a contract that accepts everything shown accepts what writes do. -/
theorem trans_of_shows {C : KContract} {sh : Shape} {A : Disk} {p : Pid}
    {t : Option Pid} (opened : t ≠ none) (shows_ : ∀ e s, C.shows e s) : Trans C sh A t p :=
  ⟨BlockClient.logs_of_shows shows_ opened, fun _ _ => shows_ _ _⟩

/-! ## Locked files -/

/-- Entry `ip` of the inode cache has the current copy of inode `i`, and no operation of the file
system is going on. -/
structure Locked (sh : Shape) (A v : Disk) (E : Inodes) (L : Finset Nat) (t : Option Pid)
    (m : Mem) (ip : InodeId) (i : Nat) (s : KState) : Prop where
  io : sh.Rests A v L t m s
  rep : Rep sh v E ∅ none
  alloc : sh.Alloc E i
  dev : (m.icache ip).dev = ROOTDEV
  inum : (m.icache ip).inum = i
  copy : (m.icache ip).d = E i

namespace Locked

variable {C : KContract} {sh : Shape} {A v : Disk} {E : Inodes}
  {L : Finset Nat} {t : Option Pid} {m : Mem} {ip : InodeId} {i off n q : Nat} {s : KState}
  {src : List Byte}

theorem size_eq (f : Locked sh A v E L t m ip i s) : (sh.nodes v E i).size = (E i).size := by
  rw [nodes_of_alloc f.alloc]
  rfl

theorem type_eq (f : Locked sh A v E L t m ip i s) : (sh.nodes v E i).type = (E i).type := by
  rw [nodes_of_alloc f.alloc]
  rfl

theorem writei_refused (f : Locked sh A v E L t m ip i s) (notDev : (sh.nodes v E i).type ≠ T_DEV)
    (bad : (sh.nodes v E i).BadRange off src.length) : writei ip src off s = .done none s := by
  rw [f.type_eq] at notDev
  rw [Node.BadRange, f.size_eq] at bad
  rw [writei, Act.bind_apply, f.io.inode_eq ip, Outcome.done_bind, f.copy, if_neg notDev]
  by_cases outside : (E i).size < off ∨ 4294967296 ≤ off + src.length
  · rw [if_pos outside]
    rfl
  · have large : MAXFILE * BSIZE < off + src.length := by tauto
    rw [if_neg outside, if_pos large]
    rfl

/-- `writei_spec`, for locked files. -/
theorem writei (f : Locked sh A v E L t m ip i s) (ok : sh.Ok)
    (notDev : (sh.nodes v E i).type ≠ T_DEV) (trans : Trans C sh A t m.proc)
    (fits : Fits C (L.card + 3 + spans off src.length))
    (supplies : Supplies C sh v ((E i).lacks + spans off src.length + q))
    (good : ¬ (sh.nodes v E i).BadRange off src.length) :
    Sat C (fun r s' => r = some src.length ∧ ∃ v' E' L',
      Locked sh A v' E' L' t (m.setDinode ip (E' i)) ip i s' ∧ Written sh i off src v E v' E' ∧
      Supplies C sh v' ((E' i).lacks + q)) (Kernel.writei ip src off s) := by
  rw [Node.BadRange, f.size_eq, not_or, not_or] at good
  rw [f.type_eq] at notDev
  refine (writei_spec f.io ok f.rep f.alloc f.dev f.inum f.copy notDev trans fits supplies
    (Nat.not_lt.1 good.1) (Nat.not_lt.1 good.2.2)).mono fun r s' post => ?_
  obtain ⟨isCount, v', E', L', io', rep', written, supplies'⟩ := post
  have alloc' : sh.Alloc E' i := by
    refine alloc_of_node (v := v') ?_
    rw [written.node]
    show (sh.nodes v E i).type ≠ 0
    rw [f.type_eq]
    exact f.alloc.2
  refine ⟨isCount, v', E', L', ⟨io', rep', alloc', ?_, ?_, ?_⟩, written, supplies'⟩
  · rw [Mem.setDinode_icache]
    exact f.dev
  · rw [Mem.setDinode_icache]
    exact f.inum
  · rw [Mem.setDinode_icache]

theorem readi (f : Locked sh A v E L t m ip i s) (ok : sh.Ok)
    (notDev : (sh.nodes v E i).type ≠ T_DEV) :
    Sat C (fun r s' => r = (sh.nodes v E i).read off n ∧ Locked sh A v E L t m ip i s')
      (Kernel.readi ip off n s) := by
  rw [f.type_eq] at notDev
  have bounded := f.rep.bounded i f.alloc
  refine (readi_spec ok f.dev f.copy notDev (fun o _ high => ?_) f.io).mono fun r s' post => ?_
  · have inside : o < (E i).size := by omega
    have small : o / BSIZE < MAXFILE := by
      have bounded : (E i).size ≤ 140 * 512 := bounded
      show o / 512 < 140
      omega
    have filled := f.rep.filled i f.alloc (o / BSIZE)
      (lt_of_le_of_lt (Nat.div_mul_le_self o BSIZE) inside)
    exact Writing.mapped ok (f.rep.work i) f.alloc small filled
  · obtain ⟨rfl, io'⟩ := post
    exact ⟨f.rep.readResult_eq f.alloc, { f with io := io' }⟩

end Locked

/-- **`readi` and `writei` implement an array of bytes.**  A write to a bad range is refused and
changes nothing; any other, in a transaction, returns its length and leaves the file as
`Node.write` says and every other file as it was, or it panics in a state where the disk, the log or
the buffers have run out; it does return when there is room for its blocks.  A read returns the bytes of the range, as far as the
file goes, and changes no file. -/
theorem readi_writei_byteArray {sh : Shape} {A v : Disk} {E : Inodes} {L : Finset Nat}
    {t : Option Pid} {m : Mem} {ip : InodeId} {i : Nat} {s : KState} (ok : sh.Ok)
    (f : Locked sh A v E L t m ip i s) (notDev : (sh.nodes v E i).type ≠ T_DEV)
    (off n : Nat) (src : List Byte) :
    ((sh.nodes v E i).BadRange off src.length → writei ip src off s = .done none s) ∧
    (¬ (sh.nodes v E i).BadRange off src.length → t ≠ none →
      Sat (unlessFull sh) (fun r s' => r = some src.length ∧ ∃ v' E' L',
        Locked sh A v' E' L' t (m.setDinode ip (E' i)) ip i s' ∧
        Written sh i off src v E v' E') (writei ip src off s)) ∧
    (¬ (sh.nodes v E i).BadRange off src.length → t ≠ none →
      L.card + 3 + spans off src.length ≤ 7 → 1 + spans off src.length ≤ (sh.spare v).card →
      ∃ s', (writei ip src off s).leaf = .done (some src.length) s' ∧ ∃ v' E' L',
        Locked sh A v' E' L' t (m.setDinode ip (E' i)) ip i s' ∧
        Written sh i off src v E v' E') ∧
    ∃ s', (readi ip off n s).leaf = .done ((sh.nodes v E i).read off n) s' ∧
      Locked sh A v E L t m ip i s' := by
  refine ⟨f.writei_refused notDev, fun good opened => ?_, fun good opened fits enough => ?_, ?_⟩
  · refine (f.writei ok notDev (trans_of_shows opened fun _ _ => trivial) (unlessFull_fits sh _)
      (unlessFull_supplies sh v _) good (q := 0)).mono fun r s' post => ?_
    obtain ⟨isCount, v', E', L', f', written, -⟩ := post
    exact ⟨isCount, v', E', L', f', written⟩
  · have atMost : (E i).lacks ≤ 1 := (E i).lacks_le
    have supplies : (E i).lacks + spans off src.length + 0 ≤ (sh.spare v).card := by omega
    have sat := f.writei (C := Contract.total) ok notDev (trans_of_shows opened fun _ _ => trivial)
      (Or.inl fits) (Or.inl supplies) good
    obtain ⟨r, s', leaf, rfl, v', E', L', f', written, -⟩ := sat.returns
    exact ⟨s', leaf, v', E', L', f', written⟩
  · have sat : Sat Contract.total (fun r s' => r = (sh.nodes v E i).read off n ∧
        Locked sh A v E L t m ip i s') (readi ip off n s) := f.readi ok notDev
    obtain ⟨r, s', leaf, rfl, f'⟩ := sat.returns
    exact ⟨s', leaf, f'⟩

/-! ## Locking -/

/-- The memory with another entry `ip` of the inode cache. -/
def Mem.setInode (m : Mem) (ip : InodeId) (x : Inode) : Mem := { m with icache := upd m.icache ip x }

@[simp] theorem Mem.setInode_icache (m : Mem) (ip : InodeId) (x : Inode) :
    (m.setInode ip x).icache ip = x := upd_same ..

@[simp] theorem Mem.setInode_again (m : Mem) (ip : InodeId) (x y : Inode) :
    (m.setInode ip x).setInode ip y = m.setInode ip y := by
  simp [Mem.setInode, upd_idem]

/-- Entry `ip` is for inode `i`, referenced and not locked; what it holds, if anything, is `d`. -/
structure Cached (m : Mem) (ip : InodeId) (i : Nat) (d : Dinode) : Prop where
  dev : (m.icache ip).dev = ROOTDEV
  inum : (m.icache ip).inum = i
  referenced : 1 ≤ (m.icache ip).ref
  free : (m.icache ip).busy = false
  fresh : (m.icache ip).valid = true → (m.icache ip).d = d

section Lock

variable {C : KContract} {sh : Shape} {A v : Disk} {E : Inodes}
  {L : Finset Nat} {h : Held} {t : Option Pid} {m : Mem} {ip : InodeId} {i : Nat} {s : KState}

theorem Io.setInode_eq (io : Io sh.geo A v L h t m s) (ip : InodeId) (f : Inode → Inode) :
    ∃ s', setInode ip f s = .done () s' ∧
      Io sh.geo A v L h t (m.setInode ip (f (m.icache ip))) s' := by
  refine ⟨_, rfl, { io with mem := ?_ }⟩
  rw [← io.mem]
  rfl

/-- Every entry of the inode cache is referenced. -/
def KState.NoEntry (s : KState) : Prop := ∀ j, (s.mem.icache j).ref ≠ 0

/-- **iget**: an entry that has the inode gets one more reference, or else one that nobody refers to
is recycled. -/
theorem Io.iget (io : Io sh.geo A v L h t m s) {R : InodeId → KState → Prop}
    (full : s.NoEntry → C.fails .iget s)
    (found : ∀ j s', 1 ≤ (m.icache j).ref → (m.icache j).dev = ROOTDEV → (m.icache j).inum = i →
      Io sh.geo A v L h t (m.setInode j { m.icache j with ref := (m.icache j).ref + 1 }) s' → R j s')
    (recycled : ∀ j s', (m.icache j).ref = 0 →
      (∀ k, 1 ≤ (m.icache k).ref → (m.icache k).dev = ROOTDEV → (m.icache k).inum ≠ i) →
      Io sh.geo A v L h t (m.setInode j { m.icache j with
        dev := ROOTDEV, inum := i, ref := 1, busy := false, valid := false }) s' → R j s') :
    Sat C R (Kernel.iget ROOTDEV i s) := by
  unfold Kernel.iget
  refine Sat.step (Act.get_apply s) ?_
  rw [io.mem]
  cases hit : (List.finRange NINODE).find? fun ip =>
      0 < (m.icache ip).ref && (m.icache ip).dev == ROOTDEV && (m.icache ip).inum == i with
  | some j =>
    have matches_ := List.find?_some hit
    simp only [Bool.and_eq_true, decide_eq_true_eq, beq_iff_eq] at matches_
    obtain ⟨⟨some_, isDev⟩, isInum⟩ := matches_
    obtain ⟨s', stored, io'⟩ := io.setInode_eq j fun x => { x with ref := x.ref + 1 }
    exact Sat.step stored (found j s' some_ isDev isInum io')
  | none =>
    dsimp only
    cases free : (List.finRange NINODE).find? fun ip => (m.icache ip).ref == 0 with
    | none =>
      refine full fun j unused => ?_
      have used := List.find?_eq_none.1 free j (List.mem_finRange j)
      rw [io.mem] at unused
      rw [unused] at used
      exact used rfl
    | some j =>
      have unused : (m.icache j).ref = 0 := by simpa using List.find?_some free
      obtain ⟨s', stored, io'⟩ := io.setInode_eq j fun x =>
        { x with dev := ROOTDEV, inum := i, ref := 1, busy := false, valid := false }
      refine Sat.step stored (recycled j s' unused (fun k some_ isDev isInum => ?_) io')
      have fails := List.find?_eq_none.1 hit k (List.mem_finRange k)
      simp [isDev, isInum] at fails
      omega

/-- The copy is read from disk. -/
theorem iload_spec (io : sh.Rests A v L t m s) (ok : sh.Ok) (rep : Rep sh v E ∅ none)
    (alloc : sh.Alloc E i) (dev : (m.icache ip).dev = ROOTDEV) (inum : (m.icache ip).inum = i) :
    Sat C (fun _ s' => sh.Rests A v L t
      (m.setInode ip { m.icache ip with valid := true, d := E i }) s') (iload ip s) := by
  have below := alloc.1.iblock_lt
  have after := ok.afterBitmap
  have log := ok.ds_le_log
  have onDisk := rep.disk i alloc.1 (Option.some_ne_none i)
  unfold iload
  refine Sat.step (io.inode_eq ip) ?_
  rw [dev, inum]
  refine io.open_ ok (by omega) fun bp s1 io1 => Sat.step (io1.bdata_eq (upd_same ..)) ?_
  rw [onDisk]
  obtain ⟨s2, stored, io2⟩ := io1.setInode_eq ip fun x => { x with d := E i }
  refine Sat.step stored (Sat.call (io2.drop rfl fun s3 io3 => ?_))
  obtain ⟨s4, marked, io4⟩ := io3.setInode_eq ip fun x => { x with valid := true }
  rw [Mem.setInode_icache, Mem.setInode_again] at io4
  refine Sat.step marked ?_
  have typed : ((E i).type == 0) = false := beq_eq_false_iff_ne.2 alloc.2
  rw [typed]
  exact io4

/-- **ilock** of an inode nobody has locked. -/
theorem ilock_spec (io : sh.Rests A v L t m s) (ok : sh.Ok) (rep : Rep sh v E ∅ none)
    (alloc : sh.Alloc E i) (cached : Cached m ip i (E i)) :
    Sat C (fun _ s' => sh.Rests A v L t
      (m.setInode ip { m.icache ip with busy := true, valid := true, d := E i }) s')
      (ilock ip s) := by
  have ready : (!(s.mem.icache ip).busy) = true := by
    rw [io.mem, cached.free]
    rfl
  unfold ilock
  refine Sat.step (io.inode_eq ip) (Sat.failIf (fun low => ?_) fun _ => ?_)
  · have low := of_decide_eq_true low
    have := cached.referenced
    omega
  refine Sat.step (Act.await_of_ready (fun s : KState => !(s.mem.icache ip).busy) ready) ?_
  obtain ⟨s1, locked, io1⟩ := io.setInode_eq ip fun x => { x with busy := true }
  refine Sat.step locked (Sat.step (io1.inode_eq ip) ?_)
  rw [Mem.setInode_icache]
  cases valid : (m.icache ip).valid with
  | true =>
    have isCopy : ({ m.icache ip with busy := true } : Inode) =
        { m.icache ip with busy := true, valid := true, d := E i } := by
      rw [← valid, ← cached.fresh valid]
    rw [isCopy] at io1
    exact io1
  | false =>
    have isDev : ((m.setInode ip { m.icache ip with busy := true }).icache ip).dev = ROOTDEV := by
      rw [Mem.setInode_icache]
      exact cached.dev
    have isInum : ((m.setInode ip { m.icache ip with busy := true }).icache ip).inum = i := by
      rw [Mem.setInode_icache]
      exact cached.inum
    have load := iload_spec (C := C) io1 ok rep alloc isDev isInum
    rw [Mem.setInode_icache, Mem.setInode_again] at load
    exact load

/-- **iunlock** of a locked inode. -/
theorem Io.iunlock_eq (io : Io sh.geo A v L h t m s) (ip : InodeId) (locked : (m.icache ip).busy = true)
    (referenced : 1 ≤ (m.icache ip).ref) :
    ∃ s', iunlock ip s = .done () s' ∧
      Io sh.geo A v L h t (m.setInode ip { m.icache ip with busy := false }) s' := by
  obtain ⟨s', stored, io'⟩ := io.setInode_eq ip fun x => { x with busy := false }
  refine ⟨s', ?_, io'⟩
  have fine : (!(m.icache ip).busy || decide ((m.icache ip).ref < 1)) = false := by
    rw [locked, decide_eq_false (by omega)]
    rfl
  rw [iunlock, Act.bind_apply, io.inode_eq ip, Outcome.done_bind, fine]
  exact stored

end Lock

/-! ## A file system with one inode -/

/-- An image, laid out as `mkfs` does, with inode `i` and no data. -/
def oneInodeDisk (i : Nat) (d : Dinode) : Disk :=
  upd (usedDisk 29) 2 (putDinode Bytes.zero i d)

def oneInode (i : Nat) (d : Dinode) : Inodes := upd (fun _ => Dinode.zeroed) i d

theorem slot_of_empty {d : Dinode} {v : Disk} (none_ : ∀ k, d.addrs k = 0) (k : Nat) :
    d.slot v k = 0 := by
  simp [Dinode.slot, none_]

theorem ofBlock_zero (i : Nat) : Dinode.ofBlock Bytes.zero i = Dinode.zeroed := by
  apply Dinode.ext_fields
  all_goals simp [Dinode.ofBlock, Dinode.zeroed, Bytes.u16, Bytes.u32]

section OneInode

variable {i : Nat} {d : Dinode}

theorem oneInode_empty (size : d.size = 0) (none_ : ∀ k, d.addrs k = 0) (j : Nat) :
    (oneInode i d j).size = 0 ∧ ∀ k, (oneInode i d j).addrs k = 0 := by
  by_cases same : j = i
  · rw [oneInode, same, upd_same]
    exact ⟨size, none_⟩
  · rw [oneInode, upd_ne _ _ same]
    exact ⟨rfl, fun _ => rfl⟩

theorem oneInodeDisk_bitmap (i : Nat) (d : Dinode) (b : Nat) :
    (oneInodeDisk i d mkfsShape.bitmap).bit b = decide (b < 29) := by
  have isBitmap : oneInodeDisk i d mkfsShape.bitmap = Mkfs.balloc 29 := by
    rw [oneInodeDisk, upd_ne _ _ (by decide), usedDisk, upd_same]
  rw [isBitmap, bit_mkfsBalloc (by decide)]

theorem rep_oneInode (first : i < 8) (small : d.Small) (size : d.size = 0) (none_ : ∀ k, d.addrs k = 0) :
    Rep mkfsShape (oneInodeDisk i d) (oneInode i d) ∅ none := by
  have empty := oneInode_empty (i := i) size none_
  have place : ∀ p, mkfsShape.place (oneInodeDisk i d) (oneInode i d) p = 0 := by
    intro p
    unfold Shape.place
    split
    · exact slot_of_empty (empty p.1).2 p.2
    · rfl
  have used : ∀ b, b ∉ mkfsShape.used (oneInodeDisk i d) := by
    rintro b ⟨inData, marked⟩
    have low : 29 ≤ b := inData.1
    rw [oneInodeDisk_bitmap] at marked
    have := of_decide_eq_true marked
    omega
  refine ⟨?_, fun b low => ?_, ⟨?_, ?_, ?_, ?_, ?_⟩, fun j _ k inside => ?_,
    fun j _ => ?_, fun j => ?_, fun j isInode _ => ?_⟩
  · rw [oneInodeDisk, upd_ne _ _ (by decide)]
    decide +kernel
  · rw [oneInodeDisk_bitmap]
    exact decide_eq_true low
  · exact fun p some_ => absurd (place p) some_
  · exact fun p _ some_ => absurd (place p) some_
  · exact fun b member => absurd member (used b)
  · exact fun b member => absurd member (Set.notMem_empty b)
  · exact fun b member => absurd member (used b)
  · rw [(empty j).1] at inside
    omega
  · rw [(empty j).1]
    exact Nat.zero_le _
  · by_cases same : j = i
    · rw [same, oneInode, upd_same]
      exact small
    · rw [oneInode, upd_ne _ _ same]
      exact Dinode.small_zeroed
  · have below : j < 200 := isInode.2
    by_cases same : j = i
    · have isBlock : IBLOCK j = 2 := by
        show j / 8 + 2 = 2
        omega
      rw [same] at isBlock ⊢
      rw [oneInodeDisk, isBlock, upd_same, oneInode, upd_same]
      exact ofBlock_putDinode small
    · rw [oneInode, upd_ne _ _ same]
      by_cases sameBlock : IBLOCK j = 2
      · have sameBlock' : j / 8 + 2 = 2 := sameBlock
        rw [oneInodeDisk, sameBlock, upd_same, ofBlock_putDinode_of_ne, ofBlock_zero]
        show j % 8 ≠ i % 8
        omega
      · have notSuper : IBLOCK j ≠ 1 := by
          show j / 8 + 2 ≠ 1
          omega
        have notBitmap : IBLOCK j ≠ mkfsShape.bitmap := by
          show j / 8 + 2 ≠ 28
          omega
        rw [oneInodeDisk, upd_ne _ _ sameBlock, usedDisk, upd_ne _ _ notBitmap, upd_ne _ _ notSuper]
        exact ofBlock_zero j

/-- 985 blocks are free. -/
theorem spare_oneInode (i : Nat) (d : Dinode) : (mkfsShape.spare (oneInodeDisk i d)).card = 985 := by
  have all : mkfsShape.spare (oneInodeDisk i d) = Finset.Ico 29 1014 := by
    refine Finset.filter_true_of_mem fun b member => ?_
    have low : 29 ≤ b := (Finset.mem_Ico.1 member).1
    rw [oneInodeDisk_bitmap]
    exact decide_eq_false (by omega)
  rw [all, Nat.card_Ico]

end OneInode

/-- The kernel has set up its log on a disk; its tables are `m`. -/
def setUp (disk : Disk) (m : Mem) : KState :=
  (initlog { bootState disk Mkfs.size with mem := m }).final

theorem oneInode_io (i : Nat) (d : Dinode) (m : Mem) :
    mkfsShape.Rests (oneInodeDisk i d) (oneInodeDisk i d) ∅ none m
      (setUp (oneInodeDisk i d) m) := by
  have super : mkfsShape.geo.Super (oneInodeDisk i d 1) := by
    rw [oneInodeDisk, upd_ne _ _ (by decide)]
    decide +kernel
  have clean : headCount (oneInodeDisk i d mkfsShape.geo.start) = 0 := by
    rw [oneInodeDisk, upd_ne _ _ (by decide)]
    decide +kernel
  have sat := Sat.initlog (C := Contract.total) (committed_of_clean super clean) mkfsShape_ok.geo_ok
    (fun _ _ _ _ _ => trivial) (s := { bootState (oneInodeDisk i d) Mkfs.size with mem := m })
    (bio_bootState _ _) (by unfold bootState; rfl)
  cases sat.ends (fun _ => id) (fun _ => trivial) with
  | inl returned =>
    obtain ⟨_, -, -, io⟩ := returned
    exact io
  | inr failed =>
    obtain ⟨_, -, -, impossible⟩ := failed
    exact absurd impossible id

/-- The root, without entries. -/
def emptyDir : Dinode := { Dinode.zeroed with type := T_DIR, nlink := 1 }

theorem emptyDir_small : emptyDir.Small :=
  { Dinode.small_zeroed with
    type := by decide
    nlink := by decide }

/-! ## A file system with one file -/

/-- Inode 2 is an empty file. -/
def emptyFile : Dinode := { Dinode.zeroed with type := T_FILE, nlink := 1 }

def oneFileInodes : Inodes := upd (fun _ => Dinode.zeroed) 2 emptyFile

/-- The image, laid out as `mkfs` does. -/
def oneFileDisk : Disk := upd (usedDisk 29) 2 (putDinode Bytes.zero 2 emptyFile)

theorem emptyFile_small : emptyFile.Small :=
  { Dinode.small_zeroed with
    type := by decide
    nlink := by decide }

theorem rep_oneFile : Rep mkfsShape oneFileDisk oneFileInodes ∅ none :=
  rep_oneInode (by decide) emptyFile_small rfl fun _ => rfl

theorem oneFile_io (m : Mem) :
    mkfsShape.Rests oneFileDisk oneFileDisk ∅ none m (setUp oneFileDisk m) :=
  oneInode_io 2 emptyFile m

theorem alloc_oneFile : mkfsShape.Alloc oneFileInodes 2 := by decide

/-- The files on it. -/
abbrev oneFileNodes : Nat → Node := mkfsShape.nodes oneFileDisk oneFileInodes

theorem nodes_oneFile : oneFileNodes 2 = emptyFile.node oneFileDisk := nodes_of_alloc alloc_oneFile

theorem notDev_oneFile : (oneFileNodes 2).type ≠ T_DEV := by
  rw [nodes_oneFile]
  decide

theorem size_oneFile : (oneFileNodes 2).size = 0 := by
  rw [nodes_oneFile]
  rfl

theorem spare_oneFile : (mkfsShape.spare oneFileDisk).card = 985 := spare_oneInode 2 emptyFile

/-- Entry 0 of the inode cache is the file's; file structure 0 is open on it. -/
def oneFileMem (busy valid : Bool) : Mem :=
  { (KState.zeroed (fun _ => Bytes.zero) 0).mem with
    icache := fun _ => ⟨ROOTDEV, 2, 1, busy, valid, emptyFile⟩
    ftable := fun _ => ⟨.inode, 1, true, true, 0, 0⟩ }

/-- The empty file is written, in a transaction of process 0. -/
theorem readi_writei_byteArray_hello :
    ∃ s, Locked mkfsShape oneFileDisk oneFileDisk oneFileInodes ∅ (some 0) (oneFileMem true true) 0 2 s ∧
      ∃ s', (writei 0 [104, 105] 0 s).leaf = .done (some 2) s' ∧ ∃ v' E' L',
        Locked mkfsShape oneFileDisk v' E' L' (some 0) ((oneFileMem true true).setDinode 0 (E' 2)) 0 2 s' ∧
        Written mkfsShape 2 0 [104, 105] oneFileDisk oneFileInodes v' E' := by
  obtain ⟨s, -, io⟩ := (oneFile_io (oneFileMem true true)).beginTrans
  have f : Locked mkfsShape oneFileDisk oneFileDisk oneFileInodes ∅ (some 0) (oneFileMem true true) 0 2
      s := ⟨io, rep_oneFile, alloc_oneFile, rfl, rfl, rfl⟩
  have good : ¬ (oneFileNodes 2).BadRange 0 2 := by
    rw [nodes_oneFile]
    decide
  have array := readi_writei_byteArray mkfsShape_ok f notDev_oneFile 0 0 [104, 105]
  exact ⟨s, f, array.2.2.1 good (by decide) (by decide) (by rw [spare_oneFile]; decide)⟩

end Xv6Rpi.Kernel
