/-
# Kernel.InodeLayer -- a store of files that survives crashes

Processes call the inode layer in any order (`InodeCall`), as the layers above do: they write in
transactions of their own, refer to an inode before they lock it, and lock it before they read or
write it (`Allowed`).  A file that is to be deleted stays referenced: the branch of `iput` that frees
an inode is not part of these runs.  What they have is a store of files `N`, of which `N0` is committed (`Layer`):
every call does to the files what `Effect` says, and a machine that stops at any disk write comes up
with the files that were committed (`Stands`).

In every state the blocks of the files are owned and marked (`Rep`), and the inode cache is coherent:
an inode is in one entry at most, it is allocated as long as someone refers to it, and a copy that
has been read is current (`Coherent`).
-/
import Xv6Rpi.Kernel.FsFile
import Xv6Rpi.Theory.Machine

namespace Xv6Rpi.Kernel

open Theory

set_option autoImplicit false

/-! ## The inode cache -/

/-- What an entry that someone refers to holds. -/
structure Current (sh : Shape) (E : Inodes) (x : Inode) : Prop where
  dev : x.dev = ROOTDEV
  alloc : sh.Alloc E x.inum
  copy : x.valid = true → x.d = E x.inum
  locked : x.busy = true → x.valid = true

structure Coherent (sh : Shape) (E : Inodes) (icache : InodeId → Inode) : Prop where
  current : ∀ j, 1 ≤ (icache j).ref → Current sh E (icache j)
  once : ∀ j k, 1 ≤ (icache j).ref → 1 ≤ (icache k).ref → (icache j).inum = (icache k).inum → j = k

/-- An entry says nothing about other inodes. -/
theorem Current.congr {sh : Shape} {E E' : Inodes} {x : Inode} (cur : Current sh E x)
    (same : E' x.inum = E x.inum) : Current sh E' x :=
  ⟨cur.dev, ⟨cur.alloc.1, by rw [same]; exact cur.alloc.2⟩, fun valid => by
    rw [same]; exact cur.copy valid, cur.locked⟩

section Cache

variable {sh : Shape} {v v' : Disk} {E E' : Inodes} {f : InodeId → Inode} {ip : InodeId}
  {x : Inode} {i : Nat}

/-- The entry for inode `i` changes, and that inode with it. -/
theorem Coherent.change (c : Coherent sh E f) (others : ∀ j, j ≠ i → sh.Alloc E j → E' j = E j)
    (mine : ∀ j, j ≠ ip → 1 ≤ (f j).ref → (f j).inum ≠ i)
    (entry : 1 ≤ x.ref → x.inum = i ∧ Current sh E' x) : Coherent sh E' (upd f ip x) := by
  refine ⟨forall_upd (P := fun _ y => 1 ≤ y.ref → Current sh E' y) (fun some_ => (entry some_).2)
    fun j ne some_ => ?_, fun j k => ?_⟩
  · have cur := c.current j some_
    exact cur.congr (others _ (mine j ne some_) cur.alloc)
  · by_cases isJ : j = ip <;> by_cases isK : k = ip
    · exact fun _ _ _ => isJ.trans isK.symm
    · rw [isJ, upd_same, upd_ne _ _ isK]
      exact fun some_ some' same => absurd (same.symm.trans (entry some_).1) (mine k isK some')
    · rw [isK, upd_same, upd_ne _ _ isJ]
      exact fun some_ some' same => absurd (same.trans (entry some').1) (mine j isJ some_)
    · rw [upd_ne _ _ isJ, upd_ne _ _ isK]
      exact c.once j k

theorem Coherent.alone (c : Coherent sh E f) (some_ : 1 ≤ (f ip).ref) (j : InodeId) (ne : j ≠ ip)
    (some' : 1 ≤ (f j).ref) : (f j).inum ≠ (f ip).inum :=
  fun same => ne (c.once j ip some' some_ same)

/-- A change that keeps the entry's inode. -/
theorem Coherent.touch (c : Coherent sh E f) (some_ : 1 ≤ (f ip).ref) (inum : x.inum = (f ip).inum)
    (entry : Current sh E x) : Coherent sh E (upd f ip x) :=
  c.change (i := (f ip).inum) (fun _ _ _ => rfl) (c.alone some_) fun _ => ⟨inum, entry⟩

/-- What a file stands for determines its inode. -/
theorem dinode_of_node (alloc : sh.Alloc E i) (same : sh.nodes v' E' i = sh.nodes v E i) :
    E' i = E i := by
  have alloc' : sh.Alloc E' i := by
    refine alloc_of_node (v := v') ?_
    rw [same, nodes_of_alloc alloc]
    exact alloc.2
  rw [nodes_of_alloc alloc, nodes_of_alloc alloc'] at same
  refine Dinode.ext_fields (congrArg Node.type same) (congrArg Node.major same)
    (congrArg Node.minor same) (congrArg Node.nlink same) (congrArg Node.size same) (funext fun a => ?_)
  rw [← slot_slotOf (v := v'), ← slot_slotOf (v := v)]
  exact congrFun (congrArg Node.addr same) (slotOf a)

theorem node_blank {d : Dinode} (blank : ∀ a, d.addrs a = 0) (size : d.size = 0) :
    d.node v = { Node.free with type := d.type, major := d.major, minor := d.minor, nlink := d.nlink } := by
  simp [Dinode.node, Node.free, size, funext (slot_of_empty (v := v) blank)]

/-- An inode that names no block is stored in place of one that names none. -/
theorem Rep.putEmpty {d : Dinode} (rep : Rep sh v E ∅ none) (ok : sh.Ok) (isInode : sh.InodeNum i)
    (empty : ∀ k, sh.place v E (i, k) = 0) (blank : ∀ a, d.addrs a = 0) (size : d.size = 0)
    (small : d.Small) :
    Rep sh (upd v (IBLOCK i) (putDinode (v (IBLOCK i)) i d)) (upd E i d) ∅ none := by
  refine rep.putInode ok isInode (fun k => ?_) small (Or.inl rfl) (fun _ => ?_) fun _ k inside => ?_
  · rw [empty, slot_of_empty blank, ite_self]
  · rw [size]
    exact Nat.zero_le _
  · rw [size] at inside
    exact absurd inside (Nat.not_lt_zero _)

/-- One file changes. -/
theorem nodes_upd {n : Node} (mine : sh.nodes v' E' i = n)
    (others : ∀ j, j ≠ i → sh.nodes v' E' j = sh.nodes v E j) : sh.nodes v' E' = upd (sh.nodes v E) i n := by
  funext j
  by_cases same : j = i
  · rw [same, upd_same, mine]
  · rw [upd_ne _ _ same, others j same]

/-- The fields of inode `i` that no block depends on are stored. -/
theorem Rep.relabel (rep : Rep sh v E ∅ none) (ok : sh.Ok) (alloc : sh.Alloc E i) {d : Dinode}
    (fields : d = { E i with major := d.major, minor := d.minor, nlink := d.nlink }) (small : d.Small) :
    Rep sh (upd v (IBLOCK i) (putDinode (v (IBLOCK i)) i d)) (upd E i d) ∅ none ∧
      sh.nodes (upd v (IBLOCK i) (putDinode (v (IBLOCK i)) i d)) (upd E i d) = upd (sh.nodes v E) i
        { sh.nodes v E i with major := d.major, minor := d.minor, nlink := d.nlink } := by
  have type : d.type = (E i).type := by rw [fields]
  have size : d.size = (E i).size := by rw [fields]
  have slot : d.slot v = (E i).slot v := by
    rw [fields]
    rfl
  have typed : d.type ≠ 0 := type ▸ alloc.2
  have named : ∀ k, (if d.type = 0 then 0 else d.slot v k) = sh.place v E (i, k) := fun k => by
    rw [if_neg typed, slot, place_of_alloc alloc]
  refine ⟨rep.putInode ok alloc.1 named small (Or.inl rfl) (fun _ => size ▸ rep.bounded i alloc)
    fun _ k => by rw [size, slot]; exact rep.filled i alloc k,
    nodes_upd ?_ fun j ne => rep.putInode_nodes ok alloc.1 _ ne⟩
  have alloc' : sh.Alloc (upd E i d) i := ⟨alloc.1, by rw [upd_same]; exact typed⟩
  rw [nodes_of_alloc alloc', nodes_of_alloc alloc, upd_same, Dinode.node,
    rep.putInode_mine ok alloc.1 named typed, slot, size, type]
  refine congrArg (Node.mk _ _ _ _ _ _) (funext fun o => ?_)
  show _ = if o < (E i).size then (v ((E i).slot v (o / BSIZE))).get (o % BSIZE) else 0
  by_cases inside : o < (E i).size
  · -- the block of the inode is none of the file's
    have some_ := rep.filled i alloc (o / BSIZE) (lt_of_le_of_lt (Nat.div_mul_le_self o BSIZE) inside)
    rw [← place_of_alloc alloc] at some_
    rw [if_pos inside, if_pos inside, ← place_of_alloc alloc,
      upd_ne _ _ ((rep.place_not_meta ok some_).2.2 i alloc.1)]
  · rw [if_neg inside, if_neg inside]

end Cache

/-! ## The store -/

/-- A recovery of the disk gives the files `K`. -/
def Stands (sh : Shape) (K : Nat → Node) (disk : Disk) : Prop :=
  ∃ A E, Committed sh.geo A disk ∧ Rep sh A E ∅ none ∧ sh.nodes A E = K

/-- The files are `N`, on a disk that stands for `A`. -/
def Alive (sh : Shape) (A : Disk) (t : Option Pid) (N : Nat → Node) (s : KState) : Prop :=
  ∃ v E L m, sh.Rests A v L t m s ∧ Rep sh v E ∅ none ∧ sh.nodes v E = N ∧
    Coherent sh E m.icache

def Layer (sh : Shape) (N0 N : Nat → Node) (s : KState) : Prop :=
  ∃ A E0 t, Rep sh A E0 ∅ none ∧ sh.nodes A E0 = N0 ∧ Alive sh A t N s

/-- Inode `i` as the buffer cache shows it. -/
def onDisk (s : KState) (i : Nat) : Dinode := Dinode.ofBlock (s.bio.view (IBLOCK i)) i

/-- The calls of the inode layer, and the scheduler between them. -/
inductive InodeCall where
  | sched (p : Pid)
  | beginTrans
  | commitTrans
  | ialloc (type : Nat)
  | iget (i : Nat)
  | idup (ip : InodeId)
  | ilock (ip : InodeId)
  | iunlock (ip : InodeId)
  | iput (ip : InodeId)
  | readi (ip : InodeId) (off n : Nat)
  | writei (ip : InodeId) (src : List Byte) (off : Nat)
  /-- assignments to fields of the copy, and `iupdate` -/
  | iupdate (ip : InodeId) (major minor nlink : Nat)

/-- The caller does not look at the result. -/
def silent {α : Type} (x : K α) : K (Option (List Byte)) := do
  let _ ← x
  return none

namespace InodeCall

def act : InodeCall → K (Option (List Byte))
  | .sched p => silent (Act.modify fun s => { s with mem := { s.mem with proc := p } })
  | .beginTrans => silent Kernel.beginTrans
  | .commitTrans => silent Kernel.commitTrans
  | .ialloc type => silent (Kernel.ialloc ROOTDEV type)
  | .iget i => silent (Kernel.iget ROOTDEV i)
  | .idup ip => silent (Kernel.idup ip)
  | .ilock ip => silent (Kernel.ilock ip)
  | .iunlock ip => silent (Kernel.iunlock ip)
  | .iput ip => silent (Kernel.iput ip)
  | .readi ip off n => Kernel.readi ip off n
  | .writei ip src off => silent (Kernel.writei ip src off)
  | .iupdate ip major minor nlink => silent do
      setDinode ip fun d => { d with major := major, minor := minor, nlink := nlink }
      Kernel.iupdate ip

/-- `iput` drops the last reference to a file without links. -/
def Frees (x : Inode) : Prop := x.ref = 1 ∧ x.valid = true ∧ x.d.nlink = 0

/-- Someone has locked the inode. -/
def Holds (s : KState) (ip : InodeId) : Prop :=
  1 ≤ (s.mem.icache ip).ref ∧ (s.mem.icache ip).busy = true

/-- The process that runs has a transaction open. -/
def Writes (s : KState) : Prop := s.log.busy = some s.mem.proc

/-- How the layers above make the calls. -/
def Allowed (sh : Shape) (s : KState) : InodeCall → Prop
  | .sched _ => True
  | .beginTrans => s.log.busy = none
  | .commitTrans => Writes s
  | .ialloc type => Writes s ∧ type ≠ 0 ∧ type < 65536
  | .iget i => sh.InodeNum i ∧ (onDisk s i).type ≠ 0
  | .idup ip => 1 ≤ (s.mem.icache ip).ref
  | .ilock ip => 1 ≤ (s.mem.icache ip).ref ∧ (s.mem.icache ip).busy = false
  | .iunlock ip => Holds s ip
  | .iput ip => 1 ≤ (s.mem.icache ip).ref ∧ ¬ Frees (s.mem.icache ip)
  | .readi ip _ _ => Holds s ip ∧ (s.mem.icache ip).d.type ≠ T_DEV
  | .writei ip _ _ => Holds s ip ∧ (s.mem.icache ip).d.type ≠ T_DEV ∧ Writes s
  | .iupdate ip major minor nlink => Holds s ip ∧ Writes s ∧ major < 65536 ∧ minor < 65536 ∧ nlink < 65536

/-- What a call does to the files, from state `s`. -/
def Effect (sh : Shape) (s : KState) (N : Nat → Node) (r : Option (List Byte)) (N' : Nat → Node) :
    InodeCall → Prop
  | .ialloc type => ∃ i, sh.InodeNum i ∧ N i = Node.free ∧ N' = upd N i { Node.free with type := type }
  | .readi ip off n => r = (N (s.mem.icache ip).inum).read off n ∧ N' = N
  | .writei ip src off => let i := (s.mem.icache ip).inum
      if (N i).BadRange off src.length then N' = N
      else N' i = { (N i).write off src with addr := (N' i).addr } ∧ ∀ j, j ≠ i → N' j = N j
  | .iupdate ip major minor nlink => N' = upd N (s.mem.icache ip).inum
      { N (s.mem.icache ip).inum with major := major, minor := minor, nlink := nlink }
  | _ => N' = N

/-- The files that are committed when the call writes to the disk. -/
def kept (N0 N : Nat → Node) : InodeCall → Nat → Node
  | .commitTrans => N
  | _ => N0

end InodeCall

/-- No inode is free. -/
def KState.NoInode (sh : Shape) (s : KState) : Prop := ∀ i, sh.InodeNum i → (onDisk s i).type ≠ 0

/-- A panic is accepted where there is no block, no log, no buffer, no inode or no entry of the inode
cache left.  At every disk write the disk stands for the files `K`, until `balloc` has picked a block
of the log. -/
def surviving (sh : Shape) (K : Nat → Node) : KContract where
  rest := fun _ => False
  fails := fun e s => (unlessFull sh).fails e s ∨ e = .ialloc ∧ s.NoInode sh ∨ e = .iget ∧ s.NoEntry
  shows := fun e s => ∀ x y, e = .write x y → Stands sh K s.bio.disk
  given := fun e => ∀ b, e = .balloc b → b < sh.log

section Calls

variable {sh : Shape} {A v : Disk} {E E0 : Inodes} {L : Finset Nat} {t : Option Pid}
  {m : Mem} {s : KState} {ip : InodeId} {i : Nat} {N0 N : Nat → Node}

/-- A transaction leaves buffers for one more block. -/
theorem few_logged (io : sh.Rests A v L t m s) (ok : sh.Ok) : L.card < NBUF := by
  have fits := io.fits
  rw [io.count_eq_card] at fits
  have nlog : sh.geo.nlog = 10 := ok.nlog
  show L.card < 10
  omega

theorem surviving_fits (sh : Shape) (K : Nat → Node) (n : Nat) : Fits (surviving sh K) n :=
  Or.inr ⟨fun _ full => Or.inl (Or.inr (Or.inl ⟨rfl, full⟩)),
    fun _ few none_ => Or.inl (Or.inr (Or.inr ⟨rfl, few, none_⟩))⟩

theorem surviving_supplies (sh : Shape) (K : Nat → Node) (v : Disk) (n : Nat) :
    Supplies (surviving sh K) sh v n :=
  Or.inr ⟨fun b isGiven => isGiven b rfl, fun _ none_ => Or.inl (Or.inl ⟨rfl, none_⟩)⟩

theorem surviving_quiet (rep0 : Rep sh A E0 ∅ none) : Quiet (surviving sh (sh.nodes A E0)) sh.geo A :=
  fun _ _ _ _ com _ _ _ => ⟨A, E0, com, rep0, rfl⟩

theorem surviving_trans (rep0 : Rep sh A E0 ∅ none) (opened : t ≠ none) {p : Pid} :
    Trans (surviving sh (sh.nodes A E0)) sh A t p :=
  ⟨⟨surviving_quiet rep0, fun _ _ _ same => Event.noConfusion same, Or.inl opened⟩,
    fun _ _ _ _ same => Event.noConfusion same⟩

theorem onDisk_eq (io : sh.Rests A v L t m s) (rep : Rep sh v E ∅ none) (ok : sh.Ok)
    (isInode : sh.InodeNum i) : onDisk s i = E i := by
  have below := isInode.iblock_lt
  have after := ok.afterBitmap
  have log := ok.ds_le_log
  rw [onDisk, io.view_eq (Shape.not_inLog (by omega)), rep.disk i isInode (Option.some_ne_none i)]

namespace Alive

theorem iget (alive : Alive sh A t N s) (typed : (N i).type ≠ 0) :
    Sat (surviving sh (sh.nodes A E0)) (fun _ s' => Alive sh A t N s') (Kernel.iget ROOTDEV i s) := by
  obtain ⟨v, E, L, m, io, rep, rfl, c⟩ := alive
  have alloc := alloc_of_node typed
  refine io.iget (fun used => Or.inr (Or.inr ⟨rfl, used⟩))
    (fun j s' some_ isDev isInum io' => ⟨v, E, L, _, io', rep, rfl, c.touch some_ rfl ?_⟩)
    fun j s' unused absent io' => ⟨v, E, L, _, io', rep, rfl, c.change (i := i) (fun _ _ _ => rfl)
      (fun k _ some_ => absent k some_ (c.current k some_).dev) fun _ => ⟨rfl, rfl, alloc, ?_, ?_⟩⟩
  · have cur := c.current j some_
    exact ⟨cur.dev, cur.alloc, cur.copy, cur.locked⟩
  · exact fun never => Bool.noConfusion never
  · exact fun never => Bool.noConfusion never

variable (ok : sh.Ok)

include ok

theorem commitTrans (alive : Alive sh A t N s) :
    ∃ E, Sat (surviving sh N) (fun _ s' => ∃ v, Rep sh v E ∅ none ∧ sh.nodes v E = N ∧ Alive sh v none N s')
      (Kernel.commitTrans s) := by
  obtain ⟨v, E, L, m, io, rep, rfl, c⟩ := alive
  refine ⟨E, (io.commitTrans ok.geo_ok (surviving_quiet rep) (fun y s' _ com x y' _ => ⟨v, E, com, rep, rfl⟩)
    (few_logged io ok)).mono fun _ s' io' => ⟨v, rep, rfl, v, E, ∅, m, io', rep, rfl, c⟩⟩

variable (rep0 : Rep sh A E0 ∅ none)

include rep0

theorem iallocIn {type : Nat} (some_ : type ≠ 0) (small : type < 65536) (opened : t ≠ none) (l : List Nat)
    (inodes : ∀ i ∈ l, sh.InodeNum i) (before : ∀ i, sh.InodeNum i → i ∈ l ∨ (N i).type ≠ 0)
    (alive : Alive sh A t N s) :
    Sat (surviving sh (sh.nodes A E0)) (fun _ s' => ∃ i, sh.InodeNum i ∧ N i = Node.free ∧
      Alive sh A t (upd N i { Node.free with type := type }) s') (Kernel.iallocIn ROOTDEV type l s) := by
  induction l generalizing s with
  | nil =>
    refine Or.inr (Or.inl ⟨rfl, fun i isInode => ?_⟩)
    obtain ⟨v, E, L, m, io, rep, rfl, -⟩ := alive
    have typed := (before i isInode).resolve_left List.not_mem_nil
    rw [onDisk_eq io rep ok isInode]
    exact (alloc_of_node typed).2
  | cons i l ih =>
    obtain ⟨v, E, L, m, io, rep, rfl, c⟩ := alive
    have isInode := inodes i List.mem_cons_self
    have below := isInode.iblock_lt
    have after := ok.afterBitmap
    have log := ok.ds_le_log
    unfold Kernel.iallocIn
    refine io.open_ ok (by omega) fun bp s1 io1 => Sat.step (io1.bdata_eq (upd_same ..)) ?_
    rw [rep.disk i isInode (Option.some_ne_none i)]
    by_cases free : (E i).type = 0
    · have notAlloc : ¬ sh.Alloc E i := fun alloc => alloc.2 free
      rw [if_pos free]
      refine io1.store ok (surviving_trans rep0 opened).toLogs (surviving_fits sh _ _) (upd_same ..)
        (Finset.Subset.refl L) (by rw [Held.count_one]; omega) (by show i / 8 + 2 ≠ 1; omega)
        fun s2 io2 => Sat.call (io2.drop rfl fun s3 io3 => ?_)
      have rep3 := rep.putEmpty ok isInode (d := { Dinode.zeroed with type := type })
        (fun k => if_neg notAlloc) (fun _ => rfl) rfl { Dinode.small_zeroed with type := small }
      have alloc3 : sh.Alloc (upd E i { Dinode.zeroed with type := type }) i :=
        ⟨isInode, by rw [upd_same]; exact some_⟩
      have nodes3 : sh.nodes (upd v (IBLOCK i) (putDinode (v (IBLOCK i)) i { Dinode.zeroed with type := type }))
          (upd E i { Dinode.zeroed with type := type }) =
          upd (sh.nodes v E) i { Node.free with type := type } := by
        refine nodes_upd ?_ fun j ne => rep.putInode_nodes ok isInode _ ne
        rw [nodes_of_alloc alloc3, upd_same, node_blank (fun _ => rfl) rfl]
        rfl
      have c3 : Coherent sh (upd E i { Dinode.zeroed with type := type }) m.icache := by
        refine ⟨fun j some' => ?_, c.once⟩
        have cur := c.current j some'
        exact cur.congr (upd_ne _ _ fun same => notAlloc (same ▸ cur.alloc))
      refine (iget ⟨_, _, _, m, io3, rep3, nodes3, c3⟩ ?_).mono
        fun _ s' alive' => ⟨i, isInode, nodes_of_free notAlloc, alive'⟩
      rw [upd_same]
      exact some_
    · rw [if_neg free]
      refine Sat.call (io1.drop rfl fun s2 io2 => ?_)
      refine ih (fun j member => inodes j (List.mem_cons_of_mem i member)) (fun j isInode' => ?_)
        ⟨v, E, L, m, io2, rep, rfl, c⟩
      rcases before j isInode' with member | typed
      · rcases List.mem_cons.1 member with rfl | later
        · right
          rw [nodes_of_alloc ⟨isInode, free⟩]
          exact free
        · exact Or.inl later
      · exact Or.inr typed

variable (io : sh.Rests A v L t m s) (rep : Rep sh v E ∅ none) (c : Coherent sh E m.icache)

include io rep c

omit rep0 in
theorem ilock {C : KContract} (some_ : 1 ≤ (m.icache ip).ref)
    (free : (m.icache ip).busy = false) :
    Sat C (fun _ s' => Alive sh A t (sh.nodes v E) s') (Kernel.ilock ip s) := by
  have cur := c.current ip some_
  exact (ilock_spec io ok rep cur.alloc ⟨cur.dev, rfl, some_, free, cur.copy⟩).mono fun _ s' io' =>
    ⟨v, E, L, _, io', rep, rfl, c.touch some_ rfl ⟨cur.dev, cur.alloc, fun _ => rfl, fun _ => rfl⟩⟩

omit ok rep0 in
/-- The number of references changes, or the lock is released. -/
theorem setInode (some_ : 1 ≤ (m.icache ip).ref) (g : Inode → Inode)
    (entry : ∀ x, Current sh E x → Current sh E (g x)) (inum : (g (m.icache ip)).inum = (m.icache ip).inum) :
    ∃ s', Kernel.setInode ip g s = .done () s' ∧ Alive sh A t (sh.nodes v E) s' := by
  obtain ⟨s', stored, io'⟩ := io.setInode_eq ip g
  exact ⟨s', stored, v, E, L, _, io', rep, rfl, c.touch some_ inum (entry _ (c.current ip some_))⟩

omit ok rep0 in
theorem locked (held : 1 ≤ (m.icache ip).ref ∧ (m.icache ip).busy = true) :
    Locked sh A v E L t m ip (m.icache ip).inum s :=
  have cur := c.current ip held.1
  ⟨io, rep, cur.alloc, cur.dev, rfl, cur.copy (cur.locked held.2)⟩

/-- **writei**: only the copy of the file's own inode changes. -/
theorem writei {src : List Byte} {off : Nat} (held : 1 ≤ (m.icache ip).ref ∧ (m.icache ip).busy = true)
    (notDev : (sh.nodes v E (m.icache ip).inum).type ≠ T_DEV) (opened : t ≠ none)
    (good : ¬ (sh.nodes v E (m.icache ip).inum).BadRange off src.length) :
    Sat (surviving sh (sh.nodes A E0)) (fun _ s' => ∃ v' E',
      Written sh (m.icache ip).inum off src v E v' E' ∧ Alive sh A t (sh.nodes v' E') s')
      (Kernel.writei ip src off s) := by
  have cur := c.current ip held.1
  refine ((locked io rep c held).writei (q := 0) ok notDev (surviving_trans rep0 opened)
    (surviving_fits sh _ _) (surviving_supplies sh _ _ _) good).mono fun _ s' post => ?_
  obtain ⟨-, v', E', L', f, written, -⟩ := post
  refine ⟨v', E', written, v', E', L', _, f.io, f.rep, rfl, c.change (i := (m.icache ip).inum)
    (fun j ne alloc => dinode_of_node alloc (written.others j ne)) (c.alone held.1)
    fun _ => ⟨rfl, cur.dev, f.alloc, fun _ => rfl, cur.locked⟩⟩

theorem iupdate {major minor nlink : Nat} (held : 1 ≤ (m.icache ip).ref ∧ (m.icache ip).busy = true)
    (opened : t ≠ none) (small : major < 65536 ∧ minor < 65536 ∧ nlink < 65536) :
    Sat (surviving sh (sh.nodes A E0)) (fun _ s' => Alive sh A t (upd (sh.nodes v E) (m.icache ip).inum
      { sh.nodes v E (m.icache ip).inum with major := major, minor := minor, nlink := nlink }) s')
      (InodeCall.act (.iupdate ip major minor nlink) s) := by
  have cur := c.current ip held.1
  obtain ⟨s1, stored, io1⟩ := io.setDinode_eq ip fun d => { d with major := major, minor := minor, nlink := nlink }
  rw [cur.copy (cur.locked held.2)] at io1
  obtain ⟨rep', nodes'⟩ := rep.relabel ok cur.alloc
    (d := { E (m.icache ip).inum with major := major, minor := minor, nlink := nlink }) rfl
    { rep.small (m.icache ip).inum with major := small.1, minor := small.2.1, nlink := small.2.2 }
  refine Sat.call (Sat.step stored (io1.iupdate ok (surviving_trans rep0 opened).toLogs
    (M := insert (IBLOCK (m.icache ip).inum) L) (surviving_fits sh _ _) (Finset.subset_insert _ _)
    (Finset.mem_insert_self _ _) cur.alloc.1 (by rw [Mem.setDinode_icache]; exact cur.dev)
    (by rw [Mem.setDinode_icache]) (by rw [Mem.setDinode_icache]) fun L' s' _ io' => ⟨_, _, L', _, io', rep',
      nodes', c.change (fun j ne _ => upd_ne _ _ ne) (c.alone held.1)
      fun _ => ⟨rfl, cur.dev, ⟨cur.alloc.1, ?_⟩, fun _ => (upd_same ..).symm, cur.locked⟩⟩))
  rw [upd_same]
  exact cur.alloc.2

end Alive

/-- **Every call** does to the files what it is to do, and at every disk write the disk stands for the
files that are committed. -/
theorem Layer.call (layer : Layer sh N0 N s) (ok : sh.Ok) {c : InodeCall} (allowed : c.Allowed sh s) :
    Sat (surviving sh (c.kept N0 N)) (fun r s' => ∃ N', c.Effect sh s N r N' ∧ Layer sh (c.kept N0 N) N' s')
      (c.act s) := by
  obtain ⟨A, E0, t, rep0, rfl, v, E, L, m, io, rep, rfl, co⟩ := layer
  obtain rfl : s.mem = m := io.mem
  obtain rfl : s.log.busy = t := io.owner
  have alive : Alive sh A s.log.busy (sh.nodes v E) s := ⟨v, E, L, _, io, rep, rfl, co⟩
  -- a call that leaves what is committed
  have keeps : ∀ {N' s'}, Alive sh A s.log.busy N' s' → Layer sh (sh.nodes A E0) N' s' := fun alive' =>
    ⟨A, E0, _, rep0, rfl, alive'⟩
  have opened : InodeCall.Writes s → s.log.busy ≠ none := fun is => is ▸ Option.some_ne_none _
  have notDev : ∀ {ip}, InodeCall.Holds s ip → (s.mem.icache ip).d.type ≠ T_DEV →
      (sh.nodes v E (s.mem.icache ip).inum).type ≠ T_DEV := fun held notDev => by
    have f := Alive.locked io rep co held
    rw [f.type_eq, ← f.copy]
    exact notDev
  cases c with
  | sched p =>
    exact ⟨_, rfl, keeps ⟨v, E, L, { s.mem with proc := p }, { io with mem := rfl }, rep, rfl, co⟩⟩
  | beginTrans =>
    have none_ : s.log.busy = none := allowed
    obtain rfl : L = ∅ := io.idle none_
    rw [none_] at io
    obtain ⟨s', returned, io'⟩ := io.beginTrans
    exact Sat.step returned ⟨_, rfl, A, E0, _, rep0, rfl, v, E, ∅, _, io', rep, rfl, co⟩
  | commitTrans =>
    obtain ⟨E', sat⟩ := alive.commitTrans ok
    refine sat.seq fun _ s' post => ?_
    obtain ⟨v', rep', same, alive'⟩ := post
    exact ⟨_, rfl, v', E', _, rep', same, alive'⟩
  | ialloc type =>
    have room : Held.nothing.count + L.card < NBUF := by
      rw [Held.count_nothing, Nat.zero_add]
      exact few_logged io ok
    refine Sat.call (io.readsb ok (fun _ => (Option.some_ne_none 1).symm) (Or.inl room) fun s1 io1 => ?_)
    rw [rep.super]
    refine (Alive.iallocIn ok rep0 allowed.2.1 allowed.2.2 (opened allowed.1) _ (fun i member => ?_)
      (fun i isInode => Or.inl ?_) ⟨v, E, L, _, io1, rep, rfl, co⟩).mono fun _ s' post => ?_
    · obtain ⟨k, inside, rfl⟩ := List.mem_map.1 member
      have := List.mem_range.1 inside
      exact ⟨by omega, by omega⟩
    · have low := isInode.1
      have high := isInode.2
      exact List.mem_map.2 ⟨i - 1, List.mem_range.2 (by omega), by omega⟩
    · obtain ⟨i, isInode, free, alive'⟩ := post
      exact ⟨_, ⟨i, isInode, free, rfl⟩, keeps alive'⟩
  | iget i =>
    have typed : (sh.nodes v E i).type ≠ 0 := by
      have some_ := allowed.2
      rw [onDisk_eq io rep ok allowed.1] at some_
      rw [nodes_of_alloc ⟨allowed.1, some_⟩]
      exact some_
    exact (alive.iget typed).seq fun _ s' alive' => ⟨_, rfl, keeps alive'⟩
  | idup ip =>
    obtain ⟨s', stored, alive'⟩ := Alive.setInode io rep co allowed (fun x => { x with ref := x.ref + 1 })
      (fun x cur => ⟨cur.dev, cur.alloc, cur.copy, cur.locked⟩) rfl
    exact Sat.call (Sat.step stored ⟨_, rfl, keeps alive'⟩)
  | ilock ip =>
    exact (Alive.ilock ok io rep co allowed.1 allowed.2).seq fun _ s' alive' => ⟨_, rfl, keeps alive'⟩
  | iunlock ip =>
    have cur := co.current ip allowed.1
    obtain ⟨s', unlocked, io'⟩ := io.iunlock_eq ip allowed.2 allowed.1
    exact Sat.step unlocked ⟨_, rfl, keeps ⟨v, E, L, _, io', rep, rfl, co.touch allowed.1 rfl
      ⟨cur.dev, cur.alloc, cur.copy, fun never => Bool.noConfusion never⟩⟩⟩
  | iput ip =>
    obtain ⟨s', stored, alive'⟩ := Alive.setInode io rep co allowed.1 (fun x => { x with ref := x.ref - 1 })
      (fun x cur => ⟨cur.dev, cur.alloc, cur.copy, cur.locked⟩) rfl
    have stays : ((s.mem.icache ip).ref == 1 && (s.mem.icache ip).valid && (s.mem.icache ip).d.nlink == 0) =
        false := by
      rw [Bool.eq_false_iff]
      exact fun is => allowed.2 (by simpa [InodeCall.Frees, and_assoc] using is)
    have returned : Kernel.iput ip s = .done () s' := by
      rw [Kernel.iput, Act.bind_apply, io.inode_eq ip, Outcome.done_bind, stays]
      exact stored
    exact Sat.step returned ⟨_, rfl, keeps alive'⟩
  | readi ip off n =>
    exact ((Alive.locked io rep co allowed.1).readi ok (notDev allowed.1 allowed.2)).mono fun r s' post =>
      ⟨_, ⟨post.1, rfl⟩, keeps ⟨v, E, L, _, post.2.io, rep, rfl, co⟩⟩
  | writei ip src off =>
    have notDev := notDev allowed.1 allowed.2.1
    by_cases bad : (sh.nodes v E (s.mem.icache ip).inum).BadRange off src.length
    · refine Sat.step ((Alive.locked io rep co allowed.1).writei_refused notDev bad)
        ⟨sh.nodes v E, ?_, keeps alive⟩
      rw [InodeCall.Effect, if_pos bad]
    · refine (Alive.writei ok rep0 io rep co allowed.1 notDev (opened allowed.2.2) bad).seq fun _ s' post => ?_
      obtain ⟨v', E', written, alive'⟩ := post
      refine ⟨_, ?_, keeps alive'⟩
      rw [InodeCall.Effect, if_neg bad]
      exact ⟨written.node, written.others⟩
  | iupdate ip major minor nlink =>
    exact (Alive.iupdate ok rep0 io rep co allowed.1 (opened allowed.2.1) allowed.2.2).mono
      fun _ s' alive' => ⟨_, rfl, keeps alive'⟩

/-- A machine that comes up from a disk that stands for `K` has the files `K`, all of them committed. -/
theorem Stands.boot {K : Nat → Node} {d : Disk} (stands : Stands sh K d) (ok : sh.Ok) :
    ∃ s, (initlog (bootState d sh.geo.disksize)).leaf = .done () s ∧ Layer sh K K s := by
  obtain ⟨A, E, com, rep, rfl⟩ := stands
  have quiet : Quiet Contract.total sh.geo A := fun _ _ _ _ _ => trivial
  obtain ⟨_, s, returned, io⟩ := (initlog_boot com ok.geo_ok quiet).returns
  have unused : ∀ j, ((bootState d sh.geo.disksize).mem.icache j).ref = 0 := fun j => by
    unfold bootState
    rfl
  refine ⟨s, returned, A, E, none, rep, rfl, A, E, ∅, _, io, rep, rfl, fun j some_ => ?_, fun j _ some_ => ?_⟩
  all_goals
    rw [unused j] at some_
    cases some_

theorem Stands.layer {K : Nat → Node} {d : Disk} (stands : Stands sh K d) (ok : sh.Ok)
    (booted : (initlog (bootState d sh.geo.disksize)).leaf = .done () s) : Layer sh K K s := by
  obtain ⟨s', booted', layer⟩ := stands.boot ok
  rw [booted] at booted'
  cases booted'
  exact layer

theorem Stands.recovering {K : Nat → Node} {d d' : Disk} (stands : Stands sh K d) (ok : sh.Ok)
    (recovering : Recovering sh.geo.disksize d d') : Stands sh K d' := by
  obtain ⟨A, E, com, rep, same⟩ := stands
  exact ⟨A, E, recovering_stands ok.geo_ok com recovering, rep, same⟩

/-- The calls of all processes, one after the other.  A call that would have to sleep is made later
(`Allowed`), so that each is one step. -/
def callStep (s : KState) (c : InodeCall) : Option (KState × List (Event × KState)) :=
  match (c.act s).leaf with
  | .done _ s' => some (s', (c.act s).trace)
  | _ => none

/-- No block of the log has been picked by `balloc`. -/
def LogSpared (sh : Shape) (events : List (Event × KState)) : Prop :=
  ∀ e ∈ events, ∀ b, e.1 = .balloc b → b < sh.log

/-- The calls take the files from `N0`, committed, and `N` to `N0'` and `N'`: each has done what it is
to do. -/
inductive Stored (sh : Shape) : KState → (Nat → Node) → (Nat → Node) → List InodeCall → KState →
    (Nat → Node) → (Nat → Node) → Prop where
  | nil {s : KState} {N0 N : Nat → Node} : Stored sh s N0 N [] s N0 N
  | call {s s' z : KState} {N0 N N' Z0 Z : Nat → Node} {c : InodeCall} {r : Option (List Byte)}
      {ops : List InodeCall} (returned : (c.act s).leaf = .done r s')
      (effect : c.Effect sh s N r N') (rest : Stored sh s' (c.kept N0 N) N' ops z Z0 Z) :
      Stored sh s N0 N (c :: ops) z Z0 Z

theorem Layer.run (ok : sh.Ok) (ops : List InodeCall) {z : KState} {events : List (Event × KState)}
    (layer : Layer sh N0 N s) (meets : Machine.Meets callStep (fun s c => c.Allowed sh s) s ops)
    (ran : Machine.run callStep s ops = some (z, events)) (spared : LogSpared sh events) :
    ∃ Z0 Z, Stored sh s N0 N ops z Z0 Z ∧ Layer sh Z0 Z z := by
  induction ops generalizing s N0 N events with
  | nil =>
    obtain ⟨rfl, -⟩ := Prod.mk.injEq .. ▸ Option.some.inj ran
    exact ⟨N0, N, .nil, layer⟩
  | cons c ops ih =>
    obtain ⟨s', first, rest, stepped, ranRest, rfl⟩ := Machine.run_cons ran
    have done_ := layer.call ok meets.1
    have later := meets.2 s' first stepped
    unfold callStep at stepped
    split at stepped
    case h_2 => cases stepped
    case h_1 r s1 returned =>
      obtain ⟨rfl, rfl⟩ := Prod.mk.injEq .. ▸ Option.some.inj stepped
      have post := done_.leaf fun e member => spared e (List.mem_append_left _ member)
      rw [returned] at post
      obtain ⟨N', effect, layer'⟩ := post
      obtain ⟨Z0, Z, stored, end_⟩ := ih layer' later ranRest fun e member =>
        spared e (List.mem_append_right _ member)
      exact ⟨Z0, Z, .call returned effect stored, end_⟩

/-- **The inode layer is a store of files that survives crashes.**  Boot from a disk that stands for the
files `K`, and let processes make calls.  The files are those the calls made of `K`.  The next call does
what it is to do or stops for want of space, and never sleeps.  Stop the machine at one of its disk
writes, and any number of recoveries on the way: what comes up has exactly the files committed last. -/
theorem inodeLayer_crash_consistent (ok : sh.Ok) {K : Nat → Node} {d : Disk} (stands : Stands sh K d)
    {ops : List InodeCall} {s0 : KState} {events : List (Event × KState)}
    (booted : (initlog (bootState d sh.geo.disksize)).leaf = .done () s0)
    (meets : Machine.Meets callStep (fun s c => c.Allowed sh s) s0 ops)
    (ran : Machine.run callStep s0 ops = some (s, events)) (spared : LogSpared sh events) :
    ∃ N0 N, Stored sh s0 K K ops s N0 N ∧ ∀ c : InodeCall, c.Allowed sh s →
      Sat (surviving sh (c.kept N0 N)) (fun r s' => ∃ N', c.Effect sh s N r N' ∧
        Layer sh (c.kept N0 N) N' s') (c.act s) ∧
      ∀ before x y s1 after d', (c.act s).trace = before ++ (.write x y, s1) :: after →
        LogSpared sh before → Recovering sh.geo.disksize s1.bio.disk d' →
        ∃ s2, (initlog (bootState d' sh.geo.disksize)).leaf = .done () s2 ∧
          Layer sh (c.kept N0 N) (c.kept N0 N) s2 := by
  have layer := stands.layer ok booted
  obtain ⟨N0, N, stored, layer'⟩ := layer.run ok ops meets ran spared
  refine ⟨N0, N, stored, fun c allowed => ⟨layer'.call ok allowed,
    fun before x y s1 after d' split spared' recovering => ?_⟩⟩
  have shown := (layer'.call ok allowed).shows split spared'
  exact ((shown x y rfl).recovering ok recovering).boot ok

/-- What a check of the inode cache and of the disk would look for. -/
structure Clean (sh : Shape) (s : KState) : Prop where
  once : ∀ j k, 1 ≤ (s.mem.icache j).ref → 1 ≤ (s.mem.icache k).ref →
    (s.mem.icache j).inum = (s.mem.icache k).inum → j = k
  live : ∀ j, 1 ≤ (s.mem.icache j).ref → sh.Alloc (onDisk s) (s.mem.icache j).inum
  copy : ∀ j, 1 ≤ (s.mem.icache j).ref → (s.mem.icache j).valid = true →
    (s.mem.icache j).d = onDisk s (s.mem.icache j).inum
  apart : ∀ p q, sh.place s.bio.view (onDisk s) p ≠ 0 →
    sh.place s.bio.view (onDisk s) p = sh.place s.bio.view (onDisk s) q → p = q
  marked : ∀ b, sh.InData b →
    ((s.bio.view sh.bitmap).bit b = true ↔ ∃ p, sh.place s.bio.view (onDisk s) p = b)

theorem Layer.clean (layer : Layer sh N0 N s) (ok : sh.Ok) : Clean sh s := by
  obtain ⟨A, E0, t, -, -, v, E, L, m, io, rep, -, c⟩ := layer
  obtain rfl : s.mem = m := io.mem
  have inodes : ∀ i, sh.InodeNum i → onDisk s i = E i := fun i => onDisk_eq io rep ok
  have allocs : ∀ i, sh.Alloc (onDisk s) i ↔ sh.Alloc E i := fun i =>
    and_congr_right fun isInode => by rw [inodes i isInode]
  have bitmap : s.bio.view sh.bitmap = v sh.bitmap := by
    have after := ok.afterBitmap
    have log := ok.ds_le_log
    exact io.view_eq (Shape.not_inLog (by omega))
  have places : sh.place s.bio.view (onDisk s) = sh.place v E := by
    funext p
    by_cases alloc : sh.Alloc E p.1
    · have slots : (E p.1).slot s.bio.view = (E p.1).slot v :=
        slot_congr fun some_ => io.view_eq (Shape.not_inLog (rep.indirect_inData alloc some_).1.2)
      rw [Shape.place, Shape.place, if_pos alloc, if_pos ((allocs p.1).2 alloc), inodes _ alloc.1, slots]
    · rw [Shape.place, Shape.place, if_neg alloc, if_neg fun alloc' => alloc ((allocs p.1).1 alloc')]
  refine ⟨c.once, fun j some_ => (allocs _).2 (c.current j some_).alloc, fun j some_ valid => ?_, ?_,
    fun b inData => ?_⟩
  · have cur := c.current j some_
    rw [inodes _ cur.alloc.1]
    exact cur.copy valid
  · rw [places]
    exact rep.owns.once
  · rw [places, bitmap]
    constructor
    · intro marked
      exact (rep.owns.onto b ⟨inData, marked⟩).resolve_left fun never => never
    · rintro ⟨p, rfl⟩
      have some_ : sh.place v E p ≠ 0 := by
        have low := inData.1
        have after := ok.afterBitmap
        omega
      exact (rep.used_of_place some_).1.2

/-- **A check finds nothing**, after any run: the inode cache is coherent with the disk, no block is in
two places of the same file or of two files, and exactly the blocks that a file has are marked. -/
theorem inodeLayer_clean (ok : sh.Ok) {K : Nat → Node} {d : Disk} (stands : Stands sh K d)
    {ops : List InodeCall} {s0 : KState} {events : List (Event × KState)}
    (booted : (initlog (bootState d sh.geo.disksize)).leaf = .done () s0)
    (meets : Machine.Meets callStep (fun s c => c.Allowed sh s) s0 ops)
    (ran : Machine.run callStep s0 ops = some (s, events)) (spared : LogSpared sh events) : Clean sh s := by
  have layer := stands.layer ok booted
  obtain ⟨N0, N, -, layer'⟩ := layer.run ok ops meets ran spared
  exact layer'.clean ok

end Calls

/-! ## A session -/

namespace InodeCall

instance (sh : Shape) (s : KState) (c : InodeCall) : Decidable (c.Allowed sh s) := by
  cases c <;> dsimp only [Allowed, Holds, Writes, Frees, Shape.InodeNum] <;> infer_instance

end InodeCall

def sparesLog (sh : Shape) (events : List (Event × KState)) : Bool :=
  events.all fun e => match e.1 with
    | .balloc b => decide (b < sh.log)
    | _ => true

theorem logSpared_of_spares {sh : Shape} {events : List (Event × KState)}
    (spares : sparesLog sh events = true) : LogSpared sh events := by
  intro e member b isBalloc
  have spared := List.all_eq_true.1 spares e member
  rw [isBalloc] at spared
  exact of_decide_eq_true spared

/-- A process opens a transaction and writes to inode 2. -/
def hiSession : List InodeCall :=
  [.sched 1, .beginTrans, .iget 2, .ilock 0, .writei 0 [104, 105] 0]

/-- The session on the image with one empty file, if its end passes a check. -/
theorem oneFile_session (check : KState → Bool)
    (works : ((initlog (bootState oneFileDisk mkfsShape.geo.disksize)).passes fun _ s0 =>
      decide (Machine.Meets callStep (fun s c => c.Allowed mkfsShape s) s0 hiSession) &&
      (Machine.run callStep s0 hiSession).any fun r => sparesLog mkfsShape r.2 && check r.1) = true) :
    Stands mkfsShape oneFileNodes oneFileDisk ∧
      ∃ s0 s events, (initlog (bootState oneFileDisk mkfsShape.geo.disksize)).leaf = .done () s0 ∧
        Machine.Meets callStep (fun s c => c.Allowed mkfsShape s) s0 hiSession ∧
        Machine.run callStep s0 hiSession = some (s, events) ∧ LogSpared mkfsShape events ∧
        check s = true := by
  have super : mkfsShape.geo.Super (oneFileDisk 1) := by
    rw [oneFileDisk, upd_ne _ _ (by decide)]
    decide +kernel
  have clean : headCount (oneFileDisk mkfsShape.geo.start) = 0 := by
    rw [oneFileDisk, upd_ne _ _ (by decide)]
    decide +kernel
  obtain ⟨_, s0, booted, works⟩ := Outcome.exists_of_passes works
  rw [Bool.and_eq_true, decide_eq_true_eq, Option.any_eq_true] at works
  obtain ⟨meets, ⟨s, events⟩, ran, checked⟩ := works
  rw [Bool.and_eq_true] at checked
  exact ⟨⟨oneFileDisk, oneFileInodes, committed_of_clean super clean, rep_oneFile, rfl⟩, s0, s, events,
    booted, meets, ran, logSpared_of_spares checked.1, checked.2⟩

/-- The disk when the first recovery from `d` is stopped after two writes. -/
def stoppedTwice (d : Disk) : Disk :=
  diskAfter (bootState d mkfsShape.geo.disksize)
    ((initlog (bootState d mkfsShape.geo.disksize)).trace.take 2)

/-- The machine stops when `commit_trans` has written the header, and again during recovery: the two
bytes are there when it comes up. -/
def survivesCommit (s : KState) : Bool :=
  decide (InodeCall.Allowed mkfsShape s .commitTrans) &&
  match (InodeCall.commitTrans.act s).trace with
  | (.write _ _, s1) :: _ =>
    (initlog (bootState (stoppedTwice s1.bio.disk) mkfsShape.geo.disksize)).passes fun _ s2 =>
      (onDisk s2 2).size == 2
  | _ => false

theorem inodeLayer_crash_consistent_oneFile :
    ∃ s0 s N0 N x y s1 after s2,
      (initlog (bootState oneFileDisk mkfsShape.geo.disksize)).leaf = .done () s0 ∧
      Stored mkfsShape s0 oneFileNodes oneFileNodes hiSession s N0 N ∧
      (InodeCall.commitTrans.act s).trace = (.write x y, s1) :: after ∧
      (initlog (bootState (stoppedTwice s1.bio.disk) mkfsShape.geo.disksize)).leaf = .done () s2 ∧
      Layer mkfsShape N N s2 ∧ (onDisk s2 2).size = 2 := by
  obtain ⟨stands, s0, s, events, booted, meets, ran, spared, survives⟩ :=
    oneFile_session survivesCommit (by decide +kernel)
  obtain ⟨N0, N, stored, next⟩ := inodeLayer_crash_consistent mkfsShape_ok stands booted meets ran spared
  rw [survivesCommit, Bool.and_eq_true, decide_eq_true_eq] at survives
  obtain ⟨allowed, survives⟩ := survives
  split at survives
  case h_2 => cases survives
  case h_1 x y s1 after isTrace =>
    obtain ⟨s2, recovered, layer⟩ := (next .commitTrans allowed).2 [] x y s1 after _ isTrace
      (fun _ never => absurd never List.not_mem_nil)
      (.stopped .start (List.take_prefix 2 (initlog (bootState s1.bio.disk _)).trace))
    obtain ⟨_, s3, recovered', size⟩ := Outcome.exists_of_passes survives
    obtain rfl : s3 = s2 := by
      rw [stoppedTwice, recovered] at recovered'
      cases recovered'
      rfl
    exact ⟨s0, s, N0, N, x, y, s1, after, s3, booted, stored, isTrace, recovered, layer, by simpa using size⟩

/-- After the write a block is in use, and the inode is cached. -/
theorem inodeLayer_clean_oneFile :
    ∃ s0 s events, (initlog (bootState oneFileDisk mkfsShape.geo.disksize)).leaf = .done () s0 ∧
      Machine.run callStep s0 hiSession = some (s, events) ∧ Clean mkfsShape s ∧
      (s.mem.icache 0).ref = 1 ∧ (s.mem.icache 0).valid = true ∧ (onDisk s 2).addrs 0 = 29 ∧
      (s.bio.view mkfsShape.bitmap).bit 29 = true := by
  obtain ⟨stands, s0, s, events, booted, meets, ran, spared, checked⟩ := oneFile_session
    (fun s => decide ((s.mem.icache 0).ref = 1) && (s.mem.icache 0).valid &&
      decide ((onDisk s 2).addrs 0 = 29) && (s.bio.view mkfsShape.bitmap).bit 29) (by decide +kernel)
  simp only [Bool.and_eq_true, decide_eq_true_eq] at checked
  obtain ⟨⟨⟨referenced, valid⟩, block⟩, marked⟩ := checked
  exact ⟨s0, s, events, booted, ran, inodeLayer_clean mkfsShape_ok stands booted meets ran spared,
    referenced, valid, block, marked⟩

end Xv6Rpi.Kernel
