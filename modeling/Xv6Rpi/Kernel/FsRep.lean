/-
# Kernel.FsRep -- what the blocks of a file system stand for

`Shape` is a file system's geometry.  A `Node` is what an inode stands for: its
metadata, the blocks it names (`addr k` for file block `k`, `addr MAXFILE` for the
indirect block) and its bytes.  `Rep sh v E Q x` relates block contents `v` to inodes
`E`: every block of the data area that the bitmap marks is named by exactly one inode
in exactly one place, or is one of the loose blocks `Q` of an operation under way; no
file has an unallocated block below its size; and the inode on disk is the one of `E`,
except for the inode `x` an operation is working on.
-/
import Xv6Rpi.Kernel.LogCommit
import Xv6Rpi.Kernel.Fs
import Xv6Rpi.Theory.Owner

namespace Xv6Rpi.Kernel

open Theory

set_option autoImplicit false

/-! ## Inodes on disk -/

/-- The fields fit their types. -/
structure Dinode.Small (d : Dinode) : Prop where
  type : d.type < 65536
  major : d.major < 65536
  minor : d.minor < 65536
  nlink : d.nlink < 65536
  size : d.size < 4294967296
  addrs : ∀ k, d.addrs k < 4294967296

theorem Dinode.ext_fields {d e : Dinode} (type : d.type = e.type) (major : d.major = e.major)
    (minor : d.minor = e.minor) (nlink : d.nlink = e.nlink) (size : d.size = e.size)
    (addrs : d.addrs = e.addrs) : d = e := by
  cases d
  cases e
  simp_all

theorem Dinode.small_zeroed : Dinode.zeroed.Small := by
  constructor <;> simp [Dinode.zeroed]

section Codec

variable {b : Block} {i j : Nat} {d : Dinode}

theorem get_putDinode {o : Nat} (inside : o < 64) :
    (putDinode b i d).get (64 * (i % IPB) + o) = d.byte o := by
  have slot : i % 8 < 8 := Nat.mod_lt i (by decide)
  have place : 64 * (i % IPB) + o < 512 := by
    show 64 * (i % 8) + o < 512
    omega
  unfold putDinode
  rw [Bytes.get_paint_of_mem (Nat.le_add_right _ _) (by omega) place, Nat.add_sub_cancel_left]

/-- An inode is read back as it was stored. -/
theorem ofBlock_putDinode (small : d.Small) : Dinode.ofBlock (putDinode b i d) i = d := by
  apply Dinode.ext_fields
  · refine Bytes.u16_of_bytes small.type fun k hk => ?_
    rw [get_putDinode (by omega), Dinode.byte, if_pos (by omega)]
  · refine Bytes.u16_of_bytes small.major fun k hk => ?_
    rw [Nat.add_assoc, get_putDinode (by omega), Dinode.byte, if_neg (by omega), if_pos (by omega),
      Nat.add_sub_cancel_left]
  · refine Bytes.u16_of_bytes small.minor fun k hk => ?_
    rw [Nat.add_assoc, get_putDinode (by omega), Dinode.byte, if_neg (by omega), if_neg (by omega),
      if_pos (by omega), Nat.add_sub_cancel_left]
  · refine Bytes.u16_of_bytes small.nlink fun k hk => ?_
    rw [Nat.add_assoc, get_putDinode (by omega), Dinode.byte, if_neg (by omega), if_neg (by omega),
      if_neg (by omega), if_pos (by omega), Nat.add_sub_cancel_left]
  · refine Bytes.u32_of_bytes small.size fun k hk => ?_
    rw [Nat.add_assoc, get_putDinode (by omega), Dinode.byte, if_neg (by omega), if_neg (by omega),
      if_neg (by omega), if_neg (by omega), if_pos (by omega), Nat.add_sub_cancel_left]
  · funext a
    have bound : a.val < 13 := a.isLt
    refine Bytes.u32_of_bytes (small.addrs a) fun k hk => ?_
    have place : 64 * (i % IPB) + 12 + 4 * a.val + k = 64 * (i % IPB) + (12 + 4 * a.val + k) := by
      omega
    have index : (12 + 4 * a.val + k - 12) / 4 = a.val := by omega
    have rest : (12 + 4 * a.val + k - 12) % 4 = k := by omega
    rw [place, get_putDinode (by omega), Dinode.byte, if_neg (by omega), if_neg (by omega),
      if_neg (by omega), if_neg (by omega), if_neg (by omega),
      dif_pos (by show _ < 13; omega), rest]
    congr 2
    exact Fin.ext index

/-- The other inodes of the block stay. -/
theorem ofBlock_putDinode_of_ne (ne : j % IPB ≠ i % IPB) :
    Dinode.ofBlock (putDinode b i d) j = Dinode.ofBlock b j := by
  have ne : j % 8 ≠ i % 8 := ne
  have same : ∀ o < 64, (putDinode b i d).get (64 * (j % IPB) + o) = b.get (64 * (j % IPB) + o) := by
    intro o inside
    unfold putDinode
    apply Bytes.get_paint_of_not_mem
    show 64 * (j % 8) + o < 64 * (i % 8) ∨ 64 * (i % 8) + 64 ≤ 64 * (j % 8) + o
    omega
  apply Dinode.ext_fields
  · exact Bytes.u16_congr fun k hk => same k (by omega)
  · exact Bytes.u16_congr fun k hk => by simpa only [Nat.add_assoc] using same (2 + k) (by omega)
  · exact Bytes.u16_congr fun k hk => by simpa only [Nat.add_assoc] using same (4 + k) (by omega)
  · exact Bytes.u16_congr fun k hk => by simpa only [Nat.add_assoc] using same (6 + k) (by omega)
  · exact Bytes.u32_congr fun k hk => by simpa only [Nat.add_assoc] using same (8 + k) (by omega)
  · funext a
    have bound : a.val < 13 := a.isLt
    exact Bytes.u32_congr fun k hk => by
      simpa only [Nat.add_assoc] using same (12 + (4 * a.val + k)) (by omega)

/-- The inodes on disk, after one has been stored. -/
theorem ofBlock_upd_putDinode {v : Disk} (small : d.Small) :
    Dinode.ofBlock (upd v (IBLOCK i) (putDinode (v (IBLOCK i)) i d) (IBLOCK j)) j =
      if j = i then d else Dinode.ofBlock (v (IBLOCK j)) j := by
  by_cases same : j = i
  · rw [if_pos same, same, upd_same]
    exact ofBlock_putDinode small
  · rw [if_neg same]
    by_cases sameBlock : IBLOCK j = IBLOCK i
    · rw [sameBlock, upd_same]
      refine ofBlock_putDinode_of_ne ?_
      have sameBlock : j / 8 + 2 = i / 8 + 2 := sameBlock
      show j % 8 ≠ i % 8
      omega
    · rw [upd_ne _ _ sameBlock]

end Codec

/-! ## Geometry -/

/-- A file system: its superblock, its first data block, and the disk it is on. -/
structure Shape where
  sb : Superblock
  ds : Nat
  disksize : Nat

namespace Shape

/-- The one bitmap block. -/
def bitmap (sh : Shape) : Nat := sh.sb.ninodes / IPB + 3

/-- The first block of the log, right after the data area. -/
def log (sh : Shape) : Nat := sh.sb.size - sh.sb.nlog

def geo (sh : Shape) : Geo := ⟨sh.log, sh.sb.nlog, sh.disksize⟩

/-- The free bitmap occupies one block, the log is as `mkfs` lays it out. -/
structure Ok (sh : Shape) : Prop where
  bits : sh.sb.size ≤ 4096
  nlog : sh.sb.nlog = 10
  afterBitmap : sh.bitmap < sh.ds
  data : sh.ds + 10 ≤ sh.sb.size
  onDisk : sh.sb.size ≤ sh.disksize
  diskInt : sh.disksize < 2147483648
  someInode : 1 < sh.sb.ninodes

def InData (sh : Shape) (b : Nat) : Prop := sh.ds ≤ b ∧ b < sh.log

/-- The inode numbers in use by the format. -/
def InodeNum (sh : Shape) (i : Nat) : Prop := 1 ≤ i ∧ i < sh.sb.ninodes

variable {sh : Shape}

theorem Ok.log_eq (ok : sh.Ok) : sh.log + 10 = sh.sb.size := by
  have := ok.data
  have := ok.nlog
  unfold log
  omega

theorem Ok.geo_ok (ok : sh.Ok) : sh.geo.Ok := by
  have log := ok.log_eq
  have nlog := ok.nlog
  have onDisk := ok.onDisk
  have diskInt := ok.diskInt
  have data := ok.data
  have after : sh.sb.ninodes / 8 + 3 < sh.ds := ok.afterBitmap
  constructor
  · show 1 < sh.log
    omega
  · show 0 < sh.sb.nlog
    omega
  · show sh.log + sh.sb.nlog ≤ sh.disksize
    omega
  · exact diskInt

theorem not_inLog {b : Nat} (below : b < sh.log) : ¬ sh.geo.InLog b :=
  fun inLog => absurd inLog.1 (Nat.not_le.2 below)

theorem InodeNum.iblock_lt {i : Nat} (isInode : sh.InodeNum i) : IBLOCK i < sh.bitmap := by
  have := isInode.2
  show i / 8 + 2 < sh.sb.ninodes / 8 + 3
  omega

theorem Ok.ds_le_log (ok : sh.Ok) : sh.ds ≤ sh.log := by
  have := ok.log_eq
  have := ok.data
  omega

theorem Ok.bit_lt (ok : sh.Ok) {b : Nat} (inData : sh.InData b) : b < 8 * 512 := by
  have := ok.log_eq
  have := ok.bits
  have := inData.2
  omega

theorem Ok.onDisk_of_lt (ok : sh.Ok) {b : Nat} (below : b < sh.log) : b < sh.geo.disksize := by
  have := ok.geo_ok.onDisk
  have : sh.geo.start = sh.log := rfl
  omega

/-- `BBLOCK` is the bitmap block for every block of the file system. -/
theorem Ok.bblock (ok : sh.Ok) {b : Nat} (inside : b < sh.sb.size) :
    BBLOCK b sh.sb.ninodes = sh.bitmap := by
  have := ok.bits
  show b / 4096 + sh.sb.ninodes / 8 + 3 = sh.sb.ninodes / 8 + 3
  omega

end Shape

/-! ## Nodes -/

/-- What an inode stands for. -/
structure Node where
  type : Nat
  major : Nat
  minor : Nat
  nlink : Nat
  size : Nat
  addr : Nat → Nat
  data : Nat → Byte

/-- A free inode. -/
def Node.free : Node := ⟨0, 0, 0, 0, 0, fun _ => 0, fun _ => 0⟩

/-- The block number in place `k` of an inode: file block `k`, or the indirect block. -/
def Dinode.slot (d : Dinode) (v : Disk) (k : Nat) : Nat :=
  if h : k < NDIRECT then d.addrs ⟨k, Nat.lt_succ_of_lt h⟩
  else if k < MAXFILE then
    if d.addrs INDIRECT = 0 then 0 else (v (d.addrs INDIRECT)).u32 (4 * (k - NDIRECT))
  else if k = MAXFILE then d.addrs INDIRECT
  else 0

def Dinode.node (d : Dinode) (v : Disk) : Node where
  type := d.type
  major := d.major
  minor := d.minor
  nlink := d.nlink
  size := d.size
  addr := d.slot v
  data o := if o < d.size then (v (d.slot v (o / BSIZE))).get (o % BSIZE) else 0

/-- Inode `i` is allocated. -/
def Shape.Alloc (sh : Shape) (E : Inodes) (i : Nat) : Prop := sh.InodeNum i ∧ (E i).type ≠ 0

instance (sh : Shape) (E : Inodes) (i : Nat) : Decidable (sh.Alloc E i) :=
  inferInstanceAs (Decidable ((1 ≤ i ∧ i < sh.sb.ninodes) ∧ (E i).type ≠ 0))

/-- What all inodes stand for. -/
def Shape.nodes (sh : Shape) (v : Disk) (E : Inodes) (i : Nat) : Node :=
  if sh.Alloc E i then (E i).node v else Node.free

/-- The block number in place `p = (inode, slot)`. -/
def Shape.place (sh : Shape) (v : Disk) (E : Inodes) (p : Nat × Nat) : Nat :=
  if sh.Alloc E p.1 then (E p.1).slot v p.2 else 0

/-- The blocks of the data area that the bitmap marks. -/
def Shape.used (sh : Shape) (v : Disk) : Set Nat :=
  {b | sh.InData b ∧ (v sh.bitmap).bit b = true}

structure Rep (sh : Shape) (v : Disk) (E : Inodes) (Q : Set Nat) (x : Option Nat) :
    Prop where
  super : Superblock.ofBlock (v 1) = sh.sb
  metaBits : ∀ b < sh.ds, (v sh.bitmap).bit b = true
  owns : Owns (sh.place v E) (sh.used v) Q
  filled : ∀ i, sh.Alloc E i → ∀ k, k * BSIZE < (E i).size → (E i).slot v k ≠ 0
  bounded : ∀ i, sh.Alloc E i → (E i).size ≤ MAXFILE * BSIZE
  small : ∀ i, (E i).Small
  disk : ∀ i, sh.InodeNum i → some i ≠ x → Dinode.ofBlock (v (IBLOCK i)) i = E i

section Slots

variable {sh : Shape} {v v' : Disk} {E E' : Inodes} {Q : Set Nat} {x : Option Nat}
  {d : Dinode} {i k : Nat}

theorem slot_direct (h : k < NDIRECT) : d.slot v k = d.addrs ⟨k, Nat.lt_succ_of_lt h⟩ := by
  rw [Dinode.slot, dif_pos h]

theorem slot_indirect : d.slot v MAXFILE = d.addrs INDIRECT := by
  rw [Dinode.slot, dif_neg (by decide), if_neg (by decide), if_pos rfl]

theorem slot_through (low : NDIRECT ≤ k) (high : k < MAXFILE) (some_ : d.addrs INDIRECT ≠ 0) :
    d.slot v k = (v (d.addrs INDIRECT)).u32 (4 * (k - NDIRECT)) := by
  rw [Dinode.slot, dif_neg (by omega), if_pos high, if_neg some_]

theorem slot_of_none (low : NDIRECT ≤ k) (none_ : d.addrs INDIRECT = 0) : d.slot v k = 0 := by
  rw [Dinode.slot, dif_neg (by omega), none_]
  simp only [if_true, ite_self]

theorem slot_of_large (large : MAXFILE < k) : d.slot v k = 0 := by
  have large : 140 < k := large
  rw [Dinode.slot, dif_neg (by show ¬ k < 12; omega), if_neg (by show ¬ k < 140; omega),
    if_neg (by show ¬ k = 140; omega)]

/-- The slots depend on the indirect block only. -/
theorem slot_congr (same : d.addrs INDIRECT ≠ 0 → v' (d.addrs INDIRECT) = v (d.addrs INDIRECT)) :
    d.slot v' = d.slot v := by
  funext k
  unfold Dinode.slot
  by_cases none_ : d.addrs INDIRECT = 0
  · simp only [none_, if_true]
  · simp only [none_, if_false, same none_]

theorem place_of_alloc (alloc : sh.Alloc E i) : sh.place v E (i, k) = (E i).slot v k := if_pos alloc

theorem place_indirect (alloc : sh.Alloc E i) : sh.place v E (i, MAXFILE) = (E i).addrs INDIRECT := by
  rw [place_of_alloc alloc, slot_indirect]

theorem slots_congr (alloc : sh.Alloc E i) (same : sh.place v E (i, MAXFILE) ≠ 0 →
      v' (sh.place v E (i, MAXFILE)) = v (sh.place v E (i, MAXFILE))) :
    (E i).slot v' = (E i).slot v := by
  rw [place_indirect alloc] at same
  exact slot_congr same

theorem nodes_of_alloc (alloc : sh.Alloc E i) : sh.nodes v E i = (E i).node v := if_pos alloc

theorem nodes_of_free (free : ¬ sh.Alloc E i) : sh.nodes v E i = Node.free := if_neg free

end Slots

/-! ## Block changes

What one changed block does to the files: nothing, unless a file owns it. -/

namespace Rep

variable {sh : Shape} {v v' : Disk} {E : Inodes} {Q : Set Nat} {x : Option Nat}
  {b i k : Nat}

/-- A block a file names lies in the data area and is marked. -/
theorem used_of_place (rep : Rep sh v E Q x) {p : Nat × Nat} (some_ : sh.place v E p ≠ 0) :
    sh.place v E p ∈ sh.used v ∧ sh.place v E p ∉ Q := rep.owns.named p some_

theorem slot_inData (rep : Rep sh v E Q x) (alloc : sh.Alloc E i) (some_ : (E i).slot v k ≠ 0) :
    sh.InData ((E i).slot v k) ∧ (v sh.bitmap).bit ((E i).slot v k) = true := by
  rw [← place_of_alloc alloc] at some_ ⊢
  exact (rep.used_of_place some_).1

theorem indirect_inData (rep : Rep sh v E Q x) (alloc : sh.Alloc E i) (some_ : (E i).addrs INDIRECT ≠ 0) :
    sh.InData ((E i).addrs INDIRECT) ∧ (v sh.bitmap).bit ((E i).addrs INDIRECT) = true := by
  rw [← slot_indirect (v := v)] at some_ ⊢
  exact rep.slot_inData alloc some_

/-- No block is in two places of a file. -/
theorem slot_inj (rep : Rep sh v E Q x) (alloc : sh.Alloc E i) {l : Nat} (some_ : (E i).slot v k ≠ 0)
    (same : (E i).slot v k = (E i).slot v l) : k = l :=
  congrArg Prod.snd (rep.owns.once (i, k) (i, l) (by rwa [place_of_alloc alloc])
    (by rwa [place_of_alloc alloc, place_of_alloc alloc]))

/-- A file whose inode and blocks stay as they are. -/
theorem nodes_congr (rep : Rep sh v E Q x) {E' : Inodes} {j : Nat} (same : E' j = E j)
    (slots : sh.Alloc E j → (E j).slot v' = (E j).slot v)
    (blocks : ∀ k, sh.place v E (j, k) ≠ 0 → v' (sh.place v E (j, k)) = v (sh.place v E (j, k))) :
    sh.nodes v' E' j = sh.nodes v E j := by
  by_cases alloc : sh.Alloc E j
  · have alloc' : sh.Alloc E' j := ⟨alloc.1, by rw [same]; exact alloc.2⟩
    rw [nodes_of_alloc alloc, nodes_of_alloc alloc', same, Dinode.node, Dinode.node, slots alloc]
    congr 1
    funext o
    split
    case isFalse => rfl
    case isTrue inside =>
      have filled := rep.filled j alloc (o / BSIZE)
        (lt_of_le_of_lt (Nat.div_mul_le_self o BSIZE) inside)
      rw [← place_of_alloc alloc] at filled ⊢
      rw [blocks _ filled]
  · have free : ¬ sh.Alloc E' j := fun alloc' => alloc ⟨alloc'.1, by rw [← same]; exact alloc'.2⟩
    rw [nodes_of_free alloc, nodes_of_free free]

/-- The files depend on the blocks they name only. -/
theorem files_congr (rep : Rep sh v E Q x)
    (same : ∀ p, sh.place v E p ≠ 0 → v' (sh.place v E p) = v (sh.place v E p)) :
    (∀ i, sh.Alloc E i → (E i).slot v' = (E i).slot v) ∧ sh.place v' E = sh.place v E ∧
      sh.nodes v' E = sh.nodes v E := by
  have slots : ∀ i, sh.Alloc E i → (E i).slot v' = (E i).slot v := fun i alloc =>
    slots_congr alloc (same _)
  refine ⟨slots, ?_, funext fun i => rep.nodes_congr rfl (slots i) fun k => same (i, k)⟩
  funext p
  unfold Shape.place
  split
  case isTrue alloc => rw [slots p.1 alloc]
  case isFalse => rfl

/-- A change that no file and no metadata sees. -/
theorem unseen (rep : Rep sh v E Q x)
    (same : ∀ p, sh.place v E p ≠ 0 → v' (sh.place v E p) = v (sh.place v E p))
    (super : v' 1 = v 1) (bitmap : v' sh.bitmap = v sh.bitmap)
    (inodes : ∀ i, sh.InodeNum i → v' (IBLOCK i) = v (IBLOCK i)) :
    Rep sh v' E Q x ∧ sh.nodes v' E = sh.nodes v E := by
  obtain ⟨slots, place, nodes⟩ := rep.files_congr same
  have used : sh.used v' = sh.used v := by
    unfold Shape.used
    rw [bitmap]
  refine ⟨⟨?_, ?_, ?_, ?_, rep.bounded, rep.small, ?_⟩, nodes⟩
  · rw [super]
    exact rep.super
  · rw [bitmap]
    exact rep.metaBits
  · rw [place, used]
    exact rep.owns
  · intro i alloc
    rw [slots i alloc]
    exact rep.filled i alloc
  · intro i isInode ne
    rw [inodes i isInode]
    exact rep.disk i isInode ne

/-- A new bitmap. -/
theorem rebit (rep : Rep sh v E Q x) (ok : sh.Ok) {d : Block} {Q' : Set Nat}
    (metaBits : ∀ b < sh.ds, d.bit b = true)
    (owns : Owns (sh.place v E) {b | sh.InData b ∧ d.bit b = true} Q') :
    Rep sh (upd v sh.bitmap d) E Q' x ∧ sh.nodes (upd v sh.bitmap d) E = sh.nodes v E := by
  have after := ok.afterBitmap
  have same : ∀ p, sh.place v E p ≠ 0 →
      upd v sh.bitmap d (sh.place v E p) = v (sh.place v E p) := by
    intro p some_
    have low := (rep.used_of_place some_).1.1.1
    exact upd_ne _ _ (by omega)
  obtain ⟨slots, place, nodes⟩ := rep.files_congr same
  refine ⟨⟨?_, ?_, ?_, ?_, rep.bounded, rep.small, ?_⟩, nodes⟩
  · rw [upd_ne]
    · exact rep.super
    · show 1 ≠ sh.sb.ninodes / 8 + 3
      omega
  · rw [upd_same]
    exact metaBits
  · unfold Shape.used
    rw [place, upd_same]
    exact owns
  · intro i alloc
    rw [slots i alloc]
    exact rep.filled i alloc
  · intro i isInode ne
    have := isInode.iblock_lt
    rw [upd_ne _ _ (by omega)]
    exact rep.disk i isInode ne

/-- A block just marked is loose. -/
theorem mark (rep : Rep sh v E Q x) (ok : sh.Ok) (inData : sh.InData b)
    (clear : (v sh.bitmap).bit b = false) :
    Rep sh (upd v sh.bitmap ((v sh.bitmap).setBit b)) E (insert b Q) x ∧
      sh.nodes (upd v sh.bitmap ((v sh.bitmap).setBit b)) E = sh.nodes v E := by
  have after := ok.afterBitmap
  have inside := ok.bit_lt inData
  refine rep.rebit ok (fun c low => ?_) ?_
  · rw [Bytes.bit_setBit inside, rep.metaBits c low, Bool.or_true]
  · have grown : {c | sh.InData c ∧ ((v sh.bitmap).setBit b).bit c = true} =
        insert b (sh.used v) := by
      ext c
      simp only [Set.mem_ofPred_eq, Set.mem_insert_iff, Shape.used, Bytes.bit_setBit inside,
        Bool.or_eq_true, decide_eq_true_eq]
      constructor
      · intro member
        rcases member.2 with same | on
        · exact Or.inl same
        · exact Or.inr ⟨member.1, on⟩
      · intro member
        rcases member with same | ⟨inC, on⟩
        · exact ⟨same ▸ inData, Or.inl same⟩
        · exact ⟨inC, Or.inr on⟩
    rw [grown]
    apply rep.owns.alloc
    · intro member
      have on := member.2
      rw [clear] at on
      exact Bool.false_ne_true on
    · have := inData.1
      omega

/-- Any content of a loose block. -/
theorem paintLoose (rep : Rep sh v E Q x) (ok : sh.Ok) (isLoose : b ∈ Q) (y : Block) :
    Rep sh (upd v b y) E Q x ∧ sh.nodes (upd v b y) E = sh.nodes v E := by
  have low := (rep.owns.loose_used b isLoose).1.1
  have after := ok.afterBitmap
  apply rep.unseen
  · intro p some_
    exact upd_ne _ _ (rep.owns.ne_of_loose isLoose some_)
  · apply upd_ne
    have : sh.sb.ninodes / 8 + 3 < sh.ds := after
    omega
  · exact upd_ne _ _ (by omega)
  · intro i isInode
    have := isInode.iblock_lt
    exact upd_ne _ _ (by omega)

end Rep

end Xv6Rpi.Kernel
