/-
# Kernel.FsWrite -- writing files

`writei` on a file system whose blocks are owned (`Rep`).  While it works on inode `i` the copy
in memory is ahead of the one on disk, so `Rep` holds with `x = some i`.  `Wrote` is what has
happened to the files so far: bytes of file `i` are replaced, missing blocks of it are there,
and no other file has changed.  It composes (`Wrote.trans`), and allocating a block is the case
of no bytes, since `balloc` zeroes it.

* `bmap_spec`, `writeLoop_spec`, `writei_spec`: one rule each.
-/
import Xv6Rpi.Kernel.FsRead

namespace Xv6Rpi.Kernel

open Theory

set_option autoImplicit false

/-! ## Changes of one file -/

/-- Only blocks of the file change. -/
def Dinode.Only (d : Dinode) (v v' : Disk) : Prop :=
  ∀ y, v' y ≠ v y → ∃ k, d.slot v k = y ∧ y ≠ 0

theorem Dinode.only_upd {d : Dinode} {v : Disk} {k : Nat} (some_ : d.slot v k ≠ 0) (y : Block) :
    d.Only v (upd v (d.slot v k) y) := by
  intro z changed
  by_cases same : z = d.slot v k
  · exact ⟨k, same.symm, same ▸ some_⟩
  · exact absurd (upd_ne _ _ same) changed

namespace Rep

variable {sh : Shape} {v v' : Disk} {E : Inodes} {Q : Set Nat} {x : Option Nat}
  {b i k : Nat} {d : Dinode}

/-- Blocks that files name lie after the metadata. -/
theorem place_not_meta (rep : Rep sh v E Q x) (ok : sh.Ok) {p : Nat × Nat}
    (some_ : sh.place v E p ≠ 0) :
    sh.place v E p ≠ 1 ∧ sh.place v E p ≠ sh.bitmap ∧
      ∀ j, sh.InodeNum j → sh.place v E p ≠ IBLOCK j := by
  have low : sh.ds ≤ sh.place v E p := (rep.used_of_place some_).1.1.1
  have after : sh.sb.ninodes / 8 + 3 < sh.ds := ok.afterBitmap
  refine ⟨by omega, ?_, fun j isInode => ?_⟩
  · show sh.place v E p ≠ sh.sb.ninodes / 8 + 3
    omega
  · have : IBLOCK j < sh.sb.ninodes / 8 + 3 := isInode.iblock_lt
    omega

/-- Blocks of other files do not change with those of file `i`. -/
theorem place_of_ne (rep : Rep sh v E Q x) (alloc : sh.Alloc E i) (only : (E i).Only v v') {j : Nat}
    (ne : j ≠ i) (some_ : sh.place v E (j, k) ≠ 0) :
    v' (sh.place v E (j, k)) = v (sh.place v E (j, k)) := by
  by_contra changed
  obtain ⟨k', isBlock, -⟩ := only _ changed
  rw [← place_of_alloc alloc] at isBlock
  exact ne (congrArg Prod.fst (rep.owns.once _ _ some_ isBlock.symm))

theorem slots_of_ne (rep : Rep sh v E Q x) (alloc : sh.Alloc E i) (only : (E i).Only v v') {j : Nat}
    (ne : j ≠ i) (allocJ : sh.Alloc E j) : (E j).slot v' = (E j).slot v :=
  slots_congr allocJ (rep.place_of_ne alloc only ne)

theorem nodes_of_ne (rep : Rep sh v E Q x) (alloc : sh.Alloc E i) (only : (E i).Only v v')
    {E' : Inodes} {j : Nat} (ne : j ≠ i) (same : E' j = E j) :
    sh.nodes v' E' j = sh.nodes v E j :=
  rep.nodes_congr same (rep.slots_of_ne alloc only ne) fun _ => rep.place_of_ne alloc only ne

/-- The metadata blocks do not change with the blocks of file `i`. -/
theorem meta_of_only (rep : Rep sh v E Q x) (ok : sh.Ok) (alloc : sh.Alloc E i) (only : (E i).Only v v') :
    v' 1 = v 1 ∧ v' sh.bitmap = v sh.bitmap ∧
      ∀ j, sh.InodeNum j → v' (IBLOCK j) = v (IBLOCK j) := by
  have unchanged : ∀ y, (∀ p, sh.place v E p ≠ 0 → sh.place v E p ≠ y) → v' y = v y := by
    intro y notNamed
    by_contra changed
    obtain ⟨k, isBlock, nonzero⟩ := only y changed
    rw [← place_of_alloc alloc] at isBlock
    exact notNamed (i, k) (isBlock ▸ nonzero) isBlock
  refine ⟨unchanged 1 fun p some_ => ?_, unchanged _ fun p some_ => ?_,
    fun j isInode => unchanged _ fun p some_ => ?_⟩
  · exact (rep.place_not_meta ok some_).1
  · exact (rep.place_not_meta ok some_).2.1
  · exact (rep.place_not_meta ok some_).2.2 j isInode

/-- **A loose block gets a place** in file `i`, where there was none. -/
theorem assign (rep : Rep sh v E Q (some i)) (ok : sh.Ok) (alloc : sh.Alloc E i) (isLoose : b ∈ Q)
    (empty : (E i).slot v k = 0) (only : (E i).Only v v') (type : d.type = (E i).type) (size : d.size = (E i).size) (small : d.Small)
    (slots : d.slot v' = upd ((E i).slot v) k b) :
    Rep sh v' (upd E i d) (Q \ {b}) (some i) := by
  obtain ⟨super, bitmap, inodes⟩ := rep.meta_of_only ok alloc only
  have types : ∀ j, (upd E i d j).type = (E j).type :=
    forall_upd (P := fun j (d : Dinode) => d.type = (E j).type) type fun _ _ => rfl
  have sizes : ∀ j, (upd E i d j).size = (E j).size :=
    forall_upd (P := fun j (d : Dinode) => d.size = (E j).size) size fun _ _ => rfl
  have allocs : ∀ j, sh.Alloc (upd E i d) j ↔ sh.Alloc E j := fun j => by simp only [Shape.Alloc, types]
  have places : ∀ q, sh.place v' (upd E i d) q = upd (sh.place v E) (i, k) b q := by
    rintro ⟨j, k'⟩
    by_cases same : j = i
    · subst same
      rw [place_of_alloc ((allocs j).2 alloc), upd_same, slots, upd_apply, upd_apply, place_of_alloc alloc]
      simp
    · rw [upd_ne _ _ (by simp [same])]
      by_cases allocJ : sh.Alloc E j
      · rw [place_of_alloc allocJ, place_of_alloc ((allocs j).2 allocJ), upd_ne _ _ same,
          rep.slots_of_ne alloc only same allocJ]
      · rw [Shape.place, Shape.place, if_neg allocJ, if_neg fun allocJ' => allocJ ((allocs j).1 allocJ')]
  have nonzero : b ≠ 0 := rep.owns.nonzero b (rep.owns.loose_used b isLoose)
  have used : sh.used v' = sh.used v := by
    unfold Shape.used
    rw [bitmap]
  refine ⟨?_, ?_, ?_, fun j allocJ k' below => ?_, fun j allocJ => ?_,
    forall_upd small fun j _ => rep.small j, fun j isInode other => ?_⟩
  · rw [super]
    exact rep.super
  · rw [bitmap]
    exact rep.metaBits
  · rw [used]
    refine rep.owns.assign (p := (i, k)) isLoose ?_ ?_ fun q other => ?_
    · rw [place_of_alloc alloc, empty]
    · rw [places, upd_same]
    · rw [places, upd_ne _ _ other]
  · have old := (allocs j).1 allocJ
    rw [sizes] at below
    rw [← place_of_alloc allocJ, places, upd_apply]
    split
    · exact nonzero
    · rw [place_of_alloc old]
      exact rep.filled j old k' below
  · rw [sizes]
    exact rep.bounded j ((allocs j).1 allocJ)
  · have ne : j ≠ i := fun eq => other (by rw [eq])
    rw [inodes j isInode, upd_ne _ _ ne]
    exact rep.disk j isInode other

/-- An operation on inode `i` begins. -/
theorem work (rep : Rep sh v E Q none) (i : Nat) : Rep sh v E Q (some i) :=
  { rep with disk := fun j isInode _ => rep.disk j isInode (Option.some_ne_none j) }

/-- It ends when the inode on disk is the one in memory. -/
theorem settle (rep : Rep sh v E Q (some i))
    (same : sh.InodeNum i → Dinode.ofBlock (v (IBLOCK i)) i = E i) : Rep sh v E Q none := by
  refine { rep with disk := fun j isInode _ => ?_ }
  by_cases isI : j = i
  · subst isI
    exact same isInode
  · exact rep.disk j isInode fun eq => isI (Option.some.inj eq)

/-- The bytes of a file that are in a block. -/
theorem repaint (rep : Rep sh v E Q x) (ok : sh.Ok) (alloc : sh.Alloc E i)
    (some_ : (E i).slot v k ≠ 0) (small : k < MAXFILE) (y : Block) :
    Rep sh (upd v ((E i).slot v k) y) E Q x ∧
      (E i).slot (upd v ((E i).slot v k) y) = (E i).slot v := by
  have only := Dinode.only_upd some_ y
  obtain ⟨super, bitmap, inodes⟩ := rep.meta_of_only ok alloc only
  have mine : (E i).slot (upd v ((E i).slot v k) y) = (E i).slot v := by
    refine slots_congr alloc fun nonzero => upd_ne _ _ fun same => ?_
    rw [place_of_alloc alloc] at nonzero same
    exact small.ne (rep.slot_inj alloc nonzero same).symm
  have slots : ∀ j, sh.Alloc E j → (E j).slot (upd v ((E i).slot v k) y) = (E j).slot v := by
    intro j allocJ
    by_cases same : j = i
    · rw [same]
      exact mine
    · exact rep.slots_of_ne alloc only same allocJ
  refine ⟨⟨?_, ?_, ?_, fun j allocJ => ?_, rep.bounded, rep.small, fun j isInode ne => ?_⟩, mine⟩
  · rw [super]
    exact rep.super
  · rw [bitmap]
    exact rep.metaBits
  · have used : sh.used (upd v ((E i).slot v k) y) = sh.used v := by
      unfold Shape.used
      rw [bitmap]
    rw [used]
    refine rep.owns.congr fun p => ?_
    unfold Shape.place
    split
    case isTrue allocP => rw [slots p.1 allocP]
    case isFalse => rfl
  · rw [slots j allocJ]
    exact rep.filled j allocJ
  · rw [inodes j isInode]
    exact rep.disk j isInode ne

/-! ### An inode is stored -/

section PutInode

variable (rep : Rep sh v E Q x) (ok : sh.Ok) (isInode : sh.InodeNum i)
  (named : ∀ k, (if d.type = 0 then 0 else d.slot v k) = sh.place v E (i, k))

include rep ok isInode

theorem putInode_slots {j : Nat} (alloc : sh.Alloc E j) (y : Block) :
    (E j).slot (upd v (IBLOCK i) y) = (E j).slot v :=
  slots_congr alloc fun nonzero => upd_ne _ _ ((rep.place_not_meta ok nonzero).2.2 i isInode)

include named

/-- The blocks it names are not blocks of inodes. -/
theorem putInode_mine (typed : d.type ≠ 0) (y : Block) : d.slot (upd v (IBLOCK i) y) = d.slot v := by
  refine slot_congr fun nonzero => upd_ne _ _ ?_
  have isPlace := named MAXFILE
  rw [if_neg typed, slot_indirect] at isPlace
  rw [isPlace] at nonzero ⊢
  exact (rep.place_not_meta ok nonzero).2.2 i isInode

/-- No place changes. -/
theorem putInode_place (y : Block) :
    sh.place (upd v (IBLOCK i) y) (upd E i d) = sh.place v E := by
  funext p
  obtain ⟨j, k⟩ := p
  by_cases same : j = i
  · subst same
    rw [← named k, Shape.place]
    have isAlloc : sh.Alloc (upd E j d) j ↔ d.type ≠ 0 := by
      simp only [Shape.Alloc, upd_same, isInode, true_and]
    by_cases typed : d.type = 0
    · rw [if_pos typed, if_neg fun alloc => isAlloc.1 alloc typed]
    · rw [if_neg typed, if_pos (isAlloc.2 typed), upd_same, rep.putInode_mine ok isInode named typed]
  · have isE : upd E i d j = E j := upd_ne _ _ same
    have allocs : sh.Alloc (upd E i d) j ↔ sh.Alloc E j := by simp only [Shape.Alloc, isE]
    by_cases alloc : sh.Alloc E j
    · rw [place_of_alloc alloc, place_of_alloc (allocs.2 alloc), isE, rep.putInode_slots ok isInode alloc]
    · rw [Shape.place, Shape.place, if_neg alloc, if_neg fun alloc' => alloc (allocs.1 alloc')]

omit ok named isInode in
/-- The inodes on disk. -/
theorem putInode_disk (small : d.Small) (only : x = none ∨ x = some i) {j : Nat}
    (isInodeJ : sh.InodeNum j) :
    Dinode.ofBlock (upd v (IBLOCK i) (putDinode (v (IBLOCK i)) i d) (IBLOCK j)) j = upd E i d j := by
  rw [ofBlock_upd_putDinode small, upd_apply]
  split
  case isTrue => rfl
  case isFalse other =>
    refine rep.disk j isInodeJ ?_
    rcases only with rfl | rfl
    · exact Option.some_ne_none j
    · exact fun eq => other (Option.some.inj eq)

omit named in
/-- Other files do not see it. -/
theorem putInode_nodes (y : Block) {j : Nat} (ne : j ≠ i) :
    sh.nodes (upd v (IBLOCK i) y) (upd E i d) j = sh.nodes v E j := by
  refine rep.nodes_congr (upd_ne _ _ ne) (fun alloc => rep.putInode_slots ok isInode alloc y)
    fun k some_ => upd_ne _ _ ?_
  exact (rep.place_not_meta ok some_).2.2 i isInode

/-- **An inode is stored that names the same blocks.** -/
theorem putInode (small : d.Small) (only : x = none ∨ x = some i)
    (bounded : d.type ≠ 0 → d.size ≤ MAXFILE * BSIZE)
    (filled : d.type ≠ 0 → ∀ k, k * BSIZE < d.size → d.slot v k ≠ 0) :
    Rep sh (upd v (IBLOCK i) (putDinode (v (IBLOCK i)) i d)) (upd E i d) Q none := by
  have below : IBLOCK i < sh.sb.ninodes / 8 + 3 := isInode.iblock_lt
  have high : 2 ≤ IBLOCK i := by
    show 2 ≤ i / 8 + 2
    omega
  have bitmap : upd v (IBLOCK i) (putDinode (v (IBLOCK i)) i d) sh.bitmap = v sh.bitmap :=
    upd_ne _ _ (by show sh.sb.ninodes / 8 + 3 ≠ IBLOCK i; omega)
  have used : sh.used (upd v (IBLOCK i) (putDinode (v (IBLOCK i)) i d)) = sh.used v := by
    unfold Shape.used
    rw [bitmap]
  have others : ∀ j, j ≠ i → sh.Alloc (upd E i d) j → sh.Alloc E j ∧ upd E i d j = E j := by
    intro j ne alloc
    have isE : upd E i d j = E j := upd_ne _ _ ne
    exact ⟨⟨alloc.1, isE ▸ alloc.2⟩, isE⟩
  refine ⟨?_, ?_, ?_, fun j alloc k inside => ?_, fun j alloc => ?_,
    forall_upd small fun j _ => rep.small j,
    fun j isInodeJ _ => rep.putInode_disk small only isInodeJ⟩
  · rw [upd_ne _ _ (by omega)]
    exact rep.super
  · rw [bitmap]
    exact rep.metaBits
  · rw [used, rep.putInode_place ok isInode named]
    exact rep.owns
  · by_cases same : j = i
    · subst same
      have typed := alloc.2
      rw [upd_same] at inside typed ⊢
      rw [rep.putInode_mine ok isInode named typed]
      exact filled typed k inside
    · obtain ⟨old, isE⟩ := others j same alloc
      rw [isE] at inside ⊢
      rw [rep.putInode_slots ok isInode old]
      exact rep.filled j old k inside
  · by_cases same : j = i
    · subst same
      have typed := alloc.2
      rw [upd_same] at typed ⊢
      exact bounded typed
    · obtain ⟨old, isE⟩ := others j same alloc
      rw [isE]
      exact rep.bounded j old

end PutInode

/-- **The inode goes to disk**, with a size for which it has all blocks. -/
theorem update (rep : Rep sh v E Q (some i)) (ok : sh.Ok) (alloc : sh.Alloc E i) {size : Nat}
    (bounded : size ≤ MAXFILE * BSIZE) (filled : ∀ k, k * BSIZE < size → (E i).slot v k ≠ 0)
    (isNew : { E i with size := size } = d) :
    Rep sh (upd v (IBLOCK i) (putDinode (v (IBLOCK i)) i d)) (upd E i d) Q none ∧
      d.slot (upd v (IBLOCK i) (putDinode (v (IBLOCK i)) i d)) = (E i).slot v ∧
      ∀ j, j ≠ i → sh.nodes (upd v (IBLOCK i) (putDinode (v (IBLOCK i)) i d)) (upd E i d) j =
        sh.nodes v E j := by
  have small : d.Small := by
    obtain ⟨type, major, minor, nlink, -, addrs⟩ := rep.small i
    have sizeSmall : size < 4294967296 := lt_of_le_of_lt bounded (by decide)
    rw [← isNew]
    exact ⟨type, major, minor, nlink, sizeSmall, addrs⟩
  have typed : d.type ≠ 0 := by
    rw [← isNew]
    exact alloc.2
  have slots : d.slot v = (E i).slot v := by
    rw [← isNew]
    rfl
  have named : ∀ k, (if d.type = 0 then 0 else d.slot v k) = sh.place v E (i, k) := by
    intro k
    rw [if_neg typed, slots, place_of_alloc alloc]
  refine ⟨rep.putInode ok alloc.1 named small (Or.inr rfl) (fun _ => ?_) fun _ k inside => ?_, ?_,
    fun j ne => rep.putInode_nodes ok alloc.1 _ ne⟩
  · rw [← isNew]
    exact bounded
  · rw [slots]
    rw [← isNew] at inside
    exact filled k inside
  · rw [rep.putInode_mine ok alloc.1 named typed, slots]

end Rep

/-! ## Slots that are set -/

section Slots

variable {v : Disk} {d : Dinode} {b k : Nat}

/-- The inode with another block number in `addrs`. -/
def Dinode.setAddr (d : Dinode) (k : Fin (NDIRECT + 1)) (b : Nat) : Dinode :=
  { d with addrs := upd d.addrs k b }

/-- The place that `addrs[k]` is. -/
def slotOf (k : Fin (NDIRECT + 1)) : Nat := if k.val < NDIRECT then k.val else MAXFILE

theorem slot_slotOf (k : Fin (NDIRECT + 1)) : d.slot v (slotOf k) = d.addrs k := by
  unfold slotOf
  by_cases direct : k.val < NDIRECT
  · rw [if_pos direct, slot_direct direct]
  · have below : k.val < 13 := k.isLt
    have notDirect : ¬ k.val < 12 := direct
    have isIndirect : k = INDIRECT := Fin.ext (show k.val = 12 by omega)
    rw [if_neg direct, slot_indirect, isIndirect]

/-- A direct block, or an indirect block that is all zeros, takes its place and no other. -/
theorem slot_setAddr {k : Fin (NDIRECT + 1)} (zero : v b = Bytes.zero) (empty : d.addrs k = 0) :
    (d.setAddr k b).slot v = upd (d.slot v) (slotOf k) b := by
  funext j
  by_cases here : j = slotOf k
  · rw [here, upd_same, slot_slotOf]
    exact upd_same ..
  rw [upd_ne _ _ here]
  by_cases direct : j < NDIRECT
  · rw [slot_direct direct, slot_direct direct]
    refine upd_ne _ _ fun same => here ?_
    rw [← same, slotOf, if_pos direct]
  by_cases large : MAXFILE < j
  · rw [slot_of_large large, slot_of_large large]
  by_cases isIndirect : k = INDIRECT
  · subst isIndirect
    have notLast : j ≠ MAXFILE := here
    have low : NDIRECT ≤ j := Nat.not_lt.1 direct
    have high : j < MAXFILE := by omega
    rw [slot_of_none low empty]
    have isBlock : (d.setAddr INDIRECT b).addrs INDIRECT = b := upd_same d.addrs INDIRECT b
    by_cases isZero : b = 0
    · exact slot_of_none low (isBlock.trans isZero)
    · rw [slot_through low high (isBlock.symm ▸ isZero), isBlock, zero]
      simp [Bytes.u32]
  · have same : (d.setAddr k b).addrs INDIRECT = d.addrs INDIRECT := upd_ne _ _ (Ne.symm isIndirect)
    unfold Dinode.slot
    rw [dif_neg direct, dif_neg direct, same]

/-- An entry of the indirect block is set. -/
theorem slot_put32 (some_ : d.addrs INDIRECT ≠ 0) (low : NDIRECT ≤ k) (high : k < MAXFILE)
    (small : b < 4294967296) :
    d.slot (upd v (d.addrs INDIRECT) ((v (d.addrs INDIRECT)).put32 (4 * (k - NDIRECT)) b)) =
      upd (d.slot v) k b := by
  have high' : k < 140 := high
  have low' : 12 ≤ k := low
  funext j
  by_cases direct : j < NDIRECT
  · rw [upd_ne _ _ (by omega), slot_direct direct, slot_direct direct]
  have lowJ : 12 ≤ j := Nat.not_lt.1 direct
  by_cases through : j < MAXFILE
  · have through' : j < 140 := through
    rw [slot_through (Nat.not_lt.1 direct) through some_, upd_same]
    by_cases here : j = k
    · rw [here, upd_same]
      refine Bytes.u32_put32_same small ?_
      show 4 * (k - 12) + 4 ≤ 512
      omega
    · rw [upd_ne _ _ here, slot_through (Nat.not_lt.1 direct) through some_]
      refine Bytes.u32_put32_of_ne ?_
      show 4 * (j - 12) + 4 ≤ 4 * (k - 12) ∨ 4 * (k - 12) + 4 ≤ 4 * (j - 12)
      omega
  · have notHere : j ≠ k := by omega
    rw [upd_ne _ _ notHere]
    unfold Dinode.slot
    rw [dif_neg direct, dif_neg direct, if_neg through, if_neg through]

end Slots

/-! ## What has been written -/

/-- In file `i` the bytes from `off` on are `src`; no other file has changed. -/
structure Wrote (sh : Shape) (i off : Nat) (src : List Byte) (v : Disk) (E : Inodes)
    (v' : Disk) (E' : Inodes) : Prop where
  fields : E' i = { E i with addrs := (E' i).addrs }
  others : ∀ j, j ≠ i → E' j = E j
  kept : ∀ k, (E i).slot v k ≠ 0 → (E' i).slot v' k = (E i).slot v k
  content : ∀ o < MAXFILE * BSIZE, (E' i).content v' o =
    if off ≤ o ∧ o < off + src.length then src.getD (o - off) 0 else (E i).content v o
  nodes : ∀ j, j ≠ i → sh.nodes v' E' j = sh.nodes v E j
  inodes : ∀ j, sh.InodeNum j → v' (IBLOCK j) = v (IBLOCK j)

namespace Wrote

variable {sh : Shape} {i off : Nat} {src src' : List Byte} {v v1 v' : Disk}
  {E E1 E' : Inodes}

theorem refl (sh : Shape) (i off : Nat) (v : Disk) (E : Inodes) :
    Wrote sh i off [] v E v E where
  fields := rfl
  others _ _ := rfl
  kept _ _ := rfl
  content o _ := by
    rw [if_neg]
    simp only [List.length_nil]
    omega
  nodes _ _ := rfl
  inodes _ _ := rfl

/-- Writes one after the other. -/
theorem trans (first : Wrote sh i off src v E v1 E1)
    (second : Wrote sh i (off + src.length) src' v1 E1 v' E') :
    Wrote sh i off (src ++ src') v E v' E' where
  fields := by
    rw [second.fields, first.fields]
  others j ne := (second.others j ne).trans (first.others j ne)
  kept k some_ := by
    have kept1 := first.kept k some_
    rw [second.kept k (kept1 ▸ some_), kept1]
  content o small := by
    rw [second.content o small, first.content o small, List.length_append]
    by_cases inSecond : off + src.length ≤ o ∧ o < off + src.length + src'.length
    · rw [if_pos inSecond, if_pos (by omega), List.getD_append_right _ _ _ _ (by omega)]
      congr 1
      omega
    · rw [if_neg inSecond]
      by_cases inFirst : off ≤ o ∧ o < off + src.length
      · rw [if_pos inFirst, if_pos (by omega), List.getD_append _ _ _ _ (by omega)]
      · rw [if_neg inFirst, if_neg (by omega)]
  nodes j ne := (second.nodes j ne).trans (first.nodes j ne)
  inodes j isInode := (second.inodes j isInode).trans (first.inodes j isInode)

/-- The same inode is still allocated. -/
theorem alloc (wrote : Wrote sh i off src v E v' E') (alloc : sh.Alloc E i) : sh.Alloc E' i :=
  ⟨alloc.1, by rw [wrote.fields]; exact alloc.2⟩

/-- A block of zeros in a place of its own is not seen. -/
theorem assign {b k : Nat} {d : Dinode} {Q : Set Nat} (rep : Rep sh v E Q (some i)) (ok : sh.Ok)
    (alloc : sh.Alloc E i) (isLoose : b ∈ Q) (zero : v b = Bytes.zero)
    (empty : (E i).slot v k = 0)
    (only : ∀ y, v' y ≠ v y → y = (E i).addrs INDIRECT ∧ y ≠ 0)
    (fields : d = { E i with addrs := d.addrs }) (small : d.Small)
    (slots : d.slot v' = upd ((E i).slot v) k b) (off : Nat) :
    Rep sh v' (upd E i d) (Q \ {b}) (some i) ∧ Wrote sh i off [] v E v' (upd E i d) := by
  have only' : (E i).Only v v' := fun y changed =>
    ⟨MAXFILE, by rw [slot_indirect, (only y changed).1], (only y changed).2⟩
  have type : d.type = (E i).type := by rw [fields]
  have size : d.size = (E i).size := by rw [fields]
  have mine : upd E i d i = d := upd_same ..
  refine ⟨rep.assign ok alloc isLoose empty only' type size small slots, ?_, ?_, ?_, ?_, ?_, ?_⟩
  · rw [mine]
    exact fields
  · exact fun j ne => upd_ne _ _ ne
  · intro k' some_
    have ne : k' ≠ k := fun same => some_ (same ▸ empty)
    rw [mine, slots, upd_ne _ _ ne]
  · intro o below
    have outside : ¬ (off ≤ o ∧ o < off + ([] : List Byte).length) := by
      simp only [List.length_nil]
      omega
    rw [if_neg outside, mine]
    by_cases here : o / BSIZE = k
    · -- the new block: nothing was there, and it holds zeros
      have unchanged : v' b = v b := by
        by_contra changed
        obtain ⟨isIndirect, nonzero⟩ := only b changed
        have isPlace : sh.place v E (i, MAXFILE) = b := (place_indirect alloc).trans isIndirect.symm
        exact rep.owns.ne_of_loose isLoose (isPlace ▸ nonzero) isPlace
      rw [Dinode.content, Dinode.content, slots, here, upd_same, empty, if_pos rfl, unchanged, zero,
        Bytes.get_zero, ite_self]
    · refine Dinode.content_congr (by rw [slots, upd_ne _ _ here]) fun nonzero => ?_
      by_contra changed
      obtain ⟨isIndirect, -⟩ := only _ changed
      have atEnd : o / 512 = 140 := rep.slot_inj alloc nonzero (isIndirect.trans slot_indirect.symm)
      have below : o < 140 * 512 := below
      omega
  · exact fun j ne => rep.nodes_of_ne alloc only' ne (upd_ne _ _ ne)
  · exact (rep.meta_of_only ok alloc only').2.2

/-- Bytes within one block. -/
theorem within {Q : Set Nat} {x : Option Nat} (rep : Rep sh v E Q x) (ok : sh.Ok)
    (alloc : sh.Alloc E i) (some_ : (E i).slot v (off / BSIZE) ≠ 0) (small : off / BSIZE < MAXFILE)
    (inBlock : off % BSIZE + src.length ≤ BSIZE) :
    Wrote sh i off src v E (upd v ((E i).slot v (off / BSIZE))
      ((v ((E i).slot v (off / BSIZE))).splice (off % BSIZE) src)) E := by
  generalize isNew : (v ((E i).slot v (off / BSIZE))).splice (off % BSIZE) src = y
  have slots := (rep.repaint ok alloc some_ small y).2
  have only := Dinode.only_upd some_ y
  refine ⟨rfl, fun _ _ => rfl, fun k _ => congrFun slots k, fun o below => ?_,
    fun j ne => rep.nodes_of_ne alloc only ne rfl, (rep.meta_of_only ok alloc only).2.2⟩
  have inBlock : off % 512 + src.length ≤ 512 := inBlock
  by_cases here : o / BSIZE = off / BSIZE
  · have here' : o / 512 = off / 512 := here
    rw [Dinode.content, Dinode.content, slots, here, if_neg some_, if_neg some_, upd_same, ← isNew, Bytes.splice, Bytes.get_paint]
    by_cases inside : off ≤ o ∧ o < off + src.length
    · have place : off % BSIZE ≤ o % BSIZE ∧ o % BSIZE < off % BSIZE + src.length ∧ o % BSIZE < BSIZE := by
        show off % 512 ≤ o % 512 ∧ o % 512 < off % 512 + src.length ∧ o % 512 < 512
        omega
      have index : o % BSIZE - off % BSIZE = o - off := by
        show o % 512 - off % 512 = o - off
        omega
      rw [if_pos inside, if_pos place, index]
    · have place : ¬ (off % BSIZE ≤ o % BSIZE ∧ o % BSIZE < off % BSIZE + src.length ∧
          o % BSIZE < BSIZE) := by
        show ¬ (off % 512 ≤ o % 512 ∧ o % 512 < off % 512 + src.length ∧ o % 512 < 512)
        omega
      rw [if_neg inside, if_neg place]
  · have here' : o / 512 ≠ off / 512 := here
    rw [if_neg (show ¬ (off ≤ o ∧ o < off + src.length) by omega)]
    exact Dinode.content_congr (congrFun slots _) fun nonzero => upd_ne _ _ fun same =>
      here (rep.slot_inj alloc nonzero same)

end Wrote

/-! ## Blocks that are allocated -/

/-- The memory with another copy of the inode in entry `ip`. -/
def Mem.setDinode (m : Mem) (ip : InodeId) (d : Dinode) : Mem :=
  { m with icache := upd m.icache ip { m.icache ip with d := d } }

@[simp] theorem Mem.setDinode_icache (m : Mem) (ip : InodeId) (d : Dinode) :
    (m.setDinode ip d).icache ip = { m.icache ip with d := d } := upd_same ..

theorem Mem.setDinode_dev (m : Mem) (ip : InodeId) (d : Dinode) :
    ((m.setDinode ip d).icache ip).dev = (m.icache ip).dev := by rw [Mem.setDinode_icache]

theorem Mem.setDinode_again (m : Mem) (ip : InodeId) (d e : Dinode) :
    (m.setDinode ip d).setDinode ip e = m.setDinode ip e := by
  simp [Mem.setDinode, upd_idem]

theorem Mem.setDinode_same (m : Mem) (ip : InodeId) : m.setDinode ip (m.icache ip).d = m := by
  have same : upd m.icache ip { m.icache ip with d := (m.icache ip).d } = m.icache := upd_eq_self ..
  rw [Mem.setDinode, same]

-- otherwise the test for an entry of an indirect block is evaluated
attribute [local irreducible] Bytes.u32

section Write

variable {C : KContract} {sh : Shape} {A v v' : Disk} {L M : Finset Nat}
  {h : Held} {t : Option Pid} {m : Mem} {s : KState} {ip : InodeId} {E E' : Inodes}
  {i k n q r : Nat} {α : Type}

/-- An assignment to the copy of the inode. -/
theorem Io.setDinode_eq (io : Io sh.geo A v L h t m s) (ip : InodeId) (f : Dinode → Dinode) :
    ∃ s', setDinode ip f s = .done () s' ∧
      Io sh.geo A v L h t (m.setDinode ip (f (m.icache ip).d)) s' := by
  refine ⟨_, rfl, { io with mem := ?_ }⟩
  rw [← io.mem]
  rfl

/-- **iupdate** stores the copy of the inode. -/
theorem Io.iupdate (io : sh.Rests A v L t m s) (ok : sh.Ok) (logs : Logs C sh A t m.proc)
    (fits : Fits C M.card) (sub : L ⊆ M) (inodeIn : IBLOCK i ∈ M) (isInode : sh.InodeNum i)
    (dev : (m.icache ip).dev = ROOTDEV) (inum : (m.icache ip).inum = i) {d : Dinode}
    (copy : (m.icache ip).d = d) {R : Unit → KState → Prop}
    (next : ∀ L' s', L' ⊆ M → Io sh.geo A (upd v (IBLOCK i) (putDinode (v (IBLOCK i)) i d)) L'
      Held.nothing t m s' → R () s') : Sat C R (Kernel.iupdate ip s) := by
  have below := isInode.iblock_lt
  have after := ok.afterBitmap
  have log := ok.ds_le_log
  have notSuper : IBLOCK i ≠ 1 := by
    show i / 8 + 2 ≠ 1
    omega
  unfold Kernel.iupdate
  refine Sat.step (io.inode_eq ip) ?_
  rw [dev, inum, copy]
  refine io.open_ ok (by omega) fun bp s1 io1 => Sat.step (io1.bdata_eq (upd_same ..)) ?_
  have count := Held.count_one bp (IBLOCK i)
  refine io1.store ok logs fits (upd_same ..) sub (by omega) notSuper fun s2 io2 => ?_
  exact io2.drop rfl fun s3 io3 => next _ s3 (Finset.insert_subset inodeIn sub) io3

/-- Blocks other than the bitmap do not matter. -/
theorem Supplies.upd (supplies : Supplies C sh v n) {b : Nat} (ne : sh.bitmap ≠ b) (y : Block) :
    Supplies C sh (upd v b y) n := by
  rcases supplies with enough | accepted
  · left
    rw [Shape.spare, upd_ne _ _ ne]
    exact enough
  · exact Or.inr accepted

namespace Grown

variable {Q : Set Nat} {x : Option Nat} {b : Nat}

/-- Blocks that are named are neither the new one nor the bitmap. -/
theorem named (grown : Grown sh v v' E Q x b) (ok : sh.Ok) (rep : Rep sh v E Q x) {p : Nat × Nat}
    (some_ : sh.place v E p ≠ 0) : v' (sh.place v E p) = v (sh.place v E p) := by
  refine grown.same _ (rep.place_not_meta ok some_).2.1 fun same => grown.fresh ?_
  rw [← same]
  exact (rep.used_of_place some_).1

theorem slots (grown : Grown sh v v' E Q x b) (ok : sh.Ok) (rep : Rep sh v E Q x)
    (alloc : sh.Alloc E i) : (E i).slot v' = (E i).slot v :=
  (rep.files_congr fun _ some_ => grown.named ok rep some_).1 i alloc

/-- No file has changed. -/
theorem wrote (grown : Grown sh v v' E Q x b) (ok : sh.Ok) (rep : Rep sh v E Q x)
    (alloc : sh.Alloc E i) (off : Nat) : Wrote sh i off [] v E v' E := by
  have slots := grown.slots ok rep alloc
  have after := ok.afterBitmap
  refine ⟨rfl, fun _ _ => rfl, fun k _ => congrFun slots k, fun o _ => ?_,
    fun j _ => congrFun grown.nodes j, fun j isInode => ?_⟩
  · have outside : ¬ (off ≤ o ∧ o < off + ([] : List Byte).length) := by
      simp only [List.length_nil]
      omega
    rw [if_neg outside]
    refine Dinode.content_congr (congrFun slots _) fun nonzero => ?_
    rw [← place_of_alloc alloc] at nonzero ⊢
    exact grown.named ok rep nonzero
  · have low := isInode.iblock_lt
    have high := grown.inData.1
    exact grown.same _ (by omega) (by omega)

/-- **The new block is a direct block or the indirect block** of file `i`. -/
theorem setAddr (grown : Grown sh v v' E ∅ (some i) b) (ok : sh.Ok) (rep : Rep sh v E ∅ (some i))
    (alloc : sh.Alloc E i) {k : Fin (NDIRECT + 1)} (empty : (E i).addrs k = 0) (off : Nat) :
    b ≠ 0 ∧ Rep sh v' (upd E i ((E i).setAddr k b)) ∅ (some i) ∧
      Wrote sh i off [] v E v' (upd E i ((E i).setAddr k b)) := by
  have log := ok.log_eq
  have bits := ok.bits
  have after := ok.afterBitmap
  have low := grown.inData.1
  have below := grown.inData.2
  have small : ((E i).setAddr k b).Small := { rep.small i with
    addrs := forall_upd (P := fun _ a => a < 4294967296) (by omega) fun j _ => (rep.small i).addrs j }
  have slotEmpty : (E i).slot v' (slotOf k) = 0 := (slot_slotOf k).trans empty
  obtain ⟨rep', wrote⟩ := Wrote.assign grown.rep ok alloc (Set.mem_insert b ∅) grown.zero slotEmpty
    (fun y changed => absurd rfl changed) rfl small (slot_setAddr grown.zero empty) off
  have noneLoose : insert b (∅ : Set Nat) \ {b} = ∅ := by simp
  rw [noneLoose] at rep'
  exact ⟨by omega, rep', (grown.wrote ok rep alloc off).trans wrote⟩

/-- **The new block has an entry in the indirect block** of file `i`. -/
theorem setEntry (grown : Grown sh v v' E ∅ (some i) b) (ok : sh.Ok) (rep : Rep sh v E ∅ (some i))
    (alloc : sh.Alloc E i) (indirect : (E i).addrs INDIRECT ≠ 0) (low : NDIRECT ≤ k) (high : k < MAXFILE)
    (empty : (E i).slot v k = 0) (off : Nat) {v2 : Disk}
    (isNext : upd v' ((E i).addrs INDIRECT)
      ((v' ((E i).addrs INDIRECT)).put32 (4 * (k - NDIRECT)) b) = v2) :
    b ≠ 0 ∧ (E i).slot v2 = upd ((E i).slot v) k b ∧ Rep sh v2 E ∅ (some i) ∧
      Wrote sh i off [] v E v2 E := by
  subst isNext
  have after := ok.afterBitmap
  have log := ok.log_eq
  have bits := ok.bits
  have below := grown.inData.2
  have lowB := grown.inData.1
  have sameSlots : (E i).slot v' = (E i).slot v := grown.slots ok rep alloc
  have changes : ∀ y, upd v' ((E i).addrs INDIRECT)
      ((v' ((E i).addrs INDIRECT)).put32 (4 * (k - NDIRECT)) b) y ≠ v' y →
      y = (E i).addrs INDIRECT ∧ y ≠ 0 := by
    intro y changed
    by_cases same : y = (E i).addrs INDIRECT
    · exact ⟨same, same ▸ indirect⟩
    · exact absurd (upd_ne _ _ same) changed
  have slots := slot_put32 (v := v') (b := b) indirect low high (by omega)
  obtain ⟨rep', wrote⟩ := Wrote.assign grown.rep ok alloc (Set.mem_insert b ∅) grown.zero
    (by rw [sameSlots]; exact empty) changes rfl (rep.small i) slots off
  have noneLoose : insert b (∅ : Set Nat) \ {b} = ∅ := by simp
  rw [noneLoose, upd_eq_self] at rep'
  rw [upd_eq_self] at wrote
  exact ⟨by omega, by rw [slots, sameSlots], rep', (grown.wrote ok rep alloc off).trans wrote⟩

end Grown

/-- A direct block or the indirect block is allocated. -/
theorem addrOf_empty {k : Fin (NDIRECT + 1)} (io : sh.Rests A v L t m s) (ok : sh.Ok)
    (rep : Rep sh v E ∅ (some i)) (alloc : sh.Alloc E i) (dev : (m.icache ip).dev = ROOTDEV)
    (copy : (m.icache ip).d = E i) (trans : Trans C sh A t m.proc) (sub : L ⊆ M)
    (bitmapIn : sh.bitmap ∈ M) (fits : Fits C M.card) (supplies : Supplies C sh v (n + 1))
    (empty : (E i).addrs k = 0) (off : Nat) :
    Sat C (fun b s' => ∃ v', b ≠ 0 ∧
      Rep sh v' (upd E i ((E i).setAddr k b)) ∅ (some i) ∧
      Wrote sh i off [] v E v' (upd E i ((E i).setAddr k b)) ∧ Supplies C sh v' n ∧
      sh.Rests A v' (insert b (insert sh.bitmap L)) t (m.setDinode ip ((E i).setAddr k b)) s')
      (addrOf ip k s) := by
  unfold addrOf
  refine Sat.step (io.inode_eq ip) ?_
  rw [copy, if_pos empty, dev]
  refine (balloc_spec io ok rep trans (Held.over_nothing sh v) sub bitmapIn fits
    (by rw [Held.count_nothing]; omega) supplies).seq fun b s1 post => ?_
  obtain ⟨v1, grown, supplies1, io1⟩ := post
  obtain ⟨s2, stored, io2⟩ := io1.setDinode_eq ip fun d => { d with addrs := upd d.addrs k b }
  refine Sat.step stored ?_
  rw [copy] at io2
  obtain ⟨nonzero, rep2, wrote2⟩ := grown.setAddr ok rep alloc empty off
  exact ⟨v1, nonzero, rep2, wrote2, supplies1, io2⟩

/-- A block gets its entry in the indirect block, which is held. -/
theorem indirectOf_empty {bp : BufId}
    (io : Io sh.geo A v L (upd Held.nothing bp (some ((E i).addrs INDIRECT))) t m s) (ok : sh.Ok)
    (rep : Rep sh v E ∅ (some i)) (alloc : sh.Alloc E i) (trans : Trans C sh A t m.proc) (sub : L ⊆ M)
    (bitmapIn : sh.bitmap ∈ M) (fits : Fits C (M.card + 1))
    (supplies : Supplies C sh v (n + 1)) (indirect : (E i).addrs INDIRECT ≠ 0) (low : NDIRECT ≤ k)
    (high : k < MAXFILE) (empty : (E i).slot v k = 0) (off : Nat) :
    Sat C (fun b s' => ∃ v', b ≠ 0 ∧ (E i).slot v' k = b ∧ Rep sh v' E ∅ (some i) ∧
      Wrote sh i off [] v E v' E ∧ Supplies C sh v' n ∧
      Io sh.geo A v' (insert ((E i).addrs INDIRECT) (insert b (insert sh.bitmap L)))
        (upd Held.nothing bp (some ((E i).addrs INDIRECT))) t m s')
      (indirectOf ROOTDEV bp (k - NDIRECT) s) := by
  have heldIs : upd Held.nothing bp (some ((E i).addrs INDIRECT)) bp =
      some ((E i).addrs INDIRECT) := upd_same ..
  have count := Held.count_one bp ((E i).addrs INDIRECT)
  have isEntry := slot_through (v := v) low high indirect
  have usedIndirect := rep.indirect_inData alloc indirect
  have onUsed : Held.Over (upd Held.nothing bp (some ((E i).addrs INDIRECT))) sh v := by
    intro b y held
    by_cases same : b = bp
    · subst same
      rw [heldIs] at held
      obtain rfl := Option.some.inj held
      exact usedIndirect
    · rw [upd_ne _ _ same] at held
      cases held
  unfold indirectOf
  refine Sat.step (io.bdata_eq heldIs) ?_
  rw [if_pos (isEntry.symm.trans empty)]
  refine (balloc_spec io ok rep trans onUsed sub bitmapIn (fits.mono (by omega)) (by omega)
    supplies).seq fun b s1 post => ?_
  obtain ⟨v1, grown, supplies1, io1⟩ := post
  refine Sat.step (io1.bdata_eq heldIs) ?_
  have sub1 : insert b (insert sh.bitmap L) ⊆ insert b M :=
    Finset.insert_subset_insert b (Finset.insert_subset bitmapIn sub)
  have after : sh.sb.ninodes / 8 + 3 < sh.ds := ok.afterBitmap
  have lowIndirect := usedIndirect.1.1
  have notSuper : (E i).addrs INDIRECT ≠ 1 := by omega
  refine io1.store ok trans.toLogs (fits.mono (Finset.card_insert_le b M)) heldIs sub1 (by omega)
    notSuper fun s2 io2 => ?_
  obtain ⟨nonzero, slots, rep2, wrote2⟩ := grown.setEntry ok rep alloc indirect low high empty off rfl
  refine ⟨_, nonzero, ?_, rep2, wrote2, ?_, io2⟩
  · rw [slots, upd_same]
  · have notBitmap : sh.bitmap ≠ (E i).addrs INDIRECT := by
      show sh.sb.ninodes / 8 + 3 ≠ _
      omega
    exact supplies1.upd notBitmap _

/-- How many blocks `n` bytes from `off` on lie in. -/
def spans (off n : Nat) : Nat := if n = 0 then 0 else (off + n - 1) / BSIZE - off / BSIZE + 1

/-- A round of the loop is done with one of them. -/
theorem spans_step {off n part : Nat} (some_ : n ≠ 0) (isPart : min n (BSIZE - off % BSIZE) = part) :
    spans off n = spans (off + part) (n - part) + 1 := by
  have isPart : min n (512 - off % 512) = part := isPart
  unfold spans
  rw [if_neg some_]
  show (off + n - 1) / 512 - off / 512 + 1 =
    (if n - part = 0 then 0 else (off + part + (n - part) - 1) / 512 - (off + part) / 512 + 1) + 1
  split
  all_goals omega

/-! ## `bmap` -/

/-- Whether there is an indirect block yet. -/
def Dinode.lacks (d : Dinode) : Nat := if d.addrs INDIRECT = 0 then 1 else 0

theorem Dinode.lacks_le (d : Dinode) : d.lacks ≤ 1 := by
  unfold Dinode.lacks
  split
  all_goals omega

/-- An operation that writes inode `i`, whose copy is in entry `ip`.  It has logged blocks of `M`
and goes on to log and to allocate at most `r` blocks of data, with `q` blocks to spare; `m` is the
memory without the copy. -/
structure Writing (C : KContract) (sh : Shape) (A : Disk) (t : Option Pid)
    (m : Mem) (ip : InodeId) (i q : Nat) (v : Disk) (E : Inodes) (M : Finset Nat)
    (r : Nat) (s : KState) : Prop where
  io : ∃ L, L ⊆ M ∧ sh.Rests A v L t (m.setDinode ip (E i)) s
  rep : Rep sh v E ∅ (some i)
  alloc : sh.Alloc E i
  bitmapIn : sh.bitmap ∈ M
  inodeIn : IBLOCK i ∈ M
  indirectIn : (E i).addrs INDIRECT ≠ 0 → (E i).addrs INDIRECT ∈ M
  fits : Fits C (M.card + (E i).lacks + r)
  supplies : Supplies C sh v ((E i).lacks + r + q)

namespace Writing

variable (ok : sh.Ok) (trans : Trans C sh A t m.proc) (dev : (m.icache ip).dev = ROOTDEV)

/-- A block of the file, in the area of files. -/
theorem mapped (ok : sh.Ok) (rep : Rep sh v E ∅ (some i)) (alloc : sh.Alloc E i) (small : k < MAXFILE)
    (some_ : (E i).slot v k ≠ 0) : (E i).Mapped sh v k := by
  refine ⟨small, some_, (rep.slot_inData alloc some_).1.2, ?_⟩
  by_cases none_ : (E i).addrs INDIRECT = 0
  · have := ok.ds_le_log
    have := ok.afterBitmap
    omega
  · exact (rep.indirect_inData alloc none_).1.2

/-- One block more is logged. -/
theorem next (w : Writing C sh A t m ip i q v E M n s) {b : Nat} {L' : Finset Nat} {s' : KState}
    (sub : L' ⊆ insert b M) (io : sh.Rests A v' L' t (m.setDinode ip (E' i)) s')
    (rep : Rep sh v' E' ∅ (some i)) (alloc : sh.Alloc E' i)
    (indirectIn : (E' i).addrs INDIRECT ≠ 0 → (E' i).addrs INDIRECT ∈ insert b M)
    (fewer : (E' i).lacks + r < (E i).lacks + n) (supplies : Supplies C sh v' ((E' i).lacks + r + q)) :
    Writing C sh A t m ip i q v' E' (insert b M) r s' := by
  have card := Finset.card_insert_le b M
  exact ⟨⟨_, sub, io⟩, rep, alloc, Finset.mem_insert_of_mem w.bitmapIn,
    Finset.mem_insert_of_mem w.inodeIn, indirectIn, w.fits.mono (by omega), supplies⟩

/-- It was there already. -/
theorem seen (w : Writing C sh A t m ip i q v E M (r + 1) s) {s' : KState} (sub : L ⊆ M)
    (io : sh.Rests A v L t (m.setDinode ip (E i)) s') (b : Nat) :
    Writing C sh A t m ip i q v E (insert b M) r s' :=
  w.next (sub.trans (Finset.subset_insert b M)) io w.rep w.alloc
    (fun some_ => Finset.mem_insert_of_mem (w.indirectIn some_)) (by omega) (w.supplies.mono (by omega))

include ok trans dev

/-- After `addrs[NDIRECT]` there is an indirect block. -/
theorem indirect (w : Writing C sh A t m ip i q v E M r s) (off : Nat) :
    Sat C (fun b s' => ∃ v' E' M', Writing C sh A t m ip i q v' E' M' r s' ∧
      Wrote sh i off [] v E v' E' ∧ b = (E' i).addrs INDIRECT ∧ b ≠ 0) (addrOf ip INDIRECT s) := by
  obtain ⟨L, sub, io⟩ := w.io
  have copy : ((m.setDinode ip (E i)).icache ip).d = E i := by rw [Mem.setDinode_icache]
  by_cases empty : (E i).addrs INDIRECT = 0
  · have lacks : (E i).lacks = 1 := if_pos empty
    have supplies : Supplies C sh v (r + q + 1) := w.supplies.mono (by omega)
    refine (addrOf_empty io ok w.rep w.alloc ((m.setDinode_dev ip _).trans dev) copy trans sub w.bitmapIn
      (w.fits.mono (by omega)) supplies empty off).mono fun b s' post => ?_
    obtain ⟨v', nonzero, rep', wrote, supplies', io'⟩ := post
    have isNew : ((E i).setAddr INDIRECT b).addrs INDIRECT = b := upd_same (E i).addrs INDIRECT b
    have lacks' : ((E i).setAddr INDIRECT b).lacks = 0 := if_neg (isNew.symm ▸ nonzero)
    rw [Mem.setDinode_again] at io'
    have mine : upd E i ((E i).setAddr INDIRECT b) i = (E i).setAddr INDIRECT b := upd_same ..
    have sub' : insert b (insert sh.bitmap L) ⊆ insert b M :=
      Finset.insert_subset_insert b (Finset.insert_subset w.bitmapIn sub)
    refine ⟨v', _, insert b M, w.next sub' ?_ rep' (wrote.alloc w.alloc) ?_ ?_ ?_, wrote, ?_, nonzero⟩
    · rw [mine]
      exact io'
    · rw [mine, isNew]
      exact fun _ => Finset.mem_insert_self b M
    · rw [mine, lacks']
      omega
    · rw [mine, lacks', Nat.zero_add]
      exact supplies'
    · rw [mine, isNew]
  · have some_ : ((m.setDinode ip (E i)).icache ip).d.addrs INDIRECT ≠ 0 := by
      rw [copy]
      exact empty
    rw [addrOf_present some_ io, copy]
    exact ⟨v, E, M, w, Wrote.refl sh i off v E, rfl, empty⟩

omit dev in
/-- A block that the indirect block names, or is to name. -/
theorem through (w : Writing C sh A t m ip i q v E M (r + 1) s) (low : NDIRECT ≤ k) (high : k < MAXFILE)
    (indirect : (E i).addrs INDIRECT ≠ 0) (off : Nat) :
    Sat C (fun b s' => ∃ v' E' M', Writing C sh A t m ip i q v' E' M' r s' ∧
        Wrote sh i off [] v E v' E' ∧ b = (E' i).slot v' k ∧ b ≠ 0 ∧ b ∈ M')
      ((do
        let bp ← bread ROOTDEV ((E i).addrs INDIRECT)
        let addr ← indirectOf ROOTDEV bp (k - NDIRECT)
        brelse bp
        return addr : K Nat) s) := by
  obtain ⟨L, sub, io⟩ := w.io
  have lacks : (E i).lacks = 0 := if_neg indirect
  have supplies : Supplies C sh v (r + q + 1) := w.supplies.mono (by omega)
  refine io.open_ ok (w.rep.indirect_inData w.alloc indirect).1.2 fun bp s1 io1 => ?_
  by_cases empty : (E i).slot v k = 0
  · refine (indirectOf_empty io1 ok w.rep w.alloc trans sub w.bitmapIn (w.fits.mono (by omega)) supplies
      indirect low high empty off).seq fun b s2 post => ?_
    obtain ⟨v', nonzero, isSlot, rep', wrote, supplies', io2⟩ := post
    refine Sat.call (io2.drop rfl fun s3 io3 => ?_)
    have sub' : insert ((E i).addrs INDIRECT) (insert b (insert sh.bitmap L)) ⊆ insert b M := by
      refine Finset.insert_subset (Finset.mem_insert_of_mem (w.indirectIn indirect)) ?_
      exact Finset.insert_subset_insert b (Finset.insert_subset w.bitmapIn sub)
    refine ⟨v', E, insert b M, w.next sub' io3 rep' w.alloc
      (fun some_ => Finset.mem_insert_of_mem (w.indirectIn some_)) (by omega) ?_, wrote, isSlot.symm,
      nonzero, Finset.mem_insert_self b M⟩
    rw [lacks, Nat.zero_add]
    exact supplies'
  · have isEntry := slot_through (v := v) low high indirect
    have present : indirectOf ROOTDEV bp (k - NDIRECT) s1 = .done ((E i).slot v k) s1 := by
      rw [indirectOf, Act.bind_apply, io1.bdata_eq (upd_same ..), Outcome.done_bind,
        if_neg (isEntry ▸ empty), isEntry]
      rfl
    refine Sat.step present (Sat.call (io1.drop rfl fun s2 io2 => ?_))
    exact ⟨v, E, _, w.seen sub io2 _, Wrote.refl sh i off v E, rfl, empty, Finset.mem_insert_self _ M⟩

/-- **bmap** finds the block of the file, or gives it one. -/
theorem bmap (w : Writing C sh A t m ip i q v E M (r + 1) s) (small : k < MAXFILE) (off : Nat) :
    Sat C (fun b s' => ∃ v' E' M', Writing C sh A t m ip i q v' E' M' r s' ∧
      Wrote sh i off [] v E v' E' ∧ b = (E' i).slot v' k ∧ b ≠ 0 ∧ b ∈ M' ∧
      ((E i).slot v k ≠ 0 → E' = E)) (Kernel.bmap ip k s) := by
  have copy : ((m.setDinode ip (E i)).icache ip).d = E i := by rw [Mem.setDinode_icache]
  have dev' := (m.setDinode_dev ip (E i)).trans dev
  obtain ⟨L, sub, io⟩ := w.io
  by_cases empty : (E i).slot v k = 0
  · unfold Kernel.bmap
    by_cases direct : k < NDIRECT
    · rw [dif_pos direct]
      have noAddr : (E i).addrs ⟨k, Nat.lt_succ_of_lt direct⟩ = 0 := by rw [← slot_direct direct, empty]
      have supplies : Supplies C sh v ((E i).lacks + r + q + 1) := w.supplies.mono (by omega)
      refine (addrOf_empty io ok w.rep w.alloc dev' copy trans sub w.bitmapIn
        (w.fits.mono (by omega)) supplies noAddr off).mono fun b s' post => ?_
      obtain ⟨v', nonzero, rep', wrote, supplies', io'⟩ := post
      rw [Mem.setDinode_again] at io'
      generalize isNew : (E i).setAddr ⟨k, Nat.lt_succ_of_lt direct⟩ b = d at rep' wrote io'
      have mine : upd E i d i = d := upd_same ..
      have ne : INDIRECT ≠ ⟨k, Nat.lt_succ_of_lt direct⟩ := by
        intro same
        have isLast : (12 : Nat) = k := congrArg Fin.val same
        have direct : k < 12 := direct
        omega
      have sameIndirect : d.addrs INDIRECT = (E i).addrs INDIRECT := by
        rw [← isNew]
        exact upd_ne (E i).addrs b ne
      have lacks : d.lacks = (E i).lacks := by
        unfold Dinode.lacks
        rw [sameIndirect]
      have sub' : insert b (insert sh.bitmap L) ⊆ insert b M :=
        Finset.insert_subset_insert b (Finset.insert_subset w.bitmapIn sub)
      refine ⟨v', upd E i d, insert b M, w.next sub' ?_ rep' (wrote.alloc w.alloc) ?_ ?_ ?_, wrote, ?_,
        nonzero, Finset.mem_insert_self b M, fun some_ => absurd empty some_⟩
      · rw [mine]
        exact io'
      · rw [mine, sameIndirect]
        exact fun some_ => Finset.mem_insert_of_mem (w.indirectIn some_)
      · rw [mine, lacks]
        omega
      · rw [mine, lacks]
        exact supplies'
      · rw [mine, slot_direct direct, ← isNew]
        exact (upd_same (E i).addrs _ b).symm
    · rw [dif_neg direct]
      have low : ¬ k < 12 := direct
      have high : k < 140 := small
      have inRange : k - NDIRECT < NINDIRECT := by
        show k - 12 < 128
        omega
      rw [if_pos inRange]
      refine Sat.step (io.inode_eq ip) ?_
      rw [dev']
      refine (w.indirect ok trans dev off).seq fun ind s1 post => ?_
      obtain ⟨v1, E1, M1, w1, wrote1, rfl, nonzero⟩ := post
      refine (w1.through ok trans (Nat.not_lt.1 direct) small nonzero off).mono fun b s' post => ?_
      obtain ⟨v', E', M', w', wrote', isSlot, some_, member⟩ := post
      exact ⟨v', E', M', w', wrote1.trans wrote', isSlot, some_, member, fun some_ => absurd empty some_⟩
  · refine (bmap_present ok dev' copy (mapped ok w.rep w.alloc small empty) io).mono fun b s' post => ?_
    obtain ⟨rfl, io'⟩ := post
    exact ⟨v, E, _, w.seen sub io' _, Wrote.refl sh i off v E, rfl, empty, Finset.mem_insert_self _ M,
      fun _ => rfl⟩

/-! ## `writei` -/

/-- **One block is written.** -/
theorem block (w : Writing C sh A t m ip i q v E M (r + 1) s) {off : Nat} {src : List Byte}
    (small : off / BSIZE < MAXFILE) (inBlock : off % BSIZE + src.length ≤ BSIZE)
    {Q : α → KState → Prop} {f : K α}
    (next : ∀ v' E' M' s', Writing C sh A t m ip i q v' E' M' r s' → Wrote sh i off src v E v' E' →
      (E' i).slot v' (off / BSIZE) ≠ 0 → ((E i).slot v (off / BSIZE) ≠ 0 → E' = E) →
      Sat C Q (f s')) :
    Sat C Q ((do
      let b ← Kernel.bmap ip (off / BSIZE)
      let bp ← bread ROOTDEV b
      let d ← bdata bp
      setData bp (d.splice (off % BSIZE) src)
      logWrite bp
      brelse bp
      f : K α) s) := by
  refine (w.bmap ok trans dev small off).seq fun b s1 post => ?_
  obtain ⟨v1, E1, M1, w1, wrote1, rfl, some_, member, present⟩ := post
  obtain ⟨L, sub, io⟩ := w1.io
  have inData := (w1.rep.slot_inData w1.alloc some_).1
  have after : sh.sb.ninodes / 8 + 3 < sh.ds := ok.afterBitmap
  have notBitmap : sh.bitmap ≠ (E1 i).slot v1 (off / BSIZE) := by
    have := inData.1
    show sh.sb.ninodes / 8 + 3 ≠ _
    omega
  have notSuper : (E1 i).slot v1 (off / BSIZE) ≠ 1 := by
    have := inData.1
    omega
  refine io.open_ ok inData.2 fun bp s2 io2 => Sat.step (io2.bdata_eq (upd_same ..)) ?_
  have count := Held.count_one bp ((E1 i).slot v1 (off / BSIZE))
  refine io2.store ok trans.toLogs (w1.fits.mono (by omega)) (upd_same ..) sub (by omega) notSuper
    fun s3 io3 => ?_
  refine Sat.call (io3.drop rfl fun s4 io4 => ?_)
  obtain ⟨rep, slots⟩ := w1.rep.repaint ok w1.alloc some_ small
    ((v1 ((E1 i).slot v1 (off / BSIZE))).splice (off % BSIZE) src)
  refine next _ E1 M1 s4 { w1 with
    io := ⟨_, Finset.insert_subset member sub, io4⟩
    rep := rep
    supplies := w1.supplies.upd notBitmap _ } ?_ ?_ present
  · exact wrote1.trans (Wrote.within w1.rep ok w1.alloc some_ small inBlock)
  · rw [slots]
    exact some_

/-- The loop of `writei`. -/
theorem loop (fuel : Nat) {off : Nat} {src : List Byte}
    (w : Writing C sh A t m ip i q v E M (spans off src.length) s) (enough : src.length < fuel)
    (bounded : off + src.length ≤ MAXFILE * BSIZE) :
    Sat C (fun _ s' => ∃ v' E' M', Writing C sh A t m ip i q v' E' M' 0 s' ∧
      Wrote sh i off src v E v' E' ∧
      (∀ o, off ≤ o → o < off + src.length → (E' i).slot v' (o / BSIZE) ≠ 0) ∧
      ((∀ o, off ≤ o → o < off + src.length → (E i).slot v (o / BSIZE) ≠ 0) → E' i = E i))
      (writeLoop ip fuel off src s) := by
  induction fuel generalizing off src v E M s with
  | zero => omega
  | succ fuel ih =>
    rw [writeLoop]
    by_cases finished : src = []
    · subst finished
      rw [if_pos rfl]
      refine ⟨v, E, M, w, Wrote.refl sh i off v E, fun o low high => ?_, fun _ => rfl⟩
      simp only [List.length_nil] at high
      omega
    rw [if_neg finished]
    have bounded' : off + src.length ≤ 140 * 512 := bounded
    have some_ : src.length ≠ 0 := fun none_ => finished (List.length_eq_zero_iff.1 none_)
    obtain ⟨L, -, io⟩ := w.io
    refine Sat.step (io.inode_eq ip) ?_
    rw [m.setDinode_dev, dev]
    generalize isPart : min src.length (BSIZE - off % BSIZE) = part
    have step := spans_step some_ isPart
    have isPart : min src.length (512 - off % 512) = part := isPart
    have lengthTake : (src.take part).length = part := by
      rw [List.length_take]
      omega
    have lengthDrop : (src.drop part).length = src.length - part := List.length_drop
    rw [step] at w
    have small : off / BSIZE < MAXFILE := by
      show off / 512 < 140
      omega
    have inBlock : off % BSIZE + (src.take part).length ≤ BSIZE := by
      rw [lengthTake]
      show off % 512 + part ≤ 512
      omega
    refine w.block ok trans dev small inBlock fun v1 E1 M1 s1 w1 wrote1 mapped1 present1 => ?_
    rw [← lengthDrop] at w1
    refine (ih w1 (by omega) ?_).mono fun _ s' post => ?_
    · show _ ≤ 140 * 512
      omega
    obtain ⟨v', E', M', w', wrote', mapped', present'⟩ := post
    have whole : src.take part ++ src.drop part = src := List.take_append_drop part src
    refine ⟨v', E', M', w', ?_, fun o low high => ?_, fun all => ?_⟩
    · have next : Wrote sh i (off + (src.take part).length) (src.drop part) v1 E1 v' E' := by
        rw [lengthTake]
        exact wrote'
      have both := wrote1.trans next
      rwa [whole] at both
    · by_cases first : o < off + part
      · have sameBlock : o / BSIZE = off / BSIZE := by
          show o / 512 = off / 512
          omega
        rw [sameBlock, wrote'.kept _ mapped1]
        exact mapped1
      · exact mapped' o (Nat.not_lt.1 first) (by omega)
    · have same1 : E1 = E := present1 (all off le_rfl (by omega))
      rw [present' fun o low high => ?_, same1]
      have there := all o (by omega) (by omega)
      rw [wrote1.kept _ there]
      exact there

/-- The size is set and the inode written. -/
theorem update (w : Writing C sh A t m ip i q v E M r s) (inum : (m.icache ip).inum = i) (size : Nat)
    {R : Unit → KState → Prop}
    (next : ∀ L s', L ⊆ M → Io sh.geo A (upd v (IBLOCK i) (putDinode (v (IBLOCK i)) i
        { E i with size := size })) L Held.nothing t (m.setDinode ip { E i with size := size }) s' →
      R () s') :
    Sat C R ((do
      setDinode ip fun d => { d with size := size }
      iupdate ip : K Unit) s) := by
  obtain ⟨L, sub, io⟩ := w.io
  obtain ⟨s1, stored, io1⟩ := io.setDinode_eq ip fun d => { d with size := size }
  rw [Mem.setDinode_icache, Mem.setDinode_again] at io1
  refine Sat.step stored ?_
  have isInode := w.alloc.1
  have below := isInode.iblock_lt
  have after := ok.afterBitmap
  have log := ok.ds_le_log
  have notSuper : IBLOCK i ≠ 1 := by
    show i / 8 + 2 ≠ 1
    omega
  unfold iupdate
  refine Sat.step (io1.inode_eq ip) ?_
  rw [Mem.setDinode_icache]
  simp only [dev, inum]
  refine io1.open_ ok (by omega) fun bp s2 io2 => Sat.step (io2.bdata_eq (upd_same ..)) ?_
  have count := Held.count_one bp (IBLOCK i)
  refine io2.store ok trans.toLogs (w.fits.mono (by omega)) (upd_same ..) sub (by omega) notSuper
    fun s3 io3 => ?_
  exact io3.drop rfl fun s4 io4 => next _ s4 (Finset.insert_subset w.inodeIn sub) io4

end Writing

/-- **What `writei` does** to the files: the bytes of file `i` from `off` on are `src`, and it is
that long at least; its other bytes, the blocks it has, and all other files stay. -/
structure Written (sh : Shape) (i off : Nat) (src : List Byte) (v : Disk) (E : Inodes)
    (v' : Disk) (E' : Inodes) : Prop where
  node : sh.nodes v' E' i = { (sh.nodes v E i).write off src with addr := (sh.nodes v' E' i).addr }
  kept : ∀ k, (sh.nodes v E i).addr k ≠ 0 → (sh.nodes v' E' i).addr k = (sh.nodes v E i).addr k
  others : ∀ j, j ≠ i → sh.nodes v' E' j = sh.nodes v E j

/-- The bytes of a file. -/
theorem Rep.node_data {Q : Set Nat} {x : Option Nat} (rep : Rep sh v E Q x) (alloc : sh.Alloc E i)
    (o : Nat) : (sh.nodes v E i).data o = if o < (E i).size then (E i).content v o else 0 := by
  rw [nodes_of_alloc alloc]
  show (if o < (E i).size then _ else _) = _
  split
  case isFalse => rfl
  case isTrue inside =>
    have filled := rep.filled i alloc (o / BSIZE)
      (lt_of_le_of_lt (Nat.div_mul_le_self o BSIZE) inside)
    rw [Dinode.content, if_neg filled]

/-- From the loop to the whole of `writei`: the size may have grown since. -/
theorem Wrote.written {off : Nat} {src : List Byte} {v1 : Disk} {E1 : Inodes}
    {Q : Set Nat} {x x' : Option Nat} (wrote : Wrote sh i off src v E v1 E1) (rep : Rep sh v E Q x)
    (rep' : Rep sh v' E' Q x') (alloc : sh.Alloc E i)
    (reach : off ≤ (E i).size)
    (final : E' i = { E1 i with size := max (E i).size (off + src.length) })
    (slots : (E' i).slot v' = (E1 i).slot v1)
    (content : ∀ o, (E1 i).slot v1 (o / BSIZE) ≠ 0 → o < MAXFILE * BSIZE →
      v' ((E1 i).slot v1 (o / BSIZE)) = v1 ((E1 i).slot v1 (o / BSIZE)))
    (others : ∀ j, j ≠ i → sh.nodes v' E' j = sh.nodes v1 E1 j) :
    Written sh i off src v E v' E' := by
  have fields := wrote.fields
  have alloc' : sh.Alloc E' i := by
    refine ⟨alloc.1, ?_⟩
    rw [final, fields]
    exact alloc.2
  have isNode := nodes_of_alloc (v := v) alloc
  have isNode' := nodes_of_alloc (v := v') alloc'
  have size' : (E' i).size = max (E i).size (off + src.length) := by rw [final]
  refine ⟨?_, fun k some_ => ?_, fun j ne => (others j ne).trans (wrote.nodes j ne)⟩
  · have data : (sh.nodes v' E' i).data = fun o =>
        if off ≤ o ∧ o < off + src.length then src.getD (o - off) 0 else (sh.nodes v E i).data o := by
      funext o
      rw [rep'.node_data alloc', rep.node_data alloc, size']
      have bounded := rep'.bounded i alloc'
      rw [size'] at bounded
      by_cases inside : o < max (E i).size (off + src.length)
      · have below : o < MAXFILE * BSIZE := lt_of_lt_of_le inside bounded
        have same : (E' i).content v' o = (E1 i).content v1 o :=
          Dinode.content_congr (congrFun slots _) fun nonzero => content o nonzero below
        rw [if_pos inside, same, wrote.content o below]
        by_cases here : off ≤ o ∧ o < off + src.length
        · rw [if_pos here, if_pos here]
        · rw [if_neg here, if_neg here]
          -- `off` is not past the end, so there is nothing between the end and `off`
          have old : o < (E i).size := by omega
          rw [if_pos old]
      · rw [if_neg inside, if_neg (by omega), if_neg (by omega)]
    have fields' : E' i = { E i with
        size := max (E i).size (off + src.length), addrs := (E' i).addrs } := by
      rw [final, fields]
    rw [show sh.nodes v' E' i = { sh.nodes v' E' i with data := (sh.nodes v' E' i).data } from rfl, data]
    rw [isNode', isNode]
    rw [fields']
    rfl
  · rw [isNode] at some_ ⊢
    rw [isNode']
    show (E' i).slot v' k = _
    rw [slots]
    exact wrote.kept k some_

/-- **The file has grown**: its inode goes to disk with the new size. -/
theorem Wrote.resize {off : Nat} {src : List Byte} {v1 : Disk} {E1 : Inodes} {x : Option Nat}
    (wrote : Wrote sh i off src v E v1 E1) (ok : sh.Ok) (rep : Rep sh v E ∅ x)
    (rep1 : Rep sh v1 E1 ∅ (some i)) (alloc : sh.Alloc E i) (reach : off ≤ (E i).size)
    (grows : (E i).size ≤ off + src.length) (bounded : off + src.length ≤ MAXFILE * BSIZE)
    (filled : ∀ k, k * BSIZE < off + src.length → (E1 i).slot v1 k ≠ 0) {d : Dinode}
    (isNew : { E1 i with size := off + src.length } = d) :
    Rep sh (upd v1 (IBLOCK i) (putDinode (v1 (IBLOCK i)) i d)) (upd E1 i d) ∅ none ∧
      d.slot (upd v1 (IBLOCK i) (putDinode (v1 (IBLOCK i)) i d)) = (E1 i).slot v1 ∧
      Written sh i off src v E (upd v1 (IBLOCK i) (putDinode (v1 (IBLOCK i)) i d)) (upd E1 i d) := by
  have alloc1 := wrote.alloc alloc
  obtain ⟨rep', slots, others⟩ := rep1.update ok alloc1 bounded filled isNew
  have mine : upd E1 i d i = d := upd_same ..
  refine ⟨rep', slots, wrote.written rep rep' alloc reach ?_ ?_ (fun o some_ _ => ?_) others⟩
  · rw [mine, Nat.max_eq_right grows, isNew]
  · rw [mine, slots]
  · rw [← place_of_alloc alloc1] at some_ ⊢
    exact upd_ne _ _ ((rep1.place_not_meta ok some_).2.2 i alloc.1)

/-- **writei** of a range within the limits. -/
theorem writei_spec {off : Nat} {src : List Byte} (io : sh.Rests A v L t m s)
    (ok : sh.Ok) (rep : Rep sh v E ∅ none) (alloc : sh.Alloc E i) (dev : (m.icache ip).dev = ROOTDEV)
    (inum : (m.icache ip).inum = i) (copy : (m.icache ip).d = E i) (notDev : (E i).type ≠ T_DEV)
    (trans : Trans C sh A t m.proc) (fits : Fits C (L.card + 3 + spans off src.length))
    (supplies : Supplies C sh v ((E i).lacks + spans off src.length + q)) (reach : off ≤ (E i).size)
    (bounded : off + src.length ≤ MAXFILE * BSIZE) :
    Sat C (fun r s' => r = some src.length ∧ ∃ v' E' L',
      sh.Rests A v' L' t (m.setDinode ip (E' i)) s' ∧ Rep sh v' E' ∅ none ∧
      Written sh i off src v E v' E' ∧ Supplies C sh v' ((E' i).lacks + q))
      (writei ip src off s) := by
  have bounded' : off + src.length ≤ 140 * 512 := bounded
  unfold writei
  refine Sat.step (io.inode_eq ip) ?_
  rw [copy, if_neg notDev, if_neg (by omega), if_neg (Nat.not_lt.2 bounded)]
  have start : ∃ M, Writing C sh A t m ip i q v E M (spans off src.length) s := by
    refine ⟨insert sh.bitmap (insert (IBLOCK i)
      (if (E i).addrs INDIRECT = 0 then L else insert ((E i).addrs INDIRECT) L)),
      ⟨L, ?_, ?_⟩, rep.work i, alloc, ?_, ?_, fun some_ => ?_, ?_, ?_⟩
    · refine (?_ : L ⊆ _).trans ((Finset.subset_insert _ _).trans (Finset.subset_insert _ _))
      split
      · exact Finset.Subset.refl L
      · exact Finset.subset_insert _ L
    · rw [← copy, Mem.setDinode_same]
      exact io
    · exact Finset.mem_insert_self _ _
    · exact Finset.mem_insert_of_mem (Finset.mem_insert_self _ _)
    · rw [if_neg some_]
      exact Finset.mem_insert_of_mem (Finset.mem_insert_of_mem (Finset.mem_insert_self _ _))
    · refine fits.mono ?_
      refine le_trans (Nat.add_le_add_right (Nat.add_le_add_right ((Finset.card_insert_le _ _).trans
        (Nat.add_le_add_right (Finset.card_insert_le _ _) 1)) _) _) ?_
      unfold Dinode.lacks
      split
      · omega
      · have := Finset.card_insert_le ((E i).addrs INDIRECT) L
        omega
    · exact supplies
  obtain ⟨M, w⟩ := start
  refine (w.loop ok trans dev (src.length + 1) (Nat.lt_succ_self _) bounded).seq
    fun _ s1 post => ?_
  obtain ⟨v1, E1, M1, w1, wrote, mapped, present⟩ := post
  have size1 : (E1 i).size = (E i).size := by rw [wrote.fields]
  obtain ⟨L1, -, io1⟩ := w1.io
  refine Sat.step (io1.inode_eq ip) ?_
  rw [Mem.setDinode_icache]
  refine Sat.runIf (fun grows => ?_) fun stays => ?_
  · have grows : (E i).size < off + src.length := by
      rw [Bool.and_eq_true, decide_eq_true_eq, decide_eq_true_eq] at grows
      exact size1 ▸ grows.2
    refine Sat.call (w1.update ok trans dev inum (off + src.length) fun L' s' _ io' => ?_)
    have filled : ∀ k, k * BSIZE < off + src.length → (E1 i).slot v1 k ≠ 0 := by
      intro k inside
      have inside : k * 512 < off + src.length := inside
      by_cases old : k * 512 < (E i).size
      · have present := rep.filled i alloc k old
        rw [wrote.kept k present]
        exact present
      · have isBlock := mapped (k * 512) (by omega) inside
        rwa [show k * 512 / BSIZE = k from Nat.mul_div_cancel k (by decide)] at isBlock
    obtain ⟨rep', -, written⟩ := wrote.resize ok rep w1.rep alloc reach grows.le bounded filled rfl
    refine ⟨rfl, _, upd E1 i { E1 i with size := off + src.length }, L', ?_, rep', written, ?_⟩
    · rw [upd_same]
      exact io'
    · rw [upd_same]
      have below := alloc.1.iblock_lt
      exact w1.supplies.upd (Nat.ne_of_gt below) _
  · have stays : off + src.length ≤ (E i).size := by
      rw [Bool.and_eq_false_iff, decide_eq_false_iff_not, decide_eq_false_iff_not] at stays
      rw [← size1]
      show _ ≤ (E1 i).size
      rcases stays with none_ | inside
      · omega
      · exact Nat.not_lt.1 inside
    have same : E1 i = E i := by
      refine present fun o low high => rep.filled i alloc (o / BSIZE) ?_
      exact lt_of_le_of_lt (Nat.div_mul_le_self o BSIZE) (by omega)
    have onDisk : Dinode.ofBlock (v1 (IBLOCK i)) i = E1 i := by
      rw [wrote.inodes i alloc.1, same]
      exact rep.disk i alloc.1 (Option.some_ne_none i)
    have rep1 := w1.rep.settle fun _ => onDisk
    refine ⟨rfl, v1, E1, L1, io1, rep1, wrote.written rep rep1 alloc reach ?_ rfl
      (fun _ _ _ => rfl) fun _ _ => rfl, w1.supplies⟩
    rw [Nat.max_eq_left stays, ← size1]

end Write

end Xv6Rpi.Kernel
