/-
# Kernel.FsRead -- reading files

`readi` and what is built on it, for a file none of whose blocks in question is missing
(`Dinode.Mapped`).  Nothing is asked of other files or of the bitmap: `bmap` does not come to
allocate, so the view `v`, the log and the memory stay, and only the buffer cache changes.

* `readi_spec`: what `readi` returns.
-/
import Xv6Rpi.Kernel.FsBlock

namespace Xv6Rpi.Kernel

open Theory

set_option autoImplicit false

/-! ## Files as arrays of bytes -/

/-- The bytes `[off, off + count)` of a file, as far as it goes; `none` for a bad range. -/
def Node.read (f : Node) (off count : Nat) : Option (List Byte) :=
  if f.size < off ∨ 4294967296 ≤ off + count then none
  else some ((List.range (min (off + count) f.size - off)).map fun j => f.data (off + j))

/-- The file with `src` from `off` on. -/
def Node.write (f : Node) (off : Nat) (src : List Byte) : Node :=
  { f with
    size := max f.size (off + src.length)
    data := fun o => if off ≤ o ∧ o < off + src.length then src.getD (o - off) 0 else f.data o }

theorem Node.write_nil (f : Node) {off : Nat} (inside : off ≤ f.size) : f.write off [] = f := by
  have none_ : ∀ o, ¬ (off ≤ o ∧ o < off) := fun o => by omega
  simp [Node.write, inside, none_]

/-- Writing one piece after the other. -/
theorem Node.write_write (f : Node) (off : Nat) (a b : List Byte) :
    (f.write off a).write (off + a.length) b = f.write off (a ++ b) := by
  have size : max (max f.size (off + a.length)) (off + a.length + b.length) =
      max f.size (off + (a ++ b).length) := by
    rw [List.length_append]
    omega
  have data : (fun o => if off + a.length ≤ o ∧ o < off + a.length + b.length
        then b.getD (o - (off + a.length)) 0
        else if off ≤ o ∧ o < off + a.length then a.getD (o - off) 0 else f.data o) =
      fun o => if off ≤ o ∧ o < off + (a ++ b).length then (a ++ b).getD (o - off) 0
        else f.data o := by
    funext o
    rw [List.length_append]
    by_cases first : o < off + a.length
    · rw [if_neg (by omega)]
      by_cases low : off ≤ o
      · rw [if_pos ⟨low, first⟩, if_pos ⟨low, by omega⟩, List.getD_append _ _ _ _ (by omega)]
      · rw [if_neg (by omega), if_neg (by omega)]
    · by_cases inside : o < off + a.length + b.length
      · rw [if_pos ⟨by omega, inside⟩, if_pos ⟨by omega, by omega⟩,
          List.getD_append_right _ _ _ _ (by omega), Nat.sub_add_eq]
      · rw [if_neg (by omega), if_neg (by omega), if_neg (by omega)]
  unfold Node.write
  rw [size, data]

/-- The byte at an offset of a file; zero where it has no block. -/
def Dinode.content (d : Dinode) (v : Disk) (o : Nat) : Byte :=
  if d.slot v (o / BSIZE) = 0 then 0 else (v (d.slot v (o / BSIZE))).get (o % BSIZE)

theorem Dinode.content_congr {d d' : Dinode} {v v' : Disk} {o : Nat}
    (slots : d'.slot v' (o / BSIZE) = d.slot v (o / BSIZE))
    (same : d.slot v (o / BSIZE) ≠ 0 → v' (d.slot v (o / BSIZE)) = v (d.slot v (o / BSIZE))) :
    d'.content v' o = d.content v o := by
  rw [Dinode.content, Dinode.content, slots]
  by_cases none_ : d.slot v (o / BSIZE) = 0
  · rw [if_pos none_, if_pos none_]
  · rw [if_neg none_, if_neg none_, same none_]

/-- `n` bytes of a file. -/
def Dinode.bytes (d : Dinode) (v : Disk) (off n : Nat) : List Byte :=
  (List.range n).map fun i => d.content v (off + i)

/-- The file has block `k`, where the file system keeps its blocks. -/
structure Dinode.Mapped (sh : Shape) (d : Dinode) (v : Disk) (k : Nat) : Prop where
  small : k < MAXFILE
  some_ : d.slot v k ≠ 0
  inside : d.slot v k < sh.log
  indirect : d.addrs INDIRECT < sh.log

theorem Dinode.bytes_add (d : Dinode) (v : Disk) (off m n : Nat) :
    d.bytes v off (m + n) = d.bytes v off m ++ d.bytes v (off + m) n := by
  simp [Dinode.bytes, List.range_add, Function.comp_def, Nat.add_assoc]

/-- What is read within one block. -/
theorem Dinode.slice_eq_bytes {d : Dinode} {v : Disk} {off m : Nat}
    (some_ : d.slot v (off / BSIZE) ≠ 0) (within : off % BSIZE + m ≤ BSIZE) :
    (v (d.slot v (off / BSIZE))).slice (off % BSIZE) m = d.bytes v off m := by
  refine List.map_congr_left fun i member => ?_
  have below := List.mem_range.1 member
  have within : off % 512 + m ≤ 512 := within
  have sameBlock : (off + i) / BSIZE = off / BSIZE := by
    show (off + i) / 512 = off / 512
    omega
  have place : (off + i) % BSIZE = off % BSIZE + i := by
    show (off + i) % 512 = off % 512 + i
    omega
  rw [Dinode.content, sameBlock, if_neg some_, place]

-- otherwise the test for an entry of an indirect block is evaluated
attribute [local irreducible] Bytes.u32

section Read

variable {C : KContract} {sh : Shape} {A v : Disk} {L : Finset Nat} {h : Held}
  {t : Option Pid} {m : Mem} {s : KState} {ip : InodeId} {d : Dinode} {α : Type}

namespace Io

theorem inode_eq (io : Io sh.geo A v L h t m s) (ip : InodeId) :
    Kernel.inode ip s = .done (m.icache ip) s := by
  show Outcome.done (s.mem.icache ip) s = _
  rw [io.mem]

/-- Code that holds no buffer finds one. -/
theorem idle_room (io : sh.Rests A v L t m s) (ok : sh.Ok) :
    Held.nothing.count + L.card < NBUF := by
  have few := io.fits
  have nlog : sh.geo.nlog = 10 := ok.nlog
  rw [io.count_eq_card] at few
  rw [Held.count_nothing]
  show 0 + L.card < 10
  omega

/-- `bread` by code that holds no buffer. -/
theorem open_ (io : sh.Rests A v L t m s) (ok : sh.Ok) {x : Nat} (below : x < sh.log)
    {Q : α → KState → Prop} {f : BufId → K α}
    (next : ∀ b s', Io sh.geo A v L (upd Held.nothing b (some x)) t m s' → Sat C Q (f b s')) :
    Sat C Q ((Kernel.bread ROOTDEV x >>= f) s) := by
  exact io.bread (ok.onDisk_of_lt below) (Shape.not_inLog below) (fun b held => by cases held)
    (Or.inl (io.idle_room ok)) fun b s' _ io' => next b s' io'

/-- Reading a block and letting it go. -/
theorem peek (io : sh.Rests A v L t m s) (ok : sh.Ok) {x : Nat} (below : x < sh.log)
    {Q : α → KState → Prop} {f : Block → K α}
    (next : ∀ s', sh.Rests A v L t m s' → Sat C Q (f (v x) s')) :
    Sat C Q ((Kernel.bread ROOTDEV x >>= fun bp => bdata bp >>= fun b => Kernel.brelse bp >>= fun _ =>
      f b) s) := by
  refine io.open_ ok below fun b s1 io1 => Sat.step (io1.bdata_eq (upd_same ..)) ?_
  exact Sat.call (io1.drop rfl fun s2 io2 => next s2 io2)

end Io

variable (ok : sh.Ok) (dev : (m.icache ip).dev = ROOTDEV) (isCopy : (m.icache ip).d = d)

/-- `addrs[k]` that is there. -/
theorem addrOf_present {k : Fin (NDIRECT + 1)} (some_ : (m.icache ip).d.addrs k ≠ 0)
    (io : Io sh.geo A v L h t m s) : addrOf ip k s = .done ((m.icache ip).d.addrs k) s := by
  rw [addrOf, Act.bind_apply, io.inode_eq, Outcome.done_bind, if_neg some_]
  rfl

include ok dev isCopy

/-- **bmap** of a block that is there. -/
theorem bmap_present {k : Nat} (mapped : d.Mapped sh v k) (io : sh.Rests A v L t m s) :
    Sat C (fun b s' => b = d.slot v k ∧ sh.Rests A v L t m s') (bmap ip k s) := by
  subst isCopy
  have some_ := mapped.some_
  unfold bmap
  by_cases direct : k < NDIRECT
  · rw [dif_pos direct]
    rw [slot_direct direct] at some_ ⊢
    rw [addrOf_present some_ io]
    exact ⟨rfl, io⟩
  · rw [dif_neg direct]
    have small : k < 140 := mapped.small
    have low : ¬ k < 12 := direct
    have indirect : (m.icache ip).d.addrs INDIRECT ≠ 0 := fun none_ =>
      some_ (slot_of_none (Nat.not_lt.1 direct) none_)
    have isEntry := slot_through (v := v) (Nat.not_lt.1 direct) mapped.small indirect
    rw [isEntry] at some_ ⊢
    have inRange : k - NDIRECT < NINDIRECT := by
      show k - 12 < 128
      omega
    rw [if_pos inRange]
    refine Sat.step (io.inode_eq ip) (Sat.step (addrOf_present indirect io) ?_)
    rw [dev]
    refine io.open_ ok mapped.indirect fun bp s1 io1 => ?_
    have present : indirectOf ROOTDEV bp (k - NDIRECT) s1 =
        .done ((v ((m.icache ip).d.addrs INDIRECT)).u32 (4 * (k - NDIRECT))) s1 := by
      rw [indirectOf, Act.bind_apply, io1.bdata_eq (upd_same ..), Outcome.done_bind, if_neg some_]
      rfl
    refine Sat.step present (Sat.call (io1.drop rfl fun s2 io2 => ?_))
    exact ⟨rfl, io2⟩

/-- The loop of `readi`. -/
theorem readLoop_spec (fuel : Nat) {off left_ : Nat} (enough : left_ < fuel)
    (mapped : ∀ o, off ≤ o → o < off + left_ → d.Mapped sh v (o / BSIZE))
    (io : sh.Rests A v L t m s) :
    Sat C (fun l s' => l = d.bytes v off left_ ∧ sh.Rests A v L t m s')
      (readLoop ip fuel off left_ s) := by
  induction fuel generalizing off left_ s with
  | zero => omega
  | succ fuel ih =>
    rw [readLoop]
    by_cases finished : left_ = 0
    · rw [if_pos finished, finished]
      exact ⟨rfl, io⟩
    rw [if_neg finished]
    have here := mapped off (le_refl off) (by omega)
    refine Sat.step (io.inode_eq ip) ?_
    refine (bmap_present ok dev isCopy here io).seq fun b s1 post => ?_
    obtain ⟨rfl, io1⟩ := post
    rw [dev]
    refine io1.peek ok here.inside fun s2 io2 => ?_
    generalize isPart : min left_ (BSIZE - off % BSIZE) = part
    have isPart : min left_ (512 - off % 512) = part := isPart
    have within : off % BSIZE + part ≤ BSIZE := by
      show off % 512 + part ≤ 512
      omega
    have fewer : left_ - part < fuel := by omega
    have later : ∀ o, off + part ≤ o → o < off + part + (left_ - part) → d.Mapped sh v (o / BSIZE) :=
      fun o low high => mapped o (by omega) (by omega)
    refine (ih fewer later io2).seq fun l s3 post => ?_
    obtain ⟨rfl, io3⟩ := post
    refine ⟨?_, io3⟩
    rw [Dinode.slice_eq_bytes here.some_ within, ← Dinode.bytes_add]
    congr 1
    omega

/-- What `readi` returns of a file that is no device. -/
def Dinode.readResult (d : Dinode) (v : Disk) (off n : Nat) : Option (List Byte) :=
  if d.size < off ∨ 4294967296 ≤ off + n then none
  else some (d.bytes v off (min (off + n) d.size - off))

/-- **readi** of a file whose blocks in the range are there. -/
theorem readi_spec {off n : Nat} (notDev : d.type ≠ T_DEV)
    (mapped : ∀ o, off ≤ o → o < min (off + n) d.size → d.Mapped sh v (o / BSIZE))
    (io : sh.Rests A v L t m s) :
    Sat C (fun r s' => r = d.readResult v off n ∧ sh.Rests A v L t m s')
      (readi ip off n s) := by
  unfold readi Dinode.readResult
  refine Sat.step (io.inode_eq ip) ?_
  rw [isCopy, if_neg notDev]
  by_cases bad : d.size < off ∨ 4294967296 ≤ off + n
  · rw [if_pos bad, if_pos bad]
    exact ⟨rfl, io⟩
  rw [if_neg bad, if_neg bad]
  have count : (if d.size < off + n then d.size - off else n) = min (off + n) d.size - off := by
    split
    all_goals omega
  rw [count]
  have read := readLoop_spec (C := C) ok dev isCopy (min (off + n) d.size - off + 1)
    (Nat.lt_succ_self _) (fun o low high => mapped o low (by omega)) io
  show Sat C _ ((readLoop ip _ off _ >>= fun l => pure (some l)) s)
  refine read.seq fun l s1 post => ?_
  obtain ⟨rfl, io1⟩ := post
  exact ⟨rfl, io1⟩

end Read

end Xv6Rpi.Kernel
