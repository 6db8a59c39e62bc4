/-
# Proc.UserFile -- the file system moves the bytes that user memory sees

`readi`, `writei` and `filewrite` stand in two places.  `Proc.UserMem` has the user addresses they
touch and leaves the disk to an `Env`; `Kernel.Fs` and `Kernel.FileWrite` have the disk and leave the
addresses out.  Where the `Env` finds of the file what the file system has, the addresses are those of
the bytes that the file system reads or writes, one after the other.
-/
import Xv6Rpi.Kernel.FileWrite
import Xv6Rpi.Proc.UserMem

namespace Xv6Rpi.Proc.UserMem

open Theory Kernel

set_option autoImplicit false

/-- The size and the offset the `k`th time the inode is locked. -/
structure Env.Finds (env : Env) (k size off : Nat) : Prop where
  size : (env.size k).toNat = size
  off : (env.off k).toNat = off

section Words

variable {f : OpenFile} {env : Env} {k size off : Nat}

/-- What `readi` and `writei` check first. -/
theorem Env.Finds.outside_iff (finds : env.Finds k size off) (n : Word) :
    (env.size k < env.off k ∨ env.off k + n < env.off k) ↔
      size < off ∨ 4294967296 ≤ off + n.toNat := by
  have := n.isLt
  have := (env.off k).isLt
  simp only [BitVec.lt_def, BitVec.toNat_add, finds.size, finds.off] at *
  omega

theorem Env.Finds.sum (finds : env.Finds k size off) {n : Word}
    (inside : ¬ (size < off ∨ 4294967296 ≤ off + n.toNat)) :
    (env.off k + n).toNat = off + n.toNat := by
  rw [BitVec.toNat_add, finds.off]
  omega

theorem readiCount_toNat {node : Node} (finds : env.Finds k node.size off) (n : Word) :
    (readiCount (env.size k) (env.off k) n).toNat = ((node.read off n.toNat).getD []).length := by
  unfold readiCount Node.read
  by_cases bad : node.size < off ∨ 4294967296 ≤ off + n.toNat
  · rw [if_pos ((finds.outside_iff n).2 bad), if_pos bad]
    rfl
  · have sum := finds.sum bad
    rw [if_neg (mt (finds.outside_iff n).1 bad), if_neg bad]
    by_cases clipped : env.size k < env.off k + n
    · have inside : env.off k ≤ env.size k := by
        rw [BitVec.le_def, finds.size, finds.off]
        omega
      rw [if_pos clipped, BitVec.toNat_sub_of_le inside, finds.size, finds.off]
      rw [BitVec.lt_def, sum, finds.size] at clipped
      simp
      omega
    · rw [if_neg clipped]
      rw [BitVec.lt_def, sum, finds.size] at clipped
      simp
      omega

/-- `writei` touches the whole source, or nothing. -/
theorem writei_eq (notDev : f.type ≠ T_DEV) (finds : env.Finds k size off) (src n : Word) :
    writei f env k src n =
      if size < off ∨ 4294967296 ≤ off + n.toNat ∨ MAXFILE * BSIZE < off + n.toNat then ([], false)
      else (span src n.toNat, true) := by
  unfold writei
  rw [if_neg notDev, copyLoop_whole]
  by_cases bad : size < off ∨ 4294967296 ≤ off + n.toNat
  · rw [if_pos ((finds.outside_iff n).2 bad), if_pos (bad.imp_right Or.inl)]
  · have large : MAXSIZE < env.off k + n ↔
        size < off ∨ 4294967296 ≤ off + n.toNat ∨ MAXFILE * BSIZE < off + n.toNat := by
      rw [BitVec.lt_def, finds.sum bad, ← or_assoc, or_iff_right bad]
      exact Iff.rfl
    rw [if_neg (mt (finds.outside_iff n).1 bad)]
    exact if_congr large rfl rfl

end Words

/-! ## Reading and writing a locked file -/

section Locked

variable {sh : Shape} {A v : Disk} {E : Inodes} {L : Finset Nat} {t : Option Pid} {m : Mem}
  {ip : InodeId} {i off : Nat} {s : KState} {f : OpenFile} {env : Env}

/-- **`readi` touches as many bytes as it reads**, from the destination on. -/
theorem readi_touches (ok : sh.Ok) (x : Locked sh A v E L t m ip i s)
    (notDev : (sh.nodes v E i).type ≠ T_DEV) (type : f.type = (sh.nodes v E i).type)
    (finds : env.Finds 0 (sh.nodes v E i).size off) (dst n : Word) :
    ∃ r s', (Kernel.readi ip off n.toNat s).leaf = .done r s' ∧
      readi f env dst n = span dst (r.getD []).length := by
  have sat : Sat Contract.total (fun r s' => r = (sh.nodes v E i).read off n.toNat ∧
      Locked sh A v E L t m ip i s') (Kernel.readi ip off n.toNat s) := x.readi ok notDev
  obtain ⟨r, s', leaf, rfl, -⟩ := sat.returns
  refine ⟨_, s', leaf, ?_⟩
  rw [← type] at notDev
  rw [readi, if_neg notDev, ← readiCount_toNat finds n]
  exact copyLoop_whole _ _ _

/-- **`writei` touches the bytes it writes**, and fails without touching any. -/
theorem writei_touches (ok : sh.Ok) (x : Locked sh A v E L t m ip i s)
    (notDev : (sh.nodes v E i).type ≠ T_DEV) (opened : t ≠ none)
    (type : f.type = (sh.nodes v E i).type) {k : Nat}
    (finds : env.Finds k (sh.nodes v E i).size off) (src : List Byte) (addr n : Word)
    (length : src.length = n.toNat) :
    Sat (unlessFull sh) (fun r _ => writei f env k addr n = (span addr (r.getD 0), r.isSome))
      (Kernel.writei ip src off s) := by
  have isWritei : writei f env k addr n = if (sh.nodes v E i).BadRange off n.toNat then ([], false)
      else (span addr n.toNat, true) := writei_eq (type ▸ notDev) finds addr n
  rw [← length] at isWritei
  rw [isWritei]
  by_cases bad : (sh.nodes v E i).BadRange off src.length
  · rw [x.writei_refused notDev bad, if_pos bad]
    rfl
  · refine (x.writei ok notDev (trans_of_shows opened fun _ _ => trivial) (unlessFull_fits sh _)
      (unlessFull_supplies sh v _) bad (q := 0)).mono fun r s' post => ?_
    obtain ⟨rfl, -⟩ := post
    rw [if_neg bad]
    rfl

end Locked

/-! ## A write in pieces -/

/-- The offset moves on with every piece, and stays inside the file. -/
def Env.Advances (env : Env) (off : Nat) : Prop :=
  ∀ k, off + WRITEMAX * k ≤ MAXFILE * BSIZE →
    (env.off k).toNat = off + WRITEMAX * k ∧ off + WRITEMAX * k ≤ (env.size k).toNat

theorem filewriteLoop_eq {f : OpenFile} {env : Env} {off : Nat} (notDev : f.type ≠ T_DEV)
    (advances : env.Advances off) (addr : Word) (n : Int) (fuel : Nat) :
    ∀ i k, (i < n.toNat → i = WRITEMAX * k) → off + i ≤ MAXFILE * BSIZE → n.toNat ≤ fuel + i →
      filewriteLoop f env addr n fuel i k =
        span (addr + BitVec.ofNat 32 i) (progress (off + i) (n.toNat - i)) := by
  induction fuel with
  | zero =>
    intro i k _ _ enough
    have none_ : n.toNat - i = 0 := by omega
    rw [none_, Nat.le_zero.1 (progress_le _ 0)]
    rfl
  | succ fuel ih =>
    intro i k whole bounded enough
    rw [filewriteLoop]
    by_cases more : (i : Int) < n
    · have here := whole (by omega)
      obtain ⟨isOff, inside⟩ := advances k (here ▸ bounded)
      rw [← here] at isOff inside
      have finds : env.Finds k (env.size k).toNat (off + i) := ⟨rfl, isOff⟩
      have piece : (BitVec.ofInt 32 (min (n - i) CHUNK)).toNat = min (n.toNat - i) 1536 := by
        rw [BitVec.toNat_ofInt]
        show (min (n - i) 1536 % _).toNat = _
        omega
      have piece' : (min (n - i) CHUNK).toNat = min (n.toNat - i) 1536 := by
        show (min (n - i) 1536).toNat = _
        omega
      rw [if_pos more]
      dsimp only
      rw [writei_eq notDev finds, piece, piece']
      have bounded' : off + i ≤ 71680 := bounded
      by_cases fits : off + i + min (n.toNat - i) WRITEMAX ≤ MAXFILE * BSIZE
      · have fits' : off + i + min (n.toNat - i) 1536 ≤ 71680 := fits
        have good : ¬ ((env.size k).toNat < off + i ∨
            4294967296 ≤ off + i + min (n.toNat - i) 1536 ∨
            MAXFILE * BSIZE < off + i + min (n.toNat - i) 1536) := by
          rintro (past | wraps | large)
          · exact absurd past (Nat.not_lt.2 inside)
          · omega
          · exact absurd large (Nat.not_lt.2 fits)
        rw [if_neg good, if_pos rfl, ih (i + min (n.toNat - i) 1536) (k + 1) ?_ ?_ (by omega),
          progress_step fits, ← span_append, BitVec.ofNat_add, ← BitVec.add_assoc, Nat.add_assoc off,
          Nat.sub_add_eq]
        · rfl
        · intro left
          show _ = 1536 * (k + 1)
          have here : i = 1536 * k := here
          omega
        · exact (Nat.add_assoc off i _).symm ▸ fits
      · have bad : (env.size k).toNat < off + i ∨
            4294967296 ≤ off + i + min (n.toNat - i) 1536 ∨
            MAXFILE * BSIZE < off + i + min (n.toNat - i) 1536 := Or.inr (Or.inr (Nat.not_le.1 fits))
        rw [if_pos bad, progress_none bounded (Nat.not_le.1 fits)]
        rfl
    · have none_ : n.toNat - i = 0 := by omega
      rw [if_neg more, none_, Nat.le_zero.1 (progress_le _ 0)]
      rfl

/-- **`filewrite` touches the bytes by which it moves the file's offset**, from the source on, whether
it returns their number or breaks off. -/
theorem filewrite_touches {sh : Shape} {v : Disk} {E : Inodes} {m : Mem} {f : FileId}
    {i : Nat} {s : KState} (ok : sh.Ok) (x : Opened sh v E none m f i s)
    (writable : (m.ftable f).writable = true) (notDev : (sh.nodes v E i).type ≠ T_DEV)
    (reach : (m.ftable f).off ≤ (sh.nodes v E i).size) {file : OpenFile} {env : Env}
    (canWrite : file.writable = true) (isInode : file.fdType = .inode)
    (type : file.type = (sh.nodes v E i).type) (advances : env.Advances (m.ftable f).off)
    (src : List Byte) (addr n : Word) (length : src.length = n.toInt.toNat) :
    Sat (unlessDiskFull sh) (fun _ s' => ∃ v' E' m', Opened sh v' E' none m' f i s' ∧
      filewrite file env addr n = span addr ((m'.ftable f).off - (m.ftable f).off))
      (Kernel.filewrite f src s) := by
  have bounded : (m.ftable f).off ≤ MAXFILE * BSIZE := by
    refine reach.trans ?_
    rw [nodes_of_alloc x.alloc]
    exact x.rep.bounded i x.alloc
  refine (filewrite_spec x ok writable notDev (fun _ _ => trivial) reach
    (unlessDiskFull_supplies sh v _)).mono fun r s' post => ?_
  obtain ⟨-, v', E', m', x', moved, -⟩ := post
  refine ⟨v', E', m', x', ?_⟩
  rw [moved.file]
  dsimp only
  rw [Nat.add_sub_cancel_left, length, filewrite, canWrite, isInode, if_neg (by decide)]
  have loop := filewriteLoop_eq (type ▸ notDev) advances addr n.toInt n.toInt.toNat 0 0
    (fun _ => rfl) bounded le_rfl
  simpa using loop

end Xv6Rpi.Proc.UserMem
