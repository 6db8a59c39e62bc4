/-
# Kernel.FsNamei -- namei walks the tree

`namex` holds one reference at a time to an entry of the inode cache, two while it goes from a
directory to the next inode.  `Walks m0 m extra locked`: the memory `m` is `m0` with the references
`extra` to entries of the cache, of which one may be locked.  Nothing is written: no inode loses its
last reference and its last link on the way (`Stays`).

`namei_resolves`: what `namei` and `nameiparent` return is the walk over the components of the path
(`enter`, `components`), whatever slashes stand between them.
-/
import Mathlib.Data.List.Count
import Xv6Rpi.Kernel.FsPath

namespace Xv6Rpi.Kernel

open Theory

set_option autoImplicit false

/-! ## The inode cache on the way -/

/-- An entry of the cache that was `x0` is `x` now, with `k` references more. -/
structure Counted (E : Inodes) (x0 x : Inode) (k : Nat) (isLocked : Prop) : Prop where
  ref : x.ref = x0.ref + k
  inum : 1 ≤ x0.ref → x.inum = x0.inum
  dev : 1 ≤ x.ref → x.dev = ROOTDEV
  fresh : 1 ≤ x.ref → x.valid = true → x.d = E x.inum
  busy : 1 ≤ x.ref → (x.busy = true ↔ isLocked)
  held : isLocked → 1 ≤ x.ref

/-- The memory is `m0` with the references `extra` to entries of the inode cache. -/
structure Walks (E : Inodes) (m0 m : Mem) (extra : List InodeId) (locked : Option InodeId) :
    Prop where
  others : m = { m0 with icache := m.icache }
  entry : ∀ j, Counted E (m0.icache j) (m.icache j) (extra.count j) (locked = some j)
  /-- no inode is cached twice -/
  one : ∀ j k, 1 ≤ (m.icache j).ref → 1 ≤ (m.icache k).ref →
    (m.icache j).inum = (m.icache k).inum → j = k

/-- An inode that has a link, or that someone else refers to. -/
def Stays (E : Inodes) (m0 : Mem) (i : Nat) : Prop :=
  (E i).nlink ≠ 0 ∨ ∃ j, 1 ≤ (m0.icache j).ref ∧ (m0.icache j).inum = i

/-- Two entries of the cache are free. -/
def CacheRoom (m0 : Mem) : Prop := ∃ j k, j ≠ k ∧ (m0.icache j).ref = 0 ∧ (m0.icache k).ref = 0

section Cache

variable {C : KContract} {sh : Shape} {A v : Disk} {E : Inodes}
  {L : Finset Nat} {h : Held} {t : Option Pid} {m0 m : Mem} {ip : InodeId} {i : Nat} {s : KState}
  {extra : List InodeId} {locked : Option InodeId}

theorem Mem.setInode_other (m : Mem) {j ip : InodeId} (ne : j ≠ ip) (x : Inode) :
    (m.setInode ip x).icache j = m.icache j := upd_ne _ _ ne

/-- A change that keeps the inode of an entry keeps them all. -/
theorem Mem.setInode_inum {m : Mem} {ip : InodeId} {x : Inode} (same : x.inum = (m.icache ip).inum)
    (k : InodeId) : ((m.setInode ip x).icache k).inum = (m.icache k).inum := by
  by_cases here : k = ip
  · rw [here, Mem.setInode_icache, same]
  · rw [Mem.setInode_other m here]

namespace Walks

/-- One entry changes. -/
theorem setInode {extra' : List InodeId} {locked' : Option InodeId} {x : Inode}
    (walks : Walks E m0 m extra locked)
    (counts : ∀ j, j ≠ ip → extra'.count j = extra.count j)
    (locks : ∀ j, j ≠ ip → (locked' = some j ↔ locked = some j))
    (entry : Counted E (m0.icache ip) x (extra'.count ip) (locked' = some ip))
    (one : 1 ≤ x.ref → ∀ j, j ≠ ip → 1 ≤ (m.icache j).ref → (m.icache j).inum ≠ x.inum) :
    Walks E m0 (m.setInode ip x) extra' locked' := by
  have here : (m.setInode ip x).icache ip = x := Mem.setInode_icache ..
  have there : ∀ j, j ≠ ip → (m.setInode ip x).icache j = m.icache j :=
    fun j ne => m.setInode_other ne x
  refine ⟨?_, fun j => ?_, fun j k => ?_⟩
  · rw [Mem.setInode, walks.others]
  · by_cases same : j = ip
    · rw [same, here]
      exact entry
    · rw [there j same, counts j same, locks j same]
      exact walks.entry j
  · by_cases isJ : j = ip
    · by_cases isK : k = ip
      · exact fun _ _ _ => isJ.trans isK.symm
      · rw [isJ, here, there k isK]
        exact fun some_ some' same => absurd same.symm (one some_ k isK some')
    · by_cases isK : k = ip
      · rw [isK, here, there j isJ]
        exact fun some_ some' same => absurd same (one some' j isJ some_)
      · rw [there j isJ, there k isK]
        exact walks.one j k

theorem ref_pos (walks : Walks E m0 m extra locked) (member : ip ∈ extra) : 1 ≤ (m.icache ip).ref := by
  have count := List.count_pos_iff.2 member
  rw [(walks.entry ip).ref]
  omega

/-- An entry whose inode stays the same is still the only one with it. -/
theorem alone (walks : Walks E m0 m extra locked) (some_ : 1 ≤ (m.icache ip).ref) (j : InodeId)
    (ne : j ≠ ip) (some' : 1 ≤ (m.icache j).ref) : (m.icache j).inum ≠ (m.icache ip).inum :=
  fun same => ne (walks.one j ip some' some_ same)

/-- With one reference on the way, a free entry is left. -/
theorem room (walks : Walks E m0 m extra locked) (few : extra.length ≤ 1) (roomy : CacheRoom m0) :
    ∃ j, (m.icache j).ref = 0 := by
  obtain ⟨j, k, ne, free, free'⟩ := roomy
  have refs := fun j => (walks.entry j).ref
  by_cases member : j ∈ extra
  · refine ⟨k, ?_⟩
    have other : k ∉ extra := by
      intro member'
      obtain ⟨x, rfl⟩ := List.length_eq_one_iff.1 (le_antisymm few (List.length_pos_of_mem member))
      exact ne ((List.mem_singleton.1 member).trans (List.mem_singleton.1 member').symm)
    rw [refs k, free', List.count_eq_zero_of_not_mem other]
  · exact ⟨j, by rw [refs j, free, List.count_eq_zero_of_not_mem member]⟩

end Walks

/-- **iget** of an inode of the file system. -/
theorem Walks.iget (walks : Walks E m0 m extra locked) (io : Io sh.geo A v L h t m s)
    (full : (∀ s : KState, s.NoEntry → C.fails .iget s) ∨ extra.length ≤ 1 ∧ CacheRoom m0) (i : Nat) :
    Sat C (fun j s' => ∃ m', Io sh.geo A v L h t m' s' ∧ Walks E m0 m' (j :: extra) locked ∧
      (m'.icache j).inum = i ∧ ∀ k, 1 ≤ (m.icache k).ref →
        (m'.icache k).inum = (m.icache k).inum ∧ (m'.icache k).d = (m.icache k).d)
      (Kernel.iget ROOTDEV i s) := by
  refine io.iget (fun used => ?_) (fun j s' some_ isDev isInum io' => ?_)
    fun j s' unused absent io' => ?_
  · rcases full with fails | ⟨few, roomy⟩
    · exact fails s used
    · obtain ⟨j, unused⟩ := walks.room few roomy
      rw [← io.mem] at unused
      exact absurd unused (used j)
  · have entry := walks.entry j
    refine ⟨_, io', ?_, ?_, fun k _ => ?_⟩
    · refine walks.setInode (fun k ne => List.count_cons_of_ne (Ne.symm ne)) (fun _ _ => Iff.rfl)
        ⟨?_, entry.inum, fun _ => isDev, fun _ => entry.fresh some_, fun _ => entry.busy some_,
          fun _ => Nat.succ_pos _⟩ fun _ => walks.alone some_
      rw [List.count_cons_self, entry.ref, Nat.add_assoc]
    · rw [Mem.setInode_icache]
      exact isInum
    · by_cases same : k = j
      · rw [same, Mem.setInode_icache]
        exact ⟨rfl, rfl⟩
      · rw [Mem.setInode_other m same]
        exact ⟨rfl, rfl⟩
  · have entry := walks.entry j
    have before := entry.ref
    rw [unused] at before
    refine ⟨_, io', ?_, ?_, fun k some_ => ?_⟩
    · refine walks.setInode (fun k ne => List.count_cons_of_ne (Ne.symm ne)) (fun _ _ => Iff.rfl)
        ⟨?_, ?_, fun _ => rfl, fun _ never => (nomatch never), fun _ => ?_, fun _ => le_rfl⟩
        fun _ k _ some_ => absent k some_ ((walks.entry k).dev some_)
      · rw [List.count_cons_self]
        dsimp only
        omega
      · intro some_
        omega
      · refine iff_of_false Bool.false_ne_true fun isLocked => ?_
        have := entry.held isLocked
        omega
    · rw [Mem.setInode_icache]
    · have other : k ≠ j := by
        rintro rfl
        omega
      rw [Mem.setInode_other m other]
      exact ⟨rfl, rfl⟩

/-- **ilock** of an inode on the way. -/
theorem Walks.ilock (walks : Walks E m0 m extra none) (io : sh.Rests A v L t m s)
    (ok : sh.Ok) (rep : Rep sh v E ∅ none) (member : ip ∈ extra) (inum : (m.icache ip).inum = i)
    (alloc : sh.Alloc E i) :
    Sat C (fun _ s' => ∃ m', Locked sh A v E L t m' ip i s' ∧ Walks E m0 m' extra (some ip))
      (Kernel.ilock ip s) := by
  have some_ := walks.ref_pos member
  have entry := walks.entry ip
  have unlocked : (m.icache ip).busy = false :=
    Bool.eq_false_iff.2 fun isBusy => (nomatch (entry.busy some_).1 isBusy)
  have cached : Cached m ip i (E i) :=
    ⟨entry.dev some_, inum, some_, unlocked, fun valid => inum ▸ entry.fresh some_ valid⟩
  refine (ilock_spec io ok rep alloc cached).mono fun _ s' io' => ⟨_, ⟨io', rep, alloc, ?_, ?_, ?_⟩, ?_⟩
  · rw [Mem.setInode_icache]
    exact entry.dev some_
  · rw [Mem.setInode_icache]
    exact inum
  · rw [Mem.setInode_icache]
  · refine walks.setInode (fun _ _ => rfl) (fun j ne => ?_)
      ⟨entry.ref, entry.inum, entry.dev, fun _ _ => inum ▸ rfl, fun _ => iff_of_true rfl rfl, fun _ => some_⟩
      fun _ => walks.alone some_
    exact iff_of_false (fun same => ne (Option.some.inj same).symm) (Option.some_ne_none j).symm

/-- **iunlock** of the inode that is locked. -/
theorem Walks.iunlock (walks : Walks E m0 m extra (some ip)) (io : Io sh.geo A v L h t m s) :
    ∃ m' s', Kernel.iunlock ip s = .done () s' ∧ Io sh.geo A v L h t m' s' ∧ Walks E m0 m' extra none ∧
      ∀ k, (m'.icache k).inum = (m.icache k).inum := by
  have entry := walks.entry ip
  have some_ := entry.held rfl
  obtain ⟨s', unlocked, io'⟩ := io.iunlock_eq ip ((entry.busy some_).2 rfl) some_
  refine ⟨_, s', unlocked, io', ?_, Mem.setInode_inum rfl⟩
  refine walks.setInode (fun _ _ => rfl) (fun j ne => ?_)
    ⟨entry.ref, entry.inum, entry.dev, entry.fresh,
      fun _ => iff_of_false Bool.false_ne_true (Option.some_ne_none ip).symm, fun never => (nomatch never)⟩
    fun _ => walks.alone some_
  exact iff_of_false (Option.some_ne_none j).symm fun same => ne (Option.some.inj same).symm

/-- An inode that stays is not freed with the reference on the way. -/
theorem Walks.not_last (walks : Walks E m0 m (extra ++ [ip]) none)
    (stays : Stays E m0 (m.icache ip).inum) :
    ((m.icache ip).ref == 1 && (m.icache ip).valid && (m.icache ip).d.nlink == 0) = false := by
  refine Bool.eq_false_iff.2 fun freed => ?_
  simp only [Bool.and_eq_true, beq_iff_eq] at freed
  obtain ⟨⟨last, valid⟩, noLink⟩ := freed
  have entry := walks.entry ip
  have refs := entry.ref
  rw [entry.fresh (by omega) valid] at noLink
  rw [List.count_append, List.count_singleton_self] at refs
  rcases stays with links | ⟨j, some_, isInum⟩
  · exact links noLink
  · have some' : 1 ≤ (m.icache j).ref := by
      rw [(walks.entry j).ref]
      omega
    have isIp : j = ip := walks.one j ip some' (by omega) (((walks.entry j).inum some_).trans isInum)
    rw [isIp] at some_
    omega

/-- **iput** of an inode that stays. -/
theorem Walks.iput (walks : Walks E m0 m (extra ++ [ip]) none) (io : Io sh.geo A v L h t m s)
    (stays : Stays E m0 (m.icache ip).inum) :
    ∃ m' s', Kernel.iput ip s = .done () s' ∧ Io sh.geo A v L h t m' s' ∧ Walks E m0 m' extra none ∧
      ∀ k, (m'.icache k).inum = (m.icache k).inum := by
  have entry := walks.entry ip
  have refs := entry.ref
  rw [List.count_append, List.count_singleton_self] at refs
  obtain ⟨s', dropped, io'⟩ := io.setInode_eq ip fun x => { x with ref := x.ref - 1 }
  refine ⟨_, s', ?_, io', ?_, Mem.setInode_inum rfl⟩
  · rw [Kernel.iput, Act.bind_apply, io.inode_eq ip, Outcome.done_bind, walks.not_last stays]
    exact dropped
  · have some_ : 1 ≤ (m.icache ip).ref := by omega
    refine walks.setInode (fun j ne => ?_) (fun _ _ => Iff.rfl)
      ⟨?_, entry.inum, fun _ => entry.dev some_, fun _ => entry.fresh some_, fun _ => entry.busy some_,
        fun never => (nomatch never)⟩ fun _ => walks.alone some_
    · rw [List.count_append, List.count_singleton, if_neg (by simpa using Ne.symm ne), Nat.add_zero]
    · show (m.icache ip).ref - 1 = _
      omega

/-- **iunlockput** of the inode that is locked. -/
theorem Walks.iunlockput (walks : Walks E m0 m (extra ++ [ip]) (some ip)) (io : Io sh.geo A v L h t m s)
    (stays : Stays E m0 (m.icache ip).inum) :
    ∃ m' s', Kernel.iunlockput ip s = .done () s' ∧ Io sh.geo A v L h t m' s' ∧
      Walks E m0 m' extra none ∧ ∀ k, (m'.icache k).inum = (m.icache k).inum := by
  obtain ⟨m1, s1, unlocked, io1, walks1, inums1⟩ := walks.iunlock io
  obtain ⟨m2, s2, put, io2, walks2, inums2⟩ := walks1.iput io1 (by rw [inums1]; exact stays)
  refine ⟨m2, s2, ?_, io2, walks2, fun k => (inums2 k).trans (inums1 k)⟩
  rw [Kernel.iunlockput, Act.bind_apply, unlocked]
  exact put

end Cache

/-! ## The walk -/

/-- Directories are made of whole entries, and an entry names an inode that is there. -/
structure Tree (sh : Shape) (v : Disk) (E : Inodes) (m0 : Mem) : Prop where
  whole : ∀ i, sh.Alloc E i → (E i).type = T_DIR → DESZ ∣ (E i).size
  named : ∀ i, sh.Alloc E i → (E i).type = T_DIR → ∀ de ∈ (sh.nodes v E i).entries, de.inum ≠ 0 →
    sh.Alloc E de.inum ∧ Stays E m0 de.inum

/-- Where `namex` comes to from inode `i`, which was reached by `name`, and the name it has then. -/
def resolve (nodes : Nat → Node) (nameiparent : Bool) :
    Nat → List Byte → List (List Byte) → Option (Nat × List Byte)
  | i, name, [] => if nameiparent then none else some (i, name)
  | i, _, c :: cs =>
    if (nodes i).type ≠ T_DIR then none
    else if nameiparent && cs.isEmpty then some (i, c)
    else
      match (nodes i).lookup c with
      | none => none
      | some j => resolve nodes nameiparent j c cs

/-- `namex` returns what it should: an entry of the cache with one more reference, or none. -/
def Arrived (sh : Shape) (A v : Disk) (E : Inodes) (L : Finset Nat) (t : Option Pid)
    (m0 : Mem) (want : Option (Nat × List Byte)) (r : Option (InodeId × List Byte)) (s' : KState) :
    Prop :=
  match want with
  | none => r = none ∧ ∃ m', sh.Rests A v L t m' s' ∧ Walks E m0 m' [] none
  | some (i, name) => ∃ ip m', r = some (ip, name) ∧ sh.Rests A v L t m' s' ∧
      Walks E m0 m' [ip] none ∧ (m'.icache ip).inum = i

section Walk

variable {C : KContract} {sh : Shape} {A v : Disk} {E : Inodes}
  {L : Finset Nat} {t : Option Pid} {m0 m : Mem} {ip : InodeId} {i : Nat} {s : KState}

theorem Tree.lookup (tree : Tree sh v E m0) (alloc : sh.Alloc E i) (isDir : (E i).type = T_DIR)
    {name : List Byte} {j : Nat} (found : (sh.nodes v E i).lookup name = some j) :
    sh.Alloc E j ∧ Stays E m0 j := by
  obtain ⟨de, isDe, rfl⟩ := Option.map_eq_some_iff.1 found
  have used := List.find?_some isDe
  rw [Dirent.named, Bool.and_eq_true, bne_iff_ne] at used
  exact tree.named i alloc isDir de (List.mem_of_find?_eq_some isDe) used.1

/-- **dirlookup** in a directory that is locked. -/
theorem Walks.dirlookup (walks : Walks E m0 m [ip] (some ip)) (f : Locked sh A v E L t m ip i s)
    (ok : sh.Ok) (full : (∀ s : KState, s.NoEntry → C.fails .iget s) ∨ CacheRoom m0)
    (isDir : (E i).type = T_DIR)
    (whole : DESZ ∣ (E i).size) (name : List Byte) :
    Sat C (fun r s' => match (sh.nodes v E i).lookup name with
      | none => r = none ∧ Locked sh A v E L t m ip i s'
      | some j => ∃ next off m', r = some (next, off) ∧ sh.Rests A v L t m' s' ∧
          Walks E m0 m' ([next] ++ [ip]) (some ip) ∧ (m'.icache next).inum = j ∧
          (m'.icache ip).inum = i) (Kernel.dirlookup ip name s) := by
  rw [Kernel.dirlookup]
  refine Sat.step (f.io.inode_eq ip) ?_
  rw [f.copy, isDir, f.dev, bne_self_eq_false]
  refine Sat.step (Act.failIf_false ..) ((f.lookup ok isDir whole).seq fun r s1 post => ?_)
  obtain ⟨isFound, f1⟩ := post
  cases r with
  | none =>
    rw [← isFound]
    exact ⟨rfl, f1⟩
  | some place =>
    obtain ⟨j, off⟩ := place
    rw [← isFound]
    refine (walks.iget f1.io (full.imp_right fun roomy => ⟨le_rfl, roomy⟩) j).seq fun next s2 post => ?_
    obtain ⟨m', io', walks', isNext, kept⟩ := post
    refine ⟨next, off, m', rfl, io', walks', isNext, ?_⟩
    rw [(kept ip ((walks.entry ip).held rfl)).1, f.inum]

/-- **The loop of `namex`**, from any inode on the way. -/
theorem Walks.namexLoop (ok : sh.Ok) (rep : Rep sh v E ∅ none) (tree : Tree sh v E m0)
    (full : (∀ s : KState, s.NoEntry → C.fails .iget s) ∨ CacheRoom m0) (nameiparent : Bool)
    {fuel : Nat} {path name : List Byte}
    (enough : path.length < fuel) (walks : Walks E m0 m [ip] none)
    (io : sh.Rests A v L t m s) (inum : (m.icache ip).inum = i) (alloc : sh.Alloc E i)
    (stays : Stays E m0 i) :
    Sat C (Arrived sh A v E L t m0 (resolve (sh.nodes v E) nameiparent i name (components path)))
      (Kernel.namexLoop nameiparent fuel ip path name s) := by
  induction fuel generalizing path name ip i m s with
  | zero => omega
  | succ fuel ih =>
    rw [Kernel.namexLoop]
    rcases skipelem_cases path with ⟨nothing, none_⟩ | ⟨c, rest, found, first, shorter, noSlash⟩
    · rw [nothing, none_]
      dsimp only
      rw [resolve]
      cases nameiparent with
      | false => exact ⟨ip, m, rfl, io, walks, inum⟩
      | true =>
        have only : Walks E m0 m ([] ++ [ip]) none := walks
        obtain ⟨m', s', put, io', walks', -⟩ := only.iput io (by rw [inum]; exact stays)
        exact Sat.step put ⟨rfl, m', io', walks'⟩
    · rw [found, first]
      dsimp only
      refine (walks.ilock io ok rep List.mem_cons_self inum alloc).seq fun _ s1 post => ?_
      obtain ⟨m1, f, walks1⟩ := post
      have stays1 : Stays E m0 (m1.icache ip).inum := by
        rw [f.inum]
        exact stays
      have only : Walks E m0 m1 ([] ++ [ip]) (some ip) := walks1
      refine Sat.step (f.io.inode_eq ip) ?_
      rw [f.copy, resolve, f.type_eq]
      by_cases notDir : (E i).type ≠ T_DIR
      · rw [if_pos notDir, if_pos notDir]
        obtain ⟨m', s', put, io', walks', -⟩ := only.iunlockput f.io stays1
        exact Sat.step put ⟨rfl, m', io', walks'⟩
      · rw [if_neg notDir, if_neg notDir]
        have isDir := not_not.1 notDir
        have atEnd : (nameiparent && rest == []) = (nameiparent && (components rest).isEmpty) := by
          congr 1
          rw [Bool.eq_iff_iff, beq_iff_eq, List.isEmpty_iff, components_eq_nil_iff noSlash]
        rw [atEnd]
        split
        · obtain ⟨m', s', unlocked, io', walks', inums⟩ := walks1.iunlock f.io
          refine Sat.step unlocked ⟨ip, m', rfl, io', walks', ?_⟩
          rw [inums, f.inum]
        · refine (walks1.dirlookup f ok full isDir (tree.whole i alloc isDir) c).seq fun r s2 post => ?_
          cases isNext : (sh.nodes v E i).lookup c with
          | none =>
            rw [isNext] at post
            obtain ⟨rfl, f2⟩ := post
            obtain ⟨m', s', put, io', walks', -⟩ := only.iunlockput f2.io stays1
            exact Sat.step put ⟨rfl, m', io', walks'⟩
          | some j =>
            rw [isNext] at post
            obtain ⟨next, off, m2, rfl, io2, walks2, isJ, isI⟩ := post
            obtain ⟨alloc', stays'⟩ := tree.lookup alloc isDir isNext
            obtain ⟨m3, s3, put, io3, walks3, inums⟩ := walks2.iunlockput io2 (by rw [isI]; exact stays)
            refine Sat.step put ?_
            exact ih (by omega) walks3 io3 ((inums next).trans isJ) alloc' stays'

/-- Where a path starts: at the root, or in the current directory. -/
def Starts (sh : Shape) (E : Inodes) (m0 : Mem) (path : List Byte) (i : Nat) : Prop :=
  sh.Alloc E i ∧
    if path.head? = some SLASH then i = ROOTINO ∧ Stays E m0 i
    else ∃ cwd, (m0.procs m0.proc).cwd = some cwd ∧ 1 ≤ (m0.icache cwd).ref ∧ (m0.icache cwd).inum = i

/-- **`namex`** from the start. -/
theorem namex_spec (ok : sh.Ok) (rep : Rep sh v E ∅ none) (quiet : Walks E m0 m0 [] none)
    (tree : Tree sh v E m0) (full : (∀ s : KState, s.NoEntry → C.fails .iget s) ∨ CacheRoom m0)
    (nameiparent : Bool)
    {path : List Byte} (starts : Starts sh E m0 path i) (io : sh.Rests A v L t m0 s) :
    Sat C (Arrived sh A v E L t m0 (resolve (sh.nodes v E) nameiparent i [] (components path)))
      (Kernel.namex path nameiparent s) := by
  obtain ⟨alloc, from_⟩ := starts
  have onward : ∀ ip m s, sh.Rests A v L t m s → Walks E m0 m [ip] none →
      (m.icache ip).inum = i → Stays E m0 i →
      Sat C (Arrived sh A v E L t m0 (resolve (sh.nodes v E) nameiparent i [] (components path)))
        (Kernel.namexLoop nameiparent (path.length + 1) ip path [] s) :=
    fun ip m s io walks inum stays =>
      walks.namexLoop ok rep tree full nameiparent (Nat.lt_succ_self _) io inum alloc stays
  rw [Kernel.namex]
  refine Sat.step (Act.get_apply s) ?_
  split at from_
  case isTrue absolute =>
    obtain ⟨rfl, stays⟩ := from_
    rw [if_pos absolute]
    refine (quiet.iget io (full.imp_right fun roomy => ⟨Nat.zero_le 1, roomy⟩) ROOTINO).seq
      fun ip s1 post => ?_
    obtain ⟨m1, io1, walks1, isRoot, -⟩ := post
    exact onward ip m1 s1 io1 walks1 isRoot stays
  case isFalse relative =>
    obtain ⟨cwd, isCwd, some_, inum⟩ := from_
    rw [if_neg relative, io.mem, isCwd]
    obtain ⟨s1, stored, io1⟩ := io.setInode_eq cwd fun x => { x with ref := x.ref + 1 }
    refine Sat.step (a := cwd) ?_ (onward cwd _ s1 io1 ?_ ?_ (Or.inr ⟨cwd, some_, inum⟩))
    · show (idup cwd) s = _
      rw [idup, Act.bind_apply, stored]
      rfl
    · have entry := quiet.entry cwd
      refine quiet.setInode (fun k ne => List.count_cons_of_ne (Ne.symm ne)) (fun _ _ => Iff.rfl)
        ⟨?_, fun _ => rfl, fun _ => entry.dev some_, fun _ => entry.fresh some_,
          fun _ => entry.busy some_, fun never => (nomatch never)⟩ fun _ => quiet.alone some_
      rw [List.count_cons_self]
      rfl
    · rw [Mem.setInode_icache]
      exact inum

end Walk

/-! ## Paths are walks -/

/-- One component after the other. -/
def walk (nodes : Nat → Node) (i : Nat) (comps : List (List Byte)) : Option Nat :=
  comps.foldlM (enter nodes) i

/-- All components but the last, which is to be in a directory. -/
def walkParent (nodes : Nat → Node) (i : Nat) (comps : List (List Byte)) : Option (Nat × List Byte) :=
  comps.getLast?.bind fun last => (walk nodes i comps.dropLast).bind fun j =>
    if (nodes j).type = T_DIR then some (j, last) else none

section Spec

variable {nodes : Nat → Node}

theorem walk_cons (i : Nat) (c : List Byte) (comps : List (List Byte)) :
    walk nodes i (c :: comps) = (enter nodes i c).bind fun j => walk nodes j comps := List.foldlM_cons

theorem resolve_namei (comps : List (List Byte)) (i : Nat) (name : List Byte) :
    (resolve nodes false i name comps).map Prod.fst = walk nodes i comps := by
  induction comps generalizing i name with
  | nil => rfl
  | cons c comps ih =>
    rw [resolve, walk_cons, enter]
    by_cases isDir : (nodes i).type = T_DIR
    · rw [if_neg (not_not.2 isDir), if_pos isDir]
      cases (nodes i).lookup c with
      | none => rfl
      | some j => exact ih j c
    · rw [if_pos isDir, if_neg isDir]
      rfl

theorem resolve_nameiparent (comps : List (List Byte)) (i : Nat) (name : List Byte) :
    resolve nodes true i name comps = walkParent nodes i comps := by
  induction comps generalizing i name with
  | nil => rfl
  | cons c comps ih =>
    cases comps with
    | nil => simp [resolve, walkParent, walk]
    | cons d comps =>
      have next : walkParent nodes i (c :: d :: comps) =
          (enter nodes i c).bind fun j => walkParent nodes j (d :: comps) := by
        rw [walkParent, List.getLast?_cons_cons, List.dropLast_cons_cons, walk_cons]
        cases enter nodes i c with
        | none => simp
        | some j => rfl
      rw [resolve, next, enter]
      by_cases isDir : (nodes i).type = T_DIR
      · rw [if_neg (not_not.2 isDir), if_neg (by simp), if_pos isDir]
        cases (nodes i).lookup c with
        | none => rfl
        | some j => exact ih j c
      · rw [if_pos isDir, if_neg isDir]
        rfl

theorem enter_eq_none_iff (i : Nat) (c : List Byte) :
    enter nodes i c = none ↔ (nodes i).type ≠ T_DIR ∨ (nodes i).lookup c = none := by
  rw [enter]
  split
  case isTrue isDir => simp [isDir]
  case isFalse notDir => simp [notDir]

/-- A walk fails exactly where it finds no directory, or not the next name. -/
theorem walk_eq_none_iff (comps : List (List Byte)) (i : Nat) :
    walk nodes i comps = none ↔ ∃ before c after j, comps = before ++ c :: after ∧
      walk nodes i before = some j ∧ ((nodes j).type ≠ T_DIR ∨ (nodes j).lookup c = none) := by
  induction comps generalizing i with
  | nil => simp [walk]
  | cons c comps ih =>
    rw [walk_cons]
    cases first : enter nodes i c with
    | none => exact iff_of_true rfl ⟨[], c, comps, i, rfl, rfl, (enter_eq_none_iff i c).1 first⟩
    | some j =>
      refine (ih j).trans ⟨?_, ?_⟩
      · rintro ⟨before, d, after, k, rfl, walked, fails⟩
        refine ⟨c :: before, d, after, k, rfl, ?_, fails⟩
        rw [walk_cons, first]
        exact walked
      · rintro ⟨before, d, after, k, split, walked, fails⟩
        cases before with
        | nil =>
          obtain ⟨rfl, rfl⟩ := List.cons.inj split
          cases walked
          rw [(enter_eq_none_iff i c).2 fails] at first
          cases first
        | cons b before =>
          obtain ⟨rfl, rfl⟩ := List.cons.inj split
          rw [walk_cons, first] at walked
          exact ⟨before, d, after, k, rfl, walked, fails⟩

end Spec

/-- `namei` returns what it should. -/
def Found (sh : Shape) (A v : Disk) (E : Inodes) (L : Finset Nat) (t : Option Pid)
    (m0 : Mem) (want : Option Nat) (r : Option InodeId) (s' : KState) : Prop :=
  match want with
  | none => r = none ∧ ∃ m', sh.Rests A v L t m' s' ∧ Walks E m0 m' [] none
  | some i => ∃ ip m', r = some ip ∧ sh.Rests A v L t m' s' ∧ Walks E m0 m' [ip] none ∧
      (m'.icache ip).inum = i

/-- A panic is accepted where the inode cache is full. -/
def unlessCacheFull : KContract where
  rest := fun _ => False
  fails := fun e s => e = .iget ∧ s.NoEntry
  shows := fun _ _ => True
  given := fun _ => True

section Resolves

variable {C : KContract} {sh : Shape} {A v : Disk} {E : Inodes}
  {L : Finset Nat} {t : Option Pid} {m : Mem} {i : Nat} {s : KState} {path : List Byte}

theorem namei_spec (ok : sh.Ok) (rep : Rep sh v E ∅ none) (quiet : Walks E m m [] none)
    (tree : Tree sh v E m) (full : (∀ s : KState, s.NoEntry → C.fails .iget s) ∨ CacheRoom m)
    (starts : Starts sh E m path i)
    (io : sh.Rests A v L t m s) :
    Sat C (Found sh A v E L t m (walk (sh.nodes v E) i (components path))) (namei path s) := by
  refine (namex_spec ok rep quiet tree full false starts io).seq fun r s' arrived => ?_
  rw [← resolve_namei _ _ []]
  cases isWant : resolve (sh.nodes v E) false i [] (components path) with
  | none =>
    rw [isWant] at arrived
    obtain ⟨rfl, m', io', walks⟩ := arrived
    exact ⟨rfl, m', io', walks⟩
  | some want =>
    rw [isWant] at arrived
    obtain ⟨ip, m', rfl, io', walks, inum⟩ := arrived
    exact ⟨ip, m', rfl, io', walks, inum⟩

theorem nameiparent_spec (ok : sh.Ok) (rep : Rep sh v E ∅ none) (quiet : Walks E m m [] none)
    (tree : Tree sh v E m) (full : (∀ s : KState, s.NoEntry → C.fails .iget s) ∨ CacheRoom m)
    (starts : Starts sh E m path i)
    (io : sh.Rests A v L t m s) :
    Sat C (Arrived sh A v E L t m (walkParent (sh.nodes v E) i (components path)))
      (nameiparent path s) := by
  rw [← resolve_nameiparent _ _ []]
  exact namex_spec ok rep quiet tree full true starts io

/-- **Path resolution is lookup component by component.**  Iterating `skipelem` gives the components of
a path, on which neither a slash at the end nor one after another has any effect, and `namecmp` compares
them whatever their length.  In every file system at rest, `namei` returns the inode that the walk from
the root or the current directory over the components comes to, and null if a directory or a name is
missing on the way; `nameiparent` returns the directory of the last component together with that
component, and null if there is none.  Only a full inode cache may stop them. -/
theorem namei_resolves (ok : sh.Ok) (rep : Rep sh v E ∅ none) (quiet : Walks E m m [] none)
    (tree : Tree sh v E m) (starts : Starts sh E m path i) (io : sh.Rests A v L t m s) :
    (elements path = components path ∧ components (path ++ [SLASH]) = components path ∧
      (∀ before after, path = before ++ SLASH :: after →
        components (before ++ SLASH :: SLASH :: after) = components path) ∧
      ∀ word ∈ path.splitOn SLASH, 0 ∉ word → ∀ name de, strncmp DIRSIZ (nameBuffer name word) de = 0 ↔
        nameEq (word.take DIRSIZ) de = true) ∧
    (walk (sh.nodes v E) i (components path) = none ↔ ∃ before c after j,
      components path = before ++ c :: after ∧ walk (sh.nodes v E) i before = some j ∧
      ((sh.nodes v E j).type ≠ T_DIR ∨ (sh.nodes v E j).lookup c = none)) ∧
    (Sat unlessCacheFull (Found sh A v E L t m (walk (sh.nodes v E) i (components path))) (namei path s) ∧
      Sat unlessCacheFull (Arrived sh A v E L t m (walkParent (sh.nodes v E) i (components path)))
        (nameiparent path s)) ∧
    (CacheRoom m →
      (∃ r s', (namei path s).leaf = .done r s' ∧
        Found sh A v E L t m (walk (sh.nodes v E) i (components path)) r s') ∧
      ∃ r s', (nameiparent path s).leaf = .done r s' ∧
        Arrived sh A v E L t m (walkParent (sh.nodes v E) i (components path)) r s') := by
  refine ⟨⟨elements_eq path, ?_, ?_, ?_⟩, walk_eq_none_iff _ _, ⟨?_, ?_⟩, fun room => ⟨?_, ?_⟩⟩
  · rw [components_append, components_nil, List.append_nil]
  · rintro before after rfl
    rw [components_append, components_append, components_slash]
  · exact fun word _ noNul name de => namecmp_iff noNul name de
  · exact namei_spec ok rep quiet tree (Or.inl fun _ used => ⟨rfl, used⟩) starts io
  · exact nameiparent_spec ok rep quiet tree (Or.inl fun _ used => ⟨rfl, used⟩) starts io
  · exact Sat.returns (namei_spec ok rep quiet tree (Or.inr room) starts io)
  · exact Sat.returns (nameiparent_spec ok rep quiet tree (Or.inr room) starts io)

end Resolves

/-! ## A directory that contains itself -/

/-- Entry 0 of the inode cache is the root's. -/
def rootMem (busy : Bool) (d : Dinode) : Mem :=
  { (KState.zeroed (fun _ => Bytes.zero) 0).mem with
    icache := upd (fun _ => ⟨0, 0, 0, false, false, Dinode.zeroed⟩) 0 ⟨ROOTDEV, 1, 1, busy, true, d⟩ }

/-- The entry `a` for the root. -/
def selfEntry : List Byte := Dirent.toBytes ⟨1, padName [97]⟩

theorem entries_self : ((emptyDir.node (oneInodeDisk 1 emptyDir)).write 0 selfEntry).entries =
    [⟨1, padName [97]⟩] := by decide +kernel

theorem rootMem_quiet (E : Inodes) : Walks E (rootMem false (E 1)) (rootMem false (E 1)) [] none := by
  have unused : ∀ j, j ≠ 0 → ((rootMem false (E 1)).icache j).ref = 0 :=
    fun j ne => congrArg Inode.ref (upd_ne _ _ ne)
  have only : ∀ j, 1 ≤ ((rootMem false (E 1)).icache j).ref → j = 0 := fun j some_ => by
    by_contra ne
    rw [unused j ne] at some_
    omega
  refine ⟨rfl, fun j => ⟨rfl, fun _ => rfl, fun some_ => ?_, fun some_ _ => ?_, fun some_ => ?_,
    fun never => (nomatch never)⟩, fun j k some_ some' _ => (only j some_).trans (only k some').symm⟩
  all_goals
    obtain rfl := only j some_
    simp [rootMem]

/-- The root with an entry for itself, and nothing else. -/
theorem exists_self : ∃ A v E L t s, Rep mkfsShape v E ∅ none ∧ Tree mkfsShape v E (rootMem false (E 1)) ∧
    mkfsShape.Alloc E 1 ∧ Stays E (rootMem false (E 1)) 1 ∧ (mkfsShape.nodes v E 1).type = T_DIR ∧
    (mkfsShape.nodes v E 1).entries = [⟨1, padName [97]⟩] ∧
    mkfsShape.Rests A v L t (rootMem false (E 1)) s := by
  have alloc : mkfsShape.Alloc (oneInode 1 emptyDir) 1 := by decide
  have isNode : mkfsShape.nodes (oneInodeDisk 1 emptyDir) (oneInode 1 emptyDir) 1 =
      emptyDir.node (oneInodeDisk 1 emptyDir) := nodes_of_alloc alloc
  obtain ⟨s, -, io⟩ := (oneInode_io 1 emptyDir (rootMem true emptyDir)).beginTrans
  have f : Locked mkfsShape (oneInodeDisk 1 emptyDir) (oneInodeDisk 1 emptyDir) (oneInode 1 emptyDir) ∅
      (some 0) (rootMem true emptyDir) 0 1 s :=
    ⟨io, rep_oneInode (by decide) emptyDir_small rfl fun _ => rfl, alloc, rfl, rfl, rfl⟩
  have notDev : (mkfsShape.nodes (oneInodeDisk 1 emptyDir) (oneInode 1 emptyDir) 1).type ≠ T_DEV := by
    rw [isNode]
    decide
  have good : ¬ (mkfsShape.nodes (oneInodeDisk 1 emptyDir) (oneInode 1 emptyDir) 1).BadRange 0
      selfEntry.length := by
    rw [isNode]
    decide
  have sat := f.writei (C := Contract.total) mkfsShape_ok notDev (trans_of_shows (by simp) fun _ _ => trivial)
    (Or.inl (by decide)) (Or.inl (by rw [spare_oneInode]; decide)) good (q := 0)
  obtain ⟨_, s', -, -, v', E', L', f', written, -⟩ := sat.returns
  obtain ⟨s'', -, io''⟩ := f'.io.iunlock_eq 0 rfl le_rfl
  have isMem : ((rootMem true emptyDir).setDinode 0 (E' 1)).setInode 0
      { ((rootMem true emptyDir).setDinode 0 (E' 1)).icache 0 with busy := false } =
      rootMem false (E' 1) := by
    simp [rootMem, Mem.setDinode, Mem.setInode, upd_idem]
  rw [isMem] at io''
  have isRoot : ∀ j, mkfsShape.Alloc E' j → j = 1 := by
    intro j alloc'
    by_contra other
    have noType : (oneInode 1 emptyDir j).type = 0 := by
      rw [oneInode, upd_ne _ _ other]
      rfl
    have free := written.others j other
    rw [nodes_of_alloc alloc', nodes_of_free fun isAlloc => isAlloc.2 noType] at free
    exact alloc'.2 (congrArg Node.type free)
  have isNode' := written.node
  rw [isNode] at isNode'
  have type_ : (E' 1).type = T_DIR := by
    rw [← f'.type_eq, isNode']
    rfl
  have size : (E' 1).size = 16 := by
    rw [← f'.size_eq, isNode']
    rfl
  have nlink : (E' 1).nlink ≠ 0 := by
    have same : (mkfsShape.nodes v' E' 1).nlink = (E' 1).nlink := by
      rw [nodes_of_alloc f'.alloc]
      rfl
    rw [← same, isNode']
    exact Nat.one_ne_zero
  have entries : (mkfsShape.nodes v' E' 1).entries = [⟨1, padName [97]⟩] := by
    rw [isNode']
    exact entries_self
  refine ⟨_, v', E', L', some 0, s'', f'.rep, ⟨fun j alloc' _ => ?_, fun j alloc' _ de member _ => ?_⟩,
    f'.alloc, Or.inl nlink, ?_, entries, io''⟩
  · rw [isRoot j alloc', size]
  · rw [isRoot j alloc', entries, List.mem_singleton] at member
    rw [member]
    exact ⟨f'.alloc, Or.inl nlink⟩
  · rw [f'.type_eq, type_]

/-- `namei` of `/a//a/`, where `a` is an entry of the root for the root itself. -/
theorem namei_resolves_self : ∃ A v E L t m s,
    walk (mkfsShape.nodes v E) 1 (components [47, 97, 47, 47, 97, 47]) = some 1 ∧
    ∃ r s', (namei [47, 97, 47, 47, 97, 47] s).leaf = .done r s' ∧
      Found mkfsShape A v E L t m (walk (mkfsShape.nodes v E) 1 (components [47, 97, 47, 47, 97, 47])) r s' := by
  obtain ⟨A, v, E, L, t, s, rep, tree, alloc, stays, isDir, entries, io⟩ := exists_self
  have next : enter (mkfsShape.nodes v E) 1 [97] = some 1 := by
    rw [enter, if_pos isDir, Node.lookup, entries]
    decide
  have comps : components [47, 97, 47, 47, 97, 47] = [[97], [97]] := by decide
  have starts : Starts mkfsShape E (rootMem false (E 1)) [47, 97, 47, 47, 97, 47] 1 :=
    ⟨alloc, by rw [if_pos (by decide)]; exact ⟨rfl, stays⟩⟩
  have room : CacheRoom (rootMem false (E 1)) := ⟨1, 2, by decide, rfl, rfl⟩
  refine ⟨A, v, E, L, t, rootMem false (E 1), s, ?_,
    ((namei_resolves mkfsShape_ok rep (rootMem_quiet E) tree starts io).2.2.2 room).1⟩
  rw [comps, walk_cons, next]
  show walk (mkfsShape.nodes v E) 1 [[97]] = some 1
  rw [walk_cons, next]
  rfl

end Xv6Rpi.Kernel
