/-
# Kernel.LogInv -- the log's invariant and its operations

`Geo` is where the log lies; `Geo.redo` is its shape as a redo log.  A disk that
`Committed g A d` describes stands for the content `A`, whatever a crash did to
it.  `Io g A v L h t m s` describes a whole state outside `commit_trans`: `A` is
committed, the cache shows `v`, process `t` has a transaction open that has logged
the sectors `L`, the buffers `h` are held, and `m` is the rest of the memory.

Each operation is one rule for `Sat`, for any contract: it asks the contract to
accept the writes of the operation (`Quiet`) and the panics that its precondition
does not exclude.
-/
import Xv6Rpi.Kernel.BioSpec
import Xv6Rpi.Kernel.Log
import Xv6Rpi.Theory.Redo

namespace Xv6Rpi.Kernel

open Theory

set_option autoImplicit false

/-! ## The header block -/

/-- The blocks a header block names. -/
def headEntries (b : Block) : List Nat := (List.range (headCount b)).map (headSector b)

/-- The blocks the in-memory header names. -/
def LogHeader.entries (lh : LogHeader) : List Nat := (List.range lh.n).map lh.sector

section Header

variable {b : Block} {lh : LogHeader}

theorem foldl_put32 (sector : Nat → Nat) (l : List Nat) : ∀ b : Block,
    ((l.foldl (fun b i => b.put32 (4 + 4 * i) (sector i)) b).u32 0 = b.u32 0) ∧
      ∀ j, (∀ i ∈ l, sector i < 4294967296 ∧ 4 + 4 * i + 4 ≤ BSIZE) →
        (l.foldl (fun b i => b.put32 (4 + 4 * i) (sector i)) b).u32 (4 + 4 * j) =
          if j ∈ l then sector j else b.u32 (4 + 4 * j) := by
  induction l with
  | nil => exact fun b => ⟨rfl, fun j _ => rfl⟩
  | cons i l ih =>
    intro b
    obtain ⟨first, rest⟩ := ih (b.put32 (4 + 4 * i) (sector i))
    refine ⟨first.trans (Bytes.u32_put32_of_ne (by omega)), fun j small => ?_⟩
    rw [List.foldl_cons, rest j fun k member => small k (List.mem_cons_of_mem _ member)]
    obtain ⟨isSmall, fits⟩ := small i List.mem_cons_self
    by_cases later : j ∈ l
    · simp [later]
    · by_cases here : j = i
      · subst here
        simp [later, Bytes.u32_put32_same isSmall fits]
      · rw [if_neg later, Bytes.u32_put32_of_ne (by omega)]
        simp [later, here]

/-- Reading back a header that `write_head` wrote. -/
theorem headEntries_encodeHead (few : lh.n ≤ LOGSIZE)
    (small : ∀ i < lh.n, lh.sector i < 4294967296) :
    headCount (encodeHead b lh) = lh.n ∧ headEntries (encodeHead b lh) = lh.entries := by
  obtain ⟨first, rest⟩ := foldl_put32 lh.sector (List.range lh.n) (b.put32 0 lh.n)
  have few : lh.n ≤ 10 := few
  have count : headCount (encodeHead b lh) = lh.n := by
    have stored : (b.put32 0 lh.n).u32 0 = lh.n :=
      Bytes.u32_put32_same (by omega) (by decide)
    unfold headCount encodeHead
    rw [first, stored, int32, if_pos (by omega), Int.toNat_natCast]
  refine ⟨count, ?_⟩
  unfold headEntries LogHeader.entries
  rw [count]
  refine List.map_congr_left fun i member => ?_
  have inside : ∀ j ∈ List.range lh.n, lh.sector j < 4294967296 ∧ 4 + 4 * j + 4 ≤ BSIZE := by
    intro j jIn
    have below := List.mem_range.1 jIn
    exact ⟨small j below, show 4 + 4 * j + 4 ≤ 512 by omega⟩
  exact (rest i inside).trans (if_pos member)

end Header

/-! ## Where the log lies -/

/-- The place of the log: blocks `start .. start + nlog - 1` of a disk. -/
structure Geo where
  start : Nat
  nlog : Nat
  disksize : Nat

/-- The log comes after the superblock and lies on the disk; `disksize` is an `int`. -/
structure Geo.Ok (g : Geo) : Prop where
  afterSuper : 1 < g.start
  someBlock : 0 < g.nlog
  onDisk : g.start + g.nlog ≤ g.disksize
  isInt : g.disksize < 2147483648

/-- The log as a redo log. -/
def Geo.redo (g : Geo) : Redo Block := ⟨g.start, g.nlog - 1, headEntries⟩

def Geo.InLog (g : Geo) (x : Nat) : Prop := g.start ≤ x ∧ x < g.start + g.nlog

instance (g : Geo) (x : Nat) : Decidable (g.InLog x) := inferInstanceAs (Decidable (_ ∧ _))

theorem Geo.Ok.mem_area {g : Geo} (ok : g.Ok) (x : Nat) : x ∈ g.redo.area ↔ g.InLog x := by
  have some_ := ok.someBlock
  simp only [Geo.redo, Redo.area, Geo.InLog, Set.mem_ofPred_eq]
  omega

theorem Geo.Ok.start_inLog {g : Geo} (ok : g.Ok) : g.InLog g.start :=
  ⟨le_rfl, Nat.lt_add_of_pos_right ok.someBlock⟩

theorem headEntries_nil {b : Block} (none_ : headCount b = 0) : headEntries b = [] := by
  simp [headEntries, none_]

theorem LogHeader.mem_entries {lh : LogHeader} {x : Nat} :
    x ∈ lh.entries ↔ ∃ i < lh.n, lh.sector i = x := by
  simp [LogHeader.entries]

theorem LogHeader.length_entries (lh : LogHeader) : lh.entries.length = lh.n := by
  simp [LogHeader.entries]

theorem LogHeader.idxOf_entries {lh : LogHeader} (distinct : lh.entries.Nodup) {i : Nat}
    (below : i < lh.n) : lh.entries.idxOf (lh.sector i) = i := by
  have bound : i < lh.entries.length := by rwa [lh.length_entries]
  have at_ : lh.entries[i] = lh.sector i := by simp [LogHeader.entries]
  rw [← at_]
  exact distinct.idxOf_getElem i bound

theorem LogHeader.sector_inj {lh : LogHeader} (distinct : lh.entries.Nodup) {i j : Nat}
    (below : i < lh.n) (below' : j < lh.n) (same : lh.sector i = lh.sector j) : i = j := by
  rw [← LogHeader.idxOf_entries distinct below, same, LogHeader.idxOf_entries distinct below']

/-- The in-memory header after `log_write` of a sector. -/
def LogHeader.add (lh : LogHeader) (x : Nat) : LogHeader :=
  ⟨if lh.slot x = lh.n then lh.n + 1 else lh.n, upd lh.sector (lh.slot x) x⟩

section Absorption

variable {lh : LogHeader} {x : Nat}

/-- Absorbed into the slot that has the sector, or put into a new one. -/
theorem LogHeader.slot_cases (lh : LogHeader) (x : Nat) :
    (lh.slot x < lh.n ∧ lh.sector (lh.slot x) = x) ∨ (lh.slot x = lh.n ∧ x ∉ lh.entries) := by
  unfold LogHeader.slot
  cases found : (List.range lh.n).find? fun i => lh.sector i == x with
  | some i =>
    left
    have hit := List.find?_some found
    rw [beq_iff_eq] at hit
    exact ⟨List.mem_range.1 (List.mem_of_find?_eq_some found), hit⟩
  | none =>
    right
    refine ⟨rfl, fun member => ?_⟩
    obtain ⟨i, below, same⟩ := LogHeader.mem_entries.1 member
    have miss := List.find?_eq_none.1 found i (List.mem_range.2 below)
    simp [same] at miss

theorem LogHeader.add_absorbed (absorbed : lh.slot x < lh.n) (has : lh.sector (lh.slot x) = x) :
    lh.add x = lh := by
  have same := upd_eq_self lh.sector (lh.slot x)
  rw [has] at same
  have ne : lh.slot x ≠ lh.n := by omega
  simp [LogHeader.add, same, ne]

theorem LogHeader.slot_le (lh : LogHeader) (x : Nat) : lh.slot x ≤ lh.n := by
  rcases lh.slot_cases x with ⟨absorbed, -⟩ | ⟨new, -⟩ <;> omega

theorem LogHeader.entries_add (new : lh.slot x = lh.n) :
    (lh.add x).n = lh.n + 1 ∧ (lh.add x).entries = lh.entries ++ [x] := by
  refine ⟨by simp [LogHeader.add, new], ?_⟩
  simp only [LogHeader.entries, LogHeader.add, new, if_true, List.range_succ, List.map_append,
    List.map_singleton, upd_same]
  congr 1
  refine List.map_congr_left fun i member => ?_
  have below := List.mem_range.1 member
  exact upd_ne _ _ (by omega)

/-- The header names the sector once, and what it named before in the places it had. -/
theorem LogHeader.add_spec (distinct : lh.entries.Nodup) (x : Nat) :
    (lh.add x).n ≤ lh.n + 1 ∧ (lh.add x).entries.Nodup ∧
      (∀ z, z ∈ (lh.add x).entries ↔ z = x ∨ z ∈ lh.entries) ∧
      ∀ i < (lh.add x).n, i ≠ lh.slot x → i < lh.n ∧ lh.sector i ≠ x := by
  rcases lh.slot_cases x with ⟨absorbed, has⟩ | ⟨new, fresh⟩
  · -- absorption: the header stays as it is
    have member : x ∈ lh.entries := LogHeader.mem_entries.2 ⟨_, absorbed, has⟩
    rw [LogHeader.add_absorbed absorbed has]
    refine ⟨Nat.le_succ _, distinct, fun z => (or_iff_right_of_imp fun same => same ▸ member).symm,
      fun i below other => ⟨below, fun same => other ?_⟩⟩
    exact LogHeader.sector_inj distinct below absorbed (same.trans has.symm)
  · obtain ⟨grown, entries⟩ := LogHeader.entries_add new
    rw [grown, entries]
    refine ⟨le_rfl, distinct.append (List.nodup_singleton x) (by simpa using fresh), fun z => ?_,
      fun i below other => ?_⟩
    · rw [List.mem_append, List.mem_singleton]
      exact Or.comm
    · have old : i < lh.n := by omega
      exact ⟨old, fun same => fresh (LogHeader.mem_entries.2 ⟨i, old, same⟩)⟩

end Absorption

/-- The superblock places the log where `g` says. -/
def Geo.Super (g : Geo) (b : Block) : Prop :=
  ((Superblock.ofBlock b).size + 4294967296 - (Superblock.ofBlock b).nlog) % 4294967296 = g.start ∧
    (Superblock.ofBlock b).nlog = g.nlog

instance (g : Geo) (b : Block) : Decidable (g.Super b) := inferInstanceAs (Decidable (_ ∧ _))

/-- The disk stands for `A` outside the log, and recovery can tell. -/
structure Committed (g : Geo) (A : Disk) (d : Disk) : Prop where
  sound : g.redo.Sound d
  stands : ∀ x, ¬ g.InLog x → g.redo.logical d x = A x
  few : headCount (d g.start) ≤ LOGSIZE
  onDisk : ∀ x ∈ headEntries (d g.start), x < g.disksize
  super : g.Super (d 1) ∧ g.Super (A 1)

/-- A contract that accepts every write, but one that commits, as long as the disk
stands for `A`. -/
def Quiet (C : KContract) (g : Geo) (A : Disk) : Prop :=
  ∀ x y s, (x = g.start → headCount y = 0) → Committed g A s.bio.disk → C.shows (.write x y) s

/-- The state outside `commit_trans`. -/
structure Io (g : Geo) (A v : Disk) (L : Finset Nat) (h : Held) (t : Option Pid) (m : Mem)
    (s : KState) : Prop where
  bio : ∃ v' d, Looks ∅ s.bio v' d L h ∧ headCount (d g.start) = 0 ∧
    (∀ x, ¬ g.InLog x → v' x = v x ∧ d x = A x) ∧
    ∀ i < s.log.lh.n, v' (g.start + 1 + i) = v' (s.log.lh.sector i)
  disksize : s.bio.disksize = g.disksize
  start : s.log.start = g.start
  size : s.log.size = g.nlog
  dev : s.log.dev = ROOTDEV
  few : s.log.lh.n ≤ LOGSIZE
  fits : s.log.lh.n < g.nlog
  distinct : s.log.lh.entries.Nodup
  logged : ∀ x, x ∈ s.log.lh.entries ↔ x ∈ L
  home : ∀ x ∈ L, ¬ g.InLog x ∧ x < g.disksize
  apart : ∀ b x, h b = some x → ¬ g.InLog x
  owner : s.log.busy = t
  idle : t = none → L = ∅
  mem : s.mem = m
  super : g.Super (A 1) ∧ g.Super (v 1)

/-- `bget` finds no buffer to recycle. -/
def KState.NoBuffer (s : KState) : Prop :=
  ∀ b, (s.bio.bufs b).busy = true ∨ (s.bio.bufs b).dirty = true

theorem KState.noBuffer_of_not_room {s : KState} {x : Nat} (full : ¬ s.bio.Room x) : s.NoBuffer := by
  intro b
  by_contra idle
  rw [not_or, Bool.not_eq_true, Bool.not_eq_true] at idle
  exact full (Or.inr ⟨b, idle⟩)

section Rules

variable {g : Geo} {A v : Disk} {L : Finset Nat} {h : Held} {t : Option Pid} {m : Mem}
  {s : KState} {C : KContract} {α : Type}

/-- The cache is all that may differ. -/
structure Kept (s s' : KState) : Prop where
  log : s'.log = s.log
  mem : s'.mem = s.mem
  size : s'.bio.disksize = s.bio.disksize

theorem setLogCount_eq (n : Nat) : setLogCount n s =
    .done () { s with log := { s.log with lh := { s.log.lh with n := n } } } := rfl

section CacheRules

variable {U : Set Nat} {w d : Disk} {D : Set Nat} {b : BufId} {x : Nat}
  {Q : α → KState → Prop}

/-- `bread` for any contract that accepts the panic, should there be no room. -/
theorem Sat.bread {f : BufId → K α} (looks : Looks U s.bio w d D h) (inside : x < s.bio.disksize)
    (free : ∀ b, h b ≠ some x) (room : s.bio.Room x ∨ (s.NoBuffer → C.fails .bget s))
    (next : ∀ b s', Kept s s' → h b = none → Looks U s'.bio w d D (upd h b (some x)) →
      Sat C Q (f b s')) :
    Sat C Q ((Kernel.bread ROOTDEV x >>= f) s) := by
  by_cases hasRoom : s.bio.Room x
  · obtain ⟨b, c, returned, idle, size, looks'⟩ := looks.bread inside free hasRoom
    exact Sat.step returned (next b _ ⟨rfl, rfl, size⟩ idle looks')
  · rcases room with hasRoom' | accepted
    · exact absurd hasRoom' hasRoom
    · rw [Act.bind_apply, bread_no_room looks.inv hasRoom]
      exact accepted (KState.noBuffer_of_not_room hasRoom)

theorem Sat.bdata {f : Block → K α} (looks : Looks U s.bio w d D h) (held : h b = some x)
    (next : Sat C Q (f (w x) s)) : Sat C Q ((Kernel.bdata b >>= f) s) := by
  refine Sat.step ?_ next
  show Outcome.done (s.bio.bufs b).data s = _
  rw [looks.data held]

/-- A store that is written through. -/
theorem Sat.bwrite {f : Unit → K α} {y : Block} (looks : Looks U s.bio w d D h)
    (held : h b = some x) (synced : x ∉ U)
    (shown : ∀ s', Kept s s' → s'.bio.disk = upd d x y → C.shows (.write x y) s')
    (next : ∀ s', Kept s s' → Looks U s'.bio (upd w x y) (upd d x y) (D \ {x}) h →
      Sat C Q (f () s')) :
    Sat C Q ((setData b y >>= fun _ => Kernel.bwrite b >>= f) s) := by
  refine Sat.step (setData_eq y) ?_
  obtain ⟨wrote, looks'⟩ :=
    Looks.bwrite (s := { s with bio := s.bio.stored b y }) (looks.stored held y) held
  rw [upd_same] at wrote looks'
  rw [Set.insert_sdiff_self_of_notMem synced] at looks'
  exact Sat.event wrote (shown _ ⟨rfl, rfl, rfl⟩ looks'.disk) fun _ =>
    next _ ⟨rfl, rfl, rfl⟩ looks'

theorem Sat.brelse {R : Unit → KState → Prop} (looks : Looks U s.bio w d D h)
    (held : h b = some x) (synced : x ∉ U)
    (next : ∀ s', Kept s s' → Looks U s'.bio w d D (upd h b none) → R () s') :
    Sat C R (Kernel.brelse b s) := by
  obtain ⟨returned, looks'⟩ := looks.brelse held synced
  rw [returned]
  exact next _ ⟨rfl, rfl, rfl⟩ looks'

end CacheRules

namespace Io

/-- What the buffer cache shows outside the log. -/
theorem view_eq (io : Io g A v L h t m s) {x : Nat} (home : ¬ g.InLog x) : s.bio.view x = v x := by
  obtain ⟨v', d, looks, -, shown, -⟩ := io.bio
  rw [looks.view, (shown x home).1]

theorem count_eq_card (io : Io g A v L h t m s) : s.log.lh.n = L.card := by
  have same : s.log.lh.entries.toFinset = L := by
    ext x
    rw [List.mem_toFinset, io.logged]
  rw [← same, List.toFinset_card_of_nodup io.distinct, LogHeader.length_entries]

/-- Outside `commit_trans` the disk stands for what was committed last. -/
theorem committed (io : Io g A v L h t m s) (ok : g.Ok) : Committed g A s.bio.disk := by
  obtain ⟨v', d, looks, clean, shown, -⟩ := io.bio
  rw [looks.disk]
  have none_ : g.redo.entries (d g.redo.start) = [] := headEntries_nil clean
  have one : ¬ g.InLog 1 := fun inLog => by
    have := ok.afterSuper
    exact absurd inLog.1 (by omega)
  refine ⟨Redo.sound_of_clean none_, ?_, ?_, ?_, ?_, io.super.1⟩
  · intro x out
    rw [Redo.logical_of_clean none_]
    exact (shown x out).2
  · omega
  · intro x member
    rw [headEntries_nil clean] at member
    cases member
  · rw [(shown 1 one).2]
    exact io.super.1

/-- Holding other buffers, with the rest of the state as it is. -/
theorem keep (io : Io g A v L h t m s) {s' : KState} {h' : Held} (kept : Kept s s')
    (bio : ∃ v' d, Looks ∅ s'.bio v' d L h' ∧ headCount (d g.start) = 0 ∧
      (∀ x, ¬ g.InLog x → v' x = v x ∧ d x = A x) ∧
      ∀ i < s.log.lh.n, v' (g.start + 1 + i) = v' (s.log.lh.sector i))
    (apart : ∀ b x, h' b = some x → ¬ g.InLog x) : Io g A v L h' t m s' := by
  obtain ⟨bio', log, mem⟩ := s'
  obtain rfl : log = s.log := kept.log
  exact { io with
    bio := bio
    disksize := kept.size.trans io.disksize
    apart := apart
    mem := kept.mem.trans io.mem }

/-- Reading a block. -/
theorem bread (io : Io g A v L h t m s) {x : Nat} {Q : α → KState → Prop} {f : BufId → K α}
    (inside : x < g.disksize) (home : ¬ g.InLog x) (free : ∀ b, h b ≠ some x)
    (room : h.count + L.card < NBUF ∨ (s.NoBuffer → C.fails .bget s))
    (next : ∀ b s', h b = none → Io g A v L (upd h b (some x)) t m s' → Sat C Q (f b s')) :
    Sat C Q ((Kernel.bread ROOTDEV x >>= f) s) := by
  obtain ⟨v', d, looks, clean, shown, slots⟩ := io.bio
  refine Sat.bread looks (io.disksize ▸ inside) free ?_ fun b s' kept idle looks' => ?_
  · rcases room with small | accepted
    · exact Or.inl (looks.room (fun _ member => member) small x)
    · exact Or.inr accepted
  · refine next b s' idle (io.keep kept ⟨v', d, looks', clean, shown, slots⟩ ?_)
    refine forall_upd (P := fun _ o => ∀ y, o = some y → ¬ g.InLog y) ?_ fun a _ => io.apart a
    rintro _ ⟨⟩
    exact home

/-- What a held buffer shows. -/
theorem bdata_eq (io : Io g A v L h t m s) {b : BufId} {x : Nat} (held : h b = some x) :
    bdata b s = .done (v x) s := by
  obtain ⟨v', d, looks, -, shown, -⟩ := io.bio
  show Outcome.done (s.bio.bufs b).data s = _
  rw [looks.data held, (shown x (io.apart b x held)).1]

/-- Releasing a block. -/
theorem brelse (io : Io g A v L h t m s) {b : BufId} {x : Nat} (held : h b = some x) :
    ∃ s', Kernel.brelse b s = .done () s' ∧ Io g A v L (upd h b none) t m s' := by
  obtain ⟨v', d, looks, clean, shown, slots⟩ := io.bio
  obtain ⟨returned, looks'⟩ := looks.brelse held (Set.notMem_empty x)
  refine ⟨_, returned, { io with
    bio := ⟨v', d, looks', clean, shown, slots⟩
    apart := forall_upd (P := fun _ o => ∀ y, o = some y → ¬ g.InLog y) ?_ fun a _ => io.apart a }⟩
  rintro _ ⟨⟩

/-- The disk after a slot has been filled, seen from recovery. -/
theorem committed_fill {d : Disk} {i : Nat} {y : Block} (ok : g.Ok)
    (com : Committed g A d) (clean : headCount (d g.start) = 0) (inside : i + 1 < g.nlog) :
    Committed g A (upd d (g.start + i + 1) y) := by
  have place : g.start + i + 1 = g.redo.start + 1 + i := by
    show g.start + i + 1 = g.start + 1 + i
    omega
  have slot : i < g.redo.slots := by
    show i < g.nlog - 1
    omega
  have none_ : g.redo.entries (d g.redo.start) = [] := headEntries_nil clean
  have header : upd d (g.start + i + 1) y g.start = d g.start := upd_ne _ _ (by omega)
  have none' : g.redo.entries (upd d (g.start + i + 1) y g.redo.start) = [] := by
    show headEntries (upd d (g.start + i + 1) y g.start) = []
    rw [header, headEntries_nil clean]
  have after := ok.afterSuper
  refine ⟨Redo.sound_of_clean none', ?_, ?_, ?_, ?_, com.super.2⟩
  · intro x out
    rw [← com.stands x out, upd_eq_update, place]
    exact Redo.logical_fill none_ slot fun inArea => out ((ok.mem_area x).1 inArea)
  · rw [header]
    exact com.few
  · rw [header]
    exact com.onDisk
  · rw [upd_ne _ _ (by omega)]
    exact com.super.1

theorem full_iff (io : Io g A v L h t m s) (ok : g.Ok) :
    s.log.full = true ↔ ¬ (L.card < LOGSIZE ∧ L.card + 1 < g.nlog) := by
  have some_ := ok.someBlock
  have small : g.nlog < 2147483648 := by
    have onDisk := ok.onDisk
    have isInt := ok.isInt
    omega
  rw [← io.count_eq_card, Log.full, io.size, int32, if_pos small, Bool.or_eq_true,
    decide_eq_true_eq, decide_eq_true_eq]
  omega

/-- The state once the block's slot is filled and the header in memory names it. -/
theorem add_entry (io : Io g A v L h t m s) {x : Nat} {y : Block} {v' d : Disk} {k : KState}
    (home : ¬ g.InLog x) (onDisk : x < g.disksize) (super : x = 1 → g.Super y)
    (few : L.card < LOGSIZE) (fits : L.card + 1 < g.nlog) (clean : headCount (d g.start) = 0)
    (shown : ∀ z, ¬ g.InLog z → v' z = v z ∧ d z = A z)
    (slots : ∀ i < s.log.lh.n, v' (g.start + 1 + i) = v' (s.log.lh.sector i))
    (looks : Looks ∅ k.bio (upd (upd v' x y) (g.start + s.log.lh.slot x + 1) y)
      (upd d (g.start + s.log.lh.slot x + 1) y) ↑(insert x L) h)
    (opened : t ≠ none) (size : k.bio.disksize = s.bio.disksize) (mem : k.mem = s.mem)
    (log : k.log = { s.log with lh := s.log.lh.add x }) :
    Io g A (upd v x y) (insert x L) h t m k := by
  have count := io.count_eq_card
  have slotLe := s.log.lh.slot_le x
  have slotIn : g.InLog (g.start + s.log.lh.slot x + 1) := ⟨by omega, by omega⟩
  obtain ⟨grown, distinct, entries, old⟩ := LogHeader.add_spec io.distinct x
  have ne : ∀ z, ¬ g.InLog z → z ≠ g.start + s.log.lh.slot x + 1 := by
    rintro z out rfl
    exact out slotIn
  have shownNow : ∀ z, ¬ g.InLog z →
      upd (upd v' x y) (g.start + s.log.lh.slot x + 1) y z = upd v x y z ∧
        upd d (g.start + s.log.lh.slot x + 1) y z = A z := by
    intro z out
    rw [upd_ne _ _ (ne z out), upd_ne _ _ (ne z out)]
    refine ⟨?_, (shown z out).2⟩
    by_cases eq : z = x
    · rw [eq, upd_same, upd_same]
    · rw [upd_ne _ _ eq, upd_ne _ _ eq, (shown z out).1]
  have cleanNow : headCount (upd d (g.start + s.log.lh.slot x + 1) y g.start) = 0 := by
    rw [upd_ne _ _ (by omega)]
    exact clean
  have slotsNow : ∀ i < (s.log.lh.add x).n,
      upd (upd v' x y) (g.start + s.log.lh.slot x + 1) y (g.start + 1 + i) =
        upd (upd v' x y) (g.start + s.log.lh.slot x + 1) y (upd s.log.lh.sector (s.log.lh.slot x) x i) := by
    intro i below
    by_cases eq : i = s.log.lh.slot x
    · rw [eq, upd_same, show g.start + 1 + s.log.lh.slot x = g.start + s.log.lh.slot x + 1 by omega,
        upd_same, upd_ne _ _ (ne x home), upd_same]
    · obtain ⟨below, differs⟩ := old i below eq
      have homeI := (io.home _ ((io.logged _).1 (LogHeader.mem_entries.2 ⟨i, below, rfl⟩))).1
      have notX : g.start + 1 + i ≠ x := by
        rintro rfl
        exact home ⟨by omega, by omega⟩
      rw [upd_ne s.log.lh.sector _ eq, upd_ne _ _ (by omega), upd_ne _ _ notX, upd_ne _ _ (ne _ homeI),
        upd_ne _ _ differs]
      exact slots i below
  obtain ⟨bio, log', mem'⟩ := k
  obtain rfl : log' = { s.log with lh := s.log.lh.add x } := log
  refine { io with
    bio := ⟨_, _, looks, cleanNow, shownNow, slotsNow⟩
    disksize := size.trans io.disksize
    few := le_trans grown (by omega)
    fits := lt_of_le_of_lt grown (by omega)
    distinct := distinct
    logged := fun z => ?_
    home := fun z member => ?_
    idle := fun none_ => absurd none_ opened
    mem := mem.trans io.mem
    super := ⟨io.super.1, ?_⟩ }
  · rw [entries, io.logged, Finset.mem_insert]
  · rcases Finset.mem_insert.1 member with rfl | old
    · exact ⟨home, onDisk⟩
    · exact io.home z old
  · rw [upd_apply]
    split
    case isTrue eq => exact super eq.symm
    case isFalse => exact io.super.2

/-- **log_write** of a store: the block joins the transaction. -/
theorem logWrite (io : Io g A v L h t m s) (ok : g.Ok) {b : BufId} {x : Nat} {y : Block}
    {Q : α → KState → Prop} {f : Unit → K α} (held : h b = some x) (quiet : Quiet C g A)
    (shown : ∀ s', s'.bio.disk = s.bio.disk → C.shows (.logWrite m.proc t) s')
    (full : L.card < LOGSIZE ∧ L.card + 1 < g.nlog ∨
      ∀ s', s'.log.full = true → C.fails .tooBig s')
    (opened : t ≠ none ∨ ∀ s', C.fails .outsideTrans s')
    (room : h.count + L.card < NBUF ∨
      ∀ s', s'.log.lh.n = s.log.lh.n → s'.NoBuffer → C.fails .bget s')
    (super : x = 1 → g.Super y)
    (next : ∀ s', Io g A (upd v x y) (insert x L) h t m s' → Sat C Q (f () s')) :
    Sat C Q ((setData b y >>= fun _ => Kernel.logWrite b >>= f) s) := by
  obtain ⟨v', d, looks, clean, shows', slots⟩ := io.bio
  have count := io.count_eq_card
  have com := io.committed ok
  rw [looks.disk] at com
  have home := io.apart b x held
  have after := ok.afterSuper
  have onDisk := ok.onDisk
  refine Sat.step (setData_eq y) (Sat.call ?_)
  have looks1 := looks.stored held y
  obtain ⟨-, sector⟩ := looks1.busy held
  have dev := (looks1.holds held).1
  unfold Kernel.logWrite
  refine Sat.step (Act.get_apply _) (Sat.event (Act.emit_apply _ _) ?_ fun _ => ?_)
  · show C.shows (.logWrite s.mem.proc s.log.busy) _
    rw [io.mem, io.owner]
    exact shown _ rfl
  refine Sat.failIf (fun isFull => ?_) fun notFull => ?_
  · rcases full with fits | accepted
    · exact absurd fits ((io.full_iff ok).1 isFull)
    · exact accepted _ isFull
  refine Sat.failIf (fun isNone => ?_) fun isSome => ?_
  · rcases opened with isOpen | accepted
    · exact absurd (io.owner.symm.trans (Option.isNone_iff_eq_none.1 isNone)) isOpen
    · exact accepted _
  have isOpen : t ≠ none := by
    rw [← io.owner]
    intro none_
    rw [show s.log.busy = none from none_] at isSome
    cases isSome
  obtain ⟨few, fits⟩ : L.card < LOGSIZE ∧ L.card + 1 < g.nlog := by
    by_contra isFull
    rw [show s.log.full = true from (io.full_iff ok).2 isFull] at notFull
    cases notFull
  simp only [sector, dev]
  have slotLe := s.log.lh.slot_le x
  have inLog : g.InLog (g.start + s.log.lh.slot x + 1) := ⟨by omega, by omega⟩
  have apart : ∀ a, h a ≠ some (g.start + s.log.lh.slot x + 1) := fun a heldA =>
    io.apart a _ heldA inLog
  have ne : g.start + s.log.lh.slot x + 1 ∉ insert x (∅ : Set Nat) := by
    rintro (same | impossible)
    · exact home (same ▸ inLog)
    · exact impossible
  refine Sat.step (Act.modify_apply _ _) ?_
  rw [io.start]
  refine Sat.bread looks1 ?_ apart ?_ fun lbuf s2 kept2 idle looks2 => ?_
  · show _ < s.bio.disksize
    rw [io.disksize]
    omega
  · rcases room with small | accepted
    · exact Or.inl (looks1.room (fun _ member => member) small _)
    · exact Or.inr (accepted _ rfl)
  -- copy the block into its slot
  have bne : b ≠ lbuf := by
    rintro rfl
    rw [held] at idle
    cases idle
  have heldB : upd h lbuf (some (g.start + s.log.lh.slot x + 1)) b = some x := by
    rw [upd_ne _ _ bne, held]
  have heldL : upd h lbuf (some (g.start + s.log.lh.slot x + 1)) lbuf =
      some (g.start + s.log.lh.slot x + 1) := upd_same _ _ _
  refine Sat.bdata looks2 heldB ?_
  rw [upd_same]
  refine Sat.bwrite looks2 heldL ne (fun s3 _ disk => ?_) fun s3 kept3 looks3 => ?_
  · refine quiet _ y s3 (fun same => ?_) ?_
    · omega
    · rw [disk]
      exact committed_fill ok com clean (by omega)
  refine Sat.call (Sat.brelse looks3 heldL ne fun s4 kept4 looks4 => ?_)
  rw [Held.upd_upd_none idle] at looks4
  -- the header in memory, and the mark
  have notDirty : (↑L : Set Nat) \ {g.start + s.log.lh.slot x + 1} = ↑L := by
    refine Set.sdiff_singleton_eq_self fun member => ?_
    exact (io.home _ member).1 inLog
  rw [notDirty] at looks4
  have log4 : s4.log = { s.log with lh := { s.log.lh with
      sector := upd s.log.lh.sector (s.log.lh.slot x) x } } := by
    rw [kept4.log, kept3.log, kept2.log]
  have mem4 : s4.mem = s.mem := by rw [kept4.mem, kept3.mem, kept2.mem]
  have size4 : s4.bio.disksize = s.bio.disksize := by
    rw [kept4.size, kept3.size, kept2.size]
    rfl
  have looks5 := looks4.marked held
  have done_ : insert x (∅ : Set Nat) \ {x} = ∅ := by simp
  rw [done_, ← Finset.coe_insert] at looks5
  have entered := fun log => io.add_entry (k := ⟨_, log, s4.mem⟩) home (io.disksize ▸ looks.inside held)
    super few fits clean shows' slots looks5 isOpen size4 mem4
  refine Sat.runIf (fun new => ?_) fun old => ?_
  · refine Sat.step (setLogCount_eq _) (next _ (entered _ ?_))
    rw [beq_iff_eq] at new
    rw [log4]
    simp [LogHeader.add, new]
  · refine next _ (entered _ ?_)
    rw [beq_eq_false_iff_ne] at old
    rw [log4]
    simp [LogHeader.add, old]

end Io

end Rules

end Xv6Rpi.Kernel
