/-
# Kernel.BlockClient -- which blocks the allocator hands out

A client of the block allocator opens transactions, calls `balloc` and `bfree` in them (of
blocks it got and has not freed yet, as long as the log has room for three more blocks), and
commits.  The disk is as `mkfs` leaves it: its superblock, and a bitmap with the first
`used` bits set.

`mkfs` marks no block of the log, and `balloc` scans every block below `sb.size`.  So
`balloc` stays in the data area as long as a block there is free, and no longer.
-/
import Xv6Rpi.Kernel.FsBlock
import Xv6Rpi.Kernel.LogCrash
import Xv6Rpi.Theory.Machine
import Xv6Rpi.Tools.Mkfs

namespace Xv6Rpi.Kernel

open Theory Tools

set_option autoImplicit false

/-! ## The bitmap of `mkfs` -/

theorem bit_foldl_setBit (n : Nat) (small : n ≤ 4096) (b : Block) (i : Nat) :
    ((List.range n).foldl Bytes.setBit b).bit i = (decide (i < n) || b.bit i) := by
  induction n with
  | zero => simp
  | succ n ih =>
    rw [List.range_succ, List.foldl_append, List.foldl_cons, List.foldl_nil,
      Bytes.bit_setBit (by show n < 8 * 512; omega), ih (by omega), ← Bool.or_assoc]
    congr 1
    rw [← Bool.decide_or]
    exact decide_eq_decide.2 (by omega)

theorem bit_mkfsBalloc {used i : Nat} (small : used ≤ 4096) :
    (Mkfs.balloc used).bit i = decide (i < used) := by
  have clear : (Bytes.zero : Block).bit i = false := by simp [Bytes.bit]
  rw [Mkfs.balloc, bit_foldl_setBit used small, clear, Bool.or_false]

/-- A block whose first `n` bits are set. -/
def markedBlock (n : Nat) : Block := fun j =>
  if n ≤ 8 * j.val then 0 else BitVec.ofNat 8 (2 ^ (n - 8 * j.val) - 1)

theorem mkfsBalloc_eq {used : Nat} (small : used ≤ 4096) :
    Mkfs.balloc used = markedBlock used := by
  refine Bytes.ext_get fun j inside => ?_
  apply BitVec.eq_of_getLsbD_eq
  intro k hk
  have bit := bit_mkfsBalloc (i := 8 * j + k) small
  have byte : (8 * j + k) / 8 = j := by omega
  have place : (8 * j + k) % 8 = k := by omega
  rw [Bytes.bit, byte, place] at bit
  rw [bit]
  simp only [Bytes.get, inside, dif_pos, markedBlock]
  split
  case isTrue high =>
    rw [show BitVec.getLsbD (0 : Byte) k = false from BitVec.getLsbD_zero]
    exact decide_eq_false (by omega)
  case isFalse low =>
    rw [BitVec.getLsbD_ofNat, Nat.testBit_two_pow_sub_one]
    simp only [hk, decide_true, Bool.true_and]
    exact decide_eq_decide.2 (by omega)

/-- Where `mkfs` puts things. -/
def mkfsShape : Shape := ⟨Mkfs.sb, Mkfs.metablocks, Mkfs.size⟩

theorem mkfsShape_ok : mkfsShape.Ok := by
  constructor <;> decide

/-! ## Clients -/

inductive BlockCall where
  | beginTrans
  | balloc
  | bfree (b : Nat)
  | commitTrans
  deriving DecidableEq

inductive BlockObs where
  | returned (b : Nat)
  | panicked (e : Panic)
  deriving DecidableEq

/-- The kernel, and the blocks returned and not yet freed. -/
structure BlockClient where
  k : KState
  live : Finset Nat

namespace BlockClient

/-- A transaction is open and has room for three more blocks, one more than a call needs. -/
def room (s : KState) : Bool := s.log.busy.isSome && s.log.lh.n + 2 < LOGSIZE - 1

/-- The calls a client makes. -/
def allowed (c : BlockClient) : BlockCall → Bool
  | .beginTrans => true
  | .balloc => room c.k
  | .bfree b => room c.k && decide (b ∈ c.live)
  | .commitTrans => c.k.log.busy.isSome

def act : BlockCall → K (Option Nat)
  | .beginTrans => do
      Kernel.beginTrans
      return none
  | .balloc => do
      let b ← Kernel.balloc ROOTDEV
      return some b
  | .bfree b => do
      Kernel.bfree ROOTDEV b
      return none
  | .commitTrans => do
      Kernel.commitTrans
      return none

/-- What the client holds after a call. -/
def keep (live : Finset Nat) : BlockCall → Option Nat → Finset Nat
  | .bfree b, _ => live.erase b
  | _, some b => insert b live
  | _, none => live

/-- One call; none when the client does not make it or would sleep forever. -/
def step (c : BlockClient) (call : BlockCall) : Option (BlockClient × List BlockObs) :=
  if c.allowed call then
    match (act call c.k).leaf with
    | .done r s => some (⟨s, keep c.live call r⟩, r.toList.map .returned)
    | .fail e s => some (⟨s, c.live⟩, [.panicked e])
    | _ => none
  else none

/-- Some block of the data area is free: its bit is clear in the bitmap as the cache shows it. -/
def dataFree (sh : Shape) (s : KState) : Prop :=
  ∃ b, sh.InData b ∧ (s.bio.view sh.bitmap).bit b = false

instance (sh : Shape) (s : KState) : Decidable (dataFree sh s) :=
  -- blocks are handed out from the low end, so the scan is from the high end
  decidable_of_iff
    (∃ b ∈ (List.range' sh.ds (sh.log - sh.ds)).reverse, (s.bio.view sh.bitmap).bit b = false)
    (exists_congr fun b => and_congr_left' (by
      simp only [List.mem_reverse, List.mem_range'_1, Shape.InData]; omega))

/-- Every `balloc` finds a free block in the data area. -/
def FindsFree (sh : Shape) (c : BlockClient) (call : BlockCall) : Prop :=
  call = .balloc → dataFree sh c.k

instance (sh : Shape) (c : BlockClient) (call : BlockCall) : Decidable (FindsFree sh c call) :=
  inferInstanceAs (Decidable (_ → dataFree sh c.k))

/-! ## The invariant -/

/-- The marks below the data area stay, and so do those of the log's blocks. -/
structure Inv (sh : Shape) (used : Nat) (c : BlockClient) : Prop where
  holds : ∃ A v L t m, sh.Rests A v L t m c.k ∧ L.card < NBUF ∧
    Superblock.ofBlock (v 1) = sh.sb ∧ (∀ b < sh.ds, (v sh.bitmap).bit b = true) ∧
    (∀ b ∈ c.live, b ∈ sh.used v) ∧
    ∀ b, sh.log ≤ b → b < sh.sb.size → (v sh.bitmap).bit b = decide (b < used)

section Step

variable {sh : Shape} {used : Nat} {c : BlockClient} {A v : Disk} {L : Finset Nat}
  {t : Option Pid} {m : Mem} {s : KState}

/-- A contract that accepts everything that is shown accepts what goes through the log. -/
theorem logs_of_shows {C : KContract} (shows_ : ∀ e s, C.shows e s)
    (opened : t ≠ none) {p : Pid} : Logs C sh A t p :=
  ⟨fun _ _ _ _ _ => shows_ _ _, fun _ => shows_ _ _, Or.inl opened⟩

theorem room_spec (io : sh.Rests A v L t m s) (hasRoom : room s = true) :
    t ≠ none ∧ (insert sh.bitmap L).card ≤ 7 := by
  obtain ⟨isOpen, few⟩ := (Bool.and_eq_true _ _).mp hasRoom
  rw [io.owner] at isOpen
  have count := io.count_eq_card
  have few : s.log.lh.n + 2 < 9 := of_decide_eq_true few
  have grown := Finset.card_insert_le sh.bitmap L
  refine ⟨?_, by omega⟩
  rintro rfl
  cases isOpen

theorem view_bitmap (io : sh.Rests A v L t m s) (ok : sh.Ok) :
    s.bio.view sh.bitmap = v sh.bitmap := by
  have after := ok.afterBitmap
  have below := ok.ds_le_log
  exact io.view_eq (Shape.not_inLog (by omega))

theorem Inv.begin (inv : Inv sh used c) {r : Option Nat} {s : KState}
    (returned : (act .beginTrans c.k).leaf = .done r s) : r = none ∧ Inv sh used ⟨s, c.live⟩ := by
  obtain ⟨A, v, L, t, m, io, few, facts⟩ := inv.holds
  cases t with
  | none =>
    obtain rfl := io.idle rfl
    obtain ⟨s', began, io'⟩ := io.beginTrans
    have eq : act .beginTrans c.k = .done none s' := by
      rw [act, Act.bind_apply, began]
      rfl
    rw [eq] at returned
    cases returned
    exact ⟨rfl, ⟨A, v, ∅, _, m, io', few, facts⟩⟩
  | some p =>
    -- the client would wait for itself
    have busy : c.k.log.busy.isNone = false := by
      rw [io.owner]
      rfl
    have eq : act .beginTrans c.k = .wait (fun s => s.log.busy.isNone) c.k
        (fun s => (Act.modify (fun s : KState =>
          { s with log := { s.log with busy := some s.mem.proc } }) s).bind
            fun _ s => .done none s) := by
      simp [act, Kernel.beginTrans, Act.await, busy, Outcome.bind]
    rw [eq] at returned
    cases returned

/-- The first clear bit is in the data area when one of the data area is clear. -/
theorem pick_below {d : Block} {b : Nat} (free : ∃ a, sh.InData a ∧ d.bit a = false)
    (first : ∀ a < b, d.bit a = true) : b < sh.log := by
  obtain ⟨a, inData, clear⟩ := free
  by_contra high
  have low := inData.2
  rw [first a (by omega)] at clear
  cases clear

theorem Inv.balloc (inv : Inv sh used c) (ok : sh.Ok) (allowed : c.allowed .balloc = true)
    (free : dataFree sh c.k) :
    ∃ b s, (act .balloc c.k).leaf = .done (some b) s ∧ sh.InData b ∧
      Inv sh used ⟨s, insert b c.live⟩ := by
  obtain ⟨A, v, L, t, m, io, few, super, metaBits, live, logBits⟩ := inv.holds
  obtain ⟨opened, small⟩ := room_spec io allowed
  rw [dataFree, view_bitmap io ok] at free
  have log := ok.log_eq
  have bits := ok.bits
  have after := ok.afterBitmap
  have sat : Sat Contract.total (fun r s => ∃ b, r = some b ∧ sh.InData b ∧
      Inv sh used ⟨s, insert b c.live⟩) (act .balloc c.k) := by
    refine Sat.call (io.balloc ok super metaBits (logs_of_shows (fun _ _ => trivial) opened)
      (Held.over_nothing sh v) (Finset.subset_insert _ _) (Finset.mem_insert_self _ _)
      (Or.inl small) (by rw [Held.count_nothing]; omega)
      (fun b s' _ _ first => ⟨trivial, fun _ => pick_below free first⟩) (fun full => ?_)
      fun b s' inData clear io' => ⟨b, rfl, inData, ⟨A, _, _, t, m, io', ?_⟩⟩)
    · obtain ⟨a, inData, clear⟩ := free
      have := inData.2
      rw [full a (by omega)] at clear
      cases clear
    have low := inData.1
    have high := inData.2
    have bitmap : upd (upd v sh.bitmap ((v sh.bitmap).setBit b)) b Bytes.zero sh.bitmap =
        (v sh.bitmap).setBit b := by
      rw [upd_ne _ _ (by omega), upd_same]
    have one : 1 < sh.bitmap := by
      show 1 < sh.sb.ninodes / 8 + 3
      omega
    have setBit : ∀ a, ((v sh.bitmap).setBit b).bit a = (decide (a = b) || (v sh.bitmap).bit a) :=
      fun a => Bytes.bit_setBit (by show b < 8 * 512; omega)
    refine ⟨?_, ?_, fun a lowA => ?_, fun a member => ?_, fun a logA belowA => ?_⟩
    · have := Finset.card_insert_le b (insert sh.bitmap L)
      show _ < 10
      omega
    · rw [upd_ne _ _ (by omega), upd_ne _ _ (by omega)]
      exact super
    · rw [bitmap, setBit, metaBits a lowA, Bool.or_true]
    · show sh.InData a ∧ _
      rw [bitmap, setBit]
      cases Finset.mem_insert.1 member with
      | inl same => exact ⟨same ▸ inData, by simp [same]⟩
      | inr old => exact ⟨(live a old).1, by rw [(live a old).2, Bool.or_true]⟩
    · have ne : a ≠ b := by omega
      rw [bitmap, setBit, logBits a logA belowA]
      simp [ne]
  obtain ⟨r, s, leaf, b, rfl, inData, inv'⟩ := sat.returns
  exact ⟨b, s, leaf, inData, inv'⟩

theorem Inv.bfree (inv : Inv sh used c) (ok : sh.Ok) {b : Nat}
    (allowed : c.allowed (.bfree b) = true) :
    ∃ s, (act (.bfree b) c.k).leaf = .done none s ∧ Inv sh used ⟨s, c.live.erase b⟩ := by
  obtain ⟨A, v, L, t, m, io, few, super, metaBits, live, logBits⟩ := inv.holds
  obtain ⟨hasRoom, isLive⟩ := (Bool.and_eq_true _ _).mp allowed
  obtain ⟨opened, small⟩ := room_spec io hasRoom
  have marked := live b (of_decide_eq_true isLive)
  have log := ok.log_eq
  have bits := ok.bits
  have low := marked.1.1
  have high := marked.1.2
  have sat : Sat Contract.total (fun r s => r = none ∧ Inv sh used ⟨s, c.live.erase b⟩)
      (act (.bfree b) c.k) := by
    refine Sat.call (io.bfree ok super (logs_of_shows (fun _ _ => trivial) opened)
      (Held.over_nothing sh v) (Finset.subset_insert sh.bitmap L) (Or.inl small)
      (by rw [Held.count_nothing]; omega) marked fun s' io' => ⟨rfl, ⟨A, _, _, t, m, io', ?_⟩⟩)
    have clearBit : ∀ a, ((v sh.bitmap).clearBit b).bit a =
        (!decide (a = b) && (v sh.bitmap).bit a) :=
      fun a => Bytes.bit_clearBit (by show b < 8 * 512; omega)
    have one : 1 ≠ sh.bitmap := by
      show 1 ≠ sh.sb.ninodes / 8 + 3
      omega
    refine ⟨by show _ < 10; omega, ?_, fun a lowA => ?_, fun a member => ?_, fun a logA belowA => ?_⟩
    · rw [upd_ne _ _ one]
      exact super
    · have ne : a ≠ b := by omega
      rw [upd_same, clearBit, metaBits a lowA]
      simp [ne]
    · have isIn := live a (Finset.mem_of_mem_erase member)
      have ne := Finset.ne_of_mem_erase member
      show sh.InData a ∧ _
      rw [upd_same, clearBit, isIn.2]
      exact ⟨isIn.1, by simp [ne]⟩
    · have ne : a ≠ b := by omega
      rw [upd_same, clearBit, logBits a logA belowA]
      simp [ne]
  obtain ⟨r, s, leaf, rfl, inv'⟩ := sat.returns
  exact ⟨s, leaf, inv'⟩

theorem Inv.commit (inv : Inv sh used c) (ok : sh.Ok) :
    ∃ s, (act .commitTrans c.k).leaf = .done none s ∧ Inv sh used ⟨s, c.live⟩ := by
  obtain ⟨A, v, L, t, m, io, few, facts⟩ := inv.holds
  have sat : Sat Contract.total (fun r s => r = none ∧ Inv sh used ⟨s, c.live⟩)
      (act .commitTrans c.k) := by
    refine (io.commitTrans ok.geo_ok (fun _ _ _ _ _ => trivial) (fun _ _ _ _ => trivial) few).seq
      fun _ s' io' => ⟨rfl, ⟨v, v, ∅, none, m, io', ?_, facts⟩⟩
    rw [Finset.card_empty]
    decide
  obtain ⟨r, s, leaf, rfl, inv'⟩ := sat.returns
  exact ⟨s, leaf, inv'⟩

/-- One call keeps the invariant, and what it returns is in the data area. -/
theorem Inv.step (inv : Inv sh used c) (ok : sh.Ok) {call : BlockCall} {c' : BlockClient}
    {more : List BlockObs} (finds : FindsFree sh c call) (called : c.step call = some (c', more)) :
    Inv sh used c' ∧ ∀ obs ∈ more, ∃ b, obs = .returned b ∧ sh.InData b := by
  rw [BlockClient.step] at called
  split at called
  case isFalse => cases called
  case isTrue allowed =>
    cases call with
    | beginTrans =>
      split at called
      case h_1 r s leaf =>
        obtain ⟨rfl, inv'⟩ := inv.begin leaf
        cases called
        exact ⟨inv', by simp⟩
      case h_2 e s leaf =>
        -- `begin_trans` does not panic
        simp only [act, Kernel.beginTrans, Act.await, Act.bind_apply] at leaf
        split at leaf <;> cases leaf
      case h_3 => cases called
    | balloc =>
      obtain ⟨b, s, leaf, inData, inv'⟩ := inv.balloc ok allowed (finds rfl)
      rw [leaf] at called
      cases called
      refine ⟨inv', fun obs member => ?_⟩
      obtain rfl : obs = .returned b := by simpa using member
      exact ⟨b, rfl, inData⟩
    | bfree b =>
      obtain ⟨s, leaf, inv'⟩ := inv.bfree ok allowed
      rw [leaf] at called
      cases called
      exact ⟨inv', by simp⟩
    | commitTrans =>
      obtain ⟨s, leaf, inv'⟩ := inv.commit ok
      rw [leaf] at called
      cases called
      exact ⟨inv', by simp⟩

theorem Inv.run (inv : Inv sh used c) (ok : sh.Ok) {calls : List BlockCall} {z : BlockClient}
    {seen : List BlockObs} (finds : Machine.Meets BlockClient.step (FindsFree sh) c calls)
    (ran : Machine.run BlockClient.step c calls = some (z, seen)) :
    Inv sh used z ∧ ∀ obs ∈ seen, ∃ b, obs = .returned b ∧ sh.InData b := by
  refine Machine.run_keeps_where
    (I := fun seen c => Inv sh used c ∧ ∀ obs ∈ seen, ∃ b, obs = BlockObs.returned b ∧ sh.InData b)
    (fun seen s call s' more holds finds called => ?_) calls [] c z seen ⟨inv, by simp⟩ finds ran
  obtain ⟨inv', new⟩ := holds.1.step ok finds called
  refine ⟨inv', fun obs member => ?_⟩
  cases List.mem_append.1 member with
  | inl old => exact holds.2 obs old
  | inr now => exact new obs now

/-- When the data area is full and the log's blocks are not marked, `balloc` picks one of
the log. -/
theorem Inv.picks_log (inv : Inv sh used c) (ok : sh.Ok) (allowed : c.allowed .balloc = true)
    (image : used ≤ sh.log) (full : ¬ dataFree sh c.k) :
    ∃ b s, (Event.balloc b, s) ∈ (act .balloc c.k).trace ∧ sh.log ≤ b ∧ b < sh.sb.size := by
  obtain ⟨A, v, L, t, m, io, few, super, metaBits, live, logBits⟩ := inv.holds
  obtain ⟨opened, small⟩ := room_spec io allowed
  rw [dataFree, view_bitmap io ok] at full
  have log := ok.log_eq
  let C : KContract :=
    { rest := fun _ => False
      fails := fun _ _ => False
      shows := fun e _ => ∀ b, e = .balloc b → sh.log ≤ b ∧ b < sh.sb.size
      given := fun e => ∀ b, e ≠ .balloc b }
  have logs : Logs C sh A t m.proc :=
    { quiet := by
        intro x y s' _ _ b same
        cases same
      shown := by
        intro s' b same
        cases same
      opened := Or.inl opened }
  have sat : Sat C (fun _ _ => False) (act .balloc c.k) := by
    refine Sat.call (io.balloc ok super metaBits logs (Held.over_nothing sh v)
      (Finset.subset_insert _ _) (Finset.mem_insert_self _ _) (Or.inl small)
      (by rw [Held.count_nothing]; omega) (fun b s' below clear _ => ⟨?_, fun given => ?_⟩)
      (fun marked => ?_) fun b s' inData clear _ => ?_)
    · intro a same
      cases same
      refine ⟨?_, below⟩
      by_contra low
      by_cases isMeta : b < sh.ds
      · rw [metaBits b isMeta] at clear
        cases clear
      · exact full ⟨b, ⟨by omega, by omega⟩, clear⟩
    · exact absurd rfl (given b)
    · have clear := logBits sh.log (le_refl _) (by omega)
      rw [marked sh.log (by omega)] at clear
      have := of_decide_eq_true clear.symm
      omega
    · exact full ⟨b, inData, clear⟩
  obtain ⟨e, member, shown, hidden⟩ := sat.exposed (fun _ _ => id) (fun _ _ => id) fun _ => id
  obtain ⟨b, same⟩ : ∃ b, e.1 = .balloc b := by
    by_contra none_
    exact hidden fun b same => none_ ⟨b, same⟩
  refine ⟨b, e.2, ?_, shown b same⟩
  rw [← same]
  exact member

end Step

/-- The client right after the log is set up. -/
theorem Inv.start {used : Nat} {disk : Disk} (super : disk 1 = Mkfs.sbBlock)
    (bitmap : disk mkfsShape.bitmap = Mkfs.balloc used)
    (clean : headCount (disk mkfsShape.log) = 0) (low : Mkfs.metablocks ≤ used)
    (small : used < 512 * 8) :
    ∃ s0, (initlog (bootState disk Mkfs.size)).leaf = .done () s0 ∧ Inv mkfsShape used ⟨s0, ∅⟩ := by
  have ok := mkfsShape_ok
  have bits : ∀ b, (disk mkfsShape.bitmap).bit b = decide (b < used) := by
    intro b
    rw [bitmap, bit_mkfsBalloc (by omega)]
  have superG : mkfsShape.geo.Super (disk 1) := by
    rw [super]
    decide +kernel
  have com : Committed mkfsShape.geo disk disk := committed_of_clean superG clean
  have quiet : Quiet Contract.total mkfsShape.geo disk := fun _ _ _ _ _ => trivial
  obtain ⟨_, s0, leaf, io⟩ := (initlog_boot com ok.geo_ok quiet).returns
  refine ⟨s0, leaf, ⟨disk, disk, ∅, none, _, io, by decide, ?_, fun b low' => ?_, by simp, ?_⟩⟩
  · rw [super]
    decide +kernel
  · have low' : b < 29 := low'
    have low : 29 ≤ used := low
    rw [bits]
    exact decide_eq_true (by omega)
  · exact fun b _ _ => bits b

end BlockClient

/-- **Block allocation stays in the data area as long as a block is free there.**  From
the bitmap `mkfs` writes, in every run whose `balloc` calls all find a free block in the
data area, no call panics and `balloc` returns blocks of the data area only.  Once none is
free there, the next `balloc` picks a block of the log. -/
theorem balloc_in_data_area {used : Nat} {disk : Disk} (super : disk 1 = Mkfs.sbBlock)
    (bitmap : disk mkfsShape.bitmap = Mkfs.balloc used)
    (clean : headCount (disk mkfsShape.log) = 0) (low : Mkfs.metablocks ≤ used)
    (small : used < 512 * 8) :
    ∃ s0, (initlog (bootState disk Mkfs.size)).leaf = .done () s0 ∧
      ∀ calls c seen,
        Machine.Meets BlockClient.step (BlockClient.FindsFree mkfsShape) ⟨s0, ∅⟩ calls →
        Machine.run BlockClient.step ⟨s0, ∅⟩ calls = some (c, seen) →
        (∀ obs ∈ seen, ∃ b, obs = .returned b ∧ mkfsShape.InData b) ∧
          (used ≤ mkfsShape.log → c.allowed .balloc = true → ¬ BlockClient.dataFree mkfsShape c.k →
            ∃ b s, (Event.balloc b, s) ∈ (BlockClient.act .balloc c.k).trace ∧
              mkfsShape.log ≤ b ∧ b < mkfsShape.sb.size) := by
  obtain ⟨s0, leaf, inv⟩ := BlockClient.Inv.start super bitmap clean low small
  refine ⟨s0, leaf, fun calls c seen finds ran => ?_⟩
  obtain ⟨inv', good⟩ := inv.run mkfsShape_ok finds ran
  exact ⟨good, fun image allowed full => inv'.picks_log mkfsShape_ok allowed image full⟩

/-- The disk of an image whose files end at block `used`, as far as the allocator reads it. -/
def usedDisk (used : Nat) : Disk :=
  upd (upd (fun _ => Bytes.zero) 1 Mkfs.sbBlock) mkfsShape.bitmap (Mkfs.balloc used)

/-- Two blocks are left.  They are handed out, one of them twice; the block after that is one of the
log. -/
theorem balloc_in_data_area_two_left :
    ∃ s0 c b s, (initlog (bootState (usedDisk 1012) Mkfs.size)).leaf = .done () s0 ∧
      Machine.run BlockClient.step ⟨s0, ∅⟩ [.beginTrans, .balloc, .bfree 1012, .balloc, .balloc] =
        some (c, [.returned 1012, .returned 1012, .returned 1013]) ∧
      mkfsShape.InData 1013 ∧
      (Event.balloc b, s) ∈ (BlockClient.act .balloc c.k).trace ∧ mkfsShape.log ≤ b := by
  have image : usedDisk 1012 =
      upd (upd (fun _ => Bytes.zero) 1 Mkfs.sbBlock) mkfsShape.bitmap (markedBlock 1012) := by
    rw [usedDisk, mkfsBalloc_eq (by decide)]
  have works : ((initlog (bootState (usedDisk 1012) Mkfs.size)).passes fun _ s0 =>
      decide (Machine.Meets BlockClient.step (BlockClient.FindsFree mkfsShape) ⟨s0, ∅⟩
        [.beginTrans, .balloc, .bfree 1012, .balloc, .balloc]) &&
      (Machine.run BlockClient.step ⟨s0, ∅⟩
          [.beginTrans, .balloc, .bfree 1012, .balloc, .balloc]).any fun r =>
        decide (r.2 = [.returned 1012, .returned 1012, .returned 1013]) &&
        r.1.allowed .balloc && !decide (BlockClient.dataFree mkfsShape r.1.k)) = true := by
    rw [image]
    decide +kernel
  obtain ⟨_, s0, booted, works⟩ := Outcome.exists_of_passes works
  simp only [Bool.and_eq_true, decide_eq_true_eq, Option.any_eq_true, Bool.not_eq_true',
    decide_eq_false_iff_not] at works
  obtain ⟨finds, ⟨c, seen⟩, ran, ⟨rfl, allowed⟩, full⟩ := works
  obtain ⟨s1, booted', runs⟩ := @balloc_in_data_area 1012 (usedDisk 1012)
    (by rw [image]; decide +kernel) (upd_same ..) (by rw [image]; decide +kernel) (by decide) (by decide)
  rw [booted] at booted'
  cases booted'
  obtain ⟨returned, picks⟩ := runs _ c _ finds ran
  obtain ⟨b, s, picked, inLog, -⟩ := picks (by decide) allowed full
  obtain ⟨b', same, inData⟩ := returned (.returned 1013) (by simp)
  cases same
  exact ⟨s0, c, b, s, booted, ran, inData, picked, inLog⟩

/-- When the data area is full, `balloc` returns the header block of the log. -/
theorem balloc_returns_log_block :
    usedDisk 1014 1 = Mkfs.sbBlock ∧
      usedDisk 1014 mkfsShape.bitmap = Mkfs.balloc 1014 ∧
      headCount (usedDisk 1014 mkfsShape.log) = 0 ∧
      (Machine.run BlockClient.step ⟨(initlog (bootState (usedDisk 1014) Mkfs.size)).final, ∅⟩
        [.beginTrans, .balloc]).map (fun r => r.2) = some [.returned 1014] ∧
      mkfsShape.sb.size - mkfsShape.sb.nlog = 1014 := by
  refine ⟨?_, upd_same .., ?_, ?_, rfl⟩
  · exact (upd_ne _ _ (by decide)).trans (upd_same ..)
  · decide +kernel
  · rw [usedDisk, mkfsBalloc_eq (by decide)]
    decide +kernel

end Xv6Rpi.Kernel
