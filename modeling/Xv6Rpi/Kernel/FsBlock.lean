/-
# Kernel.FsBlock -- the block allocator

What `balloc` does to the bitmap and to the files (`Rep`), for any contract (`balloc_spec`).
`Trans` collects what the contract has to accept of code that writes through the log: the
writes themselves and the allocator's choice of a block.  `Fits` is the room a transaction
needs in the log and in the buffer cache, and `Supplies` the blocks it needs; a contract may
accept that there is not enough of either.
-/
import Mathlib.Order.Interval.Finset.Nat
import Xv6Rpi.Kernel.FsRep

namespace Xv6Rpi.Kernel

open Theory

set_option autoImplicit false

/-- What a contract accepts of process `p` writing through the log. -/
structure Logs (C : KContract) (sh : Shape) (A : Disk) (t : Option Pid)
    (p : Pid) : Prop where
  quiet : Quiet C sh.geo A
  shown : ∀ s, C.shows (.logWrite p t) s
  opened : t ≠ none ∨ ∀ s, C.fails .outsideTrans s

/-- What it accepts of code that allocates blocks. -/
structure Trans (C : KContract) (sh : Shape) (A : Disk) (t : Option Pid)
    (p : Pid) : Prop extends Logs C sh A t p where
  picks : ∀ b s, C.shows (.balloc b) s

/-- A transaction of `n` blocks fits, or it is accepted that the log is full, or that there is no
buffer; buffers run out only when the log is all but full. -/
def Fits (C : KContract) (n : Nat) : Prop :=
  n ≤ 7 ∨ ((∀ s : KState, s.log.full = true → C.fails .tooBig s) ∧
    ∀ s : KState, 8 ≤ s.log.lh.n → s.NoBuffer → C.fails .bget s)

/-- The blocks of the data area that are not marked. -/
def Shape.spare (sh : Shape) (v : Disk) : Finset Nat :=
  (Finset.Ico sh.ds sh.log).filter fun b => (v sh.bitmap).bit b = false

/-- Every block is marked in the bitmap, as the buffer cache shows it. -/
def KState.NoBlock (sh : Shape) (s : KState) : Prop :=
  ∀ b < sh.sb.size, (s.bio.view sh.bitmap).bit b = true

/-- There are `n` blocks left, or it is accepted that there are not. -/
def Supplies (C : KContract) (sh : Shape) (v : Disk) (n : Nat) : Prop :=
  n ≤ (sh.spare v).card ∨
    ((∀ b, C.given (.balloc b) → b < sh.log) ∧ ∀ s : KState, s.NoBlock sh → C.fails .balloc s)

section Fits

variable {C : KContract} {L M : Finset Nat} {h : Held} {n k : Nat}

theorem Fits.mono (fits : Fits C n) (le : k ≤ n) : Fits C k := by
  rcases fits with small | accepted
  · exact Or.inl (le_trans le small)
  · exact Or.inr accepted

theorem Fits.room (fits : Fits C M.card) (sub : L ⊆ M) (few : h.count ≤ 2) {g : Geo}
    {A v : Disk} {t : Option Pid} {m : Mem} {s : KState} (io : Io g A v L h t m s) :
    h.count + L.card < NBUF ∨
      ∀ s', s'.log.lh.n = s.log.lh.n → s'.NoBuffer → C.fails .bget s' := by
  rcases fits with small | accepted
  · have := Finset.card_le_card sub
    exact Or.inl (by show _ < 10; omega)
  · by_cases enough : h.count + L.card < 10
    · exact Or.inl enough
    · refine Or.inr fun s' same => accepted.2 s' ?_
      rw [same, io.count_eq_card]
      omega

theorem Fits.log (fits : Fits C M.card) (sub : L ⊆ M) {sh : Shape} (ok : sh.Ok) :
    L.card < LOGSIZE ∧ L.card + 1 < sh.geo.nlog ∨
      ∀ s : KState, s.log.full = true → C.fails .tooBig s := by
  rcases fits with small | accepted
  · have := Finset.card_le_card sub
    have nlog : sh.geo.nlog = 10 := ok.nlog
    exact Or.inl ⟨by show _ < 10; omega, by omega⟩
  · exact Or.inr accepted.1

theorem Supplies.mono {sh : Shape} {v : Disk} (supplies : Supplies C sh v n) (le : k ≤ n) :
    Supplies C sh v k := by
  rcases supplies with enough | accepted
  · exact Or.inl (le.trans enough)
  · exact Or.inr accepted

end Fits

section Rules

variable {C : KContract} {sh : Shape} {A v : Disk} {L M : Finset Nat}
  {h : Held} {t : Option Pid} {m : Mem} {s : KState} {α : Type}

namespace Io

/-- Reading the superblock. -/
theorem readsb (io : Io sh.geo A v L h t m s) (ok : sh.Ok) {Q : α → KState → Prop}
    {f : Superblock → K α} (free : ∀ b, h b ≠ some 1)
    (room : h.count + L.card < NBUF ∨ (s.NoBuffer → C.fails .bget s))
    (next : ∀ s', Io sh.geo A v L h t m s' → Sat C Q (f (Superblock.ofBlock (v 1)) s')) :
    Sat C Q ((Kernel.readsb ROOTDEV >>= f) s) := by
  have after : 1 < sh.log := ok.geo_ok.afterSuper
  refine Sat.call ?_
  unfold Kernel.readsb
  refine io.bread (ok.onDisk_of_lt after) (Shape.not_inLog after) free room fun b s1 idle io1 => ?_
  have held : upd h b (some 1) b = some 1 := upd_same ..
  refine Sat.step (io1.bdata_eq held) ?_
  obtain ⟨s2, released, io2⟩ := io1.brelse held
  rw [Held.upd_upd_none idle] at io2
  exact Sat.step released (next s2 io2)

/-- The block in a held buffer gets a new content, through the log, and is released. -/
theorem store (io : Io sh.geo A v L h t m s) (ok : sh.Ok) (logs : Logs C sh A t m.proc)
    (fits : Fits C M.card) {b : BufId} {x : Nat} {y : Block} (held : h b = some x) (sub : L ⊆ M)
    (few : h.count ≤ 2) (notSuper : x ≠ 1) {Q : α → KState → Prop} {f : Unit → K α}
    (next : ∀ s', Io sh.geo A (upd v x y) (insert x L) h t m s' → Sat C Q (f () s')) :
    Sat C Q ((setData b y >>= fun _ => Kernel.logWrite b >>= f) s) :=
  io.logWrite ok.geo_ok held logs.quiet (fun s' _ => logs.shown s') (fits.log sub ok) logs.opened
    (fits.room sub few io) (fun same => absurd same notSuper) next

/-- `bread`, with the room a transaction has. -/
theorem fetch (io : Io sh.geo A v L h t m s) (ok : sh.Ok) (fits : Fits C M.card) (sub : L ⊆ M)
    (few : h.count ≤ 1) {x : Nat} (below : x < sh.log) (free : ∀ b, h b ≠ some x)
    {Q : α → KState → Prop} {f : BufId → K α}
    (next : ∀ b s', h b = none → Held.count (upd h b (some x)) ≤ 2 →
      upd h b (some x) b = some x → Io sh.geo A v L (upd h b (some x)) t m s' → Sat C Q (f b s')) :
    Sat C Q ((Kernel.bread ROOTDEV x >>= f) s) := by
  refine io.bread (ok.onDisk_of_lt below) (Shape.not_inLog below) free
    ((fits.room sub (by omega) io).imp_right fun accepted => accepted s rfl) fun b s' idle io' => ?_
  refine next b s' idle ?_ (upd_same ..) io'
  rw [Held.count_upd_some idle]
  omega

/-- Releasing the buffer fetched last. -/
theorem drop {b : BufId} {x : Nat} (io : Io sh.geo A v L (upd h b (some x)) t m s) (idle : h b = none)
    {R : Unit → KState → Prop} (next : ∀ s', Io sh.geo A v L h t m s' → R () s') :
    Sat C R (Kernel.brelse b s) := by
  obtain ⟨s', released, io'⟩ := io.brelse (upd_same h b (some x))
  rw [Held.upd_upd_none idle] at io'
  rw [released]
  exact next s' io'

end Io

/-! ## The allocator -/

/-- What the scan of a bitmap block finds: the first clear bit. -/
theorem freeBit_some {d : Block} {n bi : Nat} (found : freeBit d n = some bi) :
    bi < n ∧ bi < 4096 ∧ d.bit bi = false ∧ ∀ c < bi, d.bit c = true := by
  obtain ⟨clear, member, before⟩ := List.find?_range_eq_some.1 found
  have bound : bi < min 4096 n := List.mem_range.1 member
  refine ⟨by omega, by omega, ?_, fun c below => ?_⟩
  · exact (Bytes.masked_eq_zero_iff d bi).1 (eq_of_beq clear)
  · have set_ := before c below
    rw [Bool.not_eq_true', beq_eq_false_iff_ne] at set_
    rw [← Bool.not_eq_false]
    exact fun clearC => set_ ((Bytes.masked_eq_zero_iff d c).2 clearC)

theorem freeBit_none {d : Block} {n c : Nat} (missing : freeBit d n = none) (below : c < n)
    (inBlock : c < 4096) : d.bit c = true := by
  have set_ := List.find?_range_eq_none.1 missing c (by show c < min 4096 n; omega)
  rw [Bool.not_eq_true', beq_eq_false_iff_ne] at set_
  rw [← Bool.not_eq_false]
  exact fun clearC => set_ ((Bytes.masked_eq_zero_iff d c).2 clearC)

/-- Every held block is a marked block of the data area. -/
def Held.Over (h : Held) (sh : Shape) (v : Disk) : Prop := ∀ b y, h b = some y → y ∈ sh.used v

theorem Held.Over.free {h : Held} {sh : Shape} {v : Disk} (onUsed : h.Over sh v) {x : Nat}
    (low : x < sh.ds) (b : BufId) : h b ≠ some x := by
  intro held
  have inData := (onUsed b x held).1.1
  omega

theorem Held.over_nothing (sh : Shape) (v : Disk) : Held.nothing.Over sh v :=
  fun _ _ held => by cases held

/-- No buffer is held. -/
abbrev Shape.Rests (sh : Shape) (A v : Disk) (L : Finset Nat) : Option Pid → Mem → KState → Prop :=
  Io sh.geo A v L Held.nothing

namespace Io

/-- **balloc** takes the first clear bit of the bitmap and zeroes that block. -/
theorem balloc (io : Io sh.geo A v L h t m s) (ok : sh.Ok) (super : Superblock.ofBlock (v 1) = sh.sb)
    (metaBits : ∀ b < sh.ds, (v sh.bitmap).bit b = true) (logs : Logs C sh A t m.proc)
    (onUsed : h.Over sh v) (sub : L ⊆ M) (bitmapIn : sh.bitmap ∈ M) (fits : Fits C M.card)
    (few : h.count ≤ 1)
    (picks : ∀ b s', b < sh.sb.size → (v sh.bitmap).bit b = false →
      (∀ c < b, (v sh.bitmap).bit c = true) →
      C.shows (.balloc b) s' ∧ (C.given (.balloc b) → b < sh.log))
    (full : (∀ b < sh.sb.size, (v sh.bitmap).bit b = true) →
      ∀ s' : KState, s'.NoBlock sh → C.fails .balloc s')
    {R : Nat → KState → Prop}
    (next : ∀ b s', sh.InData b → (v sh.bitmap).bit b = false →
      Io sh.geo A (upd (upd v sh.bitmap ((v sh.bitmap).setBit b)) b Bytes.zero)
        (insert b (insert sh.bitmap L)) h t m s' → R b s') :
    Sat C R (Kernel.balloc ROOTDEV s) := by
  have log := ok.log_eq
  have bits := ok.bits
  have after := ok.afterBitmap
  have bitmapHigh : 1 < sh.bitmap := by
    show 1 < sh.sb.ninodes / 8 + 3
    omega
  have logHigh := ok.ds_le_log
  unfold Kernel.balloc
  refine io.readsb ok (onUsed.free (by omega)) 
    ((fits.room sub (by omega) io).imp_right fun accepted => accepted s rfl) fun s1 io1 => ?_
  rw [super]
  have oneBlock : List.range ((sh.sb.size + BPB - 1) / BPB) = [0] := by
    have one : (sh.sb.size + 4096 - 1) / 4096 = 1 := by omega
    show List.range ((sh.sb.size + 4096 - 1) / 4096) = [0]
    rw [one]
    rfl
  rw [oneBlock]
  unfold ballocIn
  simp only [Nat.mul_zero, Nat.sub_zero, Nat.zero_add]
  rw [ok.bblock (by omega)]
  refine io1.fetch ok fits sub few (by omega) (onUsed.free after) fun bp s2 idle count held io2 => ?_
  refine Sat.step (io2.bdata_eq held) ?_
  cases found : freeBit (v sh.bitmap) sh.sb.size with
  | some b =>
    obtain ⟨below, -, clear, first⟩ := freeBit_some found
    obtain ⟨shown, area⟩ := picks b s2 below clear first
    refine Sat.event (Act.emit_apply _ _) shown fun given => ?_
    have inArea := area given
    refine io2.store ok logs fits held sub count (by omega) fun s3 io3 => ?_
    refine Sat.call (io3.drop idle fun s4 io4 => ?_)
    -- zero the block: it is not marked, so nobody holds it
    have sub' : insert sh.bitmap L ⊆ M := Finset.insert_subset bitmapIn sub
    have free : ∀ a, h a ≠ some b := by
      intro a heldA
      have on := (onUsed a b heldA).2
      rw [clear] at on
      exact Bool.false_ne_true on
    have inData : sh.ds ≤ b := by
      by_contra low
      rw [metaBits b (by omega)] at clear
      cases clear
    unfold bzero
    refine Sat.call ?_
    refine io4.fetch ok fits sub' few inArea free fun bp s5 idle5 count5 held5 io5 => ?_
    refine io5.store ok logs fits held5 sub' count5 (by omega) fun s6 io6 => ?_
    exact io6.drop idle5 fun s7 io7 => next b s7 ⟨inData, inArea⟩ clear io7
  | none =>
    refine Sat.call (io2.drop idle fun s3 io3 => ?_)
    have set_ : ∀ b < sh.sb.size, (v sh.bitmap).bit b = true :=
      fun b below => freeBit_none found below (by omega)
    refine full set_ s3 fun b below => ?_
    rw [io3.view_eq (Shape.not_inLog (by omega))]
    exact set_ b below

/-- **bfree** of a marked block clears its bit. -/
theorem bfree (io : Io sh.geo A v L h t m s) (ok : sh.Ok) (super : Superblock.ofBlock (v 1) = sh.sb)
    (logs : Logs C sh A t m.proc) (onUsed : h.Over sh v) (sub : L ⊆ M) (fits : Fits C M.card)
    (few : h.count ≤ 1) {b : Nat} (marked : b ∈ sh.used v) {R : Unit → KState → Prop}
    (next : ∀ s', Io sh.geo A (upd v sh.bitmap ((v sh.bitmap).clearBit b)) (insert sh.bitmap L) h t m s' →
      R () s') :
    Sat C R (Kernel.bfree ROOTDEV b s) := by
  obtain ⟨inData, on⟩ := marked
  have log := ok.log_eq
  have bits := ok.bits
  have after := ok.afterBitmap
  have below := inData.2
  have bitmapHigh : 1 < sh.bitmap := by
    show 1 < sh.sb.ninodes / 8 + 3
    omega
  have logHigh := ok.ds_le_log
  unfold Kernel.bfree
  refine io.readsb ok (onUsed.free (by omega)) 
    ((fits.room sub (by omega) io).imp_right fun accepted => accepted s rfl) fun s1 io1 => ?_
  rw [super, ok.bblock (by omega)]
  refine io1.fetch ok fits sub few (by omega) (onUsed.free after) fun bp s2 idle count held io2 => ?_
  have same : b % BPB = b := Nat.mod_eq_of_lt (by show b < 4096; omega)
  simp only [same]
  refine Sat.step (io2.bdata_eq held) (Sat.failIf (fun clear => ?_) fun _ => ?_)
  · rw [(Bytes.masked_eq_zero_iff _ _).1 (eq_of_beq clear)] at on
    cases on
  · refine io2.store ok logs fits held sub count (by omega) fun s3 io3 => ?_
    exact io3.drop idle next

end Io

/-! ## Allocation and the files -/

/-- What an allocated block changes: it is marked, zeroed and loose. -/
structure Grown (sh : Shape) (v v' : Disk) (E : Inodes) (Q : Set Nat) (x : Option Nat)
    (b : Nat) : Prop where
  inData : sh.InData b
  fresh : b ∉ sh.used v
  used : sh.used v ⊆ sh.used v'
  zero : v' b = Bytes.zero
  same : ∀ y, y ≠ sh.bitmap → y ≠ b → v' y = v y
  rep : Rep sh v' E (insert b Q) x
  nodes : sh.nodes v' E = sh.nodes v E

/-- A new mark takes one block from those that are spare. -/
theorem spare_mark {v' : Disk} {b : Nat} (ok : sh.Ok) (inData : sh.InData b)
    (clear : (v sh.bitmap).bit b = false) (mark : v' sh.bitmap = (v sh.bitmap).setBit b) :
    sh.spare v' = (sh.spare v).erase b ∧ b ∈ sh.spare v := by
  have inside := ok.bit_lt inData
  refine ⟨?_, Finset.mem_filter.2 ⟨Finset.mem_Ico.2 inData, clear⟩⟩
  ext c
  simp only [Shape.spare, Finset.mem_filter, Finset.mem_erase, mark, Bytes.bit_setBit inside,
    Bool.or_eq_false_iff, decide_eq_false_iff_not]
  constructor
  · exact fun ⟨area, ne, isClear⟩ => ⟨ne, area, isClear⟩
  · exact fun ⟨ne, area, isClear⟩ => ⟨area, ne, isClear⟩

/-- While there are blocks to spare, the allocator picks one of them. -/
theorem Supplies.picks {n : Nat} (supplies : Supplies C sh v (n + 1)) :
    (∀ b, (∀ c < b, (v sh.bitmap).bit c = true) → C.given (.balloc b) → b < sh.log) ∧
      ((∀ b < sh.sb.size, (v sh.bitmap).bit b = true) →
        ∀ s' : KState, s'.NoBlock sh → C.fails .balloc s') := by
  rcases supplies with enough | ⟨area, full⟩
  · obtain ⟨c, member⟩ := Finset.card_pos.1 (Nat.lt_of_lt_of_le (Nat.succ_pos n) enough)
    obtain ⟨inArea, clear⟩ := Finset.mem_filter.1 member
    have below := (Finset.mem_Ico.1 inArea).2
    have inside : sh.log ≤ sh.sb.size := Nat.sub_le _ _
    constructor
    · intro b first _
      by_contra high
      rw [first c (by omega)] at clear
      cases clear
    · intro full
      rw [full c (by omega)] at clear
      cases clear
  · exact ⟨fun b _ => area b, fun _ => full⟩

theorem balloc_spec {E : Inodes} {Q : Set Nat} {x : Option Nat} {n : Nat}
    (io : Io sh.geo A v L h t m s) (ok : sh.Ok) (rep : Rep sh v E Q x) (trans : Trans C sh A t m.proc)
    (onUsed : h.Over sh v) (sub : L ⊆ M) (bitmapIn : sh.bitmap ∈ M) (fits : Fits C M.card)
    (few : h.count ≤ 1) (supplies : Supplies C sh v (n + 1)) :
    Sat C (fun b s' => ∃ v', Grown sh v v' E Q x b ∧ Supplies C sh v' n ∧
      Io sh.geo A v' (insert b (insert sh.bitmap L)) h t m s') (balloc ROOTDEV s) := by
  obtain ⟨area, full⟩ := supplies.picks
  refine io.balloc ok rep.super rep.metaBits trans.toLogs onUsed sub bitmapIn fits few
    (fun b s' _ _ first => ⟨trans.picks b s', area b first⟩) full
    fun b s' inData clear io' => ⟨_, ?_, ?_, io'⟩
  · obtain ⟨rep1, nodes1⟩ := rep.mark ok inData clear
    obtain ⟨rep2, nodes2⟩ := rep1.paintLoose ok (Set.mem_insert b Q) Bytes.zero
    have after := ok.afterBitmap
    have low := inData.1
    refine ⟨inData, fun member => ?_, fun y member => ⟨member.1, ?_⟩, upd_same .., ?_, rep2,
      nodes2.trans nodes1⟩
    · have on := member.2
      rw [clear] at on
      cases on
    · rw [upd_ne _ _ (by omega), upd_same, Bytes.bit_setBit (ok.bit_lt inData), member.2, Bool.or_true]
    · intro y notBitmap notB
      rw [upd_ne _ _ notB, upd_ne _ _ notBitmap]
  · rcases supplies with enough | accepted
    · left
      have after := ok.afterBitmap
      have low := inData.1
      have mark : upd (upd v sh.bitmap ((v sh.bitmap).setBit b)) b Bytes.zero sh.bitmap =
          (v sh.bitmap).setBit b := by
        rw [upd_ne _ _ (by omega), upd_same]
      obtain ⟨spare, member⟩ := spare_mark ok inData clear mark
      rw [spare, Finset.card_erase_of_mem member]
      omega
    · exact Or.inr accepted

end Rules

end Xv6Rpi.Kernel
