/-
# Kernel.SharedWrite -- processes that share a file offset

Any number of processes call `filewrite` on one file structure.  `begin_trans` and `ilock` may
sleep, so between a piece's transaction being opened and its inode being locked, and before every
`begin_trans`, any other process may run.  The steps are those of `filewrite`: `beginTrans` and, from
`ilock` to `commit_trans`, `fileWriteBody`.

`Shared` ties what has been committed so far to the file and its offset, and to what each process
still has to write.
-/
import Mathlib.Algebra.Order.BigOperators.Group.Finset
import Mathlib.Data.Fintype.BigOperators
import Xv6Rpi.Kernel.FileWrite

namespace Xv6Rpi.Kernel

open Theory Tools

set_option autoImplicit false

/-! ## The machine -/

/-- Where a process is in `filewrite`: not in it, at `begin_trans`, or at `ilock` with its
transaction open.  It was asked to write `n` bytes, and `rest` is not written yet. -/
inductive Writer where
  | idle
  | begins (n : Nat) (rest : List Byte)
  | locks (n : Nat) (rest : List Byte)
  deriving DecidableEq

def Writer.rest : Writer → List Byte
  | .idle => []
  | .begins _ rest => rest
  | .locks _ rest => rest

@[simp] theorem Writer.rest_idle : Writer.idle.rest = [] := rfl

@[simp] theorem Writer.rest_begins (n : Nat) (rest : List Byte) : (Writer.begins n rest).rest = rest :=
  rfl

@[simp] theorem Writer.rest_locks (n : Nat) (rest : List Byte) : (Writer.locks n rest).rest = rest :=
  rfl

structure Writers where
  k : KState
  at_ : Pid → Writer

inductive WriteOp where
  | call (p : Pid) (src : List Byte)
  | resume (p : Pid)
  deriving DecidableEq

inductive WriteObs where
  | called (p : Pid) (src : List Byte)
  | committed (p : Pid) (piece : List Byte)
  | returned (p : Pid) (r : Option Nat)
  | panicked (e : Panic)
  deriving DecidableEq

/-- The processor is given to `p`. -/
def KState.switch (s : KState) (p : Pid) : KState := { s with mem := { s.mem with proc := p } }

namespace Writers

/-- `p` enters `filewrite`. -/
def enter (f : FileId) (w : Writers) (p : Pid) (src : List Byte) : Writers × List WriteObs :=
  if (w.k.mem.ftable f).writable = false then (w, [.called p src, .returned p none])
  else
    match (w.k.mem.ftable f).type with
    | .pipe => (w, [.called p src, .returned p (some src.length)])
    | .inode => ({ w with at_ := upd w.at_ p (.begins src.length src) }, [.called p src])
    | .none => (w, [.called p src, .panicked .filewrite])

/-- `p` goes on from `begin_trans`, at the head of the loop; none while it has to sleep. -/
def goBegin (w : Writers) (p : Pid) (n : Nat) (rest : List Byte) : Option (Writers × List WriteObs) :=
  if rest = [] then some ({ w with at_ := upd w.at_ p .idle }, [.returned p (some n)])
  else
    match (beginTrans (w.k.switch p)).leaf with
    | .done _ s => some (⟨s, upd w.at_ p (.locks n rest)⟩, [])
    | .fail e s => some (⟨s, w.at_⟩, [.panicked e])
    | _ => none

/-- `p` goes on from `ilock`, to the end of the piece; none while it has to sleep. -/
def goLock (f : FileId) (w : Writers) (p : Pid) (n : Nat) (rest : List Byte) :
    Option (Writers × List WriteObs) :=
  match (fileWriteBody f (rest.take WRITEMAX) (w.k.switch p)).leaf with
  | .done none s => some (⟨s, upd w.at_ p .idle⟩, [.returned p none])
  | .done (some r) s =>
    if r ≠ (rest.take WRITEMAX).length then some (⟨s, w.at_⟩, [.panicked .shortFilewrite])
    else some (⟨s, upd w.at_ p (.begins n (rest.drop WRITEMAX))⟩,
      [.committed p (rest.take WRITEMAX)])
  | .fail e s => some (⟨s, w.at_⟩, [.panicked e])
  | _ => none

def step (f : FileId) (w : Writers) : WriteOp → Option (Writers × List WriteObs)
  | .call p src =>
    match w.at_ p with
    | .idle => some (w.enter f p src)
    | _ => none
  | .resume p =>
    match w.at_ p with
    | .idle => none
    | .begins n rest => w.goBegin p n rest
    | .locks n rest => w.goLock f p n rest

end Writers

/-! ## What has been seen -/

namespace WriteObs

/-- What an observation says was written. -/
def piece : WriteObs → List Byte
  | .committed _ c => c
  | _ => []

def pieceOf (p : Pid) : WriteObs → List Byte
  | .committed q c => if q = p then c else []
  | _ => []

/-- What it says `p` asked for. -/
def sourceOf (p : Pid) : WriteObs → List Byte
  | .called q src => if q = p then src else []
  | _ => []

def size : WriteObs → Nat
  | .called _ src => src.length
  | _ => 0

/-- A call that fails, or a panic. -/
def failed : WriteObs → Bool
  | .returned _ none => true
  | .panicked _ => true
  | _ => false

end WriteObs

/-- The committed pieces, in order. -/
def written (seen : List WriteObs) : List Byte := seen.flatMap WriteObs.piece

def writtenBy (p : Pid) (seen : List WriteObs) : List Byte := seen.flatMap (WriteObs.pieceOf p)

/-- What `p` asked to be written, over all its calls. -/
def askedBy (p : Pid) (seen : List WriteObs) : List Byte := seen.flatMap (WriteObs.sourceOf p)

/-- How many bytes were asked for in all. -/
def asked (seen : List WriteObs) : Nat := (seen.map WriteObs.size).sum

section Seen

variable (a b : List WriteObs) (p : Pid)

theorem written_append : written (a ++ b) = written a ++ written b := List.flatMap_append

theorem writtenBy_append : writtenBy p (a ++ b) = writtenBy p a ++ writtenBy p b :=
  List.flatMap_append

theorem askedBy_append : askedBy p (a ++ b) = askedBy p a ++ askedBy p b := List.flatMap_append

theorem asked_append : asked (a ++ b) = asked a + asked b := by simp [asked]

end Seen

/-- The bytes still to be written. -/
def pending (at_ : Pid → Writer) : Nat := ∑ p, (at_ p).rest.length

theorem pending_upd (at_ : Pid → Writer) (p : Pid) (x : Writer) :
    pending (upd at_ p x) + (at_ p).rest.length = pending at_ + x.rest.length := by
  have mem := Finset.mem_univ p
  have others : ∑ q ∈ Finset.univ.erase p, (upd at_ p x q).rest.length =
      ∑ q ∈ Finset.univ.erase p, (at_ q).rest.length := by
    refine Finset.sum_congr rfl fun q member => ?_
    rw [upd_ne _ _ (Finset.ne_of_mem_erase member)]
  unfold pending
  rw [← Finset.add_sum_erase _ _ mem, ← Finset.add_sum_erase _ (fun q => (at_ q).rest.length) mem,
    others, upd_same]
  omega

theorem rest_le_pending (at_ : Pid → Writer) (p : Pid) : (at_ p).rest.length ≤ pending at_ :=
  Finset.single_le_sum (f := fun q => (at_ q).rest.length) (fun _ _ => Nat.zero_le _)
    (Finset.mem_univ p)

theorem pending_idle {at_ : Pid → Writer} (idle : ∀ p, at_ p = .idle) : pending at_ = 0 := by
  unfold pending
  exact Finset.sum_eq_zero fun p _ => by rw [idle p]; rfl

/-! ## The invariant -/

/-- The blocks a step may need: those a piece lies in, and an indirect block. -/
def Writers.needs (f : FileId) (w : Writers) : WriteOp → Nat
  | .call _ _ => 0
  | .resume p =>
    match w.at_ p with
    | .locks _ rest => 1 + spans (w.k.mem.ftable f).off (rest.take WRITEMAX).length
    | _ => 0

/-- There are as many free blocks in the data area. -/
def Roomy (sh : Shape) (f : FileId) (w : Writers) (op : WriteOp) : Prop :=
  w.needs f op ≤ (sh.spare w.k.bio.view).card

instance (sh : Shape) (f : FileId) (w : Writers) (op : WriteOp) : Decidable (Roomy sh f w op) :=
  inferInstanceAs (Decidable (w.needs f op ≤ _))

/-- Every byte asked for is committed or pending, with its process, and no call has failed. -/
structure Ledger (seen : List WriteObs) (at_ : Pid → Writer) : Prop where
  mine : ∀ p, writtenBy p seen ++ (at_ p).rest = askedBy p seen
  sum : (written seen).length + pending at_ = asked seen
  fine : ∀ o ∈ seen, o.failed = false

namespace Ledger

variable {seen : List WriteObs} {at_ : Pid → Writer} {p : Pid} {n k : Nat} {src : List Byte}

theorem start : Ledger [] fun _ => .idle := by
  refine ⟨fun _ => rfl, ?_, fun o member => by cases member⟩
  rw [pending_idle fun _ => rfl]
  rfl

/-- One more observation, which is no failure. -/
theorem observe (ledger : Ledger seen at_) {o : WriteObs} {x : Writer} (good : o.failed = false)
    (self : o.pieceOf p ++ x.rest = (at_ p).rest ++ o.sourceOf p)
    (others : ∀ q, q ≠ p → o.pieceOf q = [] ∧ o.sourceOf q = [])
    (whole : o.piece = o.pieceOf p) (size : o.size = (o.sourceOf p).length) :
    Ledger (seen ++ [o]) (upd at_ p x) := by
  refine ⟨fun q => ?_, ?_, fun o' member => ?_⟩
  · rw [writtenBy_append, askedBy_append, ← ledger.mine q]
    simp only [writtenBy, askedBy, List.flatMap_cons, List.flatMap_nil, List.append_nil]
    by_cases isP : q = p
    · subst isP
      rw [upd_same, List.append_assoc, self, List.append_assoc]
    · rw [upd_ne _ _ isP, (others q isP).1, (others q isP).2, List.append_nil, List.append_nil]
  · have counted := pending_upd at_ p x
    have sum := ledger.sum
    have lengths := congrArg List.length self
    rw [List.length_append, List.length_append] at lengths
    rw [written_append, asked_append]
    simp only [written, asked, List.flatMap_cons, List.flatMap_nil, List.append_nil, List.map_cons,
      List.map_nil, List.sum_cons, List.sum_nil, List.length_append, whole, size] at sum ⊢
    omega
  · rcases List.mem_append.1 member with old | new
    · exact ledger.fine o' old
    · rw [List.mem_singleton.1 new]
      exact good

theorem call (ledger : Ledger seen at_) (idle : at_ p = .idle) (n : Nat) (src : List Byte) :
    Ledger (seen ++ [.called p src]) (upd at_ p (.begins n src)) := by
  refine ledger.observe rfl ?_ (fun q ne => ⟨rfl, if_neg (Ne.symm ne)⟩) rfl ?_
  · simp [WriteObs.pieceOf, WriteObs.sourceOf, idle]
  · simp [WriteObs.sourceOf, WriteObs.size]

theorem return_ (ledger : Ledger seen at_) (finished : (at_ p).rest = []) (n : Nat) :
    Ledger (seen ++ [.returned p (some n)]) (upd at_ p .idle) := by
  refine ledger.observe rfl ?_ (fun q _ => ⟨rfl, rfl⟩) rfl rfl
  rw [finished]
  rfl

theorem commit (ledger : Ledger seen at_) {rest : List Byte} (isRest : (at_ p).rest = rest) (n k : Nat) :
    Ledger (seen ++ [.committed p (rest.take k)]) (upd at_ p (.begins n (rest.drop k))) := by
  refine ledger.observe rfl ?_ (fun q ne => ⟨if_neg (Ne.symm ne), rfl⟩) ?_ rfl
  · simp [WriteObs.pieceOf, WriteObs.sourceOf, isRest]
  · simp [WriteObs.pieceOf, WriteObs.piece]

/-- Moving on within a call. -/
theorem move (ledger : Ledger seen at_) {x : Writer} (same : x.rest = (at_ p).rest) :
    Ledger seen (upd at_ p x) := by
  refine ⟨fun q => ?_, ?_, ledger.fine⟩
  · by_cases isP : q = p
    · subst isP
      rw [upd_same, same]
      exact ledger.mine q
    · rw [upd_ne _ _ isP]
      exact ledger.mine q
  · have counted := pending_upd at_ p x
    have sum := ledger.sum
    rw [same] at counted
    omega

end Ledger

/-- The process whose transaction is open is the one that is at `ilock`. -/
def Turns (at_ : Pid → Writer) (t : Option Pid) : Prop :=
  ∀ p, (∃ n rest, at_ p = .locks n rest) ↔ t = some p

section Turns

variable {at_ : Pid → Writer} {t : Option Pid} {p : Pid} {x : Writer}

theorem Turns.start : Turns (fun _ => .idle) none := by
  intro p
  constructor
  · rintro ⟨n, rest, isLocks⟩
    cases isLocks
  · intro impossible
    cases impossible

theorem Turns.keep (turns : Turns at_ t) (before : ∀ n rest, at_ p ≠ .locks n rest)
    (after : ∀ n rest, x ≠ .locks n rest) : Turns (upd at_ p x) t := by
  intro q
  by_cases isP : q = p
  · subst isP
    rw [← turns q, upd_same]
    constructor
    · rintro ⟨n, rest, isLocks⟩
      exact absurd isLocks (after n rest)
    · rintro ⟨n, rest, isLocks⟩
      exact absurd isLocks (before n rest)
  · rw [upd_ne _ _ isP]
    exact turns q

theorem Turns.take (turns : Turns at_ none) (n : Nat) (rest : List Byte) :
    Turns (upd at_ p (.locks n rest)) (some p) := by
  intro q
  by_cases isP : q = p
  · subst isP
    rw [upd_same]
    exact ⟨fun _ => rfl, fun _ => ⟨n, rest, rfl⟩⟩
  · rw [upd_ne _ _ isP, turns q]
    constructor
    · intro impossible
      cases impossible
    · intro same
      exact absurd (Option.some.inj same).symm isP

theorem Turns.give (turns : Turns at_ (some p)) (after : ∀ n rest, x ≠ .locks n rest) :
    Turns (upd at_ p x) none := by
  intro q
  by_cases isP : q = p
  · subst isP
    rw [upd_same]
    constructor
    · rintro ⟨n, rest, isLocks⟩
      exact absurd isLocks (after n rest)
    · intro impossible
      cases impossible
  · rw [upd_ne _ _ isP, turns q]
    constructor
    · intro same
      exact absurd (Option.some.inj same).symm isP
    · intro impossible
      cases impossible

end Turns

/-- The file system was as `v` and `E` say and the file structure was `x` when the first process
came; `seen` has been observed since. -/
structure Shared (sh : Shape) (v : Disk) (E : Inodes) (x : File) (f : FileId) (i : Nat)
    (seen : List WriteObs) (w : Writers) : Prop where
  state : ∃ v' E' m t, Opened sh v' E' t m f i w.k ∧ Turns w.at_ t ∧
    m.ftable f = { x with off := x.off + (written seen).length } ∧
    Written sh i x.off (written seen) v E v' E'
  ledger : Ledger seen w.at_

section Step

variable {sh : Shape} {v : Disk} {E : Inodes} {x : File} {f : FileId} {i : Nat}
  {seen more : List WriteObs} {w w' : Writers} {p : Pid} {src rest : List Byte} {n : Nat}

theorem Opened.switch {t : Option Pid} {m : Mem} {s : KState} (y : Opened sh v E t m f i s) (p : Pid) :
    Opened sh v E t { m with proc := p } f i (s.switch p) :=
  { y with
    io := { y.io with
      mem := by
        show ({ s.mem with proc := p } : Mem) = _
        rw [y.io.mem] }
    cached := ⟨y.cached.dev, y.cached.inum, y.cached.referenced, y.cached.free, y.cached.fresh⟩ }

theorem Opened.table {t : Option Pid} {m : Mem} {s : KState} (y : Opened sh v E t m f i s) :
    s.mem.ftable f = m.ftable f := by rw [y.io.mem]

/-- What entering does. -/
theorem Writers.enter_eq {t : Option Pid} {m : Mem} (y : Opened sh v E t m f i w.k)
    (writable : (m.ftable f).writable = true) (p : Pid) (src : List Byte) :
    w.enter f p src = ({ w with at_ := upd w.at_ p (.begins src.length src) }, [.called p src]) := by
  have isWritable : ¬ (w.k.mem.ftable f).writable = false := by
    rw [y.table, writable]
    decide
  have isInode : (w.k.mem.ftable f).type = .inode := by
    rw [y.table]
    exact y.isInode
  rw [Writers.enter, if_neg isWritable, isInode]

/-- What going on from `begin_trans` does: the call is finished, or no transaction was open and now
there is one. -/
theorem Writers.goBegin_cases {t : Option Pid} {m : Mem} (y : Opened sh v E t m f i w.k)
    (went : w.goBegin p n rest = some (w', more)) :
    (rest = [] ∧ w' = { w with at_ := upd w.at_ p .idle } ∧ more = [.returned p (some n)]) ∨
    (t = none ∧ w'.at_ = upd w.at_ p (.locks n rest) ∧ more = [] ∧
      Opened sh v E (some p) { m with proc := p } f i w'.k) := by
  rw [Writers.goBegin] at went
  split at went
  case isTrue finished =>
    cases went
    exact Or.inl ⟨finished, rfl, rfl⟩
  case isFalse =>
    cases t with
    | none =>
      obtain ⟨s', began, y'⟩ := (y.switch p).beginTrans
      rw [began] at went
      cases went
      exact Or.inr ⟨rfl, rfl, rfl, y'⟩
    | some q =>
      -- the transaction is another's: it sleeps
      have busy : (w.k.switch p).log.busy.isNone = false := by
        rw [(y.switch p).io.owner]
        rfl
      simp [beginTrans, Act.await, busy, Outcome.bind, Outcome.leaf] at went

/-- A step enters, or goes on. -/
theorem Writers.step_cases {op : WriteOp} (stepped : w.step f op = some (w', more)) :
    (∃ p src, op = .call p src ∧ w.at_ p = .idle ∧ w.enter f p src = (w', more)) ∨
    (∃ p n rest, w.at_ p = .begins n rest ∧ w.goBegin p n rest = some (w', more)) ∨
    ∃ p n rest, op = .resume p ∧ w.at_ p = .locks n rest ∧ w.goLock f p n rest = some (w', more) := by
  cases op with
  | call p src =>
    simp only [Writers.step] at stepped
    cases isAt : w.at_ p with
    | idle =>
      rw [isAt] at stepped
      exact Or.inl ⟨p, src, rfl, isAt, Option.some.inj stepped⟩
    | begins n rest =>
      rw [isAt] at stepped
      cases stepped
    | locks n rest =>
      rw [isAt] at stepped
      cases stepped
  | resume p =>
    simp only [Writers.step] at stepped
    cases isAt : w.at_ p with
    | idle =>
      rw [isAt] at stepped
      cases stepped
    | begins n rest =>
      rw [isAt] at stepped
      exact Or.inr (Or.inl ⟨p, n, rest, isAt, stepped⟩)
    | locks n rest =>
      rw [isAt] at stepped
      exact Or.inr (Or.inr ⟨p, n, rest, rfl, isAt, stepped⟩)

theorem written_snoc (seen : List WriteObs) (o : WriteObs) :
    written (seen ++ [o]) = written seen ++ o.piece := by
  rw [written_append]
  exact congrArg _ (List.append_nil _)

namespace Shared

theorem enter (inv : Shared sh v E x f i seen w) (writable : x.writable = true)
    (idle : w.at_ p = .idle) (entered : w.enter f p src = (w', more)) :
    Shared sh v E x f i (seen ++ more) w' := by
  obtain ⟨v', E', m, t, y, turns, file, effect⟩ := inv.state
  rw [Writers.enter_eq y (by rw [file]; exact writable)] at entered
  obtain ⟨rfl, rfl⟩ := Prod.mk.injEq .. ▸ entered
  have same : written (seen ++ [.called p src]) = written seen :=
    (written_snoc seen _).trans (List.append_nil _)
  refine ⟨⟨v', E', m, t, y, ?_, ?_, ?_⟩, inv.ledger.call idle src.length src⟩
  · exact turns.keep (by simp [idle]) (by simp)
  · rw [same]
    exact file
  · rw [same]
    exact effect

theorem goBegin (inv : Shared sh v E x f i seen w) (isAt : w.at_ p = .begins n rest)
    (went : w.goBegin p n rest = some (w', more)) : Shared sh v E x f i (seen ++ more) w' := by
  obtain ⟨v', E', m, t, y, turns, file, effect⟩ := inv.state
  have isRest : (w.at_ p).rest = rest := by
    rw [isAt]
    rfl
  rcases Writers.goBegin_cases y went with ⟨finished, rfl, rfl⟩ | ⟨rfl, moved, rfl, y'⟩
  · have same : written (seen ++ [.returned p (some n)]) = written seen :=
      (written_snoc seen _).trans (List.append_nil _)
    refine ⟨⟨v', E', m, t, y, ?_, ?_, ?_⟩, inv.ledger.return_ (isRest.trans finished) n⟩
    · exact turns.keep (by simp [isAt]) (by simp)
    · rw [same]
      exact file
    · rw [same]
      exact effect
  · have ledger : Ledger seen (upd w.at_ p (.locks n rest)) :=
      inv.ledger.move (by rw [isRest, Writer.rest_locks])
    rw [← moved] at ledger
    rw [List.append_nil]
    exact ⟨⟨v', E', _, _, y', moved ▸ turns.take n rest, file, effect⟩, ledger⟩

theorem goLock (inv : Shared sh v E x f i seen w) (ok : sh.Ok)
    (notDev : (sh.nodes v E i).type ≠ T_DEV) (isAt : w.at_ p = .locks n rest) (within : x.off + asked seen ≤ MAXFILE * BSIZE)
    (roomy : Roomy sh f w (.resume p)) (went : w.goLock f p n rest = some (w', more)) :
    Shared sh v E x f i (seen ++ more) w' := by
  obtain ⟨v', E', m, t, y, turns, file, effect⟩ := inv.state
  obtain rfl : t = some p := (turns p).1 ⟨n, rest, isAt⟩
  have isRest : (w.at_ p).rest = rest := by
    rw [isAt]
    rfl
  have few := rest_le_pending w.at_ p
  have sum := inv.ledger.sum
  rw [isRest] at few
  have length : (rest.take WRITEMAX).length = min WRITEMAX rest.length := List.length_take
  have off : (m.ftable f).off = x.off + (written seen).length := by rw [file]
  have size : (m.ftable f).off ≤ (sh.nodes v' E' i).size := by
    rw [effect.node, off]
    exact le_max_right _ _
  have inLimit : (m.ftable f).off + (rest.take WRITEMAX).length ≤ 71680 := by
    have within : x.off + asked seen ≤ 71680 := within
    omega
  have good : ¬ (sh.nodes v' E' i).BadRange (m.ftable f).off (rest.take WRITEMAX).length := by
    rintro (past | wraps | large)
    · omega
    · omega
    · have large : 71680 < (m.ftable f).off + (rest.take WRITEMAX).length := large
      omega
  have notDev' : (sh.nodes v' E' i).type ≠ T_DEV := by
    rw [effect.node]
    exact notDev
  have supplies : (E' i).lacks + spans (m.ftable f).off (rest.take WRITEMAX).length + 0 ≤
      (sh.spare v').card := by
    have enough : 1 + spans (w.k.mem.ftable f).off (rest.take WRITEMAX).length ≤
        (sh.spare w.k.bio.view).card := by
      rwa [Roomy, Writers.needs, isAt] at roomy
    have atMost := (E' i).lacks_le
    have same : sh.spare w.k.bio.view = sh.spare v' := by
      rw [Shape.spare, Shape.spare, BlockClient.view_bitmap y.io ok]
    rw [y.table, same] at enough
    omega
  have sat := fileWriteBody_spec (C := Contract.total) (y.switch p) ok notDev' (fun _ _ => trivial)
    (by omega) good (Or.inl supplies)
  obtain ⟨r, s', leaf, rfl, v2, E2, m2, y2, moved, effect2, -⟩ := sat.returns
  rw [Writers.goLock, leaf] at went
  simp only [ne_eq, not_true_eq_false, if_false] at went
  cases went
  have more : written (seen ++ [.committed p (rest.take WRITEMAX)]) =
      written seen ++ rest.take WRITEMAX := written_snoc seen _
  refine ⟨⟨v2, E2, m2, none, y2, turns.give (by simp), ?_, ?_⟩,
    inv.ledger.commit isRest n WRITEMAX⟩
  · rw [moved.file, more, List.length_append, ← Nat.add_assoc]
    show ({ m.ftable f with off := (m.ftable f).off + _ } : File) = _
    rw [file]
  · have effect2 : Written sh i (m.ftable f).off (rest.take WRITEMAX) v' E' v2 E2 := effect2
    rw [off] at effect2
    rw [more]
    exact effect.trans effect2

/-- One step. -/
theorem step (inv : Shared sh v E x f i seen w) (ok : sh.Ok)
    (notDev : (sh.nodes v E i).type ≠ T_DEV) (writable : x.writable = true) {op : WriteOp} (within : x.off + asked seen ≤ MAXFILE * BSIZE)
    (roomy : Roomy sh f w op) (stepped : w.step f op = some (w', more)) :
    Shared sh v E x f i (seen ++ more) w' := by
  rcases Writers.step_cases stepped with ⟨p, src, -, idle, entered⟩ | ⟨p, n, rest, isAt, went⟩ |
    ⟨p, n, rest, rfl, isAt, went⟩
  · exact inv.enter writable idle entered
  · exact inv.goBegin isAt went
  · exact inv.goLock ok notDev isAt within roomy went

/-- No process has come yet. -/
theorem start {m : Mem} {s : KState} (y : Opened sh v E none m f i s)
    (reach : (m.ftable f).off ≤ (sh.nodes v E i).size) :
    Shared sh v E (m.ftable f) f i [] ⟨s, fun _ => .idle⟩ :=
  ⟨⟨v, E, m, none, y, Turns.start, rfl, Written.refl reach⟩, Ledger.start⟩

end Shared

/-- When the offset is past the end of the file nothing is ever written. -/
structure Stuck (sh : Shape) (v : Disk) (E : Inodes) (x : File) (f : FileId) (i : Nat)
    (seen : List WriteObs) (w : Writers) : Prop where
  state : ∃ m t, Opened sh v E t m f i w.k ∧ Turns w.at_ t ∧ m.ftable f = x
  nothing : written seen = []

theorem Stuck.step (inv : Stuck sh v E x f i seen w) (ok : sh.Ok)
    (notDev : (sh.nodes v E i).type ≠ T_DEV) (past : (sh.nodes v E i).size < x.off)
    (small : x.off < 4294967296) (writable : x.writable = true) {op : WriteOp}
    (stepped : w.step f op = some (w', more)) : Stuck sh v E x f i (seen ++ more) w' := by
  obtain ⟨m, t, y, turns, file⟩ := inv.state
  rcases Writers.step_cases stepped with ⟨p, src, -, idle, entered⟩ | ⟨p, n, rest, isAt, went⟩ |
    ⟨p, n, rest, -, isAt, went⟩
  · rw [Writers.enter_eq y (by rw [file]; exact writable)] at entered
    obtain ⟨rfl, rfl⟩ := Prod.mk.injEq .. ▸ entered
    refine ⟨⟨m, t, y, turns.keep (by simp [idle]) (by simp), file⟩, ?_⟩
    rw [written_snoc, inv.nothing]
    rfl
  · rcases Writers.goBegin_cases y went with ⟨finished, rfl, rfl⟩ | ⟨rfl, moved, rfl, y'⟩
    · refine ⟨⟨m, t, y, turns.keep (by simp [isAt]) (by simp), file⟩, ?_⟩
      rw [written_snoc, inv.nothing]
      rfl
    · rw [List.append_nil]
      exact ⟨⟨_, _, y', moved ▸ turns.take n rest, file⟩, inv.nothing⟩
  · obtain rfl : t = some p := (turns p).1 ⟨n, rest, isAt⟩
    have bad : (sh.nodes v E i).BadRange (m.ftable f).off (rest.take WRITEMAX).length :=
      Or.inl (file ▸ past)
    have sat := fileWriteBody_refused (C := Contract.total) (y.switch p) ok notDev
      (fun _ _ => trivial) (file ▸ small) bad
    obtain ⟨r, s', leaf, rfl, m', y', moved⟩ := sat.returns
    rw [Writers.goLock, leaf] at went
    cases went
    refine ⟨⟨m', none, y', turns.give (by simp), moved.file.trans file⟩, ?_⟩
    rw [written_snoc, inv.nothing]
    rfl

end Step

theorem asked_le_append (a b : List WriteObs) : asked a ≤ asked (a ++ b) := by
  rw [asked_append]
  exact Nat.le_add_right _ _

/-- **Writers that share a file offset lose nothing**, as long as there are blocks for what they
write.  However the processes are interleaved, the file holds the committed pieces one after the
other from the initial offset on, the offset stands behind them, every process has its own bytes
committed in its own order, and no call fails.  (From an offset past the end of the file nothing is
written.) -/
theorem shared_offset_writes {sh : Shape} {v : Disk} {E : Inodes} {m : Mem} {f : FileId}
    {i : Nat} {s : KState} (ok : sh.Ok) (y : Opened sh v E none m f i s)
    (writable : (m.ftable f).writable = true) (notDev : (sh.nodes v E i).type ≠ T_DEV)
    (small : (m.ftable f).off < 4294967296) {ops : List WriteOp} {w : Writers} {seen : List WriteObs}
    (roomy : Machine.Meets (Writers.step f) (Roomy sh f) ⟨s, fun _ => .idle⟩ ops)
    (ran : Machine.run (Writers.step f) ⟨s, fun _ => .idle⟩ ops = some (w, seen))
    (within : (m.ftable f).off + asked seen ≤ MAXFILE * BSIZE) :
    ((m.ftable f).off ≤ (sh.nodes v E i).size →
      (∃ v' E' m' t, Opened sh v' E' t m' f i w.k ∧
        Written sh i (m.ftable f).off (written seen) v E v' E' ∧
        (m'.ftable f).off = (m.ftable f).off + (written seen).length) ∧
      (∀ p, writtenBy p seen ++ (w.at_ p).rest = askedBy p seen) ∧
      (∀ o ∈ seen, o.failed = false) ∧
      ((∀ p, w.at_ p = .idle) →
        (w.k.mem.ftable f).off = (m.ftable f).off + asked seen ∧
        ∀ p, writtenBy p seen = askedBy p seen)) ∧
    ((sh.nodes v E i).size < (m.ftable f).off →
      written seen = [] ∧ ∃ m' t, Opened sh v E t m' f i w.k ∧ m'.ftable f = m.ftable f) := by
  constructor
  · intro reach
    have inv : Shared sh v E (m.ftable f) f i seen w := by
      refine Machine.run_keeps_where
        (I := fun seen w => (m.ftable f).off + asked seen ≤ MAXFILE * BSIZE →
          Shared sh v E (m.ftable f) f i seen w)
        (fun seen w op w' more inv roomy stepped within => ?_) ops [] ⟨s, fun _ => .idle⟩ w seen
        (fun _ => Shared.start y reach) roomy ran within
      have before := asked_le_append seen more
      exact (inv (by omega)).step ok notDev writable (by omega) roomy stepped
    obtain ⟨v', E', m', t, y', turns, file, effect⟩ := inv.state
    have off : (m'.ftable f).off = (m.ftable f).off + (written seen).length := by rw [file]
    refine ⟨⟨v', E', m', t, y', effect, off⟩, inv.ledger.mine, inv.ledger.fine, fun idle => ⟨?_, ?_⟩⟩
    · have sum := inv.ledger.sum
      rw [pending_idle idle] at sum
      rw [y'.table, off]
      omega
    · intro p
      have mine := inv.ledger.mine p
      rwa [idle p, Writer.rest_idle, List.append_nil] at mine
  · intro past
    have inv : Stuck sh v E (m.ftable f) f i seen w :=
      Machine.run_keeps (I := fun seen w => Stuck sh v E (m.ftable f) f i seen w)
        (fun seen w op w' more inv stepped => inv.step ok notDev past small writable stepped)
        ops [] ⟨s, fun _ => .idle⟩ w seen ⟨⟨m, none, y, Turns.start, rfl⟩, rfl⟩ ran
    obtain ⟨m', t, y', -, file⟩ := inv.state
    exact ⟨inv.nothing, m', t, y', file⟩

/-- Two processes: the second comes while the first has its transaction open. -/
def twoWriters : List WriteOp :=
  [.call 1 [5], .resume 1, .call 2 [6, 7], .resume 1, .resume 2, .resume 1, .resume 2, .resume 2]

def twoWritersSeen : List WriteObs :=
  [.called 1 [5], .called 2 [6, 7], .committed 1 [5], .returned 1 (some 1), .committed 2 [6, 7],
    .returned 2 (some 2)]

theorem shared_offset_writes_two :
    ∃ w, Machine.run (Writers.step 0) ⟨setUp oneFileDisk (oneFileMem false false), fun _ => .idle⟩
        twoWriters = some (w, twoWritersSeen) ∧
      ∃ v' E' m' t, Opened mkfsShape v' E' t m' 0 2 w.k ∧
        Written mkfsShape 2 0 [5, 6, 7] oneFileDisk oneFileInodes v' E' ∧ (m'.ftable 0).off = 3 := by
  have ran : (Machine.run (Writers.step 0)
      ⟨setUp oneFileDisk (oneFileMem false false), fun _ => .idle⟩ twoWriters).map Prod.snd =
      some twoWritersSeen := by
    rw [oneFileDisk, usedDisk, mkfsBalloc_eq (by decide)]
    decide +kernel
  have roomy : Machine.Meets (Writers.step 0) (Roomy mkfsShape 0)
      ⟨setUp oneFileDisk (oneFileMem false false), fun _ => .idle⟩ twoWriters := by
    rw [oneFileDisk, usedDisk, mkfsBalloc_eq (by decide)]
    decide +kernel
  obtain ⟨⟨w, seen⟩, ran, rfl⟩ := Option.map_eq_some_iff.1 ran
  have shared := shared_offset_writes mkfsShape_ok opened_oneFile rfl notDev_oneFile (by decide) roomy ran
    (by decide)
  exact ⟨w, ran, (shared.1 (Nat.zero_le _)).1⟩

/-- An image whose data area is full; inode 2 is an empty file. -/
def fullDisk : Disk := upd (usedDisk 1014) 2 (putDinode Bytes.zero 2 emptyFile)

/-- On a full disk `balloc` gives the file the header block of the log.  The write is committed and
the call returns its length; then the commit clears the header, and the byte is lost. -/
theorem shared_offset_write_lost :
    (Machine.run (Writers.step 0) ⟨setUp fullDisk (oneFileMem false false), fun _ => .idle⟩
      [.call 1 [5], .resume 1, .resume 1, .resume 1]).map
        (fun r => (r.2, (readi 0 0 1 r.1.k).value?)) =
      some ([.called 1 [5], .committed 1 [5], .returned 1 (some 1)], some (some [0])) := by
  rw [fullDisk, usedDisk, mkfsBalloc_eq (by decide)]
  decide +kernel

end Xv6Rpi.Kernel
