/-
# Proc.PipeRun -- pipes are FIFO channels that lose no wakeup

One lemma says what a slice of `pipewrite` can do (`writeLoop_spec`) and one what a slice
of `piperead` can do (`piperead_spec`), on the queue the buffer stands for.  From these
follow, over all runs:

* `Inv`: what has been read and what the buffer holds is what has been stored, and every
  writer stores its own bytes in order;
* `Wakes`: nobody sleeps on a condition that no longer holds.
-/
import Xv6Rpi.Proc.Pipe

namespace Xv6Rpi.Proc

open Theory Kernel

set_option autoImplicit false

/-! ## The queue in the buffer -/

/-- The buffer and the counters stand for `q`. -/
def Pipe.Holds (pp : Pipe) (q : List Byte) : Prop :=
  Queued PIPESIZE U32 pp.data pp.nread pp.nwrite q

theorem pipesize_lt : PIPESIZE < U32 := by decide

theorem pipesize_dvd : PIPESIZE ∣ U32 := ⟨8388608, by decide⟩

namespace Pipe

variable {pp : Pipe} {q : List Byte}

theorem Holds.isEmpty_iff (holds : pp.Holds q) : pp.isEmpty = true ↔ q = [] := by
  rw [isEmpty, beq_iff_eq]
  exact holds.empty_iff pipesize_lt

theorem Holds.isFull_iff (holds : pp.Holds q) : pp.isFull = true ↔ q.length = PIPESIZE := by
  rw [isFull, beq_iff_eq]
  exact holds.full_iff pipesize_lt

theorem Holds.store (holds : pp.Holds q) (notFull : pp.isFull = false) (b : Byte) :
    (pp.store b).Holds (q ++ [b]) := by
  have few := holds.few
  have ne : q.length ≠ PIPESIZE := by
    intro full
    rw [holds.isFull_iff.2 full] at notFull
    cases notFull
  have put := holds.put pipesize_dvd (by omega) b
  rw [← upd_eq_update] at put
  exact put

theorem Holds.fetch {b : Byte} (holds : pp.Holds (b :: q)) : pp.fetch.1 = b ∧ pp.fetch.2.Holds q :=
  Queued.take holds pipesize_dvd

theorem Holds.unread (holds : pp.Holds q) : pp.unread = q := by
  unfold Pipe.unread
  rw [holds.length_eq pipesize_lt]
  refine List.ext_getElem (by simp) fun i _ inside => ?_
  rw [List.getElem_map, List.getElem_range]
  exact holds.cells i inside

end Pipe

/-! ## What a slice does -/

section Slices

variable {p : Pid} {addr : Nat → Byte} {n : Int} {pp : Pipe} {t : Ptable} {q : List Byte}

/-- A slice of `pipewrite` stores some of its bytes and then returns, sleeps because the
buffer is full, or gives up because nobody can read. -/
theorem writeLoop_spec (p : Pid) (addr : Nat → Byte) (n : Int) (t : Ptable) (rest : List Byte)
    (i : Nat) : ∀ (pp : Pipe) (q : List Byte), pp.Holds q →
    ∃ k pp', k ≤ rest.length ∧ pp'.Holds (q ++ rest.take k) ∧ pp'.readopen = pp.readopen ∧
      pp'.writeopen = pp.writeopen ∧
      ((k = rest.length ∧ writeLoop p addr n rest i pp t =
          ⟨pp', t.wakeup1 .nread, (rest.take k).map (.stored p) ++ [.wrote p addr n (i + k) n], none⟩) ∨
        (k < rest.length ∧ pp'.isFull = true ∧ pp.readopen = true ∧ writeLoop p addr n rest i pp t =
          ⟨pp', (t.wakeup1 .nread).sleep p .nwrite, (rest.take k).map (.stored p),
            some (.write addr n (i + k))⟩) ∨
        (k < rest.length ∧ pp.readopen = false ∧ writeLoop p addr n rest i pp t =
          ⟨pp', t, (rest.take k).map (.stored p) ++ [.wrote p addr n (i + k) (-1)], none⟩)) := by
  induction rest generalizing i with
  | nil =>
    intro pp q holds
    refine ⟨0, pp, Nat.le_refl _, ?_, rfl, rfl, Or.inl ⟨rfl, rfl⟩⟩
    rw [List.take_nil, List.append_nil]
    exact holds
  | cons b rest ih =>
    intro pp q holds
    cases full : pp.isFull with
    | true =>
      have stays : pp.Holds (q ++ (b :: rest).take 0) := by
        rw [List.take_zero, List.append_nil]
        exact holds
      refine ⟨0, pp, Nat.zero_le _, stays, rfl, rfl, Or.inr ?_⟩
      cases canRead : pp.readopen with
      | true =>
        refine Or.inl ⟨Nat.succ_pos _, full, rfl, ?_⟩
        simp [writeLoop, full, canRead]
      | false =>
        refine Or.inr ⟨Nat.succ_pos _, rfl, ?_⟩
        simp [writeLoop, full, canRead]
    | false =>
      -- the byte is stored, and the rest is the slice for the bytes after it
      obtain ⟨k, pp', few, holds', readSame, writeSame, outcome⟩ :=
        ih (i + 1) (pp.store b) (q ++ [b]) (holds.store full b)
      have count : i + 1 + k = i + (k + 1) := by omega
      refine ⟨k + 1, pp', Nat.succ_le_succ few, ?_, readSame, writeSame, ?_⟩
      · rw [List.take_succ_cons, List.append_cons]
        exact holds'
      · rw [count] at outcome
        rcases outcome with ⟨all, eq⟩ | ⟨less, isFull, canRead, eq⟩ | ⟨less, cannot, eq⟩
        · refine Or.inl ⟨congrArg Nat.succ all, ?_⟩
          rw [writeLoop, if_neg (by simp [full]), eq]
          rfl
        · refine Or.inr (Or.inl ⟨Nat.succ_lt_succ less, isFull, canRead, ?_⟩)
          rw [writeLoop, if_neg (by simp [full]), eq]
          rfl
        · refine Or.inr (Or.inr ⟨Nat.succ_lt_succ less, cannot, ?_⟩)
          rw [writeLoop, if_neg (by simp [full]), eq]
          rfl

/-- The copy loop takes up to `k` bytes from the front. -/
theorem readLoop_spec (k : Nat) : ∀ (pp : Pipe) (q : List Byte), pp.Holds q →
    (readLoop k pp).1 = q.take k ∧ (readLoop k pp).2.Holds (q.drop k) ∧
      (readLoop k pp).2.readopen = pp.readopen ∧ (readLoop k pp).2.writeopen = pp.writeopen := by
  induction k with
  | zero =>
    intro pp q holds
    exact ⟨rfl, holds, rfl, rfl⟩
  | succ k ih =>
    intro pp q holds
    cases q with
    | nil =>
      have empty := holds.isEmpty_iff.2 rfl
      rw [readLoop, if_pos empty]
      exact ⟨rfl, holds, rfl, rfl⟩
    | cons b q =>
      have notEmpty : ¬ pp.isEmpty = true := by
        rw [holds.isEmpty_iff]
        exact List.cons_ne_nil b q
      obtain ⟨front, holds'⟩ := holds.fetch
      obtain ⟨taken, left, readSame, writeSame⟩ := ih pp.fetch.2 q holds'
      rw [readLoop, if_neg notEmpty]
      refine ⟨?_, left, readSame, writeSame⟩
      show pp.fetch.1 :: (readLoop k pp.fetch.2).1 = (b :: q).take (k + 1)
      rw [front, taken, List.take_succ_cons]

/-- A slice of `piperead` returns because the process is killed, sleeps on an empty pipe
that can still be written, or takes what there is. -/
theorem piperead_spec (holds : pp.Holds q) :
    (q = [] ∧ pp.writeopen = true ∧ (t p).killed = true ∧
        piperead p n pp t = ⟨pp, t, [.read p n [] (-1)], none⟩) ∨
      (q = [] ∧ pp.writeopen = true ∧ piperead p n pp t = ⟨pp, t.sleep p .nread, [], some (.read n)⟩) ∨
      ((q = [] → pp.writeopen = false) ∧ ∃ pp', pp'.Holds (q.drop n.toNat) ∧
        pp'.readopen = pp.readopen ∧ pp'.writeopen = pp.writeopen ∧
        piperead p n pp t = ⟨pp', t.wakeup1 .nwrite,
          [.read p n (q.take n.toNat) (q.take n.toNat).length], none⟩) := by
  unfold piperead
  by_cases blocked : (pp.isEmpty && pp.writeopen) = true
  · rw [if_pos blocked]
    obtain ⟨empty, canWrite⟩ := (Bool.and_eq_true _ _).mp blocked
    have none_ := holds.isEmpty_iff.1 empty
    cases dead : (t p).killed with
    | true => exact Or.inl ⟨none_, canWrite, rfl, rfl⟩
    | false => exact Or.inr (Or.inl ⟨none_, canWrite, rfl⟩)
  · rw [if_neg blocked]
    obtain ⟨taken, left, readSame, writeSame⟩ := readLoop_spec n.toNat pp q holds
    refine Or.inr (Or.inr ⟨fun none_ => ?_, (readLoop n.toNat pp).2, left, readSame, writeSame, ?_⟩)
    · have empty := holds.isEmpty_iff.2 none_
      simpa [empty] using blocked
    · simp only [taken]

end Slices

/-! ## What is seen of a run -/

/-- The bytes an observation stores, if process `p` makes it. -/
def PipeObs.storedBy (p : Pid) : PipeObs → List Byte
  | .stored q b => if q = p then [b] else []
  | _ => []

def PipeObs.stored? : PipeObs → List Byte
  | .stored _ b => [b]
  | _ => []

def PipeObs.got : PipeObs → List Byte
  | .read _ _ bytes _ => bytes
  | _ => []

/-- The bytes of its call a write had stored when it returned. -/
def PipeObs.wroteBy (p : Pid) : PipeObs → List Byte
  | .wrote q addr n i _ => if q = p then (bytesAt addr n).take i else []
  | _ => []

/-- The bytes stored by writes, in storing order. -/
def storedBytes (seen : List PipeObs) : List Byte := seen.flatMap PipeObs.stored?

/-- The bytes returned by reads. -/
def gotBytes (seen : List PipeObs) : List Byte := seen.flatMap PipeObs.got

/-- The bytes process `p` stored. -/
def storedBy (p : Pid) (seen : List PipeObs) : List Byte := seen.flatMap (PipeObs.storedBy p)

/-- For each write of `p` that returned, in order, the part of its bytes it had stored. -/
def wroteBy (p : Pid) (seen : List PipeObs) : List Byte := seen.flatMap (PipeObs.wroteBy p)

/-- The bytes a call under way has stored. -/
def pending : Option PipeCall → List Byte
  | some (.write addr n i) => (bytesAt addr n).take i
  | _ => []

theorem flatMap_stored {f : PipeObs → List Byte} {p : Pid} (f_stored : ∀ b, f (.stored p b) = [b])
    (l : List Byte) : (l.map (PipeObs.stored p)).flatMap f = l := by
  induction l with
  | nil => rfl
  | cons b l ih => rw [List.map_cons, List.flatMap_cons, f_stored, ih, List.singleton_append]

theorem flatMap_stored_nil {f : PipeObs → List Byte} {p : Pid} (f_stored : ∀ b, f (.stored p b) = [])
    (l : List Byte) : (l.map (PipeObs.stored p)).flatMap f = [] := by
  induction l with
  | nil => rfl
  | cons b l ih => rw [List.map_cons, List.flatMap_cons, f_stored, ih, List.nil_append]

/-! ## Every byte once and in order -/

namespace PipeSys

structure Inv (seen : List PipeObs) (s : PipeSys) : Prop where
  queue : ∃ q, s.pipe.Holds q ∧ storedBytes seen = gotBytes seen ++ q
  order : ∀ p, storedBy p seen = wroteBy p seen ++ pending (s.calls p)
  whole : ∀ p addr n i r, .wrote p addr n i r ∈ seen → r = n → i = n.toNat
  inside : ∀ p addr n i, s.calls p = some (.write addr n i) → i ≤ n.toNat

variable {seen : List PipeObs} {s : PipeSys} {p : Pid} {addr : Nat → Byte} {n : Int} {i : Nat}

theorem length_bytesAt (addr : Nat → Byte) (n : Int) : (bytesAt addr n).length = n.toNat := by
  simp [bytesAt]

/-- What a slice of `pipewrite` adds to what is seen: bytes of the call, in order, and
perhaps its result. -/
theorem Inv.stores (inv : Inv seen s) {t : Ptable} {pp' : Pipe} {k : Nat} {call : Option PipeCall}
    {result : List PipeObs} {q : List Byte} (started : pending (s.calls p) = (bytesAt addr n).take i)
    (isQueue : storedBytes seen = gotBytes seen ++ q)
    (holds' : pp'.Holds (q ++ ((bytesAt addr n).drop i).take k))
    (silent : result.flatMap PipeObs.stored? = [] ∧ result.flatMap PipeObs.got = [] ∧
      ∀ o, result.flatMap (PipeObs.storedBy o) = [])
    (accounts : ∀ o, result.flatMap (PipeObs.wroteBy o) ++ (if o = p then pending call else []) =
      if o = p then (bytesAt addr n).take (i + k) else [])
    (whole : ∀ o a m j r, .wrote o a m j r ∈ result → r = m → j = m.toNat)
    (inside : ∀ a m j, call = some (.write a m j) → j ≤ m.toNat) :
    Inv (seen ++ ((((bytesAt addr n).drop i).take k).map (.stored p) ++ result))
      { s with pipe := pp', table := t, calls := upd s.calls p call } := by
  refine ⟨⟨_, holds', ?_⟩, fun o => ?_, fun o a m j r member => ?_, fun o a m j isCall => ?_⟩
  · simp only [storedBytes, gotBytes, List.flatMap_append, silent.1, silent.2.1]
    rw [flatMap_stored (fun _ => rfl), flatMap_stored_nil (fun _ => rfl)]
    simp only [List.append_nil]
    rw [← List.append_assoc]
    exact congrArg (· ++ _) isQueue
  · have old := inv.order o
    have new := accounts o
    simp only [storedBy, wroteBy, List.flatMap_append, silent.2.2] at old ⊢
    rw [flatMap_stored_nil (f := PipeObs.wroteBy o) (fun _ => rfl), List.append_nil, List.nil_append]
    by_cases same : o = p
    · subst same
      rw [if_pos rfl, if_pos rfl] at new
      rw [flatMap_stored (fun _ => if_pos rfl), upd_same, List.append_assoc, new, old, started,
        List.append_assoc, ← List.take_add]
    · rw [if_neg same, if_neg same, List.append_nil] at new
      rw [flatMap_stored_nil (fun _ => if_neg (Ne.symm same)), upd_ne _ _ same, new, old,
        List.append_nil, List.append_nil]
  · rcases List.mem_append.1 member with before | later
    · exact inv.whole o a m j r before
    · rcases List.mem_append.1 later with isStored | isResult
      · obtain ⟨b, -, impossible⟩ := List.mem_map.1 isStored
        cases impossible
      · exact whole o a m j r isResult
  · have isCall : upd s.calls p call o = some (.write a m j) := isCall
    by_cases same : o = p
    · subst same
      rw [upd_same] at isCall
      exact inside a m j isCall
    · rw [upd_ne _ _ same] at isCall
      exact inv.inside o a m j isCall

theorem Inv.write (inv : Inv seen s) (started : pending (s.calls p) = (bytesAt addr n).take i)
    (below : i ≤ n.toNat) (t : Ptable) :
    Inv (seen ++ (pipewrite p addr n i s.pipe t).obs)
      { s with
        pipe := (pipewrite p addr n i s.pipe t).pipe
        table := (pipewrite p addr n i s.pipe t).table
        calls := upd s.calls p (pipewrite p addr n i s.pipe t).call } := by
  obtain ⟨q, holds, isQueue⟩ := inv.queue
  have length : ((bytesAt addr n).drop i).length = n.toNat - i := by
    rw [List.length_drop, length_bytesAt]
  obtain ⟨k, pp', few, holds', -, -, outcome⟩ :=
    writeLoop_spec p addr n t ((bytesAt addr n).drop i) i s.pipe q holds
  have returns : ∀ r t', (r = n → i + k = n.toNat) →
      Inv (seen ++ ((((bytesAt addr n).drop i).take k).map (.stored p) ++ [.wrote p addr n (i + k) r]))
        { s with pipe := pp', table := t', calls := upd s.calls p none } := by
    intro r t' whole
    refine inv.stores started isQueue holds' ⟨rfl, rfl, fun _ => rfl⟩ (fun o => ?_) ?_ ?_
    · by_cases same : o = p
      · subst same
        simp [PipeObs.wroteBy, pending]
      · simp [PipeObs.wroteBy, same, Ne.symm same]
    · intro o a m j r member same
      obtain ⟨rfl, rfl, rfl, rfl, rfl⟩ := PipeObs.wrote.inj (List.mem_singleton.1 member)
      exact whole same
    · intro a m j impossible
      cases impossible
  unfold pipewrite
  rcases outcome with ⟨all, eq⟩ | ⟨less, -, -, eq⟩ | ⟨less, -, eq⟩
  · rw [eq]
    exact returns n _ fun _ => by omega
  · rw [eq, ← List.append_nil (List.map _ _)]
    refine inv.stores started isQueue holds' ⟨rfl, rfl, fun _ => rfl⟩ (fun o => rfl) ?_ ?_
    · intro o a m j r member
      cases member
    · intro a m j isCall
      obtain ⟨rfl, rfl, rfl⟩ := PipeCall.write.inj (Option.some.inj isCall)
      omega
  · rw [eq]
    exact returns (-1) _ fun _ => by omega

theorem Inv.read (inv : Inv seen s) (started : pending (s.calls p) = []) (t : Ptable) :
    Inv (seen ++ (piperead p n s.pipe t).obs)
      { s with
        pipe := (piperead p n s.pipe t).pipe
        table := (piperead p n s.pipe t).table
        calls := upd s.calls p (piperead p n s.pipe t).call } := by
  obtain ⟨q, holds, isQueue⟩ := inv.queue
  -- a read stores nothing, and its process has stored nothing that is not accounted for
  have rest : ∀ (pp' : Pipe) (t' : Ptable) (q' : List Byte) (call : Option PipeCall)
      (result : List PipeObs), pp'.Holds q' → q = result.flatMap PipeObs.got ++ q' →
      (call = none ∨ call = some (.read n)) → (∀ o ∈ result, ∃ bytes r, o = .read p n bytes r) →
      Inv (seen ++ result) { s with pipe := pp', table := t', calls := upd s.calls p call } := by
    intro pp' t' q' call result holds' split isCall reads
    have silent : ∀ f : PipeObs → List Byte, (∀ bytes r, f (.read p n bytes r) = []) →
        result.flatMap f = [] := by
      intro f none_
      rw [List.flatMap_eq_nil_iff]
      intro o member
      obtain ⟨bytes, r, rfl⟩ := reads o member
      exact none_ bytes r
    have nothing : pending call = [] := by
      rcases isCall with rfl | rfl <;> rfl
    refine ⟨⟨q', holds', ?_⟩, fun o => ?_, fun o a m j r member => ?_, fun o a m j callO => ?_⟩
    · simp only [storedBytes, gotBytes, List.flatMap_append] at isQueue ⊢
      rw [silent PipeObs.stored? (fun _ _ => rfl), List.append_nil, List.append_assoc, ← split]
      exact isQueue
    · have old := inv.order o
      simp only [storedBy, wroteBy, List.flatMap_append] at old ⊢
      rw [silent (PipeObs.storedBy o) (fun _ _ => rfl), silent (PipeObs.wroteBy o) (fun _ _ => rfl),
        List.append_nil, List.append_nil, old]
      by_cases same : o = p
      · subst same
        rw [upd_same, started, nothing]
      · rw [upd_ne _ _ same]
    · rcases List.mem_append.1 member with before | later
      · exact inv.whole o a m j r before
      · obtain ⟨bytes, r', impossible⟩ := reads _ later
        cases impossible
    · have callO : upd s.calls p call o = some (.write a m j) := callO
      by_cases same : o = p
      · subst same
        rw [upd_same] at callO
        rcases isCall with rfl | rfl <;> cases callO
      · rw [upd_ne _ _ same] at callO
        exact inv.inside o a m j callO
  rcases piperead_spec (p := p) (n := n) (t := t) holds with
    ⟨none_, -, -, eq⟩ | ⟨none_, -, eq⟩ | ⟨-, pp', holds', -, -, eq⟩
  · rw [eq]
    refine rest _ _ q none _ holds rfl (Or.inl rfl) fun o member => ?_
    exact ⟨[], -1, List.mem_singleton.1 member⟩
  · rw [eq]
    refine rest _ _ q _ [] holds rfl (Or.inr rfl) fun o member => ?_
    cases member
  · rw [eq]
    refine rest _ _ _ none _ holds' ?_ (Or.inl rfl) fun o member => ?_
    · simp [PipeObs.got]
    · exact ⟨_, _, List.mem_singleton.1 member⟩

/-- The process table is nothing to the bytes. -/
theorem Inv.retable (inv : Inv seen s) (t : Ptable) : Inv seen { s with table := t } :=
  ⟨inv.queue, inv.order, inv.whole, inv.inside⟩

/-- A slice of any process keeps the bytes in order. -/
theorem Inv.step (inv : Inv seen s) {op : PipeOp} {s' : PipeSys} {more : List PipeObs}
    (stepped : s.step op = some (s', more)) : Inv (seen ++ more) s' := by
  unfold PipeSys.step at stepped
  split at stepped
  case isTrue => cases stepped
  case isFalse =>
    cases op with
    | write p addr n =>
      simp only at stepped
      split at stepped
      case isFalse => cases stepped
      case isTrue ready =>
        cases stepped
        have idle := Option.isNone_iff_eq_none.1 ready.2
        refine inv.write ?_ (Nat.zero_le _) s.table
        rw [idle]
        rfl
    | read p n =>
      simp only at stepped
      split at stepped
      case isFalse => cases stepped
      case isTrue ready =>
        cases stepped
        have idle := Option.isNone_iff_eq_none.1 ready.2
        refine inv.read ?_ s.table
        rw [idle]
        rfl
    | resume p =>
      simp only at stepped
      split at stepped
      case isFalse => cases stepped
      case isTrue ready =>
        cases isCall : s.calls p with
        | none =>
          rw [isCall] at stepped
          cases stepped
          rw [List.append_nil]
          exact inv.retable _
        | some call =>
          rw [isCall] at stepped
          cases call with
          | write addr n i =>
            cases stepped
            refine (inv.retable (s.table.awaken p)).write ?_ (inv.inside p addr n i isCall) _
            show pending (s.calls p) = _
            rw [isCall]
            rfl
          | read n =>
            cases stepped
            refine (inv.retable (s.table.awaken p)).read ?_ _
            show pending (s.calls p) = _
            rw [isCall]
            rfl
    | close writable =>
      cases stepped
      rw [List.append_nil]
      obtain ⟨q, holds, isQueue⟩ := inv.queue
      refine ⟨⟨q, ?_, isQueue⟩, inv.order, inv.whole, inv.inside⟩
      cases writable <;> exact holds
    | kill pid =>
      cases stepped
      rw [List.append_nil]
      exact inv.retable _

theorem Fresh.inv (fresh : s.Fresh) : Inv [] s := by
  refine ⟨⟨[], ?_, rfl⟩, fun p => ?_, fun p addr n i r member => ?_, fun p addr n i isCall => ?_⟩
  · unfold Pipe.Holds
    rw [fresh.nread, fresh.nwrite]
    exact Queued.nil (by decide)
  · rw [fresh.calls p]
    rfl
  · cases member
  · rw [fresh.calls p] at isCall
    cases isCall

/-- A read of some bytes returns 0 only at the end of the stream. -/
theorem read_zero {q : List Byte} (holds : s.pipe.Holds q) (t : Ptable) {bytes : List Byte} {m : Int}
    {o : Pid} (positive : 0 < m)
    (zero : .read o m bytes 0 ∈ (piperead p n s.pipe t).obs) :
    (piperead p n s.pipe t).pipe.isEmpty = true ∧ (piperead p n s.pipe t).pipe.writeopen = false := by
  rcases piperead_spec (p := p) (n := n) (t := t) holds with
    ⟨-, -, -, eq⟩ | ⟨-, -, eq⟩ | ⟨closed, pp', holds', -, writeSame, eq⟩
  · rw [eq] at zero
    cases List.mem_singleton.1 zero
  · rw [eq] at zero
    cases zero
  · rw [eq] at zero ⊢
    obtain ⟨-, rfl, -, isZero⟩ := PipeObs.read.inj (List.mem_singleton.1 zero)
    have none_ : q = [] := by
      cases q with
      | nil => rfl
      | cons b q =>
        exfalso
        obtain ⟨k, isSucc⟩ : ∃ k, m.toNat = k + 1 := ⟨m.toNat - 1, by omega⟩
        rw [isSucc] at isZero
        simp at isZero
        omega
    refine ⟨?_, writeSame.trans (closed none_)⟩
    rw [holds'.isEmpty_iff, none_, List.drop_nil]

/-- A slice of `pipewrite` shows no read. -/
theorem not_read_of_write {q : List Byte} (holds : s.pipe.Holds q) (t : Ptable) {o : Pid} {m r : Int}
    {bytes : List Byte} : .read o m bytes r ∉ (pipewrite p addr n i s.pipe t).obs := by
  obtain ⟨k, pp', -, -, -, -, outcome⟩ :=
    writeLoop_spec p addr n t ((bytesAt addr n).drop i) i s.pipe q holds
  unfold pipewrite
  rcases outcome with ⟨-, eq⟩ | ⟨-, -, -, eq⟩ | ⟨-, -, eq⟩ <;> rw [eq] <;>
    simp [-List.map_take, -List.map_drop]

theorem step_read_zero {q : List Byte} (holds : s.pipe.Holds q) {op : PipeOp} {s' : PipeSys}
    {more : List PipeObs} (stepped : s.step op = some (s', more)) {m : Int} {bytes : List Byte}
    (positive : 0 < m) (zero : .read p m bytes 0 ∈ more) :
    s'.pipe.isEmpty = true ∧ s'.pipe.writeopen = false := by
  unfold PipeSys.step at stepped
  split at stepped
  case isTrue => cases stepped
  case isFalse =>
    cases op with
    | write o addr n =>
      simp only at stepped
      split at stepped <;> cases stepped
      exact absurd zero (not_read_of_write holds _)
    | read o n =>
      simp only at stepped
      split at stepped <;> cases stepped
      exact read_zero holds _ positive zero
    | resume o =>
      simp only at stepped
      split at stepped
      case isFalse => cases stepped
      case isTrue =>
        cases isCall : s.calls o with
        | none =>
          rw [isCall] at stepped
          cases stepped
          cases zero
        | some call =>
          rw [isCall] at stepped
          cases call with
          | write addr n i =>
            cases stepped
            have holds' : ({ s with table := s.table.awaken o } : PipeSys).pipe.Holds q := holds
            exact absurd zero (not_read_of_write holds' _)
          | read n =>
            cases stepped
            have holds' : ({ s with table := s.table.awaken o } : PipeSys).pipe.Holds q := holds
            exact read_zero holds' _ positive zero
    | close writable =>
      cases stepped
      cases zero
    | kill pid =>
      cases stepped
      cases zero

/-! ## No lost wakeup -/

/-- A call is made on an open end, and an end is closed while no process is inside a call
on it: both follow from the reference counts of `struct file`. -/
def Guarded (s : PipeSys) : PipeOp → Prop
  | .write _ _ _ => s.pipe.writeopen = true
  | .read _ _ => s.pipe.readopen = true
  | .close true => ∀ p addr n i, s.calls p ≠ some (.write addr n i)
  | .close false => ∀ p n, s.calls p ≠ some (.read n)
  | _ => True

/-- Nobody sleeps on a condition that does not hold. -/
structure Wakes (s : PipeSys) : Prop where
  queue : ∃ q, s.pipe.Holds q
  reader : ∀ p, s.table.Asleep p .nread →
    s.pipe.isEmpty = true ∧ s.pipe.writeopen = true ∧ ∃ n, s.calls p = some (.read n)
  writer : ∀ p, s.table.Asleep p .nwrite → s.pipe.isFull = true ∧ s.pipe.readopen = true
  reading : ∀ p n, s.calls p = some (.read n) → s.pipe.readopen = true
  writing : ∀ p addr n i, s.calls p = some (.write addr n i) → s.pipe.writeopen = true

theorem Fresh.wakes (fresh : s.Fresh) : Wakes s := by
  obtain ⟨q, holds, -⟩ := fresh.inv.queue
  refine ⟨⟨q, holds⟩, fun p asleep => absurd asleep (fresh.awake p).1,
    fun p asleep => absurd asleep (fresh.awake p).2, ?_, ?_⟩
  · exact fun _ _ _ => fresh.readopen
  · exact fun _ _ _ _ _ => fresh.writeopen

/-- The calls of the other processes stay. -/
theorem calls_upd {call : Option PipeCall} {o : Pid} {c : PipeCall}
    (isCall : upd s.calls p call o = some c) : call = some c ∨ s.calls o = some c := by
  by_cases same : o = p
  · subst same
    rw [upd_same] at isCall
    exact Or.inl isCall
  · rw [upd_ne _ _ same] at isCall
    exact Or.inr isCall

theorem Wakes.write (wakes : Wakes s) (open_ : s.pipe.writeopen = true) :
    Wakes (s.after p (pipewrite p addr n i s.pipe s.table)).1 := by
  obtain ⟨q, holds⟩ := wakes.queue
  obtain ⟨k, pp', few, holds', readSame, writeSame, outcome⟩ :=
    writeLoop_spec p addr n s.table ((bytesAt addr n).drop i) i
      s.pipe q holds
  -- a full buffer stays full: nothing more fits
  have staysFull : s.pipe.isFull = true → pp'.isFull = true := by
    intro full
    have before := holds.isFull_iff.1 full
    have after := holds'.few
    rw [List.length_append] at after
    rw [holds'.isFull_iff, List.length_append]
    omega
  have callsOk : ∀ call : Option PipeCall, (∀ m, call ≠ some (.read m)) →
      (∀ o m, upd s.calls p call o = some (.read m) → pp'.readopen = true) ∧
        ∀ o a m j, upd s.calls p call o = some (.write a m j) → pp'.writeopen = true := by
    intro call notRead
    refine ⟨fun o m isCall => ?_, fun o a m j _ => writeSame.trans open_⟩
    rcases calls_upd isCall with now | old
    · exact absurd now (notRead m)
    · exact readSame.trans (wakes.reading o m old)
  unfold after pipewrite
  rcases outcome with ⟨-, eq⟩ | ⟨-, isFull, canRead, eq⟩ | ⟨-, cannot, eq⟩
  · rw [eq]
    obtain ⟨reading, writing⟩ := callsOk none (fun _ impossible => by cases impossible)
    refine ⟨⟨_, holds'⟩, fun o asleep => ?_, fun o asleep => ?_, reading, writing⟩
    · exact absurd rfl (Ptable.asleep_wakeup1.1 asleep).2
    · obtain ⟨full, readable⟩ := wakes.writer o (Ptable.asleep_wakeup1.1 asleep).1
      exact ⟨staysFull full, readSame.trans readable⟩
  · rw [eq]
    obtain ⟨reading, writing⟩ := callsOk (some (.write addr n (i + k)))
      (fun _ impossible => by cases impossible)
    refine ⟨⟨_, holds'⟩, fun o asleep => ?_, fun o _ => ⟨isFull, readSame.trans canRead⟩, reading, writing⟩
    rw [Ptable.asleep_sleep] at asleep
    split at asleep
    case isTrue => cases asleep
    case isFalse => exact absurd rfl (Ptable.asleep_wakeup1.1 asleep).2
  · -- the write is given up: with no read end there is no reader to wake
    rw [eq]
    obtain ⟨reading, writing⟩ := callsOk none (fun _ impossible => by cases impossible)
    refine ⟨⟨_, holds'⟩, fun o asleep => ?_, fun o asleep => ?_, reading, writing⟩
    · obtain ⟨-, -, m, isCall⟩ := wakes.reader o asleep
      rw [wakes.reading o m isCall] at cannot
      cases cannot
    · obtain ⟨full, readable⟩ := wakes.writer o asleep
      exact ⟨staysFull full, readSame.trans readable⟩

theorem Wakes.read (wakes : Wakes s) (open_ : s.pipe.readopen = true)
    (awake : ∀ c, ¬ s.table.Asleep p c) :
    Wakes (s.after p (piperead p n s.pipe s.table)).1 := by
  obtain ⟨q, holds⟩ := wakes.queue
  -- readers asleep are other processes, and their calls stay
  have others : ∀ (call : Option PipeCall) o, s.table.Asleep o .nread →
      ∃ m, upd s.calls p call o = some (.read m) := by
    intro call o asleep
    obtain ⟨-, -, m, isCall⟩ := wakes.reader o asleep
    have ne : o ≠ p := by
      rintro rfl
      exact awake _ asleep
    exact ⟨m, (upd_ne _ _ ne).trans isCall⟩
  unfold after
  rcases piperead_spec (p := p) (n := n) (t := s.table) holds with
    ⟨-, -, -, eq⟩ | ⟨none_, canWrite, eq⟩ | ⟨closed, pp', holds', readSame, writeSame, eq⟩
  · rw [eq]
    refine ⟨⟨q, holds⟩, fun o asleep => ?_, wakes.writer, fun o m _ => open_, fun o a m j isCall => ?_⟩
    · obtain ⟨empty, canWrite, -⟩ := wakes.reader o asleep
      exact ⟨empty, canWrite, others none o asleep⟩
    · rcases calls_upd isCall with impossible | old
      · cases impossible
      · exact wakes.writing o a m j old
  · rw [eq]
    refine ⟨⟨q, holds⟩, fun o asleep => ?_, fun o asleep => ?_, fun o m _ => open_,
      fun o a m j isCall => ?_⟩
    · refine ⟨holds.isEmpty_iff.2 none_, canWrite, ?_⟩
      rw [Ptable.asleep_sleep] at asleep
      split at asleep
      case isTrue same => exact ⟨n, by rw [same]; exact upd_same ..⟩
      case isFalse => exact others _ o asleep
    · rw [Ptable.asleep_sleep] at asleep
      split at asleep
      case isTrue => cases asleep
      case isFalse => exact wakes.writer o asleep
    · rcases calls_upd isCall with impossible | old
      · cases impossible
      · exact wakes.writing o a m j old
  · rw [eq]
    refine ⟨⟨_, holds'⟩, fun o asleep => ?_, fun o asleep => ?_, fun o m _ => readSame.trans open_,
      fun o a m j isCall => ?_⟩
    · -- a sleeping reader means an empty pipe that can be written, and then this one sleeps too
      obtain ⟨empty, canWrite, -⟩ := wakes.reader o (Ptable.asleep_wakeup1.1 asleep).1
      rw [closed (holds.isEmpty_iff.1 empty)] at canWrite
      cases canWrite
    · exact absurd rfl (Ptable.asleep_wakeup1.1 asleep).2
    · rcases calls_upd isCall with impossible | old
      · cases impossible
      · exact writeSame.trans (wakes.writing o a m j old)

theorem awake_of_state {t : Ptable} (state : (t p).state ≠ .sleeping) (c : Chan) : ¬ t.Asleep p c :=
  fun asleep => state asleep.1

/-- Processes that stop sleeping, with the pipe as it is. -/
theorem Wakes.retable (wakes : Wakes s) {t : Ptable}
    (fewer : ∀ p c, t.Asleep p c → s.table.Asleep p c) : Wakes { s with table := t } :=
  ⟨wakes.queue, fun p asleep => wakes.reader p (fewer p _ asleep),
    fun p asleep => wakes.writer p (fewer p _ asleep), wakes.reading, wakes.writing⟩

theorem Wakes.close (wakes : Wakes s) {writable : Bool} (guarded : Guarded s (.close writable)) :
    Wakes (s.pipeclose writable) := by
  obtain ⟨q, holds⟩ := wakes.queue
  cases writable with
  | true =>
    refine ⟨⟨q, holds⟩, fun p asleep => ?_, fun p asleep => ?_, wakes.reading, fun p addr n i isCall => ?_⟩
    · exact absurd rfl (Ptable.asleep_wakeup1.1 asleep).2
    · exact wakes.writer p (Ptable.asleep_wakeup1.1 asleep).1
    · exact absurd isCall (guarded p addr n i)
  | false =>
    refine ⟨⟨q, holds⟩, fun p asleep => ?_, fun p asleep => ?_, fun p n isCall => ?_, wakes.writing⟩
    · exact wakes.reader p (Ptable.asleep_wakeup1.1 asleep).1
    · exact absurd rfl (Ptable.asleep_wakeup1.1 asleep).2
    · exact absurd isCall (guarded p n)

theorem Wakes.step (wakes : Wakes s) {op : PipeOp} {s' : PipeSys} {more : List PipeObs}
    (guarded : Guarded s op) (stepped : s.step op = some (s', more)) : Wakes s' := by
  unfold PipeSys.step at stepped
  split at stepped
  case isTrue => cases stepped
  case isFalse =>
    cases op with
    | write p addr n =>
      simp only at stepped
      split at stepped <;> cases stepped
      exact wakes.write guarded
    | read p n =>
      simp only at stepped
      split at stepped
      case isFalse => cases stepped
      case isTrue ready =>
        cases stepped
        exact wakes.read guarded (awake_of_state (by rw [ready.1]; decide))
    | resume p =>
      simp only at stepped
      split at stepped
      case isFalse => cases stepped
      case isTrue ready =>
        have woken : Wakes { s with table := s.table.awaken p } :=
          wakes.retable fun o c asleep => (Ptable.asleep_awaken.1 asleep).2
        have awake : ∀ c, ¬ (s.table.awaken p).Asleep p c :=
          fun c asleep => (Ptable.asleep_awaken.1 asleep).1 rfl
        cases isCall : s.calls p with
        | none =>
          rw [isCall] at stepped
          cases stepped
          exact woken
        | some call =>
          rw [isCall] at stepped
          cases call with
          | write addr n i =>
            cases stepped
            exact woken.write (wakes.writing p addr n i isCall)
          | read n =>
            cases stepped
            exact woken.read (wakes.reading p n isCall) awake
    | close writable =>
      cases stepped
      exact wakes.close guarded
    | kill pid =>
      cases stepped
      exact wakes.retable fun o c asleep => Ptable.asleep_kill asleep

end PipeSys

/-! ## Runs -/

/-- **Pipes are FIFO byte channels**, in every run of calls on a new pipe: the buffer is
within bounds; what reads have returned and then what the buffer holds is what writes
have stored; every process's bytes are stored in its own order, a write that returns its
length having stored all of them; and a read of some bytes returns 0 only when the
buffer is empty and the write end closed. -/
theorem pipe_fifo {s0 s : PipeSys} (fresh : s0.Fresh) {ops : List PipeOp} {seen : List PipeObs}
    (ran : Machine.run PipeSys.step s0 ops = some (s, seen)) :
    (s.pipe.nwrite + U32 - s.pipe.nread) % U32 ≤ PIPESIZE ∧
      storedBytes seen = gotBytes seen ++ s.pipe.unread ∧
      (∀ p, storedBy p seen = wroteBy p seen ++ pending (s.calls p)) ∧
      (∀ p addr n i r, .wrote p addr n i r ∈ seen → r = n → i = n.toNat) ∧
      ∀ op s' more, s.step op = some (s', more) → ∀ p n bytes, .read p n bytes 0 ∈ more → 0 < n →
        s'.pipe.isEmpty = true ∧ s'.pipe.writeopen = false := by
  have inv : PipeSys.Inv seen s := by
    have kept := Machine.run_keeps (I := PipeSys.Inv)
      (fun seen s op s' more inv stepped => inv.step stepped) ops [] s0 s seen fresh.inv ran
    exact kept
  obtain ⟨q, holds, isQueue⟩ := inv.queue
  refine ⟨?_, ?_, inv.order, inv.whole, fun op s' more stepped p n bytes zero positive => ?_⟩
  · rw [holds.length_eq pipesize_lt]
    exact holds.few
  · rw [holds.unread]
    exact isQueue
  · exact PipeSys.step_read_zero holds stepped positive zero

/-- A new pipe and processes that all run. -/
def newPipe : PipeSys where
  pipe := ⟨fun _ => 0, 0, 0, true, true⟩
  table := fun _ => ⟨.running, 1, none, none, false⟩
  calls := fun _ => none
  freed := false

theorem newPipe_fresh : newPipe.Fresh := by
  refine ⟨rfl, rfl, rfl, rfl, fun _ => rfl, fun p => ⟨?_, ?_⟩⟩
  · exact fun asleep => Procstate.noConfusion asleep.1
  · exact fun asleep => Procstate.noConfusion asleep.1

/-- The reader comes first and sleeps; process 1 stores two bytes, which wakes it; process 2 fills the
buffer and sleeps; the reader takes four bytes, which wakes that one; and it stores the rest. -/
def twoWriters : List PipeOp :=
  [.read 0 4, .write 1 (fun _ => 7) 2, .write 2 (BitVec.ofNat 8) 511, .resume 0, .resume 2]

theorem pipe_fifo_two_writers :
    ∃ s seen, Machine.run PipeSys.step newPipe twoWriters = some (s, seen) ∧
      gotBytes seen = [7, 7, 0, 1] ∧ s.pipe.unread.length = 509 ∧
      storedBytes seen = gotBytes seen ++ s.pipe.unread ∧
      ∀ p, storedBy p seen = wroteBy p seen ++ pending (s.calls p) := by
  have shown : (Machine.run PipeSys.step newPipe twoWriters).any (fun r =>
      decide (gotBytes r.2 = [7, 7, 0, 1] ∧ r.1.pipe.unread.length = 509)) = true := by
    decide +kernel
  obtain ⟨⟨s, seen⟩, ran, facts⟩ := (Option.any_eq_true ..).1 shown
  obtain ⟨got, left⟩ := of_decide_eq_true facts
  obtain ⟨-, queue, order, -⟩ := pipe_fifo newPipe_fresh ran
  exact ⟨s, seen, ran, got, left, queue, order⟩

/-- **No lost wakeup on pipes**: in every run in which calls are made on open ends and an
end is closed while no call on it is under way, a process asleep on `nread` sees an empty
pipe that can still be written, and one asleep on `nwrite` a full pipe that can still be
read.  So never does a reader wait for a writer that waits for it. -/
theorem pipe_no_lost_wakeup {s0 s : PipeSys} (fresh : s0.Fresh) {ops : List PipeOp}
    {seen : List PipeObs} (guarded : Machine.Meets PipeSys.step PipeSys.Guarded s0 ops)
    (ran : Machine.run PipeSys.step s0 ops = some (s, seen)) :
    (∀ p, s.table.Asleep p .nread → s.pipe.isEmpty = true ∧ s.pipe.writeopen = true) ∧
      (∀ p, s.table.Asleep p .nwrite → s.pipe.isFull = true ∧ s.pipe.readopen = true) ∧
      ∀ p q, ¬ (s.table.Asleep p .nread ∧ s.table.Asleep q .nwrite) := by
  have wakes : s.Wakes := by
    have kept := Machine.run_keeps_where (I := fun _ s => PipeSys.Wakes s)
      (fun seen s op s' more wakes guarded stepped => wakes.step guarded stepped) ops [] s0 s seen
      fresh.wakes guarded ran
    exact kept
  have reader : ∀ p, s.table.Asleep p .nread → s.pipe.isEmpty = true ∧ s.pipe.writeopen = true := by
    intro p asleep
    obtain ⟨empty, canWrite, -⟩ := wakes.reader p asleep
    exact ⟨empty, canWrite⟩
  refine ⟨reader, wakes.writer, fun p q both => ?_⟩
  obtain ⟨b, holds⟩ := wakes.queue
  have none_ := holds.isEmpty_iff.1 (reader p both.1).1
  have full := holds.isFull_iff.1 (wakes.writer q both.2).1
  rw [none_] at full
  cases full

/-- The first three calls of `twoWriters`: the reader is woken, the second writer sleeps on a full
pipe, and it is woken when the reader has gone on. -/
theorem pipe_no_lost_wakeup_writer :
    ∃ s seen s' more, Machine.run PipeSys.step newPipe (twoWriters.take 3) = some (s, seen) ∧
      ¬ s.table.Asleep 0 .nread ∧ s.table.Asleep 2 .nwrite ∧
      s.pipe.isFull = true ∧ s.pipe.readopen = true ∧
      s.step (.resume 0) = some (s', more) ∧ ¬ s'.table.Asleep 2 .nwrite := by
  have shown : (Machine.run PipeSys.step newPipe (twoWriters.take 3)).any (fun r =>
      decide (¬ r.1.table.Asleep 0 .nread ∧ r.1.table.Asleep 2 .nwrite) &&
      (r.1.step (.resume 0)).any fun r' => decide (¬ r'.1.table.Asleep 2 .nwrite)) = true := by
    decide +kernel
  have guarded : Machine.Meets PipeSys.step PipeSys.Guarded newPipe (twoWriters.take 3) := by
    refine ⟨rfl, fun s1 _ first => ⟨?_, fun s2 _ second => ⟨?_, fun _ _ _ => trivial⟩⟩⟩
    · obtain rfl := congrArg Prod.fst (Option.some.inj first)
      rfl
    · obtain rfl := congrArg Prod.fst (Option.some.inj first)
      obtain rfl := congrArg Prod.fst (Option.some.inj second)
      rfl
  obtain ⟨⟨s, seen⟩, ran, facts⟩ := (Option.any_eq_true ..).1 shown
  obtain ⟨now, later⟩ := (Bool.and_eq_true _ _).mp facts
  obtain ⟨woken, asleep⟩ := of_decide_eq_true now
  obtain ⟨⟨s', more⟩, stepped, woken'⟩ := (Option.any_eq_true ..).1 later
  obtain ⟨full, canRead⟩ := (pipe_no_lost_wakeup newPipe_fresh guarded ran).2.1 2 asleep
  exact ⟨s, seen, s', more, ran, woken, asleep, full, canRead, stepped, of_decide_eq_true woken'⟩

end Xv6Rpi.Proc
