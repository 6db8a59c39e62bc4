/-
# Switch.Discipline -- how the kernel's code uses its locks

A `View` is what a thread knows about the CPU: how many sections it is in, whether
`ptable.lock` is taken, the interrupt state outside of all sections, the state of `proc`, the
slot of the table it is working on, and whether it is itself a process.  `pre` says what each
primitive asks of the view and does to it; `sched` asks for exactly one section, that of
`ptable.lock`, and a process that is not running.

All the kernel's code keeps to it:

* code that neither sleeps nor wakes leaves any view as it was;
* code that wakes processes (`Wakeful`) runs outside of `ptable.lock`;
* code that may sleep (`Idle`) runs outside of all sections.

Small functions are `abbrev`s, which need no instance of their own.
-/
import Xv6Rpi.Switch.Code

namespace Xv6Rpi.Switch

open Theory Theory.Flow Kernel Proc

set_option autoImplicit false

/-- A slot of the table that belongs to the running code alone. -/
inductive Slot where
  | unused (p : Pid)
  | embryo (p : Pid)
  /-- with a context -/
  | ready (p : Pid)
  | zombie (p : Pid)
  deriving DecidableEq

structure View where
  depth : Nat
  /-- `ptable.lock` is taken -/
  ptable : Bool
  /-- interrupts are on outside of the sections -/
  base : Bool
  /-- the state of `proc` -/
  self : Option Procstate
  slot : Option Slot
  /-- the thread is a process, not the scheduler -/
  own : Bool

/-- Outside of sections: no process, or a running one. -/
def View.Calm (s : View) : Prop := s.ptable = false ∧ (s.self = none ∨ s.self = some .running)

/-- What a primitive asks for, and what it does. -/
def pre : Prim → (View → Prop) → View → Prop
  | .pushcli, Q, s => Q { s with depth := s.depth + 1 }
  | .popcli, Q, s => 0 < s.depth ∧ (s.depth = 1 → s.Calm) ∧ Q { s with depth := s.depth - 1 }
  | .setLocked lk b, Q, s =>
    if lk = .ptable then (b = true → 0 < s.depth) ∧ Q { s with ptable := b } else Q s
  | .sti, Q, s => s.depth = 0 ∧ Q { s with base := true }
  | .sched, Q, s =>
    s.depth = 1 ∧ s.ptable = true ∧ s.slot = none ∧ s.own = true ∧
      (s.self = some .sleeping ∨ s.self = some .runnable ∨ s.self = some .zombie) ∧
      Q { s with self := some .running }
  | .needProc, Q, s => s.self ≠ none → Q s
  | .setSelf st, Q, s =>
    0 < s.depth ∧
      (if st = .running then s.self = some .runnable
        else s.self = some .running ∧ s.own = true ∧
          (st = .sleeping ∨ st = .runnable ∨ st = .zombie)) ∧
      Q { s with self := some st }
  | .wake, Q, s => s.self ≠ some .sleeping ∧ Q s
  | .find p .unused, Q, s =>
    s.slot = none ∧ s.self ≠ some .unused ∧ Q { s with slot := some (.unused p) }
  | .find p .zombie, Q, s =>
    s.slot = none ∧ s.self ≠ some .zombie ∧ Q { s with slot := some (.zombie p) }
  | .find _ _, _, _ => False
  | .full, Q, s => Q s
  | .setState p .embryo, Q, s => s.slot = some (.unused p) ∧ Q { s with slot := some (.embryo p) }
  | .setState p .runnable, Q, s => s.slot = some (.ready p) ∧ Q { s with slot := none }
  | .setState p .unused, Q, s =>
    (s.slot = some (.embryo p) ∨ s.slot = some (.ready p) ∨ s.slot = some (.zombie p)) ∧
      Q { s with slot := none }
  | .setState _ _, _, _ => False
  | .context p, Q, s => s.slot = some (.embryo p) ∧ Q { s with slot := some (.ready p) }
  | .rewind, Q, s => Q s
  | .choose, Q, s => 0 < s.depth ∧ s.self = none ∧ s.slot = none ∧ Q { s with self := some .runnable }
  | .scanned, Q, s => Q s
  | .swtch, Q, s =>
    s.depth = 1 ∧ s.ptable = true ∧ s.self = some .running ∧ s.slot = none ∧ s.own = false ∧
      ∀ b st, st ≠ .running → Q { s with base := b, self := some st }
  | .clearProc, Q, s => s.self ≠ some .running ∧ s.own = false ∧ Q { s with self := none }
  | .ifFirst, Q, s => Q s
  | .unlessFirst, Q, s => Q s
  | .panic _, _, _ => True

theorem pre_mono (p : Prim) (Q R : View → Prop) (s : View) (weaker : ∀ t, Q t → R t)
    (holds : pre p Q s) : pre p R s := by
  cases p with
  | setLocked lk b =>
    simp only [pre] at holds ⊢
    split at holds
    · rw [if_pos ‹_›]
      exact ⟨holds.1, weaker _ holds.2⟩
    · rw [if_neg ‹_›]
      exact weaker _ holds
  | find p st => cases st <;> simp_all [pre]
  | setState p st => cases st <;> simp_all [pre]
  | sched =>
    obtain ⟨one, taken, noSlot, own, stopped, after⟩ := holds
    exact ⟨one, taken, noSlot, own, stopped, weaker _ after⟩
  | swtch =>
    obtain ⟨one, taken, running, noSlot, other, after⟩ := holds
    exact ⟨one, taken, running, noSlot, other, fun b st ne => weaker _ (after b st ne)⟩
  | sti => exact ⟨holds.1, weaker _ holds.2⟩
  | clearProc => exact ⟨holds.1, holds.2.1, weaker _ holds.2.2⟩
  | choose => exact ⟨holds.1, holds.2.1, holds.2.2.1, weaker _ holds.2.2.2⟩
  | _ => simp_all [pre]

/-- The code can be run from these views, and leaves them as they were. -/
abbrev Ok (A : View → Prop) (c : Code) : Prop := Keeps pre A c

/-- Outside of sections, all is calm. -/
def Sane (s : View) : Prop := s.depth = 0 → s.Calm

/-- Waking is allowed. -/
def Wakeful (s : View) : Prop := Sane s ∧ s.ptable = false ∧ s.self ≠ some .sleeping

/-- Sleeping is allowed. -/
def Idle (s : View) : Prop :=
  s.depth = 0 ∧ s.ptable = false ∧ s.self = some .running ∧ s.slot = none ∧ s.own = true

/-- In one more section. -/
def Under (A : View → Prop) (s : View) : Prop := ∃ t, A t ∧ s = { t with depth := t.depth + 1 }

/-- Views in which sections may be entered and left. -/
class Saner (A : View → Prop) : Prop where
  sane : ∀ s, A s → Sane s

/-- Views in which processes may be woken up. -/
class Waking (A : View → Prop) : Prop where
  wakeful : ∀ s, A s → Wakeful s

instance : Saner Sane := ⟨fun _ sane => sane⟩

instance : Waking Wakeful := ⟨fun _ wakeful => wakeful⟩

instance {A : View → Prop} [waking : Waking A] : Saner A := ⟨fun s inA => (waking.wakeful s inA).1⟩

instance : Waking Idle where
  wakeful s idle := by
    obtain ⟨outside, free, running, -⟩ := idle
    exact ⟨fun _ => ⟨free, .inr running⟩, free, by simp [running]⟩

instance {A : View → Prop} : Saner (Under A) where
  sane s under := by
    obtain ⟨t, -, rfl⟩ := under
    intro outside
    simp at outside

instance {A : View → Prop} [waking : Waking A] : Waking (Under A) where
  wakeful s under := by
    have sane := Saner.sane (A := Under A) s under
    obtain ⟨t, inA, rfl⟩ := under
    exact ⟨sane, (waking.wakeful t inA).2⟩

variable {A : View → Prop} {lk : Lock}

/-! ## Sections -/

theorem wp_acquire {Q : View → Prop} {s : View} (other : lk ≠ .ptable) :
    wp pre (acquire lk) Q s ↔ Q { s with depth := s.depth + 1 } := by
  simp [acquire, pushcli, block, wp, pre, other]

theorem wp_acquire_ptable {Q : View → Prop} {s : View} :
    wp pre (acquire .ptable) Q s ↔ Q { s with depth := s.depth + 1, ptable := true } := by
  simp [acquire, pushcli, block, wp, pre]

theorem wp_release {Q : View → Prop} {s : View} (other : lk ≠ .ptable) :
    wp pre (release lk) Q s ↔
      0 < s.depth ∧ (s.depth = 1 → s.Calm) ∧ Q { s with depth := s.depth - 1 } := by
  simp [release, popcli, block, wp, pre, other]

theorem wp_release_ptable {Q : View → Prop} {s : View} :
    wp pre (release .ptable) Q s ↔ 0 < s.depth ∧
      (s.depth = 1 → s.self = none ∨ s.self = some .running) ∧
      Q { s with depth := s.depth - 1, ptable := false } := by
  simp [release, popcli, block, wp, pre, View.Calm]

/-- A lock other than `ptable.lock`. -/
class Other (lk : Lock) : Prop where
  ne : lk ≠ .ptable

instance : Other .kmem := ⟨by decide⟩
instance : Other .kpt := ⟨by decide⟩
instance : Other .cons := ⟨by decide⟩
instance : Other .input := ⟨by decide⟩
instance : Other .bcache := ⟨by decide⟩
instance : Other .icache := ⟨by decide⟩
instance : Other .ftable := ⟨by decide⟩
instance : Other .log := ⟨by decide⟩
instance : Other .ticks := ⟨by decide⟩
instance : Other .pipe := ⟨by decide⟩

section Sections

variable [other : Other lk]

instance [saner : Saner A] {l : List Code} [inside : Ok (Under A) (block l)] : Ok A (locked lk l) where
  wp Q s inA holds := by
    simp only [locked, wp_block_cons, wp_acquire other.ne]
    refine inside.wp _ _ ⟨s, inA, rfl⟩ ?_
    rw [wp_block_cons, wp_release other.ne]
    refine ⟨Nat.succ_pos _, fun one => ?_, holds⟩
    exact saner.sane s inA (by simpa using one)

instance : Ok A (initlock lk) where
  wp Q s _ holds := by simpa [initlock, wp, pre, other.ne] using holds

end Sections

instance (msg : String) : Ok A (panic msg) := ⟨fun _ _ _ _ => trivial⟩

/-! ## Sleeping and waking -/

instance [waking : Waking A] : Ok A wakeup where
  wp Q s inA holds := by
    obtain ⟨sane, free, awake⟩ := waking.wakeful s inA
    simp only [wakeup, locked, wp_block_cons, wp_block_nil, wp_acquire_ptable, wp_release_ptable,
      wakeup1, wp, pre]
    refine ⟨awake, Nat.succ_pos _, fun one => (sane (by simpa using one)).2, ?_⟩
    simpa [← free] using holds

instance [waking : Waking A] : Ok A kill where
  wp Q s inA holds := by
    obtain ⟨sane, free, awake⟩ := waking.wakeful s inA
    have back : wp pre (release .ptable) Q { s with depth := s.depth + 1, ptable := true } := by
      rw [wp_release_ptable]
      refine ⟨Nat.succ_pos _, fun one => (sane (by simpa using one)).2, ?_⟩
      simpa [← free] using holds
    simp only [kill, locked, wp_block_cons, wp_block_nil, wp_acquire_ptable, opt, wp, pre]
    exact ⟨back, awake, back⟩

/-- **Sleeping in a section**: the lock is exchanged for `ptable.lock`, which alone is held in
`sched`, and back. -/
instance sleep_ok [other : Other lk] : Ok (Under Idle) (sleep lk) where
  wp := by
    rintro Q s ⟨t, ⟨outside, free, running, noSlot, own⟩, rfl⟩ holds
    obtain ⟨depth, ptable, base, self, slot, thread⟩ := t
    simp only at outside free running noSlot own
    subst outside free running noSlot own
    simp only [sleep, if_neg other.ne, wp_block_cons, wp_block_nil, wp_acquire_ptable,
      wp_release other.ne, wp_release_ptable, wp_acquire other.ne, wp, pre]
    simpa using holds

/-- Views in the section of `ptable.lock` where sleeping on it is allowed. -/
def InTable (s : View) : Prop :=
  s.depth = 1 ∧ s.ptable = true ∧ s.self = some .running ∧ s.slot = none ∧ s.own = true

instance sleep_ptable_ok : Ok InTable (sleep .ptable) where
  wp := by
    rintro Q s ⟨one, taken, running, noSlot, own⟩ holds
    obtain ⟨depth, ptable, base, self, slot, thread⟩ := s
    simp only at one taken running noSlot own
    subst one taken running noSlot own
    simp only [sleep, if_pos, wp_block_cons, wp_block_nil, wp, pre]
    simpa using holds

/-! ## Code that neither sleeps nor wakes -/

section Quiet

variable [saner : Saner A]

instance : Ok A switchuvm where
  wp Q s inA holds := by
    have back : wp pre popcli Q { s with depth := s.depth + 1 } := by
      refine ⟨Nat.succ_pos _, fun one => ?_, holds⟩
      exact saner.sane s inA (by simpa using one)
    exact ⟨back, trivial⟩

instance : Ok A allocuvm := by unfold allocuvm; infer_instance
instance : Ok A freevm := by unfold freevm; infer_instance
instance : Ok A growproc := by unfold growproc; infer_instance

end Quiet

/-! ## Code that wakes -/

section Wakes

variable [Waking A]

/-- **Interrupt handlers** only wake. -/
instance irqHandler_ok : Ok A irqHandler := by
  unfold irqHandler
  infer_instance

end Wakes

/-! ## Code that sleeps -/

/-- A section that ends in one of two ways, both outside. -/
instance bget_ok : Ok Idle bget where
  wp Q s idle holds := by
    have calm := Saner.sane s idle idle.1
    have loops : Ok (Under Idle) (.loop (sleep .bcache)) := inferInstance
    rw [bget, wp_block_cons, wp_acquire (by decide)]
    refine loops.wp _ _ ⟨s, idle, rfl⟩ ⟨?_, trivial⟩
    exact (wp_release (by decide)).2 ⟨Nat.succ_pos _, fun _ => calm, holds⟩

instance : Ok Idle bread := by unfold bread; infer_instance
instance : Ok Idle installTrans := by unfold installTrans; infer_instance
instance : Ok Idle beginTrans := by unfold beginTrans; infer_instance
instance : Ok Idle commitTrans := by unfold commitTrans; infer_instance
instance : Ok Idle logWrite := by unfold logWrite; infer_instance
instance : Ok Idle balloc := by unfold balloc; infer_instance
instance : Ok Idle bfree := by unfold bfree; infer_instance
instance : Ok Idle iupdate := by unfold iupdate; infer_instance
instance : Ok Idle ilock := by unfold ilock; infer_instance

/-- `iput` is outside of its section while it frees the inode. -/
instance iput_ok : Ok Idle iput where
  wp Q s idle holds := by
    have calm := Saner.sane s idle idle.1
    have back : wp pre (block [release .icache]) Q { s with depth := s.depth + 1 } :=
      (wp_release (by decide)).2 ⟨Nat.succ_pos _, fun _ => calm, holds⟩
    rw [iput, wp_block_cons, wp_acquire (by decide)]
    refine ⟨back, Keeps.pass (A := Under Idle) (l := [_]) ⟨s, idle, rfl⟩ ?_⟩
    rw [wp_block_cons, wp_release (by decide)]
    refine ⟨Nat.succ_pos _, fun _ => calm, Keeps.pass (l := [_, _]) idle ?_⟩
    rw [wp_block_cons, wp_acquire (by decide)]
    exact Keeps.pass (A := Under Idle) (l := [_]) ⟨s, idle, rfl⟩ back

instance : Ok Idle iunlockput := by unfold iunlockput; infer_instance
instance : Ok Idle readi := by unfold readi; infer_instance
instance : Ok Idle writei := by unfold writei; infer_instance
instance : Ok Idle dirlookup := by unfold dirlookup; infer_instance
instance : Ok Idle dirlink := by unfold dirlink; infer_instance
instance : Ok Idle namex := by unfold namex; infer_instance
instance : Ok Idle fileclose := by unfold fileclose; infer_instance
instance : Ok Idle fileread := by unfold fileread; infer_instance
instance : Ok Idle filewrite := by unfold filewrite; infer_instance

/-! ## Processes -/

instance : Ok (fun s => s.self ≠ some .sleeping) wakeup1 := ⟨fun _ _ awake holds => ⟨awake, holds⟩⟩

/-- **`exit` does not return**: nothing is asked for after it. -/
theorem wp_exit {Q : View → Prop} {s : View} (idle : Idle s) : wp pre exit Q s := by
  refine Keeps.pass (l := [_, _, _]) idle ?_
  rw [wp_block_cons, wp_acquire_ptable]
  obtain ⟨outside, free, running, noSlot, own⟩ := idle
  refine Keeps.pass (A := fun s => s.self ≠ some .sleeping) (l := [_, _]) (by simp [running]) ?_
  simp [wp, pre, running, outside, noSlot, own]

instance : Ok Idle exit := ⟨fun _ _ idle _ => wp_exit idle⟩

/-- **`wait` and its section**: it sleeps on `ptable.lock` itself, and frees a zombie inside. -/
instance wait_ok : Ok Idle wait where
  wp Q s idle holds := by
    obtain ⟨depth, ptable, base, self, slot, thread⟩ := s
    obtain ⟨outside, free, running, noSlot, own⟩ := idle
    simp only at outside free running noSlot own
    subst outside free running noSlot own
    have back : wp pre (block [release .ptable]) Q ⟨1, true, base, some .running, none, true⟩ :=
      wp_release_ptable.2 ⟨Nat.one_pos, fun _ => .inr rfl, holds⟩
    rw [wait, wp_block_cons, wp_acquire_ptable]
    refine Keeps.pass (A := InTable) (l := [_]) ⟨rfl, rfl, rfl, rfl, rfl⟩ ⟨back, fun p => ⟨rfl, by simp, ?_⟩⟩
    refine Keeps.pass (A := Sane) (l := [_, _]) (by simp [Sane]) ?_
    exact ⟨.inr (.inr rfl), back⟩

/-- **`allocproc`**: the slot it finds is handed on with a context. -/
theorem wp_allocproc {found : Pid → Code} {failed : Code} {Q : View → Prop} {s : View}
    (outside : s.depth = 0) (calm : s.Calm) (noSlot : s.slot = none)
    (done : ∀ p, wp pre (found p) Q { s with slot := some (.ready p) })
    (gone : wp pre failed Q s) : wp pre (allocproc found failed) Q s := by
  obtain ⟨depth, ptable, base, self, slot, thread⟩ := s
  obtain ⟨free, self_calm⟩ := calm
  simp only at outside free noSlot self_calm done gone
  subst outside free noSlot
  rw [allocproc, wp_block_cons, wp_acquire_ptable]
  have used : self ≠ some .unused := by rcases self_calm with rfl | rfl <;> simp
  refine ⟨?_, fun p => ⟨rfl, used, rfl, ?_⟩⟩
  · exact wp_release_ptable.2 ⟨Nat.one_pos, fun _ => self_calm, gone⟩
  · refine wp_release_ptable.2 ⟨Nat.one_pos, fun _ => self_calm, ?_⟩
    refine Keeps.pass (A := Sane) (l := [_]) (fun _ => ⟨rfl, self_calm⟩) ⟨?_, ?_⟩
    · exact ⟨.inl rfl, gone⟩
    · exact ⟨rfl, done p⟩

instance fork_ok : Ok Idle fork where
  wp Q s idle holds := by
    have calm := Saner.sane s idle idle.1
    refine wp_allocproc idle.1 calm idle.2.2.2.1 (fun np => ?_) holds
    refine Keeps.pass (A := Sane) (l := [_]) (fun _ => calm) ⟨?_, ?_⟩
    · exact Keeps.pass (A := Sane) (l := [_]) (fun _ => calm) ⟨.inr (.inl rfl), idle.2.2.2.1 ▸ holds⟩
    · exact Keeps.pass (A := Sane) (l := [_, _]) (fun _ => calm) ⟨rfl, idle.2.2.2.1 ▸ holds⟩

/-! ## System calls -/

instance : Ok Idle loaduvm := by unfold loaduvm; infer_instance
instance : Ok Idle execBad := by unfold execBad; infer_instance
instance : Ok Idle exec := by unfold exec; infer_instance
instance : Ok Idle create := by unfold create; infer_instance
instance : Ok Idle sysLink := by unfold sysLink; infer_instance
instance : Ok Idle sysUnlink := by unfold sysUnlink; infer_instance
instance : Ok Idle sysOpen := by unfold sysOpen; infer_instance
instance : Ok Idle sysChdir := by unfold sysChdir; infer_instance
instance : Ok Idle sysPipe := by unfold sysPipe; infer_instance

/-- **Every system call** can be made from outside of all sections, and returns there. -/
instance syscall_ok : Ok Idle syscall := by unfold syscall; infer_instance

/-! ## Threads -/

/-- No process: where `kmain` and the scheduler are. -/
def Alone (s : View) : Prop :=
  s.depth = 0 ∧ s.ptable = false ∧ s.self = none ∧ s.slot = none ∧ s.own = false

instance : Saner Alone := ⟨fun _ alone _ => ⟨alone.2.1, .inl alone.2.2.1⟩⟩

instance userinit_ok : Ok Alone userinit where
  wp Q s alone holds := by
    have calm := Saner.sane s alone alone.1
    refine wp_allocproc alone.1 calm alone.2.2.2.1 (fun p => ?_) trivial
    exact Keeps.pass (A := Sane) (l := [_, _, _, _]) (fun _ => calm) ⟨rfl, alone.2.2.2.1 ▸ holds⟩

/-- The scheduler's section, with no process chosen. -/
def Choosing (s : View) : Prop :=
  s.depth = 1 ∧ s.ptable = true ∧ s.self = none ∧ s.slot = none ∧ s.own = false

/-- One process: it is switched to, and some time later back from, with `intena` of another. -/
theorem wp_dispatch {s : View} (choosing : Choosing s) :
    wp pre (block [.prim .choose, switchuvm, .prim (.setSelf .running), .prim .swtch, .prim .clearProc])
      Choosing s := by
  obtain ⟨depth, ptable, base, self, slot, thread⟩ := s
  obtain ⟨one, taken, noProc, noSlot, other⟩ := choosing
  simp only at one taken noProc noSlot other
  subst one taken noProc noSlot other
  refine ⟨Nat.one_pos, rfl, rfl, ?_⟩
  refine Keeps.pass (A := Sane) (l := [_]) (by simp [Sane]) ?_
  refine ⟨Nat.one_pos, by simp, rfl, rfl, rfl, rfl, rfl, fun b st stopped => ?_⟩
  exact ⟨by simpa using stopped, rfl, rfl, rfl, rfl, rfl, rfl⟩

/-- **The scheduler** keeps going round. -/
theorem wp_scheduler {Q : View → Prop} {s : View} (alone : Alone s) : wp pre scheduler Q s := by
  refine ⟨Alone, alone, fun t alone => ?_⟩
  obtain ⟨outside, free, noProc, noSlot, other⟩ := alone
  refine ⟨outside, ?_⟩
  refine wp_acquire_ptable.2 ⟨Choosing, ?_, fun u choosing => ⟨?_, wp_dispatch choosing⟩⟩
  · exact ⟨by simp [outside], rfl, noProc, noSlot, other⟩
  · obtain ⟨one, -, gone, none, other⟩ := choosing
    exact wp_release_ptable.2 ⟨by omega, fun _ => .inl gone, by simp [one], rfl, gone, none, other⟩

/-- **A new process** comes out of `forkret` with the interrupts that `intena` asks for. -/
theorem wp_forkret {Q : View → Prop} (base : Bool)
    (holds : Q ⟨0, false, base, some .running, none, true⟩) :
    wp pre forkret Q ⟨1, true, base, some .running, none, true⟩ := by
  have log : Ok Idle initlog := inferInstance
  refine wp_release_ptable.2 ⟨Nat.one_pos, fun _ => .inr rfl, ?_, holds⟩
  exact log.wp Q _ ⟨rfl, rfl, rfl, rfl, rfl⟩ holds

theorem wp_kmain {Q : View → Prop} {s : View} (alone : Alone s) : wp pre kmain Q s := by
  have init : ∀ R, wp pre (initlock .ptable) R s ↔ R s := fun R => by
    obtain ⟨depth, ptable, base, self, slot, thread⟩ := s
    obtain ⟨-, free, -⟩ := alone
    simp only at free
    subst free
    simp [initlock, wp, pre]
  refine Keeps.pass (A := Alone) (l := [_, _, _, _, _, _, _, _]) alone ?_
  refine (init _).2 ?_
  refine Keeps.pass (A := Alone) (l := [_, _, _, _, _]) alone ?_
  refine ⟨alone.1, ?_⟩
  have on : Alone { s with base := true } := alone
  exact Keeps.pass (A := Alone) (l := [_]) on (wp_scheduler (Q := Q) on)

end Xv6Rpi.Switch
