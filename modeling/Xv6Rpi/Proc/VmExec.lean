/-
# Proc.VmExec -- replacing the image of a process

`Proc.Exec` knows one process and what else is in use.  Here the rest is the other processes,
their kernel stacks and the pipes.  Nothing of that is touched, so that the invariant of the
system holds after the call, and a call that gives up has changed nothing.
-/
import Xv6Rpi.Proc.ExecRun
import Xv6Rpi.Proc.VmProcs

namespace Xv6Rpi.Proc.Vm

open Theory
open Kernel (Pid upd upd_same upd_ne)

set_option autoImplicit false

/-- How the call will end, with the memory that there is. -/
def Image.verdict (img : Image) (a : Supply) : Exec.Verdict :=
  if img.fetched then Exec.verdict img.junk img.node img.argv a else .refuses

/-- What `exec` owes when it returns: the invariant, and all as it was when it fails; but it never
tells its caller that it failed. -/
structure Execed.Done (S : Setup) (p : Pid) (img : Image) (s : Sys) (x : Execed) (s' : Sys) : Prop where
  inv : s'.Inv S
  silent : x.r0 ≠ -1
  result : x.ret = 0 ∧ img.verdict s.mem.supply = .succeeds ∨
    x.ret = -1 ∧ img.verdict s.mem.supply = .refuses
  same : x.ret = -1 → s.Same p s'

section Exec

variable {S : Setup} {s : Sys} {p : Pid} {img : Image}

/-! ## One process among others -/

/-- All that does not belong to the address space of `p`. -/
def Sys.besides (s : Sys) (p : Pid) : Set (Nat × Nat) :=
  ∅ ∪ s.owners.others s.mem.words (some p)

theorem Sys.Inv.held (inv : s.Inv S) (used : (s.procs p).state ≠ .unused) :
    Held S (s.task p).pgdir (s.besides p) (s.task p).mem :=
  inv.files.kept.held (r := some p) (dirOf_some used) ((inv.procs p).pgdir used)

theorem Sys.retask_same (p : Pid) (s : Sys) (m : VMem) {t : Exec.Task} (mem : t.mem = m)
    (pgdir : t.pgdir = (s.procs p).pgdir) (sz : t.sz = (s.procs p).sz) (irefs : t.irefs = s.irefs) :
    s.retask p t = { s with mem := m } := by
  simp only [Sys.retask, mem, pgdir, sz, irefs, Kernel.upd_eq_self]

/-! ## Giving up -/

/-- With the new address space given up all is as it was. -/
theorem Sys.Inv.undone (inv : s.Inv S) (running : (s.procs p).state = .runnable) {m : VMem}
    (restored : Exec.Restored S s.mem m) :
    Sys.Inv S { s with mem := m } ∧ s.Same p { s with mem := m } := by
  have used := used_of_runnable running
  have none_ : s.owners.dir none = 0 := rfl
  obtain ⟨kept, apart⟩ := inv.files.kept.restored none_ restored.memory restored.tables
  have edit : Edit s.owners (some p) (entry s.mem.words (s.procs p).pgdir)
      s.mem.words m.words := by
    rw [← dirOf_some used]
    exact (apart.sameSpaces none_).edit
  exact ⟨inv.untouched running kept edit, inv.same used kept edit fun r k some_ =>
    restored.bytes _ (inv.files.kept.named (x := .page r k) some_).1⟩

/-! ## The new image -/

theorem contig_of_tidy {w : Words} {d n : Nat} (tidy : Exec.Tidy w d n) : Contig w d := by
  have there : ∀ i, tableAt w d i ≠ 0 ↔ 256 * i < n := by
    intro i
    rw [← decide_eq_decide]
    exact congrFun tidy i
  intro i j before some_
  rw [there] at some_ ⊢
  omega

theorem space_of_only {w : Words} {d n : Nat} (only : ∀ k, entry w d k ≠ 0 ↔ k < n) :
    Space w d (PTE_SZ * n) := by
  constructor
  · intro j below
    rw [Exec.pages_mul] at below
    exact tableAt_ne_zero_of_entry ((only j).2 below)
  · intro j past
    rw [Exec.pages_mul] at past
    simpa using mt (only j).1 (Nat.not_lt.2 past)

/-- The new address space takes the place of the old one. -/
theorem Sys.Inv.replaced (inv : s.Inv S) (running : (s.procs p).state = .runnable) {d n : Nat}
    {m : VMem} (held : Held S d (s.besides p) m)
    (others : ∀ u, (u, PT_ORDER) ∈ s.besides p → m.words u = s.mem.words u)
    (tidy : Exec.Tidy m.words d n) (only : ∀ k, entry m.words d k ≠ 0 ↔ k < n)
    (small : PTE_SZ * n < UADDR_SZ) :
    Sys.Inv S { s with
      mem := m
      procs := upd s.procs p { s.procs p with pgdir := d, sz := PTE_SZ * n } } := by
  have used := used_of_runnable running
  have ok := inv.procs p
  obtain ⟨kept, apart⟩ := inv.files.kept.rejoin (r := some p) held.memory held.owns subset_rfl
    (fun u other => others u (Or.inr other)) held.few (contig_of_tidy tidy)
  have kstack : upd s.kstackOf p (s.procs p).kstack = s.kstackOf := by
    rw [← kstackOf_eq used, Kernel.upd_eq_self]
  refine inv.enroll (p := p) (fun q other => upd_ne _ _ other) (upd_same _ _ _) running
    (ok.kstack used) held.nonzero ?_ apart small (space_of_only only) (ok.cwd running) le_rfl ok.pid rfl
  rw [kstack]
  exact inv.files.reslot kept (by rfl) _ _

/-! ## `exec` -/

/-- What the call has done to the process, put back among the others. -/
theorem Sys.Inv.ended (inv : s.Inv S) (running : (s.procs p).state = .runnable)
    (fetched : img.fetched = true) {r : Int} {t : Exec.Task}
    (ended : Exec.Ended S (s.besides p) img.junk img.path img.node img.argv (s.task p) r t) :
    Execed.Done S p img s ⟨r, t.tf.r0⟩ (s.retask p t) := by
  have verdict : img.verdict s.mem.supply = Exec.verdict img.junk img.node img.argv s.mem.supply :=
    if_pos fetched
  have silent : (t.tf.r0 : Int) ≠ -1 := by omega
  rcases ended with ⟨rfl, refuses, m, restored, rfl⟩ |
    ⟨rfl, succeeds, ip, f, d, n, m1, -, image, entered⟩
  · obtain ⟨inv', same⟩ := inv.undone running restored
    rw [Sys.retask_same p s m rfl rfl rfl rfl]
    exact ⟨inv', silent, Or.inr ⟨rfl, verdict.trans refuses⟩, fun _ => same⟩
  · refine ⟨?_, silent, Or.inl ⟨rfl, verdict.trans succeeds⟩, fun failed => absurd failed (by simp)⟩
    have contig : Contig s.mem.words (s.procs p).pgdir := by
      rw [← dirOf_some (used_of_runnable running)]
      exact inv.files.kept.contig (some p)
    have none_ : leaked s.mem.words (s.procs p).pgdir = ∅ := leaked_eq_empty contig
    have held : Held S d (s.besides p ∪ leaked s.mem.words (s.procs p).pgdir) t.mem := entered.held
    rw [none_, Set.union_empty] at held
    have inv' := inv.replaced running held entered.others entered.tidy entered.only
      image.stacked.small
    rw [entered.task]
    exact inv'

/-- **`exec`** puts a new image in place of the old one, or leaves everything; what it does, and how
it stops if it does not return, is what its verdict says. -/
theorem exec_spec {short : Prop} {may : VmPanic → Prop} (inv : s.Inv S)
    (running : (s.procs p).state = .runnable) (img : Image)
    (why : img.verdict s.mem.supply = .starves → short)
    (stops : ∀ e, (img.verdict s.mem.supply).panics e → may e) :
    Sat (sysStops short may) (Execed.Done S p img s) (Vm.exec p img s) := by
  have used := used_of_runnable running
  unfold Vm.exec
  cases fetched : img.fetched with
  | false =>
    have restored : Exec.Restored S s.mem s.mem := .refl (inv.held (p := p) used).memory
    obtain ⟨inv', same⟩ := inv.undone running restored
    refine ⟨inv', by decide, Or.inr ⟨rfl, ?_⟩, fun _ => same⟩
    rw [Image.verdict, fetched]
    rfl
  | true =>
    have verdict : img.verdict s.mem.supply =
        Exec.verdict img.junk img.node img.argv (s.task p).mem.supply := if_pos fetched
    have ended := Exec.exec_sat img.junk img.path img.node (inv.held used) img.short
    have code : Sat (Exec.execStops (img.verdict s.mem.supply))
        (fun x t => Execed.Done S p img s x (s.retask p t))
        ((do
          let ret ← Exec.exec img.junk img.path img.node img.argv
          let t ← Act.get
          return ⟨ret, t.tf.r0⟩ : Act Exec.Task VmPanic VmEvent Execed) (s.task p)) := by
      rw [verdict]
      refine ended.seq fun r t post => ?_
      exact Sat.step (Act.get_apply t) (inv.ended running fetched post)
    refine (code.zoom (Sys.retask p) (fun _ => id) (fun e t failed => ?_) (fun _ _ => id)
      fun _ _ => trivial).mono fun x s' post => ?_
    · rcases failed with ⟨isOom, missed, starves⟩ | panics
      · exact Or.inl ⟨isOom, missed, why starves⟩
      · exact Or.inr (stops e panics)
    · obtain ⟨t, rfl, done⟩ := post
      exact done

end Exec

end Xv6Rpi.Proc.Vm
