/-
# Proc.ExecSpec -- what `exec` promises

A call that fails leaves the process and the kernel's memory as they were, with two exceptions
that are named exactly (`exec_fails_cleanly_iff`).  A call that succeeds gives the new program its
arguments (`exec_delivers_argv`) in the image that the file describes (`exec_loads_image`).
Pushing the arguments is safe unless a string is longer than what the new image has below it
(`execArgs_safe_iff`).
-/
import Mathlib.Algebra.Order.BigOperators.Group.List
import Xv6Rpi.Proc.ExecRun

namespace Xv6Rpi.Proc.Exec

open Theory
open Proc.Vm
open Kernel (upd upd_same upd_ne upd_idem)

set_option autoImplicit false

section Spec

variable {S : Setup} {R : Set (Nat × Nat)} {t t' : Task} {junk ip : Nat} {path : List Byte}
  {node : Option (Nat × FileBytes)} {f : FileBytes} {argv : Argv}

/-! ## Failure -/

theorem withArgs_eq_iff {top : Nat} {tf : Trapframe} :
    withArgs argv top tf = tf ↔ tf.r0 = argv.length ∧ tf.r1 = vectorIn argv top := by
  constructor
  · intro same
    exact ⟨(congrArg Trapframe.r0 same).symm, (congrArg Trapframe.r1 same).symm⟩
  · rintro ⟨r0, r1⟩
    cases tf
    simp only [withArgs, ← r0, ← r1]

/-- When the registers are those of the caller. -/
theorem leftover_eq_iff : leftover (some (ip, f)) argv t = t.tf ↔
    (f.header = true → ∀ top a, makes f t.mem.supply = .ok (top, a) → Spills argv →
      t.tf.r0 = argv.length ∧ t.tf.r1 = vectorIn argv top) := by
  cases header : f.header with
  | false => simp [leftover, header]
  | true =>
    cases made : makes f t.mem.supply with
    | error v => simp [leftover, header, made]
    | ok image =>
      obtain ⟨top, a⟩ := image
      by_cases spills : Spills argv
      · simp [leftover, header, made, spills, withArgs_eq_iff]
      · simp [leftover, header, made, spills]

/-- Everything is put back, and the registers of the arguments hold what they held. -/
theorem Unchanged.of_restored {m' : VMem} (restored : Restored S t.mem m')
    (same : leftover node argv t = t.tf) :
    Unchanged node t { t with mem := m', locked := locksAfter node t, tf := leftover node argv t } := by
  refine ⟨rfl, rfl, rfl, rfl, same, restored.memory.outstanding_eq, restored.tables, restored.bytes,
    rfl, fun ip f isNode => ?_⟩
  subst isNode
  exact upd_same ..

/-- How a call ends, by its verdict. -/
theorem exec_ends (junk : Nat) (path : List Byte) (node : Option (Nat × FileBytes))
    (own : Held S t.pgdir R t.mem) (short : ∀ s ∈ argv, s.length < UADDR_SZ) :
    (∃ r t', (exec junk path node argv t).leaf = .done r t' ∧ Ended S R junk path node argv t r t') ∨
    ∃ e t', (exec junk path node argv t).leaf = .fail e t' ∧
      (e = .oom ∧ verdict junk node argv t.mem.supply = .starves ∨
        (verdict junk node argv t.mem.supply).panics e) := by
  rcases (exec_sat junk path node own short).ends (fun _ => id) fun _ => trivial with
    ⟨r, done, -, ended⟩ | ⟨e, stops, -, why⟩
  · exact Or.inl ⟨r, _, done, ended⟩
  · exact Or.inr ⟨e, _, stops, why.imp_left fun oom => ⟨oom.1, oom.2.2⟩⟩

/-- A call that returns -1, by its verdict. -/
theorem exec_refuses (path : List Byte) (own : Held S t.pgdir R t.mem)
    (short : ∀ s ∈ argv, s.length < UADDR_SZ)
    (refuses : verdict junk node argv t.mem.supply = .refuses) :
    ∃ m', Restored S t.mem m' ∧ (exec junk path node argv t).leaf =
      .done (-1) { t with mem := m', locked := locksAfter node t, tf := leftover node argv t } := by
  rcases exec_ends junk path node own short with ⟨r, t', done, ended⟩ | ⟨e, t', -, why⟩
  · rcases ended with ⟨rfl, -, m', restored, rfl⟩ | ⟨-, succeeds, -⟩
    · exact ⟨m', restored, done⟩
    · rw [refuses] at succeeds
      cases succeeds
  · rw [refuses] at why
    rcases why with ⟨-, never⟩ | never
    · cases never
    · exact never.elim

/-- A vector that does not fit below the strings makes `exec` give up. -/
theorem verdict_of_spills {top : Nat} {a : Supply} (header : f.header = true)
    (made : makes f t.mem.supply = .ok (top, a)) (isTop : ∃ n, top = topOf n ∧ top < UADDR_SZ)
    (spills : Spills argv) : verdict junk (some (ip, f)) argv t.mem.supply = .refuses := by
  obtain ⟨n, rfl, small⟩ := isTop
  rw [verdict, if_pos header, fileVerdict, made]
  refine (argsVerdict_fits small spills.1 spills.2.1).trans (if_neg fun roomy => ?_)
  exact absurd roomy.2 (Nat.not_le.2 spills.2.2)

/-- **A failed `exec` changes nothing**, exactly if a file without a proper header meets a
variable `pgdir` that happens to be 0, and a vector of arguments that does not fit below the
strings, in an image that can be made, meets registers that hold what they are set to. -/
theorem exec_fails_cleanly_iff (own : Held S t.pgdir R t.mem)
    (short : ∀ s ∈ argv, s.length < UADDR_SZ) :
    ((∀ ip f, node = some (ip, f) → f.header = false →
        ∃ t', (exec junk path node argv t).leaf = .done (-1) t') ∧
      ∀ t', (exec junk path node argv t).leaf = .done (-1) t' → Unchanged node t t') ↔
    ∀ ip f, node = some (ip, f) →
      (f.header = false → junk = 0) ∧
      (f.header = true → ∀ top a, makes f t.mem.supply = .ok (top, a) → Spills argv →
        t.tf.r0 = argv.length ∧ t.tf.r1 = vectorIn argv top) := by
  constructor
  · rintro ⟨returns, clean⟩ ip f rfl
    refine ⟨fun noHeader => ?_, fun header top a made spills => ?_⟩
    · by_contra some_
      have wild : verdict junk (some (ip, f)) argv t.mem.supply = .wild := by
        simp [verdict, noHeader, some_]
      obtain ⟨t', returned⟩ := returns ip f rfl noHeader
      have ended := (exec_sat junk path (some (ip, f)) own short).leaf fun _ _ => trivial
      rw [returned] at ended
      rcases ended with ⟨-, refuses, -⟩ | ⟨never, -⟩
      · rw [wild] at refuses
        cases refuses
      · cases never
    · have isTop := makes_top made
      have refuses : verdict junk (some (ip, f)) argv t.mem.supply = .refuses :=
        verdict_of_spills header made isTop spills
      obtain ⟨m', -, returned⟩ := exec_refuses path own short refuses
      have same : leftover (some (ip, f)) argv t = t.tf := (clean _ returned).tf
      exact leftover_eq_iff.1 same header top a made spills
  · intro condition
    refine ⟨fun ip f isNode noHeader => ?_, fun t' returned => ?_⟩
    · subst isNode
      have refuses : verdict junk (some (ip, f)) argv t.mem.supply = .refuses := by
        simp [verdict, noHeader, (condition ip f rfl).1 noHeader]
      obtain ⟨m', -, returned⟩ := exec_refuses path own short refuses
      exact ⟨_, returned⟩
    · have ended := (exec_sat junk path node own short).leaf fun _ _ => trivial
      rw [returned] at ended
      rcases ended with ⟨-, -, m', restored, rfl⟩ | ⟨never, -⟩
      · refine .of_restored restored ?_
        cases node with
        | none => rfl
        | some found => exact leftover_eq_iff.2 (condition found.1 found.2 rfl).2
      · cases never

/-! ## Success -/

/-- The size of the new image is that of the process. -/
theorem execArgs_sz {d top : Nat} (returned : (execArgs path f argv d top t).leaf = .done 0 t') :
    t'.sz = top := by
  obtain ⟨res, t1, -, rest⟩ := Outcome.leaf_bind_done_iff.1 returned
  match res with
  | none =>
    obtain ⟨_, t2, -, never⟩ := Outcome.leaf_bind_done_iff.1 rest
    cases never
  | some (sp, ustack) =>
    obtain ⟨_, t2, -, rest⟩ := Outcome.leaf_bind_done_iff.1 rest
    obtain ⟨copied, t3, -, rest⟩ := Outcome.leaf_bind_done_iff.1 rest
    cases copied with
    | false =>
      obtain ⟨_, t4, -, never⟩ := Outcome.leaf_bind_done_iff.1 rest
      cases never
    | true =>
      obtain ⟨old, t4, -, rest⟩ := Outcome.leaf_bind_done_iff.1 rest
      obtain ⟨_, t5, taken, rest⟩ := Outcome.leaf_bind_done_iff.1 rest
      obtain ⟨_, t6, freed, last⟩ := Outcome.leaf_bind_done_iff.1 rest
      obtain ⟨m, -, isTask⟩ := Outcome.leaf_zoom_done freed
      cases last
      cases taken
      rw [isTask]

/-- The process enters the image of the file. -/
theorem exec_entered (own : Held S t.pgdir R t.mem) (short : ∀ s ∈ argv, s.length < UADDR_SZ)
    (returned : (exec junk path (some (ip, f)) argv t).leaf = .done 0 t') :
    ∃ d n m1, ImageAt S t.mem f d n m1 ∧
      Entered S R t.mem d n path f argv { t with mem := m1, locked := upd t.locked ip false } t' := by
  have ended := (exec_sat junk path (some (ip, f)) own short).leaf fun _ _ => trivial
  rw [returned] at ended
  rcases ended with ⟨never, -⟩ | ⟨-, -, ip', f', d, n, m1, isNode, made, entered⟩
  · cases never
  · obtain ⟨rfl, rfl⟩ := Prod.mk.inj (Option.some.inj isNode)
    exact ⟨d, n, m1, made, entered⟩

/-- Strings that the new image has room for are short enough for any. -/
theorem short_of_room (own : Held S t.pgdir R t.mem)
    (returned : (exec junk path (some (ip, f)) argv t).leaf = .done 0 t')
    (room : (argv.map fun s => s.length + 4).sum ≤ t'.sz) : ∀ s ∈ argv, s.length < UADDR_SZ := by
  intro s member
  obtain ⟨d, top, t1, image, rest⟩ := exec_leaf_zero returned
  obtain ⟨m1, -, -, n, rfl, made⟩ := execImage_leaf own image
  have isSz := execArgs_sz rest
  have small := made.stacked.small
  have one : s.length + 4 ≤ (argv.map fun s => s.length + 4).sum :=
    List.single_le_sum (fun _ _ => Nat.zero_le _) _ (List.mem_map_of_mem member)
  omega

/-- **`exec` delivers the arguments**: the registers give their number and where their vector is, the
vector and the strings are there, one apart from the other, in the top page, and the page below it
is there for the kernel only. -/
theorem exec_delivers_argv (own : Held S t.pgdir R t.mem)
    (returned : (exec junk path node argv t).leaf = .done 0 t')
    (room : (argv.map fun s => s.length + 4).sum ≤ t'.sz) :
    t'.tf.r0 = argv.length ∧ t'.tf.r1 = t'.tf.spUsr ∧
    (∃ ustack, ArgsAt (t'.mem.user t'.pgdir) t'.sz argv t'.tf.r1 ustack) ∧
    entry t'.mem.words t'.pgdir (t'.sz / PTE_SZ - 2) ≠ 0 ∧
    pteAp (entry t'.mem.words t'.pgdir (t'.sz / PTE_SZ - 2)) = AP_KO := by
  match node with
  | none => cases returned
  | some (ip, f) =>
    obtain ⟨d, n, m1, made, entered⟩ := exec_entered own (short_of_room own returned room) returned
    obtain ⟨small, aligned, -⟩ := made.stacked.top_bounds
    have total : stringBytes argv + 4 * (argv.length + 1) ≤ 4096 := entered.room
    have fits := entered.fits made.stacked.small
    have after : spAfter argv (topOf n) + stringBytes argv = 4096 * (n + 2) :=
      spAfter_of_fits small aligned fits
    have isVector : vectorIn argv (topOf n) =
        4096 * (n + 2) - stringBytes argv - 4 * (argv.length + 1) := rfl
    have place : vectorIn argv (topOf n) + 4 * (argv.length + 1) =
        spAfter argv (topOf n) := by omega
    have inPage : topOf n ≤ vectorIn argv (topOf n) + PTE_SZ := by
      show 4096 * (n + 2) ≤ _ + 4096
      omega
    have shows := entered.shows _ (shows_self m1 d (n + 2))
    have args := argsAt_placed small aligned fits place inPage (g := fun va =>
      if va < topOf n then m1.user d va else 0)
    rw [entered.task]
    refine ⟨rfl, rfl, ⟨_, args.congr ?_ fun x below => shows.inside x below⟩, ?_⟩
    · rw [place]
      show _ ≤ 4096 * (n + 2)
      omega
    · have index : topOf n / PTE_SZ - 2 = n := by
        show 4096 * (n + 2) / 4096 - 2 = n
        omega
      show entry t'.mem.words d (topOf n / PTE_SZ - 2) ≠ 0 ∧
        pteAp (entry t'.mem.words d (topOf n / PTE_SZ - 2)) = AP_KO
      rw [index]
      exact ⟨(entered.only n).2 (by omega), entered.guard⟩

/-- The page `k` is one of the pages of a segment. -/
def Proghdr.HasPage (ph : Proghdr) (k : Nat) : Prop :=
  ph.vaddr / PTE_SZ ≤ k ∧ PTE_SZ * k < ph.vaddr + ph.memsz

/-- **`exec` loads the image that the file describes**: the bytes of every segment are those of the
file and all others below the stack are zero, the program starts at its entry point, exactly the
pages below the size are mapped, each once, and to none that was in use before. -/
theorem exec_loads_image (own : Held S t.pgdir R t.mem) (short : ∀ s ∈ argv, s.length < UADDR_SZ)
    (noWrap : ∀ ph ∈ loadable (proghdrs f), ph.vaddr + ph.memsz < UINTS)
    (apart : (loadable (proghdrs f)).Pairwise fun p q => ∀ k, ¬ (p.HasPage k ∧ q.HasPage k))
    (returned : (exec junk path (some (ip, f)) argv t).leaf = .done 0 t') :
    (∀ ph ∈ loadable (proghdrs f), ph.vaddr + ph.memsz ≤ t'.sz - 2 * PTE_SZ ∧
      ∀ i < ph.filesz, ph.off + i < f.size ∧
        t'.mem.user t'.pgdir (ph.vaddr + i) = f.bytes.get (ph.off + i)) ∧
    (∀ va < t'.sz - 2 * PTE_SZ, (∀ ph ∈ loadable (proghdrs f), ¬ ph.Covers va) →
      t'.mem.user t'.pgdir va = 0) ∧
    t'.tf.pc = f.entry ∧
    (∀ k, entry t'.mem.words t'.pgdir k ≠ 0 ↔ PTE_SZ * k < t'.sz) ∧
    (∃ Q, Held S t'.pgdir Q t'.mem) ∧
    ∀ k, entry t'.mem.words t'.pgdir k ≠ 0 →
      (pageAt t'.mem.words t'.pgdir k, PTE_SHIFT) ∉ t.mem.outstanding := by
  obtain ⟨d, n, m1, made, entered⟩ := exec_entered own short returned
  obtain ⟨below, start⟩ := made.image noWrap
  have shows := entered.shows _ start
  have total : stringBytes argv + 4 * (argv.length + 1) ≤ 4096 := entered.room
  have fits := entered.fits made.stacked.small
  have isVector : vectorIn argv (topOf n) =
      4096 * (n + 2) - stringBytes argv - 4 * (argv.length + 1) := rfl
  -- the arguments are above the program
  have image : ∀ va < PTE_SZ * n, t'.mem.user d va =
      imageOf f (loadable (proghdrs f)) (fun _ => 0) va := by
    intro va low
    have low : va < 4096 * n := low
    rw [shows.inside va (by show va < 4096 * (n + 2); omega), placed_outside (by omega),
      withStrings_below fits (by show va < 4096 * (n + 1); omega)]
  have covered : (loadable (proghdrs f)).Pairwise fun p q => ∀ x, ¬ (p.Covers x ∧ q.Covers x) := by
    refine apart.imp_of_mem fun {p q} memberP memberQ noPage x both => noPage (x / 4096) ?_
    have pSize := (made.inFile p memberP).1
    have qSize := (made.inFile q memberQ).1
    obtain ⟨⟨p1, p2⟩, q1, q2⟩ := both
    refine ⟨⟨Nat.div_le_div_right p1, ?_⟩, Nat.div_le_div_right q1, ?_⟩
    · show 4096 * (x / 4096) < _
      omega
    · show 4096 * (x / 4096) < _
      omega
  have program : topOf n - 2 * PTE_SZ = PTE_SZ * n := by
    show 4096 * (n + 2) - 2 * 4096 = 4096 * n
    omega
  have isSz : t'.sz = topOf n := by rw [entered.task]; rfl
  have isDir : t'.pgdir = d := by rw [entered.task]; rfl
  rw [isSz, isDir, program]
  refine ⟨fun ph member => ⟨below ph member, fun i inside => ⟨?_, ?_⟩⟩, fun va low outside => ?_, ?_,
    fun k => ?_, ⟨_, entered.held⟩, entered.fresh⟩
  · have inFile := (made.inFile ph member).2 (by omega)
    omega
  · have size := (made.inFile ph member).1
    have end_ := below ph member
    rw [image _ (by omega)]
    exact imageOf_inside covered member inside
  · rw [image va low]
    exact imageOf_outside outside
  · rw [entered.task]
    rfl
  · rw [entered.only k]
    show k < n + 2 ↔ 4096 * k < 4096 * (n + 2)
    omega

/-! ## Pushing the arguments -/

/-- The arguments are pushed safely: every copy goes to addresses of the image below the stack
pointer, none meets a page table that is not there, and arguments that do not fit in the stack page
make `exec` return -1. -/
structure PushesSafely (path : List Byte) (f : FileBytes) (argv : Argv) (d top : Nat)
    (t : Task) : Prop where
  strings : ∀ before s after sp ustack m, argv = before ++ s :: after →
    pushStrings d before 0 top t.mem = .done (some (sp, ustack)) m →
    pushed sp s.length ≤ sp ∧ pushed sp s.length + (s.length + 1) ≤ top ∧
      ∃ ok m', Vm.copyout d (pushed sp s.length) (cstring s) m = .done ok m'
  vector : ∀ sp ustack m, pushStrings d argv 0 top t.mem = .done (some (sp, ustack)) m →
    vectorAt sp argv.length ≤ sp ∧ vectorAt sp argv.length + 4 * (argv.length + 1) ≤ top ∧
      ∃ ok m', Vm.copyout d (vectorAt sp argv.length) (vectorBytes ustack) m = .done ok m'
  refused : PTE_SZ < stringBytes argv + 4 * (argv.length + 1) →
    ∃ t', (execArgs path f argv d top t).leaf = .done (-1) t'

section Push

variable {m0 m : VMem} {d n : Nat}

/-- Strings that fit are pushed. -/
theorem Stacked.pushes (stacked : Stacked S m0 d n m) (few : argv.length ≤ MAXARG)
    (short : ∀ s ∈ argv, s.length < UADDR_SZ)
    (fits : Fits (PTE_SZ * (n + 1)) argv (topOf n)) :
    ∃ m', Exec.pushStrings d argv 0 (topOf n) m =
      .done (some (spAfter argv (topOf n), stringAddrs argv (topOf n))) m' := by
  obtain ⟨-, aligned, low⟩ := stacked.top_bounds
  have strings := Stacked.pushStrings argv 0 _ m stacked low le_rfl aligned (by decide) short
  match isRun : Exec.pushStrings d argv 0 (topOf n) m, strings with
  | .done (some (sp, ustack)) m', ⟨_, _, isSp, isUstack, _, _⟩ =>
    rw [← isSp, ← isUstack]
    exact ⟨m', rfl⟩
  | .done none m', ⟨noRoom, _, _⟩ => exact absurd ⟨(Nat.zero_add argv.length).symm ▸ few, fits⟩ noRoom
  | .fail e m', ⟨_, wraps⟩ =>
    rw [Nat.sub_zero, List.take_of_length_le few] at wraps
    exact absurd wraps fits.not_wraps

end Push

/-- **`exec` pushes the arguments safely** exactly if no string, after strings that fit in the stack
page, is as long as all that is left of the new image below the stack pointer. -/
theorem execArgs_safe_iff {d top : Nat} {t1 : Task} (own : Held S t.pgdir R t.mem)
    (image : (execImage ip f (begun ip t)).leaf = .done (some (d, top)) t1)
    (few : argv.length < MAXARG) (bounded : t.sz < UADDR_SZ) (short : ∀ s ∈ argv, s.length ≤ t.sz) :
    PushesSafely path f argv d top t1 ↔ ∀ before s after, argv = before ++ s :: after →
      stringBytes before ≤ PTE_SZ → s.length + stringBytes before < top := by
  have short' : ∀ s ∈ argv, s.length < UADDR_SZ := fun s member => (short s member).trans_lt bounded
  obtain ⟨m1, rfl, -, n, rfl, made⟩ := execImage_leaf own image
  have stacked := made.stacked
  obtain ⟨small, aligned, low⟩ := stacked.top_bounds
  constructor
  · intro safe before s after split room
    have short1 : ∀ s ∈ before, s.length < UADDR_SZ := fun s member =>
      short' s (split ▸ List.mem_append_left _ member)
    have few1 : before.length ≤ MAXARG := by
      rw [split, List.length_append] at few
      omega
    have fits := (fits_stack_iff stacked.small).2 room
    have after := spAfter_of_fits small aligned fits
    obtain ⟨m', run⟩ := stacked.pushes few1 short1 fits
    obtain ⟨noWrap, -⟩ := safe.strings before s _ _ _ _ split run
    by_contra long
    have isString : s ∈ argv := split ▸ List.mem_append_right _ List.mem_cons_self
    have high := pushed_of_wrap (by omega : spAfter before (topOf n) ≤ s.length)
      (short' s isString)
    have small' : 4096 * (n + 2) < 268435456 := stacked.small
    have high : 4294967296 - 268435456 ≤ pushed (spAfter before (topOf n)) s.length := high
    have after : spAfter before (topOf n) + stringBytes before = 4096 * (n + 2) := after
    omega
  · intro condition
    have reached : ∀ before sp ustack m, (∀ s ∈ before, s.length < UADDR_SZ) →
        pushStrings d before 0 (topOf n) m1 = .done (some (sp, ustack)) m →
        Stacked S t.mem d n m ∧ stringBytes before ≤ PTE_SZ ∧ ustack.length = before.length ∧
          sp + stringBytes before = topOf n := by
      intro before sp ustack m short1 run
      have strings := Stacked.pushStrings before 0 _ m1 stacked low le_rfl aligned (by decide) short1
      rw [run] at strings
      obtain ⟨-, fits, rfl, rfl, stacked', -⟩ := strings
      exact ⟨stacked', (fits_stack_iff stacked.small).1 fits, length_stringAddrs .., spAfter_of_fits small aligned fits⟩
    refine ⟨fun before s after sp ustack m split run => ?_, fun sp ustack m run => ?_, fun tooMuch => ?_⟩
    · obtain ⟨stacked', room, -, isSp⟩ := reached before sp ustack m
        (fun s member => short' s (split ▸ List.mem_append_left _ member)) run
      have fewer := condition before s after split room
      have isSp : sp + stringBytes before = 4096 * (n + 2) := isSp
      have fewer : s.length + stringBytes before < 4096 * (n + 2) := fewer
      have room : stringBytes before ≤ 4096 := room
      have words := stringBytes_mod before
      obtain ⟨eq, -⟩ := pushed_of_lt (by omega : s.length < sp) (lt_of_le_of_lt (by omega) small)
        (by omega)
      have ends : PTE_SZ * (n + 1) ≤ pushed sp s.length + (cstring s).length + 3 := by
        rw [length_cstring]
        show 4096 * (n + 1) ≤ _
        omega
      have inside : pushed sp s.length + (cstring s).length ≤ topOf n := by
        rw [length_cstring]
        show _ ≤ 4096 * (n + 2)
        omega
      obtain ⟨ok, m', copied, -⟩ := stacked'.copyout (cstring_ne_nil s) ends inside
      rw [length_cstring] at inside
      exact ⟨by omega, inside, ok, m', copied⟩
    · obtain ⟨stacked', room, count, isSp⟩ := reached argv sp ustack m short' run
      have isSp' : sp + stringBytes argv = 4096 * (n + 2) := isSp
      have room : stringBytes argv ≤ 4096 := room
      have high : sp ≤ topOf n := by omega
      obtain ⟨place, ok, m', copied, -⟩ := stacked'.vector
        (by show 4096 * (n + 1) ≤ sp; omega) high few.le count
      exact ⟨by omega, place.le.trans high, ok, m', copied⟩
    · have noWraps : ¬ Wraps (PTE_SZ * (n + 1)) argv (topOf n) := by
        intro wraps
        obtain ⟨before, s, after, split, fits, long⟩ := wraps.first
        have fewer := condition before s after split ((fits_stack_iff stacked.small).1 fits)
        have isSp := spAfter_of_fits small aligned fits
        omega
      have noWrap : argsVerdict argv (topOf n) ≠ .wraps := by
        rw [argsVerdict_eq, List.take_of_length_le few.le, if_neg noWraps]
        split <;> exact Verdict.noConfusion
      obtain ⟨r, t', returned, done⟩ := (Stacked.execArgs path f (D := Contract.total)
        (t := { t with mem := m1, locked := upd t.locked ip false }) (fun _ _ => trivial) stacked own
        short' fun wraps => absurd wraps noWrap).returns
      rcases done with ⟨rfl, -⟩ | ⟨-, -, entered⟩
      · exact ⟨t', returned⟩
      · exact absurd entered.room (Nat.not_le.2 tooMuch)

end Spec

/-! ## A process that calls it -/

/-- A process with three pages. -/
def ThreePages (d : Nat) (m : VMem) : Prop :=
  ∃ km mem m0, smallHeap = .ok km ∧ (onePage 0 (VMem.booted km fewTables [])).leaf = .done (d, mem) m0 ∧
    (allocuvm d 4096 12288 m0).leaf = .done 12288 m

def caller (d : Nat) (m : VMem) : Task where
  mem := m
  pgdir := d
  sz := 12288
  name := []
  cwd := some 1
  tf := ⟨0, 0, 0, 0, 0, 0, fun _ => 0, 0⟩
  irefs := fun _ => 0
  locked := fun _ => false

/-- The words of an ELF file that has nothing but headers. -/
def elfWords (headers : List Proghdr) : List Nat :=
  [FileBytes.ELF_MAGIC, 0, 0, 0, 0, 0, 0, FileBytes.ELFHDR_SZ, 0, 0, 0, headers.length, 0] ++
    headers.flatMap fun ph => [ph.type, ph.off, ph.vaddr, 0, ph.filesz, ph.memsz, 0, 0]

/-- An ELF file whose segments are parts of its headers. -/
def elf (headers : List Proghdr) (few : headers.length ≤ 100) : FileBytes where
  size := FileBytes.ELFHDR_SZ + FileBytes.PROGHDR_SZ * headers.length
  bytes := fun j => Bytes.byteAt ((elfWords headers).getD (j / 4) 0) (j % 4)
  fits := by
    show 52 + 32 * headers.length ≤ 71680
    omega

/-- A file with one segment. -/
def oneSegment (off vaddr filesz memsz : Nat) : FileBytes :=
  elf [⟨FileBytes.ELF_PROG_LOAD, off, vaddr, filesz, memsz⟩] (by show 1 ≤ 100; decide)

/-- A file with a program of two pages. -/
def twoPages : FileBytes := oneSegment 0 0 84 5000

/-- A file with code and data. -/
def twoSegments : FileBytes :=
  elf [⟨FileBytes.ELF_PROG_LOAD, 0, 0, 100, 200⟩, ⟨FileBytes.ELF_PROG_LOAD, 52, 4096, 64, 5000⟩]
    (by decide)

/-- A file that is all header. -/
def noProgram : FileBytes := elf [] (by decide)

-- the sizes are not to be computed here
attribute [local irreducible] Vm.allocuvm

/-- Give a directory with one page two more, and check it. -/
def checksMore (check : Nat → VMem → Bool) (d : Nat) (m : VMem) : Bool :=
  match (allocuvm d 4096 12288 m).leaf with
  | .done sz m' => sz == 12288 && check d m'
  | _ => false

/-- A process with three pages that passes a check can be made. -/
theorem exists_caller (check : Nat → VMem → Bool) (works : checksOnePage 0 (checksMore check) = true) :
    ∃ d m S, ThreePages d m ∧ Held S d ∅ m ∧ check d m = true := by
  obtain ⟨km, d, mem, m, S, ready, made, held, only, grows⟩ :=
    exists_onePage 0 (by decide) (checksMore check) works
  unfold checksMore at grows
  split at grows
  case h_2 => cases grows
  case h_1 sz m' grown =>
    rw [Bool.and_eq_true, beq_iff_eq] at grows
    obtain ⟨rfl, checked⟩ := grows
    have empty : ∀ k, pages 4096 ≤ k → k < pages 12288 → entry m.words d k = 0 := by
      intro k above _
      have above : (4096 + 4095) / 4096 ≤ k := above
      by_contra some_
      have := (only k).1 some_
      omega
    have more : Sat (vmContract fun _ => False) _ (allocuvm d 4096 12288 m) :=
      held.allocuvm (by decide) empty fun _ _ => trivial
    have leaf := more.leaf fun _ _ => trivial
    rw [grown] at leaf
    exact ⟨d, m', S, ⟨km, mem, m, ready, made, grown⟩, leaf.1, checked⟩

/-- Two short arguments are pushed safely. -/
theorem execArgs_safe_two : ∃ d m S d' t1, ThreePages d m ∧ Held S d ∅ m ∧
    (execImage 5 twoPages (begun 5 (caller d m))).leaf = .done (some (d', 16384)) t1 ∧
    PushesSafely [] twoPages [[1, 2, 3], [4, 5]] d' 16384 t1 := by
  obtain ⟨d, m, S, made, held, image⟩ := exists_caller (fun d m =>
    (execImage 5 twoPages (begun 5 (caller d m))).passes fun res _ => res.any (·.2 == 16384))
    (by decide +kernel)
  obtain ⟨res, t1, leaf, isTop⟩ := Outcome.exists_of_passes image
  obtain ⟨⟨d', top⟩, rfl, isTop⟩ := (Option.any_eq_true _ _).1 isTop
  obtain rfl : top = 16384 := beq_iff_eq.1 isTop
  refine ⟨d, m, S, d', t1, made, held, leaf, (execArgs_safe_iff held leaf (by decide)
    (by decide : 12288 < UADDR_SZ) ?_).2 fun before s after split room => ?_⟩
  · show ∀ s ∈ [[1, 2, 3], [4, 5]], s.length ≤ 12288
    decide
  · have short : ∀ s ∈ ([[1, 2, 3], [4, 5]] : Argv), s.length ≤ 3 := by decide
    have := short s (split ▸ List.mem_append_right _ List.mem_cons_self)
    have room : stringBytes before ≤ 4096 := room
    omega

/-- A string of 9000 bytes does not fit into an image of two pages: the stack pointer wraps around
and `copyout` leaves the directory. -/
theorem execArgs_wraps_9000 : ∃ d m S d' t1, ThreePages d m ∧ Held S d ∅ m ∧
    (execImage 5 noProgram (begun 5 (caller d m))).leaf = .done (some (d', 8192)) t1 ∧
    9000 ≤ (caller d m).sz ∧ UADDR_SZ ≤ pushed 8192 9000 ∧
    Vm.copyout d' (pushed 8192 9000) (cstring (List.replicate 9000 1)) t1.mem =
      .fail .overrun t1.mem ∧
    (exec 0 [] (some (5, noProgram)) [List.replicate 9000 1] (caller d m)).failure? =
      some .overrun := by
  obtain ⟨d, m, S, made, held, checked⟩ := exists_caller (fun d m =>
    (execImage 5 noProgram (begun 5 (caller d m))).passes (fun res _ => res.any (·.2 == 8192)) &&
    decide ((exec 0 [] (some (5, noProgram)) [List.replicate 9000 1] (caller d m)).failure? =
      some .overrun)) (by decide +kernel)
  rw [Bool.and_eq_true, decide_eq_true_eq] at checked
  obtain ⟨image, fails⟩ := checked
  obtain ⟨res, t1, leaf, isTop⟩ := Outcome.exists_of_passes image
  obtain ⟨⟨d', top⟩, rfl, isTop⟩ := (Option.any_eq_true _ _).1 isTop
  obtain rfl : top = 8192 := beq_iff_eq.1 isTop
  have past : UADDR_SZ ≤ pushed 8192 9000 := by decide
  exact ⟨d, m, S, d', t1, made, held, leaf, (by decide : 9000 ≤ 12288), past,
    copyout_past (cstring_ne_nil _) past, fails⟩

/-- An image that is made, and given up for an argument that does not fit in the stack page. -/
theorem exec_fails_cleanly_abandoned : ∃ d m S a, ThreePages d m ∧ Held S d ∅ m ∧
    makes twoPages m.supply = .ok (16384, a) ∧
    ∃ t', (exec 7 [] (some (5, twoPages)) [List.replicate 5000 1] (caller d m)).leaf = .done (-1) t' ∧
      Unchanged (some (5, twoPages)) (caller d m) t' := by
  obtain ⟨d, m, S, made, held, checked⟩ := exists_caller (fun d m =>
    decide ((exec 7 [] (some (5, twoPages)) [List.replicate 5000 1] (caller d m)).value? = some (-1)) &&
    match makes twoPages m.supply with
    | .ok (top, _) => top == 16384
    | .error _ => false) (by decide +kernel)
  rw [Bool.and_eq_true, decide_eq_true_eq] at checked
  obtain ⟨returned, top⟩ := checked
  split at top
  case h_2 => cases top
  case h_1 top' a image =>
    obtain rfl : top' = 16384 := beq_iff_eq.1 top
    have short : ∀ s ∈ [List.replicate 5000 (1 : Byte)], s.length < UADDR_SZ := by
      intro s member
      rw [List.mem_singleton.1 member, List.length_replicate]
      decide
    have noSpill : ¬ Spills [List.replicate 5000 (1 : Byte)] := by
      rintro ⟨-, fits, -⟩
      rw [stringBytes_cons, List.length_replicate] at fits
      exact absurd fits (by decide)
    have held : Held S (caller d m).pgdir ∅ (caller d m).mem := held
    have clean : ∀ t', (exec 7 [] (some (5, twoPages)) [List.replicate 5000 1] (caller d m)).leaf =
        .done (-1) t' → Unchanged (some (5, twoPages)) (caller d m) t' := by
      refine ((exec_fails_cleanly_iff held short).2 fun ip f isNode => ?_).2
      obtain ⟨-, rfl⟩ := Prod.mk.inj (Option.some.inj isNode)
      exact ⟨fun never => absurd never (by decide), fun _ _ _ _ spills => absurd spills noSpill⟩
    have leaf := Outcome.leaf_of_value? returned
    exact ⟨d, m, S, a, made, held, image, _, leaf, clean _ leaf⟩

/-- One string of 4091 bytes fills the stack page: `exec` returns -1 and has set `r0`.  And a file
that is no program makes it free whatever `pgdir` holds. -/
theorem exec_fails_with_registers : ∃ d m S, ThreePages d m ∧ Held S d ∅ m ∧
    (∃ t', (exec 0 [] (some (5, twoPages)) [List.replicate 4091 1] (caller d m)).leaf = .done (-1) t' ∧
      t'.tf.r0 = 1 ∧ (caller d m).tf.r0 = 0) ∧
    (exec 1 [] (some (5, ⟨0, fun _ => 0, by decide⟩)) [] (caller d m)).failure? = some .wild := by
  obtain ⟨d, m, S, made, held, checked⟩ := exists_caller (fun d m =>
    (exec 0 [] (some (5, twoPages)) [List.replicate 4091 1] (caller d m)).passes fun r t' =>
      r == -1 && t'.tf.r0 == 1) (by decide +kernel)
  obtain ⟨r, t', returned, checked⟩ := Outcome.exists_of_passes checked
  rw [Bool.and_eq_true, beq_iff_eq, beq_iff_eq] at checked
  obtain ⟨rfl, r0⟩ := checked
  exact ⟨d, m, S, made, held, ⟨t', returned, r0, rfl⟩, rfl⟩

/-- Two arguments, as they are found. -/
theorem exec_delivers_two : ∃ d m S t', ThreePages d m ∧ Held S d ∅ m ∧
    (exec 0 [] (some (5, twoPages)) [[1, 2, 3], [4, 5]] (caller d m)).leaf = .done 0 t' ∧
    t'.tf.r0 = 2 ∧ ∃ ustack, ArgsAt (t'.mem.user t'.pgdir) 16384 [[1, 2, 3], [4, 5]] t'.tf.r1 ustack := by
  obtain ⟨d, m, S, made, held, checked⟩ := exists_caller (fun d m =>
    (exec 0 [] (some (5, twoPages)) [[1, 2, 3], [4, 5]] (caller d m)).passes fun r t' =>
      r == 0 && t'.sz == 16384) (by decide +kernel)
  obtain ⟨r, t', returned, checked⟩ := Outcome.exists_of_passes checked
  rw [Bool.and_eq_true, beq_iff_eq, beq_iff_eq] at checked
  obtain ⟨rfl, isSz⟩ := checked
  obtain ⟨r0, -, args, -, -⟩ := exec_delivers_argv (t := caller d m) held returned
    (by rw [isSz]; decide)
  rw [isSz] at args
  exact ⟨d, m, S, t', made, held, returned, r0, args⟩

/-- Code and data, as they are loaded, and a zero after the code. -/
theorem exec_loads_two : ∃ d m S t', ThreePages d m ∧ Held S d ∅ m ∧
    (exec 0 [] (some (5, twoSegments)) [] (caller d m)).leaf = .done 0 t' ∧
    (∀ i < 100, t'.mem.user t'.pgdir i = twoSegments.bytes.get i) ∧
    (∀ i < 64, t'.mem.user t'.pgdir (4096 + i) = twoSegments.bytes.get (52 + i)) ∧
    t'.mem.user t'.pgdir 150 = 0 ∧ ∀ k, entry t'.mem.words t'.pgdir k ≠ 0 ↔ k < 5 := by
  obtain ⟨d, m, S, made, held, checked⟩ := exists_caller (fun d m =>
    (exec 0 [] (some (5, twoSegments)) [] (caller d m)).passes fun r t' => r == 0 && t'.sz == 20480)
    (by decide +kernel)
  obtain ⟨r, t', returned, checked⟩ := Outcome.exists_of_passes checked
  rw [Bool.and_eq_true, beq_iff_eq, beq_iff_eq] at checked
  obtain ⟨rfl, isSz⟩ := checked
  have segments : loadable (proghdrs twoSegments) = [⟨1, 0, 0, 100, 200⟩, ⟨1, 52, 4096, 64, 5000⟩] := by
    decide +kernel
  have apart : (loadable (proghdrs twoSegments)).Pairwise fun p q =>
      ∀ k, ¬ (p.HasPage k ∧ q.HasPage k) := by
    rw [segments]
    refine List.pairwise_pair.2 ?_
    rintro k ⟨⟨-, first⟩, second, -⟩
    have first : 4096 * k < 0 + 200 := first
    have second : 4096 / 4096 ≤ k := second
    omega
  obtain ⟨image, zeros, -, only, -⟩ := exec_loads_image (t := caller d m) held (by decide)
    (by rw [segments]; decide) apart returned
  rw [segments] at image zeros
  rw [isSz] at zeros only
  refine ⟨d, m, S, t', made, held, returned, fun i inside => ?_, fun i inside => ?_, ?_, fun k => ?_⟩
  · have here := ((image _ List.mem_cons_self).2 i inside).2
    simpa using here
  · exact ((image _ (List.mem_cons_of_mem _ List.mem_cons_self)).2 i inside).2
  · refine zeros 150 (by decide) fun ph member covers => ?_
    rcases List.mem_pair.1 member with rfl | rfl
    · exact absurd covers.2 (by decide)
    · exact absurd covers.1 (by decide)
  · rw [only]
    show 4096 * k < 20480 ↔ k < 5
    omega

end Xv6Rpi.Proc.Exec
