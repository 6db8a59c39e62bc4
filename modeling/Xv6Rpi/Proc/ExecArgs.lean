/-
# Proc.ExecArgs -- arguments on the new stack

`exec` pushes the strings downwards from the top of the stack page, then the vector of their
addresses.  Nothing checks the stack pointer before it is used.  A string that reaches below the
stack page, but not below 0, reaches the page under it as well, which is not the user's, so
`copyout` refuses it.  A string longer than everything below the stack pointer makes it wrap
around (`Wraps`), and `copyout` then looks for a page table past the end of the directory.
-/
import Xv6Rpi.Proc.ExecLoad

namespace Xv6Rpi.Proc.Exec

open Theory
open Proc.Vm
open Kernel (upd upd_same upd_ne)

set_option autoImplicit false

/-! ## Where the strings go -/

/-- The stack pointer after the strings. -/
def spAfter (argv : Argv) (sp : Nat) : Nat :=
  argv.foldl (fun sp s => pushed sp s.length) sp

/-- The addresses of the strings. -/
def stringAddrs : Argv → Nat → List Nat
  | [], _ => []
  | s :: rest, sp => pushed sp s.length :: stringAddrs rest (pushed sp s.length)

/-- The contents of memory with the strings in it. -/
def withStrings (argv : Argv) (sp : Nat) (g : Nat → Byte) : Nat → Byte :=
  (argv.zip (stringAddrs argv sp)).foldl (fun g x => placed g x.2 (cstring x.1)) g

/-- The strings fit between `base` and the stack pointer. -/
def Fits (base : Nat) : Argv → Nat → Prop
  | [], _ => True
  | s :: rest, sp =>
    s.length < sp ∧ base ≤ pushed sp s.length ∧ Fits base rest (pushed sp s.length)

section Layout

variable {base sp len : Nat} {argv : Argv}

@[simp] theorem stringBytes_nil : stringBytes [] = 0 := rfl

@[simp] theorem stringBytes_cons (s : List Byte) (rest : Argv) :
    stringBytes (s :: rest) = (s.length / 4 + 1) * 4 + stringBytes rest := by
  simp [stringBytes]

theorem stringBytes_mod (argv : Argv) : stringBytes argv % 4 = 0 := by
  induction argv with
  | nil => rfl
  | cons s rest ih =>
    rw [stringBytes_cons]
    omega

theorem pushed_of_lt (below : len < sp) (small : sp < UINTS) (aligned : sp % 4 = 0) :
    pushed sp len + (len / 4 + 1) * 4 = sp ∧ pushed sp len < UINTS ∧ pushed sp len % 4 = 0 := by
  have small : sp < 4294967296 := small
  have isPushed : pushed sp len = (sp + 4294967296 - (len + 1)) % 4294967296 / 4 * 4 := rfl
  omega

theorem pushed_of_wrap (wraps : sp ≤ len) (short : len < UADDR_SZ) :
    UINTS - UADDR_SZ ≤ pushed sp len := by
  have short : len < 268435456 := short
  have isPushed : pushed sp len = (sp + 4294967296 - (len + 1)) % 4294967296 / 4 * 4 := rfl
  show 4294967296 - 268435456 ≤ pushed sp len
  omega

@[simp] theorem spAfter_cons (s : List Byte) (rest : Argv) (sp : Nat) :
    spAfter (s :: rest) sp = spAfter rest (pushed sp s.length) := by
  -- by rewriting: comparing the two sides would compute with 2 ^ 32
  rw [spAfter, spAfter, List.foldl_cons]

@[simp] theorem withStrings_cons (s : List Byte) (rest : Argv) (sp : Nat) (g : Nat → Byte) :
    withStrings (s :: rest) sp g =
      withStrings rest (pushed sp s.length) (placed g (pushed sp s.length) (cstring s)) := by
  rw [withStrings, withStrings, stringAddrs, List.zip_cons_cons, List.foldl_cons]

/-- The strings fit if the bytes that they take do. -/
theorem fits_iff (positive : 0 < base) (small : sp < UINTS) (aligned : sp % 4 = 0) (low : base ≤ sp) :
    Fits base argv sp ↔ base + stringBytes argv ≤ sp := by
  induction argv generalizing sp with
  | nil => simp [Fits, low]
  | cons s rest ih =>
    rw [Fits, stringBytes_cons]
    constructor
    · rintro ⟨below, low', fits⟩
      obtain ⟨eq, small', aligned'⟩ := pushed_of_lt below small aligned
      have rest' := (ih small' aligned' low').1 fits
      omega
    · intro room
      have below : s.length < sp := by omega
      obtain ⟨eq, small', aligned'⟩ := pushed_of_lt below small aligned
      exact ⟨below, by omega, (ih small' aligned' (by omega)).2 (by omega)⟩

theorem spAfter_of_fits (small : sp < UINTS) (aligned : sp % 4 = 0) (fits : Fits base argv sp) :
    spAfter argv sp + stringBytes argv = sp := by
  induction argv generalizing sp with
  | nil => rfl
  | cons s rest ih =>
    obtain ⟨below, -, fits'⟩ := fits
    obtain ⟨eq, small', aligned'⟩ := pushed_of_lt below small aligned
    have rest' := ih small' aligned' fits'
    rw [spAfter_cons, stringBytes_cons]
    omega

theorem length_stringAddrs (argv : Argv) (sp : Nat) :
    (stringAddrs argv sp).length = argv.length := by
  induction argv generalizing sp with
  | nil => rfl
  | cons s rest ih => simp only [stringAddrs, List.length_cons, ih]

/-- The first string that wraps around. -/
theorem Wraps.first (wraps : Wraps base argv sp) : ∃ before s after, argv = before ++ s :: after ∧
    Fits base before sp ∧ spAfter before sp ≤ s.length := by
  induction argv generalizing sp with
  | nil => exact wraps.elim
  | cons s rest ih =>
    by_cases here : sp ≤ s.length
    · exact ⟨[], s, rest, rfl, trivial, here⟩
    · obtain ⟨low, later⟩ := wraps.resolve_left here
      obtain ⟨before, s', after, split, fits, long⟩ := ih later
      refine ⟨s :: before, s', after, ?_, ⟨Nat.not_le.1 here, low, fits⟩, ?_⟩
      · rw [split, List.cons_append]
      · rwa [spAfter_cons]

theorem Fits.not_wraps (fits : Fits base argv sp) : ¬ Wraps base argv sp := by
  induction argv generalizing sp with
  | nil => exact id
  | cons s rest ih =>
    rintro (here | ⟨-, later⟩)
    · exact absurd fits.1 (Nat.not_lt.2 here)
    · exact ih fits.2.2 later

end Layout

/-! ## Copying to the stack -/

section Push

variable {S : Setup} {m0 m m' : VMem} {d n : Nat}

/-- What a copy to the stack comes to. -/
structure StackCopy (S : Setup) (m0 : VMem) (d n va : Nat) (data : List Byte) (m : VMem) (ok : Bool)
    (m' : VMem) : Prop where
  stacked : Stacked S m0 d n m'
  done : ok = true ↔ PTE_SZ * (n + 1) ≤ va
  shows : ok = true → ∀ g, Shows m d (n + 2) g → Shows m' d (n + 2) (placed g va data)

/-- **A copy that ends in the stack page** succeeds exactly if all of it is there. -/
theorem Stacked.copyout (stacked : Stacked S m0 d n m) {va : Nat} {data : List Byte}
    (some_ : data ≠ []) (ends : PTE_SZ * (n + 1) ≤ va + data.length + 3)
    (fits : va + data.length ≤ topOf n) :
    ∃ ok m', Vm.copyout d va data m = .done ok m' ∧ StackCopy S m0 d n va data m ok m' := by
  obtain ⟨ok, b, run, copied⟩ :=
    stacked.built.held.copyout stacked.built.few stacked.built.reaches fits
  have ends' : 4096 * (n + 1) ≤ va + data.length + 3 := ends
  have fits' : va + data.length ≤ 4096 * (n + 2) := fits
  refine ⟨ok, _, run, ⟨stacked.built.rebyte copied.others, stacked.tidy, stacked.small,
    stacked.guard, stacked.stack⟩, ?_, fun isOk g shows => ?_⟩
  · rw [copied.done, or_iff_right some_]
    constructor
    · intro writable
      by_contra below
      have below : ¬ 4096 * (n + 1) ≤ va := below
      -- it touches the page below the stack
      refine stacked.notUser (writable n ?_ ?_)
      · show va < 4096 * (n + 1)
        omega
      · show 4096 * n < va + data.length
        omega
    · intro above k after before
      have above : 4096 * (n + 1) ≤ va := above
      have after : va < 4096 * (k + 1) := after
      have before : 4096 * k < va + data.length := before
      obtain rfl : k = n + 1 := by omega
      exact stacked.stack
  · exact shows_placed stacked.built shows fits (copied.user isOk)

/-- A copy to an address past those of the user. -/
theorem copyout_past {va : Nat} {data : List Byte} (some_ : data ≠ []) (past : UADDR_SZ ≤ va) :
    Vm.copyout d va data m = .fail .overrun m := by
  obtain ⟨head, tail, rfl⟩ := List.exists_cons_of_ne_nil some_
  have past : 268435456 ≤ va := past
  have start : va / PTE_SZ * PTE_SZ = PTE_SZ * (va / 4096) := Nat.mul_comm _ _
  rw [Vm.copyout, List.length_cons, copyoutLoop, List.isEmpty_cons, if_neg Bool.false_ne_true]
  simp only [start, Act.bind_apply, uva2ka_past (show 65536 ≤ va / 4096 by omega), Outcome.fail_bind]

theorem cstring_ne_nil (s : List Byte) : cstring s ≠ [] := by simp [cstring]

theorem length_cstring (s : List Byte) : (cstring s).length = s.length + 1 := by simp [cstring]

/-- What pushing the strings comes to: they are there, they do not fit, or the stack pointer has
wrapped around.  Strings past the last that can be passed are not looked at. -/
def StringsPushed (S : Setup) (m0 : VMem) (d n : Nat) (argv : Argv) (argc sp : Nat)
    (m : VMem) : Outcome VMem VmPanic VmEvent (Option (Nat × List Nat)) → Prop
  | .done (some (sp', ustack)) m' =>
    argc + argv.length ≤ MAXARG ∧ Fits (PTE_SZ * (n + 1)) argv sp ∧ sp' = spAfter argv sp ∧
      ustack = stringAddrs argv sp ∧ Stacked S m0 d n m' ∧
      ∀ g, Shows m d (n + 2) g → Shows m' d (n + 2) (withStrings argv sp g)
  | .done none m' =>
    ¬ (argc + argv.length ≤ MAXARG ∧ Fits (PTE_SZ * (n + 1)) argv sp) ∧
      ¬ Wraps (PTE_SZ * (n + 1)) (argv.take (MAXARG - argc)) sp ∧ Stacked S m0 d n m'
  | .fail e _ => e = .overrun ∧ Wraps (PTE_SZ * (n + 1)) (argv.take (MAXARG - argc)) sp
  | _ => False

/-- **The strings are pushed** as long as they fit in the stack page. -/
theorem Stacked.pushStrings : ∀ (argv : Argv) (argc sp : Nat) (m : VMem),
    Stacked S m0 d n m → PTE_SZ * (n + 1) ≤ sp → sp ≤ topOf n → sp % 4 = 0 →
    argc ≤ MAXARG → (∀ s ∈ argv, s.length < UADDR_SZ) →
    StringsPushed S m0 d n argv argc sp m (Exec.pushStrings d argv argc sp m) := by
  intro argv
  induction argv with
  | nil =>
    intro argc sp m stacked low high aligned most short
    exact ⟨most, trivial, rfl, rfl, stacked, fun _ => id⟩
  | cons s rest ih =>
    intro argc sp m stacked low high aligned most short
    have few := stacked.built.few
    have high' : sp ≤ 4096 * (n + 2) := high
    have small : sp < UINTS := by
      show sp < 4294967296
      omega
    rw [Exec.pushStrings]
    by_cases many : MAXARG ≤ argc
    · rw [if_pos many]
      refine ⟨fun both => ?_, ?_, stacked⟩
      · have fewer := both.1
        rw [List.length_cons] at fewer
        omega
      · rw [Nat.sub_eq_zero_of_le many]
        exact id
    rw [if_neg many]
    have more : MAXARG - argc = (MAXARG - (argc + 1)) + 1 := by omega
    unfold StringsPushed
    rw [more, List.take_succ_cons]
    by_cases wraps : sp ≤ s.length
    · have past : UADDR_SZ ≤ pushed sp s.length :=
        le_trans (by decide) (pushed_of_wrap wraps (short s List.mem_cons_self))
      rw [Act.bind_apply, copyout_past (cstring_ne_nil s) past, Outcome.fail_bind]
      exact ⟨rfl, Or.inl wraps⟩
    have below : s.length < sp := Nat.not_le.1 wraps
    obtain ⟨eq, small', aligned'⟩ := pushed_of_lt below small aligned
    have ends : PTE_SZ * (n + 1) ≤ pushed sp s.length + (cstring s).length + 3 := by
      rw [length_cstring]
      omega
    have inside : pushed sp s.length + (cstring s).length ≤ topOf n := by
      rw [length_cstring]
      exact le_trans (by omega) high
    obtain ⟨ok, m1, run, copied⟩ := stacked.copyout (cstring_ne_nil s) ends inside
    rw [Act.bind_apply, run, Outcome.done_bind]
    cases ok with
    | false =>
      refine ⟨fun both => ?_, ?_, copied.stacked⟩
      · exact Bool.false_ne_true (copied.done.2 both.2.2.1)
      · rintro (here | ⟨low', -⟩)
        · exact wraps here
        · exact Bool.false_ne_true (copied.done.2 low')
    | true =>
      have low' := copied.done.1 rfl
      have next := ih (argc + 1) (pushed sp s.length) m1 copied.stacked low'
        (le_trans (by omega) high) aligned' (Nat.lt_of_not_le many)
        fun s' member => short s' (List.mem_cons_of_mem _ member)
      have count : argc + 1 + rest.length = argc + (s :: rest).length := by
        rw [List.length_cons]
        omega
      rw [if_pos rfl, Act.bind_apply]
      match isNext : Exec.pushStrings d rest (argc + 1) (pushed sp s.length) m1, next with
      | .done (some (sp', ustack)) m', next =>
        obtain ⟨most', fits, rfl, rfl, stacked', shows⟩ := next
        refine ⟨count ▸ most', ⟨below, low', fits⟩, (spAfter_cons ..).symm, rfl, stacked',
          fun g start => ?_⟩
        rw [withStrings_cons]
        exact shows _ (copied.shows rfl g start)
      | .done none m', next =>
        obtain ⟨noRoom, noWrap, stacked'⟩ := next
        exact ⟨fun both => noRoom ⟨count ▸ both.1, both.2.2.2⟩,
          fun here => here.elim wraps fun later => noWrap later.2, stacked'⟩
      | .fail e m', next => exact ⟨next.1, Or.inr ⟨low', next.2⟩⟩

theorem vectorAt_of_le {sp argc : Nat} (room : 4 * (argc + 1) ≤ sp) (small : sp < UINTS) :
    vectorAt sp argc + 4 * (argc + 1) = sp := by
  have small : sp < 4294967296 := small
  show (sp + 4294967296 - (argc + 1) * 4) % 4294967296 + 4 * (argc + 1) = sp
  omega

theorem length_wordBytes (x : Nat) : (wordBytes x).length = 4 := by simp [wordBytes]

theorem length_flatMap_wordBytes (words : List Nat) :
    (words.flatMap wordBytes).length = 4 * words.length := by
  induction words with
  | nil => rfl
  | cons x rest ih =>
    rw [List.flatMap_cons, List.length_append, length_wordBytes, ih, List.length_cons]
    omega

theorem length_vectorBytes (ustack : List Nat) :
    (vectorBytes ustack).length = 4 * (ustack.length + 1) := by
  rw [vectorBytes, length_flatMap_wordBytes, List.length_append, List.length_singleton]

/-- **The vector of the addresses** is pushed if it fits below the strings. -/
theorem Stacked.vector (stacked : Stacked S m0 d n m) {sp argc : Nat} {ustack : List Nat}
    (low : PTE_SZ * (n + 1) ≤ sp) (high : sp ≤ topOf n) (most : argc ≤ MAXARG)
    (count : ustack.length = argc) :
    vectorAt sp argc + 4 * (argc + 1) = sp ∧
    ∃ ok m', Vm.copyout d (vectorAt sp argc) (vectorBytes ustack) m = .done ok m' ∧
      StackCopy S m0 d n (vectorAt sp argc) (vectorBytes ustack) m ok m' := by
  have few := stacked.built.few
  have low' : 4096 * (n + 1) ≤ sp := low
  have high' : sp ≤ 4096 * (n + 2) := high
  have most : argc ≤ 32 := most
  have small : sp < UINTS := by
    show sp < 4294967296
    omega
  have place : vectorAt sp argc + 4 * (argc + 1) = sp := vectorAt_of_le (by omega) small
  have length : (vectorBytes ustack).length = 4 * (argc + 1) := by
    rw [length_vectorBytes, count]
  refine ⟨place, stacked.copyout (fun none_ => ?_) ?_ ?_⟩
  · rw [none_] at length
    cases length
  · rw [length, place]
    exact low.trans (Nat.le_add_right _ _)
  · rw [length, place]
    exact high

end Push

/-! ## What the new program finds -/

/-- `data` stands at `a`. -/
def Stands (f : Nat → Byte) (a : Nat) (data : List Byte) : Prop :=
  ∀ i (inside : i < data.length), f (a + i) = data[i]

/-- The word at `a`. -/
def wordAt (f : Nat → Byte) (a : Nat) : Nat :=
  (f a).toNat + 256 * ((f (a + 1)).toNat + 256 * ((f (a + 2)).toNat + 256 * (f (a + 3)).toNat))

section Find

variable {f g : Nat → Byte} {a base sp : Nat} {data : List Byte} {argv : Argv}

theorem stands_placed (f : Nat → Byte) (a : Nat) (data : List Byte) :
    Stands (placed f a data) a data :=
  fun _ inside => placed_inside inside

theorem Stands.congr (stands : Stands f a data)
    (same : ∀ x, a ≤ x → x < a + data.length → g x = f x) : Stands g a data := by
  intro i inside
  rw [same (a + i) (Nat.le_add_right a i) (Nat.add_lt_add_left inside a)]
  exact stands i inside

theorem stands_append {rest : List Byte} :
    Stands f a (data ++ rest) ↔ Stands f a data ∧ Stands f (a + data.length) rest := by
  constructor
  · intro stands
    refine ⟨fun i inside => ?_, fun i inside => ?_⟩
    · have here := stands i (by simp; omega)
      rwa [List.getElem_append_left inside] at here
    · have here := stands (data.length + i) (by simp; omega)
      rw [List.getElem_append_right (Nat.le_add_right _ _)] at here
      simpa [Nat.add_assoc] using here
  · rintro ⟨first, second⟩ i inside
    by_cases early : i < data.length
    · rw [List.getElem_append_left early]
      exact first i early
    · rw [List.getElem_append_right (Nat.not_lt.1 early)]
      have here := second (i - data.length) (by simp at inside; omega)
      have same : a + data.length + (i - data.length) = a + i := by omega
      rwa [same] at here

/-- A word in memory. -/
theorem wordAt_of_stands {x : Nat} (stands : Stands f a (wordBytes x)) (small : x < UINTS) :
    wordAt f a = x := by
  have small : x < 4294967296 := small
  have bytes : ∀ k < 4, f (a + k) = Bytes.byteAt x k := by
    intro k inside
    have here := stands k (by rwa [length_wordBytes])
    simpa [wordBytes] using here
  have b0 := bytes 0 (by omega)
  rw [Nat.add_zero] at b0
  rw [wordAt, b0, bytes 1 (by omega), bytes 2 (by omega), bytes 3 (by omega)]
  simp only [Bytes.toNat_byteAt]
  omega

/-- Words one after the other. -/
theorem wordAt_of_words {words : List Nat} (stands : Stands f a (words.flatMap wordBytes))
    (small : ∀ x ∈ words, x < UINTS) :
    ∀ i (inside : i < words.length), wordAt f (a + 4 * i) = words[i] := by
  induction words generalizing a with
  | nil =>
    intro i inside
    cases inside
  | cons x rest ih =>
    rw [List.flatMap_cons, stands_append, length_wordBytes] at stands
    intro i inside
    cases i with
    | zero => exact wordAt_of_stands stands.1 (small x List.mem_cons_self)
    | succ i =>
      have later := ih stands.2 (fun y member => small y (List.mem_cons_of_mem _ member)) i
        (Nat.lt_of_succ_lt_succ inside)
      have same : a + 4 * (i + 1) = a + 4 + 4 * i := by omega
      rw [same, later, List.getElem_cons_succ]

/-- Strings are below the stack pointer. -/
theorem withStrings_above (small : sp < UINTS) (aligned : sp % 4 = 0) (fits : Fits base argv sp)
    {x : Nat} (above : sp ≤ x) : withStrings argv sp g x = g x := by
  induction argv generalizing sp g with
  | nil => rfl
  | cons s rest ih =>
    obtain ⟨below, -, fits'⟩ := fits
    obtain ⟨eq, small', aligned'⟩ := pushed_of_lt below small aligned
    rw [withStrings_cons, ih small' aligned' fits' (by omega), placed_outside]
    rw [length_cstring]
    omega

/-- Strings that fit are above `base`. -/
theorem withStrings_below (fits : Fits base argv sp) {x : Nat} (below : x < base) :
    withStrings argv sp g x = g x := by
  induction argv generalizing sp g with
  | nil => rfl
  | cons s rest ih =>
    obtain ⟨-, low, fits'⟩ := fits
    rw [withStrings_cons, ih fits', placed_outside]
    omega

/-- **Every string stands at its address.** -/
theorem strings_stand (small : sp < UINTS) (aligned : sp % 4 = 0) (fits : Fits base argv sp) :
    List.Forall₂ (fun s a => Stands (withStrings argv sp g) a (cstring s) ∧ a % 4 = 0 ∧
      spAfter argv sp ≤ a ∧ a + (s.length + 1) ≤ sp) argv (stringAddrs argv sp) := by
  induction argv generalizing sp g with
  | nil => exact .nil
  | cons s rest ih =>
    obtain ⟨below, -, fits'⟩ := fits
    obtain ⟨eq, small', aligned'⟩ := pushed_of_lt below small aligned
    have after := spAfter_of_fits small' aligned' fits'
    rw [withStrings_cons, spAfter_cons, stringAddrs]
    refine .cons ⟨?_, aligned', by omega, by omega⟩ ?_
    · refine (stands_placed g _ (cstring s)).congr fun x above _ => ?_
      exact withStrings_above small' aligned' fits' above
    · have later := ih (g := placed g (pushed sp s.length) (cstring s)) small' aligned' fits'
      refine later.imp fun s' a here => ?_
      exact ⟨here.1, here.2.1, here.2.2.1, here.2.2.2.trans (by omega)⟩

/-- Every string is below the one before. -/
theorem strings_apart (small : sp < UINTS) (aligned : sp % 4 = 0) (fits : Fits base argv sp) :
    List.Pairwise (fun x y : List Byte × Nat => y.2 + (y.1.length + 1) ≤ x.2)
      (argv.zip (stringAddrs argv sp)) := by
  induction argv generalizing sp with
  | nil => exact .nil
  | cons s rest ih =>
    obtain ⟨below, -, fits'⟩ := fits
    obtain ⟨-, small', aligned'⟩ := pushed_of_lt below small aligned
    rw [stringAddrs, List.zip_cons_cons]
    refine .cons (fun y member => ?_) (ih small' aligned' fits')
    have stand := strings_stand (g := fun _ => 0) small' aligned' fits'
    exact ((List.forall₂_iff_zip.1 stand).2 member).2.2.2

/-- The arguments as the new program finds them: `ustack`, followed by 0, at `sp`, every string of
it above that, and all of it in the page below `top`. -/
structure ArgsAt (f : Nat → Byte) (top : Nat) (argv : Argv) (sp : Nat)
    (ustack : List Nat) : Prop where
  vector : ∀ i (inside : i < (ustack ++ [0]).length), wordAt f (sp + 4 * i) = (ustack ++ [0])[i]
  strings : List.Forall₂ (fun s a => Stands f a (cstring s) ∧ a % 4 = 0 ∧
    sp + 4 * (argv.length + 1) ≤ a ∧ a + (s.length + 1) ≤ top) argv ustack
  apart : List.Pairwise (fun x y : List Byte × Nat => y.2 + (y.1.length + 1) ≤ x.2) (argv.zip ustack)
  aligned : sp % 4 = 0
  inPage : top ≤ sp + PTE_SZ

/-- **The strings and the vector below them** are the arguments. -/
theorem argsAt_placed {top : Nat} (small : top < UINTS) (aligned : top % 4 = 0)
    (fits : Fits base argv top) (place : a + 4 * (argv.length + 1) = spAfter argv top)
    (inPage : top ≤ a + PTE_SZ) :
    ArgsAt (placed (withStrings argv top g) a (vectorBytes (stringAddrs argv top))) top argv a
      (stringAddrs argv top) := by
  have after := spAfter_of_fits small aligned fits
  have stand := strings_stand (g := g) small aligned fits
  have length : (vectorBytes (stringAddrs argv top)).length = 4 * (argv.length + 1) := by
    rw [length_vectorBytes, length_stringAddrs]
  refine ⟨?_, ?_, strings_apart small aligned fits, ?_, inPage⟩
  · have stands := stands_placed (withStrings argv top g) a (vectorBytes (stringAddrs argv top))
    refine wordAt_of_words stands fun x member => ?_
    rcases List.mem_append.1 member with isAddr | isZero
    · obtain ⟨i, inside, rfl⟩ := List.mem_iff_getElem.1 isAddr
      have here := (List.forall₂_iff_get.1 stand).2 i (by rwa [← length_stringAddrs argv top]) inside
      have high : (stringAddrs argv top)[i] ≤ top := le_trans (Nat.le_add_right _ _) here.2.2.2
      exact high.trans_lt small
    · rw [List.mem_singleton.1 isZero]
      decide
  · refine stand.imp fun s x here => ?_
    obtain ⟨stands, aligned', above, inside⟩ := here
    refine ⟨stands.congr fun y from_ _ => placed_outside ?_, aligned', place ▸ above, inside⟩
    rw [length, place]
    omega
  · have words := stringBytes_mod argv
    omega

/-- Only what is below `top` counts. -/
theorem ArgsAt.congr {top : Nat} {ustack : List Nat} (args : ArgsAt g top argv sp ustack)
    (room : sp + 4 * (argv.length + 1) ≤ top) (same : ∀ x < top, f x = g x) :
    ArgsAt f top argv sp ustack := by
  have count : ustack.length = argv.length := args.strings.length_eq.symm
  refine ⟨fun i inside => ?_, ?_, args.apart, args.aligned, args.inPage⟩
  · rw [← args.vector i inside]
    rw [List.length_append, List.length_singleton, count] at inside
    rw [wordAt, wordAt, same _ (by omega), same _ (by omega), same _ (by omega), same _ (by omega)]
  · refine args.strings.imp fun s a here => ⟨here.1.congr fun x _ inside => ?_, here.2⟩
    rw [length_cstring] at inside
    exact same x (inside.trans_le here.2.2.2)

end Find

end Xv6Rpi.Proc.Exec
