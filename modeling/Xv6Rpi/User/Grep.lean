/-
# User.Grep -- the loop of `grep` over its input

`grep` of `grep.c`, with `strchr` and `memmove` of `ulib.c`.  The buffer stands at address 0 and is
1024 bytes long; the memory around it, up to `room`, is there as well, because `strchr` looks for a
NUL and nothing puts one after the bytes that have been read.

A read that brings no newline makes `grep` forget what it has, and bytes of an earlier, longer read
can follow those of the last one, newlines among them.  The second is a matter of the input alone
(`StaleFree`), because a line that does not match leaves a NUL where its newline was.  Where it does not
happen, `grep` writes what it should for every pattern exactly if the first does not happen either.
-/
import Mathlib.Algebra.Order.Group.Int
import Xv6Rpi.Lib.Memory
import Xv6Rpi.User.Match

namespace Xv6Rpi.User

open Theory

set_option autoImplicit false

/-! ## The code -/

abbrev NEWLINE : Byte := 10
/-- The memory of the process, with the buffer at 0. -/
abbrev Memory : Type := Int → Byte

def Memory.put (mem : Memory) (a : Int) (b : Byte) : Memory := Function.update mem a b

/-- `strchr`, with so many bytes of memory left: the address found, or that there is none; nothing if
it runs out of memory. -/
def strchr (mem : Memory) (c : Byte) : Nat → Int → Option (Option Int)
  | 0, _ => none
  | left + 1, s =>
    if mem s = 0 then some none
    else if mem s = c then some (some s)
    else strchr mem c left (s + 1)

/-- The string at an address. -/
def stringAt (mem : Memory) : Nat → Int → List Byte
  | 0, _ => []
  | left + 1, s => if mem s = 0 then [] else mem s :: stringAt mem left (s + 1)

/-- The bytes from an address on. -/
def bytesAt (mem : Memory) (a : Int) : Nat → List Byte
  | 0 => []
  | n + 1 => mem a :: bytesAt mem (a + 1) n

/-- `memmove` of `ulib.c`, by the loop that `Lib.Ulib.memmove` runs. -/
def memmove (n : Nat) (dst src : Int) (mem : Memory) : Memory := Lib.copyUp n dst src mem

/-- What `read` does to the memory. -/
def Memory.store (mem : Memory) (a : Int) (data : List Byte) : Memory := fun x =>
  if a ≤ x then (data[(x - a).toNat]?).getD (mem x) else mem x

/-- The loop over the lines in the buffer: the memory, where the loop stopped, and what was written;
nothing if it does not end. -/
def lineLoop (pattern : List Byte) (room : Int) : Nat → Memory → Int → Option (Memory × Int × List Byte)
  | 0, _, _ => none
  | fuel + 1, mem, p =>
    match strchr mem NEWLINE (room - p).toNat p with
    | none => none
    | some none => some (mem, p, [])
    | some (some q) =>
      let ended := mem.put q 0
      if matchText pattern (stringAt ended (room - p).toNat p) then
        let restored := ended.put q NEWLINE
        match lineLoop pattern room fuel restored (q + 1) with
        | none => none
        | some (mem', p', out) => some (mem', p', bytesAt restored p (q + 1 - p).toNat ++ out)
      else lineLoop pattern room fuel ended (q + 1)

structure Grep where
  mem : Memory
  m : Int
  /-- What has been written. -/
  out : List Byte

/-- One round of the loop, when `read` has returned `chunk`. -/
def round (pattern : List Byte) (room : Int) (chunk : List Byte) (g : Grep) : Option Grep :=
  let m := g.m + chunk.length
  match lineLoop pattern room (room.toNat + 1) (g.mem.store g.m chunk) 0 with
  | none => none
  | some (mem, p, out) =>
    let m := if p = 0 then 0 else m
    if 0 < m then some ⟨memmove (m - p).toNat 0 p mem, m - p, g.out ++ out⟩
    else some ⟨mem, m, g.out ++ out⟩

/-- The whole loop, over what `read` returns before it returns 0. -/
def grep (pattern : List Byte) (room : Int) : List (List Byte) → Grep → Option Grep
  | [], g => some g
  | chunk :: chunks, g =>
    match round pattern room chunk g with
    | none => none
    | some g => grep pattern room chunks g

/-! ## Lines -/

/-- Lines, each with its newline. -/
def joined (lines : List (List Byte)) : List Byte := lines.flatMap (· ++ [NEWLINE])

/-- What `grep` should write. -/
def selected (pattern : List Byte) (lines : List (List Byte)) : List Byte :=
  joined (lines.filter (matchText pattern))

/-- Neither the end of a string nor the end of a line. -/
def InLine (s : List Byte) : Prop := ∀ b ∈ s, b ≠ 0 ∧ b ≠ NEWLINE

@[simp]
theorem joined_nil : joined [] = [] := rfl

@[simp]
theorem joined_cons (l : List Byte) (lines : List (List Byte)) :
    joined (l :: lines) = l ++ NEWLINE :: joined lines := by
  simp [joined]

/-- The beginning of a text is some of its lines, and then a part of the next. -/
theorem joined_split {lines : List (List Byte)} {data more : List Byte}
    (text : data ++ more = joined lines) (plain : ∀ l ∈ lines, InLine l) :
    ∃ done rest part, lines = done ++ rest ∧ data = joined done ++ part ∧ InLine part ∧
      part ++ more = joined rest := by
  induction lines generalizing data with
  | nil =>
    obtain ⟨rfl, rfl⟩ := List.append_eq_nil_iff.1 text
    exact ⟨[], [], [], rfl, rfl, fun _ never => (nomatch never), rfl⟩
  | cons l lines ih =>
    have first : data ++ more = (l ++ [NEWLINE]) ++ joined lines := by simp [text]
    rcases List.append_eq_append_iff.1 first with ⟨rest, isLine, isMore⟩ | ⟨rest, rfl, isRest⟩
    · -- the data ends in the first line, or just after it
      rcases List.eq_nil_or_concat rest with rfl | ⟨begun, b, rfl⟩
      · refine ⟨[l], lines, [], rfl, ?_, fun _ never => (nomatch never), by simpa using isMore⟩
        simpa using isLine.symm
      · rw [List.concat_eq_append, ← List.append_assoc] at isLine
        obtain ⟨isLine, -⟩ := List.append_inj' isLine rfl
        refine ⟨[], l :: lines, data, rfl, rfl, fun b member => ?_, text⟩
        exact plain l List.mem_cons_self b (isLine ▸ List.mem_append_left _ member)
    · obtain ⟨done, rest', part, rfl, rfl, plainPart, isEnd⟩ :=
        ih isRest.symm fun l' member => plain l' (List.mem_cons_of_mem _ member)
      exact ⟨l :: done, rest', part, rfl, by simp, plainPart, isEnd⟩

/-- What is left of a text after a part of a line has been taken off is still made of lines. -/
theorem joined_drop {lines : List (List Byte)} {part more : List Byte} (begun : part ≠ [])
    (inPart : InLine part) (plain : ∀ l ∈ lines, InLine l) (text : part ++ more = joined lines) :
    ∃ rest, (∀ l ∈ rest, InLine l) ∧ more = joined rest := by
  cases lines with
  | nil => exact absurd (List.append_eq_nil_iff.1 text).1 begun
  | cons l lines =>
    rw [joined_cons] at text
    rcases List.append_eq_append_iff.1 text with ⟨rest, rfl, rfl⟩ | ⟨rest, rfl, isRest⟩
    · refine ⟨rest :: lines, ?_, by simp⟩
      rw [List.forall_mem_cons] at plain ⊢
      exact ⟨fun b member => plain.1 b (List.mem_append_right _ member), plain.2⟩
    · cases rest with
      | nil =>
        refine ⟨[] :: lines, ?_, by simpa using isRest.symm⟩
        rw [List.forall_mem_cons] at plain ⊢
        exact ⟨by simp [InLine], plain.2⟩
      | cons b rest =>
        obtain ⟨rfl, -⟩ := List.cons.inj isRest
        exact absurd rfl (inPart NEWLINE (by simp)).2

/-- Every line matches the empty pattern. -/
theorem selected_nil (lines : List (List Byte)) : selected [] lines = joined lines := by
  have matched : matchText [] = fun _ => true := by
    funext l
    cases l <;> simp [matchText, matchAny, matchhere]
  rw [selected, matched, List.filter_true]

/-- How many bytes follow the last newline. -/
def afterNewline (data : List Byte) : Nat := (data.reverse.takeWhile (· != NEWLINE)).length

theorem afterNewline_append (before : List Byte) {more : List Byte} (inMore : InLine more) :
    afterNewline (before ++ NEWLINE :: more) = more.length := by
  have noNewline : ∀ b ∈ more.reverse, (b != NEWLINE) = true := by
    intro b member
    simpa using (inMore b (List.mem_reverse.1 member)).2
  have reversed : (before ++ NEWLINE :: more).reverse =
      more.reverse ++ NEWLINE :: before.reverse := by simp
  rw [afterNewline, reversed, List.takeWhile_append_of_pos noNewline]
  simp

/-- What is carried over is what follows the last newline of what has been read. -/
theorem afterNewline_eq {part chunk more : List Byte} {lines : List (List Byte)} (inPart : InLine part)
    (inMore : InLine more) (newline : NEWLINE ∈ chunk) (text : part ++ chunk = joined lines ++ more) :
    afterNewline chunk = more.length := by
  rcases List.eq_nil_or_concat lines with rfl | ⟨others, l, rfl⟩
  · rw [joined_nil, List.nil_append] at text
    exact absurd rfl (inMore NEWLINE (text ▸ List.mem_append_right _ newline)).2
  · have split_ : part ++ chunk = (joined others ++ l) ++ NEWLINE :: more := by
      simp [text, joined]
    rcases List.append_eq_append_iff.1 split_ with ⟨before, -, rfl⟩ | ⟨rest, rfl, isRest⟩
    · exact afterNewline_append before inMore
    · cases rest with
      | nil =>
        rw [List.nil_append] at isRest
        exact isRest ▸ afterNewline_append [] inMore
      | cons b rest =>
        obtain ⟨rfl, -⟩ := List.cons.inj isRest
        exact absurd rfl (inPart NEWLINE (by simp)).2

/-! ## What the memory holds -/

/-- The bytes from `a` on are `data`. -/
def Holds (mem : Memory) (a : Int) (data : List Byte) : Prop :=
  ∀ i (inside : i < data.length), mem (a + i) = data[i]

section Memory

variable {mem mem' : Memory} {a p room : Int} {b : Byte} {data more : List Byte} {left : Nat}

theorem holds_nil : Holds mem a [] := fun _ inside => absurd inside (Nat.not_lt_zero _)

@[simp]
theorem holds_cons_iff : Holds mem a (b :: data) ↔ mem a = b ∧ Holds mem (a + 1) data := by
  constructor
  · intro holds
    have start := holds 0 (by simp)
    rw [List.getElem_cons_zero] at start
    refine ⟨by simpa using start, fun i inside => ?_⟩
    have here := holds (i + 1) (by simpa using inside)
    rw [List.getElem_cons_succ] at here
    rw [← here]
    congr 1
    push_cast
    omega
  · rintro ⟨here, others⟩ i inside
    cases i with
    | zero => simpa using here
    | succ i =>
      rw [List.getElem_cons_succ, ← others i (by simpa using inside)]
      congr 1
      push_cast
      omega

theorem holds_append_iff :
    Holds mem a (data ++ more) ↔ Holds mem a data ∧ Holds mem (a + data.length) more := by
  induction data generalizing a with
  | nil => simp [holds_nil]
  | cons b data ih =>
    have place : a + 1 + (data.length : Int) = a + ((b :: data).length : Int) := by
      rw [List.length_cons]
      push_cast
      omega
    rw [List.cons_append, holds_cons_iff, holds_cons_iff, ih, place, and_assoc]

/-- Memory that agrees where the bytes are holds them too. -/
theorem Holds.congr (holds : Holds mem a data)
    (same : ∀ x, a ≤ x → x < a + data.length → mem' x = mem x) : Holds mem' a data := by
  intro i inside
  rw [same (a + i) (by omega) (by omega)]
  exact holds i inside

theorem put_same (mem : Memory) (a : Int) (b : Byte) : mem.put a b a = b := Function.update_self ..

theorem put_other {x : Int} (other : x ≠ a) : mem.put a b x = mem x := Function.update_of_ne other ..

/-- Bytes that were there keep standing before the ones that are read, which follow. -/
theorem holds_store (holds : Holds mem a data) :
    Holds (mem.store (a + data.length) more) a (data ++ more) := by
  rw [holds_append_iff]
  constructor
  · exact holds.congr fun x _ before => if_neg (by omega)
  · intro i inside
    have place : (a + data.length + (i : Int) - (a + data.length)).toNat = i := by omega
    rw [Memory.store, if_pos (by omega), place, List.getElem?_eq_getElem inside]
    rfl

theorem store_past {x : Int} (past : a + data.length ≤ x) : mem.store a data x = mem x := by
  rw [Memory.store, if_pos (by omega), List.getElem?_eq_none (by omega)]
  rfl

theorem stringAt_eq (holds : Holds mem a data) (plain : InLine data) (ended : mem (a + data.length) = 0)
    (room : data.length < left) : stringAt mem left a = data := by
  induction data generalizing a left with
  | nil =>
    obtain ⟨left, rfl⟩ := Nat.exists_eq_succ_of_ne_zero (Nat.ne_of_gt room)
    exact if_pos (by simpa using ended)
  | cons b data ih =>
    obtain ⟨left, rfl⟩ := Nat.exists_eq_succ_of_ne_zero (Nat.ne_of_gt (Nat.zero_lt_of_lt room))
    obtain ⟨here, others⟩ := holds_cons_iff.1 holds
    rw [stringAt, here, if_neg (plain b List.mem_cons_self).1]
    congr 1
    apply ih others fun b' member => plain b' (List.mem_cons_of_mem _ member)
    · rw [← ended, List.length_cons]
      congr 1
      push_cast
      omega
    · simpa using room

theorem bytesAt_eq (holds : Holds mem a data) : bytesAt mem a data.length = data := by
  induction data generalizing a with
  | nil => rfl
  | cons b data ih =>
    obtain ⟨here, others⟩ := holds_cons_iff.1 holds
    rw [List.length_cons, bytesAt, here, ih others]

/-- `strchr` finds the end of a line. -/
theorem strchr_newline (holds : Holds mem a (data ++ [NEWLINE])) (plain : InLine data)
    (room : data.length < left) : strchr mem NEWLINE left a = some (some (a + data.length)) := by
  induction data generalizing a left with
  | nil =>
    obtain ⟨left, rfl⟩ := Nat.exists_eq_succ_of_ne_zero (Nat.ne_of_gt room)
    obtain ⟨here, -⟩ := holds_cons_iff.1 holds
    simp [strchr, here]
  | cons b data ih =>
    obtain ⟨left, rfl⟩ := Nat.exists_eq_succ_of_ne_zero (Nat.ne_of_gt (Nat.zero_lt_of_lt room))
    obtain ⟨here, others⟩ := holds_cons_iff.1 holds
    obtain ⟨notEnd, notNewline⟩ := plain b List.mem_cons_self
    rw [strchr, here, if_neg notEnd, if_neg notNewline,
      ih others (fun b' member => plain b' (List.mem_cons_of_mem _ member)) (by simpa using room)]
    congr 2
    rw [List.length_cons]
    push_cast
    omega

/-- There is a NUL from `a` on, and no newline before it. -/
def Quiet (mem : Memory) (room a : Int) : Prop :=
  ∃ z, a ≤ z ∧ z < room ∧ mem z = 0 ∧ ∀ x, a ≤ x → x < z → mem x ≠ NEWLINE

theorem strchr_quiet (quiet : Quiet mem room a) (enough : room ≤ a + left) :
    strchr mem NEWLINE left a = some none := by
  obtain ⟨z, after, inside, ended, noNewline⟩ := quiet
  induction left generalizing a with
  | zero => omega
  | succ left ih =>
    rw [strchr]
    split
    case isTrue => rfl
    case isFalse notEnd =>
      have later : a ≠ z := by
        rintro rfl
        exact notEnd ended
      rw [if_neg (noNewline a le_rfl (by omega))]
      exact ih (by push_cast at enough; omega) (by omega)
        fun x above below => noNewline x (by omega) below

theorem memmove_succ (n : Nat) (dst src : Int) (mem : Memory) :
    memmove (n + 1) dst src mem = memmove n (dst + 1) (src + 1) (mem.put dst (mem src)) := rfl

theorem memmove_outside {n : Nat} {dst src x : Int} (outside : x < dst ∨ dst + n ≤ x) :
    memmove n dst src mem x = mem x := by
  induction n generalizing dst src mem with
  | zero => rfl
  | succ n ih =>
    push_cast at outside
    rw [memmove_succ, ih (by omega), put_other (by omega)]

theorem memmove_inside {n i : Nat} {dst src : Int} (forward : dst ≤ src) (inside : i < n) :
    memmove n dst src mem (dst + i) = mem (src + i) := by
  induction n generalizing dst src mem i with
  | zero => omega
  | succ n ih =>
    rw [memmove_succ]
    cases i with
    | zero =>
      rw [memmove_outside (by push_cast; omega)]
      simp [put_same]
    | succ i =>
      have place : dst + ((i + 1 : Nat) : Int) = dst + 1 + i := by push_cast; omega
      have place' : src + ((i + 1 : Nat) : Int) = src + 1 + i := by push_cast; omega
      rw [place, place', ih (by omega) (by omega), put_other (by omega)]

/-- Newlines may have become NULs, as they do after lines that do not match. -/
def Dimmed (mem mem' : Memory) : Prop := ∀ x, mem' x = mem x ∨ mem x = NEWLINE ∧ mem' x = 0

theorem Dimmed.refl (mem : Memory) : Dimmed mem mem := fun _ => Or.inl rfl

theorem Dimmed.trans {mem'' : Memory} (first : Dimmed mem mem') (second : Dimmed mem' mem'') :
    Dimmed mem mem'' := by
  intro x
  rcases second x with same | ⟨newline, nul⟩
  · rw [same]
    exact first x
  · rcases first x with same | ⟨-, nul'⟩
    · exact Or.inr ⟨same ▸ newline, nul⟩
    · rw [nul'] at newline
      exact absurd newline (by decide)

theorem Dimmed.store (dimmed : Dimmed mem mem') (a : Int) (data : List Byte) :
    Dimmed (mem.store a data) (mem'.store a data) := by
  intro x
  unfold Memory.store
  split
  · cases data[(x - a).toNat]? with
    | none => exact dimmed x
    | some b => exact Or.inl rfl
  · exact dimmed x

theorem Dimmed.memmove (dimmed : Dimmed mem mem') (n : Nat) (dst src : Int) :
    Dimmed (memmove n dst src mem) (memmove n dst src mem') := by
  induction n generalizing mem mem' dst src with
  | zero => exact dimmed
  | succ n ih =>
    rw [memmove_succ, memmove_succ]
    refine ih (fun x => ?_) _ _
    by_cases here : x = dst
    · rw [here, put_same, put_same]
      exact dimmed src
    · rw [put_other here, put_other here]
      exact dimmed x

/-- Where there is no newline, none can go. -/
theorem Quiet.dimmed (quiet : Quiet mem room a) (dimmed : Dimmed mem mem') : Quiet mem' room a := by
  obtain ⟨z, after, inside, ended, noNewline⟩ := quiet
  refine ⟨z, after, inside, ?_, fun x above below => ?_⟩
  · rcases dimmed z with same | ⟨-, nul⟩
    · rw [same, ended]
    · exact nul
  · rcases dimmed x with same | ⟨newline, -⟩
    · rw [same]
      exact noNewline x above below
    · exact absurd newline (noNewline x above below)

theorem strchr_found {c : Byte} {q : Int} (found : strchr mem c left a = some (some q)) : mem q = c := by
  induction left generalizing a with
  | zero => simp [strchr] at found
  | succ left ih =>
    rw [strchr] at found
    split at found
    · simp at found
    · split at found
      · simp_all
      · exact ih found

end Memory

/-! ## The lines in the buffer -/

section Loop

variable {pattern : List Byte} {room p : Int} {lines : List (List Byte)} {part : List Byte}

/-- What the loop does with a line, whether it matches or not. -/
theorem lineLoop_line (pattern : List Byte) (fuel : Nat) {mem : Memory} {l : List Byte} (inLine : InLine l)
    (holds : Holds mem p (l ++ [NEWLINE])) (inside : p + l.length < room) :
    ∃ mem', (∀ x, p + l.length < x → mem' x = mem x) ∧
      lineLoop pattern room (fuel + 1) mem p =
        (lineLoop pattern room fuel mem' (p + l.length + 1)).map fun (m, q, out) =>
          (m, q, selected pattern [l] ++ out) := by
  have enough : l.length < (room - p).toNat := by omega
  obtain ⟨holdsLine, newline⟩ := holds_append_iff.1 holds
  have isLine : stringAt (mem.put (p + l.length) 0) (room - p).toNat p = l :=
    stringAt_eq (holdsLine.congr fun x _ before => put_other (by omega)) inLine (put_same ..) enough
  rw [lineLoop, strchr_newline holds inLine enough]
  dsimp only
  rw [isLine]
  by_cases matched : matchText pattern l = true
  · -- the newline is put back, and the line is written with it
    have restored : (mem.put (p + l.length) 0).put (p + l.length) NEWLINE = mem := by
      funext x
      by_cases here : x = p + l.length
      · rw [here, put_same, (holds_cons_iff.1 newline).1]
      · rw [put_other here, put_other here]
    have count : (p + l.length + 1 - p).toNat = (l ++ [NEWLINE]).length := by
      rw [List.length_append, List.length_singleton]
      omega
    refine ⟨mem, fun _ _ => rfl, ?_⟩
    rw [if_pos matched, restored, count, bytesAt_eq holds]
    have written : selected pattern [l] = l ++ [NEWLINE] := by simp [selected, matched]
    rw [written]
    cases lineLoop pattern room fuel mem (p + l.length + 1) <;> rfl
  · refine ⟨mem.put (p + l.length) 0, fun x after => put_other (by omega), ?_⟩
    rw [if_neg matched]
    have nothing : selected pattern [l] = [] := by simp [selected, matched]
    rw [nothing]
    cases lineLoop pattern room fuel (mem.put (p + l.length) 0) (p + l.length + 1) <;> rfl

theorem selected_cons (pattern l : List Byte) (lines : List (List Byte)) :
    selected pattern (l :: lines) = selected pattern [l] ++ selected pattern lines := by
  by_cases matched : matchText pattern l = true
  · simp [selected, matched]
  · simp [selected, matched]

/-- **The loop over the buffer** writes the lines that match, stops at the part of a line that
follows them, and leaves that part alone. -/
theorem lineLoop_lines (pattern : List Byte) {fuel : Nat} {mem : Memory} (inLines : ∀ l ∈ lines, InLine l)
    (inPart : InLine part) (holds : Holds mem p (joined lines ++ part))
    (quiet : Quiet mem room (p + (joined lines ++ part).length)) (enough : lines.length < fuel) :
    ∃ mem', lineLoop pattern room fuel mem p =
        some (mem', p + (joined lines).length, selected pattern lines) ∧
      ∀ x, p + (joined lines).length ≤ x → mem' x = mem x := by
  induction lines generalizing fuel mem p with
  | nil =>
    obtain ⟨fuel, rfl⟩ := Nat.exists_eq_succ_of_ne_zero (Nat.ne_of_gt enough)
    obtain ⟨z, after, inside, ended, noNewline⟩ := quiet
    simp only [joined_nil, List.nil_append] at holds after noNewline
    have quiet : Quiet mem room p := by
      refine ⟨z, by omega, inside, ended, fun x above below => ?_⟩
      by_cases later : p + (part.length : Int) ≤ x
      · exact noNewline x later below
      · obtain ⟨i, isX⟩ := Int.eq_ofNat_of_zero_le (show 0 ≤ x - p by omega)
        obtain rfl : x = p + i := by omega
        rw [holds i (by omega)]
        exact (inPart _ (List.getElem_mem _)).2
    refine ⟨mem, ?_, fun _ _ => rfl⟩
    rw [lineLoop, strchr_quiet quiet (by omega)]
    simp [selected]
  | cons l lines ih =>
    obtain ⟨fuel, rfl⟩ := Nat.exists_eq_succ_of_ne_zero (Nat.ne_of_gt (Nat.zero_lt_of_lt enough))
    have text : joined (l :: lines) ++ part = (l ++ [NEWLINE]) ++ (joined lines ++ part) := by simp
    rw [text] at holds quiet
    have size : (((l ++ [NEWLINE]) ++ (joined lines ++ part)).length : Int) =
        l.length + 1 + (joined lines ++ part).length := by
      simp
      omega
    have lineSize : ((l ++ [NEWLINE]).length : Int) = l.length + 1 := by simp
    rw [size] at quiet
    obtain ⟨holdsLine, holdsRest⟩ := holds_append_iff.1 holds
    rw [lineSize, ← add_assoc] at holdsRest
    obtain ⟨z, after, inside, ended, noNewline⟩ := quiet
    obtain ⟨mem1, kept, isLoop⟩ := lineLoop_line pattern fuel
      (inLines l List.mem_cons_self) holdsLine (by omega : p + l.length < room)
    obtain ⟨mem2, rest, kept'⟩ := ih (fun l' member => inLines l' (List.mem_cons_of_mem _ member))
      (holdsRest.congr fun x above _ => kept x (by omega))
      ⟨z, by omega, inside, by rw [kept z (by omega), ended], fun x above below => by
        rw [kept x (by omega)]
        exact noNewline x (by omega) below⟩ (Nat.lt_of_succ_lt_succ enough)
    have stop : p + (joined (l :: lines)).length = p + l.length + 1 + (joined lines).length := by
      simp
      omega
    rw [stop]
    refine ⟨mem2, ?_, fun x above => ?_⟩
    · rw [isLoop, rest, selected_cons pattern l lines]
      rfl
    · rw [kept' x above, kept x (by omega)]

/-- All that the loop does to the memory is to take newlines away. -/
theorem lineLoop_dimmed {fuel : Nat} {mem mem' : Memory} {p' : Int} {out : List Byte}
    (looped : lineLoop pattern room fuel mem p = some (mem', p', out)) : Dimmed mem mem' := by
  induction fuel generalizing mem p out with
  | zero => simp [lineLoop] at looped
  | succ fuel ih =>
    rw [lineLoop] at looped
    split at looped
    · simp at looped
    · simp only [Option.some.injEq, Prod.mk.injEq] at looped
      exact looped.1 ▸ Dimmed.refl mem
    · rename_i q found
      have newline := strchr_found found
      dsimp only at looped
      split at looped
      · split at looped
        · simp at looped
        · rename_i later
          simp only [Option.some.injEq, Prod.mk.injEq] at looped
          obtain ⟨rfl, rfl, -⟩ := looped
          refine Dimmed.trans (fun x => Or.inl ?_) (ih later)
          by_cases here : x = q
          · rw [here, put_same, newline]
          · rw [put_other here, put_other here]
      · refine Dimmed.trans (fun x => ?_) (ih looped)
        by_cases here : x = q
        · exact Or.inr ⟨here ▸ newline, here ▸ put_same ..⟩
        · exact Or.inl (put_other here)

end Loop

/-! ## The whole input -/

/-- What a round leaves in the memory if every line matches, and how much of it is carried over. -/
def settle (chunk : List Byte) (mem : Memory) (m : Nat) : Memory × Nat :=
  if NEWLINE ∈ chunk then
    (memmove (afterNewline chunk) 0 (m + chunk.length - afterNewline chunk) (mem.store m chunk),
      afterNewline chunk)
  else (mem.store m chunk, 0)

/-- Of what is read, and of what was in the memory before: no round finds a newline between the end of
what it has and the next NUL, not even if every line matches. -/
def StaleFree (room : Int) : List (List Byte) → Memory → Nat → Prop
  | [], _, _ => True
  | chunk :: chunks, mem, m =>
    Quiet mem room (m + chunk.length) ∧
      StaleFree room chunks (settle chunk mem m).1 (settle chunk mem m).2

/-- The buffer holds part of a line, and the memory is `image` but for newlines that are gone. -/
structure Tracks (image : Memory) (part : List Byte) (g : Grep) : Prop where
  inLine : InLine part
  size : g.m = part.length
  holds : Holds g.mem 0 part
  dimmed : Dimmed image g.mem

section Run

variable {room : Int} {lines chunks : List (List Byte)} {part chunk more : List Byte} {g : Grep}
  {image : Memory}

theorem length_le_joined (lines : List (List Byte)) : lines.length ≤ (joined lines).length := by
  induction lines with
  | nil => rfl
  | cons l lines ih =>
    simp
    omega

namespace Tracks

/-- The loop over the lines, after a read. -/
theorem lineLoop_read (pattern : List Byte) (tracks : Tracks image part g)
    (quiet : Quiet image room (part.length + chunk.length)) (inLines : ∀ l ∈ lines, InLine l)
    (inMore : InLine more) (text : part ++ chunk = joined lines ++ more) :
    ∃ mem', lineLoop pattern room (room.toNat + 1) (g.mem.store g.m chunk) 0 =
        some (mem', ((joined lines).length : Int), selected pattern lines) ∧
      Holds mem' (joined lines).length more ∧ Dimmed (image.store part.length chunk) mem' ∧
      (part.length + chunk.length : Int) = (joined lines).length + more.length := by
  have size : (part.length + chunk.length : Int) = (joined lines).length + more.length := by
    have both := congrArg List.length text
    simp only [List.length_append] at both
    omega
  have holds : Holds (g.mem.store g.m chunk) 0 (joined lines ++ more) := by
    have stored : Holds (g.mem.store (0 + part.length) chunk) 0 (part ++ chunk) :=
      holds_store tracks.holds
    rw [← text, tracks.size]
    simpa using stored
  have dimmed : Dimmed (image.store part.length chunk) (g.mem.store g.m chunk) := by
    rw [tracks.size]
    exact tracks.dimmed.store _ _
  obtain ⟨z, after, inside, ended, noNewline⟩ := quiet
  have quiet : Quiet (image.store part.length chunk) room (0 + (joined lines ++ more).length) := by
    rw [List.length_append]
    push_cast
    rw [zero_add, ← size]
    exact ⟨z, after, inside, by rw [store_past after, ended], fun x above below => by
      rw [store_past above]
      exact noNewline x above below⟩
  have enough : lines.length < room.toNat + 1 := by
    have := length_le_joined lines
    omega
  obtain ⟨mem', isLoop, kept⟩ :=
    lineLoop_lines pattern inLines inMore holds (quiet.dimmed dimmed) enough
  rw [zero_add] at isLoop kept
  obtain ⟨-, holdsMore⟩ := holds_append_iff.1 holds
  rw [zero_add] at holdsMore
  exact ⟨mem', isLoop, holdsMore.congr fun x above _ => kept x above,
    dimmed.trans (lineLoop_dimmed isLoop), size⟩

/-- **One round** writes the complete lines that match and keeps the rest. -/
theorem writes (pattern : List Byte) (tracks : Tracks image part g)
    (quiet : Quiet image room (part.length + chunk.length)) (newline : NEWLINE ∈ chunk)
    (inLines : ∀ l ∈ lines, InLine l) (inMore : InLine more)
    (text : part ++ chunk = joined lines ++ more) :
    ∃ g', round pattern room chunk g = some g' ∧ Tracks (settle chunk image part.length).1 more g' ∧
      (settle chunk image part.length).2 = more.length ∧
      g'.out = g.out ++ selected pattern lines := by
  have some_ : 0 < (joined lines).length := by
    cases lines with
    | nil =>
      rw [joined_nil, List.nil_append] at text
      exact absurd rfl (inMore NEWLINE (text ▸ List.mem_append_right _ newline)).2
    | cons l lines => simp
  obtain ⟨mem', isLoop, holds, dimmed, size⟩ :=
    tracks.lineLoop_read pattern quiet inLines inMore text
  have moved : ((joined lines).length : Int) ≠ 0 := by omega
  have rest : (part.length + chunk.length : Int) - (joined lines).length = more.length := by omega
  have start : (part.length + chunk.length : Int) - more.length = (joined lines).length := by omega
  have count : afterNewline chunk = more.length := afterNewline_eq tracks.inLine inMore newline text
  rw [settle, if_pos newline, count, start]
  refine ⟨⟨memmove more.length 0 (joined lines).length mem', more.length,
    g.out ++ selected pattern lines⟩, ?_, ⟨inMore, rfl, fun i below => ?_, dimmed.memmove _ _ _⟩, rfl,
    rfl⟩
  · rw [round, isLoop, tracks.size]
    dsimp only
    rw [if_neg moved, if_pos (by omega), rest, Int.toNat_natCast]
  · dsimp only
    rw [memmove_inside (by omega) below]
    exact holds i below

/-- A round that brings no newline forgets the part of a line that there was. -/
theorem forgets (pattern : List Byte) (tracks : Tracks image part g)
    (quiet : Quiet image room (part.length + chunk.length)) (inChunk : InLine chunk) :
    ∃ g', round pattern room chunk g = some g' ∧ Tracks (settle chunk image part.length).1 [] g' ∧
      (settle chunk image part.length).2 = 0 ∧ g'.out = g.out := by
  have noNewline : NEWLINE ∉ chunk := fun newline => (inChunk _ newline).2 rfl
  have noLines : ∀ l ∈ ([] : List (List Byte)), InLine l := by simp
  have inBoth : InLine (part ++ chunk) := fun b member =>
    (List.mem_append.1 member).elim (tracks.inLine b) (inChunk b)
  obtain ⟨mem', isLoop, -, dimmed, -⟩ := tracks.lineLoop_read pattern quiet noLines inBoth rfl
  rw [settle, if_neg noNewline]
  refine ⟨⟨mem', 0, g.out⟩, ?_, ⟨by simp [InLine], rfl, holds_nil, dimmed⟩, rfl, rfl⟩
  rw [round, isLoop]
  simp [selected]

theorem inLine_of_no_newline (text : part ++ chunk = joined lines ++ more) (inPart : InLine part)
    (inMore : InLine more) (noNewline : NEWLINE ∉ chunk) : InLine chunk := by
  cases lines with
  | nil =>
    rw [joined_nil, List.nil_append] at text
    exact fun b member => inMore b (text ▸ List.mem_append_right _ member)
  | cons l lines =>
    have newline : NEWLINE ∈ part ++ chunk := by simp [text]
    rcases List.mem_append.1 newline with inside | inside
    · exact absurd rfl (inPart _ inside).2
    · exact absurd inside noNewline

/-- With the empty pattern `grep` writes no more than it reads, and less if a read brings no
newline. -/
theorem written (tracks : Tracks image part g) (stale : StaleFree room chunks image part.length)
    (filled : ∀ chunk ∈ chunks, chunk ≠ []) (inLines : ∀ l ∈ lines, InLine l)
    (text : part ++ chunks.flatten = joined lines) :
    ∃ g', grep [] room chunks g = some g' ∧
      g'.out.length ≤ g.out.length + part.length + chunks.flatten.length ∧
      ((∃ chunk ∈ chunks, NEWLINE ∉ chunk) →
        g'.out.length < g.out.length + part.length + chunks.flatten.length) := by
  induction chunks generalizing image part g lines with
  | nil => exact ⟨g, rfl, by simp, by simp⟩
  | cons chunk chunks ih =>
    obtain ⟨begun, others⟩ := List.forall_mem_cons.1 filled
    rw [List.flatten_cons, ← List.append_assoc] at text
    obtain ⟨done, rest, more, rfl, now, inMore, later⟩ := joined_split text inLines
    have size := congrArg List.length now
    simp only [List.length_append] at size
    rw [List.flatten_cons, List.length_append]
    by_cases newline : NEWLINE ∈ chunk
    · rw [List.forall_mem_append] at inLines
      obtain ⟨g1, isRound, tracks', carried, out⟩ :=
        tracks.writes [] stale.1 newline inLines.1 inMore now
      obtain ⟨g2, isGrep, atMost, less⟩ := ih tracks' (carried ▸ stale.2) others inLines.2 later
      rw [out, selected_nil, List.length_append] at atMost less
      refine ⟨g2, by rw [grep, isRound]; exact isGrep, by omega, ?_⟩
      rw [List.exists_mem_cons_iff, or_iff_right (not_not_intro newline)]
      intro loses
      have := less loses
      omega
    · -- what there was of the line is not written any more
      have inChunk := inLine_of_no_newline now tracks.inLine inMore newline
      have positive := List.length_pos_iff.2 begun
      obtain ⟨g1, isRound, tracks', carried, out⟩ := tracks.forgets [] stale.1 inChunk
      have inBoth : InLine (part ++ chunk) := fun b member =>
        (List.mem_append.1 member).elim (tracks.inLine b) (inChunk b)
      obtain ⟨lines', inLines', text'⟩ := joined_drop (by simp [begun]) inBoth inLines text
      obtain ⟨g2, isGrep, atMost, -⟩ :=
        ih tracks' (by simpa [carried] using stale.2) others inLines' text'
      rw [out, List.length_nil] at atMost
      exact ⟨g2, by rw [grep, isRound]; exact isGrep, by omega, fun _ => by omega⟩

end Tracks

end Run

/-- A newline left behind need not show: here the second read is followed by the newline of the first
line, and the third read begins with a newline, which is then stored before the buffer. -/
example (pattern : List Byte) :
    ¬ StaleFree 4 [[122, 10], [10], [10, 113, 10]] (fun _ => 0) 0 ∧
    (grep pattern 4 [[122, 10], [10], [10, 113, 10]] ⟨fun _ => 0, 0, []⟩).map (·.out) =
      some (selected pattern [[122], [], [], [113]]) := by
  constructor
  · rintro ⟨-, ⟨z, after, -, ended, noNewline⟩, -⟩
    have after : 1 ≤ z := after
    rcases after.eq_or_lt with rfl | later
    · exact absurd ended (by decide)
    · exact noNewline 1 le_rfl later (by decide)
  · by_cases first : matchText pattern [122#8] = true <;>
      by_cases second : matchText pattern [] = true <;>
      by_cases third : matchText pattern [113#8] = true <;>
      simp [grep, round, lineLoop, strchr, stringAt, bytesAt, selected, joined, Memory.store, Memory.put,
        memmove, Lib.copyUp, Function.update, first, second, third]

end Xv6Rpi.User
