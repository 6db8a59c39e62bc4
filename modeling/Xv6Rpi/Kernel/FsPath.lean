/-
# Kernel.FsPath -- paths, names and directories

A path is its components: the parts between slashes that are not empty, cut to `DIRSIZ` bytes.
`skipelem` takes them off one by one (`elements_eq`).  A name in a buffer of `DIRSIZ` bytes need not
end with a NUL; `strncmp` does not read further (`strncmp_eq_zero_iff`), so that what it compares is
the component (`cString_nameBuffer`).

A directory is a list of entries, and `dirlookup` finds the first with a name.  `namei` and
`nameiparent` walk a tree of directories (`Reaches`) as `enter` says, one component after the other.
-/
import Mathlib.Data.List.TakeWhile
import Xv6Rpi.Kernel.FsFile

namespace Xv6Rpi.Kernel

open Theory

set_option autoImplicit false

/-! ## Components -/

/-- The components of a path. -/
def components (path : List Byte) : List (List Byte) :=
  ((path.splitOn SLASH).filter (· ≠ [])).map (·.take DIRSIZ)

section Paths

variable {path rest name : List Byte}

theorem components_nil : components [] = [] := by simp [components, List.splitOn]

theorem components_slash (path : List Byte) : components (SLASH :: path) = components path := by
  simp [components, List.splitOn, List.splitOnP_cons_eq_if_modifyHead]

/-- Leading slashes do not count. -/
theorem components_dropWhile (path : List Byte) :
    components (path.dropWhile (· = SLASH)) = components path := by
  induction path with
  | nil => rfl
  | cons c path ih =>
    by_cases slash : c = SLASH
    · rw [List.dropWhile_cons_of_pos (by simpa using slash), ih, slash, components_slash]
    · rw [List.dropWhile_cons_of_neg (by simpa using slash)]

/-- The components on the two sides of a slash. -/
theorem components_append (path path' : List Byte) :
    components (path ++ SLASH :: path') = components path ++ components path' := by
  have split : (path ++ SLASH :: path').splitOn SLASH = path.splitOn SLASH ++ path'.splitOn SLASH :=
    List.splitOnP_append_cons path path' (by simp)
  rw [components, split, List.filter_append, List.map_append]
  rfl

theorem components_of_word {word : List Byte} (noSlash : ∀ c ∈ word, c ≠ SLASH) (some_ : word ≠ []) :
    components word = [word.take DIRSIZ] := by
  have whole : word.splitOn SLASH = [word] :=
    List.splitOnP_eq_singleton fun c member => by simpa using noSlash c member
  rw [components, whole]
  simp [some_]

theorem components_of_first {word : List Byte} (noSlash : ∀ c ∈ word, c ≠ SLASH) (some_ : word ≠ [])
    (path : List Byte) : components (word ++ SLASH :: path) = word.take DIRSIZ :: components path := by
  have first : (word ++ SLASH :: path).splitOn SLASH = word :: path.splitOn SLASH :=
    List.splitOnP_append_cons_of_forall_mem (fun c member => by simpa using noSlash c member) SLASH
      (by simp) path
  rw [components, first, components]
  simp [some_]

/-- No slash is left in front. -/
theorem head_dropWhile (path : List Byte) : (path.dropWhile (· = SLASH)).head? ≠ some SLASH := by
  induction path with
  | nil => simp
  | cons c path ih =>
    by_cases slash : c = SLASH
    · rw [List.dropWhile_cons_of_pos (by simpa using slash)]
      exact ih
    · rw [List.dropWhile_cons_of_neg (by simpa using slash)]
      exact fun same => slash (Option.some.inj same)

/-- The first word of a path without leading slashes. -/
theorem components_takeWhile (some_ : path ≠ []) (noSlash : path.head? ≠ some SLASH) :
    components path = (path.takeWhile (· ≠ SLASH)).take DIRSIZ ::
      components (path.dropWhile (· ≠ SLASH)) ∧
    (path.dropWhile (· ≠ SLASH)).length < path.length := by
  have split := List.takeWhile_append_dropWhile (p := fun c : Byte => decide (c ≠ SLASH)) (l := path)
  have word : ∀ c ∈ path.takeWhile (· ≠ SLASH), c ≠ SLASH := fun c member => by
    simpa using List.mem_takeWhile_imp member
  have nonempty : path.takeWhile (· ≠ SLASH) ≠ [] := by
    cases path with
    | nil => exact absurd rfl some_
    | cons c path =>
      have first : c ≠ SLASH := fun same => noSlash (congrArg some same)
      rw [List.takeWhile_cons_of_pos (by simpa using first)]
      simp
  constructor
  · cases after : path.dropWhile (· ≠ SLASH) with
    | nil =>
      rw [after, List.append_nil] at split
      rw [components_nil, ← components_of_word word nonempty, split]
    | cons c q =>
      obtain rfl : c = SLASH := by
        have head := List.head_dropWhile_not (fun c : Byte => decide (c ≠ SLASH)) (l := path)
          (by rw [after]; exact List.cons_ne_nil _ _)
        simp only [after, List.head_cons] at head
        simpa using head
      rw [components_slash, ← components_of_first word nonempty, ← after, split]
  · have lengths := congrArg List.length split
    have := List.length_pos_iff.2 nonempty
    rw [List.length_append] at lengths
    omega

/-- **What `skipelem` does**: it finds no element, or takes the first component off. -/
theorem skipelem_cases (path : List Byte) :
    (skipelem path = none ∧ components path = []) ∨
      ∃ name rest, skipelem path = some (name, rest) ∧ components path = name :: components rest ∧
        rest.length < path.length ∧ rest.head? ≠ some SLASH := by
  by_cases nothing : path.dropWhile (· = SLASH) = []
  · refine Or.inl ⟨if_pos nothing, ?_⟩
    rw [← components_dropWhile, nothing, components_nil]
  · obtain ⟨first, shorter⟩ := components_takeWhile nothing (head_dropWhile path)
    refine Or.inr ⟨_, _, if_neg nothing, ?_, ?_, head_dropWhile _⟩
    · rw [← components_dropWhile path, first, components_dropWhile]
    · have whole := (List.dropWhile_sublist (fun c : Byte => decide (c = SLASH)) (l := path)).length_le
      have rest := (List.dropWhile_sublist (fun c : Byte => decide (c = SLASH))
        (l := (path.dropWhile (· = SLASH)).dropWhile (· ≠ SLASH))).length_le
      omega

theorem skipelem_shorter (found : skipelem path = some (name, rest)) : rest.length < path.length := by
  rcases skipelem_cases path with ⟨never, -⟩ | ⟨_, _, found', -, shorter, -⟩
  · rw [never] at found
    cases found
  · obtain ⟨-, rfl⟩ := Prod.mk.inj (Option.some.inj (found.symm.trans found'))
    exact shorter

/-- A path without leading slashes has a component, unless it is empty. -/
theorem components_eq_nil_iff (noSlash : path.head? ≠ some SLASH) : components path = [] ↔ path = [] := by
  constructor
  · intro nothing
    by_contra some_
    rw [(components_takeWhile some_ noSlash).1] at nothing
    cases nothing
  · rintro rfl
    exact components_nil

end Paths

/-- The elements that `skipelem` takes off a path, as often as it finds one. -/
def elements (path : List Byte) : List (List Byte) :=
  match _found : skipelem path with
  | none => []
  | some (name, rest) => name :: elements rest
termination_by path.length
decreasing_by exact skipelem_shorter _found

/-- **Iterating `skipelem`** gives the components. -/
theorem elements_eq (path : List Byte) : elements path = components path := by
  induction path using elements.induct with
  | case1 path nothing =>
    rcases skipelem_cases path with ⟨-, none_⟩ | ⟨_, _, found, -⟩
    · rw [none_, elements]
      split
      case h_1 => rfl
      case h_2 found =>
        rw [nothing] at found
        cases found
    · rw [nothing] at found
      cases found
  | case2 path name rest found ih =>
    rcases skipelem_cases path with ⟨never, -⟩ | ⟨_, _, found', first, -⟩
    · rw [never] at found
      cases found
    · obtain ⟨rfl, rfl⟩ := Prod.mk.inj (Option.some.inj (found.symm.trans found'))
      rw [first, ← ih, elements]
      split
      case h_1 nothing =>
        rw [nothing] at found
        cases found
      case h_2 found'' =>
        obtain ⟨rfl, rfl⟩ := Prod.mk.inj (Option.some.inj (found.symm.trans found''))
        rfl

/-! ## Names -/

/-- `strncmp`: the bytes compared are those of two strings in memory. -/
def strncmp : Nat → List Byte → List Byte → Int
  | 0, _, _ => 0
  | n + 1, p, q =>
    if p.headD 0 ≠ 0 ∧ p.headD 0 = q.headD 0 then strncmp n p.tail q.tail
    else ((p.headD 0).toNat : Int) - (q.headD 0).toNat

/-- The buffer `name` after `skipelem` has copied an element of any length into it. -/
def nameBuffer (name element : List Byte) : List Byte :=
  if DIRSIZ ≤ element.length then element.take DIRSIZ
  else element ++ 0 :: name.drop (element.length + 1)

theorem cString_cons (n : Nat) (c : Byte) (s : List Byte) :
    cString (n + 1) (c :: s) = if c = 0 then [] else c :: cString n s := by
  rw [cString, List.take_succ_cons]
  by_cases ends : c = 0
  · rw [if_pos ends, List.takeWhile_cons_of_neg (by simpa using ends)]
  · rw [if_neg ends, List.takeWhile_cons_of_pos (by simpa using ends)]
    rfl

/-- A string that is not there is like one that ends. -/
theorem cString_succ (n : Nat) (s : List Byte) :
    cString (n + 1) s = if s.headD 0 = 0 then [] else s.headD 0 :: cString n s.tail := by
  cases s with
  | nil => rfl
  | cons c s => exact cString_cons n c s

/-- **`strncmp`** compares up to `n` bytes, and not past a NUL. -/
theorem strncmp_eq_zero_iff (n : Nat) (p q : List Byte) :
    strncmp n p q = 0 ↔ cString n p = cString n q := by
  induction n generalizing p q with
  | zero => simp [strncmp, cString]
  | succ n ih =>
    rw [strncmp, cString_succ, cString_succ]
    generalize p.headD 0 = a
    generalize q.headD 0 = b
    by_cases same : a ≠ 0 ∧ a = b
    · rw [if_pos same, ih, if_neg same.1, if_neg (same.2 ▸ same.1), same.2]
      simp
    · rw [if_neg same]
      have differ : ((a.toNat : Int) - b.toNat = 0) ↔ a = b := by
        rw [BitVec.toNat_eq]
        omega
      rw [differ]
      by_cases ends : a = 0
      · rw [if_pos ends]
        by_cases ends' : b = 0
        · rw [if_pos ends']
          exact iff_of_true (ends.trans ends'.symm) rfl
        · rw [if_neg ends']
          exact iff_of_false (fun eq => ends' (eq ▸ ends)) (List.cons_ne_nil _ _).symm
      · rw [if_neg ends]
        have ne : a ≠ b := fun eq => same ⟨ends, eq⟩
        refine iff_of_false ne fun eq => ?_
        split at eq
        case isTrue => cases eq
        case isFalse => exact ne (List.cons.inj eq).1

theorem takeWhile_noNul {s : List Byte} (noNul : 0 ∉ s) : s.takeWhile (· ≠ 0) = s :=
  List.takeWhile_eq_self_iff.2 fun c member => by
    simpa using fun isNul : c = 0 => noNul (isNul ▸ member)

/-- What `strncmp` reads of a buffer is the component, however long the element and whatever was in
the buffer. -/
theorem cString_nameBuffer {element : List Byte} (noNul : 0 ∉ element) (name : List Byte) :
    cString DIRSIZ (nameBuffer name element) = element.take DIRSIZ := by
  rw [nameBuffer]
  split
  case isTrue =>
    rw [cString, List.take_take, min_self]
    exact takeWhile_noNul fun member => noNul (List.mem_of_mem_take member)
  case isFalse short =>
    have short : element.length < 14 := Nat.not_le.1 short
    rw [cString, List.take_append, List.take_of_length_le (by show element.length ≤ 14; omega)]
    obtain ⟨k, isK⟩ : ∃ k, DIRSIZ - element.length = k + 1 := ⟨13 - element.length, by
      show 14 - element.length = _
      omega⟩
    rw [isK, List.take_succ_cons, List.takeWhile_append_of_pos fun c member => by
      simpa using fun isNul : c = 0 => noNul (isNul ▸ member)]
    simp

/-- **`namecmp`** of the buffer compares the component. -/
theorem namecmp_iff {element : List Byte} (noNul : 0 ∉ element) (name t : List Byte) :
    strncmp DIRSIZ (nameBuffer name element) t = 0 ↔ nameEq (element.take DIRSIZ) t = true := by
  have whole : cString DIRSIZ (element.take DIRSIZ) = element.take DIRSIZ := by
    rw [cString, List.take_take, min_self]
    exact takeWhile_noNul fun member => noNul (List.mem_of_mem_take member)
  rw [strncmp_eq_zero_iff, cString_nameBuffer noNul, nameEq, beq_iff_eq, whole]

/-! ## Directories -/

/-- The entry in place `k` of a directory. -/
def Node.entry (f : Node) (k : Nat) : Dirent :=
  Dirent.ofBytes ((List.range DESZ).map fun j => f.data (DESZ * k + j))

def Node.entries (f : Node) : List Dirent := (List.range (f.size / DESZ)).map f.entry

/-- The entry is in use and has the name. -/
def Dirent.named (name : List Byte) (de : Dirent) : Bool := de.inum != 0 && nameEq name de.name

/-- The inode that a directory has under a name. -/
def Node.lookup (f : Node) (name : List Byte) : Option Nat :=
  (f.entries.find? (Dirent.named name)).map Dirent.inum

/-- One component of a path. -/
def enter (nodes : Nat → Node) (i : Nat) (name : List Byte) : Option Nat :=
  if (nodes i).type = T_DIR then (nodes i).lookup name else none

section Lookup

variable {C : KContract} {sh : Shape} {A v : Disk} {E : Inodes}
  {L : Finset Nat} {t : Option Pid} {m : Mem} {ip : InodeId} {i : Nat} {s : KState} {name : List Byte}

theorem Node.length_entries (f : Node) : f.entries.length = f.size / DESZ := by simp [Node.entries]

/-- An entry that is there is read whole. -/
theorem Locked.readDirent (f : Locked sh A v E L t m ip i s) (ok : sh.Ok) (isDir : (E i).type = T_DIR)
    {k : Nat} (inside : DESZ * (k + 1) ≤ (E i).size) (e : Panic) :
    Sat C (fun de s' => de = (sh.nodes v E i).entry k ∧ Locked sh A v E L t m ip i s')
      (Kernel.readDirent ip (DESZ * k) e s) := by
  have notDev : (sh.nodes v E i).type ≠ T_DEV := by
    rw [f.type_eq, isDir]
    decide
  have bounded : (E i).size ≤ 140 * 512 := f.rep.bounded i f.alloc
  have inside : 16 * (k + 1) ≤ (E i).size := inside
  refine (f.readi ok notDev).seq fun r s1 post => ?_
  obtain ⟨rfl, f1⟩ := post
  have all : (sh.nodes v E i).read (DESZ * k) DESZ =
      some ((List.range DESZ).map fun j => (sh.nodes v E i).data (DESZ * k + j)) := by
    have count : min (16 * k + 16) (E i).size - 16 * k = 16 := by omega
    rw [Node.read, f.size_eq, if_neg (by show ¬ ((E i).size < 16 * k ∨ 4294967296 ≤ 16 * k + 16); omega)]
    show some ((List.range (min (16 * k + 16) (E i).size - 16 * k)).map _) = _
    rw [count]
  rw [all]
  dsimp only
  rw [if_pos (by simp)]
  exact ⟨rfl, f1⟩

/-- **The loop of `dirlookup`** finds the first entry with the name. -/
theorem Locked.lookupLoop (f : Locked sh A v E L t m ip i s) (ok : sh.Ok) (isDir : (E i).type = T_DIR)
    (whole : DESZ ∣ (E i).size) {k fuel : Nat} (most : k ≤ (E i).size / DESZ)
    (enough : (E i).size / DESZ < k + fuel) :
    Sat C (fun r s' => r.map Prod.fst =
        (((sh.nodes v E i).entries.drop k).find? (Dirent.named name)).map Dirent.inum ∧
      Locked sh A v E L t m ip i s') (Kernel.lookupLoop ip name fuel (DESZ * k) s) := by
  have count : (sh.nodes v E i).entries.length = (E i).size / DESZ := by
    rw [Node.length_entries, f.size_eq]
  obtain ⟨n, isSize⟩ := whole
  have isCount : (E i).size / DESZ = n := by
    rw [isSize]
    exact Nat.mul_div_cancel_left n (by decide)
  rw [isCount] at enough most count
  induction fuel generalizing k s with
  | zero => omega
  | succ fuel ih =>
    rw [Kernel.lookupLoop]
    refine Sat.step (f.io.inode_eq ip) ?_
    rw [f.copy, isSize]
    by_cases atEnd : n ≤ k
    · rw [if_pos (Nat.mul_le_mul_left DESZ atEnd), List.drop_eq_nil_of_le (by omega)]
      exact ⟨rfl, f⟩
    · have more : DESZ * (k + 1) ≤ (E i).size := by
        rw [isSize]
        exact Nat.mul_le_mul_left DESZ (by omega)
      rw [if_neg (Nat.not_le.2 (Nat.mul_lt_mul_of_pos_left (by omega) (by decide)))]
      refine (f.readDirent ok isDir more _).seq fun de s1 post => ?_
      obtain ⟨rfl, f1⟩ := post
      have first : (sh.nodes v E i).entries.drop k =
          (sh.nodes v E i).entry k :: (sh.nodes v E i).entries.drop (k + 1) := by
        rw [List.drop_eq_getElem_cons (by omega)]
        simp [Node.entries]
      have isNamed : ((sh.nodes v E i).entry k).inum ≠ 0 ∧
          nameEq name ((sh.nodes v E i).entry k).name = true ↔
          ((sh.nodes v E i).entry k).named name = true := by simp [Dirent.named]
      by_cases found : ((sh.nodes v E i).entry k).named name = true
      · rw [if_pos (isNamed.2 found), first, List.find?_cons_of_pos found]
        exact ⟨rfl, f1⟩
      · rw [if_neg (mt isNamed.1 found), first, List.find?_cons_of_neg found]
        exact ih f1 (by omega) (by omega)

/-- **`dirlookup`**, up to the inode cache. -/
theorem Locked.lookup (f : Locked sh A v E L t m ip i s) (ok : sh.Ok) (isDir : (E i).type = T_DIR)
    (whole : DESZ ∣ (E i).size) :
    Sat C (fun r s' => r.map Prod.fst = (sh.nodes v E i).lookup name ∧ Locked sh A v E L t m ip i s')
      (Kernel.lookupLoop ip name DIRFUEL 0 s) := by
  have bounded : (E i).size ≤ 140 * 512 := f.rep.bounded i f.alloc
  refine f.lookupLoop ok isDir whole (Nat.zero_le _) ?_
  show (E i).size / 16 < 0 + 4482
  omega

end Lookup

end Xv6Rpi.Kernel
