import ShieldTv.Installd.Utils
import ShieldTv.Lib.Paths

/-!
# Paths that `installd` accepts

With a limit of one subdirectory an accepted path has two components below its directory at most,
and neither starts with a dot, so it can only fail to lead into the directory by being empty.
With any other limit the components after the second are not looked at, and they decide.
-/

namespace ShieldTv.Installd

open Lib.Paths List Option

/-- A path leads to something strictly inside a directory, at most so many subdirectories
deep. -/
def StrictlyInside (dir : DirRec) (path : List Char) (maxSubdirs : Int) : Prop :=
  ∃ names, resolve path = resolve dir.path ++ names ∧ names ≠ [] ∧ names.length ≤ maxSubdirs + 1

/-- The condition on what follows the directory in the path.  With one subdirectory it must not
be empty or a single slash.  With more, the components after the second count: their `..` may take
back the names among the first two, and what is left must be as many names as are permitted; if
they take back more, the names of the directory that are lost must come again, with others behind
them. -/
def RemainderFits (dir : DirRec) (maxSubdirs : Int) (remainder : List Char) : Prop :=
  if maxSubdirs = 1 then remainder ≠ [] ∧ remainder ≠ ['/']
  else
    let named := ((components remainder).take 2).filter (· ≠ [])
    let after := relative ((components remainder).drop 2)
    if after.1 ≤ named.length then
      0 < named.length - after.1 + after.2.length ∧
        (named.length - after.1 + after.2.length : Nat) ≤ maxSubdirs + 1
    else ∃ inside, after.2 = (resolve dir.path).drop
        ((resolve dir.path).length - (after.1 - named.length)) ++ inside ∧
      inside ≠ [] ∧ inside.length ≤ maxSubdirs + 1

/-! ## Components -/

variable {s path remainder : List Char} {c : Char} {maxSubdirs limit : Int} {dir : DirRec}
  {dirs : Dirs}

theorem strchr_of_not_mem (h : c ∉ s) : strchr s c = none := by
  have hdrop : s.dropWhile (· ≠ c) = [] := by
    rw [dropWhile_eq_nil_iff]
    intro a ha
    simpa using ne_of_mem_of_not_mem ha h
  rw [strchr, hdrop]

theorem strchr_append {rest : List Char} (h : c ∉ s) :
    strchr (s ++ c :: rest) c = some (c :: rest) := by
  have hdrop : (s ++ c :: rest).dropWhile (· ≠ c) = c :: rest := by
    rw [dropWhile_append_of_pos, dropWhile_cons_of_neg (by simp)]
    intro a ha
    simpa using ne_of_mem_of_not_mem ha h
  rw [strchr, hdrop]

theorem strchr_isSome : (strchr s c).isSome ↔ c ∈ s := by
  by_cases hmem : c ∈ s
  · obtain ⟨before, after, hsplit, hbefore⟩ := eq_append_cons_of_mem hmem
    simp [hsplit, strchr_append hbefore]
  · simp [strchr_of_not_mem hmem, hmem]

/-! ## Accepted paths -/

theorem DirRec.startsPath_eq (h : dir.startsPath path) : path = dir.path ++ path.drop dir.len := by
  obtain ⟨rest, rfl⟩ := isPrefixOf_iff_prefix.mp h
  rw [DirRec.len, drop_left]

/-- What `validate_path` asks of the part behind the directory. -/
def Accepts (maxSubdirs : Int) (remainder : List Char) : Prop :=
  ¬(((strchr remainder '/').map List.tail).isSome ∧ maxSubdirs - 1 = 0 ∧
      (((strchr remainder '/').map List.tail).bind (strchr · '/')).isSome) ∧
    remainder.head? ≠ some '.' ∧ ((strchr remainder '/').map List.tail).bind List.head? ≠ some '.'

theorem accepts_of_validatePath (h : validatePath dir path maxSubdirs = 0) :
    Accepts maxSubdirs (path.drop dir.len) := by
  unfold validatePath at h
  dsimp only at h
  split at h
  · exact absurd h (by decide)
  · split at h
    · exact absurd h (by decide)
    · rename_i hdeep hdot
      exact ⟨hdeep, not_or.mp hdot⟩

theorem plain_of_components (h : remainder.head? ≠ some '.') :
    ∀ first ∈ (components remainder).head?, first.head? ≠ some '.' := by
  intro first hfirst
  by_cases hempty : first = []
  · simp [hempty]
  · rwa [head?_of_components hfirst hempty]

/-- Neither of the first two components starts with a dot. -/
theorem plain_of_accepts (h : Accepts maxSubdirs remainder) :
    ∀ component ∈ (components remainder).take 2, component.head? ≠ some '.' := by
  obtain ⟨-, hdot, hdot'⟩ := h
  have hfirst := plain_of_components hdot
  by_cases hmem : '/' ∈ remainder
  · obtain ⟨first, second, rfl, hslash⟩ := eq_append_cons_of_mem hmem
    rw [strchr_append hslash, map_some, tail_cons, bind_some] at hdot'
    have hsecond := plain_of_components hdot'
    rw [components, splitOn_append_cons_self_of_not_mem hslash] at hfirst ⊢
    obtain ⟨next, rest, hnext⟩ := exists_cons_of_ne_nil (splitOn_ne_nil '/' second)
    rw [components, hnext] at hsecond
    simpa [hnext] using ⟨hfirst first rfl, hsecond next rfl⟩
  · rw [components, splitOn_eq_singleton hmem] at hfirst ⊢
    simpa using hfirst

/-- With one subdirectory there are at most two components. -/
theorem components_of_accepts (h : Accepts 1 remainder) :
    (components remainder).length ≤ 2 ∧ ((components remainder).filter (· ≠ []) = [] ↔
      remainder = [] ∨ remainder = ['/']) := by
  by_cases hmem : '/' ∈ remainder
  · obtain ⟨first, second, rfl, hfirst⟩ := eq_append_cons_of_mem hmem
    have hdeep := h.1
    simp only [strchr_append hfirst, map_some, tail_cons, bind_some,
      isSome_some, Int.sub_self, true_and, strchr_isSome] at hdeep
    rw [components, splitOn_append_cons_self_of_not_mem hfirst, splitOn_eq_singleton hdeep]
    refine ⟨by simp, ?_⟩
    rw [filter_eq_nil_iff]
    cases first <;> cases second <;> simp
  · rw [components, splitOn_eq_singleton hmem]
    refine ⟨by simp, ?_⟩
    rw [filter_eq_nil_iff]
    constructor
    · intro hempty
      exact Or.inl (by simpa using hempty remainder (mem_singleton_self _))
    · rintro (rfl | rfl)
      · simp
      · exact absurd (mem_singleton_self '/') hmem

/-- The first two components of an accepted path are names, so that only those behind them can lead
out of the directory. -/
theorem resolve_accepted (h : dir.startsPath path)
    (haccepts : Accepts maxSubdirs (path.drop dir.len)) :
    resolve path = ((components (path.drop dir.len)).drop 2).foldl push
      (resolve dir.path ++ ((components (path.drop dir.len)).take 2).filter (· ≠ [])) := by
  conv_lhs => rw [DirRec.startsPath_eq h, resolve_append dir.slash,
    ← take_append_drop 2 (components (path.drop dir.len)), foldl_append,
    foldl_push_plain (plain_of_accepts haccepts)]

theorem strictlyInside_iff (h : dir.startsPath path)
    (haccepts : Accepts maxSubdirs (path.drop dir.len)) :
    StrictlyInside dir path maxSubdirs ↔ RemainderFits dir maxSubdirs (path.drop dir.len) := by
  unfold StrictlyInside RemainderFits
  simp only [resolve_accepted h haccepts, foldl_push_eq_iff]
  generalize path.drop dir.len = remainder at haccepts
  by_cases hone : maxSubdirs = 1
  · subst hone
    obtain ⟨hlength, hempty⟩ := components_of_accepts haccepts
    have hle := (length_filter_le (· ≠ []) (components remainder)).trans hlength
    rw [if_pos rfl, ← not_or, ← hempty, take_of_length_le hlength, drop_of_length_le hlength]
    simp only [relative, foldl_nil, Nat.zero_le, if_true, Nat.sub_zero, take_length, append_nil,
      exists_eq_left]
    exact and_iff_left (by omega)
  · rw [if_neg hone]
    by_cases hups : (relative ((components remainder).drop 2)).1 ≤
        (((components remainder).take 2).filter (· ≠ [])).length
    · simp only [if_pos hups, exists_eq_left]
      rw [← length_pos_iff, length_append, length_take, min_eq_left (Nat.sub_le _ _)]
    · simp only [if_neg hups]

/-! ## The three checks -/

inductive Check
  | systemApp
  | apk
  | apkSubdirs

/-- The directory that a path belongs to, and how many subdirectories it may have there. -/
def Check.found (check : Check) (dirs : Dirs) (path : List Char) : Option (DirRec × Int) :=
  match check with
  | .systemApp => systemDir dirs path
  | .apk => apkDir dirs path 1
  | .apkSubdirs => apkDir dirs path 3

def Check.validate (check : Check) (dirs : Dirs) (path : List Char) : Int :=
  match check with
  | .systemApp => validateSystemAppPath dirs path
  | .apk => validateApkPath dirs path
  | .apkSubdirs => validateApkPathSubdirs dirs path

theorem Check.validate_eq (check : Check) (dirs : Dirs) (path : List Char) :
    check.validate dirs path = validateIn (check.found dirs path) path := by
  cases check <;> rfl

theorem apkDir_startsPath (h : apkDir dirs path maxSubdirs = some (dir, limit)) :
    dir.startsPath path := by
  unfold apkDir at h
  split_ifs at h with happ hprivate hasec hexpand <;> cases h <;> assumption

theorem Check.found_startsPath {check : Check} (h : check.found dirs path = some (dir, limit)) :
    dir.startsPath path := by
  cases check with
  | systemApp =>
    obtain ⟨found, hfind, heq⟩ := map_eq_some_iff.mp h
    cases heq
    exact find?_some (p := fun dir : DirRec => dir.startsPath path) hfind
  | apk | apkSubdirs => exact apkDir_startsPath h

/-- A path that one of the checks accepts leads strictly into the directory it starts with, and
at most as deep as is permitted there, if and only if what follows the directory fits. -/
theorem accepted_strictlyInside_iff {check : Check} {dirs : Dirs} {path : List Char}
    {dir : DirRec} {limit : Int} (hfound : check.found dirs path = some (dir, limit))
    (haccepted : check.validate dirs path = 0) :
    StrictlyInside dir path limit ↔ RemainderFits dir limit (path.drop dir.len) := by
  rw [check.validate_eq, hfound] at haccepted
  exact strictlyInside_iff (Check.found_startsPath hfound) (accepts_of_validatePath haccepted)

/-! ## Examples -/

def dirOf (name : List Char) : DirRec where
  path := '/' :: name ++ ['/']
  absolute := rfl
  slash := by simp [List.getLast?_cons]

def deviceDirs : Dirs where
  androidAppDir := dirOf "data/app".toList
  androidAppPrivateDir := dirOf "data/app-private".toList
  androidAsecDir := dirOf "mnt/asec".toList
  androidMntExpandDir := dirOf "mnt/expand".toList
  androidSystemDirs := [dirOf "system/app".toList, dirOf "system/priv-app".toList,
    dirOf "vendor/app".toList, dirOf "oem/app".toList]

theorem accepted_strictlyInside_iff_deep :
    StrictlyInside (dirOf "data/app".toList) "/data/app/a/b/../c.apk".toList 3 := by
  refine (@accepted_strictlyInside_iff .apkSubdirs deviceDirs _ _ _ rfl (by decide)).mpr ?_
  rw [RemainderFits, if_neg (by decide)]
  dsimp only
  rw [if_pos (by decide)]
  decide

/-- The directory itself is accepted, and so is a path that leaves it after two components. -/
theorem accepted_not_inside :
    validateApkPath deviceDirs "/data/app/".toList = 0 ∧
      resolve "/data/app/".toList = resolve (dirOf "data/app".toList).path ∧
      validateApkPathSubdirs deviceDirs "/data/app/a/b/../../../../etc/passwd".toList = 0 ∧
      resolve "/data/app/a/b/../../../../etc/passwd".toList = ["etc".toList, "passwd".toList] := by
  decide

end ShieldTv.Installd
