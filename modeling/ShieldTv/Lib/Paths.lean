import Mathlib

/-!
# Lexical resolution of paths

A path is a list of components.  Empty components and `.` stand for nothing, `..` takes back the
component before it; at the root there is nothing to take back.  A relative path comes down to a
number of `..` and the names after them.
-/

namespace ShieldTv.Lib.Paths

open List

abbrev Component := List Char

def components (path : List Char) : List Component := path.splitOn '/'

/-- One component after those that are resolved. -/
def push (resolved : List Component) (component : Component) : List Component :=
  if component = [] ∨ component = ['.'] then resolved
  else if component = ['.', '.'] then resolved.dropLast
  else resolved ++ [component]

def resolve (path : List Char) : List Component := (components path).foldl push []

/-- One component of a relative path: the number of `..` before the names, and the names. -/
def pushRelative (state : Nat × List Component) (component : Component) : Nat × List Component :=
  if component = [] ∨ component = ['.'] then state
  else if component = ['.', '.'] then
    if state.2 = [] then (state.1 + 1, []) else (state.1, state.2.dropLast)
  else (state.1, state.2 ++ [component])

/-- A relative path as so many `..` and the names after them. -/
def relative (path : List Component) : Nat × List Component := path.foldl pushRelative (0, [])

theorem components_append {dir : List Char} (hdir : dir.getLast? = some '/') (rest : List Char) :
    components (dir ++ rest) = components dir.dropLast ++ components rest := by
  obtain ⟨init, rfl⟩ := List.getLast?_eq_some_iff.mp hdir
  rw [dropLast_concat, append_assoc, singleton_append]
  exact splitOnP_append_cons init rest (by simp)

theorem resolve_append {dir : List Char} (hdir : dir.getLast? = some '/') (rest : List Char) :
    resolve (dir ++ rest) = (components rest).foldl push (resolve dir) := by
  have hdrop : resolve dir.dropLast = resolve dir := by
    have hsplit := components_append hdir []
    rw [append_nil] at hsplit
    rw [resolve, resolve, hsplit, foldl_append]
    rfl
  rw [← hdrop, resolve, components_append hdir, foldl_append]
  rfl

/-- The first component starts as the path does. -/
theorem head?_of_components {path : List Char} {first : Component}
    (h : first ∈ (components path).head?) (hfirst : first ≠ []) : first.head? = path.head? := by
  by_cases hmem : '/' ∈ path
  · obtain ⟨before, after, rfl, hbefore⟩ := eq_append_cons_of_mem hmem
    rw [components, splitOn_append_cons_self_of_not_mem hbefore] at h
    cases h
    rw [head?_append_of_ne_nil _ hfirst]
  · rw [components, splitOn_eq_singleton hmem] at h
    cases h
    rfl

section

variable {path : List Component}

/-- What a relative path does to the names it starts from. -/
theorem foldl_push (start path : List Component) : path.foldl push start =
    start.take (start.length - (relative path).1) ++ (relative path).2 := by
  induction path using List.reverseRecOn with
  | nil => simp [relative]
  | append_singleton path component ih =>
    rw [relative, foldl_concat, foldl_concat, ih, relative]
    generalize path.foldl pushRelative (0, []) = state
    unfold push pushRelative
    by_cases hskip : component = [] ∨ component = ['.']
    · rw [if_pos hskip, if_pos hskip]
    · rw [if_neg hskip, if_neg hskip]
      by_cases hup : component = ['.', '.']
      · rw [if_pos hup, if_pos hup]
        by_cases hnames : state.2 = []
        · rw [if_pos hnames, hnames, append_nil, append_nil, dropLast_eq_take,
            take_take, length_take]
          congr 1
          omega
        · rw [if_neg hnames, dropLast_append_of_ne_nil hnames]
      · rw [if_neg hup, if_neg hup, append_assoc]

/-- Components that do not start with a dot are names, unless they are empty. -/
theorem foldl_push_plain (h : ∀ component ∈ path, component.head? ≠ some '.')
    (start : List Component) : path.foldl push start = start ++ path.filter (· ≠ []) := by
  induction path generalizing start with
  | nil => simp
  | cons component path ih =>
    obtain ⟨hdot, hrest⟩ := forall_mem_cons.mp h
    rw [foldl_cons, ih hrest, push]
    by_cases hempty : component = []
    · simp [hempty]
    · have hone : component ≠ ['.'] := by
        rintro rfl
        exact hdot rfl
      have htwo : component ≠ ['.', '.'] := by
        rintro rfl
        exact hdot rfl
      simp [hempty, hone, htwo]

/-- A path below some names of a directory leads into the directory if its `..` take back none but
these names, or if the names of the directory that they take back come again. -/
theorem foldl_push_eq_iff (dir named inside : List Component) :
    path.foldl push (dir ++ named) = dir ++ inside ↔
      if (relative path).1 ≤ named.length then
        inside = named.take (named.length - (relative path).1) ++ (relative path).2
      else (relative path).2 =
        dir.drop (dir.length - ((relative path).1 - named.length)) ++ inside := by
  rw [foldl_push, length_append]
  split_ifs with hups
  · rw [take_append, take_of_length_le (by omega), append_assoc, append_right_inj, eq_comm,
      show dir.length + named.length - (relative path).1 - dir.length =
        named.length - (relative path).1 by omega]
  · rw [take_append_of_le_length (by omega),
      show dir.length + named.length - (relative path).1 =
        dir.length - ((relative path).1 - named.length) by omega]
    generalize dir.length - ((relative path).1 - named.length) = kept
    conv_lhs => rhs; rw [← take_append_drop kept dir, append_assoc]
    exact append_right_inj _

end

end ShieldTv.Lib.Paths
