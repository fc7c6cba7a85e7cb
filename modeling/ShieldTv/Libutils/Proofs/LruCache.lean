import ShieldTv.Libutils.LruCache

/-!
# What a refused `put` leaves behind

A full cache makes room before it looks whether the key is there.
-/

namespace ShieldTv.Libutils.LruCache

variable {K V : Type} [DecidableEq K]

inductive Call (K V : Type)
  | get (key : K)
  | put (key : K) (value : V)
  | remove (key : K)
  | removeOldest
  | clear

def Call.apply (c : LruCache K V) : Call K V → LruCache K V
  | .get key => (c.get key).2
  | .put key value => (c.put key value).2
  | .remove key => (c.remove key).2
  | .removeOldest => c.removeOldest.2
  | .clear => c.clear

/-- The cache that some calls lead to. -/
def reached (maxCapacity : Nat) (calls : List (Call K V)) : LruCache K V :=
  calls.foldl Call.apply { maxCapacity }

theorem length_removeOldest {c : LruCache K V} (h : c.entries ≠ []) :
    c.removeOldest.2.entries.length + 1 = c.entries.length := by
  obtain ⟨oldest, rest, hentries⟩ := List.exists_cons_of_ne_nil h
  simp [removeOldest, remove, find?, detachFromCache, hentries]

/-- A `put` that is refused leaves the cache as it is exactly if the cache is not full. -/
theorem put_refused_unchanged_iff {maxCapacity : Nat} {calls : List (Call K V)} {key : K}
    {value : V}
    (h : ((reached maxCapacity calls).put key value).1 = false) :
    ((reached maxCapacity calls).put key value).2 = reached maxCapacity calls ↔
      ¬(reached maxCapacity calls).Full := by
  generalize reached maxCapacity calls = c at h ⊢
  have hput : (c.put key value).2 = if c.Full then c.removeOldest.2 else c := by
    unfold put at h ⊢
    dsimp only at h ⊢
    split at h
    · rfl
    · cases h
  rw [hput]
  constructor
  · intro hsame hfull
    rw [if_pos hfull] at hsame
    have hne : c.entries ≠ [] := by
      unfold Full at hfull
      exact List.ne_nil_of_length_pos (by omega)
    have hlength := length_removeOldest hne
    rw [hsame] at hlength
    omega
  · exact fun hfull => if_neg hfull

theorem put_refused_unchanged_iff_room :
    ((reached 3 [.put 1 10, .put 2 20]).put 1 11).2 = reached 3 [.put 1 10, .put 2 20] ↔
      ¬(reached 3 [.put 1 10, .put 2 20] : LruCache Nat Nat).Full :=
  put_refused_unchanged_iff (by decide)

/-- The second of two entries is put again into a cache for two: the first one is gone. -/
theorem refused_put_evicts :
    (reached 2 [.put 1 10, .put 2 20] : LruCache Nat Nat).entries = [(1, 10), (2, 20)] ∧
      ((reached 2 [.put 1 10, .put 2 20]).put 2 21).1 = false ∧
      ((reached 2 [.put 1 10, .put 2 20]).put 2 21).2.entries = [(2, 20)] := by
  decide

end ShieldTv.Libutils.LruCache
