import ShieldTv.Lib.Bytes

/-!
# Memory

A memory area is a function from offsets to bytes; reads and writes are of lists
of bytes.
-/

namespace ShieldTv.Lib.Memory

open List

abbrev Mem := Nat → UInt8

def read (mem : Mem) (offset len : Nat) : Bytes := (List.range len).map fun i => mem (offset + i)

def write (mem : Mem) (offset : Nat) (bytes : Bytes) : Mem := fun i =>
  if offset ≤ i ∧ i < offset + bytes.length then bytes.getD (i - offset) 0 else mem i

theorem length_read (mem : Mem) (offset len : Nat) : (read mem offset len).length = len := by
  rw [read, length_map, length_range]

theorem read_congr {mem mem' : Mem} {offset len : Nat}
    (h : ∀ i, offset ≤ i → i < offset + len → mem i = mem' i) :
    read mem offset len = read mem' offset len := by
  apply map_congr_left
  intro i hi
  have hlt := mem_range.mp hi
  exact h _ (by omega) (by omega)

theorem write_of_lt (mem : Mem) {offset i : Nat} (bytes : Bytes) (h : i < offset) :
    write mem offset bytes i = mem i := if_neg (by omega)

theorem read_write (mem : Mem) (offset : Nat) (bytes : Bytes) :
    read (write mem offset bytes) offset bytes.length = bytes := by
  unfold read
  apply ext_getElem
  · rw [length_map, length_range]
  · intro i _ hi
    rw [getElem_map, getElem_range, write, if_pos (by omega), Nat.add_sub_cancel_left,
      getD_eq_getElem _ _ hi]

/-! ## Fields -/

def writeAll (mem : Mem) (fields : List (Nat × Bytes)) : Mem :=
  fields.foldl (fun mem field => write mem field.1 field.2) mem

variable {fields : List (Nat × Bytes)}

theorem writeAll_of_lt (mem : Mem) {i : Nat} (h : ∀ field ∈ fields, i < field.1) :
    writeAll mem fields i = mem i := by
  induction fields generalizing mem with
  | nil => rfl
  | cons field fields ih =>
    obtain ⟨hfirst, hrest⟩ := forall_mem_cons.mp h
    exact (ih _ hrest).trans (write_of_lt mem _ hfirst)

/-- Fields that are written one behind the other are read again, also after changes behind them. -/
theorem read_writeAll {mem mem' : Mem} {bound : Nat}
    (hfields : fields.Pairwise fun a b => a.1 + a.2.length ≤ b.1)
    (hbound : ∀ field ∈ fields, field.1 + field.2.length ≤ bound)
    (hsame : ∀ i < bound, mem' i = writeAll mem fields i) :
    ∀ field ∈ fields, read mem' field.1 field.2.length = field.2 := by
  induction fields generalizing mem with
  | nil => nofun
  | cons field fields ih =>
    obtain ⟨hbefore, hrest⟩ := pairwise_cons.mp hfields
    obtain ⟨hfirst, hbound⟩ := forall_mem_cons.mp hbound
    refine forall_mem_cons.mpr ⟨?_, ih hrest hbound hsame⟩
    rw [← read_write mem field.1 field.2, length_read]
    refine read_congr fun i _ hlt => (hsame i (by omega)).trans ?_
    exact writeAll_of_lt _ fun other hother => Nat.lt_of_lt_of_le hlt (hbefore other hother)

/-! ## Regions of an address space -/

abbrev Region := Int → UInt8

def Region.bytes (region : Region) (start : Int) (len : Nat) : Bytes :=
  (List.range len).map fun i : Nat => region (start + (i : Int))

def Region.ofList (bytes : Bytes) : Region := fun a =>
  if a < 0 then 0 else bytes.getD a.toNat 0

theorem Region.bytes_ofList (before part after : Bytes) :
    (Region.ofList (before ++ (part ++ after))).bytes before.length part.length = part := by
  unfold Region.bytes
  apply ext_getElem
  · rw [length_map, length_range]
  · intro i _ hi
    rw [getElem_map, getElem_range, Region.ofList, if_neg (by omega),
      show ((before.length : Int) + (i : Int)).toNat = before.length + i by omega,
      getD_append_right _ _ _ _ (by omega), Nat.add_sub_cancel_left,
      getD_append _ _ _ _ hi, getD_eq_getElem _ _ hi]

theorem Region.bytes_ofList_take {n : Nat} (before after : Bytes) {part : Bytes}
    (hn : n ≤ part.length) :
    (Region.ofList (before ++ (part ++ after))).bytes before.length n = part.take n := by
  have h := Region.bytes_ofList before (part.take n) (part.drop n ++ after)
  rwa [← append_assoc (part.take n), take_append_drop, length_take_of_le hn] at h

end ShieldTv.Lib.Memory
