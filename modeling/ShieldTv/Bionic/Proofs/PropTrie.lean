import ShieldTv.Bionic.SystemProperties
import ShieldTv.Lib.TokenTrie

/-!
# The nodes of the property area form a trie

`Rep` relates the nodes in the area to a trie. A search that does not allocate computes
`Trie.find`; one that allocates links a new node where the search ended.
-/

namespace ShieldTv.Bionic.SystemProperties

open Lib.TokenTrie List Function

/-! ## Names -/

theorem strncmp_eq_iff (one two : Bytes) (h : one.length = two.length) :
    strncmp one two = .eq ↔ one = two := by
  induction one generalizing two with
  | nil =>
    obtain rfl := length_eq_zero_iff.mp h.symm
    simp [strncmp]
  | cons a as ih =>
    obtain ⟨b, bs, rfl⟩ := exists_cons_of_length_eq_add_one h.symm
    have hlen : as.length = bs.length := by simpa using h
    rw [strncmp, cons.injEq]
    split_ifs with hlt hgt
    · simp [UInt8.ne_of_lt hlt]
    · simp [(UInt8.ne_of_lt hgt).symm]
    · have hab : a = b := UInt8.le_antisymm (UInt8.not_lt.mp hgt) (UInt8.not_lt.mp hlt)
      simp [hab, ih bs hlen]

theorem cmpPropName_eq_iff (one two : Bytes) : cmpPropName one two = .eq ↔ one = two := by
  rw [cmpPropName]
  split_ifs with hlt hgt
  · simp only [false_iff]
    rintro rfl
    omega
  · simp only [false_iff]
    rintro rfl
    omega
  · exact strncmp_eq_iff one two (by omega)

/-! ## The trie in the area -/

abbrev PropTrie := Trie Bytes Nat

def Allocated (area : PropArea) (off : Nat) : Prop :=
  0 < off ∧ off < area.bytesUsed ∧ off ≤ area.dataSize

def Rep (area : PropArea) : PropTrie → Prop
  | .leaf => True
  | .node a key v l c r =>
    area.bts a = { name := key, prop := v.getD 0, left := l.addr, right := r.addr,
                   children := c.addr } ∧
      Allocated area a ∧ (∀ p, v = some p → Allocated area p) ∧
      Rep area l ∧ Rep area c ∧ Rep area r

/-- What an operation may change that only touches the given nodes. -/
structure Grows (touched : List Nat) (area area' : PropArea) : Prop where
  dataSize : area'.dataSize = area.dataSize
  bytesUsed : area.bytesUsed ≤ area'.bytesUsed
  bts : ∀ off, off < area.bytesUsed → off ∉ touched → area'.bts off = area.bts off
  infos : ∀ off, off < area.bytesUsed → area'.infos off = area.infos off

theorem Grows.refl (touched : List Nat) (area : PropArea) : Grows touched area area :=
  ⟨rfl, le_rfl, fun _ _ _ => rfl, fun _ _ => rfl⟩

variable {touched touched' : List Nat} {area area' : PropArea} {off a new : Nat} {t c : PropTrie}
  {name : Bytes} {v : Option Nat}

theorem Grows.weaken (h : Grows touched area area') (hsub : touched ⊆ touched') :
    Grows touched' area area' :=
  ⟨h.dataSize, h.bytesUsed, fun off hoff hmem => h.bts off hoff (fun ht => hmem (hsub ht)), h.infos⟩

/-- A later step may also touch nodes that did not exist before. -/
theorem Grows.trans {a b c : PropArea} (hab : Grows touched a b) (hbc : Grows touched' b c)
    (hsub : ∀ off ∈ touched', off ∈ touched ∨ a.bytesUsed ≤ off) : Grows touched a c where
  dataSize := hbc.dataSize.trans hab.dataSize
  bytesUsed := hab.bytesUsed.trans hbc.bytesUsed
  bts off hoff hmem := by
    rw [hbc.bts off (hoff.trans_le hab.bytesUsed), hab.bts off hoff hmem]
    intro hmem'
    rcases hsub off hmem' with hold | hnew
    · exact hmem hold
    · omega
  infos off hoff := (hbc.infos off (hoff.trans_le hab.bytesUsed)).trans (hab.infos off hoff)

theorem Allocated.grows (h : Allocated area off) (hg : Grows touched area area') :
    Allocated area' off := by
  have := hg.bytesUsed
  have := hg.dataSize
  obtain ⟨hpos, hused, hsize⟩ := h
  exact ⟨hpos, by omega, by omega⟩

theorem rep_grows (hg : Grows touched area area') (h : Rep area t)
    (hdisj : ∀ a ∈ t.addrs, a ∉ touched) : Rep area' t := by
  induction t with
  | leaf => trivial
  | node a key v l c r ihl ihc ihr =>
    obtain ⟨hbt, ha, hv, hl, hc, hr⟩ := h
    have hmem : a ∉ touched := hdisj a (by simp [Trie.addrs])
    refine ⟨(hg.bts a ha.2.1 hmem).trans hbt, ha.grows hg, fun p hp => (hv p hp).grows hg,
      ihl hl ?_, ihc hc ?_, ihr hr ?_⟩
    · exact fun b hb => hdisj b (by simp [Trie.addrs, hb])
    · exact fun b hb => hdisj b (by simp [Trie.addrs, hb])
    · exact fun b hb => hdisj b (by simp [Trie.addrs, hb])

theorem rep_allocated (h : Rep area t) : ∀ a ∈ t.addrs, Allocated area a := by
  induction t with
  | leaf => simp [Trie.addrs]
  | node a key v l c r ihl ihc ihr =>
    obtain ⟨-, ha, -, hl, hc, hr⟩ := h
    intro b hb
    simp only [Trie.addrs, mem_append, mem_cons] at hb
    rcases hb with hb | rfl | hb | hb
    · exact ihl hl b hb
    · exact ha
    · exact ihc hc b hb
    · exact ihr hr b hb

theorem rep_addr_eq_zero (h : Rep area t) : t.addr = 0 ↔ t = .leaf := by
  cases t with
  | leaf => simp [Trie.addr]
  | node a key v l c r =>
    have := h.2.1.1
    simp only [Trie.addr, reduceCtorEq, iff_false]
    omega

/-- Pointers of the trie are not cut off by `to_prop_obj`. -/
theorem toPropObj_of_allocated (h : Allocated area off) : toPropObj area off = some off :=
  if_neg (Nat.not_lt.mpr h.2.2)

/-! ## Allocation -/

theorem allocateObj_spec {size : Nat} (hroot : 0 < area.bytesUsed) (hsize : 0 < size)
    (h : allocateObj area size = some (area', off)) :
    off = area.bytesUsed ∧ Allocated area' off ∧
      area' = { area with bytesUsed := area'.bytesUsed } := by
  rw [allocateObj] at h
  split_ifs at h with hfull
  cases h
  exact ⟨rfl, ⟨hroot, by dsimp only; omega, by dsimp only; omega⟩, rfl⟩

theorem newPropBt_spec (hroot : 0 < area.bytesUsed) (h : newPropBt area name = some (area', off)) :
    off = area.bytesUsed ∧ Grows [] area area' ∧ Allocated area' off ∧
      area'.bts off = { name := name } := by
  rw [newPropBt, Option.map_eq_some_iff] at h
  obtain ⟨⟨area₁, off₁⟩, halloc, heq⟩ := h
  obtain ⟨rfl, hoff, harea⟩ :=
    allocateObj_spec hroot (by simp only [sizeofPropBt]; omega) halloc
  cases heq
  rw [harea] at hoff ⊢
  refine ⟨rfl, ⟨rfl, hoff.2.1.le, ?_, fun _ _ => rfl⟩, hoff, update_self _ _ _⟩
  intro o ho _
  exact update_of_ne (by omega) _ _

theorem newPropInfo_spec {value : Bytes} (hroot : 0 < area.bytesUsed)
    (h : newPropInfo area name value = some (area', off)) :
    off = area.bytesUsed ∧ Grows [] area area' ∧ Allocated area' off ∧
      area'.infos off = { name := name, value := value } ∧ area'.bts = area.bts := by
  rw [newPropInfo, Option.map_eq_some_iff] at h
  obtain ⟨⟨area₁, off₁⟩, halloc, heq⟩ := h
  obtain ⟨rfl, hoff, harea⟩ :=
    allocateObj_spec hroot (by simp only [sizeofPropInfo]; omega) halloc
  cases heq
  rw [harea] at hoff ⊢
  refine ⟨rfl, ⟨rfl, hoff.2.1.le, fun _ _ _ => rfl, ?_⟩, hoff, update_self _ _ _, rfl⟩
  intro o ho
  exact update_of_ne (by omega) _ _

theorem grows_modifyBt (area : PropArea) (off : Nat) (f : PropBt → PropBt) :
    Grows [off] area (modifyBt area off f) where
  dataSize := rfl
  bytesUsed := le_rfl
  bts o _ hmem := update_of_ne (by simpa using hmem) _ _
  infos _ _ := rfl

@[simp] theorem modifyBt_bts_self (area : PropArea) (off : Nat) (f : PropBt → PropBt) :
    (modifyBt area off f).bts off = f (area.bts off) := update_self _ _ _

theorem rep_modifyBt (h : Rep area t) (hoff : off ∉ t.addrs) (f : PropBt → PropBt) :
    Rep (modifyBt area off f) t := by
  apply rep_grows (grows_modifyBt area off f) h
  intro a ha hmem
  exact hoff (mem_singleton.mp hmem ▸ ha)

theorem modifyBt_bts_of_ne (h : a ≠ off) (f : PropBt → PropBt) :
    (modifyBt area off f).bts a = area.bts a := update_of_ne h _ _

/-! ## Search among siblings -/

/-- The node at which the search for a name that is not there ends, and the side on which it
would go on. -/
def lastOn (name : Bytes) : PropTrie → Nat × Side
  | .leaf => (0, .left)
  | .node a key _ l _ r =>
    match cmpPropName name key with
    | .eq => (a, .left)
    | .lt => if l.addr = 0 then (a, .left) else lastOn name l
    | .gt => if r.addr = 0 then (a, .right) else lastOn name r

/-- The end of a search: a new node, if one is to be made. -/
def linkNew (allocIfNeeded : Bool) (name : Bytes) (area : PropArea) (last : Nat × Side) :
    PropArea × Option Nat :=
  if allocIfNeeded then
    match newPropBt area name with
    | none => (area, none)
    | some (area, new) => (modifyBt area last.1 (fun bt => bt.setSibling new last.2), some new)
  else (area, none)

def afterSearch (allocIfNeeded : Bool) (name : Bytes) (area : PropArea) (t : PropTrie) :
    PropArea × Option Nat :=
  match t.find cmpPropName name with
  | some (a, _, _) => (area, some a)
  | none => linkNew allocIfNeeded name area (lastOn name t)

theorem toPropObj_addr (h : Rep area t) (hne : t.addr ≠ 0) :
    toPropObj area t.addr = some t.addr := by
  apply toPropObj_of_allocated
  cases t with
  | leaf => exact absurd rfl hne
  | node a key v l c r => exact h.2.1

theorem descend_eq {allocIfNeeded : Bool} {side : Side} {sub : PropTrie}
    {next : Nat → Option (PropArea × Option Nat)} (hsub : Rep area sub)
    (hsibling : (area.bts a).sibling side = sub.addr)
    (hnext : sub.addr ≠ 0 → next sub.addr = some (afterSearch allocIfNeeded name area sub)) :
    descend allocIfNeeded name area a side next
      = some (if sub.addr = 0 then linkNew allocIfNeeded name area (a, side)
          else afterSearch allocIfNeeded name area sub) := by
  rw [descend, hsibling]
  by_cases hzero : sub.addr = 0
  · simp only [hzero, ne_eq, not_true_eq_false, if_false, if_true, linkNew]
    cases allocIfNeeded with
    | false => rfl
    | true => cases newPropBt area name <;> rfl
  · simp only [hzero, ne_eq, not_false_eq_true, if_true, if_false, toPropObj_addr hsub hzero,
      hnext hzero]

/-- The loop ends within as many rounds as there are nodes. -/
theorem findPropBt_eq (allocIfNeeded : Bool) (name : Bytes) (h : Rep area t) (hne : t.addr ≠ 0)
    {rounds : Nat} (hrounds : t.addrs.length ≤ rounds) :
    findPropBt allocIfNeeded name rounds area t.addr
      = some (afterSearch allocIfNeeded name area t) := by
  induction t generalizing rounds with
  | leaf => exact absurd rfl hne
  | node a key v l c r ihl _ ihr =>
    obtain ⟨hbt, ha, hv, hl, hc, hr⟩ := h
    simp only [Trie.addrs, length_append, length_cons] at hrounds
    obtain ⟨rounds, rfl⟩ : ∃ k, rounds = k + 1 := ⟨rounds - 1, by omega⟩
    have hname : (area.bts a).name = key := by rw [hbt]
    change findPropBt allocIfNeeded name (rounds + 1) area a = _
    simp only [findPropBt, hname, afterSearch, Trie.find, lastOn]
    cases hcmp : cmpPropName name key with
    | eq => rfl
    | lt =>
      have hside : (area.bts a).sibling .left = l.addr := by rw [hbt, PropBt.sibling]
      rw [descend_eq hl hside (fun hl0 => ihl hl hl0 (by omega))]
      by_cases hl0 : l.addr = 0
      · obtain rfl := (rep_addr_eq_zero hl).mp hl0
        rfl
      · simp only [hl0, if_false, afterSearch]
    | gt =>
      have hside : (area.bts a).sibling .right = r.addr := by rw [hbt, PropBt.sibling]
      rw [descend_eq hr hside (fun hr0 => ihr hr hr0 (by omega))]
      by_cases hr0 : r.addr = 0
      · obtain rfl := (rep_addr_eq_zero hr).mp hr0
        rfl
      · simp only [hr0, if_false, afterSearch]

/-! ## A new sibling -/

theorem lastOn_mem (name : Bytes) (hne : t.addr ≠ 0) : (lastOn name t).1 ∈ t.addrs := by
  induction t with
  | leaf => exact absurd rfl hne
  | node a key v l c r ihl _ ihr =>
    have hself : a ∈ (Trie.node a key v l c r).addrs := by simp [Trie.addrs]
    rw [lastOn]
    split
    · exact hself
    · split_ifs with hl
      · exact hself
      · simp [Trie.addrs, ihl hl]
    · split_ifs with hr
      · exact hself
      · simp [Trie.addrs, ihr hr]

/-- The addresses of the parts of a node are apart. -/
structure Apart (a : Nat) (l c r : PropTrie) : Prop where
  left : l.addrs.Nodup
  right : r.addrs.Nodup
  a_left : a ∉ l.addrs
  a_children : a ∉ c.addrs
  a_right : a ∉ r.addrs
  left_children : ∀ x ∈ l.addrs, x ∉ c.addrs
  left_right : ∀ x ∈ l.addrs, x ∉ r.addrs
  children_right : ∀ x ∈ c.addrs, x ∉ r.addrs

theorem apart_of_nodup {key : Bytes} {l r : PropTrie}
    (h : (Trie.node a key v l c r).addrs.Nodup) : Apart a l c r := by
  simp only [Trie.addrs, nodup_append, nodup_cons, mem_append, mem_cons] at h
  obtain ⟨hl, ⟨ha, -, hr, hcr⟩, hlr⟩ := h
  exact ⟨hl, hr, fun hx => hlr a hx a (.inl rfl) rfl, fun hx => ha (.inl hx),
    fun hx => ha (.inr hx), fun x hx hx' => hlr x hx x (.inr (.inl hx')) rfl,
    fun x hx hx' => hlr x hx x (.inr (.inr hx')) rfl, fun x hx hx' => hcr x hx x hx' rfl⟩

theorem rep_singleton (hg : Grows touched area area') (hmem : new ∉ touched)
    (hnew : area.bts new = { name := name }) (halloc : Allocated area new) :
    Rep area' (.node new name none .leaf .leaf .leaf) :=
  ⟨(hg.bts new halloc.2.1 hmem).trans hnew, halloc.grows hg, nofun, trivial, trivial, trivial⟩

/-- Linking a new node where the search ended inserts it. -/
theorem rep_insert (h : Rep area t) (hne : t.addr ≠ 0) (hfind : t.find cmpPropName name = none)
    (hnew : area.bts new = { name := name }) (halloc : Allocated area new)
    (hnodup : (new :: t.addrs).Nodup) :
    (t.insert cmpPropName name new).addr = t.addr ∧
      Rep (modifyBt area (lastOn name t).1 (fun bt => bt.setSibling new (lastOn name t).2))
        (t.insert cmpPropName name new) := by
  induction t with
  | leaf => exact absurd rfl hne
  | node a key v l c r ihl _ ihr =>
    refine ⟨Trie.addr_insert _ _ _ _ _ _ _ _, ?_⟩
    obtain ⟨hbt, ha, hv, hl, hc, hr⟩ := h
    obtain ⟨hnewmem, hnodup⟩ := nodup_cons.mp hnodup
    have hapart := apart_of_nodup hnodup
    simp only [Trie.addrs, mem_append, mem_cons, not_or] at hnewmem
    obtain ⟨hnewl, hnewa, -, hnewr⟩ := hnewmem
    rw [Trie.find] at hfind
    cases hcmp : cmpPropName name key with
    | eq => simp [hcmp] at hfind
    | lt =>
      rw [hcmp] at hfind
      simp only [lastOn, Trie.insert, hcmp]
      by_cases h0 : l.addr = 0
      · obtain rfl := (rep_addr_eq_zero hl).mp h0
        rw [if_pos h0]
        refine ⟨?_, ha, hv, rep_singleton (grows_modifyBt _ _ _) (by simpa using hnewa) hnew halloc,
          rep_modifyBt hc hapart.a_children _, rep_modifyBt hr hapart.a_right _⟩
        rw [modifyBt_bts_self, hbt]
        rfl
      · obtain ⟨haddr, hsub⟩ := ihl hl h0 hfind (nodup_cons.mpr ⟨hnewl, hapart.left⟩)
        have hmem := lastOn_mem name h0
        rw [if_neg h0]
        refine ⟨?_, ha, hv, hsub, rep_modifyBt hc (hapart.left_children _ hmem) _,
          rep_modifyBt hr (hapart.left_right _ hmem) _⟩
        rw [modifyBt_bts_of_ne (ne_of_mem_of_not_mem hmem hapart.a_left).symm, hbt, haddr]
    | gt =>
      rw [hcmp] at hfind
      simp only [lastOn, Trie.insert, hcmp]
      by_cases h0 : r.addr = 0
      · obtain rfl := (rep_addr_eq_zero hr).mp h0
        rw [if_pos h0]
        refine ⟨?_, ha, hv, rep_modifyBt hl hapart.a_left _, rep_modifyBt hc hapart.a_children _,
          rep_singleton (grows_modifyBt _ _ _) (by simpa using hnewa) hnew halloc⟩
        rw [modifyBt_bts_self, hbt]
        rfl
      · obtain ⟨haddr, hsub⟩ := ihr hr h0 hfind (nodup_cons.mpr ⟨hnewr, hapart.right⟩)
        have hmem := lastOn_mem name h0
        rw [if_neg h0]
        refine ⟨?_, ha, hv, rep_modifyBt hl (fun h => hapart.left_right _ h hmem) _,
          rep_modifyBt hc (fun h => hapart.children_right _ h hmem) _, hsub⟩
        rw [modifyBt_bts_of_ne (ne_of_mem_of_not_mem hmem hapart.a_right).symm, hbt, haddr]

/-! ## A node that changes -/

theorem rep_find (h : Rep area t) (hfind : t.find cmpPropName name = some (a, v, c)) :
    (area.bts a).prop = v.getD 0 ∧ (area.bts a).children = c.addr ∧ Allocated area a ∧
      (∀ p, v = some p → Allocated area p) ∧ Rep area c := by
  induction t with
  | leaf => simp [Trie.find] at hfind
  | node a' key w l d r ihl _ ihr =>
    obtain ⟨hbt, ha, hv, hl, hd, hr⟩ := h
    rw [Trie.find] at hfind
    split at hfind
    · cases hfind
      exact ⟨by rw [hbt], by rw [hbt], ha, hv, hd⟩
    · exact ihl hl hfind
    · exact ihr hr hfind

theorem rep_replace (h : Rep area t) (hnodup : t.addrs.Nodup) {v' : Option Nat} {c' : PropTrie}
    (hfind : t.find cmpPropName name = some (a, v, c)) (hg : Grows (a :: c.addrs) area area')
    (hbt' : area'.bts a = { area.bts a with prop := v'.getD 0, children := c'.addr })
    (hv' : ∀ p, v' = some p → Allocated area' p) (hc' : Rep area' c') :
    Rep area' (Trie.replace cmpPropName name v' c' t) := by
  induction t with
  | leaf => simp [Trie.find] at hfind
  | node a' key w l d r ihl _ ihr =>
    have hapart := apart_of_nodup hnodup
    obtain ⟨hbt, ha, hv, hl, hd, hr⟩ := h
    rw [Trie.find] at hfind
    rw [Trie.replace]
    split at hfind
    · cases hfind
      refine ⟨?_, ha.grows hg, hv', rep_grows hg hl ?_, hc', rep_grows hg hr ?_⟩
      · rw [hbt', hbt]
      · intro x hx hmem
        rcases mem_cons.mp hmem with rfl | hmem
        · exact hapart.a_left hx
        · exact hapart.left_children x hx hmem
      · intro x hx hmem
        rcases mem_cons.mp hmem with rfl | hmem
        · exact hapart.a_right hx
        · exact hapart.children_right x hmem hx
    · have hsub := (Trie.addrs_find hfind).subset
      refine ⟨?_, ha.grows hg, fun p hp => (hv p hp).grows hg, ihl hl hapart.left hfind,
        rep_grows hg hd ?_, rep_grows hg hr ?_⟩
      · rw [hg.bts a' ha.2.1 (fun hmem => hapart.a_left (hsub hmem)), hbt, Trie.addr_replace]
      · exact fun x hx hmem => hapart.left_children x (hsub hmem) hx
      · exact fun x hx hmem => hapart.left_right x (hsub hmem) hx
    · have hsub := (Trie.addrs_find hfind).subset
      refine ⟨?_, ha.grows hg, fun p hp => (hv p hp).grows hg, rep_grows hg hl ?_,
        rep_grows hg hd ?_, ihr hr hapart.right hfind⟩
      · rw [hg.bts a' ha.2.1 (fun hmem => hapart.a_right (hsub hmem)), hbt, Trie.addr_replace]
      · exact fun x hx hmem => hapart.left_right x hx (hsub hmem)
      · exact fun x hx hmem => hapart.children_right x hx (hsub hmem)

end ShieldTv.Bionic.SystemProperties
