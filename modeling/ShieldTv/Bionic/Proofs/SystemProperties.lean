import ShieldTv.Bionic.Proofs.PropTrie

/-!
# The property area is a finite map

Along any sequence of additions the trie in the area maps the token paths of the names that
were added to their entries. A lookup cuts each token to its length modulo 256, so it
answers for the name that is cut in this way.
-/

namespace ShieldTv.Bionic.SystemProperties

open Lib.TokenTrie List Trie

/-! ## The children of a node -/

/-- The node `current` has the value `v` and the children `c`. -/
structure Hangs (area : PropArea) (current : Nat) (v : Option Nat) (c : PropTrie) : Prop where
  prop : (area.bts current).prop = v.getD 0
  value : ∀ p, v = some p → Allocated area p
  children : (area.bts current).children = c.addr
  rep : Rep area c
  nodup : c.addrs.Nodup
  apart : current ∉ c.addrs
  used : current < area.bytesUsed

/-- A step at or below `current` has left the value `v'` there and turned `c` into `c'`. -/
structure Becomes (area area' : PropArea) (current : Nat) (v' : Option Nat) (c c' : PropTrie) :
    Prop where
  grows : Grows (current :: c.addrs) area area'
  bt : area'.bts current = { area.bts current with prop := v'.getD 0, children := c'.addr }
  value : ∀ p, v' = some p → Allocated area' p
  rep : Rep area' c'
  nodup : c'.addrs.Nodup
  fresh : ∀ a ∈ c'.addrs, a ∈ c.addrs ∨ area.bytesUsed ≤ a

variable {area area' : PropArea} {current a rounds : Nat} {c d c' : PropTrie} {v w : Option Nat}
  {name tok : Bytes} {toks : List Bytes}

theorem Hangs.becomes_refl (h : Hangs area current v c) : Becomes area area current v c c where
  grows := Grows.refl _ _
  bt := by rw [← h.children, ← h.prop]
  value := h.value
  rep := h.rep
  nodup := h.nodup
  fresh _ ha := .inl ha

theorem Becomes.hangs (h : Hangs area current v c) (hb : Becomes area area' current w c c') :
    Hangs area' current w c' where
  prop := by rw [hb.bt]
  value := hb.value
  children := by rw [hb.bt]
  rep := hb.rep
  nodup := hb.nodup
  apart hmem := by
    rcases hb.fresh current hmem with hold | hnew
    · exact h.apart hold
    · exact absurd h.used (by omega)
  used := h.used.trans_le hb.grows.bytesUsed

theorem Hangs.of_find (h : Hangs area current w c)
    (hfind : c.find cmpPropName name = some (a, v, d)) : Hangs area a v d := by
  obtain ⟨hprop, hchildren, ha, hv, hd⟩ := rep_find h.rep hfind
  obtain ⟨hnot, hnodup⟩ := nodup_cons.mp (nodup_of_find hfind h.nodup)
  exact ⟨hprop, hv, hchildren, hd, hnodup, hnot, ha.2.1⟩

/-! ## One token -/

theorem addr_ne_zero_of_find (h : Rep area c) (hfind : c.find cmpPropName name = some (a, v, d)) :
    c.addr ≠ 0 := by
  intro hzero
  rw [(rep_addr_eq_zero h).mp hzero] at hfind
  simp [Trie.find] at hfind

theorem length_addrs_of_find (hfind : c.find cmpPropName name = some (a, v, d)) :
    d.addrs.length < c.addrs.length := by
  have := (addrs_find hfind).length_le
  rwa [length_cons] at this

section

variable (h : Hangs area current w c) (hrounds : c.addrs.length ≤ rounds) {alloc : Bool}
include h hrounds

theorem findToken_of_addr (hne : c.addr ≠ 0) :
    findToken alloc rounds area current name = some (afterSearch alloc name area c) := by
  have hchildren : findChildren alloc area current name = (area, some c.addr) := by
    simp only [findChildren, h.children, ne_eq, hne, not_false_eq_true, if_true,
      toPropObj_addr h.rep hne]
  simp only [findToken, hchildren, findPropBt_eq alloc name h.rep hne hrounds]

theorem findToken_found (hfind : c.find cmpPropName name = some (a, v, d)) :
    findToken alloc rounds area current name = some (area, some a) := by
  rw [findToken_of_addr h hrounds (addr_ne_zero_of_find h.rep hfind)]
  simp only [afterSearch, hfind]

theorem findToken_missing (hfind : c.find cmpPropName name = none) :
    findToken false rounds area current name = some (area, none) := by
  by_cases hzero : c.addr = 0
  · simp [findToken, findChildren, h.children, hzero]
  · rw [findToken_of_addr h hrounds hzero]
    simp only [afterSearch, hfind, linkNew]
    rfl

/-- The new node of a token, where the search for it ended. -/
theorem findToken_new {area₁ : PropArea} {new : Nat} (hpos : 0 < rounds)
    (hfind : c.find cmpPropName name = none) (hnew : newPropBt area name = some (area₁, new)) :
    ∃ area₂, findToken true rounds area current name = some (area₂, some new) ∧
      Becomes area area₂ current w c (c.insert cmpPropName name new) := by
  have hused := h.used
  obtain ⟨rfl, hg, halloc, hbt⟩ := newPropBt_spec (by omega) hnew
  have hnotin : area.bytesUsed ∉ c.addrs := by
    intro hmem
    have := (rep_allocated h.rep _ hmem).2.1
    omega
  have hnodup : (area.bytesUsed :: c.addrs).Nodup := nodup_cons.mpr ⟨hnotin, h.nodup⟩
  have hperm := addrs_insert area.bytesUsed hfind
  have hfresh : ∀ a ∈ (c.insert cmpPropName name area.bytesUsed).addrs,
      a ∈ c.addrs ∨ area.bytesUsed ≤ a := by
    intro a ha
    rcases mem_cons.mp (hperm.subset ha) with rfl | hmem
    · exact .inr le_rfl
    · exact .inl hmem
  by_cases hzero : c.addr = 0
  · -- the first child: `find_property` makes it, and `find_prop_bt` finds it at once
    obtain rfl := (rep_addr_eq_zero h.rep).mp hzero
    have hlink := grows_modifyBt area₁ current (fun bt => { bt with children := area.bytesUsed })
    have hsingle := rep_singleton hlink (by simp; omega) hbt halloc
    refine ⟨_, ?_, (hg.weaken (nil_subset _)).trans hlink (by simp), ?_,
      fun p hp => ((h.value p hp).grows hg).grows hlink, hsingle,
        hperm.nodup_iff.mpr hnodup, hfresh⟩
    · have hchildren : findChildren true area current name
          = (modifyBt area₁ current (fun bt => { bt with children := area.bytesUsed }),
              some area.bytesUsed) := by
        simp [findChildren, h.children, hzero, hnew]
      have hself : cmpPropName name name = .eq := (cmpPropName_eq_iff name name).mpr rfl
      have hsearch := findPropBt_eq true name hsingle (by simp only [Trie.addr]; omega) hpos
      simp only [findToken, hchildren]
      simpa [afterSearch, Trie.find, hself, Trie.addr] using hsearch
    · rw [modifyBt_bts_self, hg.bts current hused not_mem_nil, ← h.prop]
      rfl
  · -- the siblings are searched, and the new node linked where the search ended
    have hsearch : findToken true rounds area current name = some (modifyBt area₁ (lastOn name c).1
            (fun bt => bt.setSibling area.bytesUsed (lastOn name c).2), some area.bytesUsed) := by
      rw [findToken_of_addr h hrounds hzero]
      simp only [afterSearch, hfind, linkNew, if_true, hnew]
    have hmem := lastOn_mem name hzero
    obtain ⟨haddr, hrep⟩ := rep_insert (rep_grows hg h.rep (by simp)) hzero hfind hbt halloc hnodup
    refine ⟨_, hsearch, ?_, ?_, fun p hp => ((h.value p hp).grows hg).grows (grows_modifyBt _ _ _),
      hrep, hperm.nodup_iff.mpr hnodup, hfresh⟩
    · refine (hg.weaken (nil_subset _)).trans (grows_modifyBt _ _ _) ?_
      intro off hoff
      rw [mem_singleton.mp hoff]
      exact .inl (mem_cons_of_mem _ hmem)
    · have hne : current ≠ (lastOn name c).1 := (ne_of_mem_of_not_mem hmem h.apart).symm
      rw [modifyBt_bts_of_ne hne, hg.bts current hused not_mem_nil, haddr, ← h.children, ← h.prop]

theorem findToken_add (hpos : 0 < rounds) :
    findToken true rounds area current name = some (area, none) ∨
      ∃ area' c' a v d, findToken true rounds area current name = some (area', some a) ∧
        Becomes area area' current w c c' ∧ c'.find cmpPropName name = some (a, v, d) ∧
        d.addrs.length ≤ rounds ∧ c'.vals = c.vals ∧
        ∀ path, c'.lookup cmpPropName path = c.lookup cmpPropName path := by
  cases hfind : c.find cmpPropName name with
  | some node =>
    obtain ⟨a, v, d⟩ := node
    have hlength := length_addrs_of_find hfind
    exact .inr ⟨area, c, a, v, d, findToken_found h hrounds hfind, h.becomes_refl, hfind,
      by omega, rfl, fun _ => rfl⟩
  | none =>
    cases hnew : newPropBt area name with
    | some result =>
      obtain ⟨area₁, new⟩ := result
      obtain ⟨area₂, htoken, hbecomes⟩ := findToken_new h hrounds hpos hfind hnew
      exact .inr ⟨area₂, c.insert cmpPropName name new, new, none, .leaf, htoken, hbecomes,
        find_insert_self cmpPropName_eq_iff hfind, Nat.zero_le _,
        vals_insert name new c, lookup_insert cmpPropName_eq_iff hfind⟩
    | none =>
      left
      by_cases hzero : c.addr = 0
      · simp [findToken, findChildren, h.children, hzero, hnew]
      · rw [findToken_of_addr h hrounds hzero]
        simp only [afterSearch, hfind, linkNew, if_true, hnew]

end

/-! ## Below a node -/

theorem Becomes.replace {area₂ : PropArea} {c₂ d' : PropTrie} {v' : Option Nat}
    (h : Hangs area current w c) (hb : Becomes area area₂ current w c c₂)
    (hfind : c₂.find cmpPropName name = some (a, v, d)) (hd : Becomes area₂ area' a v' d d') :
    Becomes area area' current w c (Trie.replace cmpPropName name v' d' c₂) := by
  have hsub := (addrs_find hfind).subset
  have hperm := addrs_replace hfind v' d'
  have hbelow : ∀ x ∈ c₂.addrs, x < area₂.bytesUsed := fun x hx => (rep_allocated hb.rep x hx).2.1
  have hused := hb.grows.bytesUsed
  refine ⟨hb.grows.trans hd.grows ?_, ?_, fun p hp => (hb.value p hp).grows hd.grows,
    rep_replace hb.rep hb.nodup hfind hd.grows hd.bt hd.value hd.rep, ?_, ?_⟩
  · intro x hx
    rcases hb.fresh x (hsub hx) with hold | hnew
    · exact .inl (mem_cons_of_mem _ hold)
    · exact .inr hnew
  · have hcurrent : current ∉ a :: d.addrs := fun hmem => (hb.hangs h).apart (hsub hmem)
    rw [hd.grows.bts current (hb.hangs h).used hcurrent, hb.bt, addr_replace]
  · rw [nodup_iff_count_le_one]
    intro x
    have hcount := hperm.count_eq x
    have hc₂ := nodup_iff_count_le_one.mp hb.nodup x
    have hd₁ := nodup_iff_count_le_one.mp hd.nodup x
    rw [count_append, count_append] at hcount
    by_cases hx : x ∈ d'.addrs
    · rcases hd.fresh x hx with hold | hnew
      · have := count_pos_iff.mpr hold
        omega
      · have : List.count x c₂.addrs = 0 := by
          apply count_eq_zero_of_not_mem
          intro hmem
          have := hbelow x hmem
          omega
        omega
    · rw [count_eq_zero_of_not_mem hx] at hcount
      omega
  · intro x hx
    have hmem := hperm.subset (mem_append_left _ hx)
    rcases mem_append.mp hmem with hmem | hmem
    · exact hb.fresh x hmem
    · rcases hd.fresh x hmem with hold | hnew
      · exact hb.fresh x (hsub (mem_cons_of_mem _ hold))
      · exact .inr (by omega)

/-- `find_property` below a node. -/
def resolve (rounds : Nat) (area : PropArea) (current : Nat) (toks : List Bytes)
    (name : Bytes) (value : Option Bytes) : Option (PropArea × Option Nat) :=
  match findNode value.isSome rounds area current toks with
  | none => none
  | some (area, none) => some (area, none)
  | some (area, some current) => some (findInfo area current name value)

theorem findProperty_eq_resolve (rounds : Nat) (area : PropArea) (name : Bytes)
    (value : Option Bytes) :
    findProperty rounds area name value = resolve rounds area 0 (tokens name) name value := rfl

theorem resolve_cons {r : Option Nat} (value : Option Bytes) (hsub : substr tok ≠ [])
    (htoken : findToken value.isSome rounds area current (substr tok) = some (area', r)) :
    resolve rounds area current (tok :: toks) name value
      = match r with
        | none => some (area', none)
        | some a => resolve rounds area' a toks name value := by
  have hlen : ¬ (substr tok).length = 0 := by simpa using hsub
  simp only [resolve, findNode, hlen, if_false, htoken]
  cases r <;> rfl

theorem resolve_nil (rounds : Nat) (area : PropArea) (current : Nat) (name : Bytes)
    (value : Option Bytes) :
    resolve rounds area current [] name value = some (findInfo area current name value) := rfl

theorem resolve_empty {value : Option Bytes} (hsub : substr tok = []) :
    resolve rounds area current (tok :: toks) name value = some (area, none) := by
  simp [resolve, findNode, hsub]

theorem findInfo_none (h : Hangs area current v c) :
    findInfo area current name none = (area, v) := by
  cases v with
  | none => simp [findInfo, h.prop]
  | some p =>
    have hp := h.value p rfl
    have hne : p ≠ 0 := Nat.pos_iff_ne_zero.mp hp.1
    simp [findInfo, h.prop, hne, toPropObj_of_allocated hp]

/-- A lookup follows the path of the tokens as they are cut. -/
theorem resolve_find (h : Hangs area current v c) (hrounds : c.addrs.length ≤ rounds)
    (name : Bytes) (toks : List Bytes) :
    resolve rounds area current toks name none
      = some (area, if [] ∈ toks.map substr then none
          else lookupFrom cmpPropName v c (toks.map substr)) := by
  induction toks generalizing current v c with
  | nil => simp [resolve_nil, findInfo_none h, lookupFrom]
  | cons tok toks ih =>
    by_cases hsub : substr tok = []
    · simp [resolve_empty hsub, hsub]
    · simp only [map_cons, lookupFrom, cons_ne_nil, if_false, Trie.lookup_cons]
      cases hfind : c.find cmpPropName (substr tok) with
      | none =>
        rw [resolve_cons none hsub (findToken_missing h hrounds hfind)]
        simp
      | some node =>
        obtain ⟨a, v, d⟩ := node
        have hlength := length_addrs_of_find hfind
        rw [resolve_cons none hsub (findToken_found h hrounds hfind)]
        dsimp only
        rw [ih (h.of_find hfind) (by omega)]
        simp [Ne.symm hsub, lookupFrom]

theorem findInfo_some (h : Hangs area current none c) (value : Bytes) :
    findInfo area current name (some value) = (area, none) ∨
      ∃ area' p, findInfo area current name (some value) = (area', some p) ∧
        area.bytesUsed ≤ p ∧ area'.infos p = { name := name, value := value } ∧
        Becomes area area' current (some p) c c := by
  have hprop : (area.bts current).prop = 0 := h.prop
  have hused := h.used
  cases hnew : newPropInfo area name value with
  | none => exact .inl (by simp [findInfo, hprop, hnew])
  | some result =>
    obtain ⟨area₁, p⟩ := result
    obtain ⟨rfl, hg, halloc, hinfo, hbts⟩ := newPropInfo_spec (by omega) hnew
    have hlink := grows_modifyBt area₁ current (fun bt => { bt with prop := area.bytesUsed })
    refine .inr ⟨modifyBt area₁ current _, area.bytesUsed, by simp [findInfo, hprop, hnew],
      le_rfl, hinfo, (hg.weaken (nil_subset _)).trans hlink (by simp), ?_, ?_,
      rep_modifyBt (rep_grows hg h.rep (by simp)) h.apart _, h.nodup, fun _ => .inl⟩
    · rw [modifyBt_bts_self, hbts, ← h.children]
      rfl
    · rintro p ⟨⟩
      exact halloc

/-- What an addition below a node has done to the entries and the lookups there: nothing, or one
new entry. -/
structure AddResult (area area' : PropArea) (v v' : Option Nat) (c c' : PropTrie)
    (path : List Bytes) (info : PropInfo) (r : Option Nat) : Prop where
  vals : (v'.toList ++ c'.vals).Perm (r.toList ++ (v.toList ++ c.vals))
  lookup : ∀ path', lookupFrom cmpPropName v' c' path' =
    if path' = path then r.or (lookupFrom cmpPropName v c path')
    else lookupFrom cmpPropName v c path'
  new : ∀ p, r = some p → [] ∉ path ∧ area.bytesUsed ≤ p ∧ Allocated area' p ∧ area'.infos p = info

theorem addResult_none {path : List Bytes} {info : PropInfo} (hvals : c'.vals = c.vals)
    (hlookup : ∀ path, c'.lookup cmpPropName path = c.lookup cmpPropName path) :
    AddResult area area' v v c c' path info none where
  vals := by rw [hvals]; rfl
  lookup path' := by simp [lookupFrom, hlookup]
  new := nofun

theorem resolve_add (h : Hangs area current v c) (hrounds : c.addrs.length ≤ rounds)
    (hpos : 0 < rounds) (name value : Bytes) (toks : List Bytes)
    (hmissing : lookupFrom cmpPropName v c (toks.map substr) = none) :
    ∃ area' v' c' r, resolve rounds area current toks name (some value) = some (area', r) ∧
      Becomes area area' current v' c c' ∧ (toks ≠ [] → v' = v) ∧
      AddResult area area' v v' c c' (toks.map substr) { name := name, value := value } r := by
  have hnothing : ∃ area' v' c' r, some (area, none) = some (area', r) ∧
      Becomes area area' current v' c c' ∧ (toks ≠ [] → v' = v) ∧
      AddResult area area' v v' c c' (toks.map substr) { name := name, value := value } r :=
    ⟨area, v, c, none, rfl, h.becomes_refl, fun _ => rfl, addResult_none rfl fun _ => rfl⟩
  induction toks generalizing area current v c with
  | nil =>
    obtain rfl : v = none := hmissing
    rw [resolve_nil]
    rcases findInfo_some h value with hfail | ⟨area', p, hinfo, hle, hentry, hb⟩
    · rw [hfail]
      exact hnothing
    · rw [hinfo]
      refine ⟨area', some p, c, some p, rfl, hb, absurd rfl, Perm.refl _, fun path' => ?_, ?_⟩
      · cases path' <;> rfl
      · rintro q ⟨⟩
        exact ⟨not_mem_nil, hle, hb.value p rfl, hentry⟩
  | cons tok toks ih =>
    by_cases hsub : substr tok = []
    · rw [resolve_empty hsub]
      exact hnothing
    rcases findToken_add h hrounds hpos with
      hfail | ⟨area₂, c₂, a, v₂, d, htoken, hb, hfind, hdlen, hvals, hlookup⟩
    · rw [resolve_cons (some value) hsub hfail]
      exact hnothing
    have hhangs := (hb.hangs h).of_find hfind
    have hmissing' : lookupFrom cmpPropName v₂ d (toks.map substr) = none := by
      simpa [lookupFrom, ← hlookup, Trie.lookup_cons, hfind] using hmissing
    rw [resolve_cons (some value) hsub htoken]
    obtain ⟨area', v', d', r, hresolve, hb', -, hresult⟩ := ih hhangs hdlen hmissing'
      ⟨area₂, v₂, d, none, rfl, hhangs.becomes_refl, fun _ => rfl, addResult_none rfl fun _ => rfl⟩
    refine ⟨area', v, Trie.replace cmpPropName (substr tok) v' d' c₂, r, hresolve,
      hb.replace h hfind hb', fun _ => rfl, ?_, fun path' => ?_, fun p hp => ?_⟩
    · rw [← hvals]
      refine (Perm.append_left _ (vals_replace hfind r.toList hresult.vals)).trans ?_
      exact perm_append_comm_assoc _ _ _
    · have hreplace := lookup_replace cmpPropName_eq_iff hfind hresult.lookup path'
      cases path' with
      | nil => simp [lookupFrom]
      | cons k ks => simpa [lookupFrom, hlookup] using hreplace
    · obtain ⟨hmem, hle, halloc, hinfo⟩ := hresult.new p hp
      refine ⟨?_, hb.grows.bytesUsed.trans hle, halloc, hinfo⟩
      rw [map_cons, mem_cons, not_or]
      exact ⟨Ne.symm hsub, hmem⟩

end ShieldTv.Bionic.SystemProperties
