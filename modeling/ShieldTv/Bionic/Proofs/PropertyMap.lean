import ShieldTv.Bionic.Proofs.SystemProperties

/-!
# Lookups, additions and the traversal of the whole area
-/

namespace ShieldTv.Bionic.SystemProperties

open Lib.TokenTrie List
open Option hiding map_map mem_map

/-! ## Tokens -/

theorem tokens_ne_nil (name : Bytes) : tokens name ≠ [] := splitOn_ne_nil _ _

variable {name tok : Bytes} {area area' : PropArea} {c : PropTrie}

theorem mem_splitOn (h : tok ∈ name.splitOn 46) : 46 ∉ tok ∧ tok <+ name := by
  induction name generalizing tok with
  | nil =>
    obtain rfl : tok = [] := by simpa using h
    simp
  | cons byte name ih =>
    rw [splitOn_cons_eq_if_modifyHead] at h
    split_ifs at h with hdot
    · rcases mem_cons.mp h with rfl | hmem
      · simp
      · exact ⟨(ih hmem).1, (ih hmem).2.cons byte⟩
    · obtain ⟨first, rest, htokens⟩ := exists_cons_of_ne_nil (splitOn_ne_nil 46 name)
      rw [htokens] at h ih
      obtain ⟨hnot, hsub⟩ := ih mem_cons_self
      rcases mem_cons.mp h with rfl | hmem
      · exact ⟨fun hmem => by simp_all, hsub.cons_cons byte⟩
      · obtain ⟨hnot, hsub⟩ := ih (mem_cons_of_mem _ hmem)
        exact ⟨hnot, hsub.cons byte⟩

theorem zero_notMem_cString (name : Bytes) : 0 ∉ cString name :=
  fun hmem => absurd (mem_takeWhile_imp hmem) (by simp)

theorem cString_eq (h : 0 ∉ name) : cString name = name := by
  rw [cString, takeWhile_eq_self_iff]
  intro byte hmem
  simpa using ne_of_mem_of_not_mem hmem h

theorem mem_tokens (h : tok ∈ tokens name) :
    46 ∉ tok ∧ 0 ∉ tok ∧ tok.length ≤ name.length := by
  obtain ⟨hdot, hsub⟩ := mem_splitOn h
  have hprefix := takeWhile_sublist (fun byte : UInt8 => decide (byte ≠ 0)) (l := name)
  exact ⟨hdot, fun hmem => zero_notMem_cString name (hsub.subset hmem),
    (hsub.trans hprefix).length_le⟩

theorem intercalate_tokens (h : 0 ∉ name) : [46].intercalate (tokens name) = name := by
  rw [tokens, intercalate_splitOn, cString_eq h]

theorem tokens_injective {a b : Bytes} (ha : 0 ∉ a) (hb : 0 ∉ b)
    (h : tokens a = tokens b) : a = b := by
  rw [← intercalate_tokens ha, h, intercalate_tokens hb]

/-- The name a lookup answers for: each token cut to its length modulo 256. -/
def cut (name : Bytes) : Bytes := [46].intercalate ((tokens name).map substr)

theorem zero_notMem_intercalate {toks : List Bytes} (h : ∀ tok ∈ toks, 0 ∉ tok) :
    0 ∉ [46].intercalate toks := by
  induction toks with
  | nil => simp
  | cons tok toks ih =>
    rw [forall_mem_cons] at h
    cases toks with
    | nil => simpa using h.1
    | cons next toks => simpa [intercalate_cons_cons, h.1] using ih h.2

theorem zero_notMem_cut (name : Bytes) : 0 ∉ cut name := by
  apply zero_notMem_intercalate
  intro tok htok
  obtain ⟨tok, hmem, rfl⟩ := mem_map.mp htok
  exact fun hzero => (mem_tokens hmem).2.1 (mem_of_mem_take hzero)

theorem tokens_cut (name : Bytes) : tokens (cut name) = (tokens name).map substr := by
  rw [tokens, cString_eq (zero_notMem_cut name)]
  apply splitOn_intercalate
  · intro tok htok
    obtain ⟨tok, hmem, rfl⟩ := mem_map.mp htok
    exact fun hdot => (mem_tokens hmem).1 (mem_of_mem_take hdot)
  · simpa using tokens_ne_nil name

theorem substr_of_short (h : tok.length < 256) : substr tok = tok := by
  rw [substr, Nat.mod_eq_of_lt h, take_length]

theorem map_substr_of_short (h : ∀ tok ∈ tokens name, tok.length < 256) :
    (tokens name).map substr = tokens name :=
  (map_congr_left fun tok htok => substr_of_short (h tok htok)).trans (map_id _)

theorem cut_of_short (hzero : 0 ∉ name) (h : ∀ tok ∈ tokens name, tok.length < 256) :
    cut name = name := by
  rw [cut, map_substr_of_short h, intercalate_tokens hzero]

/-! ## The traversal -/

theorem visitOffset_trie {t : PropTrie} (h : Rep area t) {rounds : Nat}
    (hrounds : t.addrs.length ≤ rounds) :
    visitOffset area (foreachProperty rounds area) t.addr = some (some t.vals) := by
  induction t generalizing rounds with
  | leaf => rfl
  | node a key v l c r ihl ihc ihr =>
    obtain ⟨hbt, ha, hv, hl, hc, hr⟩ := h
    simp only [Trie.addrs, length_append, length_cons] at hrounds
    obtain ⟨rounds, rfl⟩ : ∃ k, rounds = k + 1 := ⟨rounds - 1, by omega⟩
    have hprop : visitOffset area (fun info => some (some [info])) (v.getD 0)
        = some (some v.toList) := by
      cases v with
      | none => rfl
      | some p =>
        have hp := hv p rfl
        simp [visitOffset, toPropObj_of_allocated hp, Nat.pos_iff_ne_zero.mp hp.1]
    have hne : a ≠ 0 := Nat.pos_iff_ne_zero.mp ha.1
    change visitOffset area (foreachProperty (rounds + 1) area) a = _
    rw [visitOffset, if_pos hne, toPropObj_of_allocated ha]
    simp only [foreachProperty, hbt, hprop, ihl hl (by omega : l.addrs.length ≤ rounds),
      ihc hc (by omega : c.addrs.length ≤ rounds), ihr hr (by omega : r.addrs.length ≤ rounds),
      visitThen, map_some, Trie.vals]

/-! ## The whole area -/

abbrev Call := Bytes × Bytes

def Call.info (call : Call) : PropInfo := { name := call.1, value := call.2 }

/-- The area holds the calls that were added, in the trie `c`. -/
structure Inv (area : PropArea) (added : List Call) (c : PropTrie) : Prop where
  root : area.bts 0 = { children := c.addr }
  used : 0 < area.bytesUsed
  rep : Rep area c
  nodup : c.addrs.Nodup
  entries : (c.vals.map area.infos).Perm (added.map Call.info)
  lookup : ∀ path p, c.lookup cmpPropName path = some p ↔
    p ∈ c.vals ∧ tokens (area.infos p).name = path
  vals_used : ∀ p ∈ c.vals, p < area.bytesUsed
  names : ∀ call ∈ added, call.1.length < propNameMax ∧ 0 ∉ call.1 ∧ [] ∉ tokens call.1
  distinct : (added.map Prod.fst).Nodup

variable {added : List Call}

theorem inv_newPropArea (dataSize : Nat) : Inv (newPropArea dataSize) [] .leaf where
  root := rfl
  used := Nat.zero_lt_succ _
  rep := trivial
  nodup := nodup_nil
  entries := Perm.refl _
  lookup := by simp [Trie.vals]
  vals_used := by simp [Trie.vals]
  names := by simp
  distinct := nodup_nil

section

variable (h : Inv area added c)
include h

theorem Inv.hangs : Hangs area 0 none c where
  prop := by rw [h.root]; rfl
  value := nofun
  children := by rw [h.root]
  rep := h.rep
  nodup := h.nodup
  apart hmem := absurd (rep_allocated h.rep 0 hmem).1 (by omega)
  used := h.used

theorem Inv.length_addrs : c.addrs.length < area.bytesUsed := by
  have hsub : (0 :: c.addrs) ⊆ List.range area.bytesUsed := by
    intro a ha
    rw [mem_range]
    rcases mem_cons.mp ha with rfl | hmem
    · exact h.used
    · exact (rep_allocated h.rep a hmem).2.1
  have hnodup : (0 :: c.addrs).Nodup := nodup_cons.mpr ⟨h.hangs.apart, h.nodup⟩
  have hlen := (subperm_of_subset hnodup hsub).length_le
  rwa [length_cons, length_range] at hlen

theorem Inv.find_eq (name : Bytes) : systemPropertyFind area name
      = some (if [] ∈ tokens (cut name) then none
          else c.lookup cmpPropName (tokens (cut name))) := by
  rw [systemPropertyFind, findProperty_eq_resolve, tokens_cut,
    resolve_find h.hangs h.length_addrs.le name, map_some, Trie.lookupFrom_none]

theorem Inv.foreach_eq : systemPropertyForeach area = some (some c.vals) := by
  have hlen := h.length_addrs
  obtain ⟨rounds, hrounds⟩ : ∃ k, area.bytesUsed = k + 1 := ⟨area.bytesUsed - 1, by omega⟩
  have hvisit := visitOffset_trie h.rep (by omega : c.addrs.length ≤ rounds)
  have hzero : ∀ visit, visitOffset area visit 0 = some (some []) := fun _ => rfl
  rw [systemPropertyForeach, hrounds, foreachProperty]
  simp only [h.root, hzero, hvisit, visitThen, map_some, nil_append, append_nil]

theorem Inv.mem_vals_iff (info : PropInfo) :
    (∃ p ∈ c.vals, area.infos p = info) ↔ (info.name, info.value) ∈ added := by
  rw [← mem_map, h.entries.mem_iff, mem_map]
  constructor
  · rintro ⟨call, hcall, rfl⟩
    exact hcall
  · intro hmem
    exact ⟨_, hmem, rfl⟩

theorem Inv.lookup_iff (hzero : 0 ∉ name) (p : Nat) :
    c.lookup cmpPropName (tokens name) = some p ↔ p ∈ c.vals ∧ (area.infos p).name = name := by
  rw [h.lookup]
  refine and_congr_right fun hp => ⟨fun htokens => ?_, congrArg tokens⟩
  have hadded := (h.mem_vals_iff (area.infos p)).mp ⟨p, hp, rfl⟩
  exact tokens_injective (h.names _ hadded).2.1 hzero htokens

/-! ## Additions -/

theorem Inv.lookup_eq_none (hzero : 0 ∉ name) (hnew : name ∉ added.map Prod.fst) :
    c.lookup cmpPropName (tokens name) = none := by
  by_contra hsome
  obtain ⟨p, hp⟩ := ne_none_iff_exists'.mp hsome
  obtain ⟨hmem, hname⟩ := (h.lookup_iff hzero p).mp hp
  have hadded := (h.mem_vals_iff (area.infos p)).mp ⟨p, hmem, rfl⟩
  exact hnew (mem_map.mpr ⟨_, hadded, hname⟩)

theorem Inv.infos_eq {touched : List Nat} (hg : Grows touched area area') :
    ∀ p ∈ c.vals, area'.infos p = area.infos p :=
  fun p hp => hg.infos p (h.vals_used p hp)

/-- An addition that fails leaves the calls as they are, and one that succeeds adds its own. -/
theorem Inv.of_add {c' : PropTrie} {r : Option Nat} (hb : Becomes area area' 0 none c c')
    {value : Bytes} (hzero : 0 ∉ name) (hnew : name ∉ added.map Prod.fst)
    (hlen : name.length < propNameMax)
    (hresult : AddResult area area' none none c c' (tokens name) { name, value } r) :
    Inv area' (if r.isSome then (name, value) :: added else added) c' := by
  have hperm : c'.vals.Perm (r.toList ++ c.vals) := hresult.vals
  have hinfos := h.infos_eq hb.grows
  have hlookup : ∀ path, c'.lookup cmpPropName path = if path = tokens name then
      r.or (c.lookup cmpPropName path) else c.lookup cmpPropName path := by
    simpa only [Trie.lookupFrom_none] using hresult.lookup
  have hroot : area'.bts 0 = { children := c'.addr } := by rw [hb.bt, h.root]; rfl
  have hused := h.used.trans_le hb.grows.bytesUsed
  cases r with
  | none =>
    have hsame : ∀ path, c'.lookup cmpPropName path = c.lookup cmpPropName path := by
      simpa using hlookup
    refine ⟨hroot, hused, hb.rep, hb.nodup, ?_, fun path p => ?_,
      fun p hp => ?_, h.names, h.distinct⟩
    · refine (hperm.map area'.infos).trans ?_
      rw [toList_none, nil_append, map_congr_left hinfos]
      exact h.entries
    · rw [hsame, h.lookup, hperm.mem_iff]
      refine and_congr_right fun hp => ?_
      rw [hinfos p hp]
    · exact (h.vals_used p (hperm.subset hp)).trans_le hb.grows.bytesUsed
  | some p =>
    obtain ⟨hne, hle, halloc, hinfo⟩ := hresult.new p rfl
    have hmissing := h.lookup_eq_none hzero hnew
    refine ⟨hroot, hused, hb.rep, hb.nodup, ?_, fun path q => ?_, fun q hq => ?_,
      forall_mem_cons.mpr ⟨⟨hlen, hzero, hne⟩, h.names⟩, nodup_cons.mpr ⟨hnew, h.distinct⟩⟩
    · refine (hperm.map area'.infos).trans ?_
      rw [toList_some, singleton_append, map_cons, map_congr_left hinfos, hinfo]
      exact h.entries.cons _
    · rw [hlookup, hperm.mem_iff, toList_some, singleton_append, mem_cons]
      split_ifs with hpath
      · subst hpath
        constructor
        · rintro ⟨⟩
          exact ⟨.inl rfl, by rw [hinfo]⟩
        · rintro ⟨rfl | hq, htokens⟩
          · rfl
          · rw [hinfos q hq] at htokens
            rw [(h.lookup _ q).mpr ⟨hq, htokens⟩] at hmissing
            cases hmissing
      · rw [h.lookup]
        constructor
        · rintro ⟨hq, htokens⟩
          exact ⟨.inr hq, by rwa [hinfos q hq]⟩
        · rintro ⟨rfl | hq, htokens⟩
          · rw [hinfo] at htokens
            exact absurd htokens.symm hpath
          · exact ⟨hq, by rwa [hinfos q hq] at htokens⟩
    · rcases mem_cons.mp (hperm.subset hq) with rfl | hmem
      · exact halloc.2.1
      · exact (h.vals_used q hmem).trans_le hb.grows.bytesUsed

theorem Inv.with_serial (serial : UInt32) : Inv { area with serial := serial } added c := by
  have hg : Grows [] area { area with serial := serial } :=
    ⟨rfl, le_rfl, fun _ _ _ => rfl, fun _ _ => rfl⟩
  exact { h with rep := rep_grows hg h.rep (by simp) }

/-- An addition succeeds and adds one entry, or fails and changes no lookup. -/
theorem Inv.add (hzero : 0 ∉ name) (hnew : name ∉ added.map Prod.fst) (value : Bytes) :
    ∃ area' c' ok, systemPropertyAdd area name value = some (area', ok) ∧
      Inv area' (if ok then (name, value) :: added else added) c' ∧
      (ok = false → (∀ path, c'.lookup cmpPropName path = c.lookup cmpPropName path) ∧
        ∀ p ∈ c.vals, area'.infos p = area.infos p) := by
  rw [systemPropertyAdd]
  split_ifs with hname hvalue hempty
  iterate 3 exact ⟨area, c, false, rfl, h, fun _ => ⟨fun _ => rfl, fun _ _ => rfl⟩⟩
  have hshort : ∀ tok ∈ tokens name, tok.length < 256 := by
    intro tok htok
    have := (mem_tokens htok).2.2
    simp only [propNameMax] at hname
    omega
  have hcut := map_substr_of_short hshort
  have hmissing := h.lookup_eq_none hzero hnew
  rw [← hcut, ← Trie.lookupFrom_none] at hmissing
  obtain ⟨area', v', c', r, hresolve, hb, hv', hresult⟩ :=
    resolve_add h.hangs h.length_addrs.le h.used name value (tokens name) hmissing
  obtain rfl := hv' (tokens_ne_nil name)
  rw [hcut] at hresult
  have hinv := h.of_add hb hzero hnew (by omega) hresult
  rw [findProperty_eq_resolve, hresolve]
  cases r with
  | none =>
    refine ⟨area', c', false, rfl, hinv, fun _ => ⟨?_, h.infos_eq hb.grows⟩⟩
    simpa only [Trie.lookupFrom_none, none_or, ite_self] using hresult.lookup
  | some p => exact ⟨_, c', true, rfl, hinv.with_serial _, nofun⟩

/-! ## Sequences of additions -/

/-- The area after some calls, and those of them that succeeded, last first. -/
def addAll : PropArea → List Call → List Call → Option (PropArea × List Call)
  | area, added, [] => some (area, added)
  | area, added, (name, value) :: calls =>
    match systemPropertyAdd area name value with
    | none => none
    | some (area, ok) => addAll area (if ok then (name, value) :: added else added) calls

theorem Inv.addAll (calls : List Call) (hdistinct : (calls.map Prod.fst).Nodup)
    (hzero : ∀ name ∈ calls.map Prod.fst, 0 ∉ name)
    (hnew : ∀ name ∈ calls.map Prod.fst, name ∉ added.map Prod.fst) :
    ∃ area' added' c', addAll area added calls = some (area', added') ∧ Inv area' added' c' ∧
      ∀ name ∈ added'.map Prod.fst, name ∈ calls.map Prod.fst ∨ name ∈ added.map Prod.fst := by
  induction calls generalizing area added c with
  | nil => exact ⟨area, added, c, rfl, h, fun name hname => Or.inr hname⟩
  | cons call calls ih =>
    obtain ⟨name, value⟩ := call
    rw [map_cons, nodup_cons] at hdistinct
    rw [map_cons, forall_mem_cons] at hzero
    obtain ⟨area₁, c₁, ok, hadd, hinv, -⟩ := h.add hzero.1 (hnew name (by simp)) value
    obtain ⟨area', added', c', hall, hinv', hadded⟩ := ih hinv hdistinct.2 hzero.2 (by
      intro name' hname' hmem
      cases ok with
      | false => exact hnew name' (by simpa using Or.inr hname') hmem
      | true =>
        rcases mem_cons.mp hmem with rfl | hmem
        · exact hdistinct.1 hname'
        · exact hnew name' (mem_cons_of_mem _ hname') hmem)
    refine ⟨area', added', c', by rw [SystemProperties.addAll, hadd]; exact hall, hinv', ?_⟩
    intro name' hname'
    rcases hadded name' hname' with hmem | hmem
    · exact Or.inl (mem_cons_of_mem _ hmem)
    · cases ok with
      | false => exact Or.inr hmem
      | true =>
        rcases mem_cons.mp hmem with rfl | hmem
        · exact Or.inl mem_cons_self
        · exact Or.inr hmem

/-- The area behaves as the finite map of the calls that succeeded: for the lookup of one
name, for one more call that fails, and for the traversal. -/
structure FiniteMap (area : PropArea) (calls added : List Call) (name : Bytes) : Prop where
  find : ∃ found, systemPropertyFind area name = some found ∧
    (found.isSome = true ↔ name ∈ added.map Prod.fst) ∧
    ∀ p, found = some p → ∃ value, (name, value) ∈ added ∧
      area.infos p = { name := name, value := value }
  failed : ∀ newName value area', 0 ∉ newName → newName ∉ calls.map Prod.fst →
    systemPropertyAdd area newName value = some (area', false) →
      ∀ other, systemPropertyFind area' other = systemPropertyFind area other ∧
        ∀ p, systemPropertyFind area other = some (some p) → area'.infos p = area.infos p
  foreach : ∃ visited, systemPropertyForeach area = some (some visited) ∧ visited.Nodup ∧
    (visited.map area.infos).Perm (added.map Call.info)

/-- What a lookup returns, for the name it is cut to. -/
theorem Inv.find_cut (name : Bytes) :
    ∃ found, systemPropertyFind area name = some found ∧
      (found.isSome = true ↔ cut name ∈ added.map Prod.fst) ∧
      ∀ p, found = some p → ∃ value, (cut name, value) ∈ added ∧
        area.infos p = { name := cut name, value := value } := by
  refine ⟨_, h.find_eq name, ?_⟩
  split_ifs with hempty
  · refine ⟨?_, nofun⟩
    simp only [isSome_none, Bool.false_eq_true, false_iff, mem_map, not_exists, not_and]
    intro call hcall heq
    exact (h.names call hcall).2.2 (heq ▸ hempty)
  · have hentry := h.lookup_iff (zero_notMem_cut name)
    constructor
    · rw [isSome_iff_exists]
      constructor
      · rintro ⟨p, hp⟩
        obtain ⟨hmem, hname⟩ := (hentry p).mp hp
        have hadded := (h.mem_vals_iff (area.infos p)).mp ⟨p, hmem, rfl⟩
        exact mem_map.mpr ⟨_, hadded, hname⟩
      · intro hmem
        obtain ⟨call, hcall, hname⟩ := mem_map.mp hmem
        obtain ⟨p, hp, hinfo⟩ := (h.mem_vals_iff (Call.info call)).mpr hcall
        exact ⟨p, (hentry p).mpr ⟨hp, by rw [hinfo]; exact hname⟩⟩
    · intro p hp
      obtain ⟨hmem, hname⟩ := (hentry p).mp hp
      have hadded := (h.mem_vals_iff (area.infos p)).mp ⟨p, hmem, rfl⟩
      rw [hname] at hadded
      refine ⟨(area.infos p).value, hadded, ?_⟩
      rw [← hname]

theorem Inv.failed {newName value : Bytes} (hzero : 0 ∉ newName)
    (hnew : newName ∉ added.map Prod.fst)
    (hadd : systemPropertyAdd area newName value = some (area', false)) (other : Bytes) :
    systemPropertyFind area' other = systemPropertyFind area other ∧
      ∀ p, systemPropertyFind area other = some (some p) → area'.infos p = area.infos p := by
  obtain ⟨area₁, c', ok, hadd', hinv, hsame⟩ := h.add hzero hnew value
  obtain ⟨rfl, rfl⟩ : area₁ = area' ∧ ok = false := by
    rw [hadd] at hadd'
    cases hadd'
    exact ⟨rfl, rfl⟩
  obtain ⟨hlookup, hinfos⟩ := hsame rfl
  refine ⟨by rw [hinv.find_eq, h.find_eq, hlookup], ?_⟩
  intro p hp
  rw [h.find_eq] at hp
  split_ifs at hp
  · cases hp
  · exact hinfos p ((h.lookup _ p).mp (some.inj hp)).1

theorem Inv.foreach :
    ∃ visited, systemPropertyForeach area = some (some visited) ∧ visited.Nodup ∧
      (visited.map area.infos).Perm (added.map Call.info) := by
  refine ⟨c.vals, h.foreach_eq, ?_, h.entries⟩
  have hnames : ((added.map Call.info).map PropInfo.name).Nodup := by
    rw [map_map]
    exact h.distinct
  exact Nodup.of_map _ (h.entries.nodup_iff.mpr (Nodup.of_map _ hnames))

theorem Inv.name_not_added (hlong : ¬ ∀ tok ∈ tokens name, tok.length < 256) :
    name ∉ added.map Prod.fst := by
  intro hmem
  obtain ⟨call, hcall, rfl⟩ := mem_map.mp hmem
  apply hlong
  intro tok htok
  have hlen := (h.names call hcall).1
  have htok := (mem_tokens htok).2.2
  simp only [propNameMax] at hlen
  omega

end

/-- For every sequence of additions of names without a zero byte and every name that is looked up,
the area behaves as the finite map of the additions that succeeded, iff no token of the name is 256
bytes or longer, or the name that it is cut to was not added. -/
theorem finiteMap_iff (dataSize : Nat) (calls : List Call)
    (hdistinct : (calls.map Prod.fst).Nodup) (hzero : ∀ added ∈ calls.map Prod.fst, 0 ∉ added)
    (name : Bytes) (hname : 0 ∉ name) :
    ∃ area added, addAll (newPropArea dataSize) [] calls = some (area, added) ∧
      (FiniteMap area calls added name ↔
        (∀ tok ∈ tokens name, tok.length < 256) ∨ cut name ∉ added.map Prod.fst) := by
  obtain ⟨area, added, c, hall, h, hadded⟩ :=
    (inv_newPropArea dataSize).addAll calls hdistinct hzero (by simp)
  refine ⟨area, added, hall, ?_⟩
  obtain ⟨found, hfind, hsome, hentry⟩ := h.find_cut name
  constructor
  · intro hmap
    obtain ⟨found', hfind', hsome', -⟩ := hmap.find
    obtain rfl : found = found' := some.inj (hfind.symm.trans hfind')
    refine or_iff_not_imp_left.mpr fun hlong => ?_
    rw [← hsome, hsome']
    exact h.name_not_added hlong
  · intro hcond
    refine ⟨⟨found, hfind, ?_⟩, ?_, h.foreach⟩
    · by_cases hshort : ∀ tok ∈ tokens name, tok.length < 256
      · rw [cut_of_short hname hshort] at hsome hentry
        exact ⟨hsome, hentry⟩
      · have hnone : ¬ found.isSome = true := fun hf => hcond.resolve_left hshort (hsome.mp hf)
        refine ⟨⟨fun hf => absurd hf hnone, fun hmem => absurd hmem (h.name_not_added hshort)⟩, ?_⟩
        rintro p rfl
        exact absurd rfl hnone
    · intro newName value area' hzero hnew hadd other
      exact h.failed hzero (fun hmem => hnew (by simpa using hadded newName hmem)) hadd other

def foo : Bytes := [102, 111, 111]
def fooBar : Bytes := [102, 111, 111, 46, 98, 97, 114]

/-- `foo` and 256 more bytes: a token of 259 bytes, of which 3 are looked at. -/
def fooLong : Bytes := foo ++ List.replicate 256 120

theorem finiteMap_iff_fooBar :
    ∃ area added, addAll (newPropArea 200) [] [(foo, [49]), (fooBar, [50])] = some (area, added) ∧
      (FiniteMap area [(foo, [49]), (fooBar, [50])] added fooBar ↔
        (∀ tok ∈ tokens fooBar, tok.length < 256) ∨ cut fooBar ∉ added.map Prod.fst) :=
  finiteMap_iff 200 [(foo, [49]), (fooBar, [50])] (by decide) (by decide) fooBar (by decide)

/-- A name that was never added is found, as `foo`. -/
theorem find_fooLong_finds_foo :
    ∃ area p, addAll (newPropArea 130944) [] [(foo, [49])] = some (area, [(foo, [49])]) ∧
      fooLong ≠ foo ∧ systemPropertyFind area fooLong = some (some p) ∧
      area.infos p = { name := foo, value := [49] } := by
  obtain ⟨area, added, c, hall, h, -⟩ :=
    (inv_newPropArea 130944).addAll [(foo, [49])] (by decide) (by decide) (by simp)
  have hadded : (addAll (newPropArea 130944) [] [(foo, [49])]).map Prod.snd
    = some [(foo, [49])] := rfl
  obtain rfl : added = [(foo, [49])] := by
    rw [hall] at hadded
    exact some.inj hadded
  have hcut : cut fooLong = foo := by decide +kernel
  obtain ⟨found, hfind, hsome, hentry⟩ := h.find_cut fooLong
  rw [hcut] at hsome hentry
  obtain ⟨p, rfl⟩ := isSome_iff_exists.mp (hsome.mpr (by simp))
  obtain ⟨value, hvalue, hinfo⟩ := hentry p rfl
  obtain rfl : value = [49] := by simpa using hvalue
  exact ⟨area, p, hall, by decide +kernel, hfind, hinfo⟩

end ShieldTv.Bionic.SystemProperties
