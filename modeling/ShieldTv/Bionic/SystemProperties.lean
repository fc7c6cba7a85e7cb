import ShieldTv.Lib.Bytes

/-!
# The property area

Properties are kept in a trie over the dot-separated tokens of their names; the siblings of
a level are a binary tree. Nodes are allocated from the area and refer to each other by
offset, where 0 (the root) means none. Memory that has not been allocated is zero.

A loop over nodes gets a number of rounds; `none` means that it has not ended by then.
-/

namespace ShieldTv.Bionic

def propNameMax : Nat := 32
def propValueMax : Nat := 92

namespace SystemProperties

/-- `sizeof(prop_bt)` and `sizeof(prop_info)`, without the name. -/
def sizeofPropBt : Nat := 20
def sizeofPropInfo : Nat := 96

/-- `prop_bt`; `namelen` is the length of `name`. -/
structure PropBt where
  name : Bytes := []
  prop : Nat := 0
  left : Nat := 0
  right : Nat := 0
  children : Nat := 0

/-- `prop_info`: the name and the value it was made with. -/
structure PropInfo where
  name : Bytes := []
  value : Bytes := []
  deriving DecidableEq

/-- `prop_area`, its data by offset, and `pa_data_size`. -/
structure PropArea where
  dataSize : Nat
  bytesUsed : Nat
  serial : UInt32
  bts : Nat → PropBt
  infos : Nat → PropInfo

def newPropArea (dataSize : Nat) : PropArea where
  dataSize := dataSize
  bytesUsed := sizeofPropBt
  serial := 0
  bts := fun _ => {}
  infos := fun _ => {}

/-! ## Allocation -/

def allocateObj (area : PropArea) (size : Nat) : Option (PropArea × Nat) :=
  let aligned := (size + 3) / 4 * 4
  if area.bytesUsed + aligned > area.dataSize then none
  else some ({ area with bytesUsed := area.bytesUsed + aligned }, area.bytesUsed)

def newPropBt (area : PropArea) (name : Bytes) : Option (PropArea × Nat) :=
  (allocateObj area (sizeofPropBt + name.length + 1)).map fun (area, off) =>
    ({ area with bts := Function.update area.bts off { name := name } }, off)

def newPropInfo (area : PropArea) (name value : Bytes) : Option (PropArea × Nat) :=
  (allocateObj area (sizeofPropInfo + name.length + 1)).map fun (area, off) =>
    ({ area with infos := Function.update area.infos off { name := name, value := value } }, off)

def toPropObj (area : PropArea) (off : Nat) : Option Nat :=
  if off > area.dataSize then none else some off

def modifyBt (area : PropArea) (off : Nat) (f : PropBt → PropBt) : PropArea :=
  { area with bts := Function.update area.bts off (f (area.bts off)) }

/-! ## Names -/

/-- On tokens, which have no zero byte. -/
def strncmp : Bytes → Bytes → Ordering
  | a :: as, b :: bs => if a < b then .lt else if b < a then .gt else strncmp as bs
  | _, _ => .eq

/-- `cmp_prop_name`: the shorter name first. -/
def cmpPropName (one two : Bytes) : Ordering :=
  if one.length < two.length then .lt
  else if two.length < one.length then .gt
  else strncmp one two

/-- The part of a token that is looked at: its length is kept in a `uint8_t`. -/
def substr (token : Bytes) : Bytes := token.take (token.length % 256)

/-- A name as `strchr` and `strlen` see it: it ends before its first zero byte. -/
def cString (name : Bytes) : Bytes := name.takeWhile (· ≠ 0)

/-- The tokens of a name: `strchr(remaining_name, '.')` again and again. -/
def tokens (name : Bytes) : List Bytes := (cString name).splitOn 46

/-! ## Search -/

/-- The two pointers between siblings. -/
inductive Side where
  | left
  | right

def PropBt.sibling (bt : PropBt) : Side → Nat
  | .left => bt.left
  | .right => bt.right

def PropBt.setSibling (bt : PropBt) (off : Nat) : Side → PropBt
  | .left => { bt with left := off }
  | .right => { bt with right := off }

/-- One round of `find_prop_bt` at a node with another name; `next` is the rest of the loop.
The source has this branch twice, once for each side. -/
def descend (allocIfNeeded : Bool) (name : Bytes) (area : PropArea) (current : Nat)
    (side : Side) (next : Nat → Option (PropArea × Option Nat)) :
    Option (PropArea × Option Nat) :=
  let off := (area.bts current).sibling side
  if off ≠ 0 then
    match toPropObj area off with
    | none => some (area, none)
    | some sibling => next sibling
  else if allocIfNeeded then
    match newPropBt area name with
    | none => some (area, none)
    | some (area, new) =>
      some (modifyBt area current (fun bt => bt.setSibling new side), some new)
  else some (area, none)

def findPropBt (allocIfNeeded : Bool) (name : Bytes) :
    Nat → PropArea → Nat → Option (PropArea × Option Nat)
  | 0, _, _ => none
  | rounds + 1, area, current =>
    match cmpPropName name (area.bts current).name with
    | .eq => some (area, some current)
    | .lt => descend allocIfNeeded name area current .left
        (findPropBt allocIfNeeded name rounds area)
    | .gt => descend allocIfNeeded name area current .right
        (findPropBt allocIfNeeded name rounds area)

/-- The tree of the children of a node, with a first node made if needed. -/
def findChildren (allocIfNeeded : Bool) (area : PropArea) (current : Nat) (name : Bytes) :
    PropArea × Option Nat :=
  let off := (area.bts current).children
  if off ≠ 0 then (area, toPropObj area off)
  else if allocIfNeeded then
    match newPropBt area name with
    | none => (area, none)
    | some (area, new) => (modifyBt area current (fun bt => { bt with children := new }), some new)
  else (area, none)

def findToken (allocIfNeeded : Bool) (rounds : Nat) (area : PropArea) (current : Nat)
    (name : Bytes) : Option (PropArea × Option Nat) :=
  match findChildren allocIfNeeded area current name with
  | (area, none) => some (area, none)
  | (area, some root) => findPropBt allocIfNeeded name rounds area root

def findNode (allocIfNeeded : Bool) (rounds : Nat) :
    PropArea → Nat → List Bytes → Option (PropArea × Option Nat)
  | area, current, [] => some (area, some current)
  | area, current, token :: rest =>
    if (substr token).length = 0 then some (area, none)
    else
      match findToken allocIfNeeded rounds area current (substr token) with
      | none => none
      | some (area, none) => some (area, none)
      | some (area, some current) => findNode allocIfNeeded rounds area current rest

/-- The end of `find_property`, at the node of the last token; the value is there if the
property is to be made. -/
def findInfo (area : PropArea) (current : Nat) (name : Bytes) (value : Option Bytes) :
    PropArea × Option Nat :=
  let off := (area.bts current).prop
  if off ≠ 0 then (area, toPropObj area off)
  else
    match value with
    | none => (area, none)
    | some value =>
      match newPropInfo area name value with
      | none => (area, none)
      | some (area, new) => (modifyBt area current (fun bt => { bt with prop := new }), some new)

/-- `find_property` from the root; `alloc_if_needed` is that there is a value. -/
def findProperty (rounds : Nat) (area : PropArea) (name : Bytes)
    (value : Option Bytes) : Option (PropArea × Option Nat) :=
  match findNode value.isSome rounds area 0 (tokens name) with
  | none => none
  | some (area, none) => some (area, none)
  | some (area, some current) => some (findInfo area current name value)

/-! ## The interface -/

def systemPropertyFind (area : PropArea) (name : Bytes) : Option (Option Nat) :=
  (findProperty area.bytesUsed area name none).map Prod.snd

/-- `__system_property_add`; `true` is success. -/
def systemPropertyAdd (area : PropArea) (name value : Bytes) : Option (PropArea × Bool) :=
  if name.length ≥ propNameMax then some (area, false)
  else if value.length ≥ propValueMax then some (area, false)
  else if name.length < 1 then some (area, false)
  else
    (findProperty area.bytesUsed area name (some value)).map fun
      | (area, none) => (area, false)
      | (area, some _) => ({ area with serial := area.serial + 1 }, true)

/-- The entries visited one after the other, where -1 (`some none`) ends the traversal. -/
def visitThen : Option (Option (List Nat)) → Option (Option (List Nat)) → Option (Option (List Nat))
  | none, _ => none
  | some none, _ => some none
  | some (some visited), rest => rest.map (Option.map (visited ++ ·))

/-- A pointer of `foreach_property`, where `visit` is what is done with what it points to. -/
def visitOffset (area : PropArea) (visit : Nat → Option (Option (List Nat))) (off : Nat) :
    Option (Option (List Nat)) :=
  if off ≠ 0 then
    match toPropObj area off with
    | none => some none
    | some obj => visit obj
  else some (some [])

/-- `foreach_property`: the entries it passes to `propfn`, in order. -/
def foreachProperty : Nat → PropArea → Nat → Option (Option (List Nat))
  | 0, _, _ => none
  | rounds + 1, area, trie =>
    let bt := area.bts trie
    let recurse := foreachProperty rounds area
    visitThen (visitOffset area recurse bt.left)
      (visitThen (visitOffset area (fun info => some (some [info])) bt.prop)
        (visitThen (visitOffset area recurse bt.children) (visitOffset area recurse bt.right)))

def systemPropertyForeach (area : PropArea) : Option (Option (List Nat)) :=
  foreachProperty area.bytesUsed area 0

end SystemProperties

end ShieldTv.Bionic
