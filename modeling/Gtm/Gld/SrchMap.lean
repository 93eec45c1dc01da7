import Gtm.Gds.Entries

/-!
# Maps of a global directory

A global directory says where a global is kept: its maps are in the order of their keys, and each of them has the names from the key
of the map before it up to its own. `gv_srch_map` finds the map of a name among all of them, `gv_srch_map_linear` and
`gv_srch_map_linear_backward` from a map near it.

A key stands in memory with its two final delimiters, and whatever comes behind. A name is given without the delimiters, but its
length. An index of a map is its pointer; a search that would leave the array has no result.
-/

namespace Gtm

/-- `gd_binding`: the memory from `gvkey.addr` on, and `gvkey_len`, which leaves out the second of the final delimiters. -/
structure GdBinding where
  gvkey : Nat → UInt8
  gvkeyLen : Nat

/-- `gd_addr`. -/
structure GdAddr where
  maps : Nat → GdBinding
  nMaps : Nat

/-- `memcmp` of a string with the memory from `off` on, over the length of the string. -/
def memcmp (mem : Nat → UInt8) : List UInt8 → Nat → Ordering
  | [], _ => .eq
  | c :: s, off => (compare c (mem off)).then (memcmp mem s (off + 1))

/-- The loop of `gv_srch_map`. `low` does not get above `high`. -/
def gvSrchMapLoop (addr : GdAddr) (key : List UInt8) (low high : Nat) : Nat :=
  if low < high then
    let mid := (low + high) / 2
    let map := addr.maps mid
    match memcmp map.gvkey key 0 with
    | .lt => gvSrchMapLoop addr key low mid
    | .gt => gvSrchMapLoop addr key (mid + 1) high
    | .eq => if key.length < map.gvkeyLen - 1 then gvSrchMapLoop addr key low mid else mid + 1
  else low
termination_by high - low

/-- `gv_srch_map`: past the local locks and the first map, which is that of `%`. -/
def gvSrchMap (addr : GdAddr) (key : List UInt8) : Nat := gvSrchMapLoop addr key 2 (addr.nMaps - 1)

/-- `gv_srch_map_linear`, with the number of maps from `map` on. -/
def gvSrchMapLinearLoop (addr : GdAddr) (key : List UInt8) : Nat → Nat → Option Nat
  | 0, _ => none
  | n + 1, map =>
    match memcmp (addr.maps map).gvkey key 0 with
    | .gt => gvSrchMapLinearLoop addr key n (map + 1)
    | .lt => some map
    | .eq => if key.length < (addr.maps map).gvkeyLen - 1 then some map else some (map + 1)

def gvSrchMapLinear (addr : GdAddr) (startMap : Nat) (key : List UInt8) : Option Nat :=
  gvSrchMapLinearLoop addr key (addr.nMaps - startMap) startMap

/-- `gv_srch_map_linear_backward`. -/
def gvSrchMapLinearBackward (addr : GdAddr) (key : List UInt8) (map : Nat) : Option Nat :=
  let back := match map with
    | 0 => none
    | map + 1 => gvSrchMapLinearBackward addr key map
  match memcmp (addr.maps map).gvkey key 0 with
  | .gt => some (map + 1)
  | .lt => back
  | .eq => if key.length < (addr.maps map).gvkeyLen - 1 then back else some (map + 1)

/-- The keys of the maps: in memory, and ascending. -/
structure GdAddr.Keys (addr : GdAddr) (k : Nat → List UInt8) : Prop where
  stored {i : Nat} (hi : i < addr.nMaps) :
    (∀ j (hj : j < (k i).length), (addr.maps i).gvkey j = (k i)[j]) ∧ (addr.maps i).gvkey (k i).length = keyDelimiter ∧
      (addr.maps i).gvkey ((k i).length + 1) = keyDelimiter
  length {i : Nat} (hi : i < addr.nMaps) : (addr.maps i).gvkeyLen = (k i).length + 1
  ascending {i j : Nat} (hij : i < j) (hj : j < addr.nMaps) : k i < k j

/-- A name to search for: a key without its final delimiters. -/
def isName (key : List UInt8) : Bool := isKey (key ++ [keyDelimiter, keyDelimiter])

/-- The map of a name: the name is not below the key before it, and below its own. -/
structure GdAddr.Routes (addr : GdAddr) (k : Nat → List UInt8) (name : List UInt8) (map : Nat) : Prop where
  inside : map < addr.nMaps
  pos : 0 < map
  ge : k (map - 1) ≤ name
  lt : name < k map

end Gtm
