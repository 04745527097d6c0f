import Immwrt.Bcm4908img.Image
import Immwrt.Lib.Align
import Immwrt.Lib.Partial

/-!
# Walking over the bootfs

`bootfs ls` prints the names of the dirents, `bootfs mv` looks for one of them. Both go from node to node by
the length that a node has in the image, and neither has a bound.
-/

namespace Immwrt.Bcm4908img

/-- One turn of the loop of `bootfs ls`: an error, the end, a name that is printed, or another node. -/
inductive LsTurn where
  | failed
  | last
  | dirent (name : CString)
  | tooLong
  | other

def lsTurn (img : List Byte) (offset : Nat) : LsTurn :=
  let node := slice img offset sizeofNode
  if node.length ≠ sizeofNode then .failed
  else if ofLe16 (node.take 2) ≠ jffs2MagicBitmask then .last
  else if ofLe16 (slice node 2 2) ≠ jffs2NodetypeDirent then .other
  else if (slice img offset sizeofDirent).length ≠ sizeofDirent then .failed
  else
    let nsize := direntNsize img offset
    if nsize + 1 > filenameMax + 1 then .tooLong
    else
      let name := slice img (offset + sizeofDirent) nsize
      if name.length ≠ nsize then .failed else .dirent (CString.ofBytes name)

/-- The return value of `bootfs ls` and the lines that it prints; `none` when it does not end. -/
def lsLoop (img : List Byte) : Nat → Nat → Except Errno Unit → List CString →
    Option (Except Errno Unit × List CString)
  | 0, _, _, _ => none
  | fuel + 1, offset, err, lines =>
    match lsTurn img offset with
    | .failed => some (.error .eio, lines)
    | .last => some (err, lines)
    | .dirent name => lsLoop img fuel (offset + nodeLength img offset) err (lines ++ [name])
    | .tooLong => lsLoop img fuel (offset + nodeLength img offset) (.error .enomem) lines
    | .other => lsLoop img fuel (offset + nodeLength img offset) err lines

def bcm4908imgBootfsLs (img : List Byte) (info : Info) (fuel : Nat) :
    Option (Except Errno Unit × List CString) :=
  lsLoop img fuel info.bootfsOffset (.ok ()) []

/-- The loop has another turn. -/
def LsTurn.goesOn : LsTurn → Bool
  | .failed | .last => false
  | .dirent _ | .tooLong | .other => true

/-- The node that `bootfs ls` comes to after the one at `offset`. -/
def lsNext (img : List Byte) (offset : Nat) : Option Nat :=
  if (lsTurn img offset).goesOn then some (offset + nodeLength img offset) else none

/-- `strcmp` of the name of a dirent finds the one that is looked for. -/
def LsTurn.found (oldname : CString) : LsTurn → Bool
  | .dirent name => name = oldname
  | _ => false

/-- The node that `bootfs mv` comes to after the one at `offset`. -/
def mvNext (img : List Byte) (oldname : CString) (offset : Nat) : Option Nat :=
  if (lsTurn img offset).found oldname then none else lsNext img offset

/-- Both commands return, whatever the names, and the nodes they come to lie one behind another. -/
structure WalksEnd (img : List Byte) (info : Info) : Prop where
  ls : ∃ fuel, bcm4908imgBootfsLs img info fuel ≠ none
  mv : ∀ oldname newname junk, ∃ fuel, bcm4908imgBootfsMv img info oldname newname junk fuel ≠ none
  lsIncreasing : Partial.Increasing (lsNext img) info.bootfsOffset
  mvIncreasing : ∀ oldname, Partial.Increasing (mvNext img oldname) info.bootfsOffset

end Immwrt.Bcm4908img
