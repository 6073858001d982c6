import ThreadLocal.Edit.Basic
import ThreadLocal.Text.Utf8

/-!
Applying the edits of one file in a single pass. Offsets count in the content as it was, so no edit shifts
another.
-/

namespace ThreadLocal

inductive PatchFault where
  | overlap (offset previousEnd : Int)
  | outOfBounds (offset length : Int) (size : Nat)
deriving DecidableEq, Repr

def PatchFault.message : PatchFault → String
  | .overlap offset previousEnd =>
    "Rewrite overlaps or is out of order: offset=" ++ toString offset ++ ", previous end=" ++ toString previousEnd
  | .outOfBounds offset length size =>
    "Rewrite out of bounds: offset=" ++ toString offset ++ ", length=" ++ toString length ++ ", size=" ++ toString size

namespace Patch

/-- Applies edits to the content from `cursor` on. -/
def applyFrom (content : Bytes) (cursor : Int) : List Edit → Except PatchFault Bytes
  | [] => .ok (content.drop (Bytes.index content.length cursor))
  | e :: rest =>
    if e.offset < cursor then .error (.overlap e.offset cursor)
    else if (content.length : Int) < e.offset + e.length then
      .error (.outOfBounds e.offset e.length content.length)
    else
      match applyFrom content (e.offset + e.length) rest with
      | .error f => .error f
      | .ok tail => .ok (content.slice cursor e.offset ++ Bytes.ofText e.text ++ tail)

end Patch

/-- The content with the edits made; they have to come in ascending order without overlap. -/
def patch (content : Bytes) (edits : List Edit) : Except PatchFault Bytes :=
  Patch.applyFrom content 0 edits

end ThreadLocal
