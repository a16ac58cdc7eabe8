import RowStore.Bytes.Basic

/-!
# Write buffers

A writer to a file may hold pieces back and let them out together. The buffer has a fixed capacity: a piece that does
not fit behind the held ones drives them out first, and a piece as large as the whole buffer is never held. Pieces reach
the file in the order in which they are written, and none is lost.
-/

namespace RowStore

namespace WriteBuffer

def capacity : Nat := 8192

/-- Writes a piece behind the held ones, and gives those that go out to the file and those that are held from then on. -/
def push {α : Type} (size : α → Nat) (held : List α) (piece : α) : List α × List α :=
  if capacity ≤ size piece then (held ++ [piece], [])
  else if capacity < Bytes.total size held + size piece then (held, [piece])
  else ([], held ++ [piece])

theorem push_append {α : Type} (size : α → Nat) (held : List α) (piece : α) :
    (push size held piece).1 ++ (push size held piece).2 = held ++ [piece] := by
  unfold push
  split
  · exact List.append_nil _
  · split
    · rfl
    · exact List.nil_append _

end WriteBuffer

end RowStore
