/-!
# Byte strings

The images of rows, pages, files and log records. A byte string is a list, so that cutting and joining
are the list operations and every law about an image is a law about lists.
-/

namespace RowStore

abbrev Bytes := List UInt8

namespace Bytes

def zeros (n : Nat) : Bytes := List.replicate n 0

/-- The bytes that pieces take up together. -/
def total {α : Type} (size : α → Nat) : List α → Nat
  | [] => 0
  | piece :: pieces => size piece + total size pieces

theorem total_append {α : Type} (size : α → Nat) (front back : List α) :
    total size (front ++ back) = total size front + total size back := by
  induction front with
  | nil => exact (Nat.zero_add _).symm
  | cons piece front ih =>
    rw [List.cons_append, total, total, ih, Nat.add_assoc]

theorem length_flatMap {α : Type} (write : α → Bytes) (pieces : List α) :
    (pieces.flatMap write).length = total (fun piece => (write piece).length) pieces := by
  induction pieces with
  | nil => rfl
  | cons piece pieces ih => rw [List.flatMap_cons, List.length_append, ih, total]

/-- The first `n` bytes, followed by zeros if there are fewer. -/
def fit (n : Nat) (bs : Bytes) : Bytes := bs.take n ++ zeros (n - bs.length)

@[simp] theorem length_zeros (n : Nat) : (zeros n).length = n := List.length_replicate

@[simp] theorem length_fit (n : Nat) (bs : Bytes) : (fit n bs).length = n := by
  simp only [fit, List.length_append, List.length_take, length_zeros]
  omega

/-- The contents after `data` is written at `offset`. A gap before it reads as zeros, and a write of
nothing changes nothing. -/
def overwrite (offset : Nat) (data bs : Bytes) : Bytes :=
  if data.isEmpty then bs else fit offset bs ++ data ++ bs.drop (offset + data.length)

theorem length_overwrite (offset : Nat) (data bs : Bytes) (h : offset + data.length ≤ bs.length) :
    (overwrite offset data bs).length = bs.length := by
  unfold overwrite
  split
  · rfl
  · simp only [List.length_append, length_fit, List.length_drop]
    omega

end Bytes

end RowStore
