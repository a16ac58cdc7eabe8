import RowStore.Bytes.Basic

/-!
# Sparse byte strings

The contents of a file that may be mostly zeros, as a list of stretches, each spelled out or known to be zeros. The
byte string that is meant is `toBytes`, and every operation agrees there with the one on byte strings; none but `toBytes`
itself takes longer for a longer stretch of zeros. Two lists of stretches may mean the same byte string.
-/

namespace RowStore

/-- A stretch of a byte string. -/
inductive Stretch where
  | zeros (n : Nat)
  | bytes (bs : Bytes)
deriving DecidableEq

namespace Stretch

def toBytes : Stretch → Bytes
  | zeros n => Bytes.zeros n
  | bytes bs => bs

def length : Stretch → Nat
  | zeros n => n
  | bytes bs => bs.length

def take (n : Nat) : Stretch → Stretch
  | zeros m => zeros (min n m)
  | bytes bs => bytes (bs.take n)

def drop (n : Nat) : Stretch → Stretch
  | zeros m => zeros (m - n)
  | bytes bs => bytes (bs.drop n)

@[simp] theorem length_toBytes (s : Stretch) : s.toBytes.length = s.length := by
  cases s with
  | zeros n => exact Bytes.length_zeros n
  | bytes bs => rfl

@[simp] theorem toBytes_take (n : Nat) (s : Stretch) : (s.take n).toBytes = s.toBytes.take n := by
  cases s with
  | zeros m => exact List.take_replicate.symm
  | bytes bs => rfl

@[simp] theorem toBytes_drop (n : Nat) (s : Stretch) : (s.drop n).toBytes = s.toBytes.drop n := by
  cases s with
  | zeros m => exact List.drop_replicate.symm
  | bytes bs => rfl

def takeAll (n : Nat) : List Stretch → List Stretch
  | [] => []
  | s :: rest => if n = 0 then [] else s.take n :: takeAll (n - s.length) rest

def dropAll (n : Nat) : List Stretch → List Stretch
  | [] => []
  | s :: rest => if n < s.length then s.drop n :: rest else dropAll (n - s.length) rest

theorem flatMap_takeAll (n : Nat) (ss : List Stretch) :
    (takeAll n ss).flatMap toBytes = (ss.flatMap toBytes).take n := by
  induction ss generalizing n with
  | nil => exact List.take_nil.symm
  | cons s rest ih =>
    by_cases hn : n = 0
    · simp [takeAll, hn]
    · simp [takeAll, hn, ih, List.take_append]

theorem flatMap_dropAll (n : Nat) (ss : List Stretch) :
    (dropAll n ss).flatMap toBytes = (ss.flatMap toBytes).drop n := by
  induction ss generalizing n with
  | nil => exact List.drop_nil.symm
  | cons s rest ih =>
    by_cases hn : n < s.length
    · have hz : n - s.length = 0 := by omega
      simp [dropAll, hn, hz, List.drop_append]
    · have hs : s.toBytes.drop n = [] := by
        apply List.drop_eq_nil_of_le
        rw [length_toBytes]
        omega
      simp [dropAll, hn, ih, hs, List.drop_append]

end Stretch

structure SparseBytes where
  stretches : List Stretch
deriving DecidableEq

namespace SparseBytes

def empty : SparseBytes := ⟨[]⟩

def toBytes (s : SparseBytes) : Bytes := s.stretches.flatMap Stretch.toBytes

def length (s : SparseBytes) : Nat := Bytes.total Stretch.length s.stretches

def take (n : Nat) (s : SparseBytes) : SparseBytes := ⟨Stretch.takeAll n s.stretches⟩

def drop (n : Nat) (s : SparseBytes) : SparseBytes := ⟨Stretch.dropAll n s.stretches⟩

def fit (n : Nat) (s : SparseBytes) : SparseBytes := ⟨(s.take n).stretches ++ [.zeros (n - s.length)]⟩

/-- The contents after a stretch is written at `offset`. A gap before it reads as zeros, and a write of
nothing changes nothing. -/
def overwrite (offset : Nat) (data : Stretch) (s : SparseBytes) : SparseBytes :=
  if data.length = 0 then s
  else ⟨(s.fit offset).stretches ++ data :: (s.drop (offset + data.length)).stretches⟩

@[simp] theorem length_toBytes (s : SparseBytes) : s.toBytes.length = s.length := by
  simp only [toBytes, length, Bytes.length_flatMap, Stretch.length_toBytes]

@[simp] theorem toBytes_take (n : Nat) (s : SparseBytes) : (s.take n).toBytes = s.toBytes.take n :=
  Stretch.flatMap_takeAll n s.stretches

@[simp] theorem toBytes_drop (n : Nat) (s : SparseBytes) : (s.drop n).toBytes = s.toBytes.drop n :=
  Stretch.flatMap_dropAll n s.stretches

@[simp] theorem toBytes_fit (n : Nat) (s : SparseBytes) : (s.fit n).toBytes = Bytes.fit n s.toBytes := by
  have h := toBytes_take n s
  unfold toBytes at h
  simp [fit, toBytes, Bytes.fit, h, Stretch.toBytes, ← length_toBytes]

@[simp] theorem toBytes_overwrite (offset : Nat) (data : Stretch) (s : SparseBytes) :
    (s.overwrite offset data).toBytes = Bytes.overwrite offset data.toBytes s.toBytes := by
  have hf := toBytes_fit offset s
  have hd := toBytes_drop (offset + data.length) s
  unfold toBytes at hf hd
  by_cases h : data.length = 0
  · have he : data.toBytes = [] := List.eq_nil_of_length_eq_zero (by rw [Stretch.length_toBytes, h])
    simp [overwrite, Bytes.overwrite, h, he]
  · have he : data.toBytes ≠ [] := fun e => h (by rw [← Stretch.length_toBytes, e]; rfl)
    simp [overwrite, Bytes.overwrite, h, he, toBytes, hf, hd]

end SparseBytes

end RowStore
