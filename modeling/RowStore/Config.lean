/-!
# Settings

The size of a page and the settings of a pool, with their defaults and limits.
-/

namespace RowStore

def defaultPageSize : Nat := 4096

/-- Slots stay below `2 ^ 32` up to this page size. -/
def maxPageSize : Nat := 1 <<< 28

/-- A page size within the limits, or the complaint about it. -/
def checkPageSize (size : Nat) : Except String Nat :=
  if 0 < size ∧ size ≤ maxPageSize then .ok size
  else .error s!"page size must be in 1..={maxPageSize}"

structure PoolConfig where
  capacity : Nat
  /-- How many accesses back eviction looks. -/
  k : Nat
  /-- The longest wait for a lock, in milliseconds; without one a request waits until it is granted. -/
  lockTimeout : Option Nat
deriving DecidableEq

namespace PoolConfig

def default : PoolConfig := ⟨50, 2, none⟩

def withCapacity (c : PoolConfig) (pages : Nat) : PoolConfig := ⟨pages, c.k, c.lockTimeout⟩

def withK (c : PoolConfig) (k : Nat) : PoolConfig := ⟨c.capacity, k, c.lockTimeout⟩

def withLockTimeout (c : PoolConfig) (ms : Nat) : PoolConfig := ⟨c.capacity, c.k, some ms⟩

end PoolConfig

end RowStore
