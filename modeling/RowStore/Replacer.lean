import RowStore.Dict
import RowStore.Ids

/-!
# Eviction by the k-th last access

The replacer keeps the times of the last `k` accesses to each page it tracks and picks, among the pages that a caller
allows, the one to give up. Pages with fewer than `k` accesses go first, the one first accessed longest ago
before the others; then the page whose k-th last access is longest ago. With at most `k` times kept, the
oldest kept time is the one that counts in both cases.
-/

namespace RowStore

structure Replacer where
  k : Nat
  /-- The time of the next access. -/
  clock : Nat
  /-- The kept access times of each tracked page, oldest first. -/
  history : Dict PageId (List Nat)
deriving DecidableEq

namespace Replacer

/-- A replacer that looks `k` accesses back, and one access back for `k = 0`. -/
def new (k : Nat) : Replacer := ⟨max k 1, 0, Dict.empty⟩

def lastOf {α : Type} (k : Nat) (items : List α) : List α := items.drop (items.length - k)

def recordAccess (r : Replacer) (page : PageId) : Replacer :=
  { r with clock := r.clock + 1
           history := r.history.insert page (lastOf r.k ((r.history.find? page).getD [] ++ [r.clock])) }

/-- Whether a page with the first access times gives way before one with the second. -/
def goesBefore (k : Nat) (a b : List Nat) : Bool :=
  if a.length < k then
    if b.length < k then a.headD 0 < b.headD 0 else true
  else if b.length < k then false
  else a.headD 0 < b.headD 0

def firstToGo (k : Nat) : List (PageId × List Nat) → Option (PageId × List Nat)
  | [] => none
  | entry :: rest =>
    some (rest.foldl (fun best entry => if goesBefore k entry.2 best.2 then entry else best) entry)

def victim? (r : Replacer) (evictable : PageId → Bool) : Option PageId :=
  (firstToGo r.k (r.history.entries.filter fun entry => evictable entry.1)).map Prod.fst

def remove (r : Replacer) (page : PageId) : Replacer := { r with history := r.history.erase page }

def evict (r : Replacer) (evictable : PageId → Bool) : Replacer × Option PageId :=
  match r.victim? evictable with
  | some page => (r.remove page, some page)
  | none => (r, none)

def size (r : Replacer) : Nat := r.history.size

end Replacer

end RowStore
