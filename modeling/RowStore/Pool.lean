import RowStore.Dict
import RowStore.Page.Basic
import RowStore.Replacer

/-!
# Page pool

The pages in memory. Every page that is read gets a frame of its own; the page table says which frame is the resident
copy of which page. A frame outlives its residence, because whoever fetched it may still hold it, but only
resident frames are found again. Room for another page is made by giving up a resident page that is clean and not
being written, as the replacer chooses.
-/

namespace RowStore

/-- A frame, by the order in which pages were read. -/
abbrev FrameId := Nat

/-- Frames, the page table, and the order of giving up. -/
structure Pool where
  capacity : Nat
  frames : Array Page
  /-- The page table: the resident frame of each page in memory. -/
  resident : Dict PageId FrameId
  replacer : Replacer
  /-- The frames that someone is writing at this moment. -/
  writing : List FrameId
deriving DecidableEq

namespace Pool

def new (capacity k : Nat) : Pool := ⟨capacity, #[], Dict.empty, Replacer.new k, []⟩

def page? (p : Pool) (f : FrameId) : Option Page := p.frames[f]?

def setPage (p : Pool) (f : FrameId) (page : Page) : Pool := { p with frames := p.frames.setIfInBounds f page }

def residentPages (p : Pool) : List PageId := p.resident.keys

def residentFrames (p : Pool) : List FrameId := p.resident.values

def copy? (p : Pool) (id : PageId) : Option Page := (p.resident.find? id).bind p.page?

def touch (p : Pool) (id : PageId) : Pool := { p with replacer := p.replacer.recordAccess id }

/-- Whether the resident copy of a page may be given up. -/
def evictable (p : Pool) (id : PageId) : Bool :=
  match p.resident.find? id with
  | some f => !p.writing.contains f && (p.page? f).any fun page => !page.isDirty
  | none => false

def discard (p : Pool) (id : PageId) : Pool :=
  { p with resident := p.resident.erase id, replacer := p.replacer.remove id }

def evict (p : Pool) : Option Pool :=
  match p.replacer.evict p.evictable with
  | (replacer, some victim) => some { p with resident := p.resident.erase victim, replacer := replacer }
  | (_, none) => none

def makeRoom (p : Pool) : Except StorageError Pool :=
  if p.resident.size < p.capacity then .ok p
  else
    match p.evict with
    | some p => .ok p
    | none => .error .bufferPoolFull

def load (p : Pool) (page : Page) : Except StorageError (Pool × FrameId) :=
  match p.makeRoom with
  | .error e => .error e
  | .ok p =>
    let f := p.frames.size
    .ok ({ p with frames := p.frames.push page, resident := p.resident.insert page.id f }.touch page.id, f)

/-- Makes a frame the resident copy of its page, in place of another frame or of none. -/
def install (p : Pool) (f : FrameId) (id : PageId) : Except StorageError Pool :=
  match p.resident.find? id with
  | some g => .ok (if g = f then p else { p with resident := p.resident.insert id f })
  | none =>
    match p.makeRoom with
    | .error e => .error e
    | .ok p => .ok { p with resident := p.resident.insert id f }

/-- Takes back frames that a transaction has changed: each is marked as changed by it and becomes the resident copy of
its page. The pass ends at the first frame that there is no room for. -/
def handBack (txn : TxnId) : List FrameId → Pool → Pool × Except StorageError Unit
  | [], p => (p, .ok ())
  | f :: rest, p =>
    match p.page? f with
    | none => handBack txn rest p
    | some page =>
      let p := p.setPage f (page.markDirty (some txn))
      match p.install f page.id with
      | .error e => (p, .error e)
      | .ok p => handBack txn rest (p.touch page.id)

/-- The resident frames that a transaction has changed, in the order of the page table. -/
def dirtiedBy (p : Pool) (txn : TxnId) : List FrameId :=
  p.residentFrames.filter fun f => (p.page? f).any fun page => page.dirtier = some txn

end Pool

end RowStore
