import RowStore.Proofs.ActionPaths
import RowStore.Proofs.PoolShape

/-!
# Pools that can be reached

The page table, the frames and the replacer of a pool are kept by different hands: fetches and scans, hand-backs,
discards and whoever has a frame to itself for a while. They agree after every run all the same, whichever calls fail, and
also when a table lets other requests come between its change to a page and the hand-back of the page. So a run
here is finer than a run of requests: a table's own change and the hand-back are moves of their own, and
everything outside the pool may change between two moves in any way.
-/

namespace RowStore

/-- One move of a run over a pool. -/
inductive Move where
  | act (a : Action)
  /-- A table stores a row. The frames that it changed are not handed back yet. -/
  | insertInto (txn : TxnId) (table : TableId) (t : Tuple)
  | deleteFrom (txn : TxnId) (table : TableId) (record : RecordId)
  /-- Someone who has a frame changes the page in it, which stays the page that it is. -/
  | change (frame : FrameId) (page : Page)
  /-- Frames are handed back, resident or not, in any order and any number of times. -/
  | handBack (txn : TxnId) (frames : List FrameId)
  | writing (frames : List FrameId)
  /-- The files, the tables, the locks, the log and the faults to come are others. -/
  | surroundings (other : Engine)

namespace Engine

def move (e : Engine) : Move → Engine
  | .act a => e.act a
  | .insertInto txn id t =>
    match e.catalog.table? id with
    | .error _ => e
    | .ok table => (e.insertInto txn table t).1
  | .deleteFrom txn id record =>
    match e.catalog.table? id with
    | .error _ => e
    | .ok table => (e.deleteFrom txn table (some record)).1
  | .change f page => if (e.page? f).any fun old => old.id = page.id then e.setPage f page else e
  | .handBack txn frames => (e.handBack txn frames).1
  | .writing frames => { e with pool := { e.pool with writing := frames } }
  | .surroundings other => { other with pool := e.pool }

def moves (e : Engine) (ms : List Move) : Engine := ms.foldl move e

/-- What a move does to the engine: it takes steps of the engine, or it changes one page, the frames that are being written
or what lies outside the pool. -/
inductive Moved (e : Engine) : Move → Engine → Prop
  | along {m : Move} {l : List Event} {e' : Engine} (hpath : Path e l e') : Moved e m e'
  | changed {f : FrameId} {old page : Page} (hf : e.page? f = some old) (hid : page.id = old.id) :
      Moved e (.change f page) (e.setPage f page)
  | writing (frames : List FrameId) : Moved e (.writing frames) { e with pool := { e.pool with writing := frames } }
  | surroundings (other : Engine) : Moved e (.surroundings other) { other with pool := e.pool }

theorem moved_move (e : Engine) (m : Move) : Moved e m (e.move m) := by
  cases m with
  | act a => exact .along (path_act e a)
  | insertInto txn id t =>
    simp only [move]
    cases ht : e.catalog.table? id with
    | error err => exact .along (.refl e)
    | ok table => exact .along (path_insertInto t ht)
  | deleteFrom txn id record =>
    simp only [move]
    cases e.catalog.table? id with
    | error err => exact .along (.refl e)
    | ok table => exact .along (path_deleteFrom e txn table record)
  | change f page =>
    simp only [move]
    split
    · rename_i hid
      obtain ⟨old, hf, hold⟩ := (Option.any_eq_true _ _).mp hid
      exact .changed hf (of_decide_eq_true hold).symm
    · exact .along (.refl e)
  | handBack txn frames => exact .along (path_handBack txn frames e)
  | writing frames => exact .writing frames
  | surroundings other => exact .surroundings other

/-- No move takes the page table, the frames and the replacer apart, or changes how many pages there is room for. -/
theorem sane_move {e : Engine} (h : e.pool.Sane) (m : Move) :
    (e.move m).pool.Sane ∧ (e.move m).pool.capacity = e.pool.capacity := by
  have hmoved := moved_move e m
  generalize e.move m = e' at hmoved ⊢
  cases hmoved with
  | along hpath => exact ⟨hpath.sane h, hpath.pool_fixed.1⟩
  | changed hf hid => exact ⟨h.setPage hf hid, rfl⟩
  | writing => exact ⟨⟨h.keyed, h.bounded, h.tracked⟩, rfl⟩
  | surroundings => exact ⟨h, rfl⟩

theorem sane_moves {e : Engine} (h : e.pool.Sane) (ms : List Move) :
    (e.moves ms).pool.Sane ∧ (e.moves ms).pool.capacity = e.pool.capacity := by
  induction ms generalizing e with
  | nil => exact ⟨h, rfl⟩
  | cons m rest ih =>
    obtain ⟨hsane, hcapacity⟩ := sane_move h m
    obtain ⟨hsane', hcapacity'⟩ := ih hsane
    exact ⟨hsane', hcapacity'.trans hcapacity⟩

/-- Whatever the settings, the faults and the moves are, a pool that starts empty never has more resident pages than it has
room for, every resident page is filed under its own id, and the replacer tracks the resident pages and no others. -/
theorem pool_exact (e : Engine) (config : PoolConfig) (ms : List Move) :
    let pool := (moves { e with pool := Pool.new config.capacity config.k } ms).pool
    pool.resident.size ≤ config.capacity ∧
    (∀ id f, pool.resident.find? id = some f → ∃ page, pool.page? f = some page ∧ page.id = id) ∧
    ∀ id, id ∈ pool.replacer.history.keys ↔ id ∈ pool.resident.keys := by
  intro pool
  have hnew : (Pool.new config.capacity config.k).Sane := Pool.sane_new config.capacity config.k
  obtain ⟨hsane, hcapacity⟩ := sane_moves (e := { e with pool := Pool.new config.capacity config.k }) hnew ms
  refine ⟨?_, hsane.keyed, hsane.tracked⟩
  calc pool.resident.size ≤ pool.capacity := hsane.bounded
    _ = config.capacity := hcapacity

end Engine

end RowStore
