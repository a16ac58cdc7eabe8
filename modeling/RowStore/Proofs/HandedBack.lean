import RowStore.Proofs.CacheMisses

/-!
# Pages that are handed back

A table changes pages that it fetched and hands them back. What happens to the page table between its change and the
hand-back is not its business: the changed frames may have been dropped from memory meanwhile, and their pages may
have been read again into other frames. The hand-back decides. Frame by frame it makes what it is given the resident
copy of its page, in the place of whatever is resident, and makes room if nothing is. It cannot give up a frame that
it has taken back already, since that is dirty, nor any other dirty page. So it ends with all frames resident, or it
ends at the first frame for which there is no room because every resident page is held.
-/

namespace RowStore

namespace Pool

variable {p q : Pool} {txn : TxnId} {f : FrameId} {page : Page} {changed : List (FrameId × Page)}

/-- The frames `changed` were taken back between two pools: each is resident and dirty with the contents it was given
with, and no other frame was changed. Every other page is resident where it was, or was given up, and then it was
clean and nobody was writing it. -/
structure TakenBack (p : Pool) (txn : TxnId) (changed : List (FrameId × Page)) (q : Pool) : Prop where
  capacity : q.capacity = p.capacity
  writing : q.writing = p.writing
  resident : ∀ x ∈ changed, q.resident.find? x.2.id = some x.1
  dirty : ∀ x ∈ changed, q.page? x.1 = some (x.2.markDirty (some txn))
  frames : ∀ g, (∀ x ∈ changed, x.1 ≠ g) → q.page? g = p.page? g
  others : ∀ id, (∀ x ∈ changed, x.2.id ≠ id) →
    q.resident.find? id = p.resident.find? id ∨ q.resident.find? id = none ∧ p.Free id

/-- There is no room for the frame `f`, which was to be taken back: its page is not resident, the pool is full and
every resident page is held. Nothing but the mark on the frame has changed. -/
structure NoRoom (p : Pool) (txn : TxnId) (f : FrameId) (page : Page) (q : Pool) : Prop where
  marked : q = p.setPage f (page.markDirty (some txn))
  absent : p.resident.find? page.id = none
  full : p.capacity ≤ p.resident.size
  held : ∀ id, ¬ q.Free id

theorem takenBack_nil (p : Pool) (txn : TxnId) : p.TakenBack txn [] p where
  capacity := rfl
  writing := rfl
  resident := by simp
  dirty := by simp
  frames _ _ := rfl
  others _ _ := .inl rfl

theorem find?_of_makeRoom (h : p.makeRoom = .ok q) (id : PageId) :
    q.resident.find? id = p.resident.find? id ∨ q.resident.find? id = none ∧ p.Free id := by
  rcases makeRoom_eq_ok h with ⟨_, rfl⟩ | ⟨_, victim, hv, _, rfl⟩
  · exact .inl rfl
  · show (p.resident.erase victim).find? id = _ ∨ (p.resident.erase victim).find? id = none ∧ _
    rw [Dict.find?_erase]
    by_cases he : victim = id
    · subst he
      rw [if_pos rfl]
      exact .inr ⟨rfl, evictable_iff_free.mp hv⟩
    · rw [if_neg he]
      exact .inl rfl

/-- Without room the pool is full and every resident page is held. -/
theorem Sane.makeRoom_error (h : p.Sane) {err : StorageError} (he : p.makeRoom = .error err) :
    err = .bufferPoolFull ∧ p.capacity ≤ p.resident.size ∧ ∀ id, ¬ p.Free id := by
  have hnone : ∀ q, p.makeRoom ≠ .ok q := fun q hq => by rw [he] at hq; cases hq
  refine ⟨?_, Nat.le_of_not_lt fun hlt => ?_, fun id hfree => ?_⟩
  · unfold Pool.makeRoom at he
    split at he
    · cases he
    · split at he <;> cases he
      rfl
  · obtain ⟨q, hq⟩ := makeRoom_of (.inl hlt)
    exact hnone q hq
  · have hm : id ∈ p.replacer.history.keys := by
      obtain ⟨_, _, hr, _⟩ := hfree
      exact (h.tracked id).mpr (mem_keys_of_find? hr)
    obtain ⟨q, hq⟩ := makeRoom_of (.inr ⟨id, hm, evictable_iff_free.mpr hfree⟩)
    exact hnone q hq

theorem free_of_free_marked (hf : p.page? f = some page) {id : PageId}
    (h : (p.setPage f (page.markDirty (some txn))).Free id) : p.Free id := by
  obtain ⟨g, cur, hr, hcur, hclean, hw⟩ := h
  rw [page?_setPage hf] at hcur
  split at hcur
  · cases hcur
    cases hclean
  · exact ⟨g, cur, hr, hcur, hclean, hw⟩

/-- What is shown of the pool in which the marked frame is the resident copy of its page. -/
theorem takenBack_one (hf : p.page? f = some page) (hc : q.capacity = p.capacity) (hw : q.writing = p.writing)
    (hframes : q.frames = (p.setPage f (page.markDirty (some txn))).frames)
    (hr : q.resident.find? page.id = some f)
    (hothers : ∀ id, page.id ≠ id →
      q.resident.find? id = p.resident.find? id ∨ q.resident.find? id = none ∧ p.Free id) :
    p.TakenBack txn [(f, page)] q := by
  have hpages : ∀ g, q.page? g = if f = g then some (page.markDirty (some txn)) else p.page? g := fun g =>
    (congrArg (·[g]?) hframes).trans (page?_setPage hf _ g)
  refine ⟨hc, hw, ?_, ?_, fun g hg => ?_, fun id hid => hothers id (hid (f, page) List.mem_cons_self)⟩
  · rw [List.forall_mem_singleton]
    exact hr
  · rw [List.forall_mem_singleton, hpages, if_pos rfl]
  · rw [hpages, if_neg (hg (f, page) List.mem_cons_self)]

/-- One frame is taken back, or there is no room for it. -/
theorem Sane.handBack_one (h : p.Sane) (hf : p.page? f = some page) (txn : TxnId) :
    ((Pool.handBack txn [f] p).2 = .ok () ∧ p.TakenBack txn [(f, page)] (Pool.handBack txn [f] p).1) ∨
      ((Pool.handBack txn [f] p).2 = .error .bufferPoolFull ∧
        p.NoRoom txn f page (Pool.handBack txn [f] p).1) := by
  have hmark : (p.setPage f (page.markDirty (some txn))).Sane := h.setPage hf rfl
  have hself : ∀ d : Dict PageId FrameId, (d.insert page.id f).find? page.id = some f := fun d => by
    rw [Dict.find?_insert, if_pos rfl]
  have hother : ∀ (d : Dict PageId FrameId) id, page.id ≠ id → (d.insert page.id f).find? id = d.find? id :=
    fun d id hid => by rw [Dict.find?_insert, if_neg hid]
  unfold Pool.handBack
  rw [hf]
  simp only
  unfold Pool.install
  cases hr : (p.setPage f (page.markDirty (some txn))).resident.find? page.id with
  | some g =>
    simp only
    split
    · rename_i hg
      subst hg
      exact .inl ⟨rfl, takenBack_one hf rfl rfl rfl hr fun _ _ => .inl rfl⟩
    · exact .inl ⟨rfl, takenBack_one hf rfl rfl rfl (hself _) fun id hid => .inl (hother _ id hid)⟩
  | none =>
    simp only
    cases hroom : (p.setPage f (page.markDirty (some txn))).makeRoom with
    | error err =>
      obtain ⟨rfl, hfull, hheld⟩ := hmark.makeRoom_error hroom
      exact .inr ⟨rfl, rfl, hr, hfull, hheld⟩
    | ok q =>
      obtain ⟨_, _, hframes, hc⟩ := hmark.makeRoom hroom
      refine .inl ⟨rfl, takenBack_one hf hc (makeRoom_fixed hroom).2 hframes (hself _) fun id hid => ?_⟩
      rcases find?_of_makeRoom hroom id with hkept | ⟨hnone, hfree⟩
      · exact .inl ((hother _ id hid).trans hkept)
      · exact .inr ⟨(hother _ id hid).trans hnone, free_of_free_marked hf hfree⟩

/-- Frames that are taken back one after the other are taken back together. The later ones cannot cost an earlier one
its place, because it is dirty. -/
theorem TakenBack.cons {x : FrameId × Page} {r : Pool} (h : p.TakenBack txn [x] q) (h' : q.TakenBack txn changed r)
    (hnew : ∀ y ∈ changed, y.1 ≠ x.1 ∧ y.2.id ≠ x.2.id) :
    p.TakenBack txn (x :: changed) r := by
  have hresident : q.resident.find? x.2.id = some x.1 := h.resident x List.mem_cons_self
  have hdirty : q.page? x.1 = some (x.2.markDirty (some txn)) := h.dirty x List.mem_cons_self
  have hkept : ∀ {g}, x.1 ≠ g → q.page? g = p.page? g := fun hg => h.frames _ (List.forall_mem_singleton.mpr hg)
  refine ⟨h'.capacity.trans h.capacity, h'.writing.trans h.writing, ?_, ?_, fun g hg => ?_, fun id hid => ?_⟩
  · refine List.forall_mem_cons.mpr ⟨?_, h'.resident⟩
    rcases h'.others x.2.id fun y hy => (hnew y hy).2 with he | ⟨_, g, cur, hr, hcur, hclean, _⟩
    · rw [he, hresident]
    · rw [hresident] at hr
      cases hr
      rw [hdirty] at hcur
      cases hcur
      cases hclean
  · refine List.forall_mem_cons.mpr ⟨?_, h'.dirty⟩
    rw [h'.frames x.1 fun y hy => (hnew y hy).1, hdirty]
  · obtain ⟨hg, hrest⟩ := List.forall_mem_cons.mp hg
    rw [h'.frames g hrest, hkept hg]
  · obtain ⟨hid, hrest⟩ := List.forall_mem_cons.mp hid
    have hone := h.others id (List.forall_mem_singleton.mpr hid)
    rcases h'.others id hrest with he | ⟨hgone, g, cur, hr, hcur, hclean, hw⟩
    · rw [he]
      exact hone
    · refine .inr ⟨hgone, g, cur, ?_, ?_, hclean, h.writing ▸ hw⟩
      · rcases hone with he | ⟨hnone, _⟩
        · rw [← he, hr]
        · rw [hnone] at hr
          cases hr
      · -- The frame of this page is not the one that was taken back, which is dirty.
        have hg : x.1 ≠ g := by
          rintro rfl
          rw [hdirty] at hcur
          cases hcur
          cases hclean
        rw [← hkept hg, hcur]

structure Given (p : Pool) (changed : List (FrameId × Page)) : Prop where
  there : ∀ x ∈ changed, p.page? x.1 = some x.2
  distinct : (changed.map fun x => x.2.id).Nodup

/-- A hand-back takes all frames back, or it takes some of them back and has no room for the next one. -/
theorem Sane.handBack_all (h : p.Sane) (txn : TxnId) (hg : p.Given changed) :
    ((Pool.handBack txn (changed.map Prod.fst) p).2 = .ok () ∧
      p.TakenBack txn changed (Pool.handBack txn (changed.map Prod.fst) p).1) ∨
    ((Pool.handBack txn (changed.map Prod.fst) p).2 = .error .bufferPoolFull ∧
      ∃ done x rest mid, changed = done ++ x :: rest ∧ mid.Sane ∧ p.TakenBack txn done mid ∧
        mid.NoRoom txn x.1 x.2 (Pool.handBack txn (changed.map Prod.fst) p).1) := by
  induction changed generalizing p with
  | nil => exact .inl ⟨rfl, takenBack_nil p txn⟩
  | cons x rest ih =>
    have hx : p.page? x.1 = some x.2 := hg.there x List.mem_cons_self
    obtain ⟨hfresh, hdistinct⟩ := List.nodup_cons.mp hg.distinct
    have hnew : ∀ y ∈ rest, y.1 ≠ x.1 ∧ y.2.id ≠ x.2.id := by
      intro y hy
      have hid : y.2.id ≠ x.2.id := fun he => hfresh (List.mem_map.mpr ⟨y, hy, he⟩)
      refine ⟨fun hf => hid ?_, hid⟩
      have hpage := hg.there y (List.mem_cons_of_mem _ hy)
      rw [hf, hx] at hpage
      rw [Option.some.inj hpage]
    have hsane := h.handBack txn x.1
    rw [List.map_cons, Engine.handBack_cons]
    rcases h.handBack_one hx txn with ⟨hok, hone⟩ | ⟨herr, hnoroom⟩
    · have hsplit : Pool.handBack txn [x.1] p = ((Pool.handBack txn [x.1] p).1, .ok ()) := Prod.ext rfl hok
      rw [hsplit]
      generalize (Pool.handBack txn [x.1] p).1 = q at hone hsane
      have hgiven : q.Given rest := by
        refine ⟨fun y hy => ?_, hdistinct⟩
        rw [hone.frames y.1 (List.forall_mem_singleton.mpr (hnew y hy).1.symm)]
        exact hg.there y (List.mem_cons_of_mem _ hy)
      have hcons : ∀ done, (∀ y ∈ done, y ∈ rest) → ∀ r, q.TakenBack txn done r → p.TakenBack txn (x :: done) r :=
        fun done hsub r hr => hone.cons hr fun y hy => hnew y (hsub y hy)
      rcases ih hsane hgiven with ⟨hall, htaken⟩ | ⟨hfull, done, y, more, mid, rfl, hmid, htaken, hnoroom⟩
      · exact .inl ⟨hall, hcons rest (fun _ hy => hy) _ htaken⟩
      · exact .inr ⟨hfull, x :: done, y, more, mid, rfl, hmid,
          hcons done (fun _ hy => List.mem_append_left _ hy) _ htaken, hnoroom⟩
    · have hsplit : Pool.handBack txn [x.1] p = ((Pool.handBack txn [x.1] p).1, .error .bufferPoolFull) :=
        Prod.ext rfl herr
      rw [hsplit]
      exact .inr ⟨rfl, [], x, rest, p, rfl, h, takenBack_nil p txn, hnoroom⟩

/-- A dirty page is not given up while frames are taken back: unless it is one of theirs, it stays where it was and as
it was. -/
theorem TakenBack.stays (h : p.TakenBack txn changed q) (hs : p.Sane) (hg : p.Given changed) {id : PageId}
    (hr : p.resident.find? id = some f) (hf : p.page? f = some page) (hd : page.dirtier ≠ none)
    (hid : ∀ x ∈ changed, x.2.id ≠ id) : q.resident.find? id = some f ∧ q.page? f = some page := by
  constructor
  · rcases h.others id hid with he | ⟨_, g, cur, hr', hcur, hclean, _⟩
    · rw [he, hr]
    · cases hr.symm.trans hr'
      cases hf.symm.trans hcur
      exact absurd hclean hd
  · obtain ⟨cur, hcur, hkey⟩ := hs.keyed id f hr
    rw [h.frames f fun x hx he => hid x hx ?_, hf]
    -- A frame that was taken back holds the page that it holds.
    have hpage := hg.there x hx
    rw [he, hcur] at hpage
    rw [← Option.some.inj hpage, hkey]

end Pool

namespace Engine

/-- A change to a table, whatever the table does: the table is looked up, it gives the frames that it changed, and
these are handed back. -/
def changeBy (e : Engine) (txn : TxnId) (id : TableId) (operation : Table → Engine → Result (List FrameId)) :
    Result Unit :=
  match e.catalog.table? id with
  | .error err => (e, .error err)
  | .ok table =>
    match operation table e with
    | (e, .error err) => (e, .error err)
    | (e, .ok changed) => e.handBack txn changed

/-- What a table does that follows its change up before it gives the changed frames. -/
def followedUp (txn : TxnId) (table : Table) : Result (List FrameId) → Result (List FrameId)
  | (e, .error err) => (e, .error err)
  | (e, .ok changed) => (e.followUps txn table changed, .ok changed)

theorem insertTuple_eq_changeBy (e : Engine) (txn : TxnId) (id : TableId) (t : Tuple) :
    e.insertTuple txn id t = e.changeBy txn id fun table e => followedUp txn table (e.insertInto txn table t) := by
  unfold insertTuple changeBy
  cases e.catalog.table? id with
  | error err => rfl
  | ok table =>
    simp only
    rcases e.insertInto txn table t with ⟨e', err | changed⟩ <;> rfl

theorem deleteTuple_eq_changeBy (e : Engine) (txn : TxnId) (record : RecordId) :
    e.deleteTuple txn (some record) = e.changeBy txn record.page.table fun table e =>
      followedUp txn table (e.deleteFrom txn table (some record)) := by
  unfold deleteTuple changeBy
  simp only
  cases e.catalog.table? record.page.table with
  | error err => rfl
  | ok table =>
    simp only
    rcases e.deleteFrom txn table (some record) with ⟨e', err | changed⟩ <;> rfl

/-- Where a table's change went through what is left is the hand-back. -/
theorem changeBy_eq_handBack {e e' : Engine} {txn : TxnId} {id : TableId} {table : Table}
    {operation : Table → Engine → Result (List FrameId)} {changed : List FrameId}
    (ht : e.catalog.table? id = .ok table) (hop : operation table e = (e', .ok changed)) :
    e.changeBy txn id operation = e'.handBack txn changed := by
  unfold changeBy
  rw [ht]
  simp only [hop]

/-- Whatever a table does in a state that can be reached, with whatever happens to the pool until it is done, and
whatever frames of different pages it gives: if its change succeeds, every given frame is the resident copy of its
page, dirty by the transaction and with the contents that it was given with, no page that was dirty was given up for
it, and the pool holds no more pages than it has room for. If the hand-back fails, it took the first of the frames
back, as above, and had no room for the next: the pool is at its capacity and every page in it is dirty or being
written. -/
theorem handed_back_pages_win {e : Engine} (h : e.Reached) (txn : TxnId) {id : TableId} {table : Table}
    (ht : e.catalog.table? id = .ok table) (operation : Table → Engine → Result (List FrameId)) (moves : List Move)
    (changed : List (FrameId × Page)) (hop : operation table e = (e.moves moves, .ok (changed.map Prod.fst)))
    (hgiven : (e.moves moves).pool.Given changed) :
    let given := e.moves moves
    let after := e.changeBy txn id operation
    after.1 = { given with pool := after.1.pool } ∧
    (after.2 = .ok () →
      (∀ x ∈ changed, after.1.pool.resident.find? x.2.id = some x.1 ∧
        after.1.page? x.1 = some (x.2.markDirty (some txn))) ∧
      (∀ q f page, given.pool.resident.find? q = some f → given.page? f = some page → page.dirtier ≠ none →
        (∃ x ∈ changed, x.2.id = q) ∨ after.1.pool.resident.find? q = some f ∧ after.1.page? f = some page) ∧
      given.pool.TakenBack txn changed after.1.pool ∧
      after.1.pool.resident.size ≤ after.1.pool.capacity) ∧
    ∀ err, after.2 = .error err →
      err = .bufferPoolFull ∧ after.1.pool.resident.size = after.1.pool.capacity ∧ after.1.AllHeld ∧
      ∃ done x rest pool, changed = done ++ x :: rest ∧ given.pool.TakenBack txn done pool ∧
        pool.NoRoom txn x.1 x.2 after.1.pool := by
  intro given after
  have hs : given.pool.Sane := (sane_moves h.sound.1 moves).1
  have hafter : after = given.handBack txn (changed.map Prod.fst) := changeBy_eq_handBack ht hop
  have hpool : after.1.pool = (Pool.handBack txn (changed.map Prod.fst) given.pool).1 := by rw [hafter]; rfl
  have hresult : after.2 = (Pool.handBack txn (changed.map Prod.fst) given.pool).2 := by rw [hafter]; rfl
  have hsane : after.1.pool.Sane := by
    rw [hafter]
    exact (sane_move hs (.handBack txn (changed.map Prod.fst))).1
  refine ⟨by rw [hafter]; rfl, fun hok => ?_, fun err herr => ?_⟩
  · rcases hs.handBack_all txn hgiven with ⟨_, htaken⟩ | ⟨hfull, _⟩
    · rw [← hpool] at htaken
      refine ⟨fun x hx => ⟨htaken.resident x hx, htaken.dirty x hx⟩, fun q f page hr hf hd => ?_, htaken,
        hsane.bounded⟩
      by_cases hq : ∃ x ∈ changed, x.2.id = q
      · exact .inl hq
      · exact .inr (htaken.stays hs hgiven hr hf hd fun x hx he => hq ⟨x, hx, he⟩)
    · rw [hresult, hfull] at hok
      cases hok
  · rcases hs.handBack_all txn hgiven with ⟨hok, _⟩ | ⟨hfull, done, x, rest, pool, hsplit, hmid, htaken, hnoroom⟩
    · rw [hresult, hok] at herr
      cases herr
    · rw [hresult, hfull] at herr
      rw [← hpool] at hnoroom
      refine ⟨(Except.error.inj herr).symm, Nat.le_antisymm hsane.bounded ?_, allHeld_iff.mpr hnoroom.held,
        done, x, rest, pool, hsplit, htaken, hnoroom⟩
      rw [hnoroom.marked]
      exact hnoroom.full

/-- A table that drops a page that it changed and reads it again before it hands it back. -/
def rereadTable : Table := ⟨⟨0⟩, flagSchema, 0, [.discard, .reload]⟩

/-- A store with room for one of the two pages of that table, neither of them changed since it was written. -/
def tightPool : Engine :=
  ((Session.new 2 ⟨1, 2, none⟩ .memory).addTable ⟨0⟩ "rows" flagSchema none [.discard, .reload]).engine.acts
    [.ask (.insert ⟨1⟩ ⟨0⟩ (flagRow true)), .ask (.flushAll .asListed),
      .ask (.insert ⟨1⟩ ⟨0⟩ (flagRow false)), .ask (.flushAll .asListed)]

theorem reached_tightPool : tightPool.Reached := .acts (.start rfl rfl) _

def deleteAndDrop : List Move :=
  [.deleteFrom ⟨1⟩ ⟨0⟩ ⟨⟨⟨0⟩, 0⟩, 0⟩, .act (.ask (.discard ⟨⟨0⟩, 0⟩))]

def emptied : Page := ⟨⟨⟨0⟩, 0⟩, flagSchema, 2, List.replicate 8 false, [none], some ⟨1⟩, [1, 1]⟩

/-- A row is stored on a new page, which is dropped from memory and read again before its frame is handed back. -/
def insertAndReread : List Move :=
  [.insertInto ⟨1⟩ ⟨0⟩ (flagRow true), .act (.ask (.discard ⟨⟨0⟩, 2⟩)),
    .act (.ask (.get ⟨1⟩ ⟨⟨0⟩, 2⟩ .readOnly))]

def filled : Page :=
  ⟨⟨⟨0⟩, 2⟩, flagSchema, 2, true :: List.replicate 7 false, [some ((flagRow true).withRecord ⟨⟨⟨0⟩, 2⟩, 0⟩)], some ⟨1⟩,
    [0, 0]⟩

/-- The table reads the page again, and the frame that it hands back takes the place of the one that is resident by then,
for a delete and for an insert. When the row of the other page is deleted instead, there is no room for it. -/
theorem handed_back_pages_win_in_tight_pool :
    let reread := deleteAndDrop ++ [.act (.ask (.get ⟨1⟩ ⟨⟨0⟩, 0⟩ .readOnly))]
    let deleted := (tightPool.deleteTuple ⟨1⟩ (some ⟨⟨⟨0⟩, 0⟩, 0⟩)).1
    let inserted := (tightPool.insertTuple ⟨1⟩ ⟨0⟩ (flagRow true)).1
    let crowded := deleteAndDrop ++ [.deleteFrom ⟨1⟩ ⟨0⟩ ⟨⟨⟨0⟩, 1⟩, 0⟩]
    let jammed := tightPool.changeBy ⟨1⟩ ⟨0⟩ fun _ e => (e.moves crowded, .ok [4])
    ((tightPool.moves reread).pool.resident.find? ⟨⟨0⟩, 0⟩ = some 5 ∧
      deleted.pool.resident.find? ⟨⟨0⟩, 0⟩ = some 4 ∧
      deleted.page? 4 = some (emptied.markDirty (some ⟨1⟩))) ∧
    ((tightPool.moves insertAndReread).pool.resident.find? ⟨⟨0⟩, 2⟩ = some 7 ∧
      inserted.pool.resident.find? ⟨⟨0⟩, 2⟩ = some 6 ∧
      inserted.page? 6 = some (filled.markDirty (some ⟨1⟩))) ∧
    jammed.2 = .error .bufferPoolFull ∧ jammed.1.AllHeld := by
  intro reread deleted inserted crowded jammed
  have ht : tightPool.catalog.table? ⟨0⟩ = .ok rereadTable := by decide +kernel
  have hreread : (tightPool.moves reread).pool.Given [(4, emptied)] :=
    ⟨by rw [List.forall_mem_singleton]; decide +kernel, by decide⟩
  have hstored : (tightPool.moves insertAndReread).pool.Given [(6, filled)] :=
    ⟨by rw [List.forall_mem_singleton]; decide +kernel, by decide⟩
  have hcrowded : (tightPool.moves crowded).pool.Given [(4, emptied)] :=
    ⟨by rw [List.forall_mem_singleton]; decide +kernel, by decide⟩
  have hdelete := deleteTuple_eq_changeBy tightPool ⟨1⟩ ⟨⟨⟨0⟩, 0⟩, 0⟩
  have hwins := (handed_back_pages_win reached_tightPool ⟨1⟩ ht
    (fun table e => followedUp ⟨1⟩ table (e.deleteFrom ⟨1⟩ table (some ⟨⟨⟨0⟩, 0⟩, 0⟩))) reread
    [(4, emptied)] rfl hreread).2.1 (by rw [← hdelete]; decide +kernel)
  rw [← hdelete] at hwins
  have hinsert := insertTuple_eq_changeBy tightPool ⟨1⟩ ⟨0⟩ (flagRow true)
  have hputs := (handed_back_pages_win reached_tightPool ⟨1⟩ ht
    (fun table e => followedUp ⟨1⟩ table (e.insertInto ⟨1⟩ table (flagRow true))) insertAndReread
    [(6, filled)] rfl hstored).2.1 (by rw [← hinsert]; decide +kernel)
  rw [← hinsert] at hputs
  have hfull : jammed.2 = .error .bufferPoolFull := by decide +kernel
  have hjams := (handed_back_pages_win reached_tightPool ⟨1⟩ ht (fun _ e => (e.moves crowded, .ok [4])) crowded
    [(4, emptied)] rfl hcrowded).2.2 _ hfull
  exact ⟨⟨by decide +kernel, hwins.1 (4, emptied) List.mem_cons_self⟩,
    ⟨by decide +kernel, hputs.1 (6, filled) List.mem_cons_self⟩, hfull, hjams.2.2.1⟩

end Engine

end RowStore
