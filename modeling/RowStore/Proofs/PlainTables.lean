import RowStore.Proofs.Soundness

/-!
# Changes to plain tables

A plain table leaves its pages in the pool while it changes them. The page that an insert or a delete has changed is
then still resident and marked when it is handed back, so that handing it back is one more access to it, always succeeds
and leaves no event of its own.
-/

namespace RowStore

namespace Action

def Built : Action → Prop
  | .ask (.insert _ _ tuple) => ∃ schema values, Tuple.ofValues schema values = .ok tuple
  | _ => True

end Action

namespace Engine

theorem keptBy_setPage {p : Pool} {txn : TxnId} {f : FrameId} {old page : Page}
    (hr : p.resident.find? old.id = some f) (hf : p.page? f = some old) (hid : page.id = old.id) :
    keptBy (p.setPage f (page.markDirty (some txn))) txn f = true := by
  have hnew := Pool.page?_setPage hf (page.markDirty (some txn)) f
  rw [if_pos rfl] at hnew
  unfold keptBy
  rw [hnew, Option.any_some, Bool.and_eq_true, decide_eq_true_eq, decide_eq_true_eq]
  refine ⟨rfl, ?_⟩
  show p.resident.find? page.id = some f
  rw [hid, hr]

/-- What is left of a page being handed back that is still resident and marked. -/
theorem finishChange_kept {e : Engine} {txn : TxnId} {table : Table} {changed : List FrameId}
    (hp : table.followUps = []) (hk : ∀ f ∈ changed, keptBy e.pool txn f = true) :
    finishEvents txn table (e, .ok changed) = [] ∧
      ∃ replacer, finishChange txn table (e, .ok changed) =
        ({ e with pool := { e.pool with replacer := replacer } }, .ok ()) := by
  have hfollow : followUpsEvents txn table changed e = [] ∧ e.followUps txn table changed = e := by
    clear hk
    induction changed with
    | nil => exact ⟨rfl, rfl⟩
    | cons f rest ih =>
      have hcons : e.followUps txn table (f :: rest) = e.followUps txn table rest := by
        unfold followUps
        rw [List.foldl_cons]
        cases e.page? f with
        | none => rfl
        | some page => simp only [hp, List.foldl_nil]
      refine ⟨?_, hcons.trans ih.2⟩
      unfold followUpsEvents
      cases e.page? f with
      | none => exact ih.1
      | some page =>
        simp only [hp, List.foldl_nil, followUpAllEvents, List.nil_append]
        exact ih.1
  have hback : ∀ p : Pool, (∀ f ∈ changed, keptBy p txn f = true) →
      handBackEvents txn changed p = [] ∧
        ∃ replacer, Pool.handBack txn changed p = ({ p with replacer := replacer }, .ok ()) := by
    clear hk hfollow
    induction changed with
    | nil => exact fun p _ => ⟨rfl, _, rfl⟩
    | cons f rest ih =>
      intro p hk
      have hf := hk f List.mem_cons_self
      obtain ⟨page, _, _, hone⟩ := handBack_kept hf
      obtain ⟨hevents, replacer, hrest⟩ := ih (p.touch page.id) fun g hg => hk g (List.mem_cons_of_mem f hg)
      unfold handBackEvents
      rw [handBack_cons txn f rest p, hone, if_pos (by rw [hf, Bool.or_true])]
      exact ⟨hevents, replacer, hrest⟩
  obtain ⟨hevents, replacer, hhand⟩ := hback e.pool hk
  unfold finishEvents finishChange
  simp only [hfollow.1, hfollow.2, hevents, List.append_nil, true_and]
  unfold Engine.handBack
  rw [hhand]
  exact ⟨replacer, rfl⟩

theorem kept_of_storeIn {e e' : Engine} {txn : TxnId} {id : PageId} {f g : FrameId} {page : Page} {t : Tuple}
    (hs : e.pool.Sane) (hr : e.pool.resident.find? id = some f) (hf : e.page? f = some page)
    (h : e.storeIn txn f page t = (e', .ok g)) : keptBy e'.pool txn g = true := by
  have hid := hs.id_of_copy? (Pool.copy?_of_resident hr hf)
  unfold storeIn at h
  cases hi : page.insert t with
  | error err =>
    rw [hi] at h
    cases h
  | ok stored =>
    rw [hi] at h
    cases h
    exact keptBy_setPage (by rw [hid]; exact hr) hf (Page.id_of_insert hi).1

theorem kept_of_insertAmong {txn : TxnId} {table : TableId} {t : Tuple} {left n : Nat} {e e' : Engine} {g : FrameId}
    (hs : e.pool.Sane) (h : insertAmong txn table t left n e = (e', .ok (some g))) : keptBy e'.pool txn g = true := by
  induction left generalizing n e with
  | zero => cases h
  | succ left ih =>
    unfold insertAmong at h
    have hpath := path_getPage e txn ⟨table, n⟩ .readWrite
    cases hget : e.getPage txn ⟨table, n⟩ .readWrite with
    | mk e₁ result =>
      rw [hget] at h hpath
      have hs₁ := hpath.sane hs
      cases result with
      | error err => cases h
      | ok f =>
        obtain ⟨_, _, hr⟩ := getPage_ok hget
        simp only at h
        cases hf : e₁.page? f with
        | none =>
          rw [hf] at h
          exact ih hs₁ h
        | some page =>
          rw [hf] at h
          simp only at h
          split at h
          · cases hst : e₁.storeIn txn f page t with
            | mk e₂ stored =>
              rw [hst] at h
              cases stored with
              | error err => cases h
              | ok g' =>
                cases h
                exact kept_of_storeIn hs₁ hr hf hst
          · exact ih hs₁ h

theorem kept_of_storeAt {e e' : Engine} {txn : TxnId} {id : PageId} {t : Tuple} {changed : List FrameId}
    (hs : e.pool.Sane) (h : e.storeAt txn id t = (e', .ok changed)) : ∀ f ∈ changed, keptBy e'.pool txn f = true := by
  unfold storeAt at h
  have hp := path_getPage e txn id .readWrite
  cases hget : e.getPage txn id .readWrite with
  | mk e₁ result =>
    rw [hget] at h hp
    cases result with
    | error err => cases h
    | ok f =>
      obtain ⟨_, _, hr⟩ := getPage_ok hget
      simp only at h
      cases hf : e₁.page? f with
      | none =>
        rw [hf] at h
        cases h
        exact List.forall_mem_nil _
      | some page =>
        rw [hf] at h
        simp only at h
        cases hst : e₁.storeIn txn f page t with
        | mk e₂ stored =>
          rw [hst] at h
          cases stored with
          | error err => cases h
          | ok g =>
            cases h
            exact List.forall_mem_singleton.mpr (kept_of_storeIn (hp.sane hs) hr hf hst)

theorem kept_of_insertAtEnd {e e' : Engine} {txn : TxnId} {id : TableId} {table : Table} {t : Tuple}
    {changed : List FrameId} (hs : e.pool.Sane) (ht : e.catalog.table? id = .ok table)
    (h : e.insertAtEnd txn table t = (e', .ok changed)) : ∀ f ∈ changed, keptBy e'.pool txn f = true := by
  have ha := path_appendPage ht
  rw [insertAtEnd_eq] at h
  generalize e.appendPage table = outcome at ha h
  obtain ⟨e₁, result⟩ := outcome
  cases result with
  | error err => cases h
  | ok new => exact kept_of_storeAt (ha.2.sane hs) h

theorem kept_of_insertInto {e e' : Engine} {txn : TxnId} {id : TableId} {table : Table} {t : Tuple}
    {changed : List FrameId} (hs : e.pool.Sane) (ht : e.catalog.table? id = .ok table)
    (h : e.insertInto txn table t = (e', .ok changed)) : ∀ f ∈ changed, keptBy e'.pool txn f = true := by
  unfold insertInto at h
  split at h
  · cases h
  · have hpath := path_insertAmong txn table.id t (e.disk.pageCount e.pageSize table) 0 e
    cases hamong : insertAmong txn table.id t (e.disk.pageCount e.pageSize table) 0 e with
    | mk e₁ result =>
      rw [hamong] at h hpath
      cases result with
      | error err => cases h
      | ok found =>
        cases found with
        | some f =>
          cases h
          exact List.forall_mem_singleton.mpr (kept_of_insertAmong hs hamong)
        | none =>
          refine kept_of_insertAtEnd (hpath.sane hs) (show e₁.catalog.table? id = .ok table from ?_) h
          rw [← ht, ← hpath.catalog_eq]

theorem kept_of_deleteFrom {e e' : Engine} {txn : TxnId} {table : Table} {record : Option RecordId}
    {changed : List FrameId} (hs : e.pool.Sane) (h : e.deleteFrom txn table record = (e', .ok changed)) :
    ∀ f ∈ changed, keptBy e'.pool txn f = true := by
  unfold deleteFrom at h
  cases record with
  | none => cases h
  | some r =>
    simp only at h
    split at h
    · cases h
    · have hp := path_getPage e txn r.page .readWrite
      cases hget : e.getPage txn r.page .readWrite with
      | mk e₁ result =>
        rw [hget] at h hp
        have hs₁ := hp.sane hs
        cases result with
        | error err => cases h
        | ok f =>
          obtain ⟨_, _, hr⟩ := getPage_ok hget
          simp only at h
          cases hf : e₁.page? f with
          | none =>
            rw [hf] at h
            cases h
            exact List.forall_mem_nil _
          | some page =>
            rw [hf] at h
            simp only at h
            have hid := hs₁.id_of_copy? (Pool.copy?_of_resident hr hf)
            cases hd : page.delete (some r) with
            | error err =>
              rw [hd] at h
              cases h
            | ok page' =>
              rw [hd] at h
              cases h
              exact List.forall_mem_singleton.mpr
                (keptBy_setPage (by rw [hid]; exact hr) hf (Page.id_of_delete hd).1)

/-- An insert into a plain table is its walk over the pages and an access to the changed one. -/
theorem insertTuple_plain {e : Engine} (txn : TxnId) {id : TableId} {table : Table} (t : Tuple)
    (hs : e.pool.Sane) (ht : e.catalog.table? id = .ok table) (hp : table.followUps = []) :
    e.insertEvents txn id t = e.insertIntoEvents txn table t ∧
      ∃ replacer, e.insertTuple txn id t =
        ({ (e.insertInto txn table t).1 with
            pool := { (e.insertInto txn table t).1.pool with replacer := replacer } },
          (e.insertInto txn table t).2.map fun _ => ()) := by
  unfold insertEvents insertTuple
  simp only [ht]
  cases hinto : e.insertInto txn table t with
  | mk e₁ result =>
    cases result with
    | error err => exact ⟨List.append_nil _, _, rfl⟩
    | ok changed =>
      obtain ⟨hevents, replacer, hfinish⟩ := finishChange_kept hp (kept_of_insertInto hs ht hinto)
      rw [hevents, hfinish]
      exact ⟨List.append_nil _, replacer, rfl⟩

theorem deleteTuple_plain {e : Engine} (txn : TxnId) {r : RecordId} {table : Table}
    (hs : e.pool.Sane) (ht : e.catalog.table? r.page.table = .ok table) (hp : table.followUps = []) :
    e.deleteEvents txn (some r) = e.deleteFromEvents txn table r ∧
      ∃ replacer, e.deleteTuple txn (some r) =
        ({ (e.deleteFrom txn table (some r)).1 with
            pool := { (e.deleteFrom txn table (some r)).1.pool with replacer := replacer } },
          (e.deleteFrom txn table (some r)).2.map fun _ => ()) := by
  unfold deleteEvents deleteTuple
  simp only [ht]
  cases hfrom : e.deleteFrom txn table (some r) with
  | mk e₁ result =>
    cases result with
    | error err => exact ⟨List.append_nil _, _, rfl⟩
    | ok changed =>
      obtain ⟨hevents, replacer, hfinish⟩ := finishChange_kept hp (kept_of_deleteFrom hs hfrom)
      rw [hevents, hfinish]
      exact ⟨List.append_nil _, replacer, rfl⟩

/-- No table of the store lets its changed pages out of the pool. -/
def Plain (e : Engine) : Prop := ∀ id table, e.catalog.table? id = .ok table → table.followUps = []

/-- What holds of every lock, row and page that an insert may ask for, store and append holds of its history. -/
theorem forall_insertEvents {e : Engine} (hp : e.Plain) (hs : e.pool.Sane) {txn : TxnId} {id : TableId} {t : Tuple}
    {P : Event → Prop} (hg : ∀ page mode, P (.granted txn page mode)) (hst : ∀ r, P (.stored txn r t))
    (ha : ∀ page, P (.appended page)) : ∀ event ∈ e.insertEvents txn id t, P event := by
  cases ht : e.catalog.table? id with
  | error err =>
    unfold insertEvents
    rw [ht]
    exact List.forall_mem_nil _
  | ok table =>
    rw [(insertTuple_plain txn t hs ht (hp _ _ ht)).1]
    exact forall_insertIntoEvents hg hst ha

theorem forall_deleteEvents {e : Engine} (hp : e.Plain) (hs : e.pool.Sane) {txn : TxnId} {record : Option RecordId}
    {P : Event → Prop} (hg : ∀ page mode, P (.granted txn page mode)) (hr : ∀ r, record = some r → P (.removed txn r)) :
    ∀ event ∈ e.deleteEvents txn record, P event := by
  cases record with
  | none => exact List.forall_mem_nil _
  | some r =>
    cases ht : e.catalog.table? r.page.table with
    | error err =>
      unfold deleteEvents
      simp only [ht]
      exact List.forall_mem_nil _
    | ok table =>
      rw [(deleteTuple_plain txn hs ht (hp _ _ ht)).1]
      exact forall_deleteFromEvents hg (hr r rfl)

/-- Over plain tables actions with built rows leave only fair events. -/
theorem fair_of_mem_events {e : Engine} (hl : e.Layout) (hs : e.pool.Sane) {a : Action} (ha : a.Built) :
    ∀ event ∈ e.events a, event.Fair := by
  have hkinds := mayLeave_of_mem_events (e := e) (a := a)
  cases a with
  | ask r =>
    cases r with
    | insert txn id t =>
      obtain ⟨schema, values, hbuilt⟩ := ha
      exact forall_insertEvents hl.plain hs (fun _ _ => trivial) (fun _ => Tuple.fits_of_ofValues hbuilt) fun _ => trivial
    | delete txn record => exact forall_deleteEvents hl.plain hs (fun _ _ => trivial) fun _ _ => trivial
    | get | commit | abort | flush | flushTxn | flushAll | discard | release =>
      intro event hm
      have hkind := hkinds event hm
      cases event <;> first | exact trivial | exact hkind.elim
  | next s =>
    intro event hm
    have hkind := hkinds event hm
    cases event <;> first | exact trivial | exact hkind.elim
  | scan txn table =>
    intro event hm
    have hkind := hkinds event hm
    cases event <;> first | exact trivial | exact hkind.elim

theorem fair_of_mem_history {e : Engine} (hl : e.Layout) (hs : e.pool.Sane) {as : List Action}
    (hb : ∀ a ∈ as, a.Built) : ∀ event ∈ e.history as, event.Fair := by
  induction as generalizing e with
  | nil => exact List.forall_mem_nil _
  | cons a rest ih =>
    have hp := path_act e a
    exact List.forall_mem_append.mpr ⟨fair_of_mem_events hl hs (hb a List.mem_cons_self),
      ih (hp.layout hl) (hp.sane hs) fun b hm => hb b (List.mem_cons_of_mem a hm)⟩

/-- Sound states stay sound through actions with built rows while files stay in range. -/
theorem Sound.acts {e : Engine} (h : e.Sound) {as : List Action} (hb : ∀ a ∈ as, a.Built)
    (hr : (e.acts as).InRange) : (e.acts as).Sound :=
  ((path_acts e as).ranged hr).sound h (fair_of_mem_history h.toLayout h.sane hb)

end Engine

end RowStore
