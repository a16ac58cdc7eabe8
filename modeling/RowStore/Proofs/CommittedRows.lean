import RowStore.Proofs.OpenChanges

/-!
# Committed rows and later aborts

A commit leaves its pages in memory, marked and not written. The next transaction that changes such a page takes the
mark over, and if it aborts the page is read again from a file that may never have held the committed row. So a
committed row does not outlive every abort: it is shown by every later fetch exactly if each abort of a transaction
that has its page marked finds the row saved in the file. Up to the commit the row is safe, because its writer holds
the page.
-/

namespace RowStore

theorem Action.not_ended_before {l₁ l₂ : List Action} {a : Action} {txn : TxnId}
    (h : ((l₁ ++ a :: l₂).filterMap Action.ends).Nodup) (ha : a.ends = some txn) : ∀ b ∈ l₁, b.ends ≠ some txn := by
  intro b hb hx
  rw [List.filterMap_append, List.filterMap_cons_some ha, List.nodup_append] at h
  exact h.2.2 txn (List.mem_filterMap.mpr ⟨b, hb, hx⟩) txn List.mem_cons_self rfl

def Event.OfInsert (txn : TxnId) (tuple : Tuple) : Event → Prop
  | granted .. | appended _ => True
  | stored txn' _ tuple' => txn' = txn ∧ tuple' = tuple
  | _ => False

/-- A stored row stays as it is through the rest of its insert. -/
theorem Event.foldl_onRow_insert {txn : TxnId} {tuple : Tuple} {l : List Event}
    (hl : ∀ event ∈ l, event.OfInsert txn tuple) (r : RecordId) {row : Option Bytes × Option Bytes}
    (hrow : row.1 = some tuple.encode) :
    (l.foldl (onRow r) row).1 = some tuple.encode := by
  refine List.foldlRecOn l (onRow r) (motive := fun row => row.1 = some tuple.encode) hrow fun row hrow event he => ?_
  have hkind := hl event he
  cases event with
  | granted | appended => exact hrow
  | stored txn' r' tuple' =>
    obtain ⟨rfl, rfl⟩ := hkind
    show (if r' = r then (some tuple'.encode, row.2) else row).1 = _
    split
    · rfl
    · exact hrow
  | _ => exact hkind.elim

namespace Engine

/-- Whoever fetches the page of a record id finds a row with the given bytes there. -/
def Shows (e : Engine) (r : RecordId) (bytes : Bytes) : Prop :=
  ∀ txn access e' f, e.getPage txn r.page access = (e', .ok f) →
    ∃ page, e'.page? f = some page ∧ page.id = r.page ∧ (page.tuple? r.slot).map Tuple.encode = some bytes

/-- A row that its transaction has stored and not yet committed: locked, and marked by nobody else. -/
structure Guarded (e : Engine) (txn : TxnId) (r : RecordId) (bytes : Bytes) : Prop where
  row : e.row? r = some bytes
  mark : ∀ other, e.mark? r.page = some other → other = txn
  lock : e.locks.modeOf? txn r.page = some .exclusive

namespace Steady

variable {e : Engine}

theorem shows_of_row (h : e.Steady) {r : RecordId} {bytes : Bytes} (hr : e.row? r = some bytes) :
    e.Shows r bytes := by
  intro txn access e' f hget
  obtain ⟨page, hpage, hid, _, hrow⟩ := h.page_of_getPage hget
  exact ⟨page, hpage, hid, (hrow r.slot).trans hr⟩

theorem guarded_of_stored (h : e.Steady) {txn : TxnId} {table : TableId} {tuple : Tuple} {r : RecordId}
    (hbuilt : Action.Built (.ask (.insert txn table tuple)))
    (hr : e.InRange)
    (hm : .stored txn r tuple ∈ e.events (.ask (.insert txn table tuple))) :
    (e.act (.ask (.insert txn table tuple))).Guarded txn r tuple.encode := by
  have hkinds : ∀ event ∈ e.events (.ask (.insert txn table tuple)), event.OfInsert txn tuple :=
    forall_insertEvents h.plain h.sane (fun _ _ => trivial) (fun _ => ⟨rfl, rfl⟩) fun _ => trivial
  have hpending := h.firm.pending_of_change hm ⟨rfl, rfl⟩
  refine ⟨?_, fun other hother => Option.some.inj (hother.symm.trans hpending.mark), hpending.lock⟩
  have hrows := (ranged_act hr (.ask (.insert txn table tuple))).rows h.toSound (h.fair hbuilt) r
  obtain ⟨l₁, l₂, hl⟩ := List.append_of_mem hm
  rw [hl] at hkinds hrows
  rw [List.foldl_append, List.foldl_cons] at hrows
  -- What follows the stored row in the history of the same insert leaves it as it is.
  have hlater : ∀ event ∈ l₂, event.OfInsert txn tuple := fun event he =>
    hkinds event (List.mem_append_right _ (List.mem_cons_of_mem _ he))
  refine (congrArg Prod.fst hrows).trans (Event.foldl_onRow_insert hlater r ?_)
  exact congrArg Prod.fst (if_pos rfl)

/-- A guarded row stays guarded until its transaction ends or somebody removes it. -/
theorem guarded_act (h : e.Steady) {a : Action} (ha : a.Orderly) (hr : e.InRange) {txn : TxnId} {r : RecordId}
    {bytes : Bytes} (hg : e.Guarded txn r bytes) (hends : a.ends ≠ some txn)
    (hrem : ∀ other, .removed other r ∉ e.events a) : (e.act a).Guarded txn r bytes := by
  obtain ⟨hadmits, hlocks⟩ := h.locks a
  have hrel : ∀ event ∈ e.events a, LockTable.isRelease event = false := fun event hm =>
    ha.not_release (mayLeave_of_mem_events event hm)
  have hopen : .completed txn ∉ e.events a := fun hm => hends (mayLeave_of_mem_events _ hm).ends
  refine ⟨h.row_kept ha hr hg.row hrem ?_, ?_, ?_⟩
  · rintro other sweep rfl hmark
    exact hends (congrArg some (hg.mark other hmark))
  · intro other hmark
    rw [(ranged_act hr a).marks h.toSound (h.fair ha.built) r.page] at hmark
    exact h.proper.marked_by_holder hadmits hrel hopen hg.lock hg.mark other hmark
  · obtain ⟨mode, hmode, hx⟩ := h.proper.modeOf?_foldl_after hadmits hrel hopen hg.lock
    rw [hlocks, hmode, hx rfl]

theorem guarded_acts (h : e.Steady) {as : List Action} (ha : ∀ a ∈ as, a.Orderly) (hr : (e.acts as).InRange)
    {txn : TxnId} {r : RecordId} {bytes : Bytes} (hg : e.Guarded txn r bytes) (hends : ∀ a ∈ as, a.ends ≠ some txn)
    (hrem : ∀ other, .removed other r ∉ e.history as) : (e.acts as).Guarded txn r bytes := by
  induction as generalizing e with
  | nil => exact hg
  | cons a rest ih =>
    have hr₁ := (path_acts e (a :: rest)).inRange hr
    have ha₁ := ha a List.mem_cons_self
    exact ih (h.act ha₁.built hr₁) (fun b hb => ha b (List.mem_cons_of_mem a hb)) hr
      (h.guarded_act ha₁ hr₁ hg (hends a List.mem_cons_self) fun other hm => hrem other (List.mem_append_left _ hm))
      (fun b hb => hends b (List.mem_cons_of_mem a hb)) fun other hm => hrem other (List.mem_append_right _ hm)

/-- A row that nobody removes lasts if every abort that reads its page again finds it saved. -/
theorem row_kept_acts (h : e.Steady) {as : List Action} (ha : ∀ a ∈ as, a.Orderly) (hr : (e.acts as).InRange)
    {r : RecordId} {bytes : Bytes} (hrow : e.row? r = some bytes) (hrem : ∀ other, .removed other r ∉ e.history as)
    (habort : ∀ seen other sweep rest, as = seen ++ .ask (.abort other sweep) :: rest →
      (e.acts seen).mark? r.page = some other → (e.acts seen).saved? r = some bytes) :
    (e.acts as).row? r = some bytes := by
  induction as generalizing e with
  | nil => exact hrow
  | cons a rest ih =>
    have hr₁ := (path_acts e (a :: rest)).inRange hr
    have ha₁ := ha a List.mem_cons_self
    refine ih (h.act ha₁.built hr₁) (fun b hb => ha b (List.mem_cons_of_mem a hb)) hr ?_
      (fun other hm => hrem other (List.mem_append_right _ hm)) ?_
    · by_cases hab : ∃ other sweep, a = .ask (.abort other sweep)
      · obtain ⟨other, sweep, rfl⟩ := hab
        rw [h.row_abort]
        split
        · rename_i hmark
          exact habort [] other sweep rest rfl hmark
        · exact hrow
      · exact h.row_kept ha₁ hr₁ hrow (fun other hm => hrem other (List.mem_append_left _ hm))
          fun other sweep he => absurd ⟨other, sweep, he⟩ hab
    · intro seen other sweep rest' he hmark
      exact habort (a :: seen) other sweep rest' (by rw [he]; rfl) hmark

/-- After an abort the pages that its transaction had marked and locked can be fetched. -/
theorem getPage_after_abort (h : e.Steady) {txn : TxnId} {page : PageId} (sweep : Sweep)
    (hm : e.mark? page = some txn) (hx : e.locks.modeOf? txn page = some .exclusive) :
    ∃ e' f, (e.act (.ask (.abort txn sweep))).getPage txn page .readOnly = (e', .ok f) := by
  have hfree : (e.act (.ask (.abort txn sweep))).locks.holdersOf page = [] := by
    rw [h.locks_of_ends rfl, h.proper.holdersOf_releaseAll, h.proper.alone page _ (LockTable.modeOf?_eq_some hx) rfl]
    simp
  have hres : (e.act (.ask (.abort txn sweep))).pool.resident = e.pool.resident :=
    resident_rollbackPages _ e fun _ => resident_of_mem_dirtiedBy
  obtain ⟨copy, hcopy, _⟩ := Option.bind_eq_some_iff.mp hm
  obtain ⟨f, hf, _⟩ := Pool.copy?_eq_some.mp hcopy
  rw [← hres] at hf
  rw [getPage_eq, LockTable.request_of_free hfree, if_pos rfl]
  unfold fetch
  simp only [hf]
  exact ⟨_, _, rfl⟩

/-- A stored row that nobody has removed is there when its transaction has committed. -/
theorem row_of_commit (h : e.Steady) {txn : TxnId} {table : TableId} {tuple : Tuple} {sweep : Sweep} {r : RecordId}
    {between : List Action} (hbuilt : Action.Built (.ask (.insert txn table tuple))) (ha : ∀ a ∈ between, a.Orderly)
    (hr : ((e.act (.ask (.insert txn table tuple))).acts between).InRange)
    (hstored : .stored txn r tuple ∈ e.events (.ask (.insert txn table tuple)))
    (hends : ∀ a ∈ between, a.ends ≠ some txn)
    (hrem : ∀ other, .removed other r ∉
      (e.act (.ask (.insert txn table tuple))).history (between ++ [.ask (.commit txn sweep)])) :
    (((e.act (.ask (.insert txn table tuple))).acts between).act (.ask (.commit txn sweep))).row? r =
      some tuple.encode := by
  have hr₁ : (e.act (.ask (.insert txn table tuple))).InRange := (path_acts _ between).inRange hr
  have hr₀ : e.InRange := (path_act e _).inRange hr₁
  have hg₁ := h.guarded_of_stored hbuilt hr₀ hstored
  have h₁ := h.act hbuilt hr₀
  generalize e.act (.ask (.insert txn table tuple)) = e₁ at hr hr₁ hrem hg₁ h₁ ⊢
  rw [history_append] at hrem
  have hg₂ := h₁.guarded_acts ha hr hg₁ hends fun other hm => hrem other (List.mem_append_left _ hm)
  have h₂ := h₁.acts (fun a hm => (ha a hm).built) hr
  refine h₂.row_kept (a := .ask (.commit txn sweep)) trivial hr hg₂.row (fun other hm => ?_) fun _ _ => nofun
  exact hrem other (List.mem_append_right _ (List.mem_append_left _ hm))

/-- A row that nobody removes is shown all the time exactly if every abort that reads its page again finds it saved, as
long as whoever has marked the page still holds it. -/
theorem shown_iff_saved (h : e.Steady) {as : List Action} (ha : ∀ a ∈ as, a.Orderly) (hr : (e.acts as).InRange)
    {r : RecordId} {bytes : Bytes} (hrow : e.row? r = some bytes) (hrem : ∀ other, .removed other r ∉ e.history as)
    (hlock : ∀ seen other sweep rest, as = seen ++ .ask (.abort other sweep) :: rest →
      (e.acts seen).mark? r.page = some other → (e.acts seen).locks.modeOf? other r.page = some .exclusive) :
    (∀ seen rest, as = seen ++ rest → (e.acts seen).Shows r bytes) ↔
      ∀ seen other sweep rest, as = seen ++ .ask (.abort other sweep) :: rest →
        (e.acts seen).mark? r.page = some other → (e.acts seen).saved? r = some bytes := by
  have hseen : ∀ seen rest, as = seen ++ rest →
      (∀ a ∈ seen, a.Orderly) ∧ (e.acts seen).InRange ∧ ∀ other, .removed other r ∉ e.history seen := by
    rintro seen rest rfl
    rw [acts_append] at hr
    rw [history_append] at hrem
    exact ⟨fun a hm => ha a (List.mem_append_left _ hm), (path_acts _ rest).inRange hr,
      fun other hm => hrem other (List.mem_append_left _ hm)⟩
  constructor
  · intro hshows seen other sweep rest hsplit hmark
    obtain ⟨horderly, hshort, _⟩ := hseen seen _ hsplit
    have hs := h.acts (fun a hm => (horderly a hm).built) hshort
    obtain ⟨e', f, hget⟩ := hs.getPage_after_abort sweep hmark (hlock seen other sweep rest hsplit hmark)
    have hshow := hshows (seen ++ [.ask (.abort other sweep)]) rest (by rw [hsplit]; simp)
    rw [acts_append] at hshow
    obtain ⟨page, hpage, _, hbytes⟩ := hshow other .readOnly e' f hget
    obtain ⟨page', hpage', _, _, hrow'⟩ := (hs.abort other sweep).page_of_getPage hget
    cases hpage.symm.trans hpage'
    have hrestored := hs.row_abort other sweep r
    rw [if_pos hmark] at hrestored
    rw [← hrestored, ← hbytes]
    exact (hrow' r.slot).symm
  · intro hsaved seen rest hsplit
    obtain ⟨horderly, hshort, hrem'⟩ := hseen seen rest hsplit
    refine (h.acts (fun a hm => (horderly a hm).built) hshort).shows_of_row ?_
    refine h.row_kept_acts horderly hshort hrow hrem' fun seen' other sweep rest' he hmark => ?_
    exact hsaved seen' other sweep (rest' ++ rest) (by rw [hsplit, he]; simp) hmark

end Steady

/-- In a run from a fresh store whoever has marked a page holds it until its transaction ends. -/
theorem Fresh.locked_of_marked {e : Engine} (h : e.Fresh) (hf : e.Faultless) {as : List Action}
    (ha : ∀ a ∈ as, a.Orderly) (hr : (e.acts as).InRange) {txn : TxnId} (hends : ∀ a ∈ as, a.ends ≠ some txn)
    {page : PageId}
    (hm : (e.acts as).mark? page = some txn) : (e.acts as).locks.modeOf? txn page = some .exclusive := by
  have hpath := (path_acts e as).ranged hr
  obtain ⟨hadmits, hlocks⟩ := hpath.path.locks h.sane
  have hrel : ∀ event ∈ e.history as, LockTable.isRelease event = false := by
    intro event hm
    obtain ⟨a, hmem, hl⟩ := mem_history hm
    exact (ha a hmem).not_release hl
  have hopen : .completed txn ∉ e.history as := by
    intro hm
    obtain ⟨a, hmem, hl⟩ := mem_history hm
    exact hends a hmem hl.ends
  have hunmarked : e.mark? page = none := by
    unfold mark?
    rw [h.copy?]
    rfl
  rw [hpath.marks h.sound (fair_of_mem_history h.toLayout h.sane fun a hmem => (ha a hmem).built), hunmarked] at hm
  rw [hlocks]
  refine ((h.steady hf).proper.marked hadmits hrel (fun hnone => ?_) hm).resolve_right hopen
  cases hnone

/-- A committed row is shown by every later fetch of its page, until somebody deletes it, exactly if every later abort
of a transaction that has the page marked finds the row in the file. -/
theorem committed_row_shown_iff (e : Engine) (hfresh : e.Fresh) (hfaults : e.Faultless)
    (before between after start : List Action) (txn : TxnId) (table : TableId) (tuple : Tuple) (sweep : Sweep)
    (r : RecordId)
    (hstart : start =
      before ++ .ask (.insert txn table tuple) :: between ++ [.ask (.commit txn sweep)])
    (horderly : ∀ a ∈ start ++ after, a.Orderly) (hends : ((start ++ after).filterMap Action.ends).Nodup)
    (hrange : (e.acts (start ++ after)).InRange)
    (hstored : .stored txn r tuple ∈ (e.acts before).events (.ask (.insert txn table tuple)))
    (hkept : ∀ other, .removed other r ∉
      (e.acts (before ++ [.ask (.insert txn table tuple)])).history (between ++ .ask (.commit txn sweep) :: after)) :
    (∀ seen rest, after = seen ++ rest → (e.acts (start ++ seen)).Shows r tuple.encode) ↔
      ∀ seen other sweep rest, after = seen ++ .ask (.abort other sweep) :: rest →
        (e.acts (start ++ seen)).mark? r.page = some other →
          (e.acts (start ++ seen)).saved? r = some tuple.encode := by
  have horder : ∀ as bs, start ++ after = as ++ bs → ∀ a ∈ as, a.Orderly := fun as bs hsplit a ha =>
    horderly a (by rw [hsplit]; exact List.mem_append_left _ ha)
  have hshort : ∀ as bs, start ++ after = as ++ bs → (e.acts as).InRange := by
    intro as bs hsplit
    rw [hsplit, acts_append] at hrange
    exact (path_acts _ bs).inRange hrange
  have hsteady : ∀ as bs, start ++ after = as ++ bs → (e.acts as).Steady := fun as bs hsplit =>
    (hfresh.steady hfaults).acts (fun a ha => (horder as bs hsplit a ha).built) (hshort as bs hsplit)
  -- The run in three parts: up to the insert, from the insert up to the commit, and what follows.
  have hparts : start ++ after =
      (before ++ .ask (.insert txn table tuple) :: between) ++ .ask (.commit txn sweep) :: after := by
    rw [hstart]
    simp only [List.append_assoc, List.singleton_append]
  have hstate : e.acts start =
      (((e.acts before).act (.ask (.insert txn table tuple))).acts between).act (.ask (.commit txn sweep)) := by
    rw [hstart, acts_append, acts_append]
    rfl
  have hhistory : (e.acts (before ++ [.ask (.insert txn table tuple)])).history
      (between ++ .ask (.commit txn sweep) :: after) =
        ((e.acts before).act (.ask (.insert txn table tuple))).history (between ++ [.ask (.commit txn sweep)]) ++
          (e.acts start).history after := by
    rw [hstate, acts_append, List.append_cons, history_append _ (between ++ _), acts_append]
    rfl
  rw [hhistory] at hkept
  have hrow : (e.acts start).row? r = some tuple.encode := by
    have h₀ := hsteady before (.ask (.insert txn table tuple) :: (between ++ .ask (.commit txn sweep) :: after))
      (by rw [hparts, List.append_assoc]; rfl)
    have hr := hshort (before ++ .ask (.insert txn table tuple) :: between) _ hparts
    rw [acts_append] at hr
    have hnot := Action.not_ended_before (hparts ▸ hends) (rfl : (Action.ask (.commit txn sweep)).ends = some txn)
    have hbuilt := (horderly (.ask (.insert txn table tuple)) (by rw [hparts]; simp)).built
    rw [hstate]
    exact h₀.row_of_commit hbuilt (fun a ha => horderly a (by rw [hparts]; simp [ha])) hr hstored
      (fun a ha => hnot a (List.mem_append_right _ (List.mem_cons_of_mem _ ha)))
      fun other hm => hkept other (List.mem_append_left _ hm)
  have hiff := (hsteady start after rfl).shown_iff_saved
    (fun a ha => horderly a (List.mem_append_right _ ha)) (by rw [← acts_append]; exact hrange) hrow
    (fun other hm => hkept other (List.mem_append_right _ hm)) fun seen other sweep' rest hsplit hmark => ?_
  · simp only [acts_append]
    exact hiff
  · have hwhole : start ++ after = (start ++ seen) ++ .ask (.abort other sweep') :: rest := by
      rw [hsplit, List.append_assoc]
    rw [← acts_append] at hmark ⊢
    exact hfresh.locked_of_marked hfaults (horder _ _ hwhole) (hshort _ _ hwhole)
      (Action.not_ended_before (hwhole ▸ hends) rfl) hmark

/-- The row is lost: the second transaction takes the mark of the committed page over, and its abort reads the page
again from a file that was never written. -/
theorem committed_row_lost_after_abort :
    ¬ ∀ seen rest, [.ask (.insert ⟨2⟩ ⟨0⟩ (flagRow false)), .ask (.abort ⟨2⟩ .asListed)] = seen ++ rest →
      (flagStore.acts (rowCommitted ++ seen)).Shows ⟨⟨⟨0⟩, 0⟩, 0⟩ (flagRow true).encode := by
  have hbuilt : ∀ b, ∃ schema values, Tuple.ofValues schema values = .ok (flagRow b) := fun b =>
    ⟨flagSchema, [.boolean b], by cases b <;> rfl⟩
  refine fun hshows => absurd ((committed_row_shown_iff flagStore
    (fresh_single (by decide) _ _) (fun _ _ => rfl) [] []
    [.ask (.insert ⟨2⟩ ⟨0⟩ (flagRow false)), .ask (.abort ⟨2⟩ .asListed)] rowCommitted ⟨1⟩ ⟨0⟩ (flagRow true) .asListed
    ⟨⟨⟨0⟩, 0⟩, 0⟩ rfl ?_ (by decide) (inRange_single (by decide +kernel)) ?_ ?_).mp hshows
    [.ask (.insert ⟨2⟩ ⟨0⟩ (flagRow false))] ⟨2⟩ .asListed [] rfl (by decide +kernel)) (by decide +kernel)
  · simp only [rowCommitted, List.cons_append, List.nil_append, List.forall_mem_cons]
    exact ⟨hbuilt true, trivial, hbuilt false, trivial, List.forall_mem_nil _⟩
  · exact List.mem_of_getElem? (i := 2) rfl
  · intro other hm
    obtain ⟨a, ha, hl⟩ := mem_history hm
    simp only [List.nil_append, List.mem_cons, List.not_mem_nil, or_false] at ha
    rcases ha with rfl | rfl | rfl <;> exact hl

end Engine

end RowStore
