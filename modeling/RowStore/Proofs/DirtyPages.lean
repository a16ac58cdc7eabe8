import RowStore.Proofs.ChangeResults
import RowStore.Proofs.FailedCommits
import RowStore.Proofs.PageCopies

/-!
# Dirty pages stay in memory

A page that was changed and not written since is the only place where the change lies. Over plain tables it keeps its
frame through everything that is asked of the store, whichever outside calls fail: no load gives it up, and only a write
of the page, a reload for the transaction that has changed it or a drop on demand makes it clean. Until then what lies in
the frame, and whose change it is, is changed only by inserts and deletes that succeed and hold the page exclusively.
-/

namespace RowStore.Engine

variable {e e' : Engine} {l : List Event} {p : PageId} {f : FrameId} {a : Action}

/-- The page is resident in the frame, and it was changed since it was written or read. -/
structure DirtyIn (e : Engine) (p : PageId) (f : FrameId) : Prop where
  resident : e.pool.resident.find? p = some f
  marked : e.mark? p ≠ none

def inMemory? (e : Engine) (p : PageId) : Option Bytes := (e.copy? p).map Page.encode

/-- The action writes the page to its file, or reads it again from there for the transaction that has changed it. -/
def Cleans (e : Engine) (p : PageId) (a : Action) : Prop :=
  .written p ∈ e.events a ∨
    ∃ txn sweep, a = .ask (.abort txn sweep) ∧ e.mark? p = some txn ∧ .restored p ∈ e.events a

def NeverCleans (e : Engine) (p : PageId) : List Action → Prop
  | [] => True
  | a :: as => ¬ e.Cleans p a ∧ (e.act a).NeverCleans p as

/-- The action leaves the contents of the page and its mark as they are. -/
def Spares (e : Engine) (p : PageId) (a : Action) : Prop :=
  (e.act a).inMemory? p = e.inMemory? p ∧ (e.act a).mark? p = e.mark? p

/-- The action is an insert or a delete that succeeds, and its transaction holds the page exclusively. -/
def ChangesAsHolder (e : Engine) (p : PageId) (a : Action) : Prop :=
  ∃ txn, (e.act a).locks.modeOf? txn p = some .exclusive ∧
    ((∃ table t, a = .ask (.insert txn table t) ∧ (e.insertTuple txn table t).2 = .ok ()) ∨
      ∃ record, a = .ask (.delete txn record) ∧ (e.deleteTuple txn record).2 = .ok ())

/-- A step that neither hands back, drops, writes nor restores a dirty page leaves it in its frame and dirty, and changes
it by storing or removing a row only. -/
theorem Step.dirtyIn (hstep : Step e l e') (hs : e.pool.Sane) (hd : e.DirtyIn p f) (hl : ∀ txn f, .handed txn f ∉ l)
    (hdrop : .discarded p ∉ l) (hw : .written p ∉ l) (hr : .restored p ∉ l) :
    e'.DirtyIn p f ∧ ((e'.inMemory? p = e.inMemory? p ∧ e'.mark? p = e.mark? p) ∨
      ∃ txn, ∃ event ∈ l, event.ChangedBy txn p) := by
  obtain ⟨txn, hmark⟩ := Option.ne_none_iff_exists'.mp hd.marked
  obtain ⟨old, hold, hdirtier⟩ := Option.bind_eq_some_iff.mp hmark
  have hpage : e.pool.page? f = some old := by
    rw [Engine.copy?, Pool.copy?, hd.resident] at hold
    exact hold
  have hmarked : e'.mark? p ≠ none := by
    rw [hstep.marks hs hl p]
    exact Event.foldl_onMark_ne_none hw hr hdrop hd.marked
  have hresident : e'.pool.resident.find? p = some f := by
    cases hstep with
    | @load page pool g hn hp hload =>
      have hne : page.id ≠ p := by
        rintro rfl
        cases hn.symm.trans hd.resident
      have hkept : e.pool.evictable p = false := by
        unfold Pool.evictable
        rw [hd.resident]
        simp only [hpage, Option.any_some, Page.isDirty, hdirtier, Option.isSome_some, Bool.not_true, Bool.and_false]
      exact Pool.find?_load_of_kept hload hne hd.resident hkept
    | discard q =>
      show (e.pool.resident.erase q).find? p = some f
      rw [Dict.find?_erase, if_neg fun he : q = p => hdrop (by rw [he]; exact List.mem_cons_self), hd.resident]
    | hand txn g => exact absurd List.mem_cons_self (hl txn g)
    | call | countRead | log | force | touch | grant | store | remove | append | base | write | restore | complete
    | release => exact hd.resident
  refine ⟨⟨hresident, hmarked⟩, ?_⟩
  obtain ⟨_, hmark'⟩ := Option.ne_none_iff_exists'.mp hmarked
  obtain ⟨new, hnew, _⟩ := Option.bind_eq_some_iff.mp hmark'
  have hsame : new.encode = old.encode → new.dirtier = old.dirtier →
      e'.inMemory? p = e.inMemory? p ∧ e'.mark? p = e.mark? p := by
    intro hencode hdirtier'
    unfold inMemory? mark?
    rw [hnew, hold]
    exact ⟨congrArg some hencode, hdirtier'⟩
  cases hstep.copied hs hl hnew with
  | kept hc =>
    cases hc.symm.trans hold
    exact .inl (hsame rfl rfl)
  | loaded hn hp => cases hn.symm.trans hold
  | restored hm hp => exact absurd hm hr
  | based hc he =>
    cases hc.symm.trans hold
    exact .inl (hsame (by rw [he]; rfl) (by rw [he]; rfl))
  | written hm hc he => exact absurd hm hw
  | stored hm hpage' hc hi he => exact .inr ⟨_, _, hm, rfl, hpage'⟩
  | removed hm hpage' hc hd' he => exact .inr ⟨_, _, hm, rfl, hpage'⟩

theorem Path.dirtyIn (hpath : Path e l e') (hs : e.pool.Sane) (hd : e.DirtyIn p f) (hl : ∀ txn f, .handed txn f ∉ l)
    (hdrop : .discarded p ∉ l) (hw : .written p ∉ l) (hr : .restored p ∉ l) :
    e'.DirtyIn p f ∧ ((e'.inMemory? p = e.inMemory? p ∧ e'.mark? p = e.mark? p) ∨
      ∃ txn, ∃ event ∈ l, event.ChangedBy txn p) := by
  induction hpath with
  | refl => exact ⟨hd, .inl ⟨rfl, rfl⟩⟩
  | @step e m e' first later hstep _ ih =>
    have hfirst : ∀ {event : Event}, event ∉ first ++ later → event ∉ first := mt (List.mem_append_left later)
    have hlater : ∀ {event : Event}, event ∉ first ++ later → event ∉ later := mt (List.mem_append_right first)
    obtain ⟨hd', hone⟩ := hstep.dirtyIn hs hd (fun txn g => hfirst (hl txn g)) (hfirst hdrop) (hfirst hw) (hfirst hr)
    obtain ⟨hd'', hmore⟩ := ih (hstep.sane hs) hd' (fun txn g => hlater (hl txn g)) (hlater hdrop) (hlater hw)
      (hlater hr)
    refine ⟨hd'', ?_⟩
    rcases hone with hsame | ⟨txn, event, hm, hc⟩
    · rcases hmore with hsame' | ⟨txn, event, hm, hc⟩
      · exact .inl ⟨hsame'.1.trans hsame.1, hsame'.2.trans hsame.2⟩
      · exact .inr ⟨txn, event, List.mem_append_right _ hm, hc⟩
    · exact .inr ⟨txn, event, List.mem_append_left _ hm, hc⟩

/-- An action that stores or removes a row of the page is an insert or a delete that succeeds and holds the page. -/
theorem changesAsHolder_of_mem (hp : e.Plain) (hs : e.pool.Sane) {event : Event} {txn : TxnId}
    (hm : event ∈ e.events a) (hc : event.ChangedBy txn p) : e.ChangesAsHolder p a := by
  have hkind := mayLeave_of_mem_events event hm
  cases a with
  | ask request =>
    cases request with
    | insert txn' table t =>
      cases event with
      | stored txn r t' =>
        obtain ⟨rfl, rfl⟩ := hc
        obtain ⟨hok, hx⟩ := insertTuple_of_stored hp hs hm
        exact ⟨txn', hx, .inl ⟨table, t, rfl, hok⟩⟩
      | removed => exact hkind.elim
      | _ => exact hc.elim
    | delete txn' record =>
      cases event with
      | removed txn r =>
        obtain ⟨rfl, rfl⟩ := hc
        obtain ⟨hok, hx⟩ := deleteTuple_of_removed hp hs hm
        exact ⟨txn', hx, .inr ⟨record, rfl, hok⟩⟩
      | stored => exact hkind.elim
      | _ => exact hc.elim
    | get | commit | abort | flush | flushTxn | flushAll | discard | release =>
      cases event <;> first | exact hc.elim | exact hkind.elim
  | next s => cases event <;> first | exact hc.elim | exact hkind.elim
  | scan txn' table => cases event <;> first | exact hc.elim | exact hkind.elim

/-- What one action does to a dirty page that it neither drops nor cleans. -/
theorem dirtyIn_act (hp : e.Plain) (hs : e.pool.Sane) (hd : e.DirtyIn p f) (hdrop : a ≠ .ask (.discard p))
    (hc : ¬ e.Cleans p a) : (e.act a).DirtyIn p f ∧ (e.Spares p a ∨ e.ChangesAsHolder p a) := by
  have hrestored : .restored p ∉ e.events a := by
    intro hm
    obtain ⟨txn, sweep, rfl⟩ := (mayLeave_of_mem_events _ hm).abort
    exact hc (.inr ⟨txn, sweep, rfl, marked_of_restored hs hm, hm⟩)
  obtain ⟨hd', hchange⟩ := (path_act e a).dirtyIn hs hd (not_handed_of_mem_events hp hs a)
    (fun hm => hdrop (discarded_of_mem_events hp hs hm)) (fun hm => hc (.inl hm)) hrestored
  refine ⟨hd', hchange.imp_right ?_⟩
  rintro ⟨txn, event, hm, hchanged⟩
  exact changesAsHolder_of_mem hp hs hm hchanged

theorem dirtyIn_acts {during : List Action} (hp : e.Plain) (hs : e.pool.Sane) (hd : e.DirtyIn p f)
    (hdrop : .ask (.discard p) ∉ during) (hc : e.NeverCleans p during) :
    (e.acts during).DirtyIn p f ∧ ∀ seen a rest, during = seen ++ a :: rest →
      (e.acts seen).Spares p a ∨ (e.acts seen).ChangesAsHolder p a := by
  induction during generalizing e with
  | nil => exact ⟨hd, fun seen a rest h => absurd h.symm (List.append_ne_nil_of_right_ne_nil _ (List.cons_ne_nil _ _))⟩
  | cons b later ih =>
    have hpath := path_act e b
    have hp' : (e.act b).Plain := fun id table ht => hp id table (by rwa [← hpath.catalog_eq])
    obtain ⟨hd', hfirst⟩ := dirtyIn_act hp hs hd (fun he => hdrop (by rw [he]; exact List.mem_cons_self)) hc.1
    obtain ⟨hlast, hlater⟩ := ih hp' (hpath.sane hs) hd' (fun hm => hdrop (List.mem_cons_of_mem b hm)) hc.2
    refine ⟨hlast, fun seen a rest hsplit => ?_⟩
    cases seen with
    | nil =>
      cases hsplit
      exact hfirst
    | cons c seen =>
      cases hsplit
      exact hlater seen a rest rfl

/-- In a store over plain tables with an empty pool, however full the pool gets and whichever outside calls fail: once a
page is dirty it stays dirty in its frame until it is written or is read again for the transaction that has changed it,
and every action on the way leaves its contents and its mark alone, unless it is an insert or a delete that succeeds and
whose transaction holds the page exclusively. -/
theorem dirty_page_kept (e : Engine) {capacity k : Nat} (hpool : e.pool = Pool.new capacity k) (hplain : e.Plain)
    (before during : List Action) (hdirty : (e.acts before).DirtyIn p f) (hdrop : .ask (.discard p) ∉ during)
    (hclean : (e.acts before).NeverCleans p during) :
    (e.acts (before ++ during)).DirtyIn p f ∧ ∀ seen a rest, during = seen ++ a :: rest →
      (e.acts (before ++ seen)).Spares p a ∨ (e.acts (before ++ seen)).ChangesAsHolder p a := by
  have hpath := path_acts e before
  have hsane : (e.acts before).pool.Sane := hpath.sane (by rw [hpool]; exact Pool.sane_new capacity k)
  have hplain' : (e.acts before).Plain := fun id table ht => hplain id table (by rwa [← hpath.catalog_eq])
  simp only [acts_append]
  exact dirtyIn_acts hplain' hsane hdirty hdrop hclean

/-- A store with one row to a page, room for one page in memory and a log that cannot be appended to. -/
def cramped : Engine := (single 2 ⟨1, 2, none⟩ flagSchema).failing (logFailsFrom 0)

/-- A dirty page stays while its transaction finds no room for a second page, a flush and then the commit fail at the
log, and another transaction aborts and then deletes the row. -/
theorem dirty_page_kept_beside_failures :
    (cramped.acts ([.ask (.insert ⟨1⟩ ⟨0⟩ (flagRow true))] ++
      [.ask (.insert ⟨1⟩ ⟨0⟩ (flagRow false)), .ask (.flush ⟨⟨0⟩, 0⟩), .ask (.commit ⟨1⟩ .asListed),
        .ask (.abort ⟨2⟩ .asListed), .ask (.delete ⟨2⟩ (some ⟨⟨⟨0⟩, 0⟩, 0⟩))])).DirtyIn ⟨⟨0⟩, 0⟩ 0 := by
  have hpool : cramped.pool = Pool.new 1 2 := rfl
  have hplain : cramped.Plain := fun id table ht => by
    rw [(table?_single.mp ht).2]
    rfl
  have hdirty : (cramped.acts [.ask (.insert ⟨1⟩ ⟨0⟩ (flagRow true))]).DirtyIn ⟨⟨0⟩, 0⟩ 0 :=
    ⟨rfl, Option.some_ne_none (⟨1⟩ : TxnId)⟩
  refine (dirty_page_kept cramped hpool hplain _ _ hdirty (by simp) ?_).1
  refine ⟨?_, ?_, ?_, ?_, ?_, trivial⟩
  · rintro (hm | ⟨txn, sweep, ha, _⟩)
    · exact mayLeave_of_mem_events _ hm
    · cases ha
  · rintro (hm | ⟨txn, sweep, ha, _⟩)
    · cases hm
    · cases ha
  · rintro (hm | ⟨txn, sweep, ha, _⟩)
    · exact mayLeave_of_mem_events _ hm
    · cases ha
  · rintro (hm | ⟨txn, sweep, ha, hmark, _⟩)
    · exact mayLeave_of_mem_events _ hm
    · cases ha
      cases hmark
  · rintro (hm | ⟨txn, sweep, ha, _⟩)
    · exact mayLeave_of_mem_events _ hm
    · cases ha

end RowStore.Engine
