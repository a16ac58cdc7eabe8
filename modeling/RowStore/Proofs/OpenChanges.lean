import RowStore.Proofs.Steady
import RowStore.Proofs.WriteAhead

/-!
# Changes of running transactions

A page that a transaction has changed stays marked by it and locked by it alone, so that nobody else gets at it, until
the transaction ends, the page is written by a flush or somebody drops it. This holds from the opening of a store over
files with any contents, whatever fails, as long as nobody lets go of a single lock.
-/

namespace RowStore

namespace Event

/-- What the history of a change by a transaction is made of. -/
def OfChange (txn : TxnId) : Event → Prop
  | granted .. | appended _ => True
  | stored txn' _ _ => txn' = txn
  | removed txn' _ => txn' = txn
  | _ => False

def ChangedBy (txn : TxnId) (page : PageId) : Event → Prop
  | stored txn' r _ => txn' = txn ∧ r.page = page
  | removed txn' r => txn' = txn ∧ r.page = page
  | _ => False

theorem ChangedBy.onMark {event : Event} {txn : TxnId} {page : PageId} (h : event.ChangedBy txn page)
    (mark : Option TxnId) : onMark page mark event = some txn := by
  cases event with
  | stored | removed =>
    obtain ⟨rfl, hp⟩ := h
    exact if_pos hp
  | _ => exact h.elim

/-- The page of a change stays marked through the rest of it. -/
theorem foldl_onMark_ofChange {txn : TxnId} {l : List Event} (hl : ∀ event ∈ l, event.OfChange txn) (page : PageId) :
    l.foldl (Event.onMark page) (some txn) = some txn := by
  refine List.foldlRecOn l (Event.onMark page) (motive := (· = some txn)) rfl fun mark hmark event he => ?_
  have hkind := hl event he
  cases event with
  | granted | appended => exact hmark
  | stored txn' r | removed txn' r =>
    obtain rfl : txn' = txn := hkind
    show (if r.page = page then some txn' else mark) = _
    split
    · rfl
    · exact hmark
  | _ => exact hkind.elim

/-- A mark is only taken away by a write, a reload or a drop of its page. -/
theorem foldl_onMark_ne_none {l : List Event} {page : PageId} (hw : .written page ∉ l) (hr : .restored page ∉ l)
    (hd : .discarded page ∉ l) {mark : Option TxnId} (hm : mark ≠ none) : l.foldl (Event.onMark page) mark ≠ none := by
  refine List.foldlRecOn l (Event.onMark page) (motive := (· ≠ none)) hm fun mark hmark event he => ?_
  cases event with
  | stored txn r | removed txn r =>
    show (if r.page = page then some txn else mark) ≠ none
    split
    · exact Option.some_ne_none txn
    · exact hmark
  | written q =>
    show (if q = page then none else mark) ≠ none
    rwa [if_neg fun h : q = page => hw (by rwa [h] at he)]
  | restored q =>
    show (if q = page then none else mark) ≠ none
    rwa [if_neg fun h : q = page => hr (by rwa [h] at he)]
  | discarded q =>
    show (if q = page then none else mark) ≠ none
    rwa [if_neg fun h : q = page => hd (by rwa [h] at he)]
  | granted | appended | based | handed | completed | released => exact hmark

end Event

namespace Action

/-- An action that neither drops a page nor lets go of a lock. -/
def Keeps : Action → Prop
  | .ask (.discard _) => False
  | .ask (.release _ _) => False
  | _ => True

theorem Orderly.keeps {a : Action} (h : a.Orderly) : a.Keeps := by
  cases a with
  | ask r => cases r <;> first | exact trivial | exact h
  | next s => exact trivial
  | scan txn table => exact trivial

theorem Keeps.not_release {a : Action} (h : a.Keeps) (txn : TxnId) (page : PageId) : a ≠ .ask (.release txn page) := by
  rintro rfl
  exact h

/-- Only a commit makes baselines. -/
theorem MayLeave.commit {a : Action} {page : PageId} (h : a.MayLeave (.based page)) :
    ∃ txn sweep, a = .ask (.commit txn sweep) := by
  cases a with
  | ask r =>
    cases r with
    | commit txn sweep => exact ⟨txn, sweep, rfl⟩
    | get | insert | delete | abort | flush | flushTxn | flushAll | discard | release => exact h.elim
  | next s => exact h.elim
  | scan t table => exact h.elim

theorem MayLeave.not_release {a : Action} (h : ∀ txn page, a ≠ .ask (.release txn page)) {event : Event}
    (hm : a.MayLeave event) : LockTable.isRelease event = false := by
  cases event with
  | released txn page =>
    cases a with
    | ask r =>
      cases r with
      | release t p => exact absurd rfl (h t p)
      | get | insert | delete | commit | abort | flush | flushTxn | flushAll | discard => exact hm.elim
    | next s => exact hm.elim
    | scan t table => exact hm.elim
  | granted | stored | removed | appended | based | written | restored | discarded | handed | completed => rfl

end Action

namespace Engine

variable {e : Engine} {txn : TxnId} {page : PageId} {a : Action}

structure Firm (e : Engine) : Prop extends Housed e where
  proper : e.locks.Proper

/-- A store that was just opened over files with any contents: nothing is in memory and nothing is locked. -/
structure Opened (e : Engine) : Prop extends Layout e where
  pool : ∃ capacity k, e.pool = Pool.new capacity k
  locks : e.locks = LockTable.empty

theorem Opened.copy? (h : e.Opened) (id : PageId) : e.copy? id = none := by
  obtain ⟨capacity, k, hp⟩ := h.pool
  unfold Engine.copy?
  rw [hp]
  rfl

theorem Opened.firm (h : e.Opened) : e.Firm where
  toLayout := h.toLayout
  sane := by
    obtain ⟨capacity, k, hp⟩ := h.pool
    rw [hp]
    exact Pool.sane_new capacity k
  sized := fun id page hc => by rw [h.copy?] at hc; cases hc
  on_file := fun id page hc => by rw [h.copy?] at hc; cases hc
  proper := by
    rw [h.locks]
    exact LockTable.proper_empty

theorem Fresh.opened (h : e.Fresh) : e.Opened where
  toLayout := h.toLayout
  pool := h.pool
  locks := h.locks

theorem Steady.firm (h : e.Steady) : e.Firm where
  toHoused := h.toSound.housed
  proper := h.proper

/-- A page that a running transaction has changed: marked by it, and locked by it alone. -/
structure Pending (e : Engine) (txn : TxnId) (page : PageId) : Prop where
  mark : e.mark? page = some txn
  lock : e.locks.modeOf? txn page = some .exclusive

theorem Pending.copy? (h : e.Pending txn page) : ∃ copy, e.copy? page = some copy ∧ copy.dirtier = some txn :=
  Option.bind_eq_some_iff.mp h.mark

namespace Firm

theorem locks (h : e.Firm) (a : Action) :
    e.locks.AdmitsAll (e.events a) ∧ (e.act a).locks = (e.events a).foldl LockTable.after e.locks :=
  (path_act e a).locks h.sane

theorem not_handed (h : e.Firm) (a : Action) (txn : TxnId) (f : FrameId) : .handed txn f ∉ e.events a :=
  not_handed_of_mem_events h.plain h.sane a txn f

theorem act (h : e.Firm) (a : Action) : (e.act a).Firm where
  toHoused := h.toHoused.act a
  proper := by
    rw [(h.locks a).2]
    exact h.proper.foldl_after _

theorem acts (h : e.Firm) (as : List Action) : (e.acts as).Firm := by
  induction as generalizing e with
  | nil => exact h
  | cons a rest ih => exact ih (h.act a)

theorem marks (h : e.Firm) (a : Action) (page : PageId) :
    (e.act a).mark? page = (e.events a).foldl (Event.onMark page) (e.mark? page) :=
  (path_act e a).marks h.sane (h.not_handed a) page

/-- An action that leaves a change of a transaction is one of its inserts or deletes. -/
theorem ofChange (h : e.Firm) {event : Event} (hm : event ∈ e.events a) (hc : event.ChangedBy txn page) :
    ∀ event ∈ e.events a, event.OfChange txn := by
  have hkind := mayLeave_of_mem_events event hm
  cases a with
  | ask r =>
    cases r with
    | insert t id tuple =>
      obtain rfl : t = txn := by
        cases event with
        | stored txn' r' _ =>
          obtain ⟨rfl, _⟩ := hkind
          exact And.left hc
        | removed => exact hkind.elim
        | _ => exact hc.elim
      exact forall_insertEvents h.plain h.sane (fun _ _ => trivial) (fun _ => rfl) fun _ => trivial
    | delete t record =>
      obtain rfl : t = txn := by
        cases event with
        | removed txn' r' =>
          obtain ⟨rfl, _⟩ := hkind
          exact And.left hc
        | stored => exact hkind.elim
        | _ => exact hc.elim
      exact forall_deleteEvents h.plain h.sane (fun _ _ => trivial) fun _ _ => rfl
    | get | commit | abort | flush | flushTxn | flushAll | discard | release =>
      cases event <;> first | exact hc.elim | exact hkind.elim
  | next s => cases event <;> first | exact hc.elim | exact hkind.elim
  | scan t table => cases event <;> first | exact hc.elim | exact hkind.elim

/-- A changed page is pending after the change. -/
theorem pending_of_change (h : e.Firm) {event : Event} (hm : event ∈ e.events a) (hc : event.ChangedBy txn page) :
    (e.act a).Pending txn page := by
  have hkinds := h.ofChange hm hc
  have hmarks := h.marks a page
  obtain ⟨hadmits, hlocks⟩ := h.locks a
  obtain ⟨l₁, l₂, hl⟩ := List.append_of_mem hm
  rw [hl] at hkinds hmarks hlocks hadmits
  -- What follows the change in the history of the same action leaves mark and lock.
  have hlater : ∀ event ∈ l₂, event.OfChange txn := fun event he =>
    hkinds event (List.mem_append_right _ (List.mem_cons_of_mem _ he))
  rw [List.foldl_append, List.foldl_cons] at hmarks hlocks
  refine ⟨?_, ?_⟩
  · rw [hmarks, hc.onMark, Event.foldl_onMark_ofChange hlater]
  · obtain ⟨_, hheld, hafter⟩ := (LockTable.admitsAll_append ..).mp hadmits
    have hexclusive : ((l₁.foldl LockTable.after e.locks).after event).modeOf? txn page = some .exclusive := by
      cases event with
      | stored | removed =>
        obtain ⟨rfl, rfl⟩ := hc
        exact hheld
      | _ => exact hc.elim
    have hrel : ∀ event ∈ l₂, LockTable.isRelease event = false := fun event he => by
      have hkind := hlater event he
      cases event with
      | released => exact hkind.elim
      | _ => rfl
    obtain ⟨mode, hmode, hx⟩ := ((h.proper.foldl_after l₁).after _).modeOf?_foldl_after hafter hrel
      (fun he => hlater _ he) hexclusive
    rw [hlocks, hmode, hx rfl]

/-- A pending page stays so until its transaction ends, a flush writes the page or somebody drops it. -/
theorem pending_act (h : e.Firm) (hp : e.Pending txn page) (hends : a.ends ≠ some txn)
    (hrel : ∀ t q, a ≠ .ask (.release t q)) (hw : .written page ∉ e.events a) (hd : .discarded page ∉ e.events a) :
    (e.act a).Pending txn page := by
  obtain ⟨hadmits, hlocks⟩ := h.locks a
  have hreleases : ∀ event ∈ e.events a, LockTable.isRelease event = false := fun event hm =>
    (mayLeave_of_mem_events event hm).not_release hrel
  have hopen : .completed txn ∉ e.events a := fun hm => hends (mayLeave_of_mem_events _ hm).ends
  have hrestored : .restored page ∉ e.events a := by
    intro hm
    obtain ⟨t, sweep, rfl⟩ := (mayLeave_of_mem_events _ hm).abort
    exact hends ((marked_of_restored h.sane hm).symm.trans hp.mark)
  have hmarks := h.marks a page
  rw [hp.mark] at hmarks
  refine ⟨?_, ?_⟩
  · obtain ⟨other, hother⟩ := Option.ne_none_iff_exists'.mp
      (Event.foldl_onMark_ne_none hw hrestored hd (Option.some_ne_none txn))
    have hsame := h.proper.marked_by_holder hadmits hreleases hopen hp.lock
      (fun t ht => (Option.some.inj ht).symm) other hother
    rw [hmarks, hother, hsame]
  · obtain ⟨mode, hmode, hx⟩ := h.proper.modeOf?_foldl_after hadmits hreleases hopen hp.lock
    rw [hlocks, hmode, hx rfl]

theorem pending_acts (h : e.Firm) {as : List Action} (hp : e.Pending txn page) (hends : ∀ a ∈ as, a.ends ≠ some txn)
    (hkeeps : ∀ a ∈ as, a.Keeps) (hw : .written page ∉ e.history as) : (e.acts as).Pending txn page := by
  induction as generalizing e with
  | nil => exact hp
  | cons a rest ih =>
    have ha := hkeeps a List.mem_cons_self
    have hd : .discarded page ∉ e.events a := by
      intro hm
      rw [discarded_of_mem_events h.plain h.sane hm] at ha
      exact ha
    refine ih (h.act a) (h.pending_act hp (hends a List.mem_cons_self) ha.not_release
        (fun hm => hw (List.mem_append_left _ hm)) hd)
      (fun b hb => hends b (List.mem_cons_of_mem a hb)) (fun b hb => hkeeps b (List.mem_cons_of_mem a hb))
      fun hm => hw (List.mem_append_right _ hm)

/-- Nobody else gets at a pending page. -/
theorem getPage_of_pending (h : e.Firm) (hp : e.Pending txn page) {other : TxnId} (hne : other ≠ txn)
    (access : Access) : e.getPage other page access = (e, .error (.transactionAborted other)) := by
  rw [getPage_eq, h.proper.request_conflict hne.symm hp.lock (.inl rfl), if_neg Bool.false_ne_true]

end Firm

end Engine

end RowStore
