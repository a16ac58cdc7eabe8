import RowStore.Proofs.PagesOnFile

/-!
# Marked pages

Without faults an abort reads every page marked by its transaction again from its file, and no other. As long as nobody
lets go of a single page, a page marked by a transaction is locked by it exclusively until the transaction ends, and a
transaction that has stored a row keeps everybody else from marking or restoring its page until then.
-/

namespace RowStore

namespace LockTable

theorem Proper.exclusive_unique {t : LockTable} (ht : t.Proper) {a b : TxnId} {page : PageId} {mode : LockMode}
    (ha : t.modeOf? a page = some .exclusive) (hb : t.modeOf? b page = some mode) : b = a := by
  have hmem := modeOf?_eq_some hb
  rw [ht.alone page _ (modeOf?_eq_some ha) rfl, List.mem_singleton] at hmem
  exact congrArg Holder.txn hmem

end LockTable

namespace Event

/-- A mark comes from a change by the marking transaction or was there before. -/
theorem onMark_eq_some {page : PageId} {mark : Option TxnId} {event : Event} {txn : TxnId}
    (h : onMark page mark event = some txn) :
    (∃ r, r.page = page ∧ ((∃ tuple, event = stored txn r tuple) ∨ event = removed txn r)) ∨ mark = some txn := by
  cases event with
  | stored t r tuple =>
    change (if r.page = page then some t else mark) = some txn at h
    split at h
    · rename_i hp
      cases h
      exact .inl ⟨r, hp, .inl ⟨tuple, rfl⟩⟩
    · exact .inr h
  | removed t r =>
    change (if r.page = page then some t else mark) = some txn at h
    split at h
    · rename_i hp
      cases h
      exact .inl ⟨r, hp, .inr rfl⟩
    · exact .inr h
  | written q | restored q | discarded q =>
    change (if q = page then none else mark) = some txn at h
    split at h
    · cases h
    · exact .inr h
  | granted | appended | based | handed | completed | released => exact .inr h

/-- What the history of an abort is made of. -/
def OfAbort (event : Event) : Prop := (∃ page, event = restored page) ∨ ∃ txn, event = completed txn

/-- An event that changes a row and marks its page. -/
def Changes : Event → Prop
  | stored _ _ _ => True
  | removed _ _ => True
  | _ => False

/-- Without changes a page is unmarked in the end if it was so before or was written or restored on the way. -/
theorem foldl_onMark_unmarked {l : List Event} {page : PageId} {mark : Option TxnId}
    (hl : ∀ event ∈ l, ¬ event.Changes) (hm : mark = none ∨ .written page ∈ l ∨ .restored page ∈ l) :
    l.foldl (onMark page) mark = none := by
  induction l generalizing mark with
  | nil => simpa using hm
  | cons event rest ih =>
    obtain ⟨hhead, hrest⟩ := List.forall_mem_cons.mp hl
    refine ih hrest ?_
    by_cases hclear : event = .written page ∨ event = .restored page
    · rcases hclear with rfl | rfl <;> exact .inl (if_pos rfl)
    · rcases hm with rfl | hm | hm
      · left
        cases event with
        | stored | removed => exact absurd trivial hhead
        | written q | restored q | discarded q => exact ite_self none
        | granted | appended | based | handed | completed | released => rfl
      · refine .inr (.inl ((List.mem_cons.mp hm).resolve_left fun he => hclear (.inl he.symm)))
      · refine .inr (.inr ((List.mem_cons.mp hm).resolve_left fun he => hclear (.inr he.symm)))

end Event

namespace LockTable

/-- A page that a transaction has changed is locked by it exclusively, unless the transaction has ended. -/
theorem Proper.marked {t : LockTable} (ht : t.Proper) {l : List Event} {txn : TxnId} {page : PageId}
    {mark : Option TxnId} (ha : t.AdmitsAll l) (hr : ∀ event ∈ l, isRelease event = false)
    (hd : mark = some txn → t.modeOf? txn page = some .exclusive)
    (hm : l.foldl (Event.onMark page) mark = some txn) :
    (l.foldl LockTable.after t).modeOf? txn page = some .exclusive ∨ .completed txn ∈ l := by
  induction l generalizing t mark with
  | nil => exact .inl (hd hm)
  | cons event rest ih =>
    by_cases hc : event = .completed txn
    · rw [hc]
      exact .inr List.mem_cons_self
    · have hnext : Event.onMark page mark event = some txn → (t.after event).modeOf? txn page = some .exclusive := by
        intro hmark
        have hheld : t.modeOf? txn page = some .exclusive := by
          rcases Event.onMark_eq_some hmark with ⟨r, hp, ⟨tuple, rfl⟩ | rfl⟩ | hold
          · exact hp ▸ ha.1
          · exact hp ▸ ha.1
          · exact hd hold
        obtain ⟨mode, hmode, hx⟩ := ht.modeOf?_after ha.1 (hr event List.mem_cons_self) hc hheld
        rw [hmode, hx rfl]
      refine (ih (ht.after event) ha.2 (fun ev he => hr ev (List.mem_cons_of_mem _ he)) hnext hm).imp_right ?_
      exact List.mem_cons_of_mem event

/-- While a transaction holds a page exclusively nobody else marks it. -/
theorem Proper.marked_by_holder {t : LockTable} (ht : t.Proper) {l : List Event} {txn : TxnId} {page : PageId}
    {mark : Option TxnId} (ha : t.AdmitsAll l) (hr : ∀ event ∈ l, isRelease event = false)
    (hc : .completed txn ∉ l) (hx : t.modeOf? txn page = some .exclusive)
    (hd : ∀ other, mark = some other → other = txn) (other : TxnId)
    (hm : l.foldl (Event.onMark page) mark = some other) : other = txn := by
  induction l generalizing t mark with
  | nil => exact hd other hm
  | cons event rest ih =>
    obtain ⟨mode, hmode, hexclusive⟩ := ht.modeOf?_after ha.1 (hr event List.mem_cons_self)
      (fun he => hc (he ▸ List.mem_cons_self)) hx
    rw [hexclusive rfl] at hmode
    refine ih (ht.after event) ha.2 (fun ev he => hr ev (List.mem_cons_of_mem _ he))
      (fun he => hc (List.mem_cons_of_mem _ he)) hmode ?_ hm
    intro new hnew
    rcases Event.onMark_eq_some hnew with ⟨r, hp, ⟨tuple, rfl⟩ | rfl⟩ | hold
    · subst hp
      exact ht.exclusive_unique hx ha.1
    · subst hp
      exact ht.exclusive_unique hx ha.1
    · exact hd new hold

end LockTable

namespace Engine

def Faultless (e : Engine) : Prop := ∀ device n, e.faults.fails device n = false

theorem Step.fails_eq {e e' : Engine} {l : List Event} (h : Step e l e') : e'.faults.fails = e.faults.fails := by
  cases h <;> rfl

theorem Path.faultless {e e' : Engine} {l : List Event} (h : Path e l e') (hf : e.Faultless) : e'.Faultless :=
  h.preserves (fun _ _ _ hs hf device n => by rw [hs.fails_eq]; exact hf device n) hf

theorem Faultless.call {e : Engine} (hf : e.Faultless) (device : Device) :
    e.call device = ({ e with faults := { e.faults with next := e.faults.next + 1 } }, false) := by
  unfold Engine.call
  rw [hf]

theorem Faultless.logAndForce {e : Engine} (hf : e.Faultless) (txn : TxnId) (page : Page) :
    (e.logAndForce txn page).2 = .ok () := by
  unfold Engine.logAndForce logPage
  simp only [hf.call]
  unfold forceLog Engine.call
  rw [show e.faults.fails .force (e.faults.next + 1) = false from hf ..]

def Readable (e : Engine) : Prop := ∀ n, e.faults.fails .read n = false

theorem Faultless.readable {e : Engine} (hf : e.Faultless) : e.Readable := hf .read

theorem Path.readable {e e' : Engine} {l : List Event} (h : Path e l e') (hf : e.Readable) : e'.Readable :=
  h.preserves (fun _ _ _ hs hf n => by rw [hs.fails_eq]; exact hf n) hf

theorem Readable.readPage {e : Engine} (hf : e.Readable) (id : PageId) : (e.readPage id).2 = e.onFile id := by
  unfold Engine.readPage onFile Engine.call
  cases e.catalog.table? id.table with
  | error err => rfl
  | ok table =>
    rw [show e.faults.fails .read e.faults.next = false from hf _]

theorem Housed.rollbackPage {e : Engine} (h : e.Housed) (hf : e.Readable) {id : PageId} {f : FrameId}
    (hr : e.pool.resident.find? id = some f) : (e.rollbackPage f).2 = .ok () := by
  obtain ⟨page, hp, hid⟩ := h.sane.keyed id f hr
  have hon := h.on_file id page (Pool.copy?_of_resident hr hp)
  rw [← hid] at hon
  obtain ⟨fresh, hfresh⟩ := h.exists_onFile hon
  have hread := hf.readPage page.id
  rw [hfresh] at hread
  unfold Engine.rollbackPage
  rw [show e.page? f = some page from hp]
  simp only
  generalize e.readPage page.id = outcome at hread ⊢
  obtain ⟨e₁, result⟩ := outcome
  change result = _ at hread
  subst hread
  rfl

theorem resident_rollbackPages (frames : List FrameId) (e : Engine)
    (hr : ∀ f ∈ frames, ∃ id, e.pool.resident.find? id = some f) :
    (rollbackPages frames e).1.pool.resident = e.pool.resident := by
  induction frames generalizing e with
  | nil => rfl
  | cons f rest ih =>
    obtain ⟨id, hid⟩ := hr f List.mem_cons_self
    have hres := (path_rollbackPage hid).1
    have hrest := ih (e.rollbackPage f).1 (resident_rest hr hres)
    unfold rollbackPages
    generalize e.rollbackPage f = outcome at hres hrest ⊢
    obtain ⟨e₁, result⟩ := outcome
    cases result <;> exact hrest.trans hres

theorem rollbackEvents_cons (f : FrameId) (rest : List FrameId) (e : Engine) :
    rollbackEvents (f :: rest) e =
      (match e.rollbackPage f with
        | (_, .error _) => []
        | (_, .ok ()) => (e.page? f).elim [] fun page => [.restored page.id]) ++
      rollbackEvents rest (e.rollbackPage f).1 := by
  rw [rollbackEvents]
  generalize e.rollbackPage f = outcome
  obtain ⟨e₁, result⟩ := outcome
  cases result <;> rfl

/-- A pass of reloads restores none but its own pages. -/
theorem resident_of_restored {e : Engine} {frames : List FrameId} (hs : e.pool.Sane)
    (hr : ∀ f ∈ frames, ∃ id, e.pool.resident.find? id = some f) {p : PageId}
    (hm : .restored p ∈ rollbackEvents frames e) : ∃ f ∈ frames, e.pool.resident.find? p = some f := by
  induction frames generalizing e with
  | nil => cases hm
  | cons f rest ih =>
    obtain ⟨id, hid⟩ := hr f List.mem_cons_self
    obtain ⟨page, hpage, hpid⟩ := hs.keyed id f hid
    obtain ⟨hres, hpath⟩ := path_rollbackPage hid
    rw [rollbackEvents_cons, List.mem_append] at hm
    rcases hm with hm | hm
    · refine ⟨f, List.mem_cons_self, ?_⟩
      rw [show e.page? f = some page from hpage] at hm
      split at hm
      · cases hm
      · cases List.mem_singleton.mp hm
        rw [hpid]
        exact hid
    · obtain ⟨g, hg, hgp⟩ := ih (hpath.sane hs) (resident_rest hr hres) hm
      rw [hres] at hgp
      exact ⟨g, List.mem_cons_of_mem f hg, hgp⟩

/-- A pass of reloads that succeeds restores all of its pages. -/
theorem restored_of_rollbackPages {e : Engine} {frames : List FrameId} (hs : e.pool.Sane)
    (hr : ∀ f ∈ frames, ∃ id, e.pool.resident.find? id = some f) (hok : (rollbackPages frames e).2 = .ok ())
    {p : PageId} {f : FrameId} (hf : f ∈ frames) (hp : e.pool.resident.find? p = some f) :
    .restored p ∈ rollbackEvents frames e := by
  induction frames generalizing e with
  | nil => cases hf
  | cons g rest ih =>
    obtain ⟨id, hid⟩ := hr g List.mem_cons_self
    obtain ⟨page, hpage, hpid⟩ := hs.keyed id g hid
    obtain ⟨hres, hpath⟩ := path_rollbackPage hid
    have hsane := hpath.sane hs
    unfold rollbackPages at hok
    rw [rollbackEvents_cons, List.mem_append]
    generalize e.rollbackPage g = outcome at hok hres hsane ⊢
    obtain ⟨e₁, result⟩ := outcome
    change e₁.pool.resident = _ at hres
    cases result with
    | error err => cases hok
    | ok _ =>
      rcases List.mem_cons.mp hf with rfl | hf
      · left
        obtain ⟨page', hpage', hpid'⟩ := hs.keyed p f hp
        cases hpage.symm.trans hpage'
        rw [show e.page? f = some page from hpage, ← hpid']
        exact List.mem_cons_self
      · exact .inr (ih hsane (resident_rest hr hres) hok hf
          (by rw [hres]; exact hp))

theorem Housed.rollbackPages {e : Engine} (h : e.Housed) (hf : e.Readable) {frames : List FrameId}
    (hr : ∀ f ∈ frames, ∃ id, e.pool.resident.find? id = some f) : (rollbackPages frames e).2 = .ok () := by
  induction frames generalizing e with
  | nil => rfl
  | cons f rest ih =>
    obtain ⟨id, hid⟩ := hr f List.mem_cons_self
    obtain ⟨hres, hpath⟩ := path_rollbackPage hid
    have hok := h.rollbackPage hf hid
    have hhoused := hpath.housed h fun txn g hm => by
      split at hm
      · cases hm
      · cases hpage : e.page? f with
        | none =>
          rw [hpage] at hm
          cases hm
        | some page =>
          rw [hpage] at hm
          cases List.mem_singleton.mp hm
    have hreadable := hpath.readable hf
    unfold Engine.rollbackPages
    generalize e.rollbackPage f = outcome at hres hok hhoused hreadable ⊢
    obtain ⟨e₁, result⟩ := outcome
    change result = _ at hok
    change e₁.pool.resident = _ at hres
    subst hok
    exact ih hhoused hreadable (resident_rest hr hres)

/-- The frames that the end of a transaction goes over are those of the pages that it has marked. -/
theorem mem_dirtied_iff (e : Engine) (txn : TxnId) (sweep : Sweep) (p : PageId) :
    (∃ f ∈ sweep.order (e.pool.dirtiedBy txn), e.pool.resident.find? p = some f) ↔ e.mark? p = some txn := by
  have hmem : ∀ f, f ∈ sweep.order (e.pool.dirtiedBy txn) ↔ f ∈ e.pool.dirtiedBy txn := fun f =>
    (sweep.perm _).mem_iff
  constructor
  · rintro ⟨f, hframe, hres⟩
    have hd := (List.mem_filter.mp ((hmem f).mp hframe)).2
    obtain ⟨page, hpage, hmark⟩ := (Option.any_eq_true _ _).mp hd
    unfold mark?
    rw [show e.copy? p = some page from Pool.copy?_of_resident hres hpage]
    exact of_decide_eq_true hmark
  · intro hmark
    obtain ⟨page, hcopy, hd⟩ := Option.bind_eq_some_iff.mp hmark
    obtain ⟨f, hres, hpage⟩ := Pool.copy?_eq_some.mp hcopy
    refine ⟨f, (hmem f).mpr (List.mem_filter.mpr ⟨Dict.mem_values_of_find? hres, ?_⟩), hres⟩
    rw [hpage, Option.any_some]
    exact decide_eq_true hd

theorem ofAbort_of_mem_events {e : Engine} {txn : TxnId} {sweep : Sweep} :
    ∀ event ∈ e.events (.ask (.abort txn sweep)), event.OfAbort := by
  intro event hm
  have hkind := mayLeave_of_mem_events event hm
  cases event with
  | restored page => exact .inl ⟨page, rfl⟩
  | completed t => exact .inr ⟨t, rfl⟩
  | _ => exact hkind.elim

/-- An abort restores only pages that its transaction has marked. -/
theorem marked_of_restored {e : Engine} (hs : e.pool.Sane) {txn : TxnId} {sweep : Sweep} {p : PageId}
    (hm : .restored p ∈ e.events (.ask (.abort txn sweep))) : e.mark? p = some txn := by
  rw [← mem_dirtied_iff e txn sweep]
  refine resident_of_restored hs (fun _ => resident_of_mem_dirtiedBy) ?_
  refine (List.mem_append.mp hm).resolve_right fun hc => ?_
  cases List.mem_singleton.mp hc

/-- An abort that succeeds restores all pages that its transaction has marked. -/
theorem restored_of_marked {e : Engine} (hs : e.pool.Sane) {txn : TxnId} {sweep : Sweep}
    (hok : (e.complete txn false sweep).2 = .ok ()) {p : PageId} (hm : e.mark? p = some txn) :
    .restored p ∈ e.events (.ask (.abort txn sweep)) := by
  obtain ⟨f, hf, hres⟩ := (mem_dirtied_iff e txn sweep p).mpr hm
  exact List.mem_append_left _ (restored_of_rollbackPages hs (fun _ => resident_of_mem_dirtiedBy) hok hf hres)

/-- When no read fails every abort succeeds. -/
theorem Housed.abort_ok {e : Engine} (h : e.Housed) (hf : e.Readable) (txn : TxnId) (sweep : Sweep) :
    (e.complete txn false sweep).2 = .ok () := h.rollbackPages hf fun _ => resident_of_mem_dirtiedBy

/-- Without faults an abort restores exactly the pages that its transaction has marked. -/
theorem restored_mem_abort {e : Engine} (h : e.Housed) (hf : e.Faultless) (txn : TxnId) (sweep : Sweep) (p : PageId) :
    .restored p ∈ e.events (.ask (.abort txn sweep)) ↔ e.mark? p = some txn :=
  ⟨marked_of_restored h.sane, restored_of_marked h.sane (h.abort_ok hf.readable txn sweep)⟩

end Engine

end RowStore
