import RowStore.Proofs.CommitOutcomes

/-!
# What a flush does to the store

A flush goes over frames and does three things at each that holds a dirty page: it logs the page, forces the log and
writes the page to its file. Any of them may fail, and then the flush stops there. One frame's part is described by what
it leaves in the frame, on file and in the log, and passes are put together from these parts: pages of different frames
have different ids, and different pages lie at different places on file, so no part undoes what another has done. The
main result holds in every state that moves lead to from an empty pool, as long as the tables lie in files of their own
and pages have one size.
-/

namespace RowStore

namespace Engine

variable {e e₁ e' : Engine}

/-- Tables lie in files of their own, and the page in every frame has the size of the store's pages. -/
structure Uniform (e : Engine) : Prop extends OwnFiles e where
  sane : e.pool.Sane
  sized : ∀ f page, e.page? f = some page → page.size = e.pageSize

theorem Uniform.setPage (h : e.Uniform) {f : FrameId} {old page : Page} (hf : e.page? f = some old)
    (hsize : page.size = e.pageSize) (g : FrameId) (copy : Page) (hg : (e.setPage f page).page? g = some copy) :
    copy.size = e.pageSize := by
  have hset := Pool.page?_setPage hf page g
  rw [show (e.setPage f page).page? g = (e.pool.setPage f page).page? g from rfl, hset] at hg
  split at hg
  · cases hg
    exact hsize
  · exact h.sized g copy hg

theorem Step.uniform {l : List Event} (hstep : Step e l e') (h : e.Uniform) : e'.Uniform := by
  have hfixed := hstep.fixed
  refine ⟨h.toOwnFiles.congr hfixed.1 hfixed.2.1 hfixed.2.2, hstep.sane h.sane, ?_⟩
  cases hstep with
  | call | countRead | log | force | touch | grant | append | discard | complete | release => exact h.sized
  | @load page pool f hn hp hl =>
    intro g copy hg
    change pool.page? g = some copy at hg
    rw [Pool.page?_load hl] at hg
    split at hg
    · cases hg
      obtain ⟨_, _, hdecode⟩ := decode_of_onFile hp
      exact Page.size_of_decode hdecode
    · exact h.sized g copy hg
  | store hr hf hx hi => exact h.setPage hf ((Page.size_of_insert hi).trans (h.sized _ _ hf))
  | remove hr hf hx hd => exact h.setPage hf ((Page.size_of_delete hd).trans (h.sized _ _ hf))
  | @base _ f page hr hf =>
    have hsize := h.sized f page hf
    exact h.setPage hf hsize
  | @write _ f page _ _ hr hf =>
    have hsize := h.sized f page hf
    exact h.setPage hf hsize
  | restore hr hf hp =>
    obtain ⟨_, _, hdecode⟩ := decode_of_onFile hp
    exact h.setPage hf (Page.size_of_decode hdecode)
  | hand txn f =>
    intro g copy hg
    cases hf : e.pool.page? f with
    | none =>
      unfold Pool.handBack at hg
      rw [hf] at hg
      exact h.sized g copy hg
    | some page =>
      have hsize : (page.markDirty (some txn)).size = e.pageSize := h.sized f page hf
      refine h.setPage hf hsize g copy ?_
      change (Pool.handBack txn [f] e.pool).1.frames[g]? = some copy at hg
      rw [Pool.frames_handBack hf] at hg
      exact hg

theorem Path.uniform {l : List Event} (h : Path e l e') (hu : e.Uniform) : e'.Uniform :=
  h.preserves (fun _ _ _ => Step.uniform) hu

/-- What a move may bring in from outside: pages of the store's size, and tables in files of their own. -/
def Admits (e : Engine) : Move → Prop
  | .change _ page => page.size = e.pageSize
  | .surroundings other => other.OwnFiles ∧ other.pageSize = e.pageSize
  | _ => True

/-- The states that moves lead to from an empty pool over tables in files of their own. -/
inductive Filed : Engine → Prop
  | start {e : Engine} {capacity k : Nat} (hfiles : e.OwnFiles) (hpool : e.pool = Pool.new capacity k) : Filed e
  | move {e : Engine} (h : Filed e) (m : Move) (hm : e.Admits m) : Filed (e.move m)

theorem Uniform.move (h : e.Uniform) {m : Move} (hm : e.Admits m) : (e.move m).Uniform := by
  have hsane := (sane_move h.sane m).1
  have hmoved := moved_move e m
  generalize e.move m = e' at hmoved hsane ⊢
  cases hmoved with
  | along hpath => exact hpath.uniform h
  | changed hf hid => exact ⟨h.toOwnFiles.congr rfl rfl rfl, hsane, h.setPage hf hm⟩
  | writing frames => exact ⟨h.toOwnFiles.congr rfl rfl rfl, hsane, h.sized⟩
  | surroundings other =>
    refine ⟨hm.1.congr rfl rfl rfl, hsane, fun f page hf => ?_⟩
    show page.size = other.pageSize
    rw [hm.2]
    exact h.sized f page hf

theorem Filed.uniform (h : e.Filed) : e.Uniform := by
  induction h with
  | start hfiles hpool =>
    refine ⟨hfiles, by rw [hpool]; exact Pool.sane_new _ _, fun f page hf => ?_⟩
    unfold page? at hf
    rw [hpool] at hf
    cases hf
  | move _ m hm ih => exact ih.move hm

theorem Filed.acts (h : e.Filed) (as : List Action) : (e.acts as).Filed := by
  induction as generalizing e with
  | nil => exact h
  | cons a rest ih => exact ih (h.move (.act a) trivial)

/-! ## Passes of writes -/

/-- The record that writing the page in a frame leaves in the log, if the page is dirty. -/
def updateOf? (e : Engine) (f : FrameId) : Option UpdateRecord :=
  (e.page? f).bind fun page => page.dirtier.map page.updateBy

theorem updateOf?_eq {f : FrameId} {page : Page} (hf : e.page? f = some page) :
    e.updateOf? f = page.dirtier.map page.updateBy := by
  unfold updateOf?
  rw [hf, Option.bind_some]

/-- A dirty page has been written: it is clean, and its contents are on file and in a durable record. -/
structure Cleaned (f : FrameId) (page : Page) (e' : Engine) : Prop where
  dirty : page.dirtier ≠ none
  clean : e'.page? f = some (page.markDirty none)
  image : e'.image? page.id = some page.encode
  record : ∀ txn, page.dirtier = some txn → page.updateBy txn ∈ e'.logged

/-- A page is on file, or all the dirty pages in some frames are. If neither is so, writing one of these behind the end of
its file may leave a gap in which the page comes to lie. -/
def Located (e : Engine) (frames : List FrameId) (q : PageId) : Prop :=
  (e.image? q).isSome ∨
    ∀ f ∈ frames, ∀ page, e.page? f = some page → page.dirtier ≠ none → (e.image? page.id).isSome

/-- What a pass of writes over frames does: each page is written or left as it is, the images of the pages that are left
stay, and the log gets at most one record of each page, and no other. -/
structure Flushed (e : Engine) (frames : List FrameId) (e' : Engine) : Prop where
  beside : ∃ frames disk log faults, e' = { e with
    pool := { e.pool with frames := frames }, disk := disk, log := log, faults := faults }
  outside : ∀ f, f ∉ frames → e'.page? f = e.page? f
  inside : ∀ f ∈ frames, ∀ page, e.page? f = some page → e'.page? f = some page ∨ Cleaned f page e'
  images : ∀ q, (∀ f ∈ frames, ∀ page, e.page? f = some page → page.id = q → e'.page? f = some page) →
    e.Located frames q → e'.image? q = e.image? q
  records : ∃ records, records.Sublist (frames.filterMap e.updateOf?) ∧ e'.log.records = e.log.records ++ records
  durable : ∀ r ∈ e.logged, r ∈ e'.logged

namespace Flushed

theorem resident {frames : List FrameId} (h : Flushed e frames e') : e'.pool.resident = e.pool.resident := by
  obtain ⟨_, _, _, _, rfl⟩ := h.beside
  rfl

theorem refl (e : Engine) (frames : List FrameId) : Flushed e frames e where
  beside := ⟨_, _, _, _, rfl⟩
  outside _ _ := rfl
  inside _ _ _ hf := .inl hf
  images _ _ _ := rfl
  records := ⟨[], List.nil_sublist _, (List.append_nil _).symm⟩
  durable _ hr := hr

/-- A pass goes on with frames that hold other pages. -/
theorem cons {f : FrameId} {rest : List FrameId} (h : Flushed e [f] e₁) (h' : Flushed e₁ rest e') (hnot : f ∉ rest)
    (hids : ∀ page, e.page? f = some page → ∀ g ∈ rest, ∀ other, e.page? g = some other → other.id ≠ page.id) :
    Flushed e (f :: rest) e' := by
  have hkept : ∀ g ∈ rest, e₁.page? g = e.page? g := fun g hg =>
    h.outside g fun hm => hnot (List.mem_singleton.mp hm ▸ hg)
  have hfirst : e'.page? f = e₁.page? f := h'.outside f hnot
  refine ⟨?_, fun g hg => ?_, fun g hg page hpage => ?_, fun q hq hlocated => ?_, ?_, fun r hr =>
    h'.durable r (h.durable r hr)⟩
  · obtain ⟨_, _, _, _, rfl⟩ := h.beside
    obtain ⟨_, _, _, _, rfl⟩ := h'.beside
    exact ⟨_, _, _, _, rfl⟩
  · obtain ⟨hne, hg⟩ := not_or.mp fun hm => hg (List.mem_cons.mpr hm)
    rw [h'.outside g hg, h.outside g fun hm => hne (List.mem_singleton.mp hm)]
  · rcases List.mem_cons.mp hg with rfl | hg
    · rcases h.inside g List.mem_cons_self page hpage with hsame | hcleaned
      · exact .inl (hfirst.trans hsame)
      · refine .inr ⟨hcleaned.dirty, hfirst.trans hcleaned.clean, ?_, fun txn ht => h'.durable _ (hcleaned.record txn ht)⟩
        rw [h'.images page.id, hcleaned.image]
        · intro k hk other hother hid
          exact absurd hid (hids page hpage k hk other ((hkept k hk).symm.trans hother))
        · exact .inl (by rw [hcleaned.image]; rfl)
    · exact h'.inside g hg page ((hkept g hg).trans hpage)
  · have hone : e₁.image? q = e.image? q := by
      refine h.images q (fun g hg page hpage hid => ?_) (hlocated.imp_right fun hall g hg => ?_)
      · cases List.mem_singleton.mp hg
        exact hfirst.symm.trans (hq f List.mem_cons_self page hpage hid)
      · cases List.mem_singleton.mp hg
        exact hall f List.mem_cons_self
    rw [← hone]
    refine h'.images q (fun g hg page hpage hid => ?_) ?_
    · exact hq g (List.mem_cons_of_mem f hg) page ((hkept g hg).symm.trans hpage) hid
    · refine hlocated.imp (by rw [hone]; exact id) fun hall g hg page hpage hdirty => ?_
      have hpage₀ := (hkept g hg).symm.trans hpage
      have himage := hall g (List.mem_cons_of_mem f hg) page hpage₀ hdirty
      rw [h.images page.id (fun k hk other hother hid => ?_) (.inl himage)]
      · exact himage
      · cases List.mem_singleton.mp hk
        exact absurd hid.symm (hids other hother g hg page hpage₀)
  · obtain ⟨first, hsub, hlog⟩ := h.records
    obtain ⟨later, hsub', hlog'⟩ := h'.records
    refine ⟨first ++ later, ?_, by rw [hlog', hlog, List.append_assoc]⟩
    have hsame : rest.filterMap e₁.updateOf? = rest.filterMap e.updateOf? :=
      List.filterMap_congr fun g hg => by
        unfold updateOf?
        rw [hkept g hg]
    rw [show f :: rest = [f] ++ rest from rfl, List.filterMap_append, ← hsame]
    exact hsub.append hsub'

end Flushed

theorem updatesOf_dirty {f : FrameId} {page : Page} {txn : TxnId} (hf : e.page? f = some page)
    (hd : page.dirtier = some txn) : [f].filterMap e.updateOf? = [page.updateBy txn] := by
  have hone : e.updateOf? f = some (page.updateBy txn) := by
    rw [updateOf?_eq hf, hd, Option.map_some]
  rw [List.filterMap_cons_some hone, List.filterMap_nil]

theorem flushed_of_log {f : FrameId} {log : Log} (faults : Faults) {records : List UpdateRecord}
    (hsub : records.Sublist ([f].filterMap e.updateOf?)) (hlog : log.records = e.log.records ++ records)
    (hdurable : ∀ r ∈ e.logged, r ∈ log.records.take log.durable) :
    Flushed e [f] { e with log := log, faults := faults } where
  beside := ⟨_, _, _, _, rfl⟩
  outside _ _ := rfl
  inside _ _ _ hf := .inl hf
  images _ _ _ := rfl
  records := ⟨records, hsub, hlog⟩
  durable := hdurable

/-- A dirty page has been logged, forced and written. -/
theorem flushed_of_write (h : e.Uniform) {f : FrameId} {page : Page} {txn : TxnId} {table : Table}
    (hf : e.page? f = some page) (hd : page.dirtier = some txn) (ht : e.catalog.table? page.id.table = .ok table)
    (faults : Faults) :
    Flushed e [f] (setPage { e with
      disk := (e.disk.writePage table page).1
      log := (e.log.append (page.updateBy txn)).force
      faults := faults } f (page.markDirty none)) where
  beside := ⟨_, _, _, _, rfl⟩
  outside g hg := (Pool.page?_setPage hf _ g).trans (if_neg fun he : f = g => hg (he ▸ List.mem_cons_self))
  inside g hg old hold := by
    cases List.mem_singleton.mp hg
    cases hf.symm.trans hold
    refine .inr ⟨by rw [hd]; exact Option.some_ne_none txn, (Pool.page?_setPage hf _ f).trans (if_pos rfl),
      h.image?_write_self ht (h.sized f page hf), fun txn' htxn => ?_⟩
    cases hd.symm.trans htxn
    show _ ∈ (e.log.records ++ [page.updateBy txn]).take (e.log.records ++ [page.updateBy txn]).length
    rw [List.take_length]
    exact List.mem_append_right _ List.mem_cons_self
  images q hq hlocated := by
    have hne : q ≠ page.id := by
      rintro rfl
      have hset : (e.pool.setPage f (page.markDirty none)).page? f = some (page.markDirty none) :=
        (Pool.page?_setPage hf _ f).trans (if_pos rfl)
      have hsame := hset.symm.trans (hq f List.mem_cons_self page hf rfl)
      have hclean : none = page.dirtier := congrArg Page.dirtier (Option.some.inj hsame)
      rw [hd] at hclean
      cases hclean
    refine h.image?_write_of_ne ht (h.sized f page hf) hne (hlocated.symm.imp_left fun hall => ?_)
    exact hall f List.mem_cons_self page hf (by rw [hd]; exact Option.some_ne_none txn)
  records := ⟨_, updatesOf_dirty hf hd ▸ List.Sublist.refl _, rfl⟩
  durable r hr := by
    show r ∈ (e.log.records ++ [page.updateBy txn]).take (e.log.records ++ [page.updateBy txn]).length
    rw [List.take_length]
    exact List.mem_append_left _ (List.mem_of_mem_take hr)

/-- What writing one page does. If it succeeds the page is clean. -/
theorem flushed_writeBack (h : e.Uniform) {f : FrameId} {page : Page} (hf : e.page? f = some page) :
    Flushed e [f] (e.writeBack f).1 ∧
      ∀ written, (e.writeBack f).2 = .ok written →
        ∀ page', (e.writeBack f).1.page? f = some page' → page'.dirtier = none := by
  cases hd : page.dirtier with
  | none =>
    have hsame : e.writeBack f = (e, .ok false) := by
      unfold writeBack
      rw [hf]
      simp only [hd]
    rw [hsame]
    refine ⟨.refl e [f], fun _ _ page' hpage' => ?_⟩
    cases hf.symm.trans hpage'
    exact hd
  | some txn =>
    have hupdates := updatesOf_dirty hf hd
    have happended : ∀ r ∈ e.logged, r ∈ logged { e with log := e.log.append (page.updateBy txn) } := fun r hr =>
      (Step.log e _).logged hr
    have hforced : ∀ faults, Flushed e [f] { e with
        log := (e.log.append (page.updateBy txn)).force, faults := faults } := fun faults =>
      flushed_of_log faults (hupdates ▸ List.Sublist.refl _) rfl fun r hr =>
        (Step.force { e with log := e.log.append (page.updateBy txn) }).logged (happended r hr)
    unfold writeBack
    rw [hf]
    simp only [hd, logAndForce_eq]
    cases e.faults.fails .logWrite e.faults.next with
    | true => exact ⟨flushed_of_log _ (List.nil_sublist _) (List.append_nil _).symm fun r hr => hr, nofun⟩
    | false =>
      cases e.faults.fails .force (e.faults.next + 1) with
      | true => exact ⟨flushed_of_log _ (hupdates ▸ List.Sublist.refl _) rfl happended, nofun⟩
      | false =>
        simp only [Bool.false_eq_true, if_false]
        unfold writePage Engine.call
        cases ht : e.catalog.table? page.id.table with
        | error err => exact ⟨hforced _, nofun⟩
        | ok table =>
          simp only
          cases e.faults.fails .write (e.faults.next + 2) with
          | true => exact ⟨hforced _, nofun⟩
          | false =>
            have hwrite : e.disk.writePage table page = ((e.disk.writePage table page).1, .ok ()) := by
              unfold Disk.writePage
              rw [if_neg fun hne => hne (h.keyed _ _ ht).symm]
            simp only
            rw [hwrite]
            refine ⟨flushed_of_write h hf hd ht _, fun _ _ page' hpage' => ?_⟩
            cases ((Pool.page?_setPage hf _ f).trans (if_pos rfl)).symm.trans hpage'
            rfl

/-- What a pass of writes does. If it succeeds the pages in all of its frames are clean. -/
theorem flushed_writeBackAll (h : e.Uniform) {frames : List FrameId} (hd : frames.Nodup)
    (hr : ∀ f ∈ frames, ∃ id, e.pool.resident.find? id = some f) :
    Flushed e frames (writeBackAll frames e).1 ∧
      ((writeBackAll frames e).2 = .ok () →
        ∀ f ∈ frames, ∀ page, (writeBackAll frames e).1.page? f = some page → page.dirtier = none) := by
  induction frames generalizing e with
  | nil => exact ⟨.refl e [], fun _ => List.forall_mem_nil _⟩
  | cons f rest ih =>
    obtain ⟨hnot, hd⟩ := List.nodup_cons.mp hd
    obtain ⟨id, hid⟩ := hr f List.mem_cons_self
    obtain ⟨page, hpage, hpid⟩ := h.sane.keyed id f hid
    obtain ⟨hone, hclean⟩ := flushed_writeBack h hpage
    obtain ⟨hres, hpath⟩ := path_writeBack hid
    have hrest := resident_rest hr hres
    obtain ⟨hpass, hcleans⟩ := ih (hpath.uniform h) hd hrest
    -- Two frames with pages of one id would be the resident frame of it.
    have hids : ∀ page, e.page? f = some page → ∀ g ∈ rest, ∀ other, e.page? g = some other → other.id ≠ page.id := by
      intro page hpage g hg other hother hsame
      obtain ⟨_, hid'⟩ := hr g (List.mem_cons_of_mem f hg)
      have hfiled := h.sane.find?_of_page? hid' hother
      rw [hsame, h.sane.find?_of_page? hid hpage] at hfiled
      exact hnot (Option.some.inj hfiled ▸ hg)
    unfold writeBackAll
    generalize e.writeBack f = outcome at hone hclean hpass hcleans ⊢
    obtain ⟨e₁, result⟩ := outcome
    cases result with
    | error err => exact ⟨hone.cons (.refl e₁ rest) hnot hids, by rintro ⟨⟩⟩
    | ok written =>
      refine ⟨hone.cons hpass hnot hids, fun hok g hg copy hcopy => ?_⟩
      rcases List.mem_cons.mp hg with rfl | hg
      · exact hclean written rfl copy ((hpass.outside g hnot).symm.trans hcopy)
      · exact hcleans hok g hg copy hcopy

/-- A pass over clean pages does nothing. -/
theorem writeBackAll_of_clean {frames : List FrameId}
    (h : ∀ f ∈ frames, ∀ page, e.page? f = some page → page.dirtier = none) : writeBackAll frames e = (e, .ok ()) := by
  induction frames with
  | nil => rfl
  | cons f rest ih =>
    obtain ⟨hhead, hrest⟩ := List.forall_mem_cons.mp h
    have hnone : e.writeBack f = (e, .ok false) := by
      unfold writeBack
      cases hpage : e.page? f with
      | none => rfl
      | some page => simp only [hhead page hpage]
    unfold writeBackAll
    rw [hnone]
    exact ih hrest

end Engine

/-! ## Flushes -/

/-- The three flushes: of one page, of the pages that a transaction has changed, and of all pages. -/
inductive Flush where
  | one (id : PageId)
  | changed (txn : TxnId) (sweep : Sweep)
  | all (sweep : Sweep)

namespace Flush

/-- Whether a resident page is one that the flush is there to write. -/
def Covers : Flush → Page → Prop
  | .one id, page => page.id = id ∧ page.dirtier ≠ none
  | .changed t _, page => page.dirtier = some t
  | .all _, page => page.dirtier ≠ none

def frames (p : Pool) : Flush → List FrameId
  | .one id => (p.resident.find? id).toList
  | .changed t sweep => sweep.order (p.dirtiedBy t)
  | .all sweep => sweep.order p.residentFrames

def run (e : Engine) : Flush → Engine.Result Unit
  | .one id => ((e.flushPage id).1, (e.flushPage id).2.map fun _ => ())
  | .changed t sweep => e.flushTxn t sweep
  | .all sweep => e.flushAll sweep

def inOrder (sweep : Sweep) : Flush → Flush
  | .one id => .one id
  | .changed t _ => .changed t sweep
  | .all _ => .all sweep

theorem run_eq (e : Engine) (flush : Flush) : flush.run e = Engine.writeBackAll (flush.frames e.pool) e := by
  cases flush with
  | changed | all => rfl
  | one id =>
    show ((e.flushPage id).1, (e.flushPage id).2.map fun _ => ()) =
      Engine.writeBackAll (e.pool.resident.find? id).toList e
    unfold Engine.flushPage
    cases e.pool.resident.find? id with
    | none => rfl
    | some f =>
      simp only [Option.toList_some]
      unfold Engine.writeBackAll
      generalize e.writeBack f = outcome
      obtain ⟨e₁, result⟩ := outcome
      cases result <;> rfl

theorem Covers.dirty {flush : Flush} {page : Page} (h : flush.Covers page) : page.dirtier ≠ none := by
  cases flush with
  | one => exact h.2
  | changed txn => exact fun hd => Option.some_ne_none txn (h.symm.trans hd)
  | all => exact h

theorem covers_inOrder (flush : Flush) (sweep : Sweep) (page : Page) :
    (flush.inOrder sweep).Covers page ↔ flush.Covers page := by
  cases flush <;> exact Iff.rfl

variable {e : Engine} {flush : Flush}

theorem frames_resident (hs : e.pool.Sane) (flush : Flush) :
    (flush.frames e.pool).Nodup ∧ ∀ f ∈ flush.frames e.pool, ∃ id, e.pool.resident.find? id = some f := by
  cases flush with
  | one id =>
    show (e.pool.resident.find? id).toList.Nodup ∧ ∀ f ∈ (e.pool.resident.find? id).toList, _
    cases hf : e.pool.resident.find? id with
    | none => exact ⟨List.nodup_nil, List.forall_mem_nil _⟩
    | some f => exact ⟨List.nodup_singleton f, List.forall_mem_singleton.mpr ⟨id, hf⟩⟩
  | changed t sweep =>
    exact ⟨(sweep.perm _).nodup_iff.mpr (hs.nodup_residentFrames.filter _), fun _ => Engine.resident_of_mem_dirtiedBy⟩
  | all sweep =>
    exact ⟨(sweep.perm _).nodup_iff.mpr hs.nodup_residentFrames, fun _ => Engine.resident_of_mem_residentFrames⟩

/-- The pages that a flush is there to write are the dirty ones among those that it goes over. -/
theorem covers_iff (hs : e.pool.Sane) {id : PageId} {f : FrameId} {page : Page}
    (hr : e.pool.resident.find? id = some f) (hf : e.page? f = some page) :
    flush.Covers page ↔ f ∈ flush.frames e.pool ∧ page.dirtier ≠ none := by
  have hid := hs.id_of_copy? (Pool.copy?_of_resident hr hf)
  have hvalue := Dict.mem_values_of_find? hr
  cases flush with
  | one id₀ =>
    refine and_congr_left' ⟨fun he => ?_, fun hm => ?_⟩
    · show f ∈ (e.pool.resident.find? id₀).toList
      rw [← he, hid, hr]
      exact List.mem_cons_self
    · have hr₀ : e.pool.resident.find? id₀ = some f := Option.mem_toList.mp hm
      exact hs.id_of_copy? (Pool.copy?_of_resident hr₀ hf)
  | changed t sweep =>
    show page.dirtier = some t ↔ f ∈ sweep.order (e.pool.dirtiedBy t) ∧ page.dirtier ≠ none
    rw [(sweep.perm _).mem_iff, Pool.dirtiedBy, List.mem_filter, show e.pool.page? f = some page from hf,
      Option.any_some, decide_eq_true_eq]
    exact ⟨fun hd => ⟨⟨hvalue, hd⟩, by rw [hd]; exact Option.some_ne_none t⟩, fun h => h.1.2⟩
  | all sweep =>
    show page.dirtier ≠ none ↔ f ∈ sweep.order e.pool.residentFrames ∧ page.dirtier ≠ none
    rw [(sweep.perm _).mem_iff]
    exact ⟨fun hd => ⟨hvalue, hd⟩, And.right⟩

end Flush

namespace Engine

variable {e e' : Engine}

/-- What a flush has made of the store, and its answer. Each dirty page of its scope is clean, with its contents on file
and in a durable record, or as it was, and so is its image; all other pages and images are as they were; the log has
got at most one record of each page of the scope. After a success no page of the scope is dirty, and flushing again, in
any order, does nothing. Nothing else has changed but counts of page writes and of outside calls. -/
structure FlushedBy (e : Engine) (flush : Flush) (result : Except StorageError Unit) (e' : Engine) : Prop where
  beside : ∃ frames disk log faults, e' = { e with
    pool := { e.pool with frames := frames }, disk := disk, log := log, faults := faults }
  pages : ∀ id page, e.copy? id = some page → flush.Covers page →
    (e'.copy? id = some (page.markDirty none) ∧ e'.image? id = some page.encode ∧
      ∀ txn, page.dirtier = some txn → page.updateBy txn ∈ e'.logged) ∨
    (e'.copy? id = some page ∧ (e.Located (flush.frames e.pool) id → e'.image? id = e.image? id))
  kept : ∀ f, (∀ id page, e.pool.resident.find? id = some f → e.page? f = some page → ¬ flush.Covers page) →
    e'.page? f = e.page? f
  images : ∀ q, (∀ page, e.copy? q = some page → ¬ flush.Covers page) → e.Located (flush.frames e.pool) q →
    e'.image? q = e.image? q
  records : ∃ records, e'.log.records = e.log.records ++ records ∧ (records.map UpdateRecord.page).Nodup ∧
    ∀ r ∈ records, ∃ page txn, e.copy? r.page = some page ∧ flush.Covers page ∧ page.dirtier = some txn ∧
      r = page.updateBy txn
  clean : result = .ok () → ∀ id page, e'.copy? id = some page → ¬ flush.Covers page
  again : result = .ok () → ∀ sweep, (flush.inOrder sweep).run e' = (e', .ok ())

theorem pages_updates (e : Engine) (frames : List FrameId) :
    ((frames.filterMap e.updateOf?).map UpdateRecord.page).Sublist ((frames.filterMap e.page?).map Page.id) := by
  induction frames with
  | nil => exact List.Sublist.refl _
  | cons f rest ih =>
    cases hpage : e.page? f with
    | none =>
      have hnone : e.updateOf? f = none := by
        unfold updateOf?
        rw [hpage, Option.bind_none]
      rwa [List.filterMap_cons_none hnone, List.filterMap_cons_none hpage]
    | some page =>
      rw [List.filterMap_cons_some hpage, List.map_cons]
      cases hd : page.dirtier with
      | none =>
        have hnone : e.updateOf? f = none := by rw [updateOf?_eq hpage, hd, Option.map_none]
        rw [List.filterMap_cons_none hnone]
        exact ih.cons _
      | some txn =>
        have hone : e.updateOf? f = some (page.updateBy txn) := by rw [updateOf?_eq hpage, hd, Option.map_some]
        rw [List.filterMap_cons_some hone, List.map_cons]
        exact ih.cons_cons _

namespace Flushed

variable {flush : Flush} {id : PageId} {f : FrameId} {page : Page} (h : Flushed e (flush.frames e.pool) e')
  (hs : e.pool.Sane)

include h

theorem copied (hr : e.pool.resident.find? id = some f) (hf : e'.page? f = some page) : e'.copy? id = some page :=
  Pool.copy?_of_resident (by rw [h.resident]; exact hr) hf

include hs

theorem left (hr : e.pool.resident.find? id = some f) (hf : e.page? f = some page) (hnot : ¬ flush.Covers page) :
    e'.page? f = some page := by
  by_cases hm : f ∈ flush.frames e.pool
  · refine (h.inside f hm page hf).resolve_right fun hcleaned => hnot ?_
    exact (Flush.covers_iff hs hr hf).mpr ⟨hm, hcleaned.dirty⟩
  · exact (h.outside f hm).trans hf

theorem left_frame
    (hf : ∀ id page, e.pool.resident.find? id = some f → e.page? f = some page → ¬ flush.Covers page) :
    e'.page? f = e.page? f := by
  by_cases hm : f ∈ flush.frames e.pool
  · obtain ⟨id, hr⟩ := (Flush.frames_resident hs flush).2 f hm
    obtain ⟨page, hpage, _⟩ := hs.keyed id f hr
    exact (h.left hs hr hpage (hf id page hr hpage)).trans hpage.symm
  · exact h.outside f hm

theorem left_image {q : PageId} (hq : ∀ page, e.copy? q = some page → ¬ flush.Covers page)
    (hlocated : e.Located (flush.frames e.pool) q) : e'.image? q = e.image? q := by
  refine h.images q (fun f hf page hpage hid => ?_) hlocated
  obtain ⟨_, hr⟩ := (Flush.frames_resident hs flush).2 f hf
  have hfiled := hs.find?_of_page? hr hpage
  rw [hid] at hfiled
  exact h.left hs hr hpage (hq page (Pool.copy?_of_resident hfiled hpage))

/-- A page that the flush is there to write is written or stays as it is. -/
theorem covered (hcopy : e.copy? id = some page) (hcov : flush.Covers page) :
    (e'.copy? id = some (page.markDirty none) ∧ e'.image? id = some page.encode ∧
      ∀ txn, page.dirtier = some txn → page.updateBy txn ∈ e'.logged) ∨
    (e'.copy? id = some page ∧ (e.Located (flush.frames e.pool) id → e'.image? id = e.image? id)) := by
  obtain ⟨f, hr, hf⟩ := Pool.copy?_eq_some.mp hcopy
  rcases h.inside f ((Flush.covers_iff hs hr hf).mp hcov).1 page hf with hsame | hcleaned
  · refine .inr ⟨h.copied hr hsame, h.images id fun g hg other hother hother_id => ?_⟩
    -- No other frame of the pass holds a page of the same id.
    obtain ⟨_, hgr⟩ := (Flush.frames_resident hs flush).2 g hg
    have hfiled := hs.find?_of_page? hgr hother
    rw [hother_id, hr] at hfiled
    cases hfiled
    cases hf.symm.trans hother
    exact hsame
  · exact .inl ⟨h.copied hr hcleaned.clean, hs.id_of_copy? hcopy ▸ hcleaned.image, hcleaned.record⟩

/-- The log gets at most one record of each page that the flush is there to write. -/
theorem covered_records :
    ∃ records, e'.log.records = e.log.records ++ records ∧ (records.map UpdateRecord.page).Nodup ∧
      ∀ r ∈ records, ∃ page txn, e.copy? r.page = some page ∧ flush.Covers page ∧ page.dirtier = some txn ∧
        r = page.updateBy txn := by
  obtain ⟨hnodup, hresident⟩ := Flush.frames_resident hs flush
  obtain ⟨records, hsub, hlog⟩ := h.records
  have hpages := (hsub.map UpdateRecord.page).trans (pages_updates e _)
  refine ⟨records, hlog, (nodup_pages hs hnodup hresident).sublist hpages, fun r hr => ?_⟩
  obtain ⟨f, hf, hupdate⟩ := List.mem_filterMap.mp (hsub.subset hr)
  obtain ⟨page, hpage, hrecord⟩ := Option.bind_eq_some_iff.mp hupdate
  obtain ⟨txn, hd, rfl⟩ := Option.map_eq_some_iff.mp hrecord
  obtain ⟨_, hfr⟩ := hresident f hf
  refine ⟨page, txn, Pool.copy?_of_resident (hs.find?_of_page? hfr hpage) hpage, ?_, hd, rfl⟩
  exact (Flush.covers_iff hs hfr hpage).mpr ⟨hf, by rw [hd]; exact Option.some_ne_none txn⟩

theorem none_covered (hclean : ∀ f ∈ flush.frames e.pool, ∀ page, e'.page? f = some page → page.dirtier = none)
    (hcopy : e'.copy? id = some page) : ¬ flush.Covers page := by
  intro hcov
  obtain ⟨f, hr, hf⟩ := Pool.copy?_eq_some.mp hcopy
  rw [h.resident] at hr
  by_cases hm : f ∈ flush.frames e.pool
  · exact hcov.dirty (hclean f hm page hf)
  · exact hm ((Flush.covers_iff hs hr ((h.outside f hm).symm.trans hf)).mp hcov).1

end Flushed

/-- A flush that finds no page that it is there to write does nothing. -/
theorem run_of_none_covered (hs : e.pool.Sane) {flush : Flush}
    (hnone : ∀ id page, e.copy? id = some page → ¬ flush.Covers page) : flush.run e = (e, .ok ()) := by
  rw [Flush.run_eq]
  refine writeBackAll_of_clean fun f hf page hpage => ?_
  obtain ⟨id, hr⟩ := (Flush.frames_resident hs flush).2 f hf
  by_contra hd
  exact hnone id page (Pool.copy?_of_resident hr hpage) ((Flush.covers_iff hs hr hpage).mpr ⟨hf, hd⟩)

theorem flushedBy_run (h : e.Filed) (flush : Flush) : FlushedBy e flush (flush.run e).2 (flush.run e).1 := by
  have hu := h.uniform
  have hs := hu.sane
  obtain ⟨hnodup, hresident⟩ := Flush.frames_resident hs flush
  rw [Flush.run_eq]
  obtain ⟨hpass, hclean⟩ := flushed_writeBackAll hu hnodup hresident
  have hsane := (path_writeBackAll _ e hresident).sane hs
  have hnone : (writeBackAll (flush.frames e.pool) e).2 = .ok () → ∀ id page,
      (writeBackAll (flush.frames e.pool) e).1.copy? id = some page → ¬ flush.Covers page :=
    fun hok _ _ hcopy => hpass.none_covered hs (hclean hok) hcopy
  refine ⟨hpass.beside, fun _ _ => hpass.covered hs, fun _ => hpass.left_frame hs, fun _ => hpass.left_image hs,
    hpass.covered_records hs, hnone, fun hok sweep => ?_⟩
  refine run_of_none_covered hsane fun id page hcopy hcov => hnone hok id page hcopy ?_
  exact (flush.covers_inOrder sweep page).mp hcov

/-- Where every page in memory is on file, writing any of them leaves no gap. -/
theorem Housed.located (h : e.Housed) (flush : Flush) (q : PageId) : e.Located (flush.frames e.pool) q := by
  refine .inr fun f hf page hpage _ => ?_
  obtain ⟨_, hr⟩ := (Flush.frames_resident h.sane flush).2 f hf
  exact h.on_file page.id page (Pool.copy?_of_resident (h.sane.find?_of_page? hr hpage) hpage)

/-- The image of a page that is located is as it was, or its page was one to be written and has been written. -/
theorem FlushedBy.image? {flush : Flush} {result : Except StorageError Unit} (h : FlushedBy e flush result e')
    {q : PageId} (hlocated : e.Located (flush.frames e.pool) q) :
    e'.image? q = e.image? q ∨ ∃ page, e.copy? q = some page ∧ flush.Covers page ∧
      e'.copy? q = some (page.markDirty none) ∧ e'.image? q = some page.encode := by
  by_cases hq : ∃ page, e.copy? q = some page ∧ flush.Covers page
  · obtain ⟨page, hcopy, hcov⟩ := hq
    rcases h.pages q page hcopy hcov with ⟨hclean, himage, _⟩ | ⟨_, hsame⟩
    · exact .inr ⟨page, hcopy, hcov, hclean, himage⟩
    · exact .inl (hsame hlocated)
  · exact .inl (h.images q (fun page hcopy hcov => hq ⟨page, hcopy, hcov⟩) hlocated)

/-- Every flush, whatever the order of its pass and whichever calls fail, does what `FlushedBy` says. In a run over tables
in files of their own, whose pages stay on file, every image is as it was unless its page has been written, and is clean
now. -/
theorem flush_exact (h : e.Filed) (flush : Flush) :
    FlushedBy e flush (flush.run e).2 (flush.run e).1 ∧
    (e.Housed → ∀ q, (flush.run e).1.image? q = e.image? q ∨ ∃ page, e.copy? q = some page ∧ flush.Covers page ∧
      (flush.run e).1.copy? q = some (page.markDirty none) ∧ (flush.run e).1.image? q = some page.encode) := by
  have hflushed := flushedBy_run h flush
  exact ⟨hflushed, fun hhoused q => hflushed.image? (hhoused.located flush q)⟩

def writeFailsAt (call : Nat) : Device → Nat → Bool
  | .write, n => n = call
  | _, _ => false

theorem filed_twoPages (fails : Device → Nat → Bool) : (twoPages fails).Filed :=
  .acts (.start ((fresh_single (by decide) _ _).opened.failing fails).toOwnFiles rfl) _

theorem housed_twoPages (fails : Device → Nat → Bool) : (twoPages fails).Housed :=
  ((fresh_single (by decide) _ _).opened.failing fails).firm.toHoused.acts _

def halfWritten : Engine := twoPages (writeFailsAt 9)

/-- The first page is clean and on file, and the second is dirty and its image as it was. The flush of everything can be
made again, and then it succeeds. -/
theorem flush_exact_of_failed_write :
    let flushed := (halfWritten.flushAll .asListed).1
    FlushedBy halfWritten (.all .asListed) (.error (failure .write)) flushed ∧
    (∀ q, flushed.image? q = halfWritten.image? q ∨ ∃ page, halfWritten.copy? q = some page ∧
      (Flush.all .asListed).Covers page ∧ flushed.copy? q = some (page.markDirty none) ∧
      flushed.image? q = some page.encode) ∧
    flushed.image? ⟨⟨0⟩, 0⟩ = some [1, 1] ∧ flushed.mark? ⟨⟨0⟩, 0⟩ = none ∧
    flushed.image? ⟨⟨0⟩, 1⟩ = some [0, 0] ∧ flushed.mark? ⟨⟨0⟩, 1⟩ = some ⟨1⟩ ∧
    (flushed.flushAll .asListed).2 = .ok () := by
  obtain ⟨hflushed, himages⟩ := flush_exact (filed_twoPages (writeFailsAt 9)) (.all .asListed)
  exact ⟨hflushed, himages (housed_twoPages _), by decide +kernel, by decide +kernel, by decide +kernel,
    by decide +kernel, rfl⟩

end Engine

end RowStore
