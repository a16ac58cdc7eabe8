import Mathlib.Data.List.Nodup
import RowStore.Proofs.OpenChanges

/-!
# What a commit logs

A commit goes over the pages that its transaction has marked, logs each and forces the log before it makes the page's
contents the baseline, and stops at the first failure. So each page that gets a new baseline has a durable record of the
old one and of the contents, and a commit that succeeds has given one to every page that its transaction had marked.
-/

namespace RowStore

theorem Pool.Sane.nodup_residentFrames {p : Pool} (h : p.Sane) : p.residentFrames.Nodup := by
  refine List.Nodup.map_on ?_ (List.Nodup.of_map _ p.resident.distinct)
  rintro ⟨id, f⟩ hm ⟨id', f'⟩ hm' heq
  obtain rfl : f = f' := heq
  obtain ⟨page, hpage, rfl⟩ := h.keyed id f (Dict.find?_of_mem_entries hm)
  obtain ⟨page', hpage', rfl⟩ := h.keyed id' f (Dict.find?_of_mem_entries hm')
  cases hpage.symm.trans hpage'
  rfl

namespace Engine

variable {e : Engine} {txn : TxnId} {p : PageId}

theorem commitPages_cons (txn : TxnId) (f : FrameId) (rest : List FrameId) (e : Engine) :
    commitPages txn (f :: rest) e =
      match (e.commitPage txn f).2 with
      | .error err => ((e.commitPage txn f).1, .error err)
      | .ok () => commitPages txn rest (e.commitPage txn f).1 := by
  rw [commitPages]
  generalize e.commitPage txn f = outcome
  obtain ⟨e₁, result⟩ := outcome
  cases result <;> rfl

theorem commitEvents_cons (txn : TxnId) (f : FrameId) (rest : List FrameId) (e : Engine) :
    commitEvents txn (f :: rest) e =
      match (e.commitPage txn f).2 with
      | .error _ => []
      | .ok () =>
        (e.page? f).elim [] (fun page => [.based page.id]) ++ commitEvents txn rest (e.commitPage txn f).1 := by
  rw [commitEvents]
  generalize e.commitPage txn f = outcome
  obtain ⟨e₁, result⟩ := outcome
  cases result <;> rfl

/-- The commit of a resident page fails or leaves a durable record of it, and changes no other page. -/
theorem commitPage_cases (txn : TxnId) (hs : e.pool.Sane) {f : FrameId} {page : Page}
    (hr : e.pool.resident.find? p = some f) (hf : e.page? f = some page) :
    (∃ err, (e.commitPage txn f).2 = .error err) ∨
      (e.commitPage txn f).2 = .ok () ∧
        ⟨txn, p, page.beforeImage, page.encode⟩ ∈ (e.commitPage txn f).1.logged ∧
        ∀ q, q ≠ p → (e.commitPage txn f).1.copy? q = e.copy? q := by
  have hid := hs.id_of_copy? (Pool.copy?_of_resident hr hf)
  obtain ⟨_, ⟨log, faults, hstate⟩, hlogged⟩ := logAndForce_cases e txn page
  unfold commitPage
  rw [hf]
  simp only
  generalize e.logAndForce txn page = outcome at hstate hlogged ⊢
  obtain ⟨e₁, result⟩ := outcome
  change e₁ = _ at hstate
  subst hstate
  cases result with
  | error err => exact .inl ⟨err, rfl⟩
  | ok _ =>
    refine .inr ⟨rfl, ?_, fun q hq => ?_⟩
    · rw [← hid]
      exact hlogged rfl
    · exact (hs.copy?_setPage hr hf page.setBeforeImage q).trans (if_neg hq)

/-- A pass of commits has logged each page that has got a baseline, as the page was before the pass. -/
theorem logged_of_based_pass {frames : List FrameId} (hs : e.pool.Sane)
    (hr : ∀ f ∈ frames, ∃ id, e.pool.resident.find? id = some f) (hm : .based p ∈ commitEvents txn frames e) :
    ∃ f ∈ frames, e.pool.resident.find? p = some f ∧ ∃ page, e.copy? p = some page ∧
      ⟨txn, p, page.beforeImage, page.encode⟩ ∈ (commitPages txn frames e).1.logged := by
  induction frames generalizing e with
  | nil => cases hm
  | cons f rest ih =>
    obtain ⟨id, hid⟩ := hr f List.mem_cons_self
    obtain ⟨page, hpage, hpid⟩ := hs.keyed id f hid
    obtain ⟨hres, hpath⟩ := path_commitPage txn hid
    have hkeep := resident_rest hr hres
    rw [commitEvents_cons] at hm
    rw [commitPages_cons]
    rcases commitPage_cases txn hs hid hpage with ⟨err, herr⟩ | ⟨hok, hlogged, hothers⟩
    · rw [herr] at hm
      cases hm
    · rw [hok, show e.page? f = some page from hpage] at hm
      rw [hok]
      by_cases hp : p = id
      · subst hp
        exact ⟨f, List.mem_cons_self, hid, page, Pool.copy?_of_resident hid hpage,
          (path_commitPages txn rest _ hkeep).logged hlogged⟩
      · have hlater : .based p ∈ commitEvents txn rest (e.commitPage txn f).1 := by
          refine (List.mem_append.mp hm).resolve_left fun hhead => hp ?_
          cases List.mem_singleton.mp hhead
          exact hpid
        obtain ⟨g, hg, hgp, copy, hcopy, hrecord⟩ := ih (hpath.sane hs) hkeep hlater
        rw [hres] at hgp
        rw [hothers p hp] at hcopy
        exact ⟨g, List.mem_cons_of_mem f hg, hgp, copy, hcopy, hrecord⟩

/-- A pass of commits that succeeds gives each of its pages a baseline. -/
theorem based_of_pass {frames : List FrameId} (hs : e.pool.Sane)
    (hr : ∀ f ∈ frames, ∃ id, e.pool.resident.find? id = some f) (hok : (commitPages txn frames e).2 = .ok ())
    {f : FrameId} (hf : f ∈ frames) (hp : e.pool.resident.find? p = some f) : .based p ∈ commitEvents txn frames e := by
  induction frames generalizing e with
  | nil => cases hf
  | cons g rest ih =>
    obtain ⟨id, hid⟩ := hr g List.mem_cons_self
    obtain ⟨page, hpage, hpid⟩ := hs.keyed id g hid
    obtain ⟨hres, hpath⟩ := path_commitPage txn hid
    rw [commitPages_cons] at hok
    rw [commitEvents_cons]
    cases hone : (e.commitPage txn g).2 with
    | error err =>
      rw [hone] at hok
      cases hok
    | ok _ =>
      rw [hone] at hok
      refine List.mem_append.mpr ?_
      rcases List.mem_cons.mp hf with rfl | hf
      · left
        obtain ⟨page', hpage', hpid'⟩ := hs.keyed p f hp
        rw [show e.page? f = some page' from hpage', ← hpid']
        exact List.mem_cons_self
      · exact .inr (ih (hpath.sane hs) (resident_rest hr hres) hok hf
          (by rw [hres]; exact hp))

/-- A page that a commit makes a baseline for was marked by its transaction, and the commit has logged it as it was. -/
theorem logged_of_based (hs : e.pool.Sane) {sweep : Sweep} (hm : .based p ∈ e.events (.ask (.commit txn sweep))) :
    e.mark? p = some txn ∧ ∃ page, e.copy? p = some page ∧
      ⟨txn, p, page.beforeImage, page.encode⟩ ∈ (e.act (.ask (.commit txn sweep))).logged := by
  have hbased := (List.mem_append.mp hm).resolve_right fun hc => by cases List.mem_singleton.mp hc
  obtain ⟨f, hf, hres, hpage⟩ := logged_of_based_pass hs (fun _ => resident_of_mem_dirtiedBy) hbased
  exact ⟨(mem_dirtied_iff e txn sweep p).mp ⟨f, hf, hres⟩, hpage⟩

/-- A commit that succeeds makes baselines for all pages that its transaction has marked. -/
theorem based_of_marked (hs : e.pool.Sane) {sweep : Sweep} (hok : (e.complete txn true sweep).2 = .ok ())
    (hm : e.mark? p = some txn) : .based p ∈ e.events (.ask (.commit txn sweep)) := by
  obtain ⟨f, hf, hres⟩ := (mem_dirtied_iff e txn sweep p).mpr hm
  exact List.mem_append_left _ (based_of_pass hs (fun _ => resident_of_mem_dirtiedBy) hok hf hres)

theorem records_logAndForce (e : Engine) (txn : TxnId) (page : Page) :
    (e.logAndForce txn page).1.log.records =
        e.log.records ++ [⟨txn, page.id, page.beforeImage, page.encode⟩] ∨
      (e.logAndForce txn page).1.log.records = e.log.records ∧ ∃ err, (e.logAndForce txn page).2 = .error err := by
  unfold logAndForce logPage forceLog Engine.call
  cases e.faults.fails .logWrite e.faults.next with
  | true => exact .inr ⟨rfl, _, rfl⟩
  | false =>
    left
    simp only
    cases e.faults.fails .force (e.faults.next + 1) <;> rfl

theorem records_commitPage (txn : TxnId) (hs : e.pool.Sane) {f : FrameId} {page : Page}
    (hr : e.pool.resident.find? p = some f) (hf : e.page? f = some page) :
    (e.commitPage txn f).1.log.records = e.log.records ++ [⟨txn, p, page.beforeImage, page.encode⟩] ∨
      (e.commitPage txn f).1.log.records = e.log.records ∧ ∃ err, (e.commitPage txn f).2 = .error err := by
  have hid := hs.id_of_copy? (Pool.copy?_of_resident hr hf)
  have hrecords := records_logAndForce e txn page
  rw [hid] at hrecords
  unfold commitPage
  rw [hf]
  simp only
  generalize e.logAndForce txn page = outcome at hrecords ⊢
  obtain ⟨e₁, result⟩ := outcome
  cases result <;> exact hrecords

/-- A pass of commits over different frames adds records of their pages only, with the pages as they were before it, and
if it succeeds one of each. -/
theorem records_of_pass {frames : List FrameId} (txn : TxnId) (hs : e.pool.Sane)
    (hr : ∀ f ∈ frames, ∃ id, e.pool.resident.find? id = some f) (hd : frames.Nodup) :
    ∃ new, (commitPages txn frames e).1.log.records = e.log.records ++ new ∧
      (∀ r ∈ new, r.txn = txn ∧ ∃ f ∈ frames, e.pool.resident.find? r.page = some f ∧
        ∃ page, e.copy? r.page = some page ∧ r.before = page.beforeImage ∧ r.after = page.encode) ∧
      ((commitPages txn frames e).2 = .ok () →
        ∀ f ∈ frames, ∀ q, e.pool.resident.find? q = some f → ∃ r ∈ new, r.page = q) := by
  induction frames generalizing e with
  | nil => exact ⟨[], (List.append_nil _).symm, List.forall_mem_nil _, fun _ => List.forall_mem_nil _⟩
  | cons f rest ih =>
    obtain ⟨id, hid⟩ := hr f List.mem_cons_self
    obtain ⟨page, hpage, hpid⟩ := hs.keyed id f hid
    obtain ⟨hres, hpath⟩ := path_commitPage txn hid
    obtain ⟨hnot, hrest⟩ := List.nodup_cons.mp hd
    have hcopy := Pool.copy?_of_resident hid hpage
    have hrecord : ∀ r : UpdateRecord, r = ⟨txn, id, page.beforeImage, page.encode⟩ →
        r.txn = txn ∧ ∃ g ∈ f :: rest, e.pool.resident.find? r.page = some g ∧
          ∃ page, e.copy? r.page = some page ∧ r.before = page.beforeImage ∧ r.after = page.encode := by
      rintro r rfl
      exact ⟨rfl, f, List.mem_cons_self, hid, page, hcopy, rfl, rfl⟩
    rw [commitPages_cons]
    rcases commitPage_cases txn hs hid hpage with ⟨err, herr⟩ | ⟨hok, _, hothers⟩
    · rw [herr]
      rcases records_commitPage txn hs hid hpage with hone | ⟨hnone, _⟩
      · exact ⟨_, hone, fun r hm => hrecord r (List.mem_singleton.mp hm), nofun⟩
      · exact ⟨[], hnone.trans (List.append_nil _).symm, List.forall_mem_nil _, nofun⟩
    · have hone := (records_commitPage txn hs hid hpage).resolve_right fun ⟨_, err, herr⟩ => by
        rw [hok] at herr
        cases herr
      obtain ⟨new, hnew, hmem, hall⟩ := ih (hpath.sane hs)
        (resident_rest hr hres) hrest
      rw [hres] at hmem hall
      rw [hok]
      refine ⟨⟨txn, id, page.beforeImage, page.encode⟩ :: new, ?_, List.forall_mem_cons.mpr ⟨hrecord _ rfl, ?_⟩, ?_⟩
      · rw [hnew, hone, List.append_assoc, List.singleton_append]
      · intro r hm
        obtain ⟨htxn, g, hg, hgp, copy, hcur, hboth⟩ := hmem r hm
        have hne : r.page ≠ id := by
          intro he
          rw [he, hid] at hgp
          cases hgp
          exact hnot hg
        rw [hothers _ hne] at hcur
        exact ⟨htxn, g, List.mem_cons_of_mem f hg, hgp, copy, hcur, hboth⟩
      · intro hdone g hg q hq
        rcases List.mem_cons.mp hg with rfl | hg
        · refine ⟨_, List.mem_cons_self, ?_⟩
          obtain ⟨page', hpage', hpid'⟩ := hs.keyed q g hq
          cases hpage.symm.trans hpage'
          exact hpid.symm.trans hpid'
        · obtain ⟨r, hm, hrp⟩ := hall hdone g hg q hq
          exact ⟨r, List.mem_cons_of_mem _ hm, hrp⟩

/-- A commit adds records of pages that its transaction has marked, each with the page as it was, and if it succeeds one
of every such page. -/
theorem records_of_commit (hs : e.pool.Sane) (txn : TxnId) (sweep : Sweep) :
    ∃ new, (e.act (.ask (.commit txn sweep))).log.records = e.log.records ++ new ∧
      (∀ r ∈ new, r.txn = txn ∧ ∃ page, e.copy? r.page = some page ∧ page.dirtier = some txn ∧
        r.before = page.beforeImage ∧ r.after = page.encode) ∧
      ((e.complete txn true sweep).2 = .ok () → ∀ q, e.mark? q = some txn → ∃ r ∈ new, r.page = q) := by
  have hd : (sweep.order (e.pool.dirtiedBy txn)).Nodup :=
    (sweep.perm _).nodup_iff.mpr (hs.nodup_residentFrames.filter _)
  obtain ⟨new, hnew, hmem, hall⟩ := records_of_pass txn hs (fun _ => resident_of_mem_dirtiedBy) hd
  refine ⟨new, hnew, fun r hm => ?_, fun hok q hq => ?_⟩
  · obtain ⟨htxn, f, hf, hres, page, hcopy, hboth⟩ := hmem r hm
    obtain ⟨copy, hcur, hd⟩ := Option.bind_eq_some_iff.mp ((mem_dirtied_iff e txn sweep r.page).mp ⟨f, hf, hres⟩)
    cases hcopy.symm.trans hcur
    exact ⟨htxn, page, hcopy, hd, hboth⟩
  · obtain ⟨f, hf, hres⟩ := (mem_dirtied_iff e txn sweep q).mpr hq
    exact hall hok f hf q hres

theorem Faultless.commitPages {frames : List FrameId} (hf : e.Faultless) (hs : e.pool.Sane)
    (hr : ∀ f ∈ frames, ∃ id, e.pool.resident.find? id = some f) : (Engine.commitPages txn frames e).2 = .ok () := by
  induction frames generalizing e with
  | nil => rfl
  | cons f rest ih =>
    obtain ⟨id, hid⟩ := hr f List.mem_cons_self
    obtain ⟨page, hpage, _⟩ := hs.keyed id f hid
    obtain ⟨hres, hpath⟩ := path_commitPage txn hid
    have hok : (e.commitPage txn f).2 = .ok () := by
      have hlog := hf.logAndForce txn page
      unfold commitPage
      rw [show e.page? f = some page from hpage]
      simp only
      generalize e.logAndForce txn page = outcome at hlog ⊢
      obtain ⟨e₁, result⟩ := outcome
      change result = _ at hlog
      subst hlog
      rfl
    rw [commitPages_cons, hok]
    exact ih (hpath.faultless hf) (hpath.sane hs) (resident_rest hr hres)

theorem Faultless.commit_ok (hf : e.Faultless) (hs : e.pool.Sane) (txn : TxnId) (sweep : Sweep) :
    (e.complete txn true sweep).2 = .ok () := hf.commitPages hs fun _ => resident_of_mem_dirtiedBy

end Engine

end RowStore
