import Regatta.Proofs.Service.Reception

/-! Who is in whose hands while submissions come in.

Every id that was given out stands for at most one thing under way: a submission that is counted, or
a job (`Distinct`). What can be cancelled is under way, and what is under way can be cancelled until
it is withdrawn (`Tracking`). The count is the number of those under way in the background
(`Counting`), and once the runner is closed all of them have been told to stop (`Told`). All of this
holds whatever the store does. -/
namespace Regatta.Reception

open Runner (stopJobs mem_stopJobs ids_stopJobs ids_apart)

/-! ### Lists of submissions -/

/-- The ids of the submissions that are counted themselves. -/
def booked (l : List Submission) : List Text := (l.filter Submission.counts).map Submission.id

/-- The id of a submission that a job was launched for. -/
def Launched (l : List Submission) (id : Text) : Prop := ∃ x ∈ l, x.counts = false ∧ x.id = id

variable {before after l : List Submission} {x y : Submission} {id : Text}

theorem mem_booked : id ∈ booked l ↔ ∃ x ∈ l, x.counts = true ∧ x.id = id := by
  simp [booked, and_assoc]

theorem mem_swap : y ∈ before ++ (l ++ after) ↔ y ∈ l ∨ y ∈ before ++ after := by
  simp only [List.mem_append]
  exact or_left_comm

theorem booked_swap (before after l : List Submission) :
    (booked (before ++ (l ++ after))).Perm (booked l ++ booked (before ++ after)) := by
  unfold booked
  rw [← List.map_append, ← List.filter_append]
  exact ((List.perm_append_comm_assoc ..).filter _).map _

theorem booked_one (h : x.counts = true) : booked [x] = [x.id] := by
  simp [booked, h]

theorem booked_none (h : x.counts = false) : booked [x] = [] := by
  simp [booked, h]

theorem booked_remove (h : x.counts = false) :
    booked (before ++ x :: after) = booked (before ++ after) := by
  simp [booked, h]

variable (which : Text → Bool)

theorem tell_id (x : Submission) : (x.tell which).id = x.id := by
  unfold Submission.tell
  split <;> rfl

theorem tell_stage (x : Submission) : (x.tell which).stage = x.stage := by
  unfold Submission.tell
  split <;> rfl

theorem tell_counts (x : Submission) :
    (x.tell which).counts = x.counts := by
  unfold Submission.counts
  rw [tell_stage]

theorem booked_tell (l : List Submission) :
    booked (l.map (·.tell which)) = booked l := by
  simp [booked, List.filter_map, Function.comp_def, tell_counts, tell_id]

theorem launched_swap : Launched (before ++ (l ++ after)) id ↔
    Launched l id ∨ Launched (before ++ after) id := by
  simp only [Launched, mem_swap, or_and_right, exists_or]

theorem Launched.of_append (h : Launched (l ++ [x]) id) (hx : x.counts = true) : Launched l id := by
  simpa [Launched, or_and_right, exists_or, hx] using h

theorem launched_tell {which : Text → Bool} :
    Launched (l.map (·.tell which)) id ↔ Launched l id := by
  simp [Launched, tell_counts, tell_id]

/-! ### Ids -/

def ids (s : Reception) : List Text := booked s.submissions ++ s.runner.jobs.map Job.id

def Issued (r : Runner) (id : Text) : Prop := ∃ k < r.issued, r.newId k = id

/-- A job was launched for a submission, which may have been answered since. -/
def Given (s : Reception) (id : Text) : Prop :=
  Launched s.submissions id ∨ ∃ run, .accepted run ∈ s.answers ∧ run.id = id

/-- The submission was answered that the store did not take its run. -/
def Denied (s : Reception) (id : Text) : Prop := ∃ e, .refused id e ∈ s.answers

/-- Every id stands for at most one that is under way. -/
structure Distinct (s : Reception) : Prop where
  issued : ∀ id ∈ s.ids, Issued s.runner id
  nodup : s.ids.Nodup
  given : ∀ id, s.Given id → Issued s.runner id ∧ id ∉ booked s.submissions ∧
    ∀ j ∈ s.runner.jobs, j.id = id → j.submitted = true
  denied : ∀ id, s.Denied id → Issued s.runner id ∧ id ∉ s.ids

variable {s s' : Reception} {m : Move}

theorem not_issued (hnew : Function.Injective s.runner.newId) :
    ¬ Issued s.runner (s.runner.newId s.runner.issued) := by
  rintro ⟨k, hk, heq⟩
  exact Nat.ne_of_lt hk (hnew heq)

variable {i : Nat} {job : Job} {r : Runner}

theorem issued_later (hids : r.newId = s.runner.newId)
    (hissued : s.runner.issued ≤ r.issued) (h : Issued s.runner id) : Issued r id := by
  obtain ⟨k, hk, heq⟩ := h
  exact ⟨k, Nat.lt_of_lt_of_le hk hissued, hids ▸ heq⟩

theorem Distinct.apart (h : s.Distinct) (hid : id ∈ booked s.submissions) :
    ∀ j ∈ s.runner.jobs, j.id ≠ id :=
  fun _ hj heq => (List.nodup_append.mp h.nodup).2.2 _ hid _ (List.mem_map_of_mem hj) heq.symm

/-- Nobody new is under way. Who was given to a job since is not counted any more, and who was
refused is gone. -/
theorem Distinct.of_fewer (h : s.Distinct) (hids : s'.runner.newId = s.runner.newId)
    (hissued : s.runner.issued ≤ s'.runner.issued) (hfewer : s'.ids.Subperm s.ids)
    (hbooked : booked s'.submissions ⊆ booked s.submissions)
    (hjobs : ∀ j' ∈ s'.runner.jobs, j'.submitted = true ∨
      ∃ j ∈ s.runner.jobs, j'.id = j.id ∧ j'.submitted = j.submitted)
    (hgiven : ∀ id, s'.Given id →
      s.Given id ∨ id ∈ booked s.submissions ∧ id ∉ booked s'.submissions)
    (hdenied : ∀ id, s'.Denied id → s.Denied id ∨ id ∈ s.ids ∧ id ∉ s'.ids) : s'.Distinct := by
  obtain ⟨kept, hperm, hsub⟩ := hfewer
  have hmem : ∀ {id}, id ∈ s'.ids → id ∈ s.ids := fun hid => hsub.subset (hperm.mem_iff.mpr hid)
  have hlater : ∀ {id}, Issued s.runner id → Issued s'.runner id := issued_later hids hissued
  refine ⟨fun id hid => hlater (h.issued id (hmem hid)), hperm.nodup_iff.mp (hsub.nodup h.nodup),
    fun id hid => ?_, fun id hid => ?_⟩
  · have hold : Issued s.runner id ∧ id ∉ booked s'.submissions ∧
        ∀ j ∈ s.runner.jobs, j.id = id → j.submitted = true := by
      rcases hgiven id hid with hold | ⟨hin, hout⟩
      · obtain ⟨hissued, hfree, hsubmitted⟩ := h.given id hold
        exact ⟨hissued, fun hid => hfree (hbooked hid), hsubmitted⟩
      · exact ⟨h.issued id (List.mem_append_left _ hin), hout,
          fun j hj heq => absurd heq (h.apart hin j hj)⟩
    refine ⟨hlater hold.1, hold.2.1, fun j' hj' heq => ?_⟩
    rcases hjobs j' hj' with hsubmitted | ⟨j, hj, hsame, hflag⟩
    · exact hsubmitted
    · rw [hflag]
      exact hold.2.2 j hj (hsame ▸ heq)
  · rcases hdenied id hid with hold | ⟨hin, hout⟩
    · exact ⟨hlater (h.denied id hold).1, fun hid => (h.denied id hold).2 (hmem hid)⟩
    · exact ⟨hlater (h.issued id hin), hout⟩

/-- When one submission goes on or is answered, only it can be given to a job. -/
theorem Given.of_swap (h : s'.Given id) (hat : s.submissions = before ++ x :: after)
    (hnext : s'.submissions = before ++ (l ++ after))
    (hanswers : ∀ run, .accepted run ∈ s'.answers →
      .accepted run ∈ s.answers ∨ x.counts = false ∧ run = x.run) :
    s.Given id ∨ Launched l id := by
  have hold : ∀ {id}, Launched [x] id ∨ Launched (before ++ after) id → s.Given id :=
    fun hlaunched => .inl (hat ▸ launched_swap.mpr hlaunched)
  rcases h with hlaunched | ⟨run, hrun, hid⟩
  · rw [hnext, launched_swap] at hlaunched
    exact hlaunched.elim .inr fun hlaunched => .inl (hold (.inr hlaunched))
  · rcases hanswers run hrun with hrun | ⟨hx, rfl⟩
    · exact .inl (.inr ⟨run, hrun, hid⟩)
    · exact .inl (hold (.inl ⟨x, List.mem_singleton_self x, hx, hid⟩))

theorem ids_swap (l : List Submission) (hat : s.submissions = before ++ (l ++ after)) :
    s.ids.Perm (booked l ++ (booked (before ++ after) ++ s.runner.jobs.map Job.id)) := by
  unfold ids
  rw [hat, ← List.append_assoc (booked l)]
  exact (booked_swap before after l).append_right _

theorem mem_booked_swap (l : List Submission) (hat : s.submissions = before ++ (l ++ after))
    (id : Text) : id ∈ booked s.submissions ↔ id ∈ booked l ∨ id ∈ booked (before ++ after) := by
  rw [hat, (booked_swap before after l).mem_iff, List.mem_append]

/-- One submission goes on, is given to a job or is answered. -/
theorem Distinct.of_swap (h : s.Distinct) (hids : s'.runner.newId = s.runner.newId)
    (hissued : s'.runner.issued = s.runner.issued) {jobs : List Job}
    (hjobs : s'.runner.jobs = s.runner.jobs ++ jobs)
    (hat : s.submissions = before ++ x :: after) (hnext : s'.submissions = before ++ (l ++ after))
    (hown : (booked l ++ jobs.map Job.id).Sublist (booked [x]))
    (hsubmitted : ∀ j ∈ jobs, j.submitted = true)
    (hlaunched : ∀ id, Launched l id → id ∈ booked [x] ∧ id ∉ booked l)
    (hanswers : ∀ run, .accepted run ∈ s'.answers →
      .accepted run ∈ s.answers ∨ x.counts = false ∧ run = x.run)
    (hdenied : ∀ id, s'.Denied id →
      s.Denied id ∨ id ∈ booked [x] ∧ id ∉ booked l ++ jobs.map Job.id) : s'.Distinct := by
  have hold := ids_swap [x] hat
  have hnew : s'.ids.Perm ((booked l ++ jobs.map Job.id) ++
      (booked (before ++ after) ++ s.runner.jobs.map Job.id)) := by
    refine (ids_swap l hnext).trans ?_
    rw [hjobs, List.map_append, List.append_assoc, ← List.append_assoc (booked (before ++ after))]
    exact List.perm_append_comm.append_left _
  have hbooked := mem_booked_swap [x] hat
  have hbooked' := mem_booked_swap l hnext
  have hapart := (List.nodup_append.mp (hold.nodup_iff.mp h.nodup)).2.2
  refine h.of_fewer hids (Nat.le_of_eq hissued.symm) ?_ (fun id hid => ?_) (fun j hj => ?_)
    (fun id hid => (hid.of_swap hat hnext hanswers).imp_right fun hid => ?_)
    (fun id hid => (hdenied id hid).imp_right fun ⟨hin, hout⟩ => ?_)
  · exact hnew.subperm.trans ((hown.append_right _).subperm.trans hold.symm.subperm)
  · exact (hbooked id).mpr
      (((hbooked' id).mp hid).imp_left fun hid => hown.subset (List.mem_append_left _ hid))
  · rcases List.mem_append.mp (hjobs ▸ hj) with hj | hj
    · exact .inr ⟨j, hj, rfl, rfl⟩
    · exact .inl (hsubmitted j hj)
  · obtain ⟨hin, hout⟩ := hlaunched id hid
    refine ⟨(hbooked id).mpr (.inl hin), fun hid => ((hbooked' id).mp hid).elim hout fun hid => ?_⟩
    exact hapart id hin id (List.mem_append_left _ hid) rfl
  · refine ⟨hold.mem_iff.mpr (List.mem_append_left _ hin), fun hid => ?_⟩
    exact (List.mem_append.mp (hnew.mem_iff.mp hid)).elim hout fun hid => hapart id hin id hid rfl

theorem Distinct.of_new (h : s.Distinct) (hnew : Function.Injective s.runner.newId)
    (hids : s'.runner.newId = s.runner.newId) (hissued : s'.runner.issued = s.runner.issued + 1)
    (hperm : s'.ids.Perm (s.runner.newId s.runner.issued :: s.ids))
    (hbooked : ∀ id ∈ booked s'.submissions,
      id ∈ booked s.submissions ∨ id = s.runner.newId s.runner.issued)
    (hjobs : ∀ j ∈ s'.runner.jobs, j ∈ s.runner.jobs ∨ j.id = s.runner.newId s.runner.issued)
    (hgiven : ∀ id, s'.Given id → s.Given id) (hdenied : ∀ id, s'.Denied id → s.Denied id) :
    s'.Distinct := by
  have hfresh := not_issued hnew
  have hlater : ∀ {id}, Issued s.runner id → Issued s'.runner id :=
    issued_later hids (by omega)
  refine ⟨fun id hid => ?_, ?_, fun id hid => ?_, fun id hid => ?_⟩
  · rcases List.mem_cons.mp (hperm.mem_iff.mp hid) with rfl | hid
    · exact ⟨s.runner.issued, by omega, by rw [hids]⟩
    · exact hlater (h.issued id hid)
  · rw [hperm.nodup_iff, List.nodup_cons]
    exact ⟨fun hmem => hfresh (h.issued _ hmem), h.nodup⟩
  · obtain ⟨hold, hfree, hsubmitted⟩ := h.given id (hgiven id hid)
    have hne : id ≠ s.runner.newId s.runner.issued := fun heq => hfresh (heq ▸ hold)
    refine ⟨hlater hold, fun hmem => ?_, fun j hj heq => ?_⟩
    · exact (hbooked id hmem).elim hfree hne
    · rcases hjobs j hj with hj | hj
      · exact hsubmitted j hj heq
      · exact absurd (heq.symm.trans hj) hne
  · obtain ⟨hold, hfree⟩ := h.denied id (hdenied id hid)
    have hne : id ≠ s.runner.newId s.runner.issued := fun heq => hfresh (heq ▸ hold)
    refine ⟨hlater hold, fun hmem => ?_⟩
    rcases List.mem_cons.mp (hperm.mem_iff.mp hmem) with heq | hmem
    · exact hne heq
    · exact hfree hmem

theorem steps_jobs {r' : Runner} (h : Runner.Steps r i r') :
    ∀ j' ∈ r'.jobs, ∃ j ∈ r.jobs, j'.id = j.id ∧ j'.submitted = j.submitted ∧
      j'.cancelled = j.cancelled := by
  cases h with
  | nobody => exact fun j hj => ⟨j, hj, rfl, rfl, rfl⟩
  | @going before after j j' desk hj hjobs hstep =>
    obtain ⟨calls, hcarries, -⟩ := Job.step_spec hstep
    intro k hk
    rcases mem_middle.mp hk with rfl | hk
    · exact ⟨j, by simp [hjobs], hcarries.continues.id, hcarries.continues.submitted,
        hcarries.continues.cancelled⟩
    · exact ⟨k, hjobs ▸ mem_middle.mpr (.inr hk), rfl, rfl, rfl⟩
  | ended hj hjobs =>
    exact fun k hk => ⟨k, hjobs ▸ mem_middle.mpr (.inr hk), rfl, rfl, rfl⟩

theorem steps_ids {r' : Runner} (h : Runner.Steps r i r') :
    r'.newId = r.newId ∧ r'.issued = r.issued ∧ r'.closed = r.closed := by
  cases h with
  | _ => exact ⟨rfl, rfl, rfl⟩

theorem Distinct.effect (h : s.Distinct) (hnew : Function.Injective s.runner.newId)
    (he : Effect s m s') : s'.Distinct := by
  have hself : ∀ j' ∈ s.runner.jobs, j'.submitted = true ∨
      ∃ j ∈ s.runner.jobs, j'.id = j.id ∧ j'.submitted = j.submitted :=
    fun j hj => .inr ⟨j, hj, rfl, rfl⟩
  cases he with
  | @stands _ which r returned hjobs htracked hids hissued =>
    have hsame : booked (s.submissions.map (·.tell which)) ++ r.jobs.map Job.id = s.ids := by
      rw [booked_tell, hjobs, ids_stopJobs]
      rfl
    refine h.of_fewer hids (Nat.le_of_eq hissued.symm) (hsame ▸ .refl _) ?_ (fun j' hj' => .inr ?_)
      (fun id hid => .inl (hid.imp_left launched_tell.mp)) (fun _ => .inl)
    · exact fun id hid => booked_tell which _ ▸ hid
    · dsimp only at hj'
      rw [hjobs] at hj'
      obtain ⟨j, hj, -, hid, -, hsubmitted⟩ := mem_stopJobs hj'
      exact ⟨j, hj, hid, hsubmitted⟩
  | turnedAway =>
    refine h.of_fewer rfl (Nat.le_refl _) (.refl _) (List.Subset.refl _) hself (fun id hid => .inl ?_)
      (fun id hid => .inl ?_)
    · simpa [Given] using hid
    · simpa [Denied] using hid
  | @admits request hopen run asked hid =>
    have hbooked : booked (s.submissions ++ [⟨run, asked, false, .admitted⟩]) =
        booked s.submissions ++ [run.id] := by
      unfold booked
      rw [List.filter_append, List.map_append]
      rfl
    refine h.of_new hnew rfl rfl ?_ ?_ (fun j hj => .inl hj) ?_ (fun id hid => hid)
    · unfold ids
      rw [hbooked, hid, List.append_assoc]
      exact List.perm_middle
    · rw [hbooked, hid]
      simp
    · exact fun id => Or.imp_left (·.of_append rfl)
  | refuses hat hstage | records hat hstage | withdraws hat hstage =>
    refine h.of_swap (l := [_]) rfl rfl (List.append_nil _).symm hat rfl ?_ (by simp) ?_
      (fun _ => .inl) (fun _ => .inl)
    · rw [booked_one rfl, booked_one (by simp [Submission.counts, hstage])]
      exact List.Sublist.refl _
    · simp [Launched, Submission.counts]
  | @launches _ before after x job hat hstage hid hphase hsubmitted =>
    have hx : booked [x] = [x.id] := booked_one (by simp [Submission.counts, hstage])
    refine h.of_swap (l := [_]) rfl rfl rfl hat rfl ?_ (by simpa using hsubmitted) (fun id hid => ?_)
      (fun _ => .inl) (fun _ => .inl)
    · rw [hx, booked_none rfl, List.nil_append, List.map_singleton, hid]
    · obtain ⟨y, hmem, -, rfl⟩ := hid
      cases List.mem_singleton.mp hmem
      rw [hx, booked_none rfl]
      exact ⟨List.mem_singleton_self _, List.not_mem_nil⟩
  | dismisses hat hstage =>
    refine h.of_swap (l := []) rfl rfl (List.append_nil _).symm hat rfl (List.nil_sublist _) (by simp)
      (by simp [Launched]) (fun run hrun => .inl (by simpa using hrun)) fun id ⟨e', hanswer⟩ => ?_
    refine (List.mem_append.mp hanswer).imp (fun hanswer => ⟨e', hanswer⟩) fun hanswer => ?_
    cases List.mem_singleton.mp hanswer
    rw [booked_one (by simp [Submission.counts, hstage])]
    exact ⟨List.mem_singleton_self _, List.not_mem_nil⟩
  | accepts hat hstage =>
    refine h.of_swap (l := []) rfl rfl (List.append_nil _).symm hat rfl (List.nil_sublist _) (by simp)
      (by simp [Launched]) (fun run hrun => ?_) (fun id hid => .inl (by simpa [Denied] using hid))
    simpa [Submission.counts, hstage] using hrun
  | @executes _ interrupted run job ledger hid hpending hcreate hjob =>
    refine h.of_new hnew rfl rfl ?_ (fun id hid => .inl hid) (fun j hj => ?_) (fun id hid => hid)
      (fun id hid => hid)
    · unfold ids
      rw [List.map_append, List.map_singleton, hjob, hid, ← List.append_assoc]
      exact List.perm_append_singleton _ _
    · rcases List.mem_append.mp hj with hj | hj
      · exact .inl hj
      · exact .inr (by rw [List.mem_singleton.mp hj, hjob, hid])
  | fails =>
    exact h.of_fewer rfl (Nat.le_succ _) (.refl _) (List.Subset.refl _) hself (fun _ => .inl)
      (fun _ => .inl)
  | steps hsteps =>
    refine h.of_fewer (steps_ids hsteps).1 (Nat.le_of_eq (steps_ids hsteps).2.1.symm)
      (hsteps.ids.append_left _).subperm (List.Subset.refl _) (fun j' hj' => .inr ?_) (fun _ => .inl)
      (fun _ => .inl)
    obtain ⟨j, hj, hid, hsubmitted, -⟩ := steps_jobs hsteps j' hj'
    exact ⟨j, hj, hid, hsubmitted⟩
  | departs =>
    exact h.of_fewer rfl (Nat.le_refl _) (.refl _) (List.Subset.refl _) hself (fun _ => .inl)
      (fun _ => .inl)

/-! ### Who can be cancelled -/

/-- A submission that can be cancelled has this id, or a job. -/
def Holder (s : Reception) (id : Text) : Prop :=
  (∃ x ∈ s.submissions, x.holds = true ∧ x.id = id) ∨ ∃ j ∈ s.runner.jobs, j.id = id

/-- Exactly those can be cancelled who hold on to something. -/
def Tracking (s : Reception) : Prop := ∀ id, id ∈ s.runner.desk.tracked ↔ s.Holder id

theorem Submission.counts_of_holds (h : x.holds = true) : x.counts = true := by
  unfold Submission.holds at h
  unfold Submission.counts
  split at h
  · cases h
  · cases h
  · rename_i hlaunched _
    split
    · rename_i hstage
      exact absurd hstage hlaunched
    · rfl

theorem holder_swap (l : List Submission) (hat : s.submissions = before ++ (l ++ after)) :
    s.Holder id ↔ ((∃ y ∈ l, y.holds = true ∧ y.id = id) ∨ ∃ j ∈ s.runner.jobs, j.id = id) ∨
      ∃ y ∈ before ++ after, y.holds = true ∧ y.id = id := by
  unfold Holder
  rw [hat, or_right_comm]
  simp only [mem_swap, or_and_right, exists_or]

namespace Tracking
variable (h : s.Tracking)
include h

/-- One submission goes on, is given to a job or is answered. -/
theorem of_swap (htracked : s'.runner.desk.tracked = s.runner.desk.tracked)
    (hat : s.submissions = before ++ x :: after) (hnext : s'.submissions = before ++ (l ++ after))
    (hsame : ∀ id, ((∃ y ∈ l, y.holds = true ∧ y.id = id) ∨ ∃ j ∈ s'.runner.jobs, j.id = id) ↔
      (∃ y ∈ [x], y.holds = true ∧ y.id = id) ∨ ∃ j ∈ s.runner.jobs, j.id = id) : s'.Tracking := by
  intro id
  rw [htracked, h id, holder_swap [x] hat, holder_swap l hnext, hsame id]

theorem withdraw (hd : s.Distinct)
    (hat : s.submissions = before ++ x :: after) (hx : x.counts = true) (hy : y.holds = false) :
    Tracking { s with
      runner := { s.runner with desk := s.runner.desk.untrack x.id }
      submissions := before ++ y :: after } := by
  have hnodup := (ids_swap [x] hat).nodup_iff.mp hd.nodup
  rw [booked_one hx, List.singleton_append, List.nodup_cons, List.mem_append, not_or] at hnodup
  obtain ⟨⟨hfree, hnojob⟩, -⟩ := hnodup
  intro id
  have hold := h id
  rw [holder_swap [x] hat] at hold
  rw [holder_swap [y] rfl]
  show id ∈ s.runner.desk.tracked.filter (· != x.id) ↔ _
  simp only [List.mem_filter, hold, bne_iff_ne, List.mem_singleton, exists_eq_left, hy]
  constructor
  · rintro ⟨(⟨-, heq⟩ | hjob) | hother, hne⟩
    · exact absurd heq.symm hne
    · exact .inl (.inr hjob)
    · exact .inr hother
  · rintro ((⟨hfalse, -⟩ | ⟨j, hj, rfl⟩) | ⟨z, hz, hholds, rfl⟩)
    · cases hfalse
    · refine ⟨.inl (.inr ⟨j, hj, rfl⟩), fun heq => hnojob ?_⟩
      exact heq ▸ List.mem_map_of_mem hj
    · refine ⟨.inr ⟨z, hz, hholds, rfl⟩, fun heq => hfree ?_⟩
      exact mem_booked.mpr ⟨z, hz, Submission.counts_of_holds hholds, heq⟩

theorem steps (hd : s.Distinct) {n : Nat}
    (hs : Runner.Steps s.runner i r) : Tracking { s with runner := r, departed := n } := by
  intro id
  have hold := h id
  by_cases hother : ∀ j, s.runner.jobs[i]? = some j → j.id ≠ id
  · -- somebody else takes the step
    have haside := hs.aside hother
    have hjobs : (∃ j ∈ r.jobs, j.id = id) ↔ ∃ j ∈ s.runner.jobs, j.id = id :=
      exists_congr fun j => ⟨fun ⟨hj, hid⟩ => ⟨(haside.jobs j hid).mp hj, hid⟩,
        fun ⟨hj, hid⟩ => ⟨(haside.jobs j hid).mpr hj, hid⟩⟩
    show id ∈ r.desk.tracked ↔ (_ ∨ ∃ j ∈ r.jobs, j.id = id)
    rw [haside.tracked, hold, hjobs]
    rfl
  · simp only [not_forall, not_not] at hother
    obtain ⟨k, hk, rfl⟩ := hother
    have hnodup : (s.runner.jobs.map Job.id).Nodup := (List.nodup_append.mp hd.nodup).2.1
    have htracked := hold.mpr (.inr ⟨k, List.mem_of_getElem? hk, rfl⟩)
    cases hs with
    | nobody hnone =>
      rw [hnone] at hk
      cases hk
    | @going before after j j' desk hj hjobs hstep =>
      cases hk.symm.trans hj
      obtain ⟨calls, hcarries, -⟩ := Job.step_spec hstep
      have hkept : k.id ∈ desk.tracked := hcarries.attends.tracked ▸ htracked
      exact iff_of_true hkept (.inr ⟨j', by simp, hcarries.continues.id⟩)
    | @ended before after j desk o hj hjobs hstep =>
      cases hk.symm.trans hj
      obtain ⟨-, -, -, hdropped⟩ := Job.step_spec hstep
      refine iff_of_false (fun hmem : k.id ∈ desk.tracked => ?_) ?_
      · rw [hdropped, List.mem_filter] at hmem
        simp at hmem
      · rintro (⟨x, hx, hholds, heq⟩ | ⟨l, hl, heq⟩)
        · have hbooked := mem_booked.mpr ⟨x, hx, Submission.counts_of_holds hholds, heq⟩
          exact hd.apart hbooked k (List.mem_of_getElem? hk) rfl
        · exact ids_apart (hjobs ▸ hnodup) l hl heq

theorem effect (hd : s.Distinct) (he : Effect s m s') : s'.Tracking := by
  cases he with
  | @stands _ which r returned hjobs htracked hids =>
    intro id
    have hsubmissions : (∃ x ∈ s.submissions.map (·.tell which), x.holds = true ∧ x.id = id) ↔
        ∃ x ∈ s.submissions, x.holds = true ∧ x.id = id := by
      simp [Submission.holds, tell_stage, tell_id]
    have hids : (∃ j ∈ stopJobs (fun j => which j.id) s.runner.jobs, j.id = id) ↔
        ∃ j ∈ s.runner.jobs, j.id = id := by
      have hsame := ids_stopJobs (fun j => which j.id) s.runner.jobs
      rw [← List.mem_map, ← List.mem_map, hsame]
    show id ∈ r.desk.tracked ↔ (_ ∨ ∃ j ∈ r.jobs, j.id = id)
    rw [htracked, h id, hjobs, hids, hsubmissions]
    rfl
  | turnedAway | fails | departs => exact h
  | @admits request hopen run asked =>
    intro id
    show id ∈ s.runner.desk.tracked ++ [run.id] ↔ _
    rw [List.mem_append, List.mem_singleton, h id, eq_comm]
    simp [Holder, or_and_right, exists_or, or_right_comm, Submission.holds, Submission.id]
  | refuses hat hstage | records hat hstage =>
    exact h.of_swap (l := [_]) rfl hat rfl (by simp [Submission.holds, Submission.id, hstage])
  | withdraws hat hstage => exact h.withdraw hd hat (by simp [Submission.counts, hstage]) rfl
  | launches hat hstage hid =>
    refine h.of_swap (l := [_]) rfl hat rfl fun id => ?_
    simp [Submission.holds, hstage, hid, or_and_right, exists_or, or_comm]
  | dismisses hat hstage | accepts hat hstage =>
    exact h.of_swap (l := []) rfl hat rfl (by simp [Submission.holds, hstage])
  | @executes _ interrupted run job ledger hid hpending hcreate hjob =>
    intro id
    show id ∈ s.runner.desk.tracked ++ [run.id] ↔ (_ ∨ ∃ j ∈ s.runner.jobs ++ [job], j.id = id)
    rw [List.mem_append, List.mem_singleton, h id]
    simp only [Holder, List.mem_append, List.mem_singleton, or_and_right, exists_or, exists_eq_left,
      hjob]
    rw [or_assoc, eq_comm]
  | steps hsteps => exact h.steps hd hsteps

theorem mem_ids (hid : id ∈ s.runner.desk.tracked) : id ∈ s.ids := by
  rcases (h id).mp hid with ⟨x, hx, hholds, heq⟩ | ⟨j, hj, heq⟩
  · exact List.mem_append_left _
      (mem_booked.mpr ⟨x, hx, Submission.counts_of_holds hholds, heq⟩)
  · exact List.mem_append_right _ (List.mem_map.mpr ⟨j, hj, heq⟩)

end Tracking

/-! ### Who is counted -/

/-- Those are counted who are under way in the background or have not been counted out. -/
def Counting (s : Reception) : Prop :=
  s.waiting = (booked s.submissions).length + s.runner.jobs.countP Job.submitted + s.departed

theorem length_booked_middle (h : x.counts = true) :
    (booked (before ++ x :: after)).length = (booked (before ++ after)).length + 1 := by
  have hlength := (booked_swap before after [x]).length_eq
  rw [booked_one h, List.length_append, Nat.add_comm] at hlength
  exact hlength

/-- One submission goes on, is given to a job or is answered, and nobody is counted out. -/
theorem Counting.of_swap (h : s.Counting) (hwaiting : s'.waiting = s.waiting)
    (hdeparted : s'.departed = s.departed) (hat : s.submissions = before ++ x :: after)
    (hnext : s'.submissions = before ++ (l ++ after))
    (hcounts : (booked l).length + s'.runner.jobs.countP Job.submitted =
      (booked [x]).length + s.runner.jobs.countP Job.submitted) : s'.Counting := by
  have hold := (booked_swap before after [x]).length_eq
  have hnew := (booked_swap before after l).length_eq
  rw [← hnext, List.length_append] at hnew
  rw [List.length_append, List.singleton_append, ← hat] at hold
  unfold Counting at h ⊢
  omega

theorem Counting.steps (h : s.Counting) (hs : Runner.Steps s.runner i r) :
    Counting { s with runner := r, departed := s.departed + endings s.runner i } := by
  unfold Counting at h ⊢
  dsimp only
  cases hs with
  | nobody hnone =>
    have hnobody : endings s.runner i = 0 := by simp [endings, hnone]
    rw [hnobody]
    exact h
  | @going before after j j' desk hj hjobs hstep =>
    have hgoing : endings s.runner i = 0 := by
      simp [endings, hj, hstep, Progress.ends]
    obtain ⟨calls, hcarries, -⟩ := Job.step_spec hstep
    have hsubmitted : j'.submitted = j.submitted := hcarries.continues.submitted
    rw [hjobs] at h
    rw [hgoing]
    simpa [List.countP_append, List.countP_cons, hsubmitted] using h
  | @ended before after j desk o hj hjobs hstep =>
    have hended : endings s.runner i = if j.submitted then 1 else 0 := by
      simp [endings, hj, hstep, Progress.ends]
    rw [hjobs, List.countP_append, List.countP_cons] at h
    rw [hended, List.countP_append]
    omega

theorem Counting.effect (h : s.Counting) (he : Effect s m s') : s'.Counting := by
  cases he with
  | @stands _ which r returned hjobs =>
    have hcount : (stopJobs (fun j => which j.id) s.runner.jobs).countP Job.submitted =
        s.runner.jobs.countP Job.submitted := by
      unfold stopJobs
      rw [List.countP_map]
      refine List.countP_congr fun j _ => ?_
      show (if which j.id then { j with cancelled := true } else j).submitted = true ↔ _
      split <;> rfl
    unfold Counting at h ⊢
    dsimp only
    rw [booked_tell, hjobs, hcount]
    exact h
  | turnedAway | fails => exact h
  | @admits request hopen run asked =>
    unfold Counting at h ⊢
    dsimp only
    rw [length_booked_middle rfl, List.append_nil]
    omega
  | refuses hat hstage | records hat hstage | withdraws hat hstage =>
    refine h.of_swap (l := [_]) rfl rfl hat rfl ?_
    rw [booked_one rfl, booked_one (by simp [Submission.counts, hstage])]
    rfl
  | launches hat hstage hid hphase hsubmitted =>
    refine h.of_swap (l := [_]) rfl rfl hat rfl ?_
    simp [booked, Submission.counts, hstage, hsubmitted, Nat.add_comm]
  | @dismisses _ before after x e hat hstage =>
    have hx : x.counts = true := by simp [Submission.counts, hstage]
    unfold Counting at h ⊢
    dsimp only
    rw [hat, length_booked_middle hx] at h
    omega
  | accepts hat hstage =>
    exact h.of_swap (l := []) rfl rfl hat rfl (by simp [booked, Submission.counts, hstage])
  | @executes _ interrupted run job ledger hid hpending hcreate hjob hphase hsubmitted =>
    unfold Counting at h ⊢
    dsimp only
    rw [List.countP_append, List.countP_singleton, hsubmitted]
    exact h
  | steps hsteps => exact h.steps hsteps
  | departs =>
    unfold Counting at h ⊢
    dsimp only
    omega

/-! ### Who has been told to stop -/

/-- Once the runner is closed everyone who is counted has been told to stop. Who was withdrawn has
been told anyhow. -/
structure Told (s : Reception) : Prop where
  withdrawn : ∀ x ∈ s.submissions, x.counts = true → x.holds = false → x.cancelled = true
  submissions : s.runner.closed = true → ∀ x ∈ s.submissions, x.counts = true → x.cancelled = true
  jobs : s.runner.closed = true → ∀ j ∈ s.runner.jobs, j.submitted = true → j.cancelled = true

theorem tell_cancelled {which : Text → Bool} (h : x.cancelled = true ∨ which x.id = true) :
    (x.tell which).cancelled = true := by
  unfold Submission.tell
  split
  · rfl
  · rename_i hnot
    exact h.resolve_right hnot

/-- One submission goes on, is given to a job or is answered. -/
theorem Told.of_swap (h : s.Told) (hclosed : s'.runner.closed = s.runner.closed)
    (hat : s.submissions = before ++ x :: after) (hnext : s'.submissions = before ++ (l ++ after))
    (hown : ∀ y ∈ l, y.counts = true → x.counts = true ∧ (x.cancelled = true → y.cancelled = true) ∧
      (y.holds = false → y.cancelled = true))
    (hjobs : ∀ j ∈ s'.runner.jobs, j ∈ s.runner.jobs ∨
      x.counts = true ∧ j.cancelled = x.cancelled) : s'.Told := by
  have hself : x ∈ s.submissions := hat ▸ mem_middle.mpr (.inl rfl)
  have hothers : ∀ z ∈ before ++ after, z ∈ s.submissions :=
    fun z hz => hat ▸ mem_middle.mpr (.inr hz)
  refine ⟨fun z hz hcounts => ?_, fun hc z hz hcounts => ?_, fun hc j hj => ?_⟩
  · rcases mem_swap.mp (hnext ▸ hz) with hz | hz
    · exact (hown z hz hcounts).2.2
    · exact h.withdrawn z (hothers z hz) hcounts
  · rcases mem_swap.mp (hnext ▸ hz) with hz | hz
    · obtain ⟨hx, hcancelled, -⟩ := hown z hz hcounts
      exact hcancelled (h.submissions (hclosed ▸ hc) x hself hx)
    · exact h.submissions (hclosed ▸ hc) z (hothers z hz) hcounts
  · rcases hjobs j hj with hj | ⟨hx, hcancelled⟩
    · exact h.jobs (hclosed ▸ hc) j hj
    · exact fun _ => hcancelled ▸ h.submissions (hclosed ▸ hc) x hself hx

/-- Whoever is told to stop has been told; when the runner is closed, those are all. -/
theorem Told.of_tell (h : s.Told) (ht : s.Tracking) {which : Text → Bool}
    {returned : Bool} (hjobs : r.jobs = Runner.stopJobs (fun j => which j.id) s.runner.jobs)
    (hclosed : r.closed = s.runner.closed ∨ (r.closed = true ∧ which = s.runner.isActive)) :
    Told { s with runner := r, submissions := s.submissions.map (·.tell which), returned } := by
  refine ⟨fun y hy => ?_, fun hc y hy => ?_, fun hc j' hj' hsubmitted => ?_⟩
  · obtain ⟨x, hx, rfl⟩ := List.mem_map.mp hy
    rw [tell_counts, Submission.holds, tell_stage]
    exact fun hcounts hholds => tell_cancelled (.inl (h.withdrawn x hx hcounts hholds))
  · obtain ⟨x, hx, rfl⟩ := List.mem_map.mp hy
    rw [tell_counts]
    intro hcounts
    refine tell_cancelled ?_
    rcases hclosed with hsame | ⟨-, rfl⟩
    · exact .inl (h.submissions (hsame ▸ hc) x hx hcounts)
    · cases hholds : x.holds with
      | true => exact .inr (List.contains_iff_mem.mpr ((ht x.id).mpr (.inl ⟨x, hx, hholds, rfl⟩)))
      | false => exact .inl (h.withdrawn x hx hcounts hholds)
  · dsimp only at hj'
    rw [hjobs] at hj'
    obtain ⟨j, hj, hsame, hid, -, hflag⟩ := mem_stopJobs hj'
    rw [hsame]
    split
    · rfl
    · rename_i hnot
      rcases hclosed with hstays | ⟨-, rfl⟩
      · exact h.jobs (hstays ▸ hc) j hj (hflag ▸ hsubmitted)
      · exact absurd (List.contains_iff_mem.mpr ((ht j.id).mpr (.inr ⟨j, hj, rfl⟩))) hnot

theorem Told.effect (h : s.Told) (ht : s.Tracking) (he : Effect s m s') : s'.Told := by
  cases he with
  | @stands _ which r returned hjobs htracked hids hissued hclosed =>
    exact h.of_tell ht hjobs hclosed
  | turnedAway | fails | departs => exact ⟨h.withdrawn, h.submissions, h.jobs⟩
  | @admits request hopen run asked =>
    have hnot : ∀ {p : Prop}, s.runner.closed = true → p := fun hc => by
      rw [hopen] at hc
      cases hc
    refine ⟨fun x hx => ?_, hnot, hnot⟩
    rcases List.mem_append.mp hx with hx | hx
    · exact h.withdrawn x hx
    · rw [List.mem_singleton.mp hx]
      exact fun _ hholds => by cases hholds
  | refuses hat hstage | records hat hstage | withdraws hat hstage =>
    exact h.of_swap (l := [_]) rfl hat rfl
      (by simp [Submission.counts, Submission.holds, hstage]) (fun _ => .inl)
  | launches hat hstage hid hphase hsubmitted hcancelled =>
    refine h.of_swap (l := [_]) rfl hat rfl (by simp [Submission.counts]) fun j hj => ?_
    refine (List.mem_append.mp hj).imp_right fun hj => ?_
    rw [List.mem_singleton.mp hj]
    exact ⟨by simp [Submission.counts, hstage], hcancelled⟩
  | dismisses hat | accepts hat =>
    exact h.of_swap (l := []) rfl hat rfl (by simp) (fun _ => .inl)
  | @executes _ interrupted run job ledger hid hpending hcreate hjob hphase hsubmitted =>
    refine ⟨h.withdrawn, h.submissions, fun hclosed j hj => ?_⟩
    rcases List.mem_append.mp hj with hj | hj
    · exact h.jobs hclosed j hj
    · rw [List.mem_singleton.mp hj, hsubmitted]
      exact fun hflag => by cases hflag
  | steps hsteps =>
    have hsame := (steps_ids hsteps).2.2
    refine ⟨h.withdrawn, fun hclosed => h.submissions (hsame ▸ hclosed), fun hclosed j' hj' => ?_⟩
    obtain ⟨j, hj, -, hsubmitted, hcancelled⟩ := steps_jobs hsteps j' hj'
    rw [hsubmitted, hcancelled]
    exact h.jobs (hsame ▸ hclosed) j hj

end Regatta.Reception
