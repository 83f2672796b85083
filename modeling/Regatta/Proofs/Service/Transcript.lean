import Mathlib.Data.List.Infix
import Regatta.Proofs.Log.Delivery
import Regatta.Proofs.Service.Remarks
import Regatta.Proofs.Store.Lines

/-! How the lines of a run are written down while its tools go on.

Every line that a tool writes is a remark, and goes through three hands: it gets the next number, it is
kept in the store under that number, and it is passed on to listeners. Stages come one after the other,
but engines work at once, and between the three hands of one engine's remark anything may happen: other
engines' remarks get on, listeners join, read and leave, other runs use the store and the broker. What
one tool says is handled in its order all the same, and engines speak after the stages have been heard.

A `Transcript` makes these moves in any order. When all remarks have been passed on, the store gives
them back numbered from zero on, without a gap, in an order that every source could have spoken in; so
does one who listened from the start (`transcript_orderly`). -/
namespace Regatta

def Store.Operation.line? : Store.Operation → Option Text
  | .insertLine _ run _ _ => some run
  | _ => none

structure Transcript where
  id : Text
  engines : List Engine
  verification : Progress Verification Verification.Outcome
  /-- All remarks so far, in the order in which they were made. -/
  remarks : List (Remark × Handling)
  counter : Int32
  ledger : Ledger
  audience : Audience
  /-- The remarks in the order of their numbers. -/
  told : List Remark
  /-- The remarks in the order in which they were passed on. -/
  aired : List Remark

namespace Transcript

inductive Move where
  | report (b : Bench) (stop : Bool)
  | number (k : Nat)
  | keep (k : Nat) (now : Instant)
  | pass (k : Nat)
  | listen (o : Audience.Operation)
  | store (o : Store.Operation)

def start (b : Bench) (o : Verification.Options) (q : Verification.Request) (ledger : Ledger) :
    Transcript :=
  ⟨q.id, q.engines, (Verification.start b o q).2, [], 0, ledger, .empty, [], []⟩

def report (t : Transcript) (b : Bench) (stop : Bool) : Transcript :=
  match t.verification with
  | .ended _ => t
  | .going v =>
    let made := (v.step b stop).2.1.filterMap (Remark.of? v.transforms)
    { t with
      verification := (v.step b stop).2.2
      remarks := t.remarks ++ made.map fun x => (x, .made) }

/-- Whether nothing is left for which this remark has to wait. -/
def ready (t : Transcript) (k : Nat) (x : Remark) : Bool :=
  (t.remarks.take k).all fun y => !x.awaits t.engines y.1 || y.2 == .passed

def handled (t : Transcript) (k : Nat) (x : Remark) (h : Handling) : Transcript :=
  { t with remarks := t.remarks.set k (x, h) }

/-- What a move does. One that cannot be made does nothing. -/
def next (t : Transcript) : Move → Transcript
  | .report b stop => t.report b stop
  | .number k =>
    match t.remarks[k]? with
    | some (x, .made) =>
      if t.ready k x then
        { t.handled k x (.numbered t.counter.toInt) with
          counter := t.counter + 1
          told := t.told ++ [x] }
      else t
    | _ => t
  | .keep k now =>
    match t.remarks[k]? with
    | some (x, .numbered seq) =>
      { t.handled k x .kept with
        ledger := (t.ledger.insertLine now t.id seq x.text).toOption.getD t.ledger }
    | _ => t
  | .pass k =>
    match t.remarks[k]? with
    | some (x, .kept) =>
      { t.handled k x .passed with
        audience := t.audience.next ⟨t.id, .publish x.text⟩
        aired := t.aired ++ [x] }
    | _ => t
  | .listen o =>
    if o.run = t.id ∧ (o.act.line?.isSome ∨ o.act = .close) then t
    else { t with audience := t.audience.next o }
  | .store o =>
    if o.line? = some t.id then t
    else { t with ledger := { t.ledger with store := t.ledger.store.next o } }

def run (t : Transcript) : List Move → Transcript
  | [] => t
  | m :: rest => (t.next m).run rest

theorem run_append (t : Transcript) (before after : List Move) :
    t.run (before ++ after) = (t.run before).run after := by
  induction before generalizing t with
  | nil => rfl
  | cons m rest ih => exact ih _

/-- What a move can do to a transcript. -/
inductive Step (t : Transcript) : Move → Transcript → Prop
  | idle (m : Move) : Step t m t
  | report {v : Verification} (hv : t.verification = .going v) (b : Bench) (stop : Bool) :
    Step t (.report b stop) { t with
      verification := (v.step b stop).2.2
      remarks := t.remarks ++
        ((v.step b stop).2.1.filterMap (Remark.of? v.transforms)).map fun x => (x, .made) }
  | number {a b : List (Remark × Handling)} {x : Remark}
    (hremarks : t.remarks = a ++ (x, .made) :: b)
    (hready : ∀ y ∈ a, x.awaits t.engines y.1 = true → y.2 = .passed) :
    Step t (.number a.length) { t with
      remarks := a ++ (x, .numbered t.counter.toInt) :: b
      counter := t.counter + 1
      told := t.told ++ [x] }
  | keep {a b : List (Remark × Handling)} {x : Remark} {seq : Int}
    (hremarks : t.remarks = a ++ (x, .numbered seq) :: b) (now : Instant) :
    Step t (.keep a.length now) { t with
      remarks := a ++ (x, .kept) :: b
      ledger := (t.ledger.insertLine now t.id seq x.text).toOption.getD t.ledger }
  | pass {a b : List (Remark × Handling)} {x : Remark}
    (hremarks : t.remarks = a ++ (x, .kept) :: b) :
    Step t (.pass a.length) { t with
      remarks := a ++ (x, .passed) :: b
      audience := t.audience.next ⟨t.id, .publish x.text⟩
      aired := t.aired ++ [x] }
  | listen {o : Audience.Operation} (ho : o.run = t.id → o.act.line? = none ∧ o.act ≠ .close) :
    Step t (.listen o) { t with audience := t.audience.next o }
  | store {o : Store.Operation} (ho : o.line? ≠ some t.id) :
    Step t (.store o) { t with ledger := { t.ledger with store := t.ledger.store.next o } }

theorem step_next (t : Transcript) (m : Move) : Step t m (t.next m) := by
  cases m with
  | report b stop =>
    show Step t _ (t.report b stop)
    unfold Transcript.report
    split
    · exact .idle _
    · exact .report (by assumption) b stop
  | number k =>
    simp only [next]
    split
    · rename_i x hk
      split
      · rename_i hready
        obtain ⟨a, b, hremarks, rfl⟩ := exists_split hk
        have hwaited : ∀ y ∈ a, x.awaits t.engines y.1 = true → y.2 = .passed := by
          intro y hy hawaits
          have hall := List.all_eq_true.mp hready y (by simp [hremarks, hy])
          simpa [hawaits] using hall
        simpa [handled, hremarks] using Step.number hremarks hwaited
      · exact .idle _
    · exact .idle _
  | keep k now =>
    simp only [next]
    split
    · rename_i x seq hk
      obtain ⟨a, b, hremarks, rfl⟩ := exists_split hk
      simpa [handled, hremarks] using Step.keep hremarks now
    · exact .idle _
  | pass k =>
    simp only [next]
    split
    · rename_i x hk
      obtain ⟨a, b, hremarks, rfl⟩ := exists_split hk
      simpa [handled, hremarks] using Step.pass hremarks
    · exact .idle _
  | listen o =>
    simp only [next]
    split
    · exact .idle _
    · rename_i ho
      exact .listen fun hrun => by simpa [hrun, not_or] using ho
  | store o =>
    simp only [next]
    split
    · exact .idle _
    · exact .store (by assumption)

variable {m : Move} {q : Verification.Request} {t t' : Transcript} {i : Nat} {moves : List Move}
  {x : Remark}

/-! ### What every move keeps -/

/-- The remarks are those of the request's stages and engines, stages first. -/
structure Voiced (q : Verification.Request) (t : Transcript) : Prop where
  id : t.id = q.id
  engines : t.engines = q.engines
  fits : t.verification.Holds (Verification.Fits q) fun _ => True
  named : ∀ x ∈ t.remarks, x.1.Named q
  sorted : StagesFirst (t.remarks.map (·.1))
  /-- While a stage is at work, no engine has spoken. -/
  staged : ∀ v, t.verification = .going v → v.transforms = true →
    ∀ x ∈ t.remarks, x.1.staged = true

theorem Voiced.handle (h : t.Voiced q) (hid : t'.id = t.id) (hengines : t'.engines = t.engines)
    (hv : t'.verification = t.verification) {a b : List (Remark × Handling)} {h₁ h₂ : Handling}
    (hremarks : t.remarks = a ++ (x, h₁) :: b) (hremarks' : t'.remarks = a ++ (x, h₂) :: b) :
    t'.Voiced q := by
  have hsame : t'.remarks.map (·.1) = t.remarks.map (·.1) := by
    simp [hremarks, hremarks']
  have hmem : ∀ {P : Remark → Prop}, (∀ x ∈ t.remarks, P x.1) → ∀ x ∈ t'.remarks, P x.1 := by
    intro P hall y hy
    have hy : y.1 ∈ t.remarks.map (·.1) := hsame ▸ List.mem_map_of_mem hy
    obtain ⟨z, hz, heq⟩ := List.mem_map.mp hy
    exact heq ▸ hall z hz
  refine ⟨hid.trans h.id, hengines.trans h.engines, hv ▸ h.fits, hmem h.named, hsame ▸ h.sorted,
    fun v hgoing hstage => ?_⟩
  exact hmem (P := fun x => x.staged = true) (h.staged v (hv ▸ hgoing) hstage)

theorem Voiced.step (h : t.Voiced q) (hstep : Step t m t') : t'.Voiced q := by
  cases hstep with
  | idle => exact h
  | @report v hv b stop =>
    have hfits := h.fits
    rw [hv] at hfits
    obtain ⟨hspoken, hthen⟩ := Verification.step_voices hfits b stop
    have hmade : ∀ x ∈ (v.step b stop).2.1.filterMap (Remark.of? v.transforms),
        x.staged = v.transforms ∧ x.Named q := by
      intro x hx
      obtain ⟨e, he, hof⟩ := List.mem_filterMap.mp hx
      cases e with
      | line source text =>
        cases hof
        exact ⟨rfl, hspoken source text he⟩
      | result r => cases hof
    refine ⟨h.id, h.engines, ?_, fun x hx => ?_, ?_, fun v' hv' hstage x hx => ?_⟩
    · show (v.step b stop).2.2.Holds _ _
      cases hp : (v.step b stop).2.2 with
      | going v' =>
        rw [hp] at hthen
        exact hthen.1
      | ended o => trivial
    · rcases List.mem_append.mp hx with hx | hx
      · exact h.named x hx
      · obtain ⟨y, hy, rfl⟩ := List.mem_map.mp hx
        exact (hmade y hy).2
    · show StagesFirst ((t.remarks ++ _).map _)
      rw [List.map_append, List.map_map,
        show ((·.1) ∘ fun x : Remark => (x, Handling.made)) = fun x => x from rfl, List.map_id']
      refine List.pairwise_append.mpr ⟨h.sorted, ?_, fun y hy x hx hstaged => ?_⟩
      · exact List.Pairwise.imp_of_mem
          (fun hy hx _ hstaged => ((hmade _ hy).1.trans (hmade _ hx).1.symm).trans hstaged)
          (List.pairwise_of_forall fun _ _ => trivial)
      · obtain ⟨e, he, rfl⟩ := List.mem_map.mp hy
        exact h.staged v hv ((hmade x hx).1.symm.trans hstaged) e he
    · rw [show (v.step b stop).2.2 = .going v' from hv'] at hthen
      have hstill : v.transforms = true := by
        by_contra hnot
        rw [hthen.2 (Bool.eq_false_iff.mpr hnot)] at hstage
        exact Bool.false_ne_true hstage
      rcases List.mem_append.mp hx with hx | hx
      · exact h.staged v hv hstill x hx
      · obtain ⟨y, hy, rfl⟩ := List.mem_map.mp hx
        exact (hmade y hy).1.trans hstill
  | number hremarks | keep hremarks | pass hremarks => exact h.handle rfl rfl rfl hremarks rfl
  | listen | store => exact ⟨h.id, h.engines, h.fits, h.named, h.sorted, h.staged⟩

/-- Numbers are given and remarks passed on in orders that fit. -/
structure Ordered (t : Transcript) : Prop where
  patient : Patient t.engines t.remarks
  told : Arranged t.engines (settled Handling.begun t.remarks) t.told
  aired : Arranged t.engines (settled (· == .passed) t.remarks) t.aired

theorem Ordered.step (h : t.Ordered) (hvoiced : t.Voiced q) (hstep : Step t m t') : t'.Ordered := by
  obtain ⟨hpatient, htold, haired⟩ := h
  have hsorted := hvoiced.sorted
  cases hstep with
  | idle | listen | store => exact ⟨hpatient, htold, haired⟩
  | @report v hv b stop =>
    refine ⟨hpatient.made _, ?_, ?_⟩
    · rw [settled_made rfl]
      exact htold
    · rw [settled_made rfl]
      exact haired
  | @number a b x hremarks hready =>
    rw [hremarks] at hpatient htold haired hsorted
    exact ⟨hpatient.handle (by simp) hready,
      htold.settle rfl rfl hsorted (hpatient.later (by simp)), haired.handle rfl⟩
  | @keep a b x seq hremarks now =>
    rw [hremarks] at hpatient htold haired
    exact ⟨hpatient.handle (by simp) (hpatient.waited rfl), htold.handle rfl, haired.handle rfl⟩
  | @pass a b x hremarks =>
    rw [hremarks] at hpatient htold haired hsorted
    have hlater : ∀ y ∈ b, (y.2 == .passed) = true → y.1.awaits t.engines x = false := by
      intro y hy hpassed
      exact hpatient.later (by simp) y hy (by rw [beq_iff_eq.mp hpassed]; rfl)
    exact ⟨hpatient.handle (by simp) (hpatient.waited rfl), htold.handle rfl,
      haired.settle rfl rfl hsorted hlater⟩

/-! ### The store -/

def counted (texts : List Text) : List (Int × Text) :=
  texts.zipIdx.map fun x => ((Int32.ofNat x.2).toInt, x.1)

theorem counted_concat (texts : List Text) (text : Text) :
    counted (texts ++ [text]) = counted texts ++ [((Int32.ofNat texts.length).toInt, text)] := by
  simp [counted, List.zipIdx_append]

/-- Below its limit the counter counts. -/
theorem counted_eq {texts : List Text} (h : texts.length ≤ 2147483648) :
    counted texts = Store.inOrder texts := by
  refine List.map_congr_left fun x hx => ?_
  have hlt : x.2 < texts.length := by
    obtain ⟨hlt, -⟩ := List.getElem?_eq_some_iff.mp (List.mk_mem_zipIdx_iff_getElem?.mp hx)
    exact hlt
  rw [Int32.toInt_ofNat_of_lt (by omega)]

/-- A remark that has its number and is not kept yet. -/
def pending : Remark × Handling → Option (Int × Text)
  | (x, .numbered seq) => some (seq, x.text)
  | _ => none

theorem filterMap_pending (a b : List (Remark × Handling)) (e : Remark × Handling) :
    (a ++ e :: b).filterMap pending =
      a.filterMap pending ++ (pending e).toList ++ b.filterMap pending := by
  cases h : pending e <;> simp [h]

structure Kept (q : Verification.Request) (t : Transcript) : Prop where
  willing : t.ledger.Willing
  dated : ∀ row ∈ t.ledger.store.linesOf q.id, Store.Dated row
  counter : t.counter = Int32.ofNat t.told.length
  rows : ((t.ledger.store.linesOf q.id).map (fun row => (row.seq, row.line)) ++
    t.remarks.filterMap pending).Perm (counted (t.told.map Remark.text))

/-- The times at which lines are kept can be written. -/
def Move.Dated : Move → Prop
  | .keep _ now => Stamp.Writable now
  | _ => True

theorem Kept.step (h : t.Kept q)
    (hid : t.id = q.id) (hm : m.Dated) (hstep : Step t m t') : t'.Kept q := by
  obtain ⟨hwilling, hdated, hcounter, hrows⟩ := h
  cases hstep with
  | idle | listen => exact ⟨hwilling, hdated, hcounter, hrows⟩
  | report hv b stop =>
    refine ⟨hwilling, hdated, hcounter, ?_⟩
    have hmade : ∀ more : List Remark, (more.map fun x => (x, Handling.made)).filterMap pending = [] := by
      intro more
      simp [pending]
    simpa [hmade] using hrows
  | @number a b x hremarks =>
    refine ⟨hwilling, hdated, ?_, ?_⟩
    · show t.counter + 1 = Int32.ofNat (t.told ++ [x]).length
      rw [hcounter, List.length_append, Int32.ofNat_add]
      rfl
    · rw [hremarks, filterMap_pending] at hrows
      show List.Perm (_ ++ (a ++ _ :: b).filterMap pending) (counted ((t.told ++ [x]).map _))
      rw [filterMap_pending, List.map_append, List.map_singleton, counted_concat, List.length_map,
        ← hcounter]
      refine List.Perm.trans (List.perm_iff_count.mpr fun z => ?_)
        (hrows.append_right [(t.counter.toInt, x.text)])
      simp only [pending, Option.toList_some, Option.toList_none, List.count_append, List.count_nil]
      omega
  | @keep a b x seq hremarks now =>
    obtain ⟨l', row, hinsert, hwilling', hlines, hrow, hstamp⟩ :=
      hwilling.insertLine now q.id seq x.text
    rw [hid, hinsert]
    refine ⟨hwilling', fun r hr => ?_, hcounter, ?_⟩
    · change r ∈ l'.store.linesOf q.id at hr
      rw [hlines] at hr
      rcases List.mem_append.mp hr with hr | hr
      · exact hdated r hr
      · cases List.mem_singleton.mp hr
        exact ⟨now, hm, hstamp⟩
    · rw [hremarks, filterMap_pending] at hrows
      show List.Perm ((l'.store.linesOf q.id).map _ ++ (a ++ _ :: b).filterMap pending) _
      rw [hlines, filterMap_pending, List.map_append, List.map_singleton, hrow]
      refine List.Perm.trans (List.perm_iff_count.mpr fun z => ?_) hrows
      simp only [pending, Option.toList_some, Option.toList_none, List.count_append, List.count_nil]
      omega
  | @pass a b x hremarks =>
    refine ⟨hwilling, hdated, hcounter, ?_⟩
    rw [hremarks, filterMap_pending] at hrows
    show List.Perm (_ ++ (a ++ _ :: b).filterMap pending) _
    rw [filterMap_pending]
    exact hrows
  | @store o ho =>
    have hlines : (t.ledger.store.next o).linesOf q.id = t.ledger.store.linesOf q.id :=
      Store.rowsOf_next.1 fun now seq line heq => ho (by rw [heq, hid]; rfl)
    refine ⟨⟨hwilling.refusals, (Store.next_isOpen _ o).trans hwilling.isOpen⟩, ?_, hcounter, ?_⟩
    · rw [hlines]
      exact hdated
    · rw [hlines]
      exact hrows

/-! ### The listeners -/

/-- Nobody but the run itself has published for it. -/
def Heard (q : Verification.Request) (t : Transcript) : Prop :=
  ∃ ops, t.audience = Audience.empty.run ops ∧
    Audience.published q.id ops = t.aired.map Remark.text ∧ ⟨q.id, .close⟩ ∉ ops

theorem Heard.placed (h : t.Heard q) : t.audience.Placed ∧ (t.audience.feed q.id).Sound := by
  obtain ⟨ops, hops, -⟩ := h
  rw [hops]
  exact ⟨Audience.placed_empty.run ops, Audience.sound_feed q.id ops⟩

theorem Heard.step (h : t.Heard q) (hid : t.id = q.id) (hstep : Step t m t') : t'.Heard q := by
  obtain ⟨ops, hops, hpublished, hclose⟩ := h
  cases hstep with
  | @pass a b x =>
    refine ⟨ops ++ [⟨q.id, .publish x.text⟩], ?_, ?_, ?_⟩
    · rw [Audience.run_append, ← hops, ← hid]
      rfl
    · rw [Audience.published_append, hpublished, List.map_append]
      simp [Audience.published, Audience.actsOn, Audience.Act.line?]
    · simpa using hclose
  | @listen o ho =>
    refine ⟨ops ++ [o], ?_, ?_, ?_⟩
    · rw [Audience.run_append, ← hops]
      rfl
    · rw [Audience.published_append, hpublished]
      by_cases hrun : o.run = q.id
      · simp [Audience.published, Audience.actsOn, hrun, (ho (hrun.trans hid.symm)).1]
      · simp [Audience.published, Audience.actsOn, hrun]
    · rw [List.mem_append, List.mem_singleton]
      rintro (hmem | rfl)
      · exact hclose hmem
      · exact (ho hid.symm).2 rfl
  | _ => exact ⟨ops, hops, hpublished, hclose⟩

/-- The `i`th who joined has received everything so far, and still listens. -/
def Follows (q : Verification.Request) (i : Nat) (t : Transcript) : Prop :=
  ∃ g, (t.audience.feed q.id).guests[i]? = some g ∧ g.listens = true ∧
    g.received = t.aired.map Remark.text

theorem Follows.step (h : t.Follows q i) (hheard : t.Heard q) (hid : t.id = q.id)
    (hroom : (t.audience.waiting q.id i).length < backlog)
    (hm : m ≠ .listen ⟨q.id, .unsubscribe i⟩) (hstep : Step t m t') : t'.Follows q i := by
  obtain ⟨g, hg, hlistens, hreceived⟩ := h
  rw [Audience.waiting_eq hg] at hroom
  have hown : ∀ act, ((t.audience.next ⟨q.id, act⟩).feed q.id).guests[i]? = some (g.next i act) := by
    intro act
    rw [Audience.feed_next hheard.placed.1, if_pos rfl]
    exact Feed.getElem?_guests_next hheard.placed.2 hg act
  cases hstep with
  | @pass a b x =>
    refine ⟨g.next i (.publish x.text), ?_, ?_, ?_⟩
    · rw [hid]
      exact hown _
    · rw [Guest.listens_next]
      simp [hlistens]
    · rw [Guest.received_next, if_pos ⟨hlistens, hroom⟩, hreceived, List.map_append]
      rfl
  | @listen o ho =>
    obtain ⟨run, act⟩ := o
    by_cases hrun : run = q.id
    · subst hrun
      obtain ⟨hline, hclose⟩ := ho hid.symm
      refine ⟨g.next i act, hown act, ?_, ?_⟩
      · rw [Guest.listens_next]
        exact ⟨hlistens, hclose, fun hact => hm (by rw [hact])⟩
      · rw [Guest.received_next, show act.line? = none from hline, hreceived]
        simp
    · refine ⟨g, ?_, hlistens, hreceived⟩
      rw [Audience.feed_next hheard.placed.1, if_neg hrun]
      exact hg
  | _ => exact ⟨g, hg, hlistens, hreceived⟩

/-! ### Whole transcripts -/

structure Sound (q : Verification.Request) (t : Transcript) : Prop where
  voiced : t.Voiced q
  ordered : t.Ordered
  kept : t.Kept q
  heard : t.Heard q

theorem Sound.next (h : t.Sound q) (hm : m.Dated) : (t.next m).Sound q :=
  have hstep := step_next t m
  ⟨h.voiced.step hstep, h.ordered.step h.voiced hstep, h.kept.step h.voiced.id hm hstep,
    h.heard.step h.voiced.id hstep⟩

theorem Sound.run (h : t.Sound q) (hmoves : ∀ m ∈ moves, m.Dated) : (t.run moves).Sound q := by
  induction moves generalizing t with
  | nil => exact h
  | cons m rest ih =>
    exact ih (h.next (hmoves m (List.mem_cons_self ..)))
      fun x hx => hmoves x (List.mem_cons_of_mem _ hx)

theorem sound_start (b : Bench) (o : Verification.Options) (q : Verification.Request)
    {ledger : Ledger} (hwilling : ledger.Willing) (hnew : ledger.store.linesOf q.id = []) :
    (start b o q ledger).Sound q where
  voiced := ⟨rfl, rfl, Verification.start_fits b o q, fun _ hx => absurd hx List.not_mem_nil,
    List.Pairwise.nil, fun _ _ _ _ hx => absurd hx List.not_mem_nil⟩
  ordered := ⟨List.Pairwise.nil, arranged_nil, arranged_nil⟩
  kept := by
    refine ⟨hwilling, ?_, rfl, ?_⟩
    · show ∀ row ∈ ledger.store.linesOf q.id, _
      rw [hnew]
      exact fun _ hrow => absurd hrow List.not_mem_nil
    · show List.Perm ((ledger.store.linesOf q.id).map _ ++ []) _
      rw [hnew]
      exact List.Perm.refl _
  heard := ⟨[], rfl, rfl, List.not_mem_nil⟩

theorem Follows.run (h : t.Follows q i) (hsound : t.Sound q) (hmoves : ∀ m ∈ moves, m.Dated)
    (hstays : Move.listen ⟨q.id, .unsubscribe i⟩ ∉ moves)
    (hroom : ∀ part, part <+: moves → ((t.run part).audience.waiting q.id i).length < backlog) :
    (t.run moves).Follows q i := by
  induction moves generalizing t with
  | nil => exact h
  | cons m rest ih =>
    have hm := hmoves m (List.mem_cons_self ..)
    refine ih (h.step hsound.heard hsound.voiced.id (hroom [] List.nil_prefix)
      (fun heq => hstays (heq ▸ List.mem_cons_self ..)) (step_next t m)) (hsound.next hm)
      (fun x hx => hmoves x (List.mem_cons_of_mem _ hx))
      (fun hmem => hstays (List.mem_cons_of_mem _ hmem)) fun part hpart => ?_
    exact hroom (m :: part) (List.cons_prefix_cons.mpr ⟨rfl, hpart⟩)

/-! ### Jobs -/

/-- A transcript and a job at its desk have kept the same, and count alike. -/
structure Matches (t : Transcript) (s : Job × Desk) : Prop where
  id : s.1.id = t.id
  ledger : s.2.ledger = t.ledger
  broker : s.2.broker = t.audience.broker
  counter : s.1.lines = t.counter

section Jobs
variable {j : Job} {d : Desk} {a b : List (Remark × Handling)}

theorem record_eq (d : Desk) (message : Text) (x : Except StoreError Ledger) :
    (d.record message x).ledger = x.toOption.getD d.ledger ∧
      (d.record message x).broker = d.broker ∧ (d.record message x).now = d.now := by
  cases x <;> exact ⟨rfl, rfl, rfl⟩

theorem now_keep (s : Job × Desk) (e : RaceEvent) : (Job.keep s e).2.now = s.2.now := by
  cases e <;> exact (record_eq _ _ _).2.2

/-- To keep a line is to number, keep and pass on a remark with nobody in between. -/
theorem Matches.line (h : t.Matches (j, d)) (hremarks : t.remarks = a ++ (x, .made) :: b)
    (hpassed : ∀ y ∈ a, y.2 = .passed) :
    let t' := t.run [.number a.length, .keep a.length d.now, .pass a.length]
    t'.Matches (Job.keep (j, d) (.line x.source x.line)) ∧ t'.remarks = a ++ [(x, .passed)] ++ b := by
  have hready : t.ready a.length x = true := by
    unfold ready
    rw [hremarks, List.take_left']
    · exact List.all_eq_true.mpr fun y hy => by simp [hpassed y hy]
    · rfl
  have hrun : t.run [.number a.length, .keep a.length d.now, .pass a.length] = { t with
      remarks := a ++ (x, .passed) :: b
      counter := t.counter + 1
      ledger := (t.ledger.insertLine d.now t.id t.counter.toInt x.text).toOption.getD t.ledger
      audience := t.audience.next ⟨t.id, .publish x.text⟩
      told := t.told ++ [x]
      aired := t.aired ++ [x] } := by
    simp [run, next, hready, handled, hremarks]
  obtain ⟨hid, hledger, hbroker, hcounter⟩ := h
  obtain ⟨hkept, hpublished, -⟩ := record_eq (d.note .debug "tool output")
    "failed to persist log line" (d.ledger.insertLine d.now j.id j.lines.toInt x.text)
  intro t'
  rw [show t' = _ from hrun]
  refine ⟨⟨hid, ?_, ?_, congrArg (· + 1) hcounter⟩, by simp⟩
  · refine hkept.trans ?_
    show (d.ledger.insertLine ..).toOption.getD d.ledger = _
    rw [hledger, hid, hcounter]
  · refine (congrArg (Broker.publish · j.id x.text) hpublished).trans ?_
    show d.broker.publish j.id x.text = _
    rw [hbroker, hid]
    rfl

theorem Matches.result (h : t.Matches (j, d)) (hwilling : t.ledger.Willing) (r : EngineResult) :
    let t' := t.run [.store (.insertResult d.now j.id j.results.toInt r)]
    t'.Matches (Job.keep (j, d) (.result r)) ∧ t'.remarks = t.remarks := by
  obtain ⟨hid, hledger, hbroker, hcounter⟩ := h
  obtain ⟨hkept, hpublished, -⟩ := record_eq d "failed to persist engine result"
    (d.ledger.insertResult d.now j.id j.results.toInt r)
  have hrun : t.run [.store (.insertResult d.now j.id j.results.toInt r)] = { t with ledger :=
      { t.ledger with store := t.ledger.store.next (.insertResult d.now j.id j.results.toInt r) } } := by
    simp [run, next, Store.Operation.line?]
  intro t'
  rw [show t' = _ from hrun]
  refine ⟨⟨hid, hkept.trans ?_, hpublished.trans hbroker, hcounter⟩, rfl⟩
  rw [hledger, Ledger.insertResult, hwilling.change]
  cases hinsert : t.ledger.store.insertResult d.now j.id j.results.toInt r <;>
    simp [Store.next, Store.Operation.attempt, hinsert, Except.map, Except.toOption]

/-- **A job that keeps what is reported in one go makes such moves.** -/
theorem Matches.keep {s : Job × Desk} (h : t.Matches s) (hsound : t.Sound q)
    (hnow : Stamp.Writable s.2.now) (staged : Bool) {events : List RaceEvent}
    (hremarks : t.remarks = a ++ (events.filterMap (Remark.of? staged)).map fun x => (x, .made))
    (hpassed : ∀ y ∈ a, y.2 = .passed) : ∃ moves, (∀ m ∈ moves, m.Dated) ∧
      (t.run moves).Matches (events.foldl Job.keep s) ∧ ∀ x ∈ (t.run moves).remarks, x.2 = .passed := by
  induction events generalizing t s a with
  | nil =>
    rw [List.filterMap_nil, List.map_nil, List.append_nil] at hremarks
    exact ⟨[], fun _ hm => absurd hm List.not_mem_nil, h, hremarks ▸ hpassed⟩
  | cons e rest ih =>
    obtain ⟨call, hdated, hmatches, a', hremarks', hpassed'⟩ : ∃ call, (∀ m ∈ call, m.Dated) ∧
        (t.run call).Matches (Job.keep s e) ∧ ∃ a', (t.run call).remarks =
          a' ++ ((rest.filterMap (Remark.of? staged)).map fun x => (x, .made)) ∧
          ∀ y ∈ a', y.2 = .passed := by
      cases e with
      | line source text =>
        obtain ⟨hmatches, hthen⟩ := h.line (x := ⟨staged, source, text⟩) hremarks hpassed
        refine ⟨_, ?_, hmatches, _, hthen, ?_⟩
        · simp [Move.Dated, hnow]
        · simpa [or_imp, forall_and] using hpassed
      | result r =>
        obtain ⟨hmatches, hthen⟩ := h.result hsound.kept.willing r
        exact ⟨_, by simp [Move.Dated], hmatches, a, hthen.trans hremarks, hpassed⟩
    obtain ⟨moves, hmoves, hend⟩ := ih hmatches (hsound.run hdated) ((now_keep s e).symm ▸ hnow)
      hremarks' hpassed'
    refine ⟨call ++ moves, fun m hm => (List.mem_append.mp hm).elim (hdated m) (hmoves m), ?_⟩
    rw [run_append]
    exact hend

end Jobs

theorem follows_joined (h : t.Sound q)
    (hfirst : t.aired = []) : (t.next (.listen ⟨q.id, .subscribe⟩)).Follows q
      (t.audience.listeners q.id).length := by
  obtain ⟨ops, hops, hpublished, hclose⟩ := h.heard
  have hnext : t.next (.listen ⟨q.id, .subscribe⟩) =
      { t with audience := t.audience.next ⟨q.id, .subscribe⟩ } := by
    simp [Transcript.next, Audience.Act.line?]
  rw [hnext]
  refine ⟨_, Audience.guests_subscribe h.heard.placed.1, ?_, ?_⟩
  · rw [hops, Audience.newcomer_feed, if_neg hclose]
  · rw [hops, Audience.newcomer_feed, if_neg hclose, hpublished, hfirst]
    simp [Guest.received, newest]

theorem Voiced.orderly (h : t.Voiced q)
    {told : List Remark} (htold : Arranged t.engines (t.remarks.map (·.1)) told) :
    Orderly q (t.remarks.map (·.1)) told where
  toArranged := h.engines ▸ htold
  named x hx := by
    obtain ⟨e, he, rfl⟩ := List.mem_map.mp (htold.perm.mem_iff.mp hx)
    exact h.named e he

/-- However the calls of the tools get in each other's way, what is kept has no gap and no remark
twice, and is in order for each source. So is what a listener receives who never lags behind. A job
that keeps all that one step of its verification reports, and does nothing else, makes such moves. -/
theorem transcript_orderly (b : Bench) (o : Verification.Options) (q : Verification.Request)
    (ledger : Ledger) (moves : List Move) (hwilling : ledger.Willing)
    (hnew : ledger.store.linesOf q.id = []) (hdated : ∀ m ∈ moves, m.Dated)
    (hfew : ((start b o q ledger).run moves).remarks.length < 2147483648)
    (hdone : ∀ x ∈ ((start b o q ledger).run moves).remarks, x.2 = .passed) :
    let t := (start b o q ledger).run moves
    let made := t.remarks.map (·.1)
    (∃ rows, t.ledger.getLines q.id = .ok rows ∧
      rows.map (·.seq) = (List.range made.length).map (fun i : Nat => (i : Int)) ∧
      rows.map (·.line) = t.told.map Remark.text) ∧
    Orderly q made t.told ∧ Orderly q made t.aired ∧
    (∀ v b' stop s, t.verification = .going v → t.Matches s → Stamp.Writable s.2.now →
      ∃ more, (∀ m ∈ more, m.Dated) ∧
        (t.run (.report b' stop :: more)).Matches ((v.step b' stop).2.1.foldl Job.keep s) ∧
        ∀ x ∈ (t.run (.report b' stop :: more)).remarks, x.2 = .passed) ∧
    ∀ before later, moves = before ++ .listen ⟨q.id, .subscribe⟩ :: later →
      let joining := (start b o q ledger).run before
      let i := (joining.audience.listeners q.id).length
      joining.aired = [] → Move.listen ⟨q.id, .unsubscribe i⟩ ∉ later →
      (∀ part, part <+: later → (((joining.next (.listen ⟨q.id, .subscribe⟩)).run
        part).audience.waiting q.id i).length < backlog) →
      ∃ l, (t.audience.listeners q.id)[i]? = some l ∧
        l.heard ++ (t.audience.broker.channel l.subscription.channel).waiting =
          t.aired.map Remark.text := by
  intro t made
  have hstart := sound_start b o q hwilling hnew
  have hsound : t.Sound q := hstart.run hdated
  have hall {p : Handling → Bool} (hp : p .passed = true) : settled p t.remarks = made :=
    settled_eq fun x hx => hdone x hx ▸ hp
  have htold : Arranged t.engines made t.told := by
    rw [← hall (p := Handling.begun) rfl]
    exact hsound.ordered.told
  have haired : Arranged t.engines made t.aired := by
    rw [← hall (p := (· == .passed)) rfl]
    exact hsound.ordered.aired
  refine ⟨?_, hsound.voiced.orderly htold, hsound.voiced.orderly haired, ?_, ?_⟩
  · have hlength : t.told.length = made.length := htold.perm.length_eq
    have hpending : t.remarks.filterMap pending = [] := by
      refine List.filterMap_eq_nil_iff.mpr fun x hx => ?_
      obtain ⟨x, h⟩ := x
      cases hdone _ hx
      rfl
    have hrows := hsound.kept.rows
    rw [hpending, List.append_nil, counted_eq] at hrows
    · obtain ⟨rows, hread, hpairs⟩ := hsound.kept.willing.getLines_of_perm hrows hsound.kept.dated
      refine ⟨rows, hread, ?_, ?_⟩
      · have hseq := congrArg (List.map (·.1)) hpairs
        rw [Store.map_fst_inOrder, List.map_map, List.length_map, hlength] at hseq
        exact hseq
      · have hline := congrArg (List.map (·.2)) hpairs
        rw [Store.map_snd_inOrder, List.map_map] at hline
        exact hline
    · rw [List.length_map, hlength, List.length_map]
      exact Nat.le_of_lt hfew
  · intro v b' stop s hv hmatches hnow
    have hreport : t.next (.report b' stop) = { t with
        verification := (v.step b' stop).2.2
        remarks := t.remarks ++
          ((v.step b' stop).2.1.filterMap (Remark.of? v.transforms)).map fun x => (x, .made) } := by
      simp only [next, report, hv]
    have hafter : (t.next (.report b' stop)).Matches s := by
      rw [hreport]
      exact ⟨hmatches.id, hmatches.ledger, hmatches.broker, hmatches.counter⟩
    exact hafter.keep (hsound.next trivial) hnow v.transforms (by rw [hreport]) hdone
  · intro before later hmoves joining i hfirst hstays hroom
    have hbefore : joining.Sound q :=
      hstart.run fun m hm => hdated m (hmoves ▸ List.mem_append_left _ hm)
    have hlater : ∀ m ∈ later, m.Dated := fun m hm =>
      hdated m (hmoves ▸ List.mem_append_right _ (List.mem_cons_of_mem _ hm))
    have hend : t = (joining.next (.listen ⟨q.id, .subscribe⟩)).run later := by
      show (start b o q ledger).run moves = _
      rw [hmoves, run_append]
      rfl
    obtain ⟨g, hg, -, hreceived⟩ :=
      (follows_joined hbefore hfirst).run (hbefore.next trivial) hlater hstays hroom
    rw [← hend] at hg hreceived
    obtain ⟨l, hl, rfl⟩ := Audience.exists_listener hg
    exact ⟨l, hl, hreceived⟩

/-- Says two things and leaves a file. -/
def talkative : Tool := fun _ _ i =>
  { lines := [(0, "one"), (0, "two")], length := some 0, ending := .done "UNSAT",
    closing := fun files => (i.target?.bind fun p => (files.write p "aig").toOption).getD files,
    halted := fun _ => .giveUp 0 }

def talkativeBench : Bench :=
  { now := 0, files := ⟨[], []⟩, tool := talkative, randomEnding := fun _ => "1" }

def oneStage : Verification.Request := ⟨"run", "/c.aig", [⟨"s", "dc2"⟩], [.pdr, .bmc], 0⟩

/-- The stage is heard first; then the engines come in between each other. -/
def crossing : List Move :=
  [.report (Verification.start talkativeBench ⟨"/w", 0⟩ oneStage).1 false,
    .report talkativeBench false,
    .number 0, .keep 0 0, .pass 0, .number 1, .keep 1 0, .pass 1,
    .number 2, .number 4, .keep 4 0, .keep 2 0, .pass 4, .number 5, .pass 2, .number 3, .keep 3 0,
    .keep 5 0, .pass 3, .pass 5]

theorem transcript_orderly_crossing :
    let t := (start talkativeBench ⟨"/w", 0⟩ oneStage ⟨{}, []⟩).run
      (.listen ⟨"run", .subscribe⟩ :: crossing)
    (∃ rows, t.ledger.getLines "run" = .ok rows ∧ rows.map (·.seq) = [0, 1, 2, 3, 4, 5] ∧
      rows.map (·.line) =
        (["s: one", "s: two", "pdr: one", "bmc: one", "bmc: two", "pdr: two"] : List Text)) ∧
    ∃ l, (t.audience.listeners "run")[0]? = some l ∧
      l.heard ++ (t.audience.broker.channel l.subscription.channel).waiting =
        (["s: one", "s: two", "bmc: one", "pdr: one", "pdr: two", "bmc: two"] : List Text) := by
  have hstamp : Stamp.Writable 0 := by decide
  have hroom : ∀ part ∈ crossing.inits, ((((start talkativeBench ⟨"/w", 0⟩ oneStage ⟨{}, []⟩).next
      (.listen ⟨"run", .subscribe⟩)).run part).audience.waiting "run" 0).length < backlog := by
    decide
  obtain ⟨⟨rows, hrows, hseq, hline⟩, -, -, -, hlistener⟩ := transcript_orderly talkativeBench ⟨"/w", 0⟩
    oneStage ⟨{}, []⟩ (.listen ⟨"run", .subscribe⟩ :: crossing) ⟨rfl, rfl⟩ rfl
    (by simp [crossing, Move.Dated, hstamp]) (by decide) (by decide)
  refine ⟨⟨rows, hrows, hseq.trans (by decide), hline.trans (by decide)⟩, ?_⟩
  obtain ⟨l, hl, hheard⟩ := hlistener [] crossing rfl rfl (by simp [crossing])
    fun part hpart => hroom part ((List.mem_inits part crossing).mpr hpart)
  exact ⟨l, hl, hheard.trans (by decide)⟩

end Transcript
end Regatta
