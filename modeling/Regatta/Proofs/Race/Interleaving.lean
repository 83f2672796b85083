import Regatta.Proofs.Crew
import Regatta.Proofs.Race.Party

/-! A race is one of its interleavings.

At each instant the engines that come back do so one after the other, then send what they have, and
then the owner looks at what has arrived. So what a race does at an instant is a series of moves of a
`Party` (`Joins.step`), and a whole run is an interleaving (`run_interleaving`). Whatever holds of all
interleavings then holds of the race; `interleavings_orderly` puts both together. -/
namespace Regatta

namespace Party

/-! ### Moves in a row -/

theorem run_of_step {p p' : Party} {m : Move} (h : p.step? m = some p') (moves : List Move) :
    p.run (m :: moves) = p'.run moves := by
  simp [run, next, h]

theorem launch_all {p : Party} {left : List Engine} (h : p.owner = .racing left) :
    p.run (left.map fun _ => .launch) =
      { p with
        owner := .racing []
        working := p.working ++ List.range' p.launched left.length
        launched := p.launched + left.length } := by
  induction left generalizing p with
  | nil => simp [run, ← h]
  | cons e rest ih =>
    have hstep : p.step? .launch = some { p with
        owner := .racing rest
        working := p.working ++ [p.launched]
        launched := p.launched + 1 } := by
      simp [step?, launch?, h]
    rw [List.map_cons, run_of_step hstep, ih rfl]
    simp [List.range'_succ, Nat.add_assoc, Nat.add_comm 1]

theorem send_all (p : Party) : ∃ moves sent waiting, p.returning = sent ++ waiting ∧
    waiting.map (·.2) = (p.exchange.sendAll (p.returning.map (·.2))).2 ∧
    p.run moves =
      { p with
        exchange := (p.exchange.sendAll (p.returning.map (·.2))).1
        returning := waiting
        arrived := p.arrived ++ sent } := by
  generalize hr : p.returning = returning
  induction returning generalizing p with
  | nil =>
    refine ⟨[], [], [], rfl, rfl, ?_⟩
    cases p
    cases hr
    simp [run, Exchange.sendAll]
  | cons a rest ih =>
    cases hx : p.exchange.send? a.2 with
    | none =>
      refine ⟨[], [], a :: rest, rfl, ?_, ?_⟩
      · simp [Exchange.sendAll, hx]
      · cases p
        cases hr
        simp [run, Exchange.sendAll, hx]
    | some x =>
      have hstep : p.step? (.send a.1 a.2) = some { p with
          exchange := x
          returning := rest
          arrived := p.arrived ++ [a] } := by
        simp [step?, send?, hr, hx]
      obtain ⟨moves, sent, waiting, hsplit, hwaiting, hrun⟩ := ih { p with
          exchange := x
          returning := rest
          arrived := p.arrived ++ [a] } rfl
      refine ⟨.send a.1 a.2 :: moves, a :: sent, waiting, by rw [hsplit]; rfl, ?_, ?_⟩
      · simpa [Exchange.sendAll, hx] using hwaiting
      · rw [run_of_step hstep, hrun]
        simp [Exchange.sendAll, hx]

theorem receive_upTo {p : Party} (h : p.owner = .racing []) (count : Nat) : ∃ moves, p.run moves =
    { p with
      exchange := (p.exchange.receiveUpTo count).2
      consumed := p.consumed ++ (p.exchange.receiveUpTo count).1 } := by
  induction count generalizing p with
  | zero => exact ⟨[], by simp [run, Exchange.receiveUpTo]⟩
  | succ count ih =>
    cases hx : p.exchange.receive? with
    | none => exact ⟨[], by simp [run, Exchange.receiveUpTo, hx]⟩
    | some rx =>
      have hstep : p.step? .receive = some { p with
          exchange := rx.2
          consumed := p.consumed ++ [rx.1] } := by
        simp [step?, receive?, h, hx]
      obtain ⟨moves, hrun⟩ := ih (p := { p with exchange := rx.2, consumed := p.consumed ++ [rx.1] }) h
      refine ⟨.receive :: moves, ?_⟩
      rw [run_of_step hstep, hrun]
      simp [Exchange.receiveUpTo, hx]

theorem drain_all {p : Party} (h : p.owner = .draining) (hc : p.exchange.isOpen = false) :
    ∃ moves, p.run moves =
      { p with
        exchange := { p.exchange with queue := [] }
        drained := p.drained ++ p.exchange.queue } := by
  generalize hq : p.exchange.queue = queue
  induction queue generalizing p with
  | nil =>
    refine ⟨[], ?_⟩
    obtain ⟨_, _, _, ⟨_, _, _, _, _⟩, _, _, _, _⟩ := p
    cases hq
    simp [run]
  | cons r rest ih =>
    have hstep : p.step? .drain = some { p with
        exchange := { p.exchange with queue := rest }
        drained := p.drained ++ [r] } := by
      simp [step?, drain?, h, Exchange.drain?_of_queue hc hq]
    obtain ⟨moves, hrun⟩ := ih
      (p := { p with exchange := { p.exchange with queue := rest }, drained := p.drained ++ [r] })
      h hc rfl
    refine ⟨.drain :: moves, ?_⟩
    rw [run_of_step hstep, hrun]
    simp

/-! ### Engines at work behind the workers -/

def stayers (crew : List (Nat × Worker)) (now : Instant) (stop : Bool) : List (Nat × Worker) :=
  crew.filterMap fun c => (c.2.respond now stop).2.state?.map (c.1, ·)

def returners (crew : List (Nat × Worker)) (now : Instant) (stop : Bool) :
    List (Nat × EngineResult) :=
  crew.filterMap fun c => (c.2.respond now stop).2.result?.map (c.1, ·)

variable (crew : List (Nat × Worker)) (now : Instant) (stop : Bool)

theorem map_stayers :
    (stayers crew now stop).map (·.2) = Race.staying (crew.map (·.2)) now stop := by
  simp [stayers, Race.staying, List.map_filterMap, List.filterMap_map, Function.comp_def]

theorem map_returners :
    (returners crew now stop).map (·.2) = Race.returning (crew.map (·.2)) now stop := by
  simp [returners, Race.returning, List.map_filterMap, List.filterMap_map, Function.comp_def]

theorem finish_all {p : Party} (now : Instant) (stop : Bool) (before : List Nat)
    {crew : List (Nat × Worker)} (hw : p.working = before ++ crew.map (·.1))
    (hn : p.working.Nodup) : ∃ moves, p.run moves =
      { p with
        working := before ++ (stayers crew now stop).map (·.1)
        returning := p.returning ++ returners crew now stop } := by
  induction crew generalizing p before with
  | nil => exact ⟨[], by cases p; cases hw; simp [run, stayers, returners]⟩
  | cons c rest ih =>
    cases hr : (c.2.respond now stop).2 with
    | going w =>
      have hstay : stayers (c :: rest) now stop = (c.1, w) :: stayers rest now stop := by
        simp [stayers, hr, Progress.state?]
      have hback : returners (c :: rest) now stop = returners rest now stop := by
        simp [returners, hr, Progress.result?]
      obtain ⟨moves, hrun⟩ := ih (before ++ [c.1]) (by simpa using hw) hn
      refine ⟨moves, ?_⟩
      rw [hrun, hstay, hback]
      simp
    | ended result =>
      have hstay : stayers (c :: rest) now stop = stayers rest now stop := by
        simp [stayers, hr, Progress.state?]
      have hback : returners (c :: rest) now stop = (c.1, result) :: returners rest now stop := by
        simp [returners, hr, Progress.result?]
      have hfresh : c.1 ∉ before := by
        rw [hw, List.nodup_append] at hn
        intro hmem
        exact hn.2.2 c.1 hmem c.1 (by simp) rfl
      have herase : p.working.erase c.1 = before ++ rest.map (·.1) := by
        rw [hw, List.erase_append_right _ hfresh, List.map_cons, List.erase_cons_head]
      have hstep : p.step? (.finish c.1 result) = some { p with
          working := before ++ rest.map (·.1)
          returning := p.returning ++ [(c.1, result)] } := by
        rw [← herase]
        simp [step?, finish?, hw]
      obtain ⟨moves, hrun⟩ := ih (p := { p with
          working := before ++ rest.map (·.1)
          returning := p.returning ++ [(c.1, result)] }) before rfl (herase ▸ hn.erase _)
      refine ⟨.finish c.1 result :: moves, ?_⟩
      rw [run_of_step hstep, hrun, hstay, hback]
      simp

/-- At an instant the workers whose engines return come back, then they send, and then the owner
looks at what has arrived. -/
theorem instant_moves {p : Party} {crew : List (Nat × Worker)}
    (ho : p.owner = .racing []) (hw : crew.map (·.1) = p.working) (hn : p.working.Nodup)
    {x : Exchange} {held : List EngineResult}
    (hx : p.exchange.sendAll (p.returning.map (·.2) ++ (returners crew now stop).map (·.2)) =
      (x, held)) :
    ∃ moves sent waiting, p.returning ++ returners crew now stop = sent ++ waiting ∧
      waiting.map (·.2) = held ∧ p.run moves =
        { p with
          working := (stayers crew now stop).map (·.1)
          returning := waiting
          exchange := x.receiveAll.2
          arrived := p.arrived ++ sent
          consumed := p.consumed ++ x.receiveAll.1 } := by
  obtain ⟨moves₁, h₁⟩ := finish_all now stop [] hw.symm hn
  obtain ⟨moves₂, sent, waiting, hsplit, hwaiting, h₂⟩ := send_all (p.run moves₁)
  rw [h₁, List.map_append, hx] at hwaiting
  rw [h₁, List.map_append, hx] at h₂
  rw [h₁] at hsplit
  obtain ⟨moves₃, h₃⟩ := receive_upTo (p := p.run (moves₁ ++ moves₂))
    (by rw [run_append, h₁, h₂]; exact ho) x.queue.length
  refine ⟨moves₁ ++ moves₂ ++ moves₃, sent, waiting, hsplit, hwaiting, ?_⟩
  rw [run_append, h₃, run_append, h₁, h₂]
  rfl

end Party

namespace Race

open Party

/-! ### The race as a party -/

/-- The result is one that the worker of this number can come back with. -/
def Fetched (ws : List Worker) (a : Nat × EngineResult) : Prop :=
  ∃ w, ws[a.1]? = some w ∧ w.Comes a.2

/-- A result that comes from the engine of its worker, and says how long it took. -/
structure Reported (engines : List Engine) (a : Nat × EngineResult) : Prop where
  engine : engines[a.1]? = some a.2.engine
  elapsed : a.2.elapsed.isSome = true

variable {ws : List Worker}

theorem Fetched.reported {engines : List Engine} (hnamed : ws.map (·.engine) = engines)
    {a : Nat × EngineResult} (h : Fetched ws a) : Reported engines a := by
  obtain ⟨w, hw, hcomes⟩ := h
  obtain ⟨hengine, helapsed⟩ := hcomes.own
  refine ⟨?_, helapsed⟩
  rw [← hnamed, List.getElem?_map, hw, hengine]
  rfl

/-- A race that was started with these workers and a party that stand at the same place: the workers
that are still at work are the engines that run, those that could not send yet are held, and all that
has arrived was looked at, if the owner looks. -/
structure Joins (engines : List Engine) (ws : List Worker) (r : Race) (p : Party) : Prop where
  named : ws.map (·.engine) = engines
  accounted : p.Accounted engines
  owner : p.owner = .racing []
  exchange : p.exchange = r.exchange
  held : p.returning.map (·.2) = r.held
  crew : ∃ crew : List (Nat × Worker), crew.map (·.1) = p.working ∧ crew.map (·.2) = r.running ∧
    ∀ c ∈ crew, ∀ x, c.2.Comes x → Fetched ws (c.1, x)
  fetched : ∀ a ∈ p.returning ++ p.arrived, Fetched ws a
  received : r.exchange.queue = [] ∨ r.exchange.watches = false

variable {crew : List (Nat × Worker)} {now : Instant} {stop : Bool}

section
variable (h : ∀ c ∈ crew, ∀ x, c.2.Comes x → Fetched ws (c.1, x))
include h

theorem fetched_stayers :
    ∀ c ∈ stayers crew now stop, ∀ x, c.2.Comes x → Fetched ws (c.1, x) := by
  intro c hc x hx
  obtain ⟨d, hd, hstate⟩ := List.mem_filterMap.mp hc
  cases hr : (d.2.respond now stop).2 with
  | ended result => simp [hr, Progress.state?] at hstate
  | going w =>
    simp only [hr, Progress.state?, Option.map_some, Option.some.injEq] at hstate
    subst hstate
    exact h d hd x (.goes hr hx)

theorem fetched_returners : ∀ a ∈ returners crew now stop, Fetched ws a := by
  intro a ha
  obtain ⟨d, hd, hresult⟩ := List.mem_filterMap.mp ha
  cases hr : (d.2.respond now stop).2 with
  | going w => simp [hr, Progress.result?] at hresult
  | ended result =>
    simp only [hr, Progress.result?, Option.map_some, Option.some.injEq] at hresult
    subst hresult
    exact h d hd result (.ends hr)

end

variable {engines : List Engine} {r : Race} {p : Party}

namespace Joins
variable (h : Joins engines ws r p)
include h

/-- What a race does in one step is a series of moves. -/
theorem step (b : Bench) (stop : Bool) : ∃ moves,
    Joins engines ws (r.step b stop).2.2 (p.run moves) ∧
      (p.run moves).consumed = p.consumed ++ RaceEvent.results (r.step b stop).2.1 := by
  obtain ⟨_, hresults, hrace⟩ := step_spec r b stop
  obtain ⟨crew, hworking, hrunning, hcrew⟩ := h.crew
  have hnodup : p.working.Nodup :=
    (List.nodup_append.mp (h.accounted.workers.nodup_iff.mpr List.nodup_range)).1
  have hsent : p.exchange.sendAll (p.returning.map (·.2) ++
      (returners crew b.now (r.orders stop)).map (·.2)) = r.sent b.now stop := by
    rw [h.held, map_returners, hrunning, h.exchange]
    rfl
  obtain ⟨moves, sent, waiting, hsplit, hwaiting, hrun⟩ :=
    instant_moves b.now (r.orders stop) h.owner hworking hnodup hsent
  have haccounted := h.accounted.run moves
  refine ⟨moves, ?_⟩
  rw [hrun] at haccounted ⊢
  rw [hresults, hrace]
  refine ⟨⟨h.named, haccounted, h.owner, rfl, hwaiting, ⟨stayers crew b.now (r.orders stop), rfl, ?_,
    fetched_stayers hcrew⟩, fun a ha => ?_, Exchange.receiveAll_done _⟩, rfl⟩
  · rw [map_stayers, hrunning]
  · have hmem : a ∈ p.returning ++ p.arrived ∨ a ∈ returners crew b.now (r.orders stop) := by
      have hsame := congrArg (a ∈ ·) hsplit
      simp only [List.mem_append] at ha hsame ⊢
      grind
    rcases hmem with hmem | hmem
    · exact h.fetched a hmem
    · exact fetched_returners hcrew a hmem

theorem proceed (b : Bench) (stop : Bool) : ∃ moves,
    Joins engines ws (r.proceed b stop).2.2 (p.run moves) ∧
      (p.run moves).consumed = p.consumed ++ RaceEvent.results (r.proceed b stop).2.1 := by
  obtain ⟨moves, hjoins, hconsumed⟩ := h.step b stop
  unfold Race.proceed
  dsimp only
  split
  · obtain ⟨more, hjoins', hconsumed'⟩ := hjoins.step (r.step b stop).1 stop
    refine ⟨moves ++ more, ?_⟩
    rw [run_append]
    refine ⟨hjoins', ?_⟩
    rw [hconsumed', hconsumed, RaceEvent.results_append, List.append_assoc]
  · exact ⟨moves, hjoins, hconsumed⟩

theorem unwatched (hw : p.working = []) (hr : p.returning = []) : p.exchange.watches = false := by
  rw [h.exchange]
  rcases h.received with hqueue | hwatches
  · obtain ⟨hworkers, hresults⟩ := h.accounted.count
    have hlaunched := h.accounted.launched
    have hdue := h.accounted.due
    have hplaced := h.accounted.placed
    unfold Placed at hplaced
    rw [h.owner] at hplaced hlaunched
    rw [← h.exchange] at hqueue ⊢
    simp only [hw, hr, hqueue, hplaced.2, Owner.left, List.length_nil] at *
    have hzero : p.exchange.due = 0 := by omega
    simp [Exchange.watches, hzero]
  · exact hwatches

end Joins

theorem Joins.over (h : Joins engines ws r p) (ho : r.isOver = true) : ∃ moves,
    (p.run moves).owner = .returned r.outcome ∧ (p.run moves).consumed = p.consumed ∧
      (p.run moves).arrived = p.arrived := by
  simp only [isOver, Bool.and_eq_true, List.isEmpty_iff] at ho
  obtain ⟨crew, hworking, hrunning, _⟩ := h.crew
  have hw : p.working = [] := by
    rw [ho.1] at hrunning
    rw [← hworking, List.map_eq_nil_iff.mp hrunning]
    rfl
  have hr : p.returning = [] := List.map_eq_nil_iff.mp (h.held.trans ho.2)
  have hcancel : p.step? .cancel = some { p with owner := .waiting } := by
    simp [step?, cancel?, h.owner, h.unwatched hw hr]
  have hjoin : { p with owner := .waiting }.step? .join =
      some { p with owner := .draining, exchange := p.exchange.close } := by
    simp [step?, join?, hw, hr]
  obtain ⟨moves, hdrain⟩ := drain_all
    (p := { p with owner := .draining, exchange := p.exchange.close }) rfl rfl
  refine ⟨.cancel :: .join :: (moves ++ [.conclude]), ?_⟩
  rw [run_of_step hcancel, run_of_step hjoin, run_append, hdrain]
  simp [Party.run, next, step?, conclude?, outcome, Exchange.outcome, Exchange.close, h.exchange]

variable (b : Bench) (id circuit : Text) (budget : Duration)

theorem joins_start (hne : engines ≠ [])
    (hws : ws.map (·.engine) = engines) : ∃ moves,
    Joins engines ws ⟨id, ws, [], .ofCount engines.length⟩ ((Party.start engines).run moves) ∧
      ((Party.start engines).run moves).consumed = [] := by
  have howner : (Party.start engines).owner = .racing engines := by
    simp [Party.start, List.isEmpty_iff, hne]
  have haccounted := (accounted_start engines).run (engines.map fun _ => .launch)
  refine ⟨engines.map fun _ => .launch, ?_⟩
  rw [launch_all howner] at haccounted ⊢
  refine ⟨⟨hws, haccounted, rfl, rfl, rfl, ⟨(List.range ws.length).zip ws, ?_, ?_, ?_⟩, fun a ha => ?_,
    .inl rfl⟩, rfl⟩
  · rw [List.map_fst_zip (by simp), ← hws]
    simp [Party.start, List.range_eq_range']
  · exact List.map_snd_zip (by simp)
  · intro c hc x hx
    obtain ⟨i, hi, rfl⟩ := List.mem_iff_getElem.mp hc
    simp only [List.length_zip, List.length_range, Nat.min_self] at hi
    exact ⟨_, by simp [hi], hx⟩
  · simp [Party.start] at ha

/-- What a race does at an instant is a series of moves, and when it ends the owner returns. -/
theorem Joins.advance (h : Joins engines ws r p) {b b' : Bench} {stop : Bool}
    {events : List RaceEvent} {progress : Progress Race EngineResult}
    (ha : r.advance b stop = (b', events, progress)) : ∃ moves,
    (p.run moves).consumed = p.consumed ++ RaceEvent.results events ∧
      (∀ a ∈ (p.run moves).arrived, Fetched ws a) ∧
      progress.Holds (fun r' => Joins engines ws r' (p.run moves))
        (fun o => (p.run moves).owner = .returned o) := by
  obtain ⟨moves, hjoins, hconsumed⟩ := h.proceed b stop
  have hfetched := fun a ha => hjoins.fetched a (List.mem_append_right _ ha)
  unfold Race.advance at ha
  dsimp only at ha
  split at ha
  · rename_i hover
    obtain ⟨last, howner, hkept, harrived⟩ := hjoins.over hover
    cases ha
    refine ⟨moves ++ last, ?_⟩
    rw [run_append]
    refine ⟨hkept.trans hconsumed, ?_, howner⟩
    rw [harrived]
    exact hfetched
  · cases ha
    exact ⟨moves, hconsumed, hfetched, hjoins⟩

/-- A race that is played is an interleaving. -/
theorem Joins.play {cancelAt : Option Instant} {b : Bench} {seen : List RaceEvent}
    {record : Timeline.Record RaceEvent EngineResult}
    (hplay : Timeline.play cancelAt b seen r = some record) :
    ∀ p, Joins engines ws r p → p.consumed = RaceEvent.results seen.reverse → ∃ moves,
      (p.run moves).consumed = RaceEvent.results record.events ∧
      (∀ a ∈ (p.run moves).arrived, Fetched ws a) ∧
      ∀ o, record.result = some o → (p.run moves).owner = .returned o := by
  refine Timeline.play_induct ?_ ?_ ?_ hplay
  · intro b seen r b' events o hadvance p h hseen
    obtain ⟨moves, hconsumed, hfetched, howner⟩ := h.advance hadvance
    refine ⟨moves, ?_, hfetched, fun _ ho => by cases ho; exact howner⟩
    rw [hconsumed, hseen, RaceEvent.results_append]
  · intro b seen r b' events r' hadvance _ p h hseen
    obtain ⟨moves, hconsumed, hfetched, _⟩ := h.advance hadvance
    refine ⟨moves, ?_, hfetched, nofun⟩
    rw [hconsumed, hseen, RaceEvent.results_append]
  · intro b seen r b' events r' t record hadvance _ ih p h hseen
    obtain ⟨moves, hconsumed, _, hjoins⟩ := h.advance hadvance
    obtain ⟨more, hrest⟩ := ih _ hjoins (by rw [hconsumed, hseen]; simp)
    refine ⟨moves ++ more, ?_⟩
    rw [run_append]
    exact hrest

/-- A run of a race is an interleaving. -/
theorem run_interleaving (engines : List Engine) (cancelAt : Option Instant) : ∃ moves,
    ((Party.start engines).run moves).consumed =
        RaceEvent.results (Race.run b id circuit budget engines cancelAt).events ∧
      (∀ a ∈ ((Party.start engines).run moves).arrived,
        Fetched (startWorkers b id circuit budget engines).2 a) ∧
      ∀ o, (Race.run b id circuit budget engines cancelAt).result = some o →
        ((Party.start engines).run moves).owner = .returned o := by
  cases engines with
  | nil => exact ⟨[], rfl, nofun, fun _ ho => by cases ho; rfl⟩
  | cons e rest =>
    obtain ⟨moves, hjoins, hconsumed⟩ := joins_start id (List.cons_ne_nil e rest)
      (engines_start b id circuit budget (e :: rest))
    cases hplay : Timeline.play cancelAt (startWorkers b id circuit budget (e :: rest)).1 []
        (⟨id, (startWorkers b id circuit budget (e :: rest)).2, [],
          .ofCount (e :: rest).length⟩ : Race) with
    | none =>
      have hrun : Race.run b id circuit budget (e :: rest) cancelAt = ⟨_, [], none⟩ :=
        Timeline.complete_endless hplay
      refine ⟨[], ?_⟩
      rw [hrun]
      exact ⟨rfl, nofun, nofun⟩
    | some record =>
      have hrun : Race.run b id circuit budget (e :: rest) cancelAt = record :=
        Timeline.complete_going hplay
      obtain ⟨more, hrest⟩ := Joins.play hplay _ hjoins hconsumed
      refine ⟨moves ++ more, ?_⟩
      rw [run_append, hrun]
      exact hrest

/-! ### Every interleaving -/

/-- A party in which all is in order. -/
structure Orderly (engines : List Engine) (p : Party) : Prop where
  /-- A worker that has come back can send its result at once. -/
  unblocked : ∀ worker result, (worker, result) ∈ p.returning →
    (p.step? (.send worker result)).isSome = true
  /-- Each worker that was launched runs, has come back, or has sent one result. -/
  workers : (p.working ++ (p.returning.map (·.1) ++ p.arrived.map (·.1))).Perm
    (List.range p.launched)
  /-- What was sent was looked at, or drained, or is in the queue. -/
  results : p.consumed ++ (p.drained ++ p.exchange.queue) = p.arrived.map (·.2)
  /-- What was looked at is the beginning of what was sent, up to the first conclusive result. -/
  consumed : p.consumed <+: throughDecision (p.arrived.map (·.2))
  /-- Until the owner has returned there is a move, and every move brings the end nearer. -/
  moves : (∀ o, p.owner ≠ .returned o) → ∃ m, (p.step? m).isSome = true
  nearer : ∀ m p', p.step? m = some p' → p'.ahead < p.ahead
  /-- When the owner has returned, one result of each engine was looked at or drained, those looked
  at go up to the first conclusive one, which is the outcome, and nobody does anything any more. -/
  returned : ∀ o, p.owner = .returned o →
    p.working = [] ∧ p.returning = [] ∧
      (p.arrived.map (·.1)).Perm (List.range engines.length) ∧
      p.consumed ++ p.drained = p.arrived.map (·.2) ∧
      p.consumed = throughDecision (p.arrived.map (·.2)) ∧
      o = decision (p.arrived.map (·.2)) ∧ ∀ m, p.step? m = none

theorem orderly_of_accounted (h : p.Accounted engines) : Orderly engines p where
  unblocked _ _ := h.send_possible
  workers := h.workers
  results := h.results
  consumed := h.prefix_consumed
  moves := h.progress
  nearer _ _ := ahead_lt
  returned o howner := by
    have hplaced := h.placed
    have hworkers := h.workers
    have hresults := h.results
    have hall : p.launched = engines.length := by
      have hlaunched := h.launched
      rw [howner] at hlaunched
      exact hlaunched
    unfold Placed at hplaced
    rw [howner] at hplaced
    obtain ⟨hqueue, hworking, hreturning, hwatches, houtcome⟩ := hplaced
    obtain ⟨hconsumed, hdecision⟩ := h.settled hwatches
    rw [hworking, hreturning, hall] at hworkers
    rw [hqueue, List.append_nil] at hresults
    exact ⟨hworking, hreturning, hworkers, hresults, hconsumed, houtcome.trans hdecision,
      h.ended howner⟩

/-- **Whatever the interleaving, a race is in order.** No worker is blocked, no result is lost or
looked at twice, and the first conclusive result to arrive is the outcome. Without engines nothing
is launched and nothing decided. A run of the race is one of the interleavings: it reports what is
looked at, each worker's result is its engine's and one that the worker it has started can come back
with, and it ends when the owner returns. It does end if it is cancelled at some time, or if every call
of the tool does. -/
theorem interleavings_orderly (engines : List Engine) :
    (∀ moves, Orderly engines ((Party.start engines).run moves)) ∧
      (engines = [] → ∀ moves, ((Party.start engines).run moves).launched = 0 ∧
        ((Party.start engines).run moves).owner = .returned .inconclusive) ∧
      ∀ b id circuit budget cancelAt, ∃ moves,
        ((Party.start engines).run moves).consumed =
          RaceEvent.results (Race.run b id circuit budget engines cancelAt).events ∧
        (∀ a ∈ ((Party.start engines).run moves).arrived, engines[a.1]? = some a.2.engine ∧
          Fetched (startWorkers b id circuit budget engines).2 a) ∧
        (cancelAt.isSome = true ∨ b.tool.Ends →
          (Race.run b id circuit budget engines cancelAt).result.isSome = true) ∧
        (∀ o, (Race.run b id circuit budget engines cancelAt).result = some o →
          ((Party.start engines).run moves).owner = .returned o) ∧
        (engines = [] → (Race.run b id circuit budget engines cancelAt).result =
          some .inconclusive) := by
  refine ⟨fun moves => orderly_of_accounted ((accounted_start engines).run moves), ?_, ?_⟩
  · rintro rfl moves
    rw [run_ended (accounted_start []) rfl moves]
    exact ⟨rfl, rfl⟩
  · intro b id circuit budget cancelAt
    obtain ⟨moves, hconsumed, hfetched, howner⟩ :=
      run_interleaving b id circuit budget engines cancelAt
    have hnamed := engines_start b id circuit budget engines
    refine ⟨moves, hconsumed, fun a ha => ⟨((hfetched a ha).reported hnamed).engine, hfetched a ha⟩,
      fun h => run_returns h id circuit budget engines, howner, ?_⟩
    rintro rfl
    rfl

end Race
end Regatta
