import Regatta.Proofs.Race.Exchange

/-! The interleavings of a race.

A race is its owner, who launches one worker for each engine and then looks at results, and the
workers, who each come back with one result and send it. All go on at once: the moves of a `Party`
may be made in any order in which each of them is possible. `Accounted` is what holds whatever the
order. From it follow that no worker waits for room in the queue (`send_possible`), that each result
is looked at, drained or still in the queue and nowhere else, and that the party is never stuck
before the owner has returned (`progress`). -/
namespace Regatta

/-- Where the owner of a race stands. -/
inductive Owner where
  /-- Launches the engines that are left, then looks at results. -/
  | racing (left : List Engine)
  /-- Has told everyone to stop, and waits until all have returned. -/
  | waiting
  /-- Has closed the queue, and takes out what is left in it. -/
  | draining
  | returned (outcome : EngineResult)
deriving DecidableEq

def Owner.left : Owner → Nat
  | .racing engines => engines.length
  | _ => 0

/-- The owner and the workers of a race, the workers known by their numbers. -/
structure Party where
  owner : Owner
  working : List Nat
  /-- Workers that have come back and did not yet send their result. -/
  returning : List (Nat × EngineResult)
  exchange : Exchange
  launched : Nat
  /-- What was sent, by whom, in the order of arrival. -/
  arrived : List (Nat × EngineResult)
  consumed : List EngineResult
  drained : List EngineResult

/-- One thing that the owner or a worker does. -/
inductive Move where
  | launch
  | finish (worker : Nat) (result : EngineResult)
  | send (worker : Nat) (result : EngineResult)
  | receive
  | cancel
  | join
  | drain
  | conclude

namespace Party

/-- The party before a race. Without engines there is no race, and nothing is decided. -/
def start (engines : List Engine) : Party where
  owner := if engines.isEmpty then .returned .inconclusive else .racing engines
  working := []
  returning := []
  exchange := .ofCount engines.length
  launched := 0
  arrived := []
  consumed := []
  drained := []

def launch? (p : Party) : Option Party :=
  match p.owner with
  | .racing (_ :: left) =>
    some { p with
      owner := .racing left
      working := p.working ++ [p.launched]
      launched := p.launched + 1 }
  | _ => none

def finish? (p : Party) (worker : Nat) (result : EngineResult) : Option Party :=
  if worker ∈ p.working then
    some { p with
      working := p.working.erase worker
      returning := p.returning ++ [(worker, result)] }
  else none

def send? (p : Party) (worker : Nat) (result : EngineResult) : Option Party :=
  if (worker, result) ∈ p.returning then
    (p.exchange.send? result).map fun x =>
      { p with
        exchange := x
        returning := p.returning.erase (worker, result)
        arrived := p.arrived ++ [(worker, result)] }
  else none

def receive? (p : Party) : Option Party :=
  match p.owner with
  | .racing [] => p.exchange.receive?.map fun (r, x) =>
    { p with exchange := x, consumed := p.consumed ++ [r] }
  | _ => none

def cancel? (p : Party) : Option Party :=
  match p.owner with
  | .racing [] => if p.exchange.watches then none else some { p with owner := .waiting }
  | _ => none

def join? (p : Party) : Option Party :=
  if p.owner = .waiting ∧ p.working = [] ∧ p.returning = [] then
    some { p with owner := .draining, exchange := p.exchange.close }
  else none

def drain? (p : Party) : Option Party :=
  if p.owner = .draining then
    p.exchange.drain?.map fun (r, x) => { p with exchange := x, drained := p.drained ++ [r] }
  else none

def conclude? (p : Party) : Option Party :=
  if p.owner = .draining ∧ p.exchange.queue = [] then
    some { p with owner := .returned p.exchange.outcome }
  else none

/-- The party after a move; `none` when the move is not possible now. -/
def step? (p : Party) : Move → Option Party
  | .launch => p.launch?
  | .finish worker result => p.finish? worker result
  | .send worker result => p.send? worker result
  | .receive => p.receive?
  | .cancel => p.cancel?
  | .join => p.join?
  | .drain => p.drain?
  | .conclude => p.conclude?

def next (p : Party) (m : Move) : Party := (p.step? m).getD p

def run (p : Party) : List Move → Party
  | [] => p
  | m :: rest => run (p.next m) rest

theorem run_append (p : Party) (a b : List Move) : p.run (a ++ b) = (p.run a).run b := by
  induction a generalizing p with
  | nil => rfl
  | cons m rest ih => exact ih _

/-! ### What a move can do -/

/-- What a move does, when it is possible. -/
inductive Does (p : Party) : Move → Party → Prop
  | launch {e : Engine} {left : List Engine} (howner : p.owner = .racing (e :: left)) :
    Does p .launch { p with
      owner := .racing left
      working := p.working ++ [p.launched]
      launched := p.launched + 1 }
  | finish {worker : Nat} {result : EngineResult} (hmem : worker ∈ p.working) :
    Does p (.finish worker result) { p with
      working := p.working.erase worker
      returning := p.returning ++ [(worker, result)] }
  | send {worker : Nat} {result : EngineResult} (hmem : (worker, result) ∈ p.returning) :
    Does p (.send worker result) { p with
      exchange := { p.exchange with queue := p.exchange.queue ++ [result] }
      returning := p.returning.erase (worker, result)
      arrived := p.arrived ++ [(worker, result)] }
  | receive {r : EngineResult} {rest : List EngineResult} (howner : p.owner = .racing [])
    (hwatches : p.exchange.watches = true) (hqueue : p.exchange.queue = r :: rest) :
    Does p .receive { p with exchange := p.exchange.look r rest, consumed := p.consumed ++ [r] }
  | cancel (howner : p.owner = .racing []) (hwatches : p.exchange.watches = false) :
    Does p .cancel { p with owner := .waiting }
  | join (howner : p.owner = .waiting) (hworking : p.working = []) (hreturning : p.returning = []) :
    Does p .join { p with owner := .draining, exchange := p.exchange.close }
  | drain {r : EngineResult} {rest : List EngineResult} (howner : p.owner = .draining)
    (hqueue : p.exchange.queue = r :: rest) :
    Does p .drain { p with
      exchange := { p.exchange with queue := rest }, drained := p.drained ++ [r] }
  | conclude (howner : p.owner = .draining) (hqueue : p.exchange.queue = []) :
    Does p .conclude { p with owner := .returned p.exchange.outcome }

variable {p p' : Party} {m : Move}

theorem does_of_step? (hm : p.step? m = some p') : Does p m p' := by
  cases m with
  | launch =>
    simp only [step?, launch?] at hm
    split at hm
    · rename_i howner
      cases hm
      exact .launch howner
    · cases hm
  | finish worker result =>
    obtain ⟨hmem, hm⟩ := Option.ite_none_right_eq_some.mp hm
    cases hm
    exact .finish hmem
  | send worker result =>
    obtain ⟨hmem, hm⟩ := Option.ite_none_right_eq_some.mp hm
    obtain ⟨x, hx, rfl⟩ := Option.map_eq_some_iff.mp hm
    obtain ⟨-, -, rfl⟩ := Exchange.send?_eq_some hx
    exact .send hmem
  | receive =>
    simp only [step?, receive?] at hm
    split at hm
    · rename_i howner
      obtain ⟨⟨r, x⟩, hx, rfl⟩ := Option.map_eq_some_iff.mp hm
      obtain ⟨hwatches, rest, hqueue, rfl⟩ := Exchange.receive?_eq_some hx
      exact .receive howner hwatches hqueue
    · cases hm
  | cancel =>
    simp only [step?, cancel?] at hm
    split at hm
    · rename_i howner
      obtain ⟨hwatches, hm⟩ := Option.ite_none_left_eq_some.mp hm
      cases hm
      exact .cancel howner (Bool.eq_false_iff.mpr hwatches)
    · cases hm
  | join =>
    obtain ⟨⟨howner, hworking, hreturning⟩, hm⟩ := Option.ite_none_right_eq_some.mp hm
    cases hm
    exact .join howner hworking hreturning
  | drain =>
    obtain ⟨howner, hm⟩ := Option.ite_none_right_eq_some.mp hm
    obtain ⟨⟨r, x⟩, hx, rfl⟩ := Option.map_eq_some_iff.mp hm
    obtain ⟨rest, hqueue, rfl⟩ := Exchange.drain?_eq_some hx
    exact .drain howner hqueue
  | conclude =>
    obtain ⟨⟨howner, hqueue⟩, hm⟩ := Option.ite_none_right_eq_some.mp hm
    cases hm
    exact .conclude howner hqueue

/-! ### What holds at any time -/

/-- What the owner's place says about the rest. -/
def Placed (p : Party) : Prop :=
  match p.owner with
  | .racing _ => p.exchange.isOpen = true ∧ p.drained = []
  | .waiting => p.exchange.isOpen = true ∧ p.drained = [] ∧ p.exchange.watches = false
  | .draining =>
    p.exchange.isOpen = false ∧ p.working = [] ∧ p.returning = [] ∧ p.exchange.watches = false
  | .returned o =>
    p.exchange.queue = [] ∧ p.working = [] ∧ p.returning = [] ∧ p.exchange.watches = false ∧
      o = p.exchange.outcome

/-- Every worker and every result is where it belongs. -/
structure Accounted (engines : List Engine) (p : Party) : Prop where
  launched : p.launched + p.owner.left = engines.length
  workers : (p.working ++ (p.returning.map (·.1) ++ p.arrived.map (·.1))).Perm
    (List.range p.launched)
  results : p.consumed ++ (p.drained ++ p.exchange.queue) = p.arrived.map (·.2)
  room : p.exchange.room = engines.length
  due : p.consumed.length + p.exchange.due = engines.length
  undecided : p.exchange.winner = none → ∀ r ∈ p.consumed, r.verdict.conclusive = false
  decided : ∀ w, p.exchange.winner = some w → w.verdict.conclusive = true ∧
    ∃ before, p.consumed = before ++ [w] ∧ ∀ r ∈ before, r.verdict.conclusive = false
  placed : p.Placed

variable {engines : List Engine}

theorem accounted_start (engines : List Engine) : Accounted engines (start engines) where
  launched := by
    cases engines <;> simp [start, Owner.left]
  workers := .nil
  results := rfl
  room := rfl
  due := Nat.zero_add _
  undecided := nofun
  decided := nofun
  placed := by
    cases engines with
    | nil => exact ⟨rfl, rfl, rfl, rfl, rfl⟩
    | cons e rest => exact ⟨rfl, rfl⟩

/-- As long as a worker is on its way, nothing that it does moves the owner. -/
theorem Placed.busy (h : p.Placed) (hbusy : p.working ≠ [] ∨ p.returning ≠ [])
    (howner : p'.owner = p.owner) (hdrained : p'.drained = p.drained)
    (hopen : p'.exchange.isOpen = p.exchange.isOpen)
    (hwatches : p'.exchange.watches = p.exchange.watches) : p'.Placed := by
  unfold Placed at h ⊢
  rw [howner, hdrained, hopen, hwatches]
  split at h
  · exact h
  · exact h
  · exact (hbusy.elim (· h.2.1) (· h.2.2.1)).elim
  · exact (hbusy.elim (· h.2.1) (· h.2.2.1)).elim

namespace Accounted
variable {result : EngineResult} {worker : Nat} (h : Accounted engines p)
include h

theorem count :
    p.working.length + (p.returning.length + p.arrived.length) = p.launched ∧
      p.consumed.length + (p.drained.length + p.exchange.queue.length) = p.arrived.length := by
  constructor
  · simpa using h.workers.length_eq
  · simpa using congrArg List.length h.results

theorem isOpen (hr : p.returning ≠ []) : p.exchange.isOpen = true := by
  have hplaced := h.placed
  unfold Placed at hplaced
  split at hplaced
  · exact hplaced.1
  · exact hplaced.1
  · exact absurd hplaced.2.2.1 hr
  · exact absurd hplaced.2.2.1 hr

/-- There is room in the queue for the result of every worker. -/
theorem roomy (hr : p.returning ≠ []) : p.exchange.queue.length < p.exchange.room := by
  obtain ⟨hworkers, hresults⟩ := h.count
  have hlaunched := h.launched
  have hreturning := List.length_pos_iff.mpr hr
  rw [h.room]
  omega

/-- **No worker waits for room.** -/
theorem send_possible (hmem : (worker, result) ∈ p.returning) :
    (p.step? (.send worker result)).isSome = true := by
  have hne := List.ne_nil_of_mem hmem
  simp [step?, send?, hmem, Exchange.send?_of_room result (h.isOpen hne) (h.roomy hne)]

/-! ### One move at a time -/

theorem launch (hd : Does p .launch p') : Accounted engines p' := by
  cases hd with
  | launch howner =>
    have hplaced := h.placed
    have hlaunched := h.launched
    unfold Placed at hplaced
    rw [howner] at hplaced hlaunched
    refine { h with launched := ?_, workers := ?_, placed := hplaced }
    · simp only [Owner.left, List.length_cons] at hlaunched ⊢
      omega
    · have hfirst : (p.working ++ [p.launched] ++
          (p.returning.map (·.1) ++ p.arrived.map (·.1))).Perm
          (p.launched :: (p.working ++ (p.returning.map (·.1) ++ p.arrived.map (·.1)))) := by
        rw [List.append_assoc]
        exact List.perm_middle
      rw [List.range_succ]
      exact hfirst.trans ((h.workers.cons _).trans (List.perm_append_singleton _ _).symm)

theorem finish (hd : Does p (.finish worker result) p') : Accounted engines p' := by
  cases hd with
  | finish hmem =>
    have hbusy := List.ne_nil_of_mem hmem
    refine { h with workers := ?_, placed := h.placed.busy (.inl hbusy) rfl rfl rfl rfl }
    have hmoved : (p.working.erase worker ++
        ((p.returning ++ [(worker, result)]).map (·.1) ++ p.arrived.map (·.1))).Perm
        (worker :: (p.working.erase worker ++ (p.returning.map (·.1) ++ p.arrived.map (·.1)))) := by
      simp only [List.map_append, List.map_cons, List.map_nil, List.append_assoc,
        List.singleton_append]
      rw [← List.append_assoc, ← List.append_assoc]
      exact List.perm_middle
    exact hmoved.trans (((List.perm_cons_erase hmem).symm.append_right _).trans h.workers)

theorem send (hd : Does p (.send worker result) p') : Accounted engines p' := by
  cases hd with
  | send hmem =>
    have hbusy := List.ne_nil_of_mem hmem
    refine { h with
      workers := ?_, results := ?_, placed := h.placed.busy (.inr hbusy) rfl rfl rfl rfl }
    · refine List.Perm.trans (.append_left _ ?_) h.workers
      have hreturning := (List.perm_cons_erase hmem).map (·.1)
      rw [List.map_append, ← List.append_assoc]
      refine (List.perm_append_singleton _ _).trans ?_
      exact (hreturning.symm.append_right _)
    · rw [List.map_append, ← h.results]
      simp

theorem receive (hd : Does p .receive p') : Accounted engines p' := by
  cases hd with
  | @receive r rest howner hwatches hqueue =>
    have hplaced := h.placed
    have hdue := h.due
    have hresults := h.results
    unfold Placed at hplaced
    rw [howner] at hplaced
    rw [hplaced.2, hqueue] at hresults
    simp only [Exchange.watches, Bool.and_eq_true, Option.isNone_iff_eq_none, bne_iff_ne] at hwatches
    have hbefore := h.undecided hwatches.1
    refine { h with results := ?_, due := ?_, undecided := ?_, decided := ?_, placed := ?_ }
    · rw [← hresults, hplaced.2]
      simp [Exchange.look]
    · simp only [Exchange.look, List.length_append, List.length_singleton]
      omega
    · intro hnone c hc
      rcases List.mem_append.mp hc with hc | hc
      · exact hbefore c hc
      · rw [List.mem_singleton.mp hc]
        simpa [Exchange.look] using hnone
    · intro w hw
      simp only [Exchange.look, Option.ite_none_right_eq_some, Option.some.injEq] at hw
      obtain ⟨hv, rfl⟩ := hw
      exact ⟨hv, p.consumed, rfl, hbefore⟩
    · unfold Placed
      rw [howner]
      exact hplaced

theorem step (hd : Does p m p') : Accounted engines p' := by
  have hplaced := h.placed
  have hlaunched := h.launched
  unfold Placed at hplaced
  cases hd with
  | launch howner => exact h.launch (.launch howner)
  | finish hmem => exact h.finish (.finish hmem)
  | send hmem => exact h.send (.send hmem)
  | receive howner hwatches hqueue => exact h.receive (.receive howner hwatches hqueue)
  -- after the race only the owner moves
  | cancel howner hwatches =>
    rw [howner] at hplaced hlaunched
    exact { h with launched := hlaunched, placed := ⟨hplaced.1, hplaced.2, hwatches⟩ }
  | join howner hworking hreturning =>
    rw [howner] at hplaced hlaunched
    exact { h with
      launched := hlaunched
      placed := ⟨rfl, hworking, hreturning, hplaced.2.2⟩ }
  | drain howner hqueue =>
    rw [howner] at hplaced
    refine { h with results := ?_, placed := ?_ }
    · rw [← h.results, hqueue]
      simp
    · unfold Placed
      rw [howner]
      exact hplaced
  | conclude howner hqueue =>
    rw [howner] at hplaced hlaunched
    exact { h with
      launched := hlaunched
      placed := ⟨hqueue, hplaced.2.1, hplaced.2.2.1, hplaced.2.2.2, rfl⟩ }

theorem next (m : Move) : Accounted engines (p.next m) := by
  unfold Party.next
  cases hm : p.step? m with
  | none => exact h
  | some p' => exact h.step (does_of_step? hm)

theorem run (moves : List Move) : Accounted engines (p.run moves) := by
  induction moves generalizing p with
  | nil => exact h
  | cons m rest ih => exact ih (h.next m)

end Accounted

/-! ### What comes of it -/

/-- Results up to the first conclusive one, and that one. -/
def throughDecision : List EngineResult → List EngineResult
  | [] => []
  | r :: rest => if r.verdict.conclusive then [r] else r :: throughDecision rest

theorem throughDecision_undecided {rs : List EngineResult}
    (h : ∀ r ∈ rs, r.verdict.conclusive = false) : throughDecision rs = rs := by
  induction rs with
  | nil => rfl
  | cons r rest ih =>
    rw [throughDecision, h r (List.mem_cons_self ..), ih fun c hc => h c (List.mem_cons_of_mem _ hc)]
    rfl

theorem throughDecision_decided {before rest : List EngineResult} {w : EngineResult}
    (h : ∀ r ∈ before, r.verdict.conclusive = false) (hw : w.verdict.conclusive = true) :
    throughDecision (before ++ w :: rest) = before ++ [w] := by
  induction before with
  | nil => simp [throughDecision, hw]
  | cons r more ih =>
    rw [List.cons_append, throughDecision, h r (List.mem_cons_self ..),
      ih fun c hc => h c (List.mem_cons_of_mem _ hc)]
    rfl

/-- What a race comes to whose results arrive in this order. -/
def decision (arrived : List EngineResult) : EngineResult :=
  (arrived.find? (·.verdict.conclusive)).getD .inconclusive

namespace Accounted
variable (h : Accounted engines p)
include h

/-- Whatever has been looked at is the beginning of what has arrived, up to the first conclusive
result at most. -/
theorem prefix_consumed : p.consumed <+: throughDecision (p.arrived.map (·.2)) := by
  rw [← h.results]
  cases hw : p.exchange.winner with
  | some w =>
    obtain ⟨hv, before, hconsumed, hbefore⟩ := h.decided w hw
    rw [hconsumed, List.append_assoc, List.singleton_append]
    exact (throughDecision_decided hbefore hv).symm ▸ List.prefix_refl _
  | none =>
    have hbefore := h.undecided hw
    generalize p.drained ++ p.exchange.queue = rest
    generalize p.consumed = consumed at hbefore
    induction consumed with
    | nil => exact List.nil_prefix
    | cons r more ih =>
      rw [List.cons_append, throughDecision, hbefore r (List.mem_cons_self ..)]
      exact List.prefix_cons_inj r |>.mpr (ih fun c hc => hbefore c (List.mem_cons_of_mem _ hc))

/-- An owner who looks no further has seen the first conclusive result, or all there are. -/
theorem settled (hwatches : p.exchange.watches = false) :
    p.consumed = throughDecision (p.arrived.map (·.2)) ∧
      p.exchange.outcome = decision (p.arrived.map (·.2)) := by
  rw [← h.results]
  cases hw : p.exchange.winner with
  | some w =>
    obtain ⟨hv, before, hconsumed, hbefore⟩ := h.decided w hw
    have hfind : before.find? (·.verdict.conclusive) = none := by
      simpa using hbefore
    rw [hconsumed, List.append_assoc, List.singleton_append, throughDecision_decided hbefore hv]
    simp [Exchange.outcome, decision, hw, hv, hfind]
  | none =>
    -- All results were looked at, so nothing is left to be drained.
    have hdue : p.exchange.due = 0 := by simpa [Exchange.watches, hw] using hwatches
    have hall : p.drained ++ p.exchange.queue = [] := by
      obtain ⟨hworkers, hresults⟩ := h.count
      have hlaunched := h.launched
      have hcount := h.due
      refine List.eq_nil_of_length_eq_zero ?_
      rw [List.length_append]
      omega
    have hbefore := h.undecided hw
    have hfind : p.consumed.find? (·.verdict.conclusive) = none := by
      simpa using hbefore
    rw [hall, List.append_nil, throughDecision_undecided hbefore]
    simp [Exchange.outcome, decision, hw, hfind]

/-- **The party is never stuck.** Until the owner has returned a move is possible. -/
theorem progress (hreturned : ∀ o, p.owner ≠ .returned o) : ∃ m, (p.step? m).isSome = true := by
  have hplaced := h.placed
  unfold Placed at hplaced
  by_cases hr : p.returning = []
  · by_cases hw : p.working = []
    · cases howner : p.owner with
      | racing left =>
        rw [howner] at hplaced
        cases left with
        | cons e rest => exact ⟨.launch, by simp [step?, launch?, howner]⟩
        | nil =>
          cases hwatches : p.exchange.watches with
          | false => exact ⟨.cancel, by simp [step?, cancel?, howner, hwatches]⟩
          | true =>
            -- All workers have sent their results, and not all of these were looked at.
            have hqueue : p.exchange.queue ≠ [] := by
              intro hnil
              obtain ⟨hworkers, hresults⟩ := h.count
              have hlaunched := h.launched
              have hdue := h.due
              simp only [Exchange.watches, Bool.and_eq_true, bne_iff_ne] at hwatches
              simp only [howner, Owner.left, hr, hw, hnil, hplaced.2, List.length_nil] at *
              omega
            obtain ⟨r, rest, hq⟩ := List.exists_cons_of_ne_nil hqueue
            exact ⟨.receive, by
              simp [step?, Party.receive?, howner, Exchange.receive?_of_queue hwatches hq]⟩
      | waiting => exact ⟨.join, by simp [step?, join?, howner, hr, hw]⟩
      | draining =>
        rw [howner] at hplaced
        cases hq : p.exchange.queue with
        | nil => exact ⟨.conclude, by simp [step?, conclude?, howner, hq]⟩
        | cons r rest =>
          exact ⟨.drain, by
            simp [step?, Party.drain?, howner, Exchange.drain?_of_queue hplaced.1 hq]⟩
      | returned o => exact absurd howner (hreturned o)
    · obtain ⟨worker, hmem⟩ := List.exists_mem_of_ne_nil _ hw
      exact ⟨.finish worker .inconclusive, by simp [step?, finish?, hmem]⟩
  · obtain ⟨⟨worker, result⟩, hmem⟩ := List.exists_mem_of_ne_nil _ hr
    exact ⟨.send worker result, h.send_possible hmem⟩

/-- After the owner has returned nothing happens any more. -/
theorem ended {o : EngineResult}
    (howner : p.owner = .returned o) (m : Move) : p.step? m = none := by
  have hplaced := h.placed
  unfold Placed at hplaced
  rw [howner] at hplaced
  cases m <;> simp [step?, launch?, finish?, Party.send?, Party.receive?, cancel?, join?,
    Party.drain?, conclude?, howner, hplaced.2.1, hplaced.2.2.1]

end Accounted

theorem run_ended (h : Accounted engines p) {o : EngineResult} (howner : p.owner = .returned o)
    (moves : List Move) : p.run moves = p := by
  induction moves with
  | nil => rfl
  | cons m rest ih => simpa [Party.run, Party.next, h.ended howner m] using ih

def ahead (p : Party) : Nat :=
  4 * p.owner.left + 3 * p.working.length + 2 * p.returning.length + p.exchange.queue.length +
    match p.owner with
    | .racing _ => 3
    | .waiting => 2
    | .draining => 1
    | .returned _ => 0

/-- Each move brings the party nearer to its end. -/
theorem ahead_lt (hm : p.step? m = some p') : p'.ahead < p.ahead := by
  unfold ahead
  cases does_of_step? hm with
  | launch howner =>
    simp only [howner, Owner.left, List.length_append, List.length_cons, List.length_nil]
    omega
  | finish hmem | send hmem =>
    have hlength := (List.perm_cons_erase hmem).length_eq
    simp only [List.length_append, List.length_cons, List.length_nil] at hlength ⊢
    omega
  | receive howner hwatches hqueue =>
    simp only [Exchange.look, hqueue, List.length_cons]
    omega
  | join howner =>
    simp only [howner, Owner.left, Exchange.close]
    omega
  | drain howner hqueue =>
    simp only [hqueue, List.length_cons]
    omega
  | cancel howner | conclude howner =>
    simp only [howner, Owner.left]
    omega

end Party
end Regatta
