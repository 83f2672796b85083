import Mathlib.Data.List.Nodup
import Regatta.Proofs.Race.Course

/-! A race against runs of its engines alone.

An engine's `standalone` arrival is what a run of that engine by itself, never cancelled, comes to,
and when. `run_eq_standalone` says what a race of many engines does in these terms: the first
conclusive arrival wins, and the results that are looked at are the arrivals up to it, in the order
of time. Neither the order of the engines nor telling the others to stop can change the outcome.

Two things are assumed. What an engine does may not depend on which engines were started before it
(`Independent`), and no two arrivals may come at the same instant before there is a winner
(`Staggered`). -/
namespace Regatta.Race

open Worker (Arrival)

/-! ### The first conclusive arrival -/

def inOrder (as : List Arrival) : List Arrival := as.mergeSort fun a b => a.instant ≤ b.instant

def winner (as : List Arrival) : Option Arrival :=
  (inOrder as).find? (·.result.verdict.conclusive)

/-- The arrivals that are no later than the winner, in the order of time. -/
def upToWinner (as : List Arrival) : List Arrival :=
  (inOrder as).filter fun a => (winner as).all (a.instant ≤ ·.instant)

/-- What a race comes to in which so many engines take part and these arrive: the result of the
winner; without one nothing is decided, which shows when the last engine has arrived. -/
def settled (count : Nat) (as : List Arrival) : Option EngineResult :=
  match winner as with
  | some a => some a.result
  | none => if as.length = count then some .inconclusive else none

variable {b : Bench} {engines es : List Engine} (as : List Arrival)

theorem inOrder_perm : (inOrder as).Perm as := List.mergeSort_perm _ _

theorem inOrder_pairwise :
    (inOrder as).Pairwise fun a b => a.instant ≤ b.instant := by
  have h : (inOrder as).Pairwise fun a b => decide (a.instant ≤ b.instant) = true := by
    refine List.pairwise_mergeSort (fun _ _ _ hab hbc => ?_) (fun a b => ?_) as
    · exact decide_eq_true (Int.le_trans (of_decide_eq_true hab) (of_decide_eq_true hbc))
    · simpa using Int.le_total a.instant b.instant
  exact h.imp of_decide_eq_true

theorem winner_eq_none {as : List Arrival} (h : winner as = none) :
    ∀ a ∈ as, a.result.verdict.conclusive = false := by
  intro a ha
  simpa using List.find?_eq_none.mp h a ((inOrder_perm as).mem_iff.mpr ha)

theorem winner_eq_some {as : List Arrival} {w : Arrival} (h : winner as = some w) :
    w ∈ as ∧ w.result.verdict.conclusive = true ∧ inTime as w = true := by
  obtain ⟨hv, before, after, hsplit, hbefore⟩ := List.find?_eq_some_iff_append.mp h
  have hmem : ∀ {a}, a ∈ as ↔ a ∈ before ∨ a = w ∨ a ∈ after := by
    intro a
    rw [← (inOrder_perm as).mem_iff, hsplit]
    simp
  have hafter : ∀ a ∈ after, w.instant ≤ a.instant := by
    have hsorted := inOrder_pairwise as
    rw [hsplit] at hsorted
    exact (List.pairwise_cons.mp (List.pairwise_append.mp hsorted).2.1).1
  refine ⟨hmem.mpr (.inr (.inl rfl)), hv, inTime_iff.mpr fun c hc hcv => ?_⟩
  rcases hmem.mp hc with hc | rfl | hc
  · have := hbefore c hc
    rw [hcv] at this
    cases this
  · exact Int.le_refl _
  · exact hafter c hc

/-- An arrival is no later than the winner when no conclusive arrival comes before it. -/
theorem all_winner (a : Arrival) :
    (winner as).all (a.instant ≤ ·.instant) = inTime as a := by
  refine Bool.eq_iff_iff.mpr ?_
  rw [inTime_iff]
  cases hw : winner as with
  | none =>
    refine ⟨fun _ c hc hcv => ?_, fun _ => rfl⟩
    rw [winner_eq_none hw c hc] at hcv
    cases hcv
  | some w =>
    obtain ⟨hmem, hv, htime⟩ := winner_eq_some hw
    rw [Option.all_some, decide_eq_true_eq]
    exact ⟨fun hle c hc hcv => Int.le_trans hle (inTime_iff.mp htime c hc hcv),
      fun h => h w hmem hv⟩

theorem Foretold.eq {count : Nat} {as looked : List Arrival} {o : Option EngineResult}
    (h : Foretold count as looked o) : looked = upToWinner as ∧ o = settled count as := by
  have htime : upToWinner as = (inOrder as).filter (inTime as) :=
    List.filter_congr fun a _ => all_winner as a
  have hperm : looked.Perm (upToWinner as) := by
    rw [htime]
    exact h.perm.trans ((inOrder_perm as).filter _).symm
  constructor
  · -- Two lists in the order of time, and no two of the arrivals are simultaneous.
    refine List.Perm.eq_of_pairwise (fun a c ha hc hac hca => ?_) (h.ordered.imp Int.le_of_lt)
      (List.Pairwise.filter _ (inOrder_pairwise as)) hperm
    have hnodup : (looked.map (·.instant)).Nodup :=
      List.pairwise_map.mpr (h.ordered.imp Int.ne_of_lt)
    exact List.inj_on_of_nodup_map hnodup ha (hperm.mem_iff.mpr hc) (Int.le_antisymm hac hca)
  · unfold settled
    cases hw : winner as with
    | none => exact h.drawn (winner_eq_none hw)
    | some w =>
      obtain ⟨hmem, hv, hin⟩ := winner_eq_some hw
      exact h.won w hmem hv hin

/-! ### Engines alone -/

/-- What a run of the engine by itself comes to, and when; `none` when it has no end. -/
def standalone (b : Bench) (id circuit : Text) (budget : Duration) (e : Engine) :
    Option Arrival :=
  let record := Worker.run b id circuit budget e none
  record.result.map fun r => ⟨record.bench.now, r⟩

theorem standalone_eq (b : Bench) (id circuit : Text) (budget : Duration) (e : Engine) :
    standalone b id circuit budget e =
      (Worker.start b id circuit budget e).2.fate false b.now := by
  have hdue := Worker.due_fate false (Worker.start b id circuit budget e).2 b.now
  obtain ⟨record, hplay, hresult, hnow⟩ :=
    Worker.play_of_due (b := (Worker.start b id circuit budget e).1) [] hdue
  have hrun : Worker.run b id circuit budget e none = record :=
    Timeline.complete_going hplay
  unfold standalone
  rw [hrun]
  dsimp only
  rw [hresult]
  cases hf : (Worker.start b id circuit budget e).2.fate false b.now with
  | none => rfl
  | some a => simp [hnow a hf]

/-- An engine that is started after others is the one that is started alone. -/
def Independent (b : Bench) (id circuit : Text) (budget : Duration) (engines : List Engine) :
    Prop :=
  ∀ before ⊆ engines, ∀ e ∈ engines,
    (Worker.start (startWorkers b id circuit budget before).1 id circuit budget e).2 =
      (Worker.start b id circuit budget e).2

theorem Independent.of_perm {id circuit : Text} {budget : Duration}
    (h : Independent b id circuit budget engines)
    (hp : es.Perm engines) : Independent b id circuit budget es := by
  intro before hb e he
  exact h before (List.Subset.trans hb hp.subset) e (hp.subset he)

theorem startWorkers_now (b : Bench) (id circuit : Text) (budget : Duration) (es : List Engine) :
    (startWorkers b id circuit budget es).1.now = b.now := by
  induction es generalizing b with
  | nil => rfl
  | cons e rest ih => exact ih _

theorem startWorkers_concat (b : Bench) (id circuit : Text) (budget : Duration)
    (before : List Engine) (e : Engine) :
    (startWorkers b id circuit budget (before ++ [e])).1 =
      (Worker.start (startWorkers b id circuit budget before).1 id circuit budget e).1 := by
  induction before generalizing b with
  | nil => rfl
  | cons _ rest ih => exact ih _

theorem Independent.startWorkers {id circuit : Text} {budget : Duration}
    {before : List Engine} (h : Independent b id circuit budget engines)
    (hb : before ⊆ engines) (hes : es ⊆ engines) :
    (startWorkers (startWorkers b id circuit budget before).1 id circuit budget es).2 =
      es.map fun e => (Worker.start b id circuit budget e).2 := by
  induction es generalizing before with
  | nil => rfl
  | cons e rest ih =>
    obtain ⟨he, hrest⟩ := List.cons_subset.mp hes
    have hmore : before ++ [e] ⊆ engines := List.append_subset.mpr ⟨hb, by simpa using he⟩
    have hothers := ih hmore hrest
    rw [startWorkers_concat] at hothers
    exact List.cons_eq_cons.mpr ⟨h before hb e he, hothers⟩

/-- A tool that looks at nothing but the call, and leaves the files alone when it starts, runs its
engines independently. -/
theorem independent_of_tool {behavior : Invocation → Behavior}
    (htool : b.tool = fun _ _ i => behavior i) (hfiles : ∀ i files, (behavior i).opening files = files)
    (id circuit : Text) (budget : Duration) (engines : List Engine) :
    Independent b id circuit budget engines := by
  intro before _ e _
  have hsame : ∀ (es : List Engine) (b' : Bench), b'.now = b.now → b'.tool = b.tool →
      b'.files = b.files → (Worker.start (startWorkers b' id circuit budget es).1 id circuit
        budget e).2 = (Worker.start b id circuit budget e).2 := by
    intro es
    induction es with
    | nil =>
      intro b' hn ht hf
      simp only [startWorkers, Worker.start, Bench.call, Bench.deadline, Bench.absolute, hn, ht, hf,
        htool]
    | cons e' rest ih =>
      intro b' hn ht hf
      refine ih _ hn ht ?_
      show (b'.tool _ _ _).opening b'.files = b.files
      rw [ht, htool, hfiles, hf]
  exact hsame before b rfl rfl rfl

/-! ### The race -/

theorem undecided_start (id : Text) (ws : List Worker) :
    Undecided ⟨id, ws, [], .ofCount ws.length⟩ :=
  ⟨rfl, rfl, rfl, rfl, rfl, Nat.le_refl _⟩

theorem sound_start {id circuit : Text} {budget : Duration} :
    ∀ w ∈ engines.map fun e => (Worker.start b id circuit budget e).2, w.activity.Sound := by
  intro w hw
  obtain ⟨e, _, rfl⟩ := List.mem_map.mp hw
  exact Activity.start_sound _ _

theorem arrivals_start (b : Bench) (id circuit : Text) (budget : Duration) (es : List Engine) :
    arrivals false (es.map fun e => (Worker.start b id circuit budget e).2) b.now =
      es.filterMap (standalone b id circuit budget) := by
  unfold arrivals
  rw [List.filterMap_map]
  exact List.filterMap_congr fun e _ => (standalone_eq b id circuit budget e).symm

/-- What a race does can be foretold from the standalone arrivals. -/
theorem foretold_run {id circuit : Text} {budget : Duration}
    (hi : Independent b id circuit budget es)
    (hs : Staggered (es.filterMap (standalone b id circuit budget))) :
    ∃ looked, Foretold es.length (es.filterMap (standalone b id circuit budget)) looked
        (Race.run b id circuit budget es none).result ∧
      RaceEvent.results (Race.run b id circuit budget es none).events =
        looked.map (·.result) := by
  cases he : es.isEmpty with
  | true =>
    rw [List.isEmpty_iff] at he
    subst he
    exact ⟨[], Foretold.nobody 0, rfl⟩
  | false =>
    have hworkers : (startWorkers b id circuit budget es).2 =
        es.map fun e => (Worker.start b id circuit budget e).2 :=
      hi.startWorkers (List.nil_subset es) (List.Subset.refl es)
    have hnow := startWorkers_now b id circuit budget es
    have hstart : Race.start b id circuit budget es = ((startWorkers b id circuit budget es).1,
        .going ⟨id, (startWorkers b id circuit budget es).2, [], .ofCount es.length⟩) := by
      simp [Race.start, he]
    rw [hworkers] at hstart
    have hlength : (es.map fun e => (Worker.start b id circuit budget e).2).length = es.length :=
      List.length_map _
    have hfulfils := play_undecided (b := (startWorkers b id circuit budget es).1)
      (undecided_start id (es.map fun e => (Worker.start b id circuit budget e).2)) sound_start
      (by rw [hnow, arrivals_start]; exact hs)
    rw [hnow, arrivals_start, hlength] at hfulfils
    obtain ⟨record, looked, hplay, hforetold, hresults⟩ := hfulfils []
    have hrun : Race.run b id circuit budget es none = record := by
      unfold Race.run
      rw [hstart]
      exact Timeline.complete_going hplay
    rw [hrun]
    exact ⟨looked, hforetold, hresults⟩

/-- **The race is decided by the first engine that would be conclusive on its own.** It comes to the
result of the first conclusive standalone arrival, or is undecided when all have arrived and none is
conclusive, and the results that are looked at are those of the standalone arrivals up to the winner,
in the order of time. In whatever order the engines are named, the same comes of it. -/
theorem run_eq_standalone (b : Bench) (id circuit : Text) (budget : Duration)
    (engines : List Engine) (hi : Independent b id circuit budget engines)
    (hs : Staggered (engines.filterMap (standalone b id circuit budget))) (es : List Engine)
    (hes : es.Perm engines) :
    (Race.run b id circuit budget es none).result =
        settled engines.length (engines.filterMap (standalone b id circuit budget)) ∧
      RaceEvent.results (Race.run b id circuit budget es none).events =
        (upToWinner (engines.filterMap (standalone b id circuit budget))).map (·.result) := by
  have hperm := hes.filterMap (standalone b id circuit budget)
  obtain ⟨looked, hforetold, hresults⟩ := foretold_run (hi.of_perm hes) (hs.of_perm hperm)
  have hsame := hforetold.of_perm hperm.symm
  rw [hes.length_eq] at hsame
  obtain ⟨hlooked, houtcome⟩ := hsame.eq
  exact ⟨houtcome, by rw [hresults, hlooked]⟩

/-- A tool with three engines: one never ends by itself, one finds a counterexample after a while,
and one returns sooner and knows nothing. -/
def trio (i : Invocation) : Behavior :=
  let halted := fun _ => Course.giveUp 5
  if i.label = Engine.pdr.name then ⟨[], none, .stopped, fun f => f, fun f => f, halted⟩
  else if i.label = Engine.bmc.name then
    ⟨[(2, "depth 1")], some 30, .done "SAT", fun f => f, fun f => f, halted⟩
  else ⟨[], some 10, .done "", fun f => f, fun f => f, halted⟩

def trioBench : Bench :=
  { now := 0, files := default, tool := fun _ _ i => trio i, randomEnding := fun _ => [] }

theorem standalone_trio :
    [Engine.pdr, .bmc, .sim].filterMap (standalone trioBench [] [] 0) =
      [⟨30, ⟨.sat, .bmc, some 30⟩⟩, ⟨10, ⟨.unknown, .sim, some 10⟩⟩] := by
  have hpdr : standalone trioBench [] [] 0 .pdr = none := by
    rw [standalone_eq]
    exact (Worker.Due.idles rfl rfl).fate_eq.2
  have hbmc : standalone trioBench [] [] 0 .bmc = some ⟨30, ⟨.sat, .bmc, some 30⟩⟩ := by
    rw [standalone_eq]
    exact (Worker.Due.goes rfl rfl (.goes rfl rfl (.ends rfl))).fate_eq.2
  have hsim : standalone trioBench [] [] 0 .sim = some ⟨10, ⟨.unknown, .sim, some 10⟩⟩ := by
    rw [standalone_eq]
    exact (Worker.Due.goes rfl rfl (.ends rfl)).fate_eq.2
  simp [hpdr, hbmc, hsim]

theorem run_eq_standalone_trio :
    Independent trioBench [] [] 0 [.pdr, .bmc, .sim] ∧
      Staggered ([Engine.pdr, .bmc, .sim].filterMap (standalone trioBench [] [] 0)) ∧
      ∀ es, es.Perm [Engine.pdr, .bmc, .sim] →
        (Race.run trioBench [] [] 0 es none).result = some ⟨.sat, .bmc, some 30⟩ ∧
          RaceEvent.results (Race.run trioBench [] [] 0 es none).events =
            [⟨.unknown, .sim, some 10⟩, ⟨.sat, .bmc, some 30⟩] := by
  have hi : Independent trioBench [] [] 0 [.pdr, .bmc, .sim] := by
    refine independent_of_tool rfl (fun i files => ?_) [] [] 0 _
    unfold trio
    dsimp only
    split
    · rfl
    · split <;> rfl
  have hs : Staggered ([Engine.pdr, .bmc, .sim].filterMap (standalone trioBench [] [] 0)) := by
    rw [standalone_trio]
    simp [Staggered]
  refine ⟨hi, hs, fun es hes => ?_⟩
  obtain ⟨hresult, hevents⟩ := run_eq_standalone trioBench [] [] 0 _ hi hs es hes
  rw [standalone_trio] at hresult hevents
  have hforetold : Foretold 3 [⟨30, ⟨.sat, .bmc, some 30⟩⟩, ⟨10, ⟨.unknown, .sim, some 10⟩⟩]
      [⟨10, ⟨.unknown, .sim, some 10⟩⟩, ⟨30, ⟨.sat, .bmc, some 30⟩⟩]
      (some ⟨.sat, .bmc, some 30⟩) :=
    ((Foretold.decided 2 rfl (by simp)).cons rfl (by simp)).of_perm (.swap ..)
  obtain ⟨hlooked, houtcome⟩ := hforetold.eq
  rw [hresult, hevents, ← hlooked]
  exact ⟨houtcome.symm, rfl⟩

end Regatta.Race
