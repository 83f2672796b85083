import Regatta.Api.Server
import Regatta.Proofs.Decimal.Double
import Regatta.Proofs.Json.Numeral
import Regatta.Proofs.Service.Allotment
import Regatta.Proofs.Service.Request

/-! The time that a sender asks for, and the time that the engines get.

A number of seconds goes a long way: it is read as a double, multiplied by a thousand million, cut off
to whole nanoseconds, and replaced by the default if nothing positive is left of it. Up to the cut the
two roundings change it by less than a 2⁵⁰-th part (`exists_budget`); what comes out is what every engine
of the run gets (`create_budget`). -/
namespace Regatta

theorem Runner.submit_job {r r' : Runner} {request : Request} {run : Run}
    (h : r.submit request = (r', .ok run)) : ∃ job : Job, job.phase = .starting ∧
      job.request = request.complete ∧ job.run = run ∧ r'.jobs = r.jobs ++ [job] := by
  unfold submit at h
  split at h
  · cases h
  · dsimp only at h
    split at h
    · cases h
    · cases h
      exact ⟨_, rfl, rfl, rfl, rfl⟩

namespace Api

open Json (Numeral)

namespace Submission

/-! ### The last word on the time -/

/-- The value of the last member that is about the time. -/
def lastTimeout : List (Text × Json) → Option Json
  | [] => none
  | (key, v) :: ms => (lastTimeout ms).or (if Json.foldKey key == "timeout_s" then some v else none)

/-- The number of seconds that a body asks for, as it is written there. -/
def requested? (body : Text) : Option Text :=
  match Json.parseFirst (body.take bodyLimit) with
  | some (.object ms, _) =>
    match lastTimeout ms with
    | some (.number l) => some l
    | _ => none
  | _ => none

variable {s s' : Submission} {body key l : Text} {v : Json}

theorem exists_of_requested (h : requested? body = some l) : ∃ ms rest,
    Json.parseFirst (body.take bodyLimit) = some (.object ms, rest) ∧
      lastTimeout ms = some (.number l) := by
  unfold requested? at h
  split at h
  · rename_i ms rest hparse
    split at h
    · rename_i hlast
      cases h
      exact ⟨ms, rest, hparse, hlast⟩
    · cases h
  · cases h

theorem setField_seconds_of_ne (hkey : (Json.foldKey key == "timeout_s") = false)
    (h : s.setField key v = some s') : s'.seconds = s.seconds := by
  unfold setField at h
  dsimp only at h
  rw [hkey] at h
  split at h
  · obtain ⟨x, -, rfl⟩ := Option.map_eq_some_iff.mp h
    rfl
  split at h
  · split at h
    · cases h
      rfl
    · obtain ⟨x, -, rfl⟩ := Option.map_eq_some_iff.mp h
      rfl
    · cases h
  rw [if_neg Bool.false_ne_true] at h
  split at h
  · split at h
    · cases h
      rfl
    · obtain ⟨x, -, rfl⟩ := Option.map_eq_some_iff.mp h
      rfl
    · cases h
  split at h
  · split at h
    · cases h
      rfl
    · cases h
      rfl
    · cases h
  · cases h
    rfl

theorem setField_timeout (hkey : (Json.foldKey key == "timeout_s") = true) :
    s.setField key (.number l) = (Json.double? l).map fun x => { s with seconds := some x } := by
  have hdataset : (Text.ofString "timeout_s" == "dataset") = false := by decide +kernel
  have hengines : (Text.ofString "timeout_s" == "engines") = false := by decide +kernel
  have hfold : Json.foldKey key = "timeout_s" := eq_of_beq hkey
  unfold setField
  dsimp only
  rw [hkey, hfold, hdataset, hengines]
  rfl

variable {ms : List (Text × Json)}

theorem seconds_of_no_timeout (hnone : lastTimeout ms = none)
    (h : ms.foldlM (fun s m => s.setField m.1 m.2) s = some s') : s'.seconds = s.seconds := by
  induction ms generalizing s with
  | nil =>
    cases h
    rfl
  | cons m ms ih =>
    rw [List.foldlM_cons] at h
    obtain ⟨s₁, hfirst, hrest⟩ := Option.bind_eq_some_iff.mp h
    rw [lastTimeout, Option.or_eq_none_iff] at hnone
    have hkey : (Json.foldKey m.1 == "timeout_s") = false := by
      refine Bool.eq_false_iff.mpr fun hkey => ?_
      rw [if_pos hkey] at hnone
      cases hnone.2
    rw [ih hnone.1 hrest, setField_seconds_of_ne hkey hfirst]

/-- Of several numbers of seconds the last one counts. -/
theorem seconds_of_lastTimeout (hlast : lastTimeout ms = some (.number l))
    (h : ms.foldlM (fun s m => s.setField m.1 m.2) s = some s') :
    ∃ y, Json.double? l = some y ∧ s'.seconds = some y := by
  induction ms generalizing s with
  | nil => cases hlast
  | cons m ms ih =>
    rw [List.foldlM_cons] at h
    obtain ⟨s₁, hfirst, hrest⟩ := Option.bind_eq_some_iff.mp h
    cases hms : lastTimeout ms with
    | some v =>
      rw [lastTimeout, hms, Option.some_or] at hlast
      exact ih (hms.trans hlast) hrest
    | none =>
      rw [lastTimeout, hms, Option.none_or, Option.ite_none_right_eq_some] at hlast
      obtain ⟨hkey, hv⟩ := hlast
      rw [Option.some.inj hv, setField_timeout hkey] at hfirst
      obtain ⟨y, hy, rfl⟩ := Option.map_eq_some_iff.mp hfirst
      exact ⟨y, hy, seconds_of_no_timeout hms hrest⟩

theorem ofBody_seconds (hl : requested? body = some l) (h : ofBody body = some s) :
    ∃ y, Json.double? l = some y ∧ s.seconds = some y := by
  obtain ⟨ms, rest, hparse, hlast⟩ := exists_of_requested hl
  unfold ofBody at h
  rw [hparse] at h
  exact seconds_of_lastTimeout hlast h

theorem mem_of_lastTimeout (h : lastTimeout ms = some v) :
    ∃ key, (key, v) ∈ ms := by
  induction ms with
  | nil => cases h
  | cons m ms ih =>
    rw [lastTimeout, Option.or_eq_some_iff] at h
    rcases h with h | ⟨-, h⟩
    · obtain ⟨key, hmem⟩ := ih h
      exact ⟨key, List.mem_cons_of_mem _ hmem⟩
    · obtain ⟨-, h⟩ := Option.ite_none_right_eq_some.mp h
      cases h
      exact ⟨m.1, List.mem_cons_self ..⟩

theorem exists_numeral_of_requested (h : requested? body = some l) : ∃ x : Numeral, l = x.text := by
  obtain ⟨ms, rest, hparse, hlast⟩ := exists_of_requested h
  obtain ⟨key, hmem⟩ := mem_of_lastTimeout hlast
  exact Json.exists_numeral_of_member hparse hmem

/-! ### Seconds and nanoseconds -/

theorem ofInt_second : Double.ofInt Duration.second = .finite false 8388608000000000 (-23) := by
  decide +kernel

/-- So many nanoseconds, or the least duration where they are too many. -/
def clip (n : Int) : Duration := if n < Number.wordLimit then n else Number.leastWord

open Double (Rounds)

variable {x : Double} {m : Nat} {e : Int}

theorem budget_of_finite (h : x.mul (.ofInt Duration.second) = .finite false m e) :
    budget x = clip ⌊(m : ℚ) * 2 ^ e⌋ := by
  have hfits (n : Int) (hn : 0 ≤ n) : Number.fitsWord n = true ↔ n < Number.wordLimit := by
    rw [Number.fitsWord_iff]
    omega
  unfold budget clip
  rw [h, Double.truncate?_eq]
  exact if_congr (hfits _ (Int.floor_nonneg.mpr (by positivity))) rfl rfl

theorem budget_of_infinite {q : ℚ} (h : x.mul (.ofInt Duration.second) = .infinite false)
    (hq : 2 ^ 63 ≤ q) : budget x = clip ⌊q⌋ := by
  have hlarge : ¬ ⌊q⌋ < (Number.wordLimit : Int) := by
    have hlimit : (Number.wordLimit : Int) = 2 ^ 63 := by decide
    rw [hlimit, not_lt, Int.le_floor]
    exact_mod_cast hq
  unfold budget clip
  rw [h, if_neg hlarge]
  rfl

theorem two_zpow_le {n : Int} (h : n ≤ -60) : (2 : ℚ) ^ n ≤ 1 / 2 ^ 60 := by
  have hle : (2 : ℚ) ^ n ≤ 2 ^ (-60 : Int) := zpow_le_zpow_right₀ one_le_two h
  exact hle.trans_eq (by norm_num)

/-- **Up to the cut to whole nanoseconds, a number of seconds changes by less than a 2⁵⁰-th part.** -/
theorem exists_budget {q : ℚ} (hq : 0 < q) (hm : 0 < m) (h : Rounds false q (.finite false m e)) :
    ∃ δ : ℚ, |δ| ≤ 1 / 2 ^ 50 ∧ budget (.finite false m e) = clip ⌊q * 10 ^ 9 * (1 + δ)⌋ := by
  have hsecond : ((8388608000000000 : Nat) : ℚ) * 2 ^ (-23 : Int) = 10 ^ 9 := by norm_num
  have hmul := Double.rounds_mul false false hm (by decide : 0 < 8388608000000000) e (-23)
  rw [hsecond, ← ofInt_second] at hmul
  generalize hx : (Double.finite false m e).mul (.ofInt Duration.second) = x at hmul
  have hsmallest := two_zpow_le (n := -1075) (by decide)
  have hsmall := two_zpow_le (n := -1022) (by decide)
  -- what is less than a nanosecond is cut to none
  have hnone {m' : Nat} {e' : Int} (hx' : x = .finite false m' e') (hp : (m' : ℚ) * 2 ^ e' < 1)
      (hless : q * 10 ^ 9 < 1) :
      ∃ δ : ℚ, |δ| ≤ 1 / 2 ^ 50 ∧ budget (.finite false m e) = clip ⌊q * 10 ^ 9 * (1 + δ)⌋ := by
    refine ⟨0, by norm_num, ?_⟩
    rw [budget_of_finite (hx.trans hx'), add_zero, mul_one,
      Int.floor_eq_zero_iff.mpr ⟨by positivity, hp⟩, Int.floor_eq_zero_iff.mpr ⟨by positivity, hless⟩]
  cases h with
  | near _ _ herror =>
    obtain ⟨hlow, hhigh⟩ := abs_le.mp herror
    cases hmul with
    | near _ _ hround =>
      obtain ⟨δ, hδ, hp⟩ := Double.exists_relative_error hq (by norm_num) herror hround
      exact ⟨δ, hδ, by rw [budget_of_finite hx, hp]⟩
    | tiny hless _ hround => exact hnone rfl (by linarith [(abs_le.mp hround).2]) (by linarith)
    | huge hbig =>
      have hlarge := (pow_le_pow_right₀ (one_le_two (α := ℚ)) (by decide : 64 ≤ 1023)).trans hbig
      refine ⟨0, by norm_num, ?_⟩
      rw [add_zero, mul_one]
      exact budget_of_infinite hx (by linarith only [hlarge, hhigh, hq])
  | tiny hless _ herror =>
    obtain ⟨hlow, hhigh⟩ := abs_le.mp herror
    cases hmul with
    | near _ _ hround => exact hnone rfl (by linarith [(abs_le.mp hround).2]) (by linarith)
    | tiny _ _ hround => exact hnone rfl (by linarith [(abs_le.mp hround).2]) (by linarith)
    | huge hbig =>
      have hlarge := (one_le_pow₀ (one_le_two (α := ℚ))).trans hbig
      linarith only [hlarge, hhigh, hless, hsmall, hsmallest]

/-! ### Acceptance -/

theorem toRequest_budget {files : FileTree} {d : Defaults} {r : Request} (hx : s.seconds = some x)
    (h : s.toRequest files d = .ok r) : isPositive x = true ∧ r.budget = budget x := by
  have hchosen : s.chosenBudget d = if isPositive x then .ok (budget x) else .error .timeout := by
    rw [chosenBudget, hx]
  unfold toRequest at h
  cases hdataset : s.checkDataset files with
  | error f =>
    rw [hdataset] at h
    cases h
  | ok u =>
  cases hengines : s.chosenEngines d with
  | error f =>
    rw [hdataset, hengines] at h
    cases h
  | ok engines =>
  cases hstages : s.chosenStages d with
  | error f =>
    rw [hdataset, hengines, hchosen, hstages] at h
    split at h <;> cases h
  | ok stages =>
    rw [hdataset, hengines, hchosen, hstages] at h
    split at h
    · rename_i hpositive
      cases h
      exact ⟨hpositive, rfl⟩
    · cases h

/-- A number that is positive as a double is a positive number within the range of the doubles. -/
theorem rounds_of_isPositive {n : Numeral} (hx : Json.double? n.text = some x)
    (hpositive : isPositive x = true) : ∃ m e, x = .finite false m e ∧ 0 < m ∧
      Rounds false n.value (.finite false m e) := by
  rw [Numeral.double?_text] at hx
  unfold isPositive at hpositive
  rw [Bool.and_eq_true, Bool.not_eq_true', Bool.not_eq_true'] at hpositive
  rcases Nat.eq_zero_or_pos n.digits with hdigits | hdigits
  · rw [hdigits] at hx
    cases hx
    cases hpositive.2
  · have hrounds := Double.rounds_ofDecimal n.negative hdigits n.power
    generalize Double.ofDecimal n.negative n.digits n.power = y at hx hrounds
    cases y with
    | infinite s => cases hx
    | finite s m e =>
      cases hx
      have hsign : n.negative = false := hrounds.isNegative.symm.trans hpositive.1
      have hvalue : n.value = n.digits * 10 ^ n.power := by
        rw [Numeral.value, hsign, if_neg Bool.false_ne_true, one_mul]
      obtain ⟨hs, hzero⟩ := hpositive
      cases hs
      rw [hsign, ← hvalue] at hrounds
      refine ⟨m, e, rfl, Nat.pos_of_ne_zero fun hm => ?_, hrounds⟩
      subst hm
      cases hzero

end Submission

namespace Server

open Submission (requested? clip)

variable {s : Server} {body : Text}

/-- What is accepted is a request, for which a job comes in. -/
theorem create_accepted (h : (s.create body).2.status = 202) :
    ∃ x request, Submission.ofBody body = some x ∧
      x.toRequest s.desk.bench.files s.defaults = .ok request ∧
      ∃ job : Job, job.phase = .starting ∧ job.request = request.complete ∧
        (s.create body).1.runner.jobs = s.runner.jobs ++ [job] ∧
        (s.create body).2 = json 202 job.run.toJson := by
  unfold create at h ⊢
  cases hx : Submission.ofBody body with
  | none =>
    rw [hx] at h
    cases h
  | some x =>
  cases hrequest : x.toRequest s.desk.bench.files s.defaults with
  | error f =>
    rw [hx] at h
    dsimp only at h
    rw [hrequest] at h
    cases h
  | ok request =>
  refine ⟨x, request, rfl, hrequest, ?_⟩
  rw [hx] at h
  dsimp only at h ⊢
  rw [hrequest] at h ⊢
  dsimp only at h ⊢
  split at h
  · rename_i runner run hsubmit
    obtain ⟨job, hphase, hjob, rfl, hjobs⟩ := Runner.submit_job hsubmit
    exact ⟨job, hphase, hjob, hjobs, rfl⟩
  · cases h
  · cases h

theorem create_refused (h : ∀ x request, Submission.ofBody body = some x →
    x.toRequest s.desk.bench.files s.defaults ≠ .ok request) : (s.create body).2.status = 400 := by
  unfold create
  split
  · rfl
  · rename_i x hx
    split
    · rfl
    · rename_i request hrequest
      exact absurd hrequest (h x request hx)

/-- Only what is a duration and not nothing is granted. -/
theorem complete_budget {r : Request} {n : Int} (h : r.budget = clip n) :
    r.complete.budget = if 0 < n ∧ n < Number.wordLimit then n else Request.defaultBudget := by
  have hleast : (Number.leastWord : Int) ≤ 0 := by decide
  unfold Request.complete
  rw [h]
  unfold clip
  by_cases hlimit : n < Number.wordLimit
  · rw [if_pos hlimit]
    by_cases hpos : 0 < n
    · rw [if_neg (Int.not_le.mpr hpos), if_pos ⟨hpos, hlimit⟩, h, clip, if_pos hlimit]
    · rw [if_pos (Int.not_lt.mp hpos), if_neg fun hboth => hpos hboth.1]
  · rw [if_neg hlimit, if_pos hleast, if_neg fun hboth => hlimit hboth.2]

/-- **What becomes of the time that a sender asks for.** A number of seconds outside the range of the
doubles is refused. When one is accepted, it is cut to whole nanoseconds after an error of less than a
2⁵⁰-th part, and every engine that ever works for the run gets exactly that much time, if it is a
positive duration of 64 bits; if it is not, every engine gets the default time instead. -/
theorem create_budget (s : Server) (body l : Text) (h : requested? body = some l) :
    (∃ x : Numeral, l = x.text) ∧ ∀ x : Numeral, l = x.text →
      ((x.value < 2 ^ (-1075 : Int) ∨ 2 ^ 1024 ≤ x.value) → (s.create body).2.status = 400) ∧
      ((s.create body).2.status = 202 → ∃ (δ : ℚ) (n : Int) (job : Job),
        |δ| ≤ 1 / 2 ^ 50 ∧ n = ⌊x.value * 10 ^ 9 * (1 + δ)⌋ ∧
        (s.create body).1.runner.jobs = s.runner.jobs ++ [job] ∧
        (s.create body).2 = json 202 job.run.toJson ∧
        ∀ k, job.Becomes k → ∀ w ∈ k.workers, w.Allotted
          (if 0 < n ∧ n < Number.wordLimit then n else Request.defaultBudget)) := by
  refine ⟨Submission.exists_numeral_of_requested h, ?_⟩
  rintro x rfl
  -- a request is made only of a positive double
  have hrequest {y : Submission} {request : Request} (hy : Submission.ofBody body = some y)
      (hr : y.toRequest s.desk.bench.files s.defaults = .ok request) :
      ∃ m e, 0 < m ∧ Double.Rounds false x.value (.finite false m e) ∧
        request.budget = Submission.budget (.finite false m e) := by
    obtain ⟨z, hz, hseconds⟩ := Submission.ofBody_seconds h hy
    obtain ⟨hpositive, hbudget⟩ := Submission.toRequest_budget hseconds hr
    obtain ⟨m, e, rfl, hm, hrounds⟩ := Submission.rounds_of_isPositive hz hpositive
    exact ⟨m, e, hm, hrounds, hbudget⟩
  constructor
  · intro hout
    refine create_refused fun y request hy hr => ?_
    obtain ⟨m, e, hm, hrounds, -⟩ := hrequest hy hr
    obtain ⟨hlow, hhigh⟩ := hrounds.bounds hm
    exact hout.elim (not_lt.mpr hlow) (not_le.mpr hhigh)
  · intro hstatus
    obtain ⟨y, request, hy, hr, job, hphase, hjob, hjobs, hanswer⟩ := create_accepted hstatus
    obtain ⟨m, e, hm, hrounds, hbudget⟩ := hrequest hy hr
    have hpos : 0 < x.value := lt_of_lt_of_le (by positivity) (hrounds.bounds hm).1
    obtain ⟨δ, hδ, hclip⟩ := Submission.exists_budget hpos hm hrounds
    refine ⟨δ, _, job, hδ, rfl, hjobs, hanswer, fun k hk => ?_⟩
    rw [← complete_budget (hbudget.trans hclip), ← hjob]
    exact hk.allotted hphase (hjob ▸ request.complete_budget_pos)

/-- A server with a circuit, one engine that does not come to an end, and five seconds for it where
nothing else is said. -/
def hosting : Server where
  runner := {
    desk := {
      bench := {
        now := 0, files := ⟨[], [(["a.aig"], .file "aig 0 0 0 0 0\n" false)]⟩
        tool := fun _ _ _ => ⟨[], none, .done [], id, id, fun _ => Course.giveUp 5⟩
        randomEnding := fun _ => [] }
      collector := ⟨"native", 0⟩
      options := ⟨[], 0⟩ }
    newId := fun _ => "first" }
  defaults := ⟨some [.pdr], 5 * Duration.second, []⟩
  registry := .empty
  search := []
  streams := #[]

def asking (seconds : Text) : Text :=
  "\x7b\"dataset\": \"a.aig\", \"timeout_s\": " ++ seconds ++ "\x7d"

/-- The times of the engines that work for the run when it has come to the race. -/
def times (s : Server) : List Duration :=
  ((s.runner.run [.step 0, .step 0]).jobs.flatMap Job.workers).map (·.budget)

theorem create_budget_short :
    requested? (asking "2.5") = some "2.5" ∧ (hosting.create (asking "2.5")).2.status = 202 ∧
    times (hosting.create (asking "2.5")).1 = [2500000000] ∧
    ∃ (δ : ℚ) (n : Int) (job : Job), |δ| ≤ 1 / 2 ^ 50 ∧ n = ⌊5 / 2 * 10 ^ 9 * (1 + δ)⌋ ∧
      (hosting.create (asking "2.5")).1.runner.jobs = [job] ∧
      ∀ k, job.Becomes k → ∀ w ∈ k.workers, w.Allotted
        (if 0 < n ∧ n < Number.wordLimit then n else Request.defaultBudget) := by
  have hrequested : requested? (asking "2.5") = some "2.5" := by decide +kernel
  have hstatus : (hosting.create (asking "2.5")).2.status = 202 := by decide +kernel
  let x : Numeral := ⟨false, "2", some "5", none, by decide +kernel, by decide +kernel⟩
  have htext : "2.5" = x.text := by decide +kernel
  have hvalue : x.value = 5 / 2 := by
    have hdigits : x.digits = 25 := by decide +kernel
    have hpower : x.power = -1 := by decide +kernel
    have hsign : x.negative = false := rfl
    rw [Numeral.value, hdigits, hpower, hsign]
    norm_num
  obtain ⟨-, haccepted⟩ := (create_budget hosting (asking "2.5") "2.5" hrequested).2 x htext
  obtain ⟨δ, n, job, hδ, hn, hjobs, -, hall⟩ := haccepted hstatus
  rw [hvalue] at hn
  exact ⟨hrequested, hstatus, by decide +kernel, δ, n, job, hδ, hn, hjobs, hall⟩

/-- A request for less than a nanosecond and one for more than three hundred years are accepted, and the
engine gets two minutes for either. -/
theorem create_budget_defaulted :
    ((hosting.create (asking "1e-10")).2.status = 202 ∧
      times (hosting.create (asking "1e-10")).1 = [Request.defaultBudget]) ∧
    (hosting.create (asking "1e10")).2.status = 202 ∧
      times (hosting.create (asking "1e10")).1 = [Request.defaultBudget] := by
  decide +kernel

end Server
end Api
end Regatta
