import Regatta.Api.Server
import Regatta.Proofs.Http.EventStream

/-! The log of a run as a client follows it.

A stream grows each time the server passes on the lines that wait for it, and ends when there will
be no more. Whatever the server is like each time, the body that comes of it is the lines that were
passed on, one after the other, and at the end the event that says so (`body_follow`). What a client
reads in it is then a matter of the single lines (`log_stream_events`). -/
namespace Regatta.Api

open Http.EventStream

namespace Stream

/-- The lines that wait for a stream. -/
def waiting (x : Stream) (s : Server) : List Text :=
  match x.subscription with
  | none => []
  | some sub => (s.desk.broker.drain sub none).2.1

/-- A stream to which lines are passed on at one state of the server after the other. -/
def follow (x : Stream) : List Server → Stream
  | [] => x
  | s :: rest => (s.pump x).2.follow rest

def heard (x : Stream) : List Server → List Text
  | [] => []
  | s :: rest => x.waiting s ++ (s.pump x).2.heard rest

theorem pump_closed {x : Stream} (h : x.subscription = none) (s : Server) :
    (s.pump x).2 = x ∧ x.waiting s = [] := by
  simp [Server.pump, waiting, h]

/-- An open stream gets the lines that wait for it, and the last event if there will be no more. -/
theorem pump_open {x : Stream} {sub : Subscription} (h : x.subscription = some sub) (s : Server) :
    (s.pump x).2 = { x with
      response := { x.response with body := x.response.body ++ ((x.waiting s).flatMap data ++
        if (s.desk.broker.drain sub none).2.2 then done else []) }
      subscription := if (s.desk.broker.drain sub none).2.2 then none else some sub } := by
  unfold Server.pump waiting
  simp only [h]
  split
  · rfl
  · rw [← h]

theorem follow_closed {x : Stream} (h : x.subscription = none) (servers : List Server) :
    x.follow servers = x ∧ x.heard servers = [] := by
  induction servers with
  | nil => exact ⟨rfl, rfl⟩
  | cons s rest ih =>
    obtain ⟨hsame, hnone⟩ := pump_closed h s
    rw [follow, heard, hsame, hnone]
    exact ih

/-- What has been written to a stream since it stood at `x`, when these lines were passed on. -/
theorem body_follow (x : Stream) (servers : List Server) : (x.follow servers).response.body =
    x.response.body ++ ((x.heard servers).flatMap data ++
      if x.isOpen && !(x.follow servers).isOpen then done else []) := by
  induction servers generalizing x with
  | nil => cases h : x.isOpen <;> simp [follow, heard, h]
  | cons s rest ih =>
    rw [follow, heard, ih]
    cases hsub : x.subscription with
    | none =>
      obtain ⟨hsame, hnone⟩ := pump_closed hsub s
      rw [hsame, hnone]
      rfl
    | some sub =>
      rw [pump_open hsub]
      cases hended : (s.desk.broker.drain sub none).2.2 with
      | false => simp [isOpen, hsub, List.flatMap_append]
      | true =>
        obtain ⟨hsame, hnone⟩ := follow_closed (x := { x with
          response := { x.response with body := x.response.body ++ ((x.waiting s).flatMap data ++ done) }
          subscription := none }) rfl rest
        simp [isOpen, hsub, hsame, hnone]

end Stream

/-! ### Where streams begin -/

variable {r : Http.Request} {s : Server}

theorem Server.body_logs {id : Text} (h : (s.logs id).2.2.isSome = true) :
    (s.logs id).2.1.body = [] := by
  unfold logs at h ⊢
  split at h
  · cases h
  · cases h
  · split at h
    · cases h
    · simp_all
      rfl

theorem Server.body_resource {route : Route}
    (h : (s.resource r route).2.2.isSome = true) : (s.resource r route).2.1.body = [] := by
  cases route with
  | logs id => exact body_logs h
  | health => cases h
  | metrics => cases h
  | engines => cases h
  | stats => cases h
  | runs => cases h
  | run id => cases h
  | results id => cases h
  | history id => cases h

theorem Server.body_receive (h : (s.receive r).2.isOpen = true) :
    (s.receive r).2.response.body = [] := by
  unfold receive at h ⊢
  split at h
  · cases h
  · rename_i hpreflight
    rw [if_neg hpreflight]
    cases hrouted : Routed.ofPath r.method (Http.Target.routePath r.target) with
    | found route =>
      rw [hrouted] at h
      exact body_resource h
    | methodNotAllowed allowed pattern =>
      rw [hrouted] at h
      cases h
    | notFound pattern =>
      rw [hrouted] at h
      cases h

/-! ### What a client reads -/

def unnamed (line : Text) : Event := ⟨[], line⟩

/-- The last event of a stream, if it has come to its end. -/
def Stream.ending (x : Stream) : List Event :=
  if x.isOpen then [] else [⟨"done", "stream complete"⟩]

theorem body_of_receive (h : (s.receive r).2.isOpen = true) (servers : List Server) : ∃ rest,
    ((s.receive r).2.follow servers).response.body =
      ((s.receive r).2.heard servers).flatMap data ++ rest ∧
    read rest = ((s.receive r).2.follow servers).ending := by
  have hbody := (s.receive r).2.body_follow servers
  rw [Server.body_receive h, List.nil_append, h, Bool.true_and] at hbody
  refine ⟨_, hbody, ?_⟩
  unfold Stream.ending
  cases ((s.receive r).2.follow servers).isOpen with
  | true => rfl
  | false => exact read_done

/-- **A log line is read as one event exactly when there is no carriage return in it.** Log lines
that are written one after the other, and the last event behind them, are read as one event for each
line, with the line as its data, exactly when no line has a carriage return. So are the lines that a
stream has passed on when it was followed from its beginning. With or without carriage returns, the
events of a line are its own, and the last event comes once, at the end. -/
theorem log_stream_events (lines : List Text) (s : Server) (r : Http.Request)
    (servers : List Server) :
    (read (lines.flatMap data ++ done) = lines.map unnamed ++ [⟨"done", "stream complete"⟩] ↔
      ∀ line ∈ lines, Text.byte '\r' ∉ line) ∧
    ((s.receive r).2.isOpen = true →
      (read ((s.receive r).2.follow servers).response.body =
          ((s.receive r).2.heard servers).map unnamed ++ ((s.receive r).2.follow servers).ending ↔
        ∀ line ∈ (s.receive r).2.heard servers, Text.byte '\r' ∉ line) ∧
      read ((s.receive r).2.follow servers).response.body =
        ((s.receive r).2.heard servers).flatMap (fun line => read (data line)) ++
          ((s.receive r).2.follow servers).ending) := by
  refine ⟨?_, fun hopen => ?_⟩
  · have hlines := read_lines_iff lines done
    rwa [read_done] at hlines
  · obtain ⟨rest, hbody, hrest⟩ := body_of_receive hopen servers
    rw [hbody, ← hrest]
    exact ⟨read_lines_iff _ rest, read_append_data _ rest⟩

/-- A server with one run, which has not started. -/
def attended : Server where
  runner := (Runner.submit
    { desk := {
        bench := {
          now := 0, files := ⟨[], []⟩, randomEnding := fun _ => []
          tool := fun _ _ _ => ⟨[], none, .done [], id, id, fun _ => Course.giveUp 5⟩ }
        collector := ⟨"abc", 0⟩
        options := ⟨[], 0⟩ }
      newId := fun _ => "first" }
    ⟨"c.aag", some [.pdr], 0, []⟩).1
  defaults := ⟨none, 0, []⟩
  registry := .empty
  search := []
  streams := #[]

def visit : Http.Request := ⟨"GET", "/v1/runs/first/logs", [], []⟩

def afterwards (lines : List Text) : Server :=
  let s := (attended.receive visit).1
  let broker := lines.foldl (fun b line => b.publish "first" line) s.desk.broker
  s.setDesk { s.desk with broker := broker.close "first" }

/-- Two lines, one of which has two lines itself and one of which is empty. -/
def spoken : List Text := ["depth 1\n  for 20 rounds", ""]

theorem log_stream_events_spoken :
    (attended.receive visit).2.isOpen = true ∧
    read ((attended.receive visit).2.follow [afterwards spoken]).response.body =
      [unnamed "depth 1\n  for 20 rounds", unnamed "", ⟨"done", "stream complete"⟩] := by
  have hopen : (attended.receive visit).2.isOpen = true := by decide +kernel
  have hheard : (attended.receive visit).2.heard [afterwards spoken] = spoken := by decide +kernel
  have hclosed : ((attended.receive visit).2.follow [afterwards spoken]).isOpen = false := by
    decide +kernel
  have hevents := ((log_stream_events spoken attended visit [afterwards spoken]).2 hopen).1
  rw [hheard, Stream.ending, hclosed] at hevents
  exact ⟨hopen, hevents.mpr (by decide)⟩

/-- A line that says more than it seems to. -/
def forging : Text := "10%\r\rdata: forged"

/-- A line with carriage returns is read as two events, neither of which is the line. -/
theorem forged_event :
    (attended.receive visit).2.heard [afterwards [forging]] = [forging] ∧
    read ((attended.receive visit).2.follow [afterwards [forging]]).response.body =
      [unnamed "10%", unnamed "forged", ⟨"done", "stream complete"⟩] ∧
    unnamed forging ∉
      read ((attended.receive visit).2.follow [afterwards [forging]]).response.body := by
  decide +kernel

end Regatta.Api
