import Regatta.Circuit.Inspect

/-! When reading a circuit breaks down.

A reader that is `Steady` reports what is wrong with every text it cannot read. Almost all of them
are; what is left are the places where a variable is defined, which nobody compares with the
header's maximum, and the table of the variables itself. -/
namespace Regatta.Aiger

variable {α β : Type} {r : Reader α} {f : α → Reader β} {t : Text}

/-- The reader breaks down on this text. -/
def Breaks (r : Reader α) (t : Text) : Prop := r.run t = .error .breakdown

theorem breaks_bind : Breaks (r >>= f) t ↔
    Breaks r t ∨ ∃ a rest, r.run t = .ok (a, rest) ∧ Breaks (f a) rest := by
  rw [Breaks, Breaks, StateT.run_bind]
  cases hrun : r.run t with
  | error e =>
    refine ⟨fun h => .inl (congrArg Except.error (Except.error.inj h)), ?_⟩
    rintro (h | ⟨a, rest, h, -⟩)
    · exact congrArg Except.error (Except.error.inj h)
    · cases h
  | ok p =>
    refine ⟨fun h => .inr ⟨p.1, p.2, rfl, h⟩, ?_⟩
    rintro (h | ⟨a, rest, h, hbreaks⟩)
    · cases h
    · cases h
      exact hbreaks

theorem run_bind_eq_ok {b : β} {rest : Text} : (r >>= f).run t = .ok (b, rest) ↔
    ∃ a mid, r.run t = .ok (a, mid) ∧ (f a).run mid = .ok (b, rest) := by
  rw [StateT.run_bind]
  cases hrun : r.run t with
  | error e =>
    refine ⟨fun h => (by cases h), ?_⟩
    rintro ⟨a, mid, h, -⟩
    cases h
  | ok p =>
    refine ⟨fun h => ⟨p.1, p.2, rfl, h⟩, ?_⟩
    rintro ⟨a, mid, h, hf⟩
    cases h
    exact hf

/-- Whatever is wrong with the text, the reader says so. -/
def Steady (r : Reader α) : Prop := ∀ t, ¬ Breaks r t

theorem Steady.breaks_bind (hr : Steady r) :
    Breaks (r >>= f) t ↔ ∃ a rest, r.run t = .ok (a, rest) ∧ Breaks (f a) rest := by
  rw [Aiger.breaks_bind, or_iff_right (hr t)]

theorem breaks_bind_of_steady (hf : ∀ a, Steady (f a)) : Breaks (r >>= f) t ↔ Breaks r t := by
  rw [breaks_bind]
  refine or_iff_left ?_
  rintro ⟨a, rest, -, h⟩
  exact hf a rest h

theorem breaks_bind_of_run {a : α} {rest : Text} (h : r.run t = .ok (a, rest)) :
    Breaks (r >>= f) t ↔ Breaks (f a) rest := by
  rw [Breaks, StateT.run_bind, h]
  rfl

namespace Steady

theorem bind (hr : Steady r) (hf : ∀ a, Steady (f a)) : Steady (r >>= f) := by
  intro t h
  rcases Aiger.breaks_bind.mp h with h | ⟨a, rest, -, h⟩
  · exact hr t h
  · exact hf a rest h

theorem pure (a : α) : Steady (Pure.pure a) := fun _ h => by cases h

theorem throw {e : Fault} (he : e ≠ .breakdown) : Steady (MonadExcept.throw e : Reader α) :=
  fun _ h => he (Except.error.inj h)

theorem get : Steady (MonadState.get : Reader Text) := fun _ h => by cases h

theorem set (s : Text) : Steady (MonadStateOf.set s : Reader PUnit) := fun _ h => by cases h

theorem ite {c : Prop} [Decidable c] {r' : Reader α} (hr : Steady r) (hr' : Steady r') :
    Steady (if c then r else r') := by
  split
  · exact hr
  · exact hr'

/-- A check before the rest. -/
theorem check {c : Prop} [Decidable c] {e : Fault} (he : e ≠ .breakdown) (hr : Steady r) :
    Steady (if c then (MonadExcept.throw e : Reader PUnit) >>= fun _ => r else r) :=
  ite ((throw he).bind fun _ => hr) hr

theorem lift {e : Except Fault α} (he : e ≠ .error .breakdown) : Steady (liftM e : Reader α) := by
  intro t h
  cases e with
  | error x => exact he (congrArg Except.error (Except.error.inj h))
  | ok a => cases h

theorem nextByte : Steady nextByte := by
  refine get.bind fun t => ?_
  cases t with
  | nil => exact throw (by decide)
  | cons b rest => exact (set rest).bind fun _ => pure b

theorem number : Steady number := by
  refine get.bind fun t => ?_
  cases t with
  | nil => exact throw (by decide)
  | cons b rest =>
    exact check (by decide) (check (by decide) ((set _).bind fun _ => pure _))

theorem expect (b : UInt8) : Steady (expect b) :=
  nextByte.bind fun _ => ite (throw (by decide)) (pure ())

theorem newline : Steady newline := expect 10

theorem headerNumbers (room : Nat) : Steady (headerNumbers room) := by
  induction room with
  | zero => exact nextByte.bind fun _ => ite (pure []) (throw (by decide))
  | succ room ih =>
    exact nextByte.bind fun b => ite (pure [])
      (check (by decide) (number.bind fun _ => ih.bind fun _ => pure _))

theorem header : Steady header := by
  refine (headerNumbers 9).bind fun ns => ?_
  split
  · exact pure _
  · exact throw (by decide)

theorem literal (maxVar : Nat) : Steady (literal maxVar) :=
  number.bind fun _ => check (by decide) (pure _)

theorem literalLine (maxVar : Nat) : Steady (literalLine maxVar) :=
  (literal maxVar).bind fun _ => newline.bind fun _ => pure _

theorem times (hr : Steady r) (n : Nat) : Steady (times n r) := by
  induction n with
  | zero => exact pure []
  | succ n ih => exact hr.bind fun _ => ih.bind fun _ => pure _

theorem mapM (hf : ∀ a, Steady (f a)) (as : List α) : Steady (as.mapM f) := by
  induction as with
  | nil => exact pure []
  | cons a as ih =>
    rw [List.mapM_cons]
    exact (hf a).bind fun _ => ih.bind fun _ => pure _

theorem latchInit (self : Nat) : Steady (latchInit self) :=
  nextByte.bind fun _ => ite (pure ())
    (check (by decide) (number.bind fun _ => check (by decide) newline))

variable (h : Header) (n : Nat) (b : Build)

theorem uses : Steady (uses h) := by
  have hliteral := literalLine h.maxVar
  have hsize : Steady (do
      let n ← Aiger.number
      Aiger.newline
      return n) := number.bind fun _ => newline.bind fun _ => pure _
  exact (hliteral.times _).bind fun _ => (hliteral.times _).bind fun _ =>
    (hliteral.times _).bind fun _ => (hsize.times _).bind fun sizes =>
    (mapM (fun n => hliteral.times n) sizes).bind fun _ =>
    (hliteral.times _).bind fun _ => pure _

theorem symbolName : Steady symbolName := by
  refine get.bind fun t => ?_
  split
  · exact throw (by decide)
  · exact set _

theorem symbols (fuel : Nat) : Steady (symbols fuel) := by
  induction fuel with
  | zero => exact pure ()
  | succ fuel ih =>
    have hrest : Steady (do
        let _ ← Aiger.number
        Aiger.expect 32
        Aiger.symbolName
        Aiger.symbols fuel) :=
      number.bind fun _ => (expect 32).bind fun _ => symbolName.bind fun _ => ih
    refine get.bind fun t => ?_
    split
    · exact pure ()
    · refine (set _).bind fun _ => ite ?_ (check (by decide) hrest)
      split
      · exact (throw (by decide)).bind fun _ => hrest
      · exact pure ()
      · exact hrest

theorem finish (nexts : List Nat) (u : Uses) :
    Steady (finish h b nexts u) :=
  get.bind fun _ => (symbols _).bind fun _ => ite (pure _) (throw (by decide))

theorem inputLine : Steady (inputLine h b) :=
  (literal h.maxVar).bind fun _ => check (by decide) (newline.bind fun _ => pure _)

theorem inputLines : Steady (inputLines h n b) := by
  induction n generalizing b with
  | zero => exact pure b
  | succ n ih => exact (inputLine h b).bind fun _ => ih _

theorem gateLines (gates : Std.HashMap Nat GateLine) (order : List Nat) :
    Steady (gateLines h n gates order) := by
  induction n generalizing gates order with
  | zero => exact pure _
  | succ n ih =>
    exact (literal h.maxVar).bind fun _ => (expect 32).bind fun _ => (literal h.maxVar).bind fun _ =>
      (expect 32).bind fun _ => (literal h.maxVar).bind fun _ => newline.bind fun _ =>
      check (by decide) (check (by decide) (ih _ _))

end Steady

theorem bind_ne_breakdown {e : Except Fault α} {g : α → Except Fault β}
    (he : e ≠ .error .breakdown) (hg : ∀ a, g a ≠ .error .breakdown) :
    e >>= g ≠ .error .breakdown := by
  cases e with
  | error x => exact fun h => he (congrArg Except.error (Except.error.inj h))
  | ok a => exact hg a

variable (gates : Std.HashMap Nat GateLine) (fuel : Nat)

/-- The walk over the gates does not break down. -/
theorem visit_ne_breakdown (w : Walk) (v : Nat) :
    visit gates fuel w v ≠ .error .breakdown := by
  induction fuel generalizing w v with
  | zero => simp [visit]
  | succ fuel ih =>
    rw [visit]
    split
    · simp
    split
    · simp
    split
    · simp
    · exact bind_ne_breakdown (ih _ _) fun _ => bind_ne_breakdown (ih _ _) fun _ h => by cases h

theorem visitAll_ne_breakdown (vs : List Nat)
    (w : Walk) : visitAll gates fuel vs w ≠ .error .breakdown := by
  induction vs generalizing w with
  | nil => simp [visitAll]
  | cons v vs ih => exact bind_ne_breakdown (visit_ne_breakdown gates fuel w v) fun w => ih w

/-! ### Variables above the maximum -/

/-- Runs readers for the variables from `v` on. -/
def timesFrom (r : Nat → Reader α) : (n v : Nat) → Reader (List α)
  | 0, _ => return []
  | n + 1, v => do
    let a ← r v
    return a :: (← timesFrom r n (v + 1))

/-- Of at most `n` definitions that can be read one after the other, one is of a variable above the
maximum. -/
def Overruns (maxVar : Nat) (var : α → Nat) (r : Nat → Reader α) (n v : Nat) (t : Text) : Prop :=
  ∃ k < n, ∃ as rest, (timesFrom r (k + 1) v).run t = .ok (as, rest) ∧ ∃ a ∈ as, maxVar < var a

section

variable {maxVar : Nat} {var : α → Nat} {r : Nat → Reader α}

theorem run_timesFrom_succ {n v : Nat} {as : List α} {t rest : Text} :
    (timesFrom r (n + 1) v).run t = .ok (as, rest) ↔ ∃ a mid bs, (r v).run t = .ok (a, mid) ∧
      (timesFrom r n (v + 1)).run mid = .ok (bs, rest) ∧ as = a :: bs := by
  rw [timesFrom, run_bind_eq_ok]
  constructor
  · rintro ⟨a, mid, ha, h⟩
    obtain ⟨bs, rest', hbs, h⟩ := run_bind_eq_ok.mp h
    cases h
    exact ⟨a, mid, bs, ha, hbs, rfl⟩
  · rintro ⟨a, mid, bs, ha, hbs, rfl⟩
    exact ⟨a, mid, ha, run_bind_eq_ok.mpr ⟨bs, rest, hbs, rfl⟩⟩

/-- The first definition is above the maximum, or it can be read and a later one is. -/
theorem overruns_succ {n v : Nat} {t : Text} : Overruns maxVar var r (n + 1) v t ↔
    ∃ a mid, (r v).run t = .ok (a, mid) ∧
      (maxVar < var a ∨ Overruns maxVar var r n (v + 1) mid) := by
  constructor
  · rintro ⟨k, hk, as, rest, hrun, x, hx, hlt⟩
    obtain ⟨a, mid, bs, ha, hbs, rfl⟩ := run_timesFrom_succ.mp hrun
    refine ⟨a, mid, ha, ?_⟩
    rcases List.mem_cons.mp hx with rfl | hx
    · exact .inl hlt
    · cases k with
      | zero =>
        cases hbs
        exact absurd hx List.not_mem_nil
      | succ k => exact .inr ⟨k, Nat.lt_of_succ_lt_succ hk, bs, rest, hbs, x, hx, hlt⟩
  · rintro ⟨a, mid, ha, hlt | ⟨k, hk, bs, rest, hbs, x, hx, hlt⟩⟩
    · exact ⟨0, Nat.succ_pos n, [a], mid, run_timesFrom_succ.mpr ⟨a, mid, [], ha, rfl, rfl⟩, a,
        List.mem_singleton_self a, hlt⟩
    · exact ⟨k + 1, Nat.succ_lt_succ hk, a :: bs, rest,
        run_timesFrom_succ.mpr ⟨a, mid, bs, ha, hbs, rfl⟩, x, List.mem_cons_of_mem a hx, hlt⟩

/-- A loop that defines one variable at every turn, and breaks down at one above the maximum. -/
theorem breaks_loop {γ : Type} (hr : ∀ v, Steady (r v)) (loop : Nat → Nat → β → Reader γ)
    {step : α → β → β} {last : α → γ → Reader γ} (hzero : ∀ v b, Steady (loop 0 v b))
    (hlast : ∀ a c, Steady (last a c))
    (hsucc : ∀ n v b, loop (n + 1) v b = r v >>= fun a =>
      if maxVar < var a then throw .breakdown else loop n (v + 1) (step a b) >>= last a)
    (n v : Nat) (b : β) (t : Text) : Breaks (loop n v b) t ↔ Overruns maxVar var r n v t := by
  induction n generalizing v b t with
  | zero =>
    refine ⟨fun h => absurd h (hzero v b t), ?_⟩
    rintro ⟨k, hk, -⟩
    exact absurd hk (Nat.not_lt_zero k)
  | succ n ih =>
    rw [hsucc, (hr v).breaks_bind, overruns_succ]
    refine exists_congr fun a => exists_congr fun mid => and_congr_right fun _ => ?_
    by_cases hlt : maxVar < var a
    · rw [if_pos hlt]
      exact ⟨fun _ => .inl hlt, fun _ => rfl⟩
    · rw [if_neg hlt, or_iff_right hlt, breaks_bind_of_steady (hlast a), ih]

end

/-- A latch's line: its variable and the literal of its next state. -/
def latchText (h : Header) : Reader (Nat × Nat) := do
  let l ← number
  if l % 2 == 1 then throw .latchNegated
  expect 32
  let next ← literal h.maxVar
  latchInit l
  return (l / 2, next)

variable (h : Header) (n v : Nat) (b : Build)

theorem latchLines_succ : latchLines h (n + 1) b =
    latchText h >>= fun a => if h.maxVar < a.1 then throw .breakdown
      else latchLines h n (b.addNode a.1 .latch) >>= fun c => return (c.1, a.2 :: c.2) := by
  rw [latchLines, latchLine, latchText, bind_assoc, bind_assoc]
  refine bind_congr fun l => ?_
  by_cases hl : (l % 2 == 1) = true
  · simp only [if_pos hl]
    rfl
  · simp only [if_neg hl, bind_assoc, pure_bind]
    refine bind_congr fun _ => bind_congr fun next => bind_congr fun _ => ?_
    by_cases hlt : h.maxVar < l / 2
    · simp only [if_pos hlt]
      rfl
    · simp only [if_neg hlt, pure_bind]

def latchRest (h : Header) (v : Nat) : Reader (Nat × Nat) := do
  let next ← literal h.maxVar
  latchInit (2 * v)
  return (v, next)

theorem implicitLatches_succ :
    implicitLatches h (n + 1) v b = latchRest h v >>= fun a =>
      if h.maxVar < a.1 then throw .breakdown
      else implicitLatches h n (v + 1) (b.addNode a.1 .latch) >>= fun c =>
        return (c.1, a.2 :: c.2) := by
  rw [implicitLatches, latchRest, bind_assoc]
  refine bind_congr fun next => ?_
  rw [bind_assoc]
  refine bind_congr fun _ => ?_
  rw [pure_bind]
  by_cases hlt : h.maxVar < v
  · rw [if_pos hlt, if_pos hlt]
    rfl
  · rw [if_neg hlt, if_neg hlt]

def operands (v : Nat) : Reader (Nat × GateLine) := do
  let d ← readDelta
  if 2 * v < d then throw .badDelta
  let e ← readDelta
  if 2 * v - d < e then throw .badDelta
  return (v, ⟨2 * v - d, 2 * v - d - e⟩)

theorem implicitGates_succ :
    implicitGates h (n + 1) v b = operands v >>= fun a =>
      if h.maxVar < a.1 then throw .breakdown
      else implicitGates h n (v + 1) (b.addGate a.1 a.2.left a.2.right) >>= fun c => return c := by
  rw [implicitGates, operands, bind_assoc]
  refine bind_congr fun d => ?_
  by_cases hd : 2 * v < d
  · simp only [if_pos hd]
    rfl
  simp only [if_neg hd, bind_assoc]
  refine bind_congr fun e => ?_
  by_cases he : 2 * v - d < e
  · simp only [if_pos he]
    rfl
  simp only [if_neg he, pure_bind, bind_pure]
  by_cases hlt : h.maxVar < v
  · simp only [if_pos hlt]
    rfl
  · simp only [if_neg hlt]

namespace Steady

theorem delta (fuel shift : Nat) : Steady (delta fuel shift) := by
  induction fuel generalizing shift with
  | zero => exact throw (by decide)
  | succ fuel ih => exact nextByte.bind fun _ => ite (pure _) ((ih _).bind fun _ => pure _)

theorem readDelta : Steady readDelta := get.bind fun _ => delta _ 0

theorem latchText (h : Header) : Steady (latchText h) :=
  number.bind fun l => check (by decide) ((expect 32).bind fun _ =>
    (literal h.maxVar).bind fun _ => (latchInit l).bind fun _ => pure _)

theorem latchRest (h : Header) (v : Nat) : Steady (latchRest h v) :=
  (literal h.maxVar).bind fun _ => (latchInit _).bind fun _ => pure _

theorem operands (v : Nat) : Steady (operands v) :=
  readDelta.bind fun _ => check (by decide) (readDelta.bind fun _ => check (by decide) (pure _))

end Steady

variable (h : Header) (n v : Nat) (b : Build)

theorem breaks_latchLines (t : Text) :
    Breaks (latchLines h n b) t ↔ Overruns h.maxVar Prod.fst (fun _ => latchText h) n 0 t :=
  breaks_loop (fun _ => Steady.latchText h) (fun n _ b => latchLines h n b)
    (fun _ b => Steady.pure (b, [])) (fun _ _ => Steady.pure _)
    (fun n _ b => latchLines_succ h n b) n 0 b t

theorem breaks_implicitLatches (t : Text) :
    Breaks (implicitLatches h n v b) t ↔ Overruns h.maxVar Prod.fst (latchRest h) n v t :=
  breaks_loop (Steady.latchRest h) (implicitLatches h) (fun _ b => Steady.pure (b, []))
    (fun _ _ => Steady.pure _) (implicitLatches_succ h) n v b t

theorem breaks_implicitGates (t : Text) :
    Breaks (implicitGates h n v b) t ↔ Overruns h.maxVar Prod.fst operands n v t :=
  breaks_loop Steady.operands (implicitGates h) (fun _ b => Steady.pure b)
    (fun _ c => Steady.pure c) (implicitGates_succ h) n v b t

/-! ### Files that break the reader -/

/-- The file can be read up to a place where the reader breaks down: the table of its variables
cannot be set up, or a variable above the maximum is defined. -/
inductive Overreaches : Text → Prop where
  | table {file : Text} {h : Header} {rest : Text}
      (mark : file.take 3 = Text.ofString "aag" ∨ file.take 3 = Text.ofString "aig")
      (header : header.run (file.drop 3) = .ok (h, rest)) (large : tableLimit ≤ h.maxVar) :
      Overreaches file
  | latchLine {file : Text} {h : Header} {rest : Text} {b : Build} {latches : Text}
      (mark : file.take 3 = Text.ofString "aag")
      (header : header.run (file.drop 3) = .ok (h, rest))
      (inputs : (inputLines h h.inputs .start).run rest = .ok (b, latches))
      (above : Overruns h.maxVar Prod.fst (fun _ => latchText h) h.latches 0 latches) :
      Overreaches file
  | inputs {file : Text} {h : Header} {rest : Text} (mark : file.take 3 = Text.ofString "aig")
      (header : header.run (file.drop 3) = .ok (h, rest)) (above : h.maxVar < h.inputs) :
      Overreaches file
  | implicitLatch {file : Text} {h : Header} {rest : Text}
      (mark : file.take 3 = Text.ofString "aig")
      (header : header.run (file.drop 3) = .ok (h, rest))
      (above : Overruns h.maxVar Prod.fst (latchRest h) h.latches (h.inputs + 1) rest) :
      Overreaches file
  | gate {file : Text} {h : Header} {rest : Text} {c : Build × List Nat} {outputs : Text} {u : Uses}
      {gates : Text} (mark : file.take 3 = Text.ofString "aig")
      (header : header.run (file.drop 3) = .ok (h, rest))
      (latches : (implicitLatches h h.latches (h.inputs + 1)
        (implicitInputs h.inputs 1 .start)).run rest = .ok (c, outputs))
      (uses : (uses h).run outputs = .ok (u, gates))
      (above : Overruns h.maxVar Prod.fst operands h.ands (h.inputs + h.latches + 1) gates) :
      Overreaches file

theorem breaks_checkTable_bind {h : Header} {f : Unit → Reader β} {t : Text} :
    Breaks (checkTable h >>= f) t ↔ tableLimit ≤ h.maxVar ∨ Breaks (f ()) t := by
  by_cases hlarge : tableLimit ≤ h.maxVar
  · have hrun : (checkTable h).run t = .error .breakdown := by
      rw [checkTable, if_pos hlarge]
      rfl
    exact ⟨fun _ => .inl hlarge, fun _ => breaks_bind.mpr (.inl hrun)⟩
  · have hrun : (checkTable h).run t = .ok ((), t) := by
      rw [checkTable, if_neg hlarge]
      rfl
    rw [breaks_bind_of_run hrun, or_iff_right hlarge]

theorem breaks_ascii {t : Text} : Breaks ascii t ↔ ∃ h rest, header.run t = .ok (h, rest) ∧
    (tableLimit ≤ h.maxVar ∨ ∃ b latches,
      (inputLines h h.inputs .start).run rest = .ok (b, latches) ∧
      Overruns h.maxVar Prod.fst (fun _ => latchText h) h.latches 0 latches) := by
  rw [ascii, Steady.header.breaks_bind]
  refine exists_congr fun h => exists_congr fun rest => and_congr_right fun _ => ?_
  rw [breaks_checkTable_bind, (Steady.inputLines h _ _).breaks_bind]
  refine or_congr_right (exists_congr fun b => exists_congr fun latches => and_congr_right fun _ => ?_)
  rw [breaks_bind_of_steady fun c => ?_, breaks_latchLines]
  exact (Steady.uses h).bind fun _ => (Steady.gateLines h _ _ _).bind fun _ =>
    (Steady.lift (visitAll_ne_breakdown _ _ _ _)).bind fun _ => Steady.finish h _ _ _

theorem breaks_binary {t : Text} : Breaks binary t ↔ ∃ h rest, header.run t = .ok (h, rest) ∧
    (tableLimit ≤ h.maxVar ∨ h.maxVar < h.inputs ∨
      Overruns h.maxVar Prod.fst (latchRest h) h.latches (h.inputs + 1) rest ∨
      ∃ c outputs, (implicitLatches h h.latches (h.inputs + 1)
          (implicitInputs h.inputs 1 .start)).run rest = .ok (c, outputs) ∧
        ∃ u gates, (uses h).run outputs = .ok (u, gates) ∧
          Overruns h.maxVar Prod.fst operands h.ands (h.inputs + h.latches + 1) gates) := by
  rw [binary, Steady.header.breaks_bind]
  refine exists_congr fun h => exists_congr fun rest => and_congr_right fun _ => ?_
  rw [breaks_checkTable_bind]
  refine or_congr_right ?_
  by_cases habove : h.maxVar < h.inputs
  · simp only [if_pos habove]
    exact ⟨fun _ => .inl habove, fun _ => rfl⟩
  simp only [if_neg habove]
  rw [breaks_bind, breaks_implicitLatches, or_iff_right habove]
  refine or_congr_right (exists_congr fun c => exists_congr fun outputs =>
    and_congr_right fun _ => ?_)
  rw [(Steady.uses h).breaks_bind]
  refine exists_congr fun u => exists_congr fun gates => and_congr_right fun _ => ?_
  rw [breaks_bind_of_steady fun _ => Steady.finish h _ _ _, breaks_implicitGates]

/-! ### The mark of a file -/

section

variable {file : Text}

theorem stats_breakdown_ascii (hmark : file.take 3 = Text.ofString "aag") :
    stats file = .error (.content .breakdown) ↔ Breaks ascii (file.drop 3) := by
  simp only [stats, hmark, Breaks]
  rw [if_neg (by decide), if_pos (by decide)]
  cases ascii.run (file.drop 3) with
  | error e => simp
  | ok p => simp

theorem stats_breakdown_binary (hmark : file.take 3 = Text.ofString "aig") :
    stats file = .error (.content .breakdown) ↔ Breaks binary (file.drop 3) := by
  simp only [stats, hmark, Breaks]
  rw [if_neg (by decide), if_neg (by decide), if_pos (by decide)]
  cases binary.run (file.drop 3) with
  | error e => simp
  | ok p => simp

theorem mark_of_breakdown (h : stats file = .error (.content .breakdown)) :
    file.take 3 = Text.ofString "aag" ∨ file.take 3 = Text.ofString "aig" := by
  by_cases hascii : file.take 3 = Text.ofString "aag"
  · exact .inl hascii
  by_cases hbinary : file.take 3 = Text.ofString "aig"
  · exact .inr hbinary
  simp only [stats, beq_iff_eq, if_neg hascii, if_neg hbinary] at h
  split at h <;> cases h

/-- **Reading breaks down exactly on the files that overreach.** -/
theorem stats_eq_breakdown_iff : stats file = .error (.content .breakdown) ↔ Overreaches file := by
  constructor
  · intro hstats
    rcases mark_of_breakdown hstats with hmark | hmark
    · obtain ⟨h, rest, hheader, hlarge | ⟨b, latches, hinputs, habove⟩⟩ :=
        breaks_ascii.mp ((stats_breakdown_ascii hmark).mp hstats)
      · exact .table (.inl hmark) hheader hlarge
      · exact .latchLine hmark hheader hinputs habove
    · obtain ⟨h, rest, hheader, hlarge | habove | habove |
          ⟨c, outputs, hlatches, u, gates, huses, habove⟩⟩ :=
        breaks_binary.mp ((stats_breakdown_binary hmark).mp hstats)
      · exact .table (.inr hmark) hheader hlarge
      · exact .inputs hmark hheader habove
      · exact .implicitLatch hmark hheader habove
      · exact .gate hmark hheader hlatches huses habove
  · intro hover
    cases hover with
    | table hmark hheader hlarge =>
      rcases hmark with hmark | hmark
      · rw [stats_breakdown_ascii hmark, breaks_ascii]
        exact ⟨_, _, hheader, .inl hlarge⟩
      · rw [stats_breakdown_binary hmark, breaks_binary]
        exact ⟨_, _, hheader, .inl hlarge⟩
    | latchLine hmark hheader hinputs habove =>
      rw [stats_breakdown_ascii hmark, breaks_ascii]
      exact ⟨_, _, hheader, .inr ⟨_, _, hinputs, habove⟩⟩
    | inputs hmark hheader habove =>
      rw [stats_breakdown_binary hmark, breaks_binary]
      exact ⟨_, _, hheader, .inr (.inl habove)⟩
    | implicitLatch hmark hheader habove =>
      rw [stats_breakdown_binary hmark, breaks_binary]
      exact ⟨_, _, hheader, .inr (.inr (.inl habove))⟩
    | gate hmark hheader hlatches huses habove =>
      rw [stats_breakdown_binary hmark, breaks_binary]
      exact ⟨_, _, hheader, .inr (.inr (.inr ⟨_, _, hlatches, _, _, huses, habove⟩))⟩

end

end Regatta.Aiger
