import Regatta.Circuit.Inspect
import Regatta.Proofs.Circuit.Taking
import Regatta.Proofs.Circuit.Walk

/-! Circuits whose variables stand in order, and their files in the two forms.

The inputs have the first variables, the latches the next and the gates the last, and each gate
follows its operands. Such a circuit can be written in the ASCII form, which gives every variable,
and in the binary form, which leaves them out and has the gates' operands as differences. -/
namespace Regatta.Aiger

inductive Reset where
  | unstated
  | zero
  | one
  | any
deriving DecidableEq, Repr

structure Latch where
  next : Nat
  reset : Reset
deriving DecidableEq, Repr

inductive Named where
  | input
  | latch
  | output
deriving DecidableEq, Repr

def Named.letter : Named → UInt8
  | .input => 105
  | .latch => 108
  | .output => 111

def Named.among (inputs latches outputs : Nat) : Named → Nat
  | .input => inputs
  | .latch => latches
  | .output => outputs

structure Symbol where
  kind : Named
  index : Nat
  name : Text
  name_line : 10 ∉ name

structure OrderedCircuit where
  inputs : Nat
  latches : List Latch
  outputs : List Nat
  gates : List GateLine
  symbols : List Symbol
  comment : Option Text
  next_le : ∀ l ∈ latches, l.next ≤ 2 * (inputs + latches.length + gates.length) + 1
  output_le : ∀ l ∈ outputs, l ≤ 2 * (inputs + latches.length + gates.length) + 1
  ascending : Ascending (inputs + latches.length + 1) gates
  symbol_lt : ∀ s ∈ symbols, s.index < s.kind.among inputs latches.length outputs.length

/-! ### Files -/

def line (l : Nat) : Text := Text.ofNat l ++ [10]

def numbered {α : Type} (text : Nat → α → Text) : Nat → List α → Text
  | _, [] => []
  | v, a :: as => text v a ++ numbered text (v + 1) as

def Reset.text (self : Nat) : Reset → Text
  | .unstated => [10]
  | .zero => 32 :: line 0
  | .one => 32 :: line 1
  | .any => 32 :: line self

def Latch.asciiLine (v : Nat) (l : Latch) : Text :=
  Text.ofNat (2 * v) ++ 32 :: (Text.ofNat l.next ++ l.reset.text (2 * v))

def Latch.binaryLine (v : Nat) (l : Latch) : Text := Text.ofNat l.next ++ l.reset.text (2 * v)

def GateLine.asciiLine (v : Nat) (g : GateLine) : Text :=
  Text.ofNat (2 * v) ++ 32 :: (Text.ofNat g.left ++ 32 :: line g.right)

/-- The differences from the gate to its larger operand and on to the smaller one. -/
def GateLine.differences (v : Nat) (g : GateLine) : Text :=
  septets (2 * v - max g.left g.right) ++ septets (max g.left g.right - min g.left g.right)

/-- The letter of what is named, its number and the name. -/
def Symbol.line (s : Symbol) : Text :=
  s.kind.letter :: (Text.ofNat s.index ++ 32 :: (s.name ++ [10]))

namespace OrderedCircuit

variable (c : OrderedCircuit)

def maxVar : Nat := c.inputs + c.latches.length + c.gates.length

def header : Header :=
  ⟨c.maxVar, c.inputs, c.latches.length, c.outputs.length, c.gates.length, 0, 0, 0, 0⟩

def headerText : Text :=
  [c.maxVar, c.inputs, c.latches.length, c.outputs.length, c.gates.length].flatMap
    (fun n => 32 :: Text.ofNat n) ++ [10]

def notes : Text :=
  c.symbols.flatMap Symbol.line ++ (c.comment.map (99 :: 10 :: ·)).getD []

def asciiBody : Text :=
  c.headerText ++ (numbered (fun v _ => line (2 * v)) 1 (List.replicate c.inputs ()) ++
    (numbered Latch.asciiLine (c.inputs + 1) c.latches ++ (c.outputs.flatMap line ++
    (numbered GateLine.asciiLine (c.inputs + c.latches.length + 1) c.gates ++ c.notes))))

def binaryBody : Text :=
  c.headerText ++ (numbered Latch.binaryLine (c.inputs + 1) c.latches ++
    (c.outputs.flatMap line ++
    (numbered GateLine.differences (c.inputs + c.latches.length + 1) c.gates ++ c.notes)))

def ascii : Text := Text.ofString "aag" ++ c.asciiBody

def binary : Text := Text.ofString "aig" ++ c.binaryBody

/-- The reader can set up its table, and counts the outputs in a word. -/
structure Fits : Prop where
  table : c.maxVar < tableLimit
  outputs : c.outputs.length < Number.wordCount

end OrderedCircuit

/-! ### Lines -/

namespace Takes

variable {h : Header} (hmax : 2 * h.maxVar + 1 < Number.wordCount)
include hmax

theorem inputLines (k : Nat) {v : Nat} (hv : v + k ≤ h.maxVar + 1) (b : Build) :
    Takes (inputLines h k b) (numbered (fun v _ => line (2 * v)) v (List.replicate k ()))
      (b.leaves .input k v) := by
  induction k generalizing v b with
  | zero => exact pure b
  | succ k ih =>
    refine Takes.bind ?_ (ih (by omega) (b.addNode v .input))
    refine literal hmax (by omega) (by decide) ?_
    rw [Nat.mul_mod_right, Nat.mul_div_cancel_left v (by decide)]
    exact newline.bind_pure (pure _)

omit hmax in
theorem reset_cons (self : Nat) (r : Reset) :
    ∃ b t, r.text self = b :: t ∧ Text.isDigit b = false := by
  cases r with
  | unstated => exact ⟨10, [], rfl, by decide⟩
  | zero => exact ⟨32, line 0, rfl, by decide⟩
  | one => exact ⟨32, line 1, rfl, by decide⟩
  | any => exact ⟨32, line self, rfl, by decide⟩

omit hmax in
theorem latchInit {self : Nat} (hself : self < Number.wordCount) (r : Reset) :
    Takes (latchInit self) (r.text self) () := by
  have hstated : ∀ {i : Nat}, i < Number.wordCount → i = 0 ∨ i = 1 ∨ i = self →
      Takes (Aiger.latchInit self) (32 :: line i) () := by
    intro i hi hcase
    refine (nextByte 32).bind (t := line i) (number hi (by decide) ?_)
    rw [if_neg (by simpa using fun h0 h1 => (hcase.resolve_left h0).resolve_left h1)]
    exact newline
  cases r with
  | unstated => exact (nextByte 10).bind_pure (pure ())
  | zero => exact hstated (by decide) (.inl rfl)
  | one => exact hstated (by decide) (.inr (.inl rfl))
  | any => exact hstated hself (.inr (.inr rfl))

variable {gs : List GateLine} {ls : List Latch} {v : Nat}

theorem latchLines (hls : ∀ l ∈ ls, l.next ≤ 2 * h.maxVar + 1)
    (hv : v + ls.length ≤ h.maxVar + 1) (b : Build) :
    Takes (latchLines h ls.length b) (numbered Latch.asciiLine v ls)
      (b.leaves .latch ls.length v, ls.map Latch.next) := by
  induction ls generalizing v b with
  | nil => exact pure _
  | cons l ls ih =>
    rw [List.forall_mem_cons] at hls
    rw [List.length_cons] at hv
    have hrest := ih hls.2 (show v + 1 + ls.length ≤ _ by omega) (b.addNode v .latch)
    refine Takes.bind (a := (b.addNode v .latch, l.next)) ?_ (hrest.bind_pure (pure _))
    obtain ⟨d, t, ht, hd⟩ := reset_cons (2 * v) l.reset
    have hself : 2 * v < Number.wordCount := by omega
    have hreset := latchInit hself l.reset
    rw [Latch.asciiLine]
    rw [ht] at hreset ⊢
    refine number hself (by decide) ?_
    rw [Nat.mul_mod_right]
    refine (expect 32).bind (s := [32]) (literal hmax hls.1 hd (hreset.bind_pure ?_))
    rw [Nat.mul_div_cancel_left v (by decide), if_neg (by omega)]
    exact pure _

theorem implicitLatches (hls : ∀ l ∈ ls, l.next ≤ 2 * h.maxVar + 1)
    (hv : v + ls.length ≤ h.maxVar + 1) (b : Build) :
    Takes (implicitLatches h ls.length v b) (numbered Latch.binaryLine v ls)
      (b.leaves .latch ls.length v, ls.map Latch.next) := by
  induction ls generalizing v b with
  | nil => exact pure _
  | cons l ls ih =>
    rw [List.forall_mem_cons] at hls
    rw [List.length_cons] at hv
    have hrest := ih hls.2 (show v + 1 + ls.length ≤ _ by omega) (b.addNode v .latch)
    obtain ⟨d, t, ht, hd⟩ := reset_cons (2 * v) l.reset
    have hreset := latchInit (show 2 * v < Number.wordCount by omega) l.reset
    rw [numbered, Latch.binaryLine, List.append_assoc]
    rw [ht] at hreset ⊢
    refine literal hmax hls.1 hd (hreset.bind (s := d :: t) ?_)
    rw [if_neg (by omega)]
    exact hrest.bind_pure (pure _)

theorem gateLines (hgs : Ascending v gs)
    (hv : v + gs.length ≤ h.maxVar + 1) {t : Std.HashMap Nat GateLine}
    (ht : ∀ w, v ≤ w → w ∉ t) (order : List Nat) :
    Takes (gateLines h gs.length t order) (numbered GateLine.asciiLine v gs)
      (noted v gs t, order.reverse ++ List.range' v gs.length) := by
  induction gs generalizing v t order with
  | nil =>
    rw [List.length_nil, List.range'_zero, List.append_nil]
    exact pure _
  | cons g gs ih =>
    obtain ⟨⟨hleft, hright⟩, hgs⟩ := hgs
    rw [List.length_cons] at hv
    have hnext : ∀ w, v + 1 ≤ w → w ∉ t.insert v g := by
      intro w hw
      rw [Std.HashMap.mem_insert, beq_iff_eq]
      rintro (rfl | hmem)
      · omega
      · exact ht w (by omega) hmem
    have hfree : t.contains v = false := by
      rw [← Bool.not_eq_true, Std.HashMap.contains_iff_mem]
      exact ht v (Nat.le_refl v)
    have hrest := ih hgs (show v + 1 + gs.length ≤ _ by omega) hnext (v :: order)
    rw [List.length_cons, List.range'_succ, numbered, GateLine.asciiLine, line]
    simp only [List.append_assoc, List.cons_append, List.nil_append]
    refine literal hmax (by omega) (by decide) ((expect 32).bind (s := [32]) ?_)
    refine literal hmax (by omega) (by decide) ((expect 32).bind (s := [32]) ?_)
    refine literal hmax (by omega) (by decide) (newline.bind (s := [10]) ?_)
    rw [Nat.mul_mod_right, Nat.mul_div_cancel_left v (by decide), hfree]
    rw [List.reverse_cons, List.append_assoc] at hrest
    exact hrest

theorem implicitGates (hgs : Ascending v gs) (hv : v + gs.length ≤ h.maxVar + 1) (b : Build) :
    Takes (implicitGates h gs.length v b) (numbered GateLine.differences v gs) (b.gates gs v) := by
  induction gs generalizing v b with
  | nil => exact pure b
  | cons g gs ih =>
    obtain ⟨⟨hleft, hright⟩, hgs⟩ := hgs
    rw [List.length_cons] at hv
    have hrest := ih hgs (show v + 1 + gs.length ≤ _ by omega) (b.addGate v g.left g.right)
    have hadd : b.addGate v (max g.left g.right) (min g.left g.right) =
        b.addGate v g.left g.right := by
      rcases Nat.le_total g.left g.right with hle | hle
      · rw [Nat.max_eq_right hle, Nat.min_eq_left hle, Build.addGate_comm]
      · rw [Nat.max_eq_left hle, Nat.min_eq_right hle]
    rw [numbered, GateLine.differences, List.append_assoc]
    refine (readDelta (by omega)).bind ?_
    rw [if_neg (by omega)]
    refine (readDelta (by omega)).bind ?_
    rw [if_neg (by omega), if_neg (by omega),
      show 2 * v - (2 * v - max g.left g.right) = max g.left g.right by omega,
      show max g.left g.right - (max g.left g.right - min g.left g.right) =
        min g.left g.right by omega, hadd]
    exact hrest

theorem uses {outputs : List Nat} (houtputs : ∀ l ∈ outputs, l ≤ 2 * h.maxVar + 1)
    (hcount : h.outputs = outputs.length) (hbad : h.bad = 0) (hconstraints : h.constraints = 0)
    (hjustice : h.justice = 0) (hfairness : h.fairness = 0) :
    Takes (uses h) (outputs.flatMap line) ⟨outputs, []⟩ := by
  rw [Aiger.uses, hcount, hbad, hconstraints, hjustice, hfairness]
  exact (times fun l hl => literalLine hmax (houtputs l hl)).bind_pure (pure _)

end Takes

/-! ### The end of the file -/

/-- Symbols and a comment are passed over. -/
theorem gives_symbols {ss : List Symbol} (hss : ∀ s ∈ ss, s.index < Number.wordCount)
    (comment : Option Text) {fuel : Nat} (hfuel : ss.length < fuel) :
    Gives (symbols fuel) (ss.flatMap Symbol.line ++ (comment.map (99 :: 10 :: ·)).getD [])
      (.ok ()) := by
  induction ss generalizing fuel with
  | nil =>
    obtain ⟨fuel, rfl⟩ := Nat.exists_eq_add_of_le' hfuel
    cases comment with
    | none => rfl
    | some t => rfl
  | cons s ss ih =>
    obtain ⟨fuel, rfl⟩ := Nat.exists_eq_add_of_le' (Nat.one_le_of_lt hfuel)
    rw [List.forall_mem_cons] at hss
    rw [List.length_cons] at hfuel
    have hrest := ih hss.2 (show ss.length < fuel by omega)
    have hline : Gives (do let _ ← number; expect 32; symbolName; symbols fuel)
        (Text.ofNat s.index ++ 32 :: (s.name ++ [10] ++ (ss.flatMap Symbol.line ++
          (comment.map (99 :: 10 :: ·)).getD []))) (.ok ()) :=
      .number hss.1 (by decide) ((Takes.expect 32).gives (s := [32])
        ((Takes.symbolName s.name_line).gives hrest))
    have htext : (s :: ss).flatMap Symbol.line ++ (comment.map (99 :: 10 :: ·)).getD [] =
        s.kind.letter :: (Text.ofNat s.index ++ 32 :: (s.name ++ [10] ++ (ss.flatMap Symbol.line ++
          (comment.map (99 :: 10 :: ·)).getD []))) := by
      simp [Symbol.line]
    rw [htext]
    cases hkind : s.kind with
    | input => exact hline
    | latch => exact hline
    | output => exact hline

namespace OrderedCircuit

variable (c : OrderedCircuit)

/-! ### What is read -/

def leaves : Build :=
  (Build.start.leaves .input c.inputs 1).leaves .latch c.latches.length (c.inputs + 1)

def build : Build := c.leaves.gates c.gates (c.inputs + c.latches.length + 1)

def hashed (settle : Nat → Nat) : Hashing :=
  .run settle (c.inputs + c.latches.length) c.gates

def figures (ands : Nat) : Stats := ⟨c.inputs, c.outputs.length, c.latches.length, ands⟩

theorem values_length_hashed (settle : Nat → Nat) :
    (c.hashed settle).values.length = c.maxVar + 1 := by
  rw [hashed, Hashing.run, Hashing.values_length_foldl, Hashing.values_length_start, maxVar]
  omega

theorem mirrors_leaves : Mirrors (.start (c.inputs + c.latches.length)) c.leaves := by
  have hinputs : Mirrors (.start (0 + c.inputs)) (Build.start.leaves .input c.inputs 1) :=
    Mirrors.start.leaves (by simp) c.inputs
  rw [Nat.zero_add] at hinputs
  exact hinputs.leaves (by simp) c.latches.length

theorem mirrors_build : Mirrors (c.hashed Hashing.plain) c.build := by
  have hlength := Hashing.values_length_start (c.inputs + c.latches.length)
  have h := c.mirrors_leaves.gates (hlength ▸ c.ascending)
  rwa [hlength] at h

variable {c}

theorem Fits.bound (h : c.Fits) : 2 * c.maxVar + 1 < Number.wordCount := by
  have htable := h.table
  have hlimit : 2 * tableLimit < Number.wordCount := by decide
  omega

theorem Fits.words (h : c.Fits) : c.maxVar < Number.wordCount :=
  Nat.lt_trans h.table (by decide)

theorem Fits.symbol_lt (h : c.Fits) : ∀ s ∈ c.symbols, s.index < Number.wordCount := by
  intro s hs
  have hbound := h.bound
  have houtputs := h.outputs
  have hindex := c.symbol_lt s hs
  rw [maxVar] at hbound
  cases hkind : s.kind with
  | _ =>
    rw [hkind, Named.among] at hindex
    omega

/-- Every symbol has a line. -/
theorem length_le_lines (ss : List Symbol) : ss.length ≤ (ss.flatMap Symbol.line).length := by
  induction ss with
  | nil => exact Nat.le_refl 0
  | cons s ss ih =>
    rw [List.flatMap_cons, List.length_append, List.length_cons, Symbol.line, List.length_cons]
    omega

theorem takes_header (hmax : c.maxVar < Number.wordCount)
    (houtputs : c.outputs.length < Number.wordCount) :
    Takes Aiger.header c.headerText c.header := by
  refine Takes.header fun n hn => ?_
  rw [maxVar] at hmax
  simp only [List.mem_cons, List.not_mem_nil, or_false, maxVar] at hn
  omega

theorem takes_checkTable (h : c.Fits) : Takes (checkTable c.header) [] () := by
  rw [checkTable, if_neg (show ¬ tableLimit ≤ c.header.maxVar from Nat.not_le.mpr h.table)]
  exact Takes.pure ()

theorem takes_uses (h : c.Fits) :
    Takes (uses c.header) (c.outputs.flatMap line) ⟨c.outputs, []⟩ :=
  Takes.uses h.bound c.output_le rfl rfl rfl rfl rfl

theorem gives_finish (h : c.Fits) :
    Gives (finish c.header c.build (c.latches.map Latch.next) ⟨c.outputs, []⟩) c.notes
      (.ok (c.figures (c.hashed Hashing.plain).kept.length)) := by
  have hlength := c.values_length_hashed Hashing.plain
  have hdefined : (c.latches.map Latch.next ++ c.outputs ++ []).all c.build.defined = true := by
    rw [List.append_nil, List.all_append, Bool.and_eq_true, List.all_eq_true, List.all_eq_true]
    refine ⟨fun l hl => ?_, fun l hl => ?_⟩
    · obtain ⟨latch, hlatch, rfl⟩ := List.mem_map.mp hl
      have := c.next_le latch hlatch
      exact c.mirrors_build.defined (by rw [hlength, maxVar]; omega)
    · have := c.output_le l hl
      exact c.mirrors_build.defined (by rw [hlength, maxVar]; omega)
  have hsymbols : Gives (Aiger.symbols (c.notes.length + 1)) c.notes (.ok ()) := by
    refine gives_symbols h.symbol_lt c.comment ?_
    have := length_le_lines c.symbols
    rw [notes, List.length_append]
    omega
  refine .get (hsymbols.bind fun rest => ?_)
  rw [if_pos hdefined, c.mirrors_build.shows.ands]
  rfl

theorem implicitInputs_eq (k v : Nat) (b : Build) : implicitInputs k v b = b.leaves .input k v := by
  induction k generalizing v b with
  | zero => rfl
  | succ k ih => exact ih (v + 1) _

/-- The latches' variables end before the gates', and those with the last variable. -/
theorem vars_le (c : OrderedCircuit) : c.inputs + 1 ≤ c.header.maxVar + 1 ∧
    c.inputs + 1 + c.latches.length ≤ c.header.maxVar + 1 ∧
    c.inputs + c.latches.length + 1 + c.gates.length ≤ c.header.maxVar + 1 := by
  have : c.header.maxVar = c.inputs + c.latches.length + c.gates.length := rfl
  omega

theorem gives_binary (h : c.Fits) : Gives Aiger.binary c.binaryBody
    (.ok (c.figures (c.hashed Hashing.plain).kept.length)) := by
  obtain ⟨hinputs, hlatches, hgates⟩ := c.vars_le
  refine (takes_header h.words h.outputs).gives ((takes_checkTable h).gives_nil ?_)
  have hroom : ¬ c.header.maxVar < c.header.inputs := by
    show ¬ c.header.maxVar < c.inputs
    omega
  rw [if_neg hroom, implicitInputs_eq]
  refine (Takes.implicitLatches h.bound c.next_le hlatches _).gives ((takes_uses h).gives ?_)
  exact (Takes.implicitGates h.bound c.ascending hgates c.leaves).gives (gives_finish h)

theorem before_gates (c : OrderedCircuit) : Walk.Before ⟨c.leaves, ∅,
      (c.leaves.meaning.erase 0).fold (fun s v _ => s.insert v ()) ∅⟩
    (c.inputs + c.latches.length + 1) := by
  have hinputs : ∀ u, u ∈ (Build.start.leaves .input c.inputs 1).meaning ↔ u ≤ c.inputs := by
    intro u
    rw [Build.mem_leaves c.inputs Build.mem_start, Nat.zero_add]
  refine ⟨fun u => ?_, fun u hu => absurd hu Std.HashMap.not_mem_empty⟩
  rw [mem_fold_erase, leaves, Build.mem_leaves c.latches.length hinputs, Nat.lt_succ_iff]

theorem lookup_zero (c : OrderedCircuit) : (c.leaves.lookup 0 == Graph.falseLit) = true := by
  rw [c.mirrors_leaves.lookup 0 (by simp), Hashing.value_start (Nat.zero_le _)]
  rfl

theorem gives_ascii (h : c.Fits) : Gives Aiger.ascii c.asciiBody
    (if c.gates.any GateLine.hasConstant then .error .undefinedLiteral
      else .ok (c.figures (c.hashed Hashing.plain).kept.length)) := by
  obtain ⟨hinputs, hlatches, hgates⟩ := c.vars_le
  refine (takes_header h.words h.outputs).gives ((takes_checkTable h).gives_nil ?_)
  refine (Takes.inputLines h.bound c.inputs (by omega) Build.start).gives ?_
  refine Takes.gives (a := (c.leaves, c.latches.map Latch.next))
    (Takes.latchLines h.bound c.next_le hlatches _) ((takes_uses h).gives ?_)
  refine (Takes.gateLines h.bound c.ascending hgates (fun _ _ => Std.HashMap.not_mem_empty)
    []).gives ?_
  have hzero : (noted (c.inputs + c.latches.length + 1) c.gates ∅)[0]? = none := by
    rw [getElem?_noted (Nat.succ_pos _), Std.HashMap.getElem?_empty]
  have hnotes := notes_noted c.gates (c.inputs + c.latches.length + 1) ∅
  simp only [if_pos c.lookup_zero]
  split
  next hconstant =>
    exact .lift_error (visitAll_constant _ c.before_gates hnotes c.ascending hzero hconstant)
  next hconstant =>
    obtain ⟨w, hw, hbuild⟩ := visitAll_ordered c.gates.length c.before_gates hnotes c.ascending
      (Bool.eq_false_iff.mpr hconstant)
    refine .lift_ok hw ?_
    rw [hbuild]
    exact gives_finish h

/-- A table that cannot be set up breaks both readers. -/
theorem gives_large (hmax : c.maxVar < Number.wordCount)
    (houtputs : c.outputs.length < Number.wordCount) (hlarge : tableLimit ≤ c.maxVar) :
    Gives Aiger.ascii c.asciiBody (.error .breakdown) ∧
      Gives Aiger.binary c.binaryBody (.error .breakdown) := by
  have hcheck : checkTable c.header = throw .breakdown := if_pos hlarge
  constructor
  · refine (takes_header hmax houtputs).gives ?_
    rw [hcheck]
    rfl
  · refine (takes_header hmax houtputs).gives ?_
    rw [hcheck]
    rfl

end OrderedCircuit

/-! ### Marks -/

variable {body : Text} {result : Except Fault Stats}

theorem Gives.content {r : Reader Stats} (h : Gives r body result) : (match r.run body with
      | .ok (s, _) => .ok s
      | .error f => .error (.content f)) = result.mapError FileFault.content := by
  rw [Gives] at h
  subst h
  cases r.run body with
  | error f => rfl
  | ok p => rfl

theorem stats_ascii (h : Gives ascii body result) :
    stats (Text.ofString "aag" ++ body) = result.mapError .content := by
  have hmark : (Text.ofString "aag" ++ body).take 3 = Text.ofString "aag" := rfl
  have hbody : (Text.ofString "aag" ++ body).drop 3 = body := rfl
  simp only [stats, hmark, hbody]
  rw [if_neg (by decide), if_pos (by decide)]
  exact h.content

theorem stats_binary (h : Gives binary body result) :
    stats (Text.ofString "aig" ++ body) = result.mapError .content := by
  have hmark : (Text.ofString "aig" ++ body).take 3 = Text.ofString "aig" := rfl
  have hbody : (Text.ofString "aig" ++ body).drop 3 = body := rfl
  simp only [stats, hmark, hbody]
  rw [if_neg (by decide), if_neg (by decide), if_pos (by decide)]
  exact h.content

theorem inspect_of_stats {t : FileTree} {p file : Text}
    (hp : t.read p = .ok file) (h : stats file = result.mapError .content) :
    Circuit.inspect t p = result.mapError (.malformed p) := by
  rw [Circuit.inspect, hp]
  simp only [h]
  cases result with
  | error f => rfl
  | ok s => rfl

namespace OrderedCircuit

variable {c : OrderedCircuit} {t : FileTree} {p : Text}

theorem inspect_ascii (h : c.Fits) (hp : t.read p = .ok c.ascii) : Circuit.inspect t p =
    if c.gates.any GateLine.hasConstant then .error (.malformed p .undefinedLiteral)
    else .ok (c.figures (c.hashed Hashing.plain).kept.length) := by
  rw [inspect_of_stats hp (stats_ascii (gives_ascii h))]
  split <;> rfl

theorem inspect_binary (h : c.Fits) (hp : t.read p = .ok c.binary) :
    Circuit.inspect t p = .ok (c.figures (c.hashed Hashing.plain).kept.length) :=
  inspect_of_stats hp (stats_binary (gives_binary h))

/-- No gate comes down to false or to a complemented literal. -/
def Uncomplemented (c : OrderedCircuit) : Prop :=
  ∀ l ∈ (c.hashed id).values.drop (c.inputs + c.latches.length + 1), Hashing.plain l = l

/-- The figures of an ordered circuit, from its file in either form. A circuit whose table cannot be
set up breaks both readers. Of every other circuit the binary form gives the inputs, outputs and
latches, and as gates the pairs that are kept when each gate stands for a plain literal, at most as
many as the circuit has. The ASCII form gives the same, but is refused when a gate has a constant
operand. The gates are those that structural hashing leaves when none comes down to a complemented
literal; that hashing keeps the value of every variable. -/
theorem inspect_figures (c : OrderedCircuit) (hmax : c.maxVar < Number.wordCount)
    (houtputs : c.outputs.length < Number.wordCount) {t : FileTree} {p q : Text}
    (hp : t.read p = .ok c.ascii) (hq : t.read q = .ok c.binary) :
    (tableLimit ≤ c.maxVar → Circuit.inspect t p = .error (.malformed p .breakdown) ∧
        Circuit.inspect t q = .error (.malformed q .breakdown)) ∧
      (c.maxVar < tableLimit →
        Circuit.inspect t q = .ok (c.figures (c.hashed Hashing.plain).kept.length) ∧
        Circuit.inspect t p =
          if c.gates.any GateLine.hasConstant then .error (.malformed p .undefinedLiteral)
          else .ok (c.figures (c.hashed Hashing.plain).kept.length)) ∧
      (c.hashed Hashing.plain).kept.length ≤ c.gates.length ∧
      (c.Uncomplemented →
        (c.hashed Hashing.plain).kept.length = (c.hashed id).kept.length) ∧
      ∀ ρ : Nat → Bool, ρ 0 = false → Satisfies ρ (c.inputs + c.latches.length + 1) c.gates →
        (c.hashed id).Faithful ρ := by
  refine ⟨fun hlarge => ?_, fun htable => ?_, ?_, fun hplain => ?_, fun ρ hzero hρ => ?_⟩
  · obtain ⟨hascii, hbinary⟩ := gives_large hmax houtputs hlarge
    exact ⟨inspect_of_stats hp (stats_ascii hascii), inspect_of_stats hq (stats_binary hbinary)⟩
  · exact ⟨inspect_binary ⟨htable, houtputs⟩ hq, inspect_ascii ⟨htable, houtputs⟩ hp⟩
  · have hkept := Hashing.kept_length_foldl Hashing.plain c.gates
      (.start (c.inputs + c.latches.length))
    exact Nat.le_trans hkept (Nat.le_of_eq (Nat.zero_add _))
  · exact congrArg (·.kept.length) (Hashing.run_plain hplain)
  · exact Hashing.value_run hzero c.ascending hρ

def shelf (c : OrderedCircuit) : FileTree :=
  ⟨[], [([Text.ofString "c.aag"], .file c.ascii false),
    ([Text.ofString "c.aig"], .file c.binary false)]⟩

theorem read_shelf (c : OrderedCircuit) : c.shelf.read (Text.ofString "c.aag") = .ok c.ascii ∧
    c.shelf.read (Text.ofString "c.aig") = .ok c.binary :=
  ⟨rfl, rfl⟩

/-- One input, one latch and three gates, of which the first and the last join the same two. -/
def twin : OrderedCircuit where
  inputs := 1
  latches := [⟨8, .any⟩]
  outputs := [6, 11]
  gates := [⟨2, 4⟩, ⟨5, 2⟩, ⟨4, 2⟩]
  symbols := [⟨.latch, 0, Text.ofString "state", by decide⟩]
  comment := some (Text.ofString "by hand")
  next_le := by decide
  output_le := by decide
  ascending := by simp [Ascending]
  symbol_lt := by simp [Named.among]

theorem inspect_figures_twin : twin.maxVar < Number.wordCount ∧
    twin.outputs.length < Number.wordCount ∧
    twin.shelf.read (Text.ofString "c.aag") = .ok twin.ascii ∧
    twin.shelf.read (Text.ofString "c.aig") = .ok twin.binary ∧
    Circuit.inspect twin.shelf (Text.ofString "c.aag") = .ok ⟨1, 2, 1, 2⟩ ∧
    Circuit.inspect twin.shelf (Text.ofString "c.aig") = .ok ⟨1, 2, 1, 2⟩ ∧
    (twin.hashed id).kept.length = 2 := by
  obtain ⟨hp, hq⟩ := twin.read_shelf
  obtain ⟨-, hread, -, hplain, -⟩ := inspect_figures twin (by decide) (by decide) hp hq
  obtain ⟨hbinary, hascii⟩ := hread (by decide)
  exact ⟨by decide, by decide, hp, hq, hascii, hbinary, (hplain (by unfold Uncomplemented; decide)).symm⟩

/-- Two inputs and a gate of the first and the constant true. -/
def held : OrderedCircuit where
  inputs := 2
  latches := []
  outputs := [6]
  gates := [⟨1, 2⟩]
  symbols := []
  comment := none
  next_le := by decide
  output_le := by decide
  ascending := by simp [Ascending]
  symbol_lt := by simp

/-- Two inputs and three gates that are all false: the first joins an input and its complement. -/
def muted : OrderedCircuit where
  inputs := 2
  latches := []
  outputs := [10]
  gates := [⟨3, 2⟩, ⟨6, 4⟩, ⟨8, 2⟩]
  symbols := []
  comment := none
  next_le := by decide
  output_le := by decide
  ascending := by simp [Ascending]
  symbol_lt := by simp

/-- A constant operand is read in the binary form and refused in the ASCII form; and where a gate is
false, both forms count a gate that hashing does not leave. -/
theorem figures_differ :
    (Circuit.inspect held.shelf (Text.ofString "c.aag") =
        .error (.malformed (Text.ofString "c.aag") .undefinedLiteral) ∧
      Circuit.inspect held.shelf (Text.ofString "c.aig") = .ok ⟨2, 1, 0, 0⟩) ∧
    Circuit.inspect muted.shelf (Text.ofString "c.aag") = .ok ⟨2, 1, 0, 1⟩ ∧
      Circuit.inspect muted.shelf (Text.ofString "c.aig") = .ok ⟨2, 1, 0, 1⟩ ∧
      (muted.hashed id).kept.length = 0 := by
  have hheld : held.Fits := ⟨by decide, by decide⟩
  have hmuted : muted.Fits := ⟨by decide, by decide⟩
  exact ⟨⟨inspect_ascii hheld held.read_shelf.1, inspect_binary hheld held.read_shelf.2⟩,
    inspect_ascii hmuted muted.read_shelf.1, inspect_binary hmuted muted.read_shelf.2, by decide⟩

end OrderedCircuit
end Regatta.Aiger
