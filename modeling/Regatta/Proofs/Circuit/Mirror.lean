import Regatta.Proofs.Circuit.Hashing

/-! The reader's graph and the circuit hashed in the literals of the file.

The graph numbers its nodes in the order in which they are built and has the constants the other way
round. `Hashing.Shows` says that a graph holds the leaves and behind them one node for each pair
that is kept; `Mirrors` adds what each variable of the file stands for. One more gate keeps both
(`Mirrors.addGate`), so the gates that a reader counts are the pairs that hashing keeps. -/
namespace Regatta.Graph

variable {g : Graph} {a b : Nat}

theorem and_comm (g : Graph) (a b : Nat) : g.and a b = g.and b a := by
  have hcomplement : (a = complement b) = (b = complement a) :=
    propext ⟨fun h => by rw [h, complement_complement], fun h => by rw [h, complement_complement]⟩
  by_cases h : a = b
  · rw [h]
  · simp only [Graph.and, beq_iff_eq, if_neg h, if_neg (Ne.symm h), hcomplement, Nat.min_comm a b,
      Nat.max_comm a b]

theorem and_self (g : Graph) (a : Nat) : g.and a a = (a, g) := by
  rw [Graph.and, if_pos (beq_self_eq_true a)]

theorem and_complement (hne : a ≠ b) (h : a = complement b) : g.and a b = (falseLit, g) := by
  rw [Graph.and, if_neg (by simpa using hne), if_pos (by simpa using h)]

theorem and_false (hne : a ≠ b) (hnc : a ≠ complement b) (h : min a b = falseLit) :
    g.and a b = (falseLit, g) := by
  rw [Graph.and, if_neg (by simpa using hne), if_neg (by simpa using hnc)]
  simp [h]

theorem and_true (hne : a ≠ b) (hnc : a ≠ complement b) (h : min a b = trueLit) :
    g.and a b = (max a b, g) := by
  rw [Graph.and, if_neg (by simpa using hne), if_neg (by simpa using hnc)]
  simp [h, trueLit, falseLit]

theorem and_found (hne : a ≠ b) (hnc : a ≠ complement b) (h : falseLit < min a b) {i : Nat}
    (hi : g.nodes.findIdx? (· == .gate (min a b) (max a b)) = some i) : g.and a b = (2 * i, g) := by
  have hfalse : min a b ≠ falseLit := Nat.ne_of_gt h
  have htrue : min a b ≠ trueLit := Nat.ne_of_gt (Nat.lt_trans (by decide) h)
  rw [Graph.and, if_neg (by simpa using hne), if_neg (by simpa using hnc)]
  simp [hfalse, htrue, hi]

theorem and_new (hne : a ≠ b) (hnc : a ≠ complement b) (h : falseLit < min a b)
    (hnew : g.nodes.findIdx? (· == .gate (min a b) (max a b)) = none) :
    g.and a b = g.push (.gate (min a b) (max a b)) := by
  have hfalse : min a b ≠ falseLit := Nat.ne_of_gt h
  have htrue : min a b ≠ trueLit := Nat.ne_of_gt (Nat.lt_trans (by decide) h)
  rw [Graph.and, if_neg (by simpa using hne), if_neg (by simpa using hnc)]
  simp [hfalse, htrue, hnew]

theorem ands_push_gate (g : Graph) {lo : Nat} (hi : Nat) (h : lo ≠ undefinedLit) :
    (g.push (.gate lo hi)).2.ands = g.ands + 1 := by
  simp [push, ands, h]

theorem ands_push_leaf (g : Graph) {n : Node} (h : ∀ l r, n ≠ .gate l r) :
    (g.push n).2.ands = g.ands := by
  cases n with
  | gate l r => exact absurd rfl (h l r)
  | _ => simp [push, ands]

end Regatta.Graph

namespace Regatta.Aiger.Hashing

variable {s s' : Hashing} {a b v w : Nat}

/-! ### Places in the graph -/

/-- The node of the graph for a variable: the leaves come behind the constant, then the pairs. -/
def node (s : Hashing) (v : Nat) : Nat :=
  if v ≤ s.leaves then v + 1 else s.leaves + 2 + (s.kept.map Pair.var).idxOf v

/-- The graph's literal. Of its constants, true is the plain one. -/
def graphLit (s : Hashing) (l : Nat) : Nat :=
  if l < 2 then 3 - l else 2 * s.node (l / 2) + l % 2

def gate (s : Hashing) (a b : Nat) : Node :=
  .gate (min (s.graphLit a) (s.graphLit b)) (max (s.graphLit a) (s.graphLit b))

theorem two_le_node (hv : 1 ≤ v) : 2 ≤ s.node v := by
  rw [node]
  split <;> omega

theorem node_inj (hv : v ≤ s.leaves ∨ v ∈ s.kept.map Pair.var) (h : s.node v = s.node w) :
    v = w := by
  rw [node, node] at h
  by_cases hvl : v ≤ s.leaves <;> by_cases hwl : w ≤ s.leaves
  · rw [if_pos hvl, if_pos hwl] at h
    omega
  · rw [if_pos hvl, if_neg hwl] at h
    omega
  · rw [if_neg hvl, if_pos hwl] at h
    omega
  · rw [if_neg hvl, if_neg hwl] at h
    exact (List.idxOf_inj (hv.resolve_left hvl)).mp (Nat.add_left_cancel h)

theorem graphLit_const (h : a < 2) : s.graphLit a = 3 - a := if_pos h

theorem graphLit_of_two_le (h : 2 ≤ a) : s.graphLit a = 2 * s.node (a / 2) + a % 2 :=
  if_neg (Nat.not_lt.mpr h)

theorem four_le_graphLit (h : 2 ≤ a) : 4 ≤ s.graphLit a := by
  have := two_le_node (s := s) (v := a / 2) (by omega)
  rw [graphLit_of_two_le h]
  omega

theorem two_le_graphLit (a : Nat) : 2 ≤ s.graphLit a := by
  rcases Nat.lt_or_ge a 2 with h | h
  · rw [graphLit_const h]
    omega
  · have := four_le_graphLit (s := s) h
    omega

theorem graphLit_two_mul (hv : 1 ≤ v) : s.graphLit (2 * v) = 2 * s.node v := by
  rw [graphLit_of_two_le (by omega), Nat.mul_div_cancel_left _ (by omega), Nat.mul_mod_right]
  rfl

theorem graphLit_complement (a : Nat) :
    s.graphLit (Graph.complement a) = Graph.complement (s.graphLit a) := by
  have hdiv := Graph.complement_div a
  rcases Nat.lt_or_ge a 2 with h | h
  · rw [graphLit_const h, graphLit_const (by omega)]
    simp only [Graph.complement_eq]
    split <;> split <;> omega
  · rw [graphLit_of_two_le h, graphLit_of_two_le (by omega), hdiv]
    simp only [Graph.complement_eq]
    split <;> split <;> omega

theorem graphLit_plain (l : Nat) : s.graphLit (plain l) = s.graphLit l - s.graphLit l % 2 := by
  rw [plain]
  split
  next h =>
    rw [graphLit_const h, graphLit_const (by decide)]
    omega
  next h =>
    rw [graphLit_of_two_le (by omega), graphLit_of_two_le (by omega),
      show (l - l % 2) / 2 = l / 2 by omega]
    omega

theorem graphLit_inj (ha : s.Live a) : s.graphLit a = s.graphLit b ↔ a = b := by
  refine ⟨fun h => ?_, fun h => by rw [h]⟩
  rcases Nat.lt_or_ge a 2 with ha2 | ha2 <;> rcases Nat.lt_or_ge b 2 with hb2 | hb2
  · rw [graphLit_const ha2, graphLit_const hb2] at h
    omega
  · have := four_le_graphLit (s := s) hb2
    rw [graphLit_const ha2] at h
    omega
  · have := four_le_graphLit (s := s) ha2
    rw [graphLit_const hb2] at h
    omega
  · rw [graphLit_of_two_le ha2, graphLit_of_two_le hb2] at h
    have := node_inj ha (w := b / 2) (by omega)
    omega

variable {c i n : Nat} {p : Pair}

/-- Two conjunctions have one node exactly when they have the same operands. -/
theorem gate_eq_iff {d : Nat} (hc : s.Live c) (hd : s.Live d) :
    s.gate c d = s.gate a b ↔ c = a ∧ d = b ∨ c = b ∧ d = a := by
  rw [← graphLit_inj hc (b := a), ← graphLit_inj hd (b := b), ← graphLit_inj hc (b := b),
    ← graphLit_inj hd (b := a), gate, gate, Node.gate.injEq]
  omega

theorem Grows.node (h : s.Grows s') (hv : v ≤ s.leaves ∨ v ∈ s.kept.map Pair.var) :
    s'.node v = s.node v := by
  obtain ⟨hleaves, more, hmore⟩ := h
  rw [Hashing.node, Hashing.node, hleaves, ← hmore, List.map_append]
  rcases hv with hv | hv
  · rw [if_pos hv, if_pos hv]
  · rw [List.idxOf_append_of_mem hv]

theorem Grows.graphLit (h : s.Grows s') (ha : s.Live a) : s'.graphLit a = s.graphLit a := by
  rw [Hashing.graphLit, Hashing.graphLit, h.node ha]

theorem Grows.gate (h : s.Grows s') (ha : s.Live a) (hb : s.Live b) :
    s'.gate a b = s.gate a b := by
  rw [Hashing.gate, Hashing.gate, h.graphLit ha, h.graphLit hb]

theorem graphLit_of_kept_eq (hleaves : s'.leaves = s.leaves) (hkept : s'.kept = s.kept) (l : Nat) :
    s'.graphLit l = s.graphLit l := by
  cases s'
  cases hleaves
  cases hkept
  rfl

/-! ### Conjunctions -/

theorem and_const (g : Graph) (ha : a < 2) (hb : 2 ≤ b) :
    g.and (s.graphLit a) (s.graphLit b) = (s.graphLit (if a = 0 then 0 else b), g) := by
  have hfour := four_le_graphLit (s := s) hb
  have hdiv := Graph.complement_div (s.graphLit b)
  rw [graphLit_const ha]
  split
  next h =>
    subst h
    exact Graph.and_false (by omega) (by omega) (Nat.min_eq_left (by omega))
  next h =>
    rw [Graph.and_true (by omega) (by omega) (by rw [Graph.trueLit]; omega),
      Nat.max_eq_right (by omega)]

theorem and_of_folded (g : Graph) (ha : s.Live a) (h : folded a b = some c) :
    g.and (s.graphLit a) (s.graphLit b) = (s.graphLit c, g) := by
  by_cases hab : a = b
  · rw [folded, if_pos hab] at h
    cases h
    rw [hab, Graph.and_self]
  by_cases hac : a = Graph.complement b
  · rw [folded, if_neg hab, if_pos hac] at h
    cases h
    refine Graph.and_complement (mt (graphLit_inj ha).mp hab) ?_
    rw [hac, graphLit_complement]
  rw [folded, if_neg hab, if_neg hac] at h
  have hconst : a < 2 → 2 ≤ b := fun ha2 => by
    by_contra hb2
    exact (eq_or_eq_complement_of_const ha2 (by omega)).elim hab hac
  -- one operand is a constant and the other is none
  have hc : a < 2 ∧ c = (if a = 0 then 0 else b) ∨
      b < 2 ∧ 2 ≤ a ∧ c = (if b = 0 then 0 else a) := by
    grind
  rcases hc with ⟨ha2, rfl⟩ | ⟨hb2, ha2, rfl⟩
  · exact and_const g ha2 (hconst ha2)
  · rw [Graph.and_comm]
    exact and_const g hb2 ha2

theorem falseLit_lt_min (ha : 2 ≤ a) (hb : 2 ≤ b) :
    Graph.falseLit < min (s.graphLit a) (s.graphLit b) :=
  Nat.lt_min.mpr ⟨four_le_graphLit ha, four_le_graphLit hb⟩

theorem and_of_found {g : Graph} (ha : s.Live a) (h : folded a b = none)
    (hi : g.nodes.findIdx? (· == s.gate a b) = some i) :
    g.and (s.graphLit a) (s.graphLit b) = (2 * i, g) := by
  obtain ⟨hab, hac, ha2, hb2⟩ := ne_of_not_folded h
  refine Graph.and_found (mt (graphLit_inj ha).mp hab) ?_ (falseLit_lt_min ha2 hb2) hi
  rw [← graphLit_complement]
  exact mt (graphLit_inj ha).mp hac

theorem and_of_new {g : Graph} (ha : s.Live a) (h : folded a b = none)
    (hnew : g.nodes.findIdx? (· == s.gate a b) = none) :
    g.and (s.graphLit a) (s.graphLit b) = g.push (s.gate a b) := by
  obtain ⟨hab, hac, ha2, hb2⟩ := ne_of_not_folded h
  refine Graph.and_new (mt (graphLit_inj ha).mp hab) ?_ (falseLit_lt_min ha2 hb2) hnew
  rw [← graphLit_complement]
  exact mt (graphLit_inj ha).mp hac

/-! ### The graph of the kept pairs -/

/-- The graph holds the leaves and behind them the node of each kept pair. -/
structure Shows (s : Hashing) (g : Graph) : Prop where
  nodes : ∃ front : List Node, front.length = s.leaves + 2 ∧
    (∀ n ∈ front, ∀ l r, n ≠ .gate l r) ∧
    g.nodes = (front ++ s.kept.map fun p => s.gate p.left p.right).toArray
  ands : g.ands = s.kept.length

theorem node_var (hs : s.Sound) (hi : i < s.kept.length) :
    s.node s.kept[i].var = i + (s.leaves + 2) := by
  have hlt := (hs.var_mem _ (List.getElem_mem hi)).1
  have hidx := hs.nodup.idxOf_getElem i (by rwa [List.length_map])
  rw [List.getElem_map] at hidx
  rw [node, if_neg (Nat.not_le.mpr hlt), hidx, Nat.add_comm]

/-- The graph has the node of a conjunction exactly where the pairs have its operands. -/
theorem Shows.findIdx? {g : Graph} (hg : s.Shows g) (hs : s.Sound) (a b : Nat) :
    g.nodes.findIdx? (· == s.gate a b) =
      (s.kept.find? (·.joins a b)).map fun p => s.node p.var := by
  obtain ⟨front, hlength, hfront, hnodes⟩ := hg.nodes
  have hnone : front.findIdx? (· == s.gate a b) = none :=
    List.findIdx?_eq_none_iff.mpr fun n hn => beq_false_of_ne (hfront n hn _ _)
  have hsame : ∀ p ∈ s.kept, (s.gate p.left p.right == s.gate a b) = p.joins a b := fun p hp => by
    have := gate_eq_iff (a := a) (b := b) (hs.operands p hp).1 (hs.operands p hp).2
    rw [Bool.eq_iff_iff, beq_iff_eq, this]
    simp [Pair.joins]
  rw [hnodes, List.findIdx?_toArray, List.findIdx?_append, hnone, Option.none_or, List.findIdx?_map,
    hlength]
  cases hfind : s.kept.find? (·.joins a b) with
  | none =>
    rw [List.find?_eq_none] at hfind
    rw [List.findIdx?_eq_none_iff.mpr fun p hp => ?_]
    · rfl
    · exact (hsame p hp).trans (Bool.eq_false_iff.mpr (hfind p hp))
  | some p =>
    obtain ⟨hp, i, hi, rfl, hbefore⟩ := List.find?_eq_some_iff_getElem.mp hfind
    rw [List.findIdx?_eq_some_iff_getElem.mpr ⟨hi, ?_, fun j hj => ?_⟩]
    · exact congrArg some (node_var hs hi).symm
    · exact (hsame _ (List.getElem_mem hi)).trans hp
    · simpa [hsame _ (List.getElem_mem (Nat.lt_trans hj hi))] using hbefore j hj

theorem Shows.size {g : Graph} (hg : s.Shows g) : g.nodes.size = s.leaves + 2 + s.kept.length := by
  obtain ⟨front, hlength, -, hnodes⟩ := hg.nodes
  simp [hnodes, hlength]

theorem Shows.push {g : Graph} (hg : s.Shows g) (hs : s.Sound) (ha : s.Live a) (hb : s.Live b)
    (h : folded a b = none) (hp : p.left = a ∧ p.right = b) (hleaves : s'.leaves = s.leaves)
    (hkept : s'.kept = s.kept ++ [p]) : s'.Shows (g.push (s.gate a b)).2 := by
  have hgrows : s.Grows s' := ⟨hleaves, hkept ▸ List.prefix_append ..⟩
  obtain ⟨front, hlength, hfront, hnodes⟩ := hg.nodes
  have hgates : s.kept.map (fun p => s'.gate p.left p.right) =
      s.kept.map fun p => s.gate p.left p.right :=
    List.map_congr_left fun p hp => hgrows.gate (hs.operands p hp).1 (hs.operands p hp).2
  obtain ⟨-, -, ha2, hb2⟩ := ne_of_not_folded h
  constructor
  · refine ⟨front, hlength.trans (by rw [hleaves]), hfront, ?_⟩
    rw [hkept, List.map_append, hgates, List.map_singleton, hp.1, hp.2, hgrows.gate ha hb,
      ← List.append_assoc, ← List.push_toArray, ← hnodes]
    rfl
  · have hlo : min (s.graphLit a) (s.graphLit b) ≠ Graph.undefinedLit :=
      Nat.ne_of_gt (Nat.lt_trans (by decide) (falseLit_lt_min ha2 hb2))
    rw [gate, Graph.ands_push_gate g _ hlo, hg.ands, hkept, List.length_append]
    rfl

theorem Shows.of_kept_eq {g : Graph} (hg : s.Shows g) (hleaves : s'.leaves = s.leaves)
    (hkept : s'.kept = s.kept) : s'.Shows g := by
  cases s'
  cases hleaves
  cases hkept
  exact ⟨hg.nodes, hg.ands⟩

/-- The next variable's node is the graph's next. -/
theorem node_new (hs : s.Sound) (hp : p.var = s.values.length)
    (hleaves : s'.leaves = s.leaves) (hkept : s'.kept = s.kept ++ [p]) :
    s'.node s.values.length = s.leaves + 2 + s.kept.length := by
  rw [node, hleaves, if_neg (Nat.not_le.mpr hs.leaves_lt), hkept, List.map_append,
    List.map_singleton, hp, List.idxOf_append_of_notMem hs.next_notMem, List.length_map,
    List.idxOf_cons_self]
  rfl

/-- A graph that shows the circuit hashed so far shows it after one more conjunction, and gives the
conjunction's literal. -/
theorem Shows.conjoin {g : Graph} (hg : s.Shows g) (hs : s.Sound) (ha : s.Live a) (hb : s.Live b)
    (hleaves : s'.leaves = s.leaves) (hkept : s'.kept = (s.conjoin a b).2) :
    (g.and (s.graphLit a) (s.graphLit b)).1 = s'.graphLit (s.conjoin a b).1 ∧
      s'.Shows (g.and (s.graphLit a) (s.graphLit b)).2 := by
  have hfound := hg.findIdx? hs a b
  obtain ⟨c, hfold, h⟩ | ⟨hfold, ⟨p, hp, hfind, h⟩ | ⟨hfind, h⟩⟩ := s.conjoin_cases a b
  · rw [h] at hkept ⊢
    rw [and_of_folded g ha hfold]
    exact ⟨(graphLit_of_kept_eq hleaves hkept c).symm, hg.of_kept_eq hleaves hkept⟩
  · rw [h] at hkept ⊢
    rw [hfind] at hfound
    rw [and_of_found ha hfold hfound]
    have hvar : 1 ≤ p.var := by have := (hs.var_mem p hp).1; omega
    refine ⟨?_, hg.of_kept_eq hleaves hkept⟩
    rw [graphLit_of_kept_eq hleaves hkept, graphLit_two_mul hvar]
  · rw [h] at hkept ⊢
    rw [hfind] at hfound
    rw [and_of_new ha hfold hfound]
    refine ⟨?_, hg.push hs ha hb hfold ⟨rfl, rfl⟩ hleaves hkept⟩
    have hvar : 1 ≤ s.values.length := by have := hs.leaves_lt; omega
    rw [graphLit_two_mul hvar, node_new hs rfl hleaves hkept, Graph.push, hg.size]

theorem value_start (hv : v ≤ n) : (start n).values.getD v 0 = 2 * v := by
  simp [start, Nat.lt_succ_of_le hv]

theorem graphLit_start (hv : v ≤ n) :
    (start n).graphLit (2 * v) = if v = 0 then Graph.falseLit else 2 * (v + 1) := by
  split
  next h =>
    subst h
    rfl
  next h =>
    rw [graphLit_two_mul (by omega), node, if_pos (show v ≤ (start n).leaves from hv)]

end Regatta.Aiger.Hashing

namespace Regatta.Aiger

/-! ### The reader's variables -/

theorem Build.lookup_define (b : Build) (v l w : Nat) :
    (b.define v l).lookup w = if v = w then l else b.lookup w := by
  rw [Build.lookup, Build.define, Std.HashMap.getElem?_insert]
  simp only [beq_iff_eq]
  split <;> rfl

theorem Build.addGate_comm (b : Build) (v l r : Nat) : b.addGate v l r = b.addGate v r l := by
  rw [Build.addGate, Build.addGate, Graph.and_comm]

/-- The build with so many more leaves of one kind, for the variables from `v` on. -/
def Build.leaves (node : Node) : Nat → Nat → Build → Build
  | 0, _, b => b
  | k + 1, v, b => leaves node k (v + 1) (b.addNode v node)

/-- The build with these gates, for the variables from `v` on. -/
def Build.gates : List GateLine → Nat → Build → Build
  | [], _, b => b
  | g :: rest, v, b => gates rest (v + 1) (b.addGate v g.left g.right)

/-- The reader has the graph of the circuit hashed so far, and each variable's literal in it. -/
structure Mirrors (s : Hashing) (b : Build) : Prop where
  sound : s.Sound
  shows : s.Shows b.graph
  lookup : ∀ v < s.values.length, b.lookup v = s.graphLit (s.values.getD v 0)

namespace Mirrors

variable {s : Hashing} {b : Build}

variable {l n : Nat} {node : Node}

theorem literal (h : Mirrors s b) (hl : l / 2 < s.values.length) :
    b.literal l = s.graphLit (s.literal l) := by
  rw [Build.literal, Hashing.literal, h.lookup _ hl]
  split
  · rfl
  · rw [Hashing.graphLit_complement]

theorem defined (h : Mirrors s b) (hl : l / 2 < s.values.length) :
    b.defined l = true := by
  have := Hashing.two_le_graphLit (s := s) (s.values.getD (l / 2) 0)
  rw [Build.defined, h.lookup _ hl, bne_iff_ne, Graph.undefinedLit]
  omega

theorem addGate (h : Mirrors s b) (g : GateLine) (hleft : g.left / 2 < s.values.length)
    (hright : g.right / 2 < s.values.length) :
    Mirrors (s.add Hashing.plain g) (b.addGate s.values.length g.left g.right) := by
  have hl := h.sound.literal_live g.left
  have hr := h.sound.literal_live g.right
  have hleaves : (s.add Hashing.plain g).leaves = s.leaves := rfl
  have hkept : (s.add Hashing.plain g).kept =
      (s.conjoin (s.literal g.left) (s.literal g.right)).2 := rfl
  obtain ⟨hlit, hshows⟩ := h.shows.conjoin h.sound hl hr hleaves hkept
  have hgrows : s.Grows (s.add Hashing.plain g) := .of_conjoin hleaves hkept
  rw [← h.literal hleft, ← h.literal hright] at hlit hshows
  refine ⟨h.sound.add Hashing.settles_plain g, hshows, fun v hv => ?_⟩
  rw [Hashing.values_length_add] at hv
  rw [Build.addGate, Build.lookup_define]
  split
  next hnew => rw [hlit, ← Hashing.graphLit_plain, ← hnew, Hashing.value_add_self]
  next hold =>
    have hv : v < s.values.length := by omega
    rw [Hashing.value_add_of_lt _ g hv, hgrows.graphLit (h.sound.value_live v)]
    exact h.lookup v hv

theorem start : Mirrors (.start 0) .start := by
  refine ⟨Hashing.sound_start 0, ⟨⟨[.nothing, .constant], rfl, by simp, rfl⟩, rfl⟩, fun v hv => ?_⟩
  obtain rfl : v = 0 := Nat.lt_one_iff.mp hv
  exact Build.lookup_define ⟨.empty, ∅⟩ 0 Graph.falseLit 0

theorem addLeaf (h : Mirrors (.start n) b)
    (hnode : ∀ l r, node ≠ .gate l r) : Mirrors (.start (n + 1)) (b.addNode (n + 1) node) := by
  obtain ⟨front, hlength, hfront, hnodes⟩ := h.shows.nodes
  have hgraph : (b.addNode (n + 1) node).graph = (b.graph.push node).2 := rfl
  refine ⟨Hashing.sound_start _, ⟨⟨front ++ [node], ?_, ?_, ?_⟩, ?_⟩, fun v hv => ?_⟩
  · rw [List.length_append, hlength]
    rfl
  · intro m hm
    rcases List.mem_append.mp hm with hm | hm
    · exact hfront m hm
    · rwa [List.mem_singleton.mp hm]
  · rw [hgraph, Graph.push, hnodes]
    simp [Hashing.start]
  · rw [hgraph, Graph.ands_push_leaf _ hnode]
    exact h.shows.ands
  · have hv : v ≤ n + 1 := by
      rw [Hashing.values_length_start] at hv
      omega
    rw [Build.addNode, Build.lookup_define, Hashing.value_start hv, Hashing.graphLit_start hv]
    split
    next hnew =>
      have hsize : b.graph.nodes.size = n + 2 := h.shows.size
      rw [Graph.push, hsize, if_neg (by omega), ← hnew]
    next hold =>
      have hvn : v ≤ n := by omega
      have hlookup := h.lookup v (by rw [Hashing.values_length_start]; omega)
      rwa [Hashing.value_start hvn, Hashing.graphLit_start hvn] at hlookup

theorem leaves (hnode : ∀ l r, node ≠ .gate l r) (k : Nat) {b : Build}
    (h : Mirrors (.start n) b) : Mirrors (.start (n + k)) (b.leaves node k (n + 1)) := by
  induction k generalizing n b with
  | zero => exact h
  | succ k ih =>
    have := ih (h.addLeaf hnode)
    rwa [Nat.add_assoc, Nat.add_comm 1 k] at this

theorem gates {gs : List GateLine} (h : Mirrors s b) (hgs : Ascending s.values.length gs) :
    Mirrors (gs.foldl (Hashing.add Hashing.plain) s) (b.gates gs s.values.length) := by
  induction gs generalizing s b with
  | nil => exact h
  | cons g rest ih =>
    obtain ⟨⟨hleft, hright⟩, hrest⟩ := hgs
    have hlength := Hashing.values_length_add Hashing.plain s g
    have hadd := h.addGate g (by omega) (by omega)
    rw [← hlength] at hrest
    have := ih hadd hrest
    rwa [hlength] at this

end Mirrors
end Regatta.Aiger
