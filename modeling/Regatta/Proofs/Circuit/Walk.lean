import Regatta.Proofs.Circuit.Mirror

/-! The walk over the gates of the ASCII form, when they stand in order.

Gates may come in any order in that form, so the reader notes them in a table and then defines each
after its operands. Where every gate follows its operands, the walk defines them one by one as they
stand (`visitAll_ordered`). The constant is no variable that is noted as defined, so a gate with a
constant operand ends the walk (`visitAll_constant`). -/
namespace Regatta.Aiger

def GateLine.hasConstant (g : GateLine) : Bool := decide (g.left < 2) || decide (g.right < 2)

def noted : Nat → List GateLine → Std.HashMap Nat GateLine → Std.HashMap Nat GateLine
  | _, [], t => t
  | v, g :: rest, t => noted (v + 1) rest (t.insert v g)

def Notes (t : Std.HashMap Nat GateLine) : Nat → List GateLine → Prop
  | _, [] => True
  | v, g :: rest => t[v]? = some g ∧ Notes t (v + 1) rest

theorem getElem?_noted {gs : List GateLine} {v w : Nat} {t : Std.HashMap Nat GateLine} (h : w < v) :
    (noted v gs t)[w]? = t[w]? := by
  induction gs generalizing v t with
  | nil => rfl
  | cons g rest ih =>
    rw [noted, ih (Nat.lt_succ_of_lt h), Std.HashMap.getElem?_insert]
    simp [Nat.ne_of_gt h]

theorem notes_noted (gs : List GateLine) (v : Nat) (t : Std.HashMap Nat GateLine) :
    Notes (noted v gs t) v gs := by
  induction gs generalizing v t with
  | nil => trivial
  | cons g rest ih =>
    refine ⟨?_, ih _ _⟩
    rw [noted, getElem?_noted (Nat.lt_succ_self v), Std.HashMap.getElem?_insert_self]

/-! ### The variables that are defined at the start -/

theorem mem_foldl_insert {ks : List Nat} {s : Std.HashMap Nat Unit} {u : Nat} :
    u ∈ ks.foldl (fun s v => s.insert v ()) s ↔ u ∈ s ∨ u ∈ ks := by
  induction ks generalizing s with
  | nil => simp
  | cons k ks ih =>
    rw [List.foldl_cons, ih, Std.HashMap.mem_insert, List.mem_cons, beq_iff_eq, eq_comm]
    constructor
    · rintro ((h | h) | h)
      · exact .inr (.inl h)
      · exact .inl h
      · exact .inr (.inr h)
    · rintro (h | h | h)
      · exact .inl (.inr h)
      · exact .inl (.inl h)
      · exact .inr h

theorem mem_fold_erase (m : Std.HashMap Nat Nat) (u : Nat) :
    u ∈ (m.erase 0).fold (fun s v _ => s.insert v ()) (∅ : Std.HashMap Nat Unit) ↔
      u ≠ 0 ∧ u ∈ m := by
  rw [Std.HashMap.fold_eq_foldl_keys, mem_foldl_insert, Std.HashMap.mem_keys,
    Std.HashMap.mem_erase, beq_eq_false_iff_ne, ne_comm]
  exact or_iff_right Std.HashMap.not_mem_empty

theorem Build.mem_leaves {node : Node} {n : Nat} (k : Nat) {b : Build}
    (hb : ∀ u, u ∈ b.meaning ↔ u ≤ n) (u : Nat) :
    u ∈ (b.leaves node k (n + 1)).meaning ↔ u ≤ n + k := by
  induction k generalizing n b with
  | zero => exact hb u
  | succ k ih =>
    have hadd : ∀ u, u ∈ (b.addNode (n + 1) node).meaning ↔ u ≤ n + 1 := by
      intro u
      show u ∈ b.meaning.insert (n + 1) _ ↔ _
      rw [Std.HashMap.mem_insert, hb, beq_iff_eq]
      omega
    rw [Build.leaves, ih hadd]
    omega

theorem Build.mem_start (u : Nat) : u ∈ Build.start.meaning ↔ u ≤ 0 := by
  show u ∈ (∅ : Std.HashMap Nat Nat).insert 0 _ ↔ _
  rw [Std.HashMap.mem_insert, beq_iff_eq, Nat.le_zero, eq_comm]
  exact or_iff_left Std.HashMap.not_mem_empty

/-! ### The walk -/

/-- The walk has come to the variable `v`: exactly the variables before it are done, the constant
apart, and no other is being defined. -/
structure Walk.Before (w : Walk) (v : Nat) : Prop where
  done : ∀ u, u ∈ w.done ↔ u ≠ 0 ∧ u < v
  active : ∀ u ∈ w.active, u ≠ 0 ∧ u < v

def Walk.entered (w : Walk) (v : Nat) : Walk := { w with active := w.active.insert v () }

variable {t : Std.HashMap Nat GateLine} {w : Walk} {v : Nat}

theorem Walk.Before.notMem_done (hw : w.Before v) : v ∉ w.done := fun h =>
  Nat.lt_irrefl v ((hw.done v).mp h).2

theorem Walk.Before.notMem_active (hw : w.Before v) : v ∉ w.active := fun h =>
  Nat.lt_irrefl v (hw.active v h).2

theorem visit_done (fuel : Nat) (hv : v ∈ w.done) : visit t (fuel + 1) w v = .ok w := by
  rw [visit, if_pos (Std.HashMap.contains_iff_mem.mpr hv)]

theorem visit_undefined (fuel : Nat) (hdone : v ∉ w.done) (hactive : v ∉ w.active)
    (hv : t[v]? = none) : visit t (fuel + 1) w v = .error .undefinedLiteral := by
  rw [visit, if_neg (mt Std.HashMap.contains_iff_mem.mp hdone),
    if_neg (mt Std.HashMap.contains_iff_mem.mp hactive), hv]

theorem visit_gate (fuel : Nat) (hdone : v ∉ w.done) (hactive : v ∉ w.active) {g : GateLine}
    (hv : t[v]? = some g) : visit t (fuel + 1) w v = (do
      let w ← visit t fuel (w.entered v) (g.left / 2)
      let w ← visit t fuel w (g.right / 2)
      return { w with build := w.build.addGate v g.left g.right, done := w.done.insert v () }) := by
  rw [visit, if_neg (mt Std.HashMap.contains_iff_mem.mp hdone),
    if_neg (mt Std.HashMap.contains_iff_mem.mp hactive), hv]
  rfl

theorem visit_constant {l fuel : Nat} (hl : l < 2) (hdone : 0 ∉ w.done) (hactive : 0 ∉ w.active)
    (hzero : t[0]? = none) : visit t (fuel + 1) w (l / 2) = .error .undefinedLiteral := by
  rw [Nat.div_eq_of_lt hl]
  exact visit_undefined fuel hdone hactive hzero

section Gate

variable {fuel : Nat} (hw : w.Before v) (hzero : t[0]? = none) {g : GateLine} (hv : t[v]? = some g)
  (hleft : g.left < 2 * v) (hright : g.right < 2 * v)
include hw hv hleft hright

/-- A gate that follows its operands is defined from them. -/
theorem visit_ordered (hg : g.hasConstant = false) : ∃ w', visit t (fuel + 2) w v = .ok w' ∧
    w'.Before (v + 1) ∧ w'.build = w.build.addGate v g.left g.right := by
  rw [GateLine.hasConstant, Bool.or_eq_false_iff, decide_eq_false_iff_not,
    decide_eq_false_iff_not] at hg
  have hleftDone : g.left / 2 ∈ (w.entered v).done := (hw.done _).mpr (by omega)
  have hrightDone : g.right / 2 ∈ (w.entered v).done := (hw.done _).mpr (by omega)
  refine ⟨⟨w.build.addGate v g.left g.right, w.active.insert v (), w.done.insert v ()⟩, ?_,
    ⟨fun u => ?_, fun u hu => ?_⟩, rfl⟩
  · rw [visit_gate _ hw.notMem_done hw.notMem_active hv, visit_done _ hleftDone]
    simp only [bind, Except.bind]
    rw [visit_done _ hrightDone]
    rfl
  · rw [Std.HashMap.mem_insert, hw.done, beq_iff_eq]
    omega
  · rw [Std.HashMap.mem_insert, beq_iff_eq] at hu
    rcases hu with rfl | hu
    · omega
    · have := hw.active u hu
      omega

include hzero in
theorem visit_ordered_constant (hg : g.hasConstant = true) :
    visit t (fuel + 2) w v = .error .undefinedLiteral := by
  rw [GateLine.hasConstant, Bool.or_eq_true, decide_eq_true_eq, decide_eq_true_eq] at hg
  have hzeroDone : 0 ∉ (w.entered v).done := fun h => ((hw.done 0).mp h).1 rfl
  have hzeroActive : 0 ∉ (w.entered v).active := by
    rw [Walk.entered, Std.HashMap.mem_insert, beq_iff_eq]
    rintro (h | h)
    · omega
    · exact (hw.active 0 h).1 rfl
  rw [visit_gate _ hw.notMem_done hw.notMem_active hv]
  rcases Nat.lt_or_ge g.left 2 with hl | hl
  · rw [visit_constant hl hzeroDone hzeroActive hzero]
    rfl
  · have hleftDone : g.left / 2 ∈ (w.entered v).done := (hw.done _).mpr (by omega)
    rw [visit_done _ hleftDone]
    simp only [bind, Except.bind]
    rw [visit_constant (by omega) hzeroDone hzeroActive hzero]

end Gate

section Gates

variable (fuel : Nat) {gs : List GateLine} (hw : w.Before v) (hnotes : Notes t v gs)
  (hgs : Ascending v gs)
include hw hnotes hgs

theorem visitAll_ordered (hconstant : gs.any GateLine.hasConstant = false) :
    ∃ w', visitAll t (fuel + 2) (List.range' v gs.length) w = .ok w' ∧
      w'.build = w.build.gates gs v := by
  induction gs generalizing v w with
  | nil => exact ⟨w, rfl, rfl⟩
  | cons g rest ih =>
    obtain ⟨hv, hnotes⟩ := hnotes
    obtain ⟨⟨hleft, hright⟩, hgs⟩ := hgs
    rw [List.any_cons, Bool.or_eq_false_iff] at hconstant
    obtain ⟨w', hvisit, hw', hbuild⟩ := visit_ordered hw hv hleft hright hconstant.1
    rw [List.length_cons, List.range'_succ, visitAll, hvisit, Build.gates, ← hbuild]
    exact ih hw' hnotes hgs hconstant.2

/-- The first gate with a constant operand ends the walk. -/
theorem visitAll_constant (hzero : t[0]? = none) (hconstant : gs.any GateLine.hasConstant = true) :
    visitAll t (fuel + 2) (List.range' v gs.length) w = .error .undefinedLiteral := by
  induction gs generalizing v w with
  | nil => cases hconstant
  | cons g rest ih =>
    obtain ⟨hv, hnotes⟩ := hnotes
    obtain ⟨⟨hleft, hright⟩, hgs⟩ := hgs
    rw [List.length_cons, List.range'_succ, visitAll]
    cases hg : g.hasConstant with
    | true =>
      rw [visit_ordered_constant hw hzero hv hleft hright hg]
      rfl
    | false =>
      obtain ⟨w', hvisit, hw', -⟩ := visit_ordered hw hv hleft hright hg
      rw [hvisit]
      rw [List.any_cons, hg, Bool.false_or] at hconstant
      exact ih hw' hnotes hgs hconstant

end Gates
end Regatta.Aiger
