import Mathlib.Data.List.Induction
import Mathlib.Data.List.Nodup
import Regatta.Circuit.Aiger

/-! Structural hashing, in the literals of the file.

A literal is twice a variable, plus one for the complement; zero is false and one is true. Gates are
taken in order: a conjunction that is known to be a constant or one of its operands is folded, and
one whose two operands were joined before is the earlier gate. `Hashing.run` says which operand
pairs are kept, one for each gate that is left.

What a gate's variable then stands for is a parameter. With the literal itself (`id`) every variable
keeps its value (`value_run`). The reader keeps only the literal's variable (`plain`), which is the
same where nothing comes down to a complemented literal (`run_plain`). -/
namespace Regatta.Graph

theorem complement_eq (l : Nat) : complement l = if l % 2 = 0 then l + 1 else l - 1 := by
  simp [complement]

theorem complement_div (l : Nat) : complement l / 2 = l / 2 := by
  rw [complement_eq]
  split <;> omega

theorem complement_complement (l : Nat) : complement (complement l) = l := by
  simp only [complement_eq]
  split <;> split <;> omega

end Regatta.Graph

namespace Regatta.Aiger

/-- Two operands that were joined, with the variable of the first gate to do so. -/
structure Pair where
  var : Nat
  left : Nat
  right : Nat
deriving DecidableEq, Repr

/-- These are the pair's operands, in one order or the other. -/
def Pair.joins (p : Pair) (a b : Nat) : Bool :=
  p.left == a && p.right == b || p.left == b && p.right == a

/-- The literal that a conjunction is known to be without a gate. -/
def folded (a b : Nat) : Option Nat :=
  if a = b then some a
  else if a = Graph.complement b then some 0
  else if a = 0 ∨ b = 0 then some 0
  else if a = 1 then some b
  else if b = 1 then some a
  else none

/-- The circuit hashed so far: for each variable from zero on the literal that it stands for, and
the pairs kept, in order. -/
structure Hashing where
  leaves : Nat
  values : List Nat
  kept : List Pair
deriving DecidableEq, Repr

namespace Hashing

/-- Inputs and latches stand for themselves. -/
def start (leaves : Nat) : Hashing := ⟨leaves, (List.range (leaves + 1)).map (2 * ·), []⟩

def literal (s : Hashing) (l : Nat) : Nat :=
  let m := s.values.getD (l / 2) 0
  if l % 2 == 0 then m else Graph.complement m

/-- The literal of a conjunction, and the pairs kept with it. -/
def conjoin (s : Hashing) (a b : Nat) : Nat × List Pair :=
  match folded a b with
  | some c => (c, s.kept)
  | none =>
    match s.kept.find? (·.joins a b) with
    | some p => (2 * p.var, s.kept)
    | none => (2 * s.values.length, s.kept ++ [⟨s.values.length, a, b⟩])

/-- One more gate. Its variable stands for what `settle` makes of the conjunction's literal. -/
def add (settle : Nat → Nat) (s : Hashing) (g : GateLine) : Hashing :=
  let c := s.conjoin (s.literal g.left) (s.literal g.right)
  { s with values := s.values ++ [settle c.1], kept := c.2 }

def run (settle : Nat → Nat) (leaves : Nat) (gates : List GateLine) : Hashing :=
  gates.foldl (add settle) (start leaves)

/-- The constant true or an uncomplemented literal: what the reader makes a gate's variable stand
for. -/
def plain (l : Nat) : Nat := if l < 2 then 1 else l - l % 2

end Hashing

/-- Each gate's operands come before it, and the first gate has the variable `v`. -/
def Ascending : Nat → List GateLine → Prop
  | _, [] => True
  | v, g :: rest => (g.left < 2 * v ∧ g.right < 2 * v) ∧ Ascending (v + 1) rest

namespace Hashing

variable {s s' : Hashing} {a b v : Nat}

@[simp] theorem values_length_start (n : Nat) : (start n).values.length = n + 1 := by
  rw [start, List.length_map, List.length_range]

variable (settle : Nat → Nat)

@[simp] theorem values_length_add (s : Hashing) (g : GateLine) :
    (s.add settle g).values.length = s.values.length + 1 := by
  rw [add, List.length_append, List.length_singleton]

/-- What the variables before it stand for is not changed by one more gate. -/
theorem value_add_of_lt (g : GateLine) (hv : v < s.values.length) :
    (s.add settle g).values.getD v 0 = s.values.getD v 0 := by
  rw [add, List.getD_eq_getElem?_getD, List.getElem?_append_left hv, ← List.getD_eq_getElem?_getD]

theorem value_add_self (s : Hashing) (g : GateLine) :
    (s.add settle g).values.getD s.values.length 0 =
      settle (s.conjoin (s.literal g.left) (s.literal g.right)).1 := by
  rw [add, List.getD_eq_getElem?_getD, List.getElem?_concat_length, Option.getD_some]

/-! ### One conjunction -/

/-- What a conjunction can come to: it folds, or its operands were joined before, or they are now. -/
theorem conjoin_cases (s : Hashing) (a b : Nat) :
    (∃ c, folded a b = some c ∧ s.conjoin a b = (c, s.kept)) ∨
      folded a b = none ∧ ((∃ p ∈ s.kept, s.kept.find? (·.joins a b) = some p ∧
          s.conjoin a b = (2 * p.var, s.kept)) ∨
        s.kept.find? (·.joins a b) = none ∧ s.conjoin a b =
          (2 * s.values.length, s.kept ++ [⟨s.values.length, a, b⟩])) := by
  cases hfold : folded a b with
  | some c => exact .inl ⟨c, rfl, by rw [Hashing.conjoin, hfold]⟩
  | none =>
    refine .inr ⟨rfl, ?_⟩
    cases hfind : s.kept.find? (·.joins a b) with
    | some p =>
      refine .inl ⟨p, List.mem_of_find?_eq_some hfind, rfl, ?_⟩
      rw [Hashing.conjoin, hfold]
      simp only [hfind]
    | none =>
      refine .inr ⟨rfl, ?_⟩
      rw [Hashing.conjoin, hfold]
      simp only [hfind]

theorem conjoin_kept (s : Hashing) (a b : Nat) : (s.conjoin a b).2 = s.kept ∨
    (s.conjoin a b).2 = s.kept ++ [⟨s.values.length, a, b⟩] := by
  obtain ⟨c, -, h⟩ | ⟨-, ⟨p, -, -, h⟩ | ⟨-, h⟩⟩ := s.conjoin_cases a b
  · exact .inl (by rw [h])
  · exact .inl (by rw [h])
  · exact .inr (by rw [h])

theorem eq_or_eq_complement_of_const (ha : a < 2) (hb : b < 2) :
    a = b ∨ a = Graph.complement b := by
  rw [Graph.complement_eq]
  split <;> omega

/-- One that does not fold has no constant among its operands. -/
theorem ne_of_not_folded (h : folded a b = none) :
    a ≠ b ∧ a ≠ Graph.complement b ∧ 2 ≤ a ∧ 2 ≤ b := by
  rw [folded] at h
  grind

/-! ### Live literals -/

/-- The literal is a constant's, a leaf's or a kept pair's. -/
def Live (s : Hashing) (l : Nat) : Prop := l / 2 ≤ s.leaves ∨ l / 2 ∈ s.kept.map Pair.var

/-- Every variable stands for a live literal, and the kept pairs, each under a variable of its own,
join live literals. -/
structure Sound (s : Hashing) : Prop where
  leaves_lt : s.leaves < s.values.length
  live : ∀ l ∈ s.values, s.Live l
  var_mem : ∀ p ∈ s.kept, s.leaves < p.var ∧ p.var < s.values.length
  operands : ∀ p ∈ s.kept, s.Live p.left ∧ s.Live p.right
  nodup : (s.kept.map Pair.var).Nodup

theorem Live.complement (h : s.Live a) : s.Live (Graph.complement a) := by
  rwa [Live, Graph.complement_div]

theorem Sound.next_notMem (hs : s.Sound) : s.values.length ∉ s.kept.map Pair.var := by
  intro h
  obtain ⟨p, hp, hvar⟩ := List.mem_map.mp h
  exact Nat.ne_of_lt (hs.var_mem p hp).2 hvar

/-- One more pair may have been kept. -/
def Grows (s s' : Hashing) : Prop := s'.leaves = s.leaves ∧ s.kept <+: s'.kept

theorem Grows.live (h : s.Grows s') (ha : s.Live a) : s'.Live a := by
  obtain ⟨hleaves, more, hmore⟩ := h
  rw [Live, hleaves, ← hmore, List.map_append, List.mem_append]
  exact ha.imp_right .inl

theorem Grows.of_conjoin (hleaves : s'.leaves = s.leaves) (hkept : s'.kept = (s.conjoin a b).2) :
    s.Grows s' := by
  refine ⟨hleaves, hkept ▸ ?_⟩
  rcases s.conjoin_kept a b with h | h
  · exact h.symm ▸ List.prefix_rfl
  · exact h.symm ▸ List.prefix_append ..

/-- What a variable stands for is a constant or a literal of the variable that was found. -/
def Settles (settle : Nat → Nat) : Prop := ∀ l, settle l / 2 = 0 ∨ settle l / 2 = l / 2

theorem Settles.live {settle : Nat → Nat} (h : Settles settle) (ha : s.Live a) :
    s.Live (settle a) := by
  rw [Live]
  rcases h a with h | h
  · exact .inl (h ▸ Nat.zero_le _)
  · rwa [h]

theorem settles_plain : Settles plain := by
  intro l
  rw [plain]
  split <;> omega

theorem Sound.value_live (hs : s.Sound) (v : Nat) : s.Live (s.values.getD v 0) := by
  rcases Nat.lt_or_ge v s.values.length with h | h
  · rw [← List.getElem_eq_getD (h := h)]
    exact hs.live _ (List.getElem_mem h)
  · rw [List.getD_eq_getElem?_getD, List.getElem?_eq_none h]
    exact .inl (Nat.zero_le _)

theorem Sound.literal_live (hs : s.Sound) (l : Nat) : s.Live (s.literal l) := by
  rw [literal]
  split
  · exact hs.value_live _
  · exact (hs.value_live _).complement

theorem folded_live (ha : s.Live a) (hb : s.Live b) {c : Nat} (h : folded a b = some c) :
    s.Live c := by
  have hc : c = a ∨ c = b ∨ c = 0 := by
    rw [folded] at h
    grind
  rcases hc with rfl | rfl | rfl
  · exact ha
  · exact hb
  · exact .inl (Nat.zero_le _)

theorem conjoin_live (ha : s.Live a) (hb : s.Live b) (hleaves : s'.leaves = s.leaves)
    (hkept : s'.kept = (s.conjoin a b).2) : s'.Live (s.conjoin a b).1 := by
  have hgrows : s.Grows s' := .of_conjoin hleaves hkept
  obtain ⟨c, hfold, h⟩ | ⟨-, ⟨p, hp, -, h⟩ | ⟨-, h⟩⟩ := s.conjoin_cases a b
  · rw [h]
    exact hgrows.live (folded_live ha hb hfold)
  · rw [h]
    refine hgrows.live (.inr ?_)
    rw [Nat.mul_div_cancel_left _ (by decide)]
    exact List.mem_map_of_mem hp
  · rw [h] at hkept ⊢
    refine .inr ?_
    rw [hkept, Nat.mul_div_cancel_left _ (by decide)]
    simp

theorem Sound.conjoin (hs : s.Sound) (ha : s.Live a) (hb : s.Live b) {settle : Nat → Nat}
    (hsettle : Settles settle) (hleaves : s'.leaves = s.leaves)
    (hkept : s'.kept = (s.conjoin a b).2)
    (hvalues : s'.values = s.values ++ [settle (s.conjoin a b).1]) : s'.Sound := by
  have hgrows : s.Grows s' := .of_conjoin hleaves hkept
  have hlength : s'.values.length = s.values.length + 1 := by rw [hvalues]; simp
  have hmem : ∀ p ∈ s'.kept, p ∈ s.kept ∨ p = ⟨s.values.length, a, b⟩ := by
    intro p hp
    rw [hkept] at hp
    rcases s.conjoin_kept a b with h | h
    · exact .inl (h ▸ hp)
    · rw [h, List.mem_append, List.mem_singleton] at hp
      exact hp
  constructor
  case leaves_lt =>
    have := hs.leaves_lt
    omega
  case live =>
    intro l hl
    rw [hvalues, List.mem_append, List.mem_singleton] at hl
    rcases hl with hl | rfl
    · exact hgrows.live (hs.live l hl)
    · exact hsettle.live (conjoin_live ha hb hleaves hkept)
  case var_mem =>
    intro p hp
    rw [hleaves, hlength]
    rcases hmem p hp with hp | rfl
    · have := hs.var_mem p hp
      omega
    · have := hs.leaves_lt
      exact ⟨this, Nat.lt_succ_self _⟩
  case operands =>
    intro p hp
    rcases hmem p hp with hp | rfl
    · exact ⟨hgrows.live (hs.operands p hp).1, hgrows.live (hs.operands p hp).2⟩
    · exact ⟨hgrows.live ha, hgrows.live hb⟩
  case nodup =>
    rcases s.conjoin_kept a b with h | h
    · rw [hkept, h]
      exact hs.nodup
    · rw [hkept, h, List.map_append, List.map_singleton]
      exact List.nodup_append.mpr ⟨hs.nodup, List.nodup_singleton _, by
        rintro v hv w hw rfl
        cases List.mem_singleton.mp hw
        exact hs.next_notMem hv⟩

theorem Sound.add (hs : s.Sound) {settle : Nat → Nat} (hsettle : Settles settle) (g : GateLine) :
    (s.add settle g).Sound :=
  hs.conjoin (hs.literal_live _) (hs.literal_live _) hsettle rfl rfl rfl

theorem sound_start (n : Nat) : (start n).Sound := by
  constructor
  case leaves_lt => exact (values_length_start n).symm ▸ Nat.lt_succ_self n
  case live =>
    intro l hl
    obtain ⟨v, hv, rfl⟩ := List.mem_map.mp hl
    rw [List.mem_range] at hv
    exact .inl (by rw [Nat.mul_div_cancel_left _ (by decide)]; exact Nat.le_of_lt_succ hv)
  case nodup => exact List.nodup_nil
  case var_mem => exact fun _ h => absurd h List.not_mem_nil
  case operands => exact fun _ h => absurd h List.not_mem_nil

/-! ### Every gate in turn -/

theorem values_length_foldl (gs : List GateLine) (s : Hashing) :
    (gs.foldl (Hashing.add settle) s).values.length = s.values.length + gs.length := by
  induction gs generalizing s with
  | nil => rfl
  | cons g gs ih =>
    rw [List.foldl_cons, ih, values_length_add, List.length_cons]
    omega

theorem kept_length_foldl (gs : List GateLine) (s : Hashing) :
    (gs.foldl (Hashing.add settle) s).kept.length ≤ s.kept.length + gs.length := by
  induction gs generalizing s with
  | nil => exact Nat.le_refl _
  | cons g gs ih =>
    have hone : (s.add settle g).kept.length ≤ s.kept.length + 1 := by
      rcases s.conjoin_kept (s.literal g.left) (s.literal g.right) with h | h
      · rw [Hashing.add, h]
        exact Nat.le_succ _
      · rw [Hashing.add, h, List.length_append]
        exact Nat.le_refl _
    have := ih (s.add settle g)
    rw [List.foldl_cons, List.length_cons]
    omega

/-- Where no gate comes down to false or to a complemented literal, the sign that the reader drops
is not there. -/
theorem run_plain {n : Nat} {gs : List GateLine}
    (h : ∀ l ∈ (run id n gs).values.drop (n + 1), plain l = l) : run plain n gs = run id n gs := by
  induction gs using List.reverseRecOn with
  | nil => rfl
  | append_singleton gs g ih =>
    have hlength : n + 1 ≤ (run id n gs).values.length := by
      rw [run, values_length_foldl, values_length_start]
      exact Nat.le_add_right ..
    have hrun : ∀ settle, run settle n (gs ++ [g]) = (run settle n gs).add settle g := fun settle =>
      List.foldl_concat ..
    rw [hrun id, Hashing.add, List.drop_append_of_le_length hlength] at h
    have hgs := ih fun l hl => h l (List.mem_append_left _ hl)
    have hg := h _ (List.mem_append_right _ (List.mem_singleton_self _))
    rw [hrun, hrun, hgs, Hashing.add, Hashing.add]
    exact congrArg (fun l => (⟨_, _ ++ [l], _⟩ : Hashing)) hg

end Hashing

/-! ### Values -/

/-- The value of a literal, when the variables have these. -/
def literalValue (ρ : Nat → Bool) (l : Nat) : Bool := ρ (l / 2) ^^ (l % 2 == 1)

/-- The gates, from the variable `v` on, are the conjunctions of their operands. -/
def Satisfies (ρ : Nat → Bool) : Nat → List GateLine → Prop
  | _, [] => True
  | v, g :: rest =>
    ρ v = (literalValue ρ g.left && literalValue ρ g.right) ∧ Satisfies ρ (v + 1) rest

theorem literalValue_two_mul (ρ : Nat → Bool) (v : Nat) : literalValue ρ (2 * v) = ρ v := by
  simp [literalValue]

theorem literalValue_complement (ρ : Nat → Bool) (l : Nat) :
    literalValue ρ (Graph.complement l) = !literalValue ρ l := by
  rw [literalValue, literalValue, Graph.complement_div, Graph.complement_eq]
  rcases Nat.mod_two_eq_zero_or_one l with h | h
  · rw [if_pos h, h, show (l + 1) % 2 = 1 by omega]
    simp
  · rw [if_neg (by omega), h, show (l - 1) % 2 = 0 by omega]
    simp

theorem folded_value {ρ : Nat → Bool} (hzero : ρ 0 = false) {a b c : Nat}
    (h : folded a b = some c) : literalValue ρ c = (literalValue ρ a && literalValue ρ b) := by
  have hfalse : literalValue ρ 0 = false := by simp [literalValue, hzero]
  have htrue : literalValue ρ 1 = true := by simp [literalValue, hzero]
  have hcomplement := literalValue_complement ρ b
  rw [folded] at h
  grind

namespace Hashing

variable {ρ : Nat → Bool}

/-- Every variable has the value of the literal that it stands for, and the variable of every kept
pair that of their conjunction. -/
structure Faithful (ρ : Nat → Bool) (s : Hashing) : Prop where
  value : ∀ v < s.values.length, literalValue ρ (s.values.getD v 0) = ρ v
  kept : ∀ p ∈ s.kept, ρ p.var = (literalValue ρ p.left && literalValue ρ p.right)

theorem Faithful.literal (h : Faithful ρ s) {l : Nat} (hl : l / 2 < s.values.length) :
    literalValue ρ (s.literal l) = literalValue ρ l := by
  have hvalue := h.value _ hl
  have hself : literalValue ρ l = (ρ (l / 2) ^^ (l % 2 == 1)) := rfl
  rw [Hashing.literal, hself]
  rcases Nat.mod_two_eq_zero_or_one l with hmod | hmod
  · simpa [hmod] using hvalue
  · simpa [hmod, literalValue_complement] using hvalue

theorem Faithful.conjoin (h : Faithful ρ s) (hzero : ρ 0 = false)
    (hnew : ρ s.values.length = (literalValue ρ a && literalValue ρ b)) :
    literalValue ρ (s.conjoin a b).1 = (literalValue ρ a && literalValue ρ b) ∧
      ∀ p ∈ (s.conjoin a b).2, ρ p.var = (literalValue ρ p.left && literalValue ρ p.right) := by
  obtain ⟨c, hfold, hc⟩ | ⟨-, ⟨p, hp, hfind, hc⟩ | ⟨-, hc⟩⟩ := s.conjoin_cases a b
  · rw [hc]
    exact ⟨folded_value hzero hfold, h.kept⟩
  · rw [hc]
    refine ⟨?_, h.kept⟩
    have hjoins := List.find?_some hfind
    simp only [Pair.joins, Bool.or_eq_true, Bool.and_eq_true, beq_iff_eq] at hjoins
    rw [literalValue_two_mul, h.kept p hp]
    rcases hjoins with ⟨rfl, rfl⟩ | ⟨rfl, rfl⟩
    · rfl
    · exact Bool.and_comm ..
  · rw [hc]
    refine ⟨(literalValue_two_mul ρ _).trans hnew, fun p hp => ?_⟩
    rcases List.mem_append.mp hp with hp | hp
    · exact h.kept p hp
    · cases List.mem_singleton.mp hp
      exact hnew

theorem Faithful.add (h : Faithful ρ s) (hzero : ρ 0 = false) {g : GateLine}
    (hleft : g.left / 2 < s.values.length) (hright : g.right / 2 < s.values.length)
    (hg : ρ s.values.length = (literalValue ρ g.left && literalValue ρ g.right)) :
    Faithful ρ (s.add id g) := by
  rw [← h.literal hleft, ← h.literal hright] at hg
  obtain ⟨hvalue, hkept⟩ := h.conjoin hzero hg
  refine ⟨fun v hv => ?_, hkept⟩
  rw [values_length_add] at hv
  rcases Nat.lt_succ_iff_lt_or_eq.mp hv with hold | rfl
  · rw [value_add_of_lt id g hold]
    exact h.value v hold
  · rw [value_add_self, id, hvalue, hg]

theorem Faithful.foldl (hzero : ρ 0 = false) {gs : List GateLine} {s : Hashing}
    (h : Faithful ρ s) (hgs : Ascending s.values.length gs)
    (hρ : Satisfies ρ s.values.length gs) : Faithful ρ (gs.foldl (Hashing.add id) s) := by
  induction gs generalizing s with
  | nil => exact h
  | cons g gs ih =>
    obtain ⟨⟨hleft, hright⟩, hgs⟩ := hgs
    obtain ⟨hg, hρ⟩ := hρ
    refine ih (h.add hzero (by omega) (by omega) hg) ?_ ?_
    · rwa [values_length_add]
    · rwa [values_length_add]

/-- Hashing keeps the value of every variable. -/
theorem value_run (hzero : ρ 0 = false) {n : Nat} {gs : List GateLine}
    (hgs : Ascending (n + 1) gs) (hρ : Satisfies ρ (n + 1) gs) : Faithful ρ (run id n gs) := by
  refine Faithful.foldl hzero ⟨fun v hv => ?_, fun p hp => absurd hp List.not_mem_nil⟩
    (by rwa [values_length_start]) (by rwa [values_length_start])
  rw [values_length_start] at hv
  rw [start, List.getD_eq_getElem?_getD, List.getElem?_map, List.getElem?_range hv]
  exact literalValue_two_mul ρ v

end Hashing
end Regatta.Aiger
