import Regatta.Proofs.Text.Padded

/-! Text in bytewise order.

The order is linear. Where two texts differ in a byte that both have, nothing behind that byte matters
(`Below`), so that texts made of parts are compared part by part, and numbers of the same width are
ordered by value (`below_padded`). Fractions without their trailing zeros are ordered by value too, as
long as what follows them sorts before a digit (`Below.trimmed`). -/
namespace Regatta.Text

variable {s t u : Text}

theorem le_cons {a b : UInt8} :
    le (a :: s) (b :: t) = true ↔ a.toNat < b.toNat ∨ a = b ∧ le s t = true := by
  simp only [le, beq_iff_eq]
  by_cases hab : a = b
  · simp [hab]
  · simp [hab, UInt8.lt_iff_toNat_lt]

theorem le_trans (hst : le s t = true) (htu : le t u = true) : le s u = true := by
  induction s generalizing t u with
  | nil => rfl
  | cons a s ih =>
    cases t with
    | nil => cases hst
    | cons b t =>
      cases u with
      | nil => cases htu
      | cons c u =>
        rw [le_cons] at hst htu ⊢
        rcases hst with hab | ⟨rfl, hst⟩
        · refine .inl ?_
          rcases htu with hbc | ⟨rfl, -⟩
          · exact Nat.lt_trans hab hbc
          · exact hab
        · exact htu.imp_right fun ⟨hac, htu⟩ => ⟨hac, ih hst htu⟩

theorem le_antisymm (hst : le s t = true) (hts : le t s = true) : s = t := by
  induction s generalizing t with
  | nil =>
    cases t with
    | nil => rfl
    | cons b t => cases hts
  | cons a s ih =>
    cases t with
    | nil => cases hst
    | cons b t =>
      rw [le_cons] at hst hts
      rcases hst with hab | ⟨rfl, hst⟩
      · rcases hts with hba | ⟨rfl, -⟩ <;> omega
      · rw [ih hst (hts.resolve_left (Nat.lt_irrefl _)).2]

theorem le_total (s t : Text) : le s t = true ∨ le t s = true := by
  induction s generalizing t with
  | nil => exact .inl rfl
  | cons a s ih =>
    cases t with
    | nil => exact .inr rfl
    | cons b t =>
      rw [le_cons, le_cons]
      rcases Nat.lt_trichotomy a.toNat b.toNat with hab | hab | hba
      · exact .inl (.inl hab)
      · have hab := UInt8.toNat_inj.mp hab
        exact (ih t).imp (fun hst => .inr ⟨hab, hst⟩) fun hts => .inr ⟨hab.symm, hts⟩
      · exact .inr (.inl hba)

/-! ### Parts -/

/-- The first byte in which the texts differ is smaller in the first one. -/
inductive Below : Text → Text → Prop
  | here {x y : UInt8} {s t : Text} (h : x < y) : Below (x :: s) (y :: t)
  | there {b : UInt8} {s t : Text} (h : Below s t) : Below (b :: s) (b :: t)

namespace Below

variable {s t : Text}

theorem le (h : Below s t) : le s t = true := by
  induction h with
  | @here x y s t h =>
    have hne : x ≠ y := by
      rintro rfl
      exact absurd h (UInt8.lt_irrefl x)
    rw [Text.le, if_neg (by simpa using hne), decide_eq_true_eq]
    exact h
  | there _ ih => rw [Text.le, if_pos (beq_self_eq_true _), ih]

theorem append (h : Below s t) (u v : Text) : Below (s ++ u) (t ++ v) := by
  induction h with
  | here h => exact .here h
  | there _ ih => exact .there ih

theorem prepend (p : Text) (h : Below s t) : Below (p ++ s) (p ++ t) := by
  induction p with
  | nil => exact h
  | cons b p ih => exact .there ih

end Below

/-! ### Numbers -/

variable {b : UInt8} {ds es : Text}

theorem isDigit_iff : isDigit b = true ↔ 48 ≤ b.toNat ∧ b.toNat ≤ 57 := by
  simp [isDigit, UInt8.le_iff_toNat_le]

theorem toNat_digit (h : isDigit b = true) : (b - 48).toNat = b.toNat - 48 :=
  UInt8.toNat_sub_of_le b 48 (UInt8.le_iff_toNat_le.mpr (isDigit_iff.mp h).1)

theorem tenTo_succ (n : Nat) : Number.tenTo (n + 1) = 10 * Number.tenTo n := Nat.pow_succ'

theorem digitsValue_cons (d : UInt8) (ds : Text) :
    digitsValue (d :: ds) = (d - 48).toNat * Number.tenTo ds.length + digitsValue ds := by
  have hfold : ∀ (ds : Text) (init : Nat), ds.foldl (fun n d => 10 * n + (d - 48).toNat) init =
      init * Number.tenTo ds.length + digitsValue ds := by
    intro ds
    induction ds with
    | nil => intro init; simp [digitsValue, Number.tenTo]
    | cons d ds ih =>
      intro init
      have hvalue : digitsValue (d :: ds) = ds.foldl (fun n d => 10 * n + (d - 48).toNat)
          (10 * 0 + (d - 48).toNat) := rfl
      rw [hvalue, ih, List.foldl_cons, ih, List.length_cons, tenTo_succ]
      rw [Nat.mul_zero, Nat.zero_add, Nat.add_mul, Nat.mul_left_comm init, Nat.mul_assoc,
        Nat.add_assoc]
  exact (hfold ds _).trans (by simp)

theorem digitsValue_lt (h : ∀ b ∈ ds, isDigit b = true) :
    digitsValue ds < Number.tenTo ds.length := by
  induction ds with
  | nil => decide
  | cons d ds ih =>
    have hd := isDigit_iff.mp (h d (List.mem_cons_self ..))
    have hrest := ih fun b hb => h b (List.mem_cons_of_mem _ hb)
    have hdigit : (d - 48).toNat ≤ 9 := by
      rw [toNat_digit (h d (List.mem_cons_self ..))]
      omega
    have hmul := Nat.mul_le_mul_right (Number.tenTo ds.length) hdigit
    rw [digitsValue_cons, List.length_cons, tenTo_succ]
    omega

/-- Of two numbers with as many digits the smaller one comes first. -/
theorem below_of_digitsValue_lt (hlength : ds.length = es.length)
    (hds : ∀ b ∈ ds, isDigit b = true) (hes : ∀ b ∈ es, isDigit b = true)
    (h : digitsValue ds < digitsValue es) : Below ds es := by
  induction ds generalizing es with
  | nil =>
    cases es with
    | nil => exact absurd h (Nat.lt_irrefl _)
    | cons e es => cases hlength
  | cons d ds ih =>
    cases es with
    | nil => cases hlength
    | cons e es =>
      have hlength' : ds.length = es.length := Nat.succ.inj hlength
      have hd := hds d (List.mem_cons_self ..)
      have he := hes e (List.mem_cons_self ..)
      rw [digitsValue_cons, digitsValue_cons, hlength', toNat_digit hd, toNat_digit he] at h
      rcases Nat.lt_trichotomy d.toNat e.toNat with hlt | heq | hgt
      · exact .here (UInt8.lt_iff_toNat_lt.mpr hlt)
      · cases UInt8.toNat_inj.mp heq
        exact .there (ih hlength' (fun b hb => hds b (List.mem_cons_of_mem _ hb))
          (fun b hb => hes b (List.mem_cons_of_mem _ hb)) (Nat.lt_of_add_lt_add_left h))
      · -- a larger leading digit outweighs all the digits behind it
        have hbound := digitsValue_lt fun b hb => hes b (List.mem_cons_of_mem _ hb)
        have hd' := isDigit_iff.mp hd
        have he' := isDigit_iff.mp he
        have hmul := Nat.mul_le_mul_right (Number.tenTo es.length)
          (show e.toNat - 48 + 1 ≤ d.toNat - 48 by omega)
        rw [Nat.add_mul, Nat.one_mul] at hmul
        omega

theorem below_padded {w m n : Nat} (hw : 0 < w) (hn : n < Number.tenTo w) (h : m < n) :
    Below (padded w m) (padded w n) := by
  refine below_of_digitsValue_lt ?_ (fun _ => isDigit_of_mem_padded)
    (fun _ => isDigit_of_mem_padded) ?_
  · rw [length_padded hw hn, length_padded hw (Nat.lt_trans h hn)]
  · rw [digitsValue_padded, digitsValue_padded]
    exact h

theorem not_below_zeros (hds : ∀ b ∈ ds, isDigit b = true) (l : Nat) :
    ¬ Below ds (List.replicate l 48) := by
  intro h
  generalize hz : List.replicate l (48 : UInt8) = zeros at h
  induction h generalizing l with
  | @here x y s t hlt =>
    cases l with
    | zero => cases hz
    | succ l =>
      cases hz
      have hx := (isDigit_iff.mp (hds x (List.mem_cons_self ..))).1
      have hlt' : x.toNat < 48 := UInt8.lt_iff_toNat_lt.mp hlt
      omega
  | @there b s t _ ih =>
    cases l with
    | zero => cases hz
    | succ l =>
      cases hz
      exact ih (fun b hb => hds b (List.mem_cons_of_mem _ hb)) l rfl

/-- Digits may lose the zeros at their end when something follows that sorts before a digit. -/
theorem Below.trimmed {k l : Nat} (hds : ∀ b ∈ ds, isDigit b = true)
    (hes : ∀ b ∈ es, isDigit b = true) (hb : b.toNat < 48) (rest : Text)
    (h : Below (ds ++ List.replicate k 48) (es ++ List.replicate l 48)) :
    Below (ds ++ b :: rest) (es ++ b :: rest) := by
  have hzeros : ∀ ds : Text, (∀ b ∈ ds, isDigit b = true) →
      ∀ b ∈ ds ++ List.replicate k 48, isDigit b = true := by
    intro ds hds b hb
    rcases List.mem_append.mp hb with hb | hb
    · exact hds b hb
    · rw [List.eq_of_mem_replicate hb]
      decide
  induction ds generalizing es with
  | nil =>
    cases es with
    | nil => exact absurd h (not_below_zeros (hzeros [] hds) l)
    | cons e es =>
      have he := (isDigit_iff.mp (hes e (List.mem_cons_self ..))).1
      exact .here (UInt8.lt_iff_toNat_lt.mpr (by omega))
  | cons d ds ih =>
    cases es with
    | nil => exact absurd h (not_below_zeros (hzeros _ hds) l)
    | cons e es =>
      cases h with
      | here hlt => exact .here hlt
      | there h =>
        exact .there (ih (fun b hb => hds b (List.mem_cons_of_mem _ hb))
          (fun b hb => hes b (List.mem_cons_of_mem _ hb)) h)

end Regatta.Text
