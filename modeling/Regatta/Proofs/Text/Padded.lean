import Regatta.Number
import Regatta.Text.Basic

/-! Decimal numbers of a fixed width: what is written is what is read. -/
namespace Regatta.Text

theorem isDigit_byte {c : Char} (h : c.isDigit = true) :
    isDigit (byte c) = true ∧ (byte c - 48).toNat = c.toNat - '0'.toNat := by
  have hrange : 48 ≤ c.toNat ∧ c.toNat ≤ 57 := by
    simpa [Char.isDigit, UInt32.le_iff_toNat_le] using h
  unfold byte
  generalize c.toNat = n at hrange
  have hcases : n = 48 ∨ n = 49 ∨ n = 50 ∨ n = 51 ∨ n = 52 ∨ n = 53 ∨ n = 54 ∨ n = 55 ∨ n = 56 ∨
      n = 57 := by omega
  rcases hcases with rfl | rfl | rfl | rfl | rfl | rfl | rfl | rfl | rfl | rfl <;> decide

variable {b : UInt8} {n w : Nat} (ds : Text) (k : Nat)

theorem isDigit_of_mem_ofNat (h : b ∈ ofNat n) : isDigit b = true := by
  obtain ⟨c, hc, rfl⟩ := List.mem_map.mp h
  exact (isDigit_byte (Nat.isDigit_of_mem_toDigits (by decide) (by decide) hc)).1

theorem digitsValue_append (es : Text) :
    digitsValue (ds ++ es) = es.foldl (fun n d => 10 * n + (d - 48).toNat) (digitsValue ds) :=
  List.foldl_append

theorem digitsValue_ofNat (n : Nat) : digitsValue (ofNat n) = n := by
  have hfold : ∀ (cs : List Char) (init : Nat), (∀ c ∈ cs, c.isDigit = true) →
      (cs.map byte).foldl (fun n d => 10 * n + (d - 48).toNat) init =
        Nat.ofDigitChars 10 cs init := by
    intro cs
    induction cs with
    | nil => exact fun _ _ => rfl
    | cons c rest ih =>
      intro init hall
      have hc := (isDigit_byte (hall c (List.mem_cons_self ..))).2
      have hrest := ih (10 * init + (c.toNat - '0'.toNat))
        fun x hx => hall x (List.mem_cons_of_mem _ hx)
      rw [List.map_cons, List.foldl_cons, hc, hrest]
      rfl
  unfold digitsValue ofNat
  rw [hfold _ _ fun c hc => Nat.isDigit_of_mem_toDigits (by decide) (by decide) hc]
  exact Nat.ofDigitChars_toDigits (by decide) (by decide)

theorem digitsValue_zeros (ds : Text) :
    digitsValue (List.replicate k (byte '0') ++ ds) = digitsValue ds := by
  induction k with
  | zero => rfl
  | succ k ih => exact ih

theorem digitsValue_zeros_behind :
    digitsValue (ds ++ List.replicate k 48) = digitsValue ds * Number.tenTo k := by
  induction k with
  | zero => simp [Number.tenTo]
  | succ k ih =>
    rw [List.replicate_succ', ← List.append_assoc, digitsValue_append, ih]
    show 10 * (digitsValue ds * Nat.pow 10 k) + 0 = digitsValue ds * (Nat.pow 10 k * 10)
    rw [Nat.add_zero, Nat.mul_left_comm, Nat.mul_comm 10]

theorem digitsValue_padded (w n : Nat) : digitsValue (padded w n) = n := by
  unfold padded
  rw [digitsValue_zeros, digitsValue_ofNat]

theorem isDigit_of_mem_padded (h : b ∈ padded w n) : isDigit b = true := by
  rcases List.mem_append.mp h with h | h
  · rw [List.eq_of_mem_replicate h]
    decide
  · exact isDigit_of_mem_ofNat h

theorem length_padded (hw : 0 < w) (h : n < Number.tenTo w) :
    (padded w n).length = w := by
  have hlength : (ofNat n).length ≤ w := by
    unfold ofNat
    rw [List.length_map]
    exact (Nat.length_toDigits_le_iff (by decide) hw).mpr h
  unfold padded
  rw [List.length_append, List.length_replicate]
  omega

end Regatta.Text
