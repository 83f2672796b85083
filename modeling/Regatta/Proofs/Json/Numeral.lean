import Mathlib.Algebra.Field.Rat
import Regatta.Json.Parser
import Regatta.Proofs.Text.Point

/-! Numbers in JSON, as they are written and as they are read.

Every number among the members of an object is a `Numeral` (`exists_numeral_of_member`), and the double
that stands for it is the one nearest to its value (`double?_text`). -/
namespace Regatta.Json

open Stats.Summary (StartsWithout span_append)

/-! ### Numerals -/

structure Exponent where
  mark : UInt8
  /-- Whether the sign is a minus, where there is one. -/
  sign : Option Bool
  digits : Text
  isMark : mark = 101 ∨ mark = 69
  isDigit_digits : ∀ b ∈ digits, Text.isDigit b = true

namespace Exponent

def text (x : Exponent) : Text :=
  x.mark :: (x.sign.elim [] (fun negative => [if negative then 45 else 43]) ++ x.digits)

def value (x : Exponent) : Int :=
  if x.sign = some true then -(Text.digitsValue x.digits : Int) else Text.digitsValue x.digits

end Exponent

structure Numeral where
  negative : Bool
  whole : Text
  places : Option Text
  exponent : Option Exponent
  isDigit_whole : ∀ b ∈ whole, Text.isDigit b = true
  isDigit_places : ∀ b ∈ places.getD [], Text.isDigit b = true

namespace Numeral

def text (x : Numeral) : Text :=
  (if x.negative then [45] else []) ++ x.whole ++ x.places.elim [] (46 :: ·) ++
    x.exponent.elim [] Exponent.text

def digits (x : Numeral) : Nat := Text.digitsValue (x.whole ++ x.places.getD [])

def power (x : Numeral) : Int := x.exponent.elim 0 Exponent.value - (x.places.getD []).length

def value (x : Numeral) : ℚ := (if x.negative then -1 else 1) * (x.digits * 10 ^ x.power)

end Numeral

/-! ### Numbers are numerals -/

theorem digits1_spec {t ds rest : Text} (h : digits1 t = some (ds, rest)) :
    ∀ b ∈ ds, Text.isDigit b = true := by
  unfold digits1 at h
  dsimp only at h
  split at h
  · cases h
  · cases h
    exact List.all_eq_true.mp List.all_takeWhile

theorem minus_spec (t : Text) : ∃ negative : Bool, (minus t).1 = if negative then [45] else [] := by
  unfold minus
  split
  · exact ⟨true, rfl⟩
  · exact ⟨false, rfl⟩

theorem wholeDigits_spec {t ds rest : Text} (h : wholeDigits t = some (ds, rest)) :
    ∀ b ∈ ds, Text.isDigit b = true := by
  unfold wholeDigits at h
  split at h
  · cases h
    decide +kernel
  · exact digits1_spec h

theorem fractionDigits_spec {t ds rest : Text} (h : fractionDigits t = some (ds, rest)) :
    ∃ places : Option Text, ds = places.elim [] (46 :: ·) ∧
      ∀ b ∈ places.getD [], Text.isDigit b = true := by
  unfold fractionDigits at h
  split at h
  · obtain ⟨x, hx, heq⟩ := Option.map_eq_some_iff.mp h
    cases heq
    exact ⟨some x.1, rfl, digits1_spec hx⟩
  · cases h
    exact ⟨none, rfl, List.forall_mem_nil _⟩

theorem exponentDigits_spec {t ds rest : Text} (h : exponentDigits t = some (ds, rest)) :
    ∃ exponent : Option Exponent, ds = exponent.elim [] Exponent.text := by
  unfold exponentDigits at h
  split at h
  · cases h
    exact ⟨none, rfl⟩
  · rename_i e r
    split at h
    · rename_i hmark
      have hmark : e = 101 ∨ e = 69 := by simpa using hmark
      split at h
      · rename_i s r'
        split at h
        · rename_i hsign
          obtain ⟨x, hx, heq⟩ := Option.map_eq_some_iff.mp h
          cases heq
          have hsign : s = 43 ∨ s = 45 := by simpa using hsign
          obtain rfl | rfl := hsign
          · exact ⟨some ⟨e, some false, x.1, hmark, digits1_spec hx⟩, rfl⟩
          · exact ⟨some ⟨e, some true, x.1, hmark, digits1_spec hx⟩, rfl⟩
        · obtain ⟨x, hx, heq⟩ := Option.map_eq_some_iff.mp h
          cases heq
          exact ⟨some ⟨e, none, x.1, hmark, digits1_spec hx⟩, rfl⟩
      · cases h
    · cases h
      exact ⟨none, rfl⟩

theorem exists_numeral {t l rest : Text} (h : numeral t = some (l, rest)) : ∃ x : Numeral, l = x.text := by
  obtain ⟨negative, hsign⟩ := minus_spec t
  unfold numeral at h
  generalize minus t = s at h hsign
  obtain ⟨sign, u⟩ := s
  obtain ⟨w, hw, h⟩ := Option.bind_eq_some_iff.mp h
  obtain ⟨f, hf, h⟩ := Option.bind_eq_some_iff.mp h
  obtain ⟨e, he, h⟩ := Option.bind_eq_some_iff.mp h
  obtain ⟨places, hplaces, hdigits⟩ := fractionDigits_spec hf
  obtain ⟨exponent, hexponent⟩ := exponentDigits_spec he
  cases h
  refine ⟨⟨negative, w.1, places, exponent, wholeDigits_spec hw, hdigits⟩, ?_⟩
  rw [show sign = _ from hsign, hplaces, hexponent]
  rfl

/-- Whether a value, if it is a number, is written as one. -/
def IsNumeral (v : Json) : Prop := ∀ l, v = .number l → ∃ x : Numeral, l = x.text

theorem isNumeral_value {fuel : Nat} {t rest : Text} {v : Json} (h : value fuel t = some (v, rest)) :
    IsNumeral v := by
  rintro l rfl
  cases fuel with
  | zero => cases h
  | succ fuel =>
    unfold value at h
    repeat' split at h
    all_goals first
      | cases h
      | obtain ⟨x, hx, heq⟩ := Option.map_eq_some_iff.mp h
        cases heq
    exact exists_numeral hx

section Members
variable {P : Json → Prop} {t rest : Text} {ms : List (Text × Json)}

/-- What holds of every value that is read holds of the members of an object. -/
theorem forall_members (hvalue : ∀ {fuel t v rest}, value fuel t = some (v, rest) → P v) {fuel : Nat}
    {done : List (Text × Json)} (h : members fuel done t = some (ms, rest))
    (hdone : ∀ m ∈ done, P m.2) : ∀ m ∈ ms, P m.2 := by
  induction fuel generalizing done t with
  | zero => cases h
  | succ fuel ih =>
    unfold members at h
    split at h
    · obtain ⟨⟨k, u⟩, hk, h⟩ := Option.bind_eq_some_iff.mp h
      dsimp only at h
      split at h
      · obtain ⟨⟨v, u'⟩, hv, h⟩ := Option.bind_eq_some_iff.mp h
        have hmore : ∀ m ∈ (k, v) :: done, P m.2 := List.forall_mem_cons.mpr ⟨hvalue hv, hdone⟩
        dsimp only at h
        split at h
        · exact ih h hmore
        · cases h
          exact fun m hm => hmore m (List.mem_reverse.mp hm)
        · cases h
      · cases h
    · cases h

theorem forall_of_parseFirst (hvalue : ∀ {fuel t v rest}, value fuel t = some (v, rest) → P v)
    (h : parseFirst t = some (.object ms, rest)) : ∀ m ∈ ms, P m.2 := by
  unfold parseFirst value at h
  repeat' split at h
  all_goals first
    | cases h
    | obtain ⟨x, hx, heq⟩ := Option.map_eq_some_iff.mp h
      cases heq
  · exact List.forall_mem_nil _
  · exact forall_members hvalue hx (List.forall_mem_nil _)

end Members

/-- **Every number among the members of an object is a numeral.** -/
theorem exists_numeral_of_member {t rest k l : Text} {ms : List (Text × Json)}
    (h : parseFirst t = some (.object ms, rest)) (hmem : (k, .number l) ∈ ms) :
    ∃ x : Numeral, l = x.text :=
  forall_of_parseFirst isNumeral_value h _ hmem l rfl

/-! ### The double nearest to a numeral -/

namespace Numeral

variable (x : Numeral)

/-- What stands behind the digits of a number begins with no digit and no point. -/
theorem startsWithout_exponent :
    StartsWithout Text.isDigit (x.exponent.elim [] Exponent.text) ∧
      ∀ b ∈ (x.exponent.elim [] Exponent.text).head?, b ≠ 46 := by
  cases x.exponent with
  | none => exact ⟨fun b hb => absurd hb (by simp), fun b hb => absurd hb (by simp)⟩
  | some e =>
    have hmark : Text.isDigit e.mark = false ∧ e.mark ≠ 46 := by
      obtain h | h := e.isMark <;> rw [h] <;> decide
    constructor
    · intro b hb
      cases hb
      exact hmark.1
    · intro b hb
      cases hb
      exact hmark.2

/-- What the sign leaves of the text. -/
def unsigned : Text := x.whole ++ (x.places.elim [] (46 :: ·) ++ x.exponent.elim [] Exponent.text)

theorem span_unsigned :
    x.unsigned.takeWhile Text.isDigit = x.whole ∧
      Text.point (x.unsigned.dropWhile Text.isDigit) =
        (x.places.getD [], x.exponent.elim [] Exponent.text) := by
  obtain ⟨hdigit, hpoint⟩ := x.startsWithout_exponent
  have hrest : StartsWithout Text.isDigit
      (x.places.elim [] (46 :: ·) ++ x.exponent.elim [] Exponent.text) := by
    cases x.places with
    | none => exact hdigit
    | some ds =>
      intro b hb
      cases hb
      decide
  obtain ⟨htake, hdrop⟩ := span_append x.isDigit_whole hrest
  refine ⟨htake, ?_⟩
  rw [unsigned, hdrop, Text.point_append x.isDigit_places hdigit hpoint]

theorem exponentValue_text (e : Option Exponent) :
    exponentValue (e.elim [] Exponent.text) = e.elim 0 Exponent.value := by
  cases e with
  | none => rfl
  | some e =>
    obtain ⟨mark, sign, digits, hmark, hdigits⟩ := e
    cases sign with
    | some negative => cases negative <;> rfl
    | none =>
      show exponentValue (mark :: digits) = Text.digitsValue digits
      cases digits with
      | nil => rfl
      | cons d ds =>
        have hd := hdigits d (List.mem_cons_self ..)
        have hplus : d ≠ 43 := fun h => absurd (h ▸ hd) (by decide)
        have hminus : d ≠ 45 := fun h => absurd (h ▸ hd) (by decide)
        unfold exponentValue
        split
        · rename_i heq
          exact absurd (List.cons.inj (List.cons.inj heq).2).1 hminus
        · rename_i heq
          exact absurd (List.cons.inj (List.cons.inj heq).2).1 hplus
        · rename_i heq
          cases heq
          rfl
        · rename_i heq
          cases heq

theorem head_unsigned_ne : ∀ b ∈ x.unsigned.head?, b ≠ 45 := by
  obtain ⟨negative, whole, places, exponent, hwhole, hplaces⟩ := x
  cases whole with
  | cons d ds =>
    rintro b hb rfl
    cases hb
    exact absurd (hwhole 45 (List.mem_cons_self ..)) (by decide)
  | nil =>
    cases places with
    | some ds =>
      intro b hb
      cases hb
      decide
    | none =>
      cases exponent with
      | none => exact fun b hb => absurd hb (by simp [unsigned])
      | some e =>
        intro b hb
        cases hb
        obtain h | h := e.isMark <;> rw [h] <;> decide

theorem minus_text : minus x.text = (if x.negative then [45] else [], x.unsigned) := by
  have htext : x.text = (if x.negative then [45] else []) ++ x.unsigned := by
    simp only [text, unsigned, List.append_assoc]
  rw [htext]
  cases x.negative with
  | true => rfl
  | false =>
    have hhead := x.head_unsigned_ne
    show minus x.unsigned = ([], x.unsigned)
    generalize x.unsigned = t at hhead
    unfold minus
    split
    · exact absurd rfl (hhead 45 rfl)
    · rfl

/-- A number is read as the double nearest to what it says. -/
theorem double?_text : double? x.text = (Double.ofDecimal x.negative x.digits x.power).finite? := by
  obtain ⟨hwhole, hpoint⟩ := x.span_unsigned
  have hsign : (!(if x.negative then [45] else ([] : Text)).isEmpty) = x.negative := by
    cases x.negative <;> rfl
  simp only [double?, minus_text, hwhole, hpoint, exponentValue_text, hsign]
  rfl

end Numeral

end Regatta.Json
