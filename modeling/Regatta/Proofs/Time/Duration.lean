import Regatta.Proofs.Text.Point
import Regatta.Time.Duration

/-! Durations as signed words, and the texts that spell them.

`wrap` leaves a number alone exactly when it is a word (`wrap_eq_self_iff`). A duration is written as a
sign and a sequence of `Term`s, numbers with units. Reading takes every such sequence whose sum is a word,
gives exactly the sum, and takes nothing else (`parse_eq_ok_iff`): no step on the way wraps around. -/
namespace Regatta

open Stats.Summary (StartsWithout span_append startsWithout_dropWhile)

/-! ### Words -/

namespace Number

theorem fitsWord_iff {n : Int} : fitsWord n = true ↔ -(wordLimit : Int) ≤ n ∧ n < wordLimit := by
  rw [fitsWord, leastWord, Bool.and_eq_true, decide_eq_true_eq, decide_eq_true_eq]

end Number

namespace Duration

theorem wrap_eq_self_iff {d : Int} : wrap d = d ↔ Number.fitsWord d = true := by
  have hlow : -((Number.wordCount : Int) / 2) = -(Number.wordLimit : Int) := by decide
  have hhigh : ((Number.wordCount : Int) + 1) / 2 = Number.wordLimit := by decide
  rw [Number.fitsWord_iff, wrap, ← hlow, ← hhigh]
  constructor
  · intro h
    rw [← h]
    exact ⟨Int.le_bmod (by decide), Int.bmod_lt (by decide)⟩
  · rintro ⟨hle, hlt⟩
    exact Int.bmod_eq_of_le hle hlt

theorem second_eq : @Eq Int second 1000000000 := rfl

theorem mul_second (n : Int) : n * second = 1000000000 * n := Int.mul_comm n _

/-! ### One number with its unit -/

/-- A number with its unit. Digits may be missing on one side of the point, and so may the point. -/
structure Term where
  digits : Text
  places : Option Text
  unit : Text
  size : Nat
  isDigit_digits : ∀ b ∈ digits, Text.isDigit b = true
  isDigit_places : ∀ b ∈ places.getD [], Text.isDigit b = true
  isNumber : digits ≠ [] ∨ places.getD [] ≠ []
  known : unit? unit = some size

namespace Term

def text (x : Term) : Text := x.digits ++ x.places.elim [] (46 :: ·) ++ x.unit

/-- The part of the unit that stands behind the point. -/
def fraction (x : Term) : Nat :=
  let f := fractionPart (x.places.getD [])
  if f.digits == 0 then 0 else f.nanos x.size

def nanos (x : Term) : Nat := Text.digitsValue x.digits * x.size + x.fraction

end Term

def texts (xs : List Term) : Text := xs.flatMap Term.text

def total : List Term → Nat
  | [] => 0
  | x :: xs => x.nanos + total xs

/-- Every spelling of a unit, with its nanoseconds. -/
def units : List (Text × Nat) :=
  [("ns", 1), ("us", 1000), ("µs", 1000), ("μs", 1000), ("ms", 1000000), ("s", 1000000000),
    ("m", 60000000000), ("h", 3600000000000)]

theorem mem_units {u : Text} {size : Nat} (h : unit? u = some size) : (u, size) ∈ units := by
  simp only [unit?, Bool.or_eq_true, beq_iff_eq] at h
  repeat' split at h
  all_goals simp_all [units]
  grind

theorem unit_spec : ∀ p ∈ units, p.1 ≠ [] ∧ (∀ b ∈ p.1, startsUnit b = true) ∧ 0 < p.2 := by
  decide +kernel

theorem isDigit_eq_false_of_startsUnit {b : UInt8} (h : startsUnit b = true) :
    Text.isDigit b = false := by
  simp only [startsUnit, Bool.not_eq_true', Bool.or_eq_false_iff] at h
  exact h.2

/-! ### Reading a number -/

def inRange (n : Nat) : Option Nat := if n ≤ limit then some n else none

/-- Giving a number up early gives up no number that is in range. -/
theorem wholePart_eq (ds : Text) : wholePart ds = inRange (Text.digitsValue ds) := by
  have hlimit : limit = 9223372036854775808 := by decide
  have hstep (n k : Nat) : (inRange n).bind (fun x =>
      if limit / 10 < x then none else if limit < 10 * x + k then none else some (10 * x + k)) =
      inRange (10 * n + k) := by
    unfold inRange
    by_cases hn : n ≤ limit
    · rw [if_pos hn, Option.bind_some]
      split
      · rw [if_neg (by omega)]
      · split
        · rw [if_neg (by omega)]
        · rw [if_pos (by omega)]
    · rw [if_neg hn, if_neg (by omega), Option.bind_none]
  have hfold : ∀ (ds : Text) (n : Nat), ds.foldl (fun acc d => acc.bind fun x =>
        if limit / 10 < x then none
        else if limit < 10 * x + (d - 48).toNat then none else some (10 * x + (d - 48).toNat))
      (inRange n) = inRange (ds.foldl (fun n d => 10 * n + (d - 48).toNat) n) := by
    intro ds
    induction ds with
    | nil => exact fun n => rfl
    | cons d ds ih =>
      intro n
      rw [List.foldl_cons, List.foldl_cons, hstep]
      exact ih _
  exact hfold ds 0

namespace Term

variable (x : Term) (rest : Text)

theorem unit_spec : x.unit ≠ [] ∧ (∀ b ∈ x.unit, startsUnit b = true) ∧ 0 < x.size :=
  Duration.unit_spec _ (mem_units x.known)

theorem startsWithout_unit (kind : UInt8 → Bool) (h : ∀ b, startsUnit b = true → kind b = false) :
    StartsWithout kind (x.unit ++ rest) := by
  obtain ⟨b, u, hunit⟩ := List.exists_cons_of_ne_nil x.unit_spec.1
  intro c hc
  rw [hunit] at hc
  cases hc
  exact h b (x.unit_spec.2.1 b (hunit ▸ List.mem_cons_self ..))

theorem takeWhile_digits :
    (x.text ++ rest).takeWhile Text.isDigit = x.digits ∧
      (x.text ++ rest).dropWhile Text.isDigit = x.places.elim [] (46 :: ·) ++ (x.unit ++ rest) := by
  rw [text, List.append_assoc, List.append_assoc]
  refine span_append x.isDigit_digits ?_
  cases x.places with
  | none => exact x.startsWithout_unit rest _ fun b => isDigit_eq_false_of_startsUnit
  | some ps =>
    intro c hc
    cases hc
    decide

theorem point_places :
    Text.point (x.places.elim [] (46 :: ·) ++ (x.unit ++ rest)) = (x.places.getD [], x.unit ++ rest) := by
  refine Text.point_append x.isDigit_places
    (x.startsWithout_unit rest _ fun b => isDigit_eq_false_of_startsUnit) fun b hb => ?_
  have := x.startsWithout_unit rest (· == 46) (by simp +contextual [startsUnit]) b hb
  simpa using this

end Term

variable {fuel n sum : Nat} {t : Text} (whole : Text) (xs : List Term)

/-- A term is read as far as its unit goes, and refused when it is beyond the range. -/
theorem term_append (x : Term) {rest : Text} (hrest : StartsWithout startsUnit rest) :
    term whole (x.text ++ rest) =
      if x.nanos ≤ limit then .ok (x.nanos, rest) else .error (.invalid whole) := by
  obtain ⟨hne, hunit, hsize⟩ := x.unit_spec
  obtain ⟨hbefore, hbehind⟩ := x.takeWhile_digits rest
  obtain ⟨htake, hdrop⟩ := span_append hunit hrest
  have hnumber : (x.digits.isEmpty && (x.places.getD []).isEmpty) = false := by
    simpa [Decidable.imp_iff_not_or] using x.isNumber
  have hnanos : x.nanos = Text.digitsValue x.digits * x.size + x.fraction := rfl
  simp only [term, hbefore, hbehind, x.point_places rest, htake, hdrop, wholePart_eq, x.known]
  by_cases hwhole : Text.digitsValue x.digits ≤ limit
  · have hempty : x.unit.isEmpty = false := by simpa using hne
    simp only [inRange, if_pos hwhole, hnumber, hempty, Bool.false_eq_true, if_false]
    by_cases hunits : limit / x.size < Text.digitsValue x.digits
    · rw [if_pos hunits, if_neg]
      have := (Nat.div_lt_iff_lt_mul hsize).mp hunits
      omega
    · rw [if_neg hunits]
      by_cases hlimit : x.nanos ≤ limit
      · rw [if_pos hlimit]
        exact if_neg (Nat.not_lt.mpr hlimit)
      · rw [if_neg hlimit]
        exact if_pos (Nat.not_le.mp hlimit)
  · have hmul := Nat.le_mul_of_pos_right (Text.digitsValue x.digits) hsize
    simp only [inRange, if_neg hwhole]
    rw [if_neg (by omega)]

theorem exists_term {whole rest : Text} (h : term whole t = .ok (n, rest)) :
    ∃ x : Term, t = x.text ++ rest ∧ StartsWithout startsUnit rest ∧ n = x.nanos ∧ n ≤ limit := by
  obtain ⟨places, hbehind, hplaces, hpoint⟩ := Text.point_spec (t.dropWhile Text.isDigit)
  -- What is read has the parts of a term: otherwise every way through ends in a fault.
  have hunit : ∃ size,
      unit? ((Text.point (t.dropWhile Text.isDigit)).2.takeWhile startsUnit) = some size := by
    cases hunit : unit? ((Text.point (t.dropWhile Text.isDigit)).2.takeWhile startsUnit) with
    | some size => exact ⟨size, rfl⟩
    | none =>
      simp only [term, hunit] at h
      repeat' split at h
      all_goals cases h
  have hnumber : t.takeWhile Text.isDigit ≠ [] ∨ places.getD [] ≠ [] := by
    by_cases hnumber : t.takeWhile Text.isDigit = [] ∧ places.getD [] = []
    · simp only [term, hpoint, hnumber.1, hnumber.2, List.isEmpty_nil, Bool.and_self, if_true] at h
      split at h <;> cases h
    · exact Decidable.not_and_iff_not_or_not.mp hnumber
  obtain ⟨size, hsize⟩ := hunit
  let x : Term :=
    { digits := t.takeWhile Text.isDigit, places, unit := _, size
      isDigit_digits := List.all_eq_true.mp List.all_takeWhile, isDigit_places := hplaces
      isNumber := hnumber, known := hsize }
  have htext : t = x.text ++ (Text.point (t.dropWhile Text.isDigit)).2.dropWhile startsUnit := by
    simp only [x, Term.text, List.append_assoc, List.takeWhile_append_dropWhile, ← hbehind]
  have hends := startsWithout_dropWhile startsUnit (Text.point (t.dropWhile Text.isDigit)).2
  rw [htext, term_append whole x hends] at h
  split at h
  · cases h
    exact ⟨x, htext, hends, rfl, ‹_›⟩
  · cases h

/-! ### Reading a sequence of terms -/

theorem Term.exists_cons (x : Term) : ∃ b t, x.text = b :: t ∧ (b = 46 ∨ Text.isDigit b = true) := by
  cases hdigits : x.digits with
  | cons b ds =>
    exact ⟨b, _, by rw [text, hdigits]; rfl, .inr (x.isDigit_digits b (hdigits ▸ List.mem_cons_self ..))⟩
  | nil =>
    cases hplaces : x.places with
    | some ps => exact ⟨46, ps ++ x.unit, by rw [text, hdigits, hplaces]; rfl, .inl rfl⟩
    | none => exact absurd x.isNumber (by simp [hdigits, hplaces])

theorem startsWithout_texts : StartsWithout startsUnit (texts xs) := by
  cases xs with
  | nil => exact fun b hb => absurd hb (by simp [texts])
  | cons x xs =>
    obtain ⟨b, t, hx, hb⟩ := x.exists_cons
    have htexts : texts (x :: xs) = b :: (t ++ texts xs) := by simp [texts, hx]
    intro c hc
    rw [htexts] at hc
    cases hc
    obtain rfl | hb := hb
    · rfl
    · simp [startsUnit, hb]

theorem terms_succ (fuel sum : Nat) (ht : t ≠ []) :
    terms whole (fuel + 1) sum t = (term whole t).bind fun r =>
      if limit < sum + r.1 then .error (.invalid whole) else terms whole fuel (sum + r.1) r.2 := by
  cases t with
  | nil => exact absurd rfl ht
  | cons b t =>
    simp only [terms]
    cases term whole (b :: t) with
    | error e => rfl
    | ok r =>
      by_cases hlimit : limit < sum + r.1 <;>
        simp [hlimit, Except.bind, bind, throw, throwThe, MonadExceptOf.throw]

theorem terms_texts (hfuel : (texts xs).length ≤ fuel)
    (h : sum + total xs ≤ limit) : terms whole fuel sum (texts xs) = .ok (sum + total xs) := by
  induction xs generalizing fuel sum with
  | nil => cases fuel <;> rfl
  | cons x xs ih =>
    obtain ⟨b, t, hx, -⟩ := x.exists_cons
    have htexts : texts (x :: xs) = x.text ++ texts xs := rfl
    have htotal : total (x :: xs) = x.nanos + total xs := rfl
    rw [htexts, List.length_append, hx, List.length_cons] at hfuel
    obtain ⟨fuel, rfl⟩ : ∃ n, fuel = n + 1 := ⟨fuel - 1, by omega⟩
    rw [htexts, terms_succ _ _ _ (by simp [hx]), term_append whole x (startsWithout_texts xs),
      if_pos (by omega)]
    show (if limit < sum + x.nanos then _ else terms whole fuel (sum + x.nanos) (texts xs)) = _
    rw [if_neg (by omega), ih (by omega) (by omega), htotal, Nat.add_assoc]

theorem exists_texts {whole : Text} (h : terms whole fuel sum t = .ok n)
    (hsum : sum ≤ limit) : ∃ xs, t = texts xs ∧ n = sum + total xs ∧ n ≤ limit := by
  induction fuel generalizing sum t with
  | zero =>
    cases t with
    | nil =>
      cases h
      exact ⟨[], rfl, rfl, hsum⟩
    | cons b t => cases h
  | succ fuel ih =>
    by_cases ht : t = []
    · subst ht
      cases h
      exact ⟨[], rfl, rfl, hsum⟩
    · rw [terms_succ _ _ _ ht] at h
      cases hterm : term whole t with
      | error e =>
        rw [hterm] at h
        cases h
      | ok r =>
        rw [hterm] at h
        obtain ⟨x, htext, -, hnanos, -⟩ := exists_term hterm
        by_cases hlimit : limit < sum + r.1
        · rw [Except.bind, if_pos hlimit] at h
          cases h
        · rw [Except.bind, if_neg hlimit] at h
          obtain ⟨xs, hrest, hn, hle⟩ := ih h (Nat.not_lt.mp hlimit)
          refine ⟨x :: xs, ?_, ?_, hle⟩
          · rw [htext, hrest]
            rfl
          · rw [hn, hnanos, Nat.add_assoc]
            rfl

/-- A text is split into terms in one way only, up to what they come to. -/
theorem Term.nanos_unique {x y : Term} {s : Text} (hs : StartsWithout startsUnit s)
    (ht : StartsWithout startsUnit t) (h : x.text ++ s = y.text ++ t) : x.nanos = y.nanos ∧ s = t := by
  obtain ⟨hxbefore, hxbehind⟩ := x.takeWhile_digits s
  obtain ⟨hybefore, hybehind⟩ := y.takeWhile_digits t
  have hdigits : x.digits = y.digits := by rw [← hxbefore, ← hybefore, h]
  have hpoint := x.point_places s
  rw [← hxbehind, h, hybehind, y.point_places t, Prod.mk.injEq] at hpoint
  obtain ⟨hplaces, hbehind⟩ := hpoint
  obtain ⟨hxtake, hxdrop⟩ := span_append x.unit_spec.2.1 hs
  obtain ⟨hytake, hydrop⟩ := span_append y.unit_spec.2.1 ht
  have hunit : x.unit = y.unit := by rw [← hxtake, ← hytake, hbehind]
  have hsize : x.size = y.size := by
    have hknown := x.known
    rw [hunit, y.known] at hknown
    exact (Option.some.inj hknown).symm
  refine ⟨?_, by rw [← hxdrop, ← hydrop, hbehind]⟩
  rw [nanos, nanos, fraction, fraction, hdigits, hsize, hplaces]

theorem total_unique {xs ys : List Term} (h : texts xs = texts ys) : total xs = total ys := by
  induction xs generalizing ys with
  | nil =>
    cases ys with
    | nil => rfl
    | cons y ys =>
      obtain ⟨b, t, hy, -⟩ := y.exists_cons
      simp [texts, hy] at h
  | cons x xs ih =>
    cases ys with
    | nil =>
      obtain ⟨b, t, hx, -⟩ := x.exists_cons
      simp [texts, hx] at h
    | cons y ys =>
      obtain ⟨hnanos, hrest⟩ :=
        Term.nanos_unique (startsWithout_texts xs) (startsWithout_texts ys) h
      show x.nanos + total xs = y.nanos + total ys
      rw [hnanos, ih hrest]

end Duration

/-! ### Signs -/

namespace Text

/-- Whether a minus sign comes first, and the text without its sign. -/
def unsigned : Text → Bool × Text
  | 45 :: r => (true, r)
  | 43 :: r => (false, r)
  | r => (false, r)

/-- A text with a sign in front of it, or none, and the number that gives. -/
def Signed (Body : Text → Nat → Prop) (t : Text) (n : Int) : Prop :=
  ∃ body m, Body body m ∧ ((t = body ∨ t = 43 :: body) ∧ n = m ∨ t = 45 :: body ∧ n = -(m : Int))

/-- Where no body starts with a sign, there is one way to take the sign off. -/
theorem signed_iff {Body : Text → Nat → Prop}
    (hBody : ∀ body m, Body body m → ∀ b ∈ body.head?, b ≠ 43 ∧ b ≠ 45) {t : Text} {n : Int} :
    Signed Body t n ↔ ∃ m, Body t.unsigned.2 m ∧ n = if t.unsigned.1 then -(m : Int) else m := by
  constructor
  · rintro ⟨body, m, hbody, ⟨rfl | rfl, rfl⟩ | ⟨rfl, rfl⟩⟩
    · have hsign : unsigned t = (false, t) := by
        have := hBody t m hbody
        unfold unsigned
        split
        · exact absurd rfl (this 45 rfl).2
        · exact absurd rfl (this 43 rfl).1
        · rfl
      rw [hsign]
      exact ⟨m, hbody, rfl⟩
    · exact ⟨m, hbody, rfl⟩
    · exact ⟨m, hbody, rfl⟩
  · rintro ⟨m, hbody, hn⟩
    refine ⟨_, m, hbody, ?_⟩
    revert hn
    unfold unsigned
    split
    · exact fun hn => .inr ⟨rfl, hn⟩
    · exact fun hn => .inl ⟨.inr rfl, hn⟩
    · exact fun hn => .inl ⟨.inl rfl, hn⟩

end Text

namespace Duration

/-- A text of terms with a sign, and the nanoseconds they come to. -/
def Spells : Text → Int → Prop := Text.Signed fun body m => ∃ xs, xs ≠ [] ∧ body = texts xs ∧ m = total xs

def SpellsZero : Text → Int → Prop := Text.Signed fun body m => body = "0" ∧ m = 0

theorem exists_unit_mem {xs : List Term} (h : xs ≠ []) : ∃ b ∈ texts xs, startsUnit b = true := by
  obtain ⟨x, xs, rfl⟩ := List.exists_cons_of_ne_nil h
  obtain ⟨b, u, hunit⟩ := List.exists_cons_of_ne_nil x.unit_spec.1
  have hb : b ∈ x.unit := hunit ▸ List.mem_cons_self ..
  exact ⟨b, List.mem_append_left _ (List.mem_append_right _ hb), x.unit_spec.2.1 b hb⟩

variable {d : Int} {t : Text}

theorem spells_iff : Spells t d ↔
    ∃ xs, xs ≠ [] ∧ t.unsigned.2 = texts xs ∧ d = if t.unsigned.1 then -(total xs : Int) else total xs := by
  have hBody : ∀ body m, (∃ xs, xs ≠ [] ∧ body = texts xs ∧ m = total xs) →
      ∀ b ∈ body.head?, b ≠ 43 ∧ b ≠ 45 := by
    rintro body m ⟨xs, -, rfl, -⟩ b hb
    have hnot := startsWithout_texts xs b hb
    exact ⟨fun h => absurd (h ▸ hnot) (by decide), fun h => absurd (h ▸ hnot) (by decide)⟩
  rw [Spells, Text.signed_iff hBody]
  constructor
  · rintro ⟨m, ⟨xs, hne, hbody, rfl⟩, hd⟩
    exact ⟨xs, hne, hbody, hd⟩
  · rintro ⟨xs, hne, hbody, hd⟩
    exact ⟨total xs, ⟨xs, hne, hbody, rfl⟩, hd⟩

theorem Spells.unique {e : Int} (hd : Spells t d) (he : Spells t e) : d = e := by
  obtain ⟨xs, -, hxs, rfl⟩ := spells_iff.mp hd
  obtain ⟨ys, -, hys, rfl⟩ := spells_iff.mp he
  rw [total_unique (hxs.symm.trans hys)]

theorem spellsZero_iff : SpellsZero t d ↔ t.unsigned.2 = "0" ∧ d = 0 := by
  rw [SpellsZero, Text.signed_iff]
  · constructor
    · rintro ⟨m, ⟨hbody, rfl⟩, hd⟩
      exact ⟨hbody, by simpa using hd⟩
    · rintro ⟨hbody, rfl⟩
      exact ⟨0, ⟨hbody, rfl⟩, by simp⟩
  · rintro body m ⟨rfl, -⟩ b hb
    cases hb
    decide

theorem parse_eq (t : Text) : parse t =
    if t.unsigned.2 = "0" then .ok 0
    else if t.unsigned.2 = [] then .error (.invalid t)
    else (terms t t.unsigned.2.length 0 t.unsigned.2).bind fun n =>
      if t.unsigned.1 then .ok (-(n : Int))
      else if limit ≤ n then .error (.invalid t) else .ok n := by
  have hparse : parse t = do
      if t.unsigned.2 == "0" then return 0
      if t.unsigned.2.isEmpty then throw (.invalid t)
      let n ← terms t t.unsigned.2.length 0 t.unsigned.2
      if t.unsigned.1 then return -(n : Int)
      if limit ≤ n then throw (.invalid t)
      return n := rfl
  rw [hparse]
  by_cases hzero : t.unsigned.2 = "0"
  · rw [if_pos hzero, if_pos (beq_iff_eq.mpr hzero)]
    rfl
  · rw [if_neg hzero, if_neg (by simpa using hzero)]
    by_cases hempty : t.unsigned.2 = []
    · rw [if_pos hempty, hempty]
      rfl
    · rw [if_neg hempty, if_neg (by simpa using hempty)]
      cases terms t t.unsigned.2.length 0 t.unsigned.2 with
      | error e => rfl
      | ok n => cases t.unsigned.1 <;> rfl

/-- Reading a duration gives exactly what is written, and refuses what is no word. -/
theorem parse_eq_ok_iff {d : Duration} :
    parse t = .ok d ↔ (SpellsZero t d ∨ Spells t d) ∧ Number.fitsWord d = true := by
  have hlimit : limit = Number.wordLimit := rfl
  have hpos : 0 < limit := by decide
  rw [parse_eq, spellsZero_iff, spells_iff, Number.fitsWord_iff]
  generalize t.unsigned.1 = negative, t.unsigned.2 = body
  constructor
  · intro h
    split at h
    · rename_i hzero
      cases h
      exact ⟨.inl ⟨hzero, rfl⟩, by decide⟩
    · split at h
      · cases h
      · rename_i hempty
        cases hterms : terms t body.length 0 body with
        | error e =>
          rw [hterms] at h
          cases h
        | ok n =>
          rw [hterms] at h
          obtain ⟨xs, hbody, hn, hle⟩ := exists_texts hterms (Nat.zero_le _)
          have hne : xs ≠ [] := by
            rintro rfl
            exact hempty hbody
          rw [Nat.zero_add] at hn
          subst hn
          cases negative with
          | true =>
            cases h
            exact ⟨.inr ⟨xs, hne, hbody, rfl⟩, by omega, by omega⟩
          | false =>
            by_cases hword : limit ≤ total xs
            · rw [Except.bind, if_neg Bool.false_ne_true, if_pos hword] at h
              cases h
            · rw [Except.bind, if_neg Bool.false_ne_true, if_neg hword] at h
              cases h
              exact ⟨.inr ⟨xs, hne, hbody, rfl⟩, by omega, by omega⟩
  · rintro ⟨⟨rfl, rfl⟩ | ⟨xs, hne, rfl, rfl⟩, hlow, hhigh⟩
    · rw [if_pos rfl]
    · obtain ⟨b, hb, hunit⟩ := exists_unit_mem hne
      have hzero : texts xs ≠ Text.ofString "0" := by
        intro h
        rw [h] at hb
        cases List.mem_singleton.mp hb
        cases hunit
      rw [if_neg hzero, if_neg (List.ne_nil_of_mem hb)]
      have htotal : 0 + total xs ≤ limit := by
        cases negative <;> simp only [Bool.false_eq_true, if_true, if_false] at hlow hhigh <;> omega
      rw [terms_texts t xs (Nat.le_refl _) htotal, Except.bind, Nat.zero_add]
      cases negative with
      | true => rfl
      | false =>
        rw [if_neg Bool.false_ne_true, if_neg Bool.false_ne_true, if_neg]
        simp only [Bool.false_eq_true, if_false] at hhigh
        omega

end Duration
end Regatta
