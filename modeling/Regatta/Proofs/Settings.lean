import Regatta.Proofs.Time.Duration
import Regatta.Settings

/-! Time budgets in the environment.

`Asks` says which time a text asks for, with no bound on it: a whole number of seconds, or a sequence of
numbers with units. A budget is accepted when that is a positive duration, and is then exactly the time
asked for. One kind of text escapes: a number of seconds that is a word itself, but whose nanoseconds are
not (`Overflows`), is taken for what is left of it in 64 bits. Settings follow the environment, or keep
their default, wherever no text of this kind is set (`load_budgets`). -/
namespace Regatta

/-! ### Integers -/

namespace Text

/-- A text of digits with a sign, and the integer it writes. -/
def Writes : Text → Int → Prop :=
  Signed fun ds m => ds ≠ [] ∧ (∀ b ∈ ds, isDigit b = true) ∧ m = digitsValue ds

theorem writes_iff {t : Text} {n : Int} : t.Writes n ↔
    t.unsigned.2 ≠ [] ∧ (∀ b ∈ t.unsigned.2, isDigit b = true) ∧
      n = if t.unsigned.1 then -(digitsValue t.unsigned.2 : Int) else digitsValue t.unsigned.2 := by
  rw [Writes, signed_iff]
  · constructor
    · rintro ⟨m, ⟨hne, hdigits, rfl⟩, hn⟩
      exact ⟨hne, hdigits, hn⟩
    · rintro ⟨hne, hdigits, hn⟩
      exact ⟨_, ⟨hne, hdigits, rfl⟩, hn⟩
  · rintro ds m ⟨-, hdigits, -⟩ b hb
    have hb := hdigits b (List.mem_of_mem_head? hb)
    exact ⟨fun h => absurd (h ▸ hb) (by decide), fun h => absurd (h ▸ hb) (by decide)⟩

theorem Writes.unique {t : Text} {n m : Int} (hn : t.Writes n) (hm : t.Writes m) : n = m := by
  rw [(writes_iff.mp hn).2.2, (writes_iff.mp hm).2.2]

theorem toInt?_eq_some_iff {t : Text} {n : Int} :
    t.toInt? = some n ↔ t.Writes n ∧ Number.fitsWord n = true := by
  have htoInt : t.toInt? =
      if t.unsigned.2.isEmpty || !t.unsigned.2.all isDigit then none
      else if Number.fitsWord
          (if t.unsigned.1 then -(digitsValue t.unsigned.2 : Int) else digitsValue t.unsigned.2) then
        some (if t.unsigned.1 then -(digitsValue t.unsigned.2 : Int) else digitsValue t.unsigned.2)
      else none := rfl
  rw [htoInt, writes_iff]
  generalize (if t.unsigned.1 then -(digitsValue t.unsigned.2 : Int) else _) = v
  by_cases hdigits : t.unsigned.2 ≠ [] ∧ ∀ b ∈ t.unsigned.2, isDigit b = true
  · rw [if_neg (by simpa using hdigits)]
    by_cases hword : Number.fitsWord v = true
    · rw [if_pos hword, Option.some_inj]
      exact ⟨fun h => ⟨⟨hdigits.1, hdigits.2, h.symm⟩, h ▸ hword⟩, fun h => h.1.2.2.symm⟩
    · rw [if_neg hword]
      exact ⟨fun h => (by cases h), fun h => absurd (h.1.2.2 ▸ h.2) hword⟩
  · rw [if_pos (by simpa [Decidable.imp_iff_not_or] using hdigits)]
    exact ⟨fun h => (by cases h), fun h => absurd ⟨h.1.1, h.1.2.1⟩ hdigits⟩

end Text

/-! ### Budgets -/

namespace Settings

/-- The time that a text asks for, in nanoseconds: a number of seconds, or numbers with units. -/
def Asks (t : Text) (d : Int) : Prop :=
  (∃ n, t.Writes n ∧ d = n * Duration.second) ∨ Duration.Spells t d

/-- The text writes a number of seconds that is a word, though its nanoseconds are not. -/
def Overflows (t : Text) : Prop :=
  ∃ n, t.Writes n ∧ n < Number.wordLimit ∧ Number.wordLimit ≤ n * Duration.second

def IsBudget (d : Int) : Prop := 0 < d ∧ d < Number.wordLimit

instance (d : Int) : Decidable (IsBudget d) :=
  inferInstanceAs (Decidable (0 < d ∧ d < Number.wordLimit))

variable {d n : Int} {t : Text}

theorem IsBudget.fitsWord (h : IsBudget d) : Number.fitsWord d = true :=
  Number.fitsWord_iff.mpr ⟨Int.le_trans (by decide) (Int.le_of_lt h.1), h.2⟩

theorem not_spells_of_writes (h : t.Writes n) : ¬ Duration.Spells t d := by
  intro hspells
  obtain ⟨xs, hne, hbody, -⟩ := Duration.spells_iff.mp hspells
  obtain ⟨b, hb, hunit⟩ := Duration.exists_unit_mem hne
  have hdigit := (Text.writes_iff.mp h).2.1 b (hbody ▸ hb)
  rw [Duration.isDigit_eq_false_of_startsUnit hunit] at hdigit
  cases hdigit

theorem Asks.unique {e : Int} (hd : Asks t d) (he : Asks t e) : d = e := by
  obtain ⟨n, hn, rfl⟩ | hd := hd <;> obtain ⟨m, hm, rfl⟩ | he := he
  · rw [hn.unique hm]
  · exact absurd he (not_spells_of_writes hn)
  · exact absurd hd (not_spells_of_writes hm)
  · exact hd.unique he

theorem parse_ne_ok_of_writes (h : t.Writes n) (hword : ¬ Number.fitsWord n = true)
    (d : Duration) : Duration.parse t ≠ .ok d := by
  intro hparse
  obtain ⟨hzero | hspells, -⟩ := Duration.parse_eq_ok_iff.mp hparse
  · have hvalue := (Text.writes_iff.mp h).2.2
    rw [(Duration.spellsZero_iff.mp hzero).1] at hvalue
    refine hword ?_
    rw [hvalue]
    cases t.unsigned.1 <;> decide
  · exact not_spells_of_writes h hspells

theorem budget?_of_writes (h : t.Writes n) :
    budget? t = if IsBudget n then some (Duration.wrap (n * Duration.second)) else none := by
  by_cases hword : Number.fitsWord n = true
  · rw [budget?, Text.toInt?_eq_some_iff.mpr ⟨h, hword⟩]
    have hlt := (Number.fitsWord_iff.mp hword).2
    by_cases hpos : n ≤ 0
    · rw [if_neg fun hbudget : IsBudget n => Int.not_lt.mpr hpos hbudget.1]
      exact if_pos hpos
    · rw [if_pos ⟨Int.not_le.mp hpos, hlt⟩]
      exact if_neg hpos
  · have hnone : t.toInt? = none := by
      refine Option.eq_none_iff_forall_ne_some.mpr fun m hm => ?_
      obtain ⟨hwrites, hfits⟩ := Text.toInt?_eq_some_iff.mp hm
      exact hword (h.unique hwrites ▸ hfits)
    rw [budget?, hnone, if_neg fun hbudget => hword hbudget.fitsWord]
    cases hparse : Duration.parse t with
    | error e => rfl
    | ok d => exact absurd hparse (parse_ne_ok_of_writes h hword d)

theorem budget?_of_not_writes (h : ∀ n, ¬ t.Writes n) {d : Duration} :
    budget? t = some d ↔ Duration.Spells t d ∧ IsBudget d := by
  have hnone : t.toInt? = none :=
    Option.eq_none_iff_forall_ne_some.mpr fun m hm => h m (Text.toInt?_eq_some_iff.mp hm).1
  -- A lone zero is an integer.
  have hzero (e : Duration) : ¬ Duration.SpellsZero t e := by
    intro hzero
    have hbody := (Duration.spellsZero_iff.mp hzero).1
    refine h _ (Text.writes_iff.mpr ⟨?_, ?_, rfl⟩) <;> rw [hbody] <;> decide +kernel
  have hparse (e : Duration) :
      Duration.parse t = .ok e ↔ Duration.Spells t e ∧ Number.fitsWord e = true := by
    rw [Duration.parse_eq_ok_iff, or_iff_right (hzero e)]
  rw [budget?, hnone]
  constructor
  · intro hbudget
    cases hresult : Duration.parse t with
    | error e =>
      rw [hresult] at hbudget
      cases hbudget
    | ok e =>
      rw [hresult] at hbudget
      obtain ⟨hspells, hfits⟩ := (hparse e).mp hresult
      replace hbudget : (if e ≤ 0 then none else some e) = some d := hbudget
      split at hbudget
      · cases hbudget
      · rename_i hpos
        cases hbudget
        exact ⟨hspells, Int.not_le.mp hpos, (Number.fitsWord_iff.mp hfits).2⟩
  · rintro ⟨hspells, hbudget⟩
    rw [(hparse d).mpr ⟨hspells, hbudget.fitsWord⟩]
    exact if_neg (Int.not_le.mpr hbudget.1)

theorem asks_iff_of_writes (h : t.Writes n) :
    Asks t d ↔ d = n * Duration.second := by
  rw [Asks, or_iff_left (not_spells_of_writes h)]
  constructor
  · rintro ⟨m, hm, hd⟩
    exact h.unique hm ▸ hd
  · exact fun hd => ⟨n, h, hd⟩

/-- A text that does not overflow is accepted for what it asks, if that is a positive duration. -/
theorem budget?_eq_some_iff (h : ¬ Overflows t) {d : Duration} :
    budget? t = some d ↔ Asks t d ∧ IsBudget d := by
  by_cases hwrites : ∃ n, t.Writes n
  · obtain ⟨n, hn⟩ := hwrites
    have hmul := Duration.mul_second n
    rw [budget?_of_writes hn, asks_iff_of_writes hn]
    by_cases hbudget : IsBudget n
    · have hproduct : IsBudget (n * Duration.second) := by
        refine ⟨?_, Int.not_le.mp fun hle => h ⟨n, hn, hbudget.2, hle⟩⟩
        have := hbudget.1
        omega
      rw [if_pos hbudget, Duration.wrap_eq_self_iff.mpr hproduct.fitsWord, Option.some_inj]
      exact ⟨fun hd => ⟨hd.symm, hd ▸ hproduct⟩, fun hd => hd.1.symm⟩
    · rw [if_neg hbudget]
      refine ⟨fun hd => (by cases hd), fun hd => absurd hd.2 fun hproduct => hbudget ?_⟩
      rw [hd.1] at hproduct
      obtain ⟨hpos, hlt⟩ := hproduct
      exact ⟨by omega, by omega⟩
  · have hnot : ∀ n, ¬ t.Writes n := fun n hn => hwrites ⟨n, hn⟩
    have hno : ¬ ∃ n, t.Writes n ∧ d = n * Duration.second := fun hask =>
      hwrites (hask.imp fun _ => And.left)
    rw [budget?_of_not_writes hnot, Asks, or_iff_right hno]

/-- A text that overflows is accepted for another time than it asks. -/
theorem budget?_of_overflows (h : t.Writes n) (hword : n < Number.wordLimit)
    (hover : Number.wordLimit ≤ n * Duration.second) :
    budget? t = some (Duration.wrap (n * Duration.second)) ∧
      Duration.wrap (n * Duration.second) ≠ n * Duration.second := by
  have hmul := Duration.mul_second n
  have hlimit : 0 < Number.wordLimit := by decide
  refine ⟨?_, fun hwrap => ?_⟩
  · rw [budget?_of_writes h, if_pos ⟨by omega, hword⟩]
  · exact Int.not_lt.mpr hover (Number.fitsWord_iff.mp (Duration.wrap_eq_self_iff.mp hwrap)).2

/-! ### The environment -/

/-- What is said is followed when it asks for a positive duration; otherwise the default is kept. -/
structure Follows (said : Option Text) (fallback got : Duration) : Prop where
  asked : ∀ t d, said = some t → Asks t d → IsBudget d → got = d
  refused : ∀ t d, said = some t → Asks t d → ¬ IsBudget d → got = fallback
  malformed : ∀ t, said = some t → (∀ d, ¬ Asks t d) → got = fallback
  unset : said = none → got = fallback

theorem follows_of_not_overflows {said : Option Text} (h : ∀ t ∈ said, ¬ Overflows t)
    (fallback : Duration) : Follows said fallback ((said.bind budget?).getD fallback) where
  asked := by
    rintro t d rfl hasks hbudget
    rw [Option.bind_some, (budget?_eq_some_iff (h t rfl)).mpr ⟨hasks, hbudget⟩, Option.getD_some]
  refused := by
    rintro t d rfl hasks hbudget
    have hnone : budget? t = none := by
      refine Option.eq_none_iff_forall_ne_some.mpr fun e he => ?_
      obtain ⟨hasked, hok⟩ := (budget?_eq_some_iff (h t rfl)).mp he
      exact hbudget (hasks.unique hasked ▸ hok)
    rw [Option.bind_some, hnone, Option.getD_none]
  malformed := by
    rintro t rfl hasks
    have hnone : budget? t = none :=
      Option.eq_none_iff_forall_ne_some.mpr fun e he =>
        hasks e ((budget?_eq_some_iff (h t rfl)).mp he).1
    rw [Option.bind_some, hnone, Option.getD_none]
  unset := by
    rintro rfl
    rfl

theorem Follows.isBudget_or_eq {said : Option Text} {fallback got : Duration}
    (h : Follows said fallback got) : IsBudget got ∨ got = fallback := by
  cases hset : said with
  | none => exact .inr (h.unset hset)
  | some t =>
    by_cases hasks : ∃ d, Asks t d
    · obtain ⟨d, hd⟩ := hasks
      by_cases hbudget : IsBudget d
      · exact .inl (h.asked t d hset hd hbudget ▸ hbudget)
      · exact .inr (h.refused t d hset hd hbudget)
    · exact .inr (h.malformed t hset fun d hd => hasks ⟨d, hd⟩)

theorem one_le_parallel (env : Environment) : 1 ≤ (load env).parallel := by
  show 1 ≤ ((env.get? "AIGRACE_PARALLEL").bind fun t =>
    t.toInt?.bind fun n => if 0 < n then some n else none).getD 1
  cases hset : (env.get? "AIGRACE_PARALLEL").bind fun t =>
      t.toInt?.bind fun n => if 0 < n then some n else none with
  | none => exact Int.le_refl 1
  | some n =>
    obtain ⟨t, -, ht⟩ := Option.bind_eq_some_iff.mp hset
    obtain ⟨m, -, hm⟩ := Option.bind_eq_some_iff.mp ht
    split at hm
    · cases hm
      assumption
    · cases hm

/-- Every budget of the settings is positive and what the environment asks for, unless a variable
overflows; then the product of seconds and nanoseconds is taken modulo 2⁶⁴. -/
theorem load_budgets (env : Environment) :
    1 ≤ (load env).parallel ∧
      ((∀ t ∈ env.get? "AIGRACE_TIMEOUT", ¬ Overflows t) →
        0 < (load env).timeout ∧
          Follows (env.get? "AIGRACE_TIMEOUT") (120 * Duration.second) (load env).timeout) ∧
      ((∀ t ∈ env.get? "AIGRACE_TRANSFORM_TIMEOUT", ¬ Overflows t) →
        0 ≤ (load env).transformTimeout ∧
          Follows (env.get? "AIGRACE_TRANSFORM_TIMEOUT") 0 (load env).transformTimeout) ∧
      (∀ t d, ¬ Overflows t → (budget? t = some d ↔ Asks t d ∧ IsBudget d)) ∧
      ∀ t (n : Int), t.Writes n → n < Number.wordLimit → Number.wordLimit ≤ n * Duration.second →
        budget? t = some (Duration.wrap (n * Duration.second)) ∧
          Duration.wrap (n * Duration.second) ≠ n * Duration.second := by
  refine ⟨one_le_parallel env, fun h => ?_, fun h => ?_, fun t d h => budget?_eq_some_iff h,
    fun t n => budget?_of_overflows⟩
  · have hfollows := follows_of_not_overflows h (120 * Duration.second)
    refine ⟨?_, hfollows⟩
    obtain hbudget | hdefault := hfollows.isBudget_or_eq
    · exact hbudget.1
    · exact Int.lt_of_lt_of_le (by decide) (Int.le_of_eq hdefault.symm)
  · have hfollows := follows_of_not_overflows h 0
    refine ⟨?_, hfollows⟩
    obtain hbudget | hdefault := hfollows.isBudget_or_eq
    · exact Int.le_of_lt hbudget.1
    · exact Int.le_of_eq hdefault.symm

/-- One second more than fits makes the budget negative, and twice as many make it short. -/
theorem load_overflowing :
    (load [("AIGRACE_TIMEOUT", "9223372037")]).timeout = -9223372036709551616 ∧
      (load [("AIGRACE_TRANSFORM_TIMEOUT", "9223372037")]).transformTimeout = -9223372036709551616 ∧
      budget? "18446744074" = some 290448384 := by
  decide +kernel

end Settings
end Regatta
