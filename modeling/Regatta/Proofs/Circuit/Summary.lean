import Regatta.Circuit.Stats
import Regatta.Proofs.Text.Padded
import Regatta.Proofs.Text.Split

/-! The summary line of the tool, and how it is found in an output.

A summary is a sequence of parts: words, white space and numbers (`grammar`). `Spelled` says which
texts begin with such a sequence, and which numbers they give; the white space is any, and a number
goes on as long as there are digits. Reading from left to right without ever going back finds
exactly these (`follow_iff`), since no part can begin with what the part before it could have taken.
-/
namespace Regatta.Stats

namespace Summary

/-! ### The grammar -/

inductive Part where
  | word (w : Text)
  /-- White space, or none. -/
  | gaps
  /-- White space. -/
  | gap
  | number

/-- `i/o = a / b  lat = c  and = d` -/
def grammar : List Part :=
  [.word "i/o", .gaps, .word "=", .gaps, .number, .gaps, .word "/", .gaps, .number, .gap,
    .word "lat", .gaps, .word "=", .gaps, .number, .gap,
    .word "and", .gaps, .word "=", .gaps, .number]

/-- No byte of a kind comes first. -/
def StartsWithout (kind : UInt8 → Bool) (t : Text) : Prop := ∀ b ∈ t.head?, kind b = false

instance (kind : UInt8 → Bool) (t : Text) : Decidable (StartsWithout kind t) :=
  inferInstanceAs (Decidable (∀ b ∈ t.head?, kind b = false))

/-- The text begins with the parts, which give these numbers, and the rest comes behind them. -/
inductive Spelled : List Part → Text → List Nat → Text → Prop where
  | done (rest : Text) : Spelled [] rest [] rest
  | word {ps : List Part} {t rest : Text} {ns : List Nat} (w : Text) :
      Spelled ps t ns rest → Spelled (.word w :: ps) (w ++ t) ns rest
  | gaps {ps : List Part} {t rest : Text} {ns : List Nat} {blanks : Text} :
      (∀ b ∈ blanks, isGap b = true) → Spelled ps t ns rest →
      Spelled (.gaps :: ps) (blanks ++ t) ns rest
  | gap {ps : List Part} {t rest : Text} {ns : List Nat} {blanks : Text} :
      blanks ≠ [] → (∀ b ∈ blanks, isGap b = true) → Spelled ps t ns rest →
      Spelled (.gap :: ps) (blanks ++ t) ns rest
  | number {ps : List Part} {t rest : Text} {ns : List Nat} {digits : Text} :
      digits ≠ [] → (∀ b ∈ digits, Text.isDigit b = true) → StartsWithout Text.isDigit t →
      Spelled ps t ns rest →
      Spelled (.number :: ps) (digits ++ t) (Text.digitsValue digits :: ns) rest

/-- A summary with these numbers stands at a position of the text. -/
def StandsAt (t : Text) (p : Nat) (s : Nat × Nat × Nat × Nat) : Prop :=
  ∃ rest, Spelled grammar (t.drop p) [s.1, s.2.1, s.2.2.1, s.2.2.2] rest

/-- The first summary of the text stands at this position and has these numbers. -/
structure Leftmost (t : Text) (p : Nat) (s : Nat × Nat × Nat × Nat) : Prop where
  stands : StandsAt t p s
  first : ∀ q < p, ∀ s', ¬ StandsAt t q s'

/-! ### Reading a part -/

theorem startsWithout_dropWhile (kind : UInt8 → Bool) (t : Text) :
    StartsWithout kind (t.dropWhile kind) := by
  intro b hb
  have hnot := List.head?_dropWhile_not kind t
  rw [Option.mem_def.mp hb] at hnot
  simpa using hnot

theorem startsWithout_append {kind : UInt8 → Bool} {w : Text} (h : w.head?.any (!kind ·) = true)
    (t : Text) : StartsWithout kind (w ++ t) := by
  cases w with
  | nil => cases h
  | cons b w =>
    intro c hc
    cases hc
    simpa using h

variable {blanks rest t : Text} {ns : List Nat} {ps : List Part} {s : Nat × Nat × Nat × Nat}

theorem span_append {kind : UInt8 → Bool} {front : Text} (hfront : ∀ b ∈ front, kind b = true)
    (hrest : StartsWithout kind rest) :
    (front ++ rest).takeWhile kind = front ∧ (front ++ rest).dropWhile kind = rest := by
  have hnil : rest.takeWhile kind = [] ∧ rest.dropWhile kind = rest := by
    cases rest with
    | nil => exact ⟨rfl, rfl⟩
    | cons b rest =>
      have hb := hrest b rfl
      simp [hb]
  rw [List.takeWhile_append_of_pos hfront, List.dropWhile_append_of_pos hfront, hnil.1, hnil.2]
  simp

theorem gaps_append (hblanks : ∀ b ∈ blanks, isGap b = true)
    (hrest : StartsWithout isGap rest) : gaps (blanks ++ rest) = rest :=
  (span_append hblanks hrest).2

theorem exists_gaps (t : Text) : ∃ blanks, (∀ b ∈ blanks, isGap b = true) ∧ t = blanks ++ gaps t :=
  ⟨t.takeWhile isGap, List.all_eq_true.mp List.all_takeWhile, List.takeWhile_append_dropWhile.symm⟩

theorem gap_append (hne : blanks ≠ [])
    (hblanks : ∀ b ∈ blanks, isGap b = true) (hrest : StartsWithout isGap rest) :
    gap (blanks ++ rest) = some rest := by
  obtain ⟨b, more, rfl⟩ := List.exists_cons_of_ne_nil hne
  have hb := hblanks b (List.mem_cons_self ..)
  have hmore := gaps_append (fun c hc => hblanks c (List.mem_cons_of_mem _ hc)) hrest
  simp [gap, hb, hmore]

theorem exists_gap (h : gap t = some rest) :
    ∃ blanks, blanks ≠ [] ∧ (∀ b ∈ blanks, isGap b = true) ∧ t = blanks ++ rest := by
  unfold gap at h
  split at h
  · rename_i b more
    split at h
    · rename_i hb
      obtain ⟨blanks, hblanks, hmore⟩ := exists_gaps more
      cases h
      refine ⟨b :: blanks, List.cons_ne_nil _ _, List.forall_mem_cons.mpr ⟨hb, hblanks⟩, ?_⟩
      rw [List.cons_append, ← hmore]
    · cases h
  · cases h

theorem number_append {digits : Text} (hne : digits ≠ [])
    (hdigits : ∀ b ∈ digits, Text.isDigit b = true) (hrest : StartsWithout Text.isDigit rest) :
    number (digits ++ rest) = some (Text.digitsValue digits, rest) := by
  obtain ⟨htake, hdrop⟩ := span_append hdigits hrest
  unfold number
  simp [htake, hdrop, hne]

theorem exists_number {n : Nat} (h : number t = some (n, rest)) :
    ∃ digits, digits ≠ [] ∧ (∀ b ∈ digits, Text.isDigit b = true) ∧
      StartsWithout Text.isDigit rest ∧ t = digits ++ rest ∧ n = Text.digitsValue digits := by
  unfold number at h
  dsimp only at h
  split at h
  · cases h
  · rename_i hne
    cases h
    exact ⟨t.takeWhile Text.isDigit, by simpa using hne, List.all_eq_true.mp List.all_takeWhile,
      startsWithout_dropWhile _ t, List.takeWhile_append_dropWhile.symm, rfl⟩

/-! ### Reading the parts -/

/-- Reads parts from left to right, as much of each as there is. -/
def follow : List Part → Text → Option (List Nat × Text)
  | [], t => some ([], t)
  | .word w :: ps, t => (Text.stripPrefix? w t).bind (follow ps)
  | .gaps :: ps, t => follow ps (gaps t)
  | .gap :: ps, t => (gap t).bind (follow ps)
  | .number :: ps, t => (number t).bind fun x => (follow ps x.2).map fun y => (x.1 :: y.1, y.2)

/-- Whether a part never starts with white space. -/
def Part.isClear : Part → Bool
  | .word w => w.head?.any (!isGap ·)
  | .number => true
  | _ => false

/-- Whether white space always ends where a part begins that cannot start with it. -/
def delimited : List Part → Bool
  | [] => true
  | .gaps :: ps => ps.head?.any Part.isClear && delimited ps
  | .gap :: ps => ps.head?.any Part.isClear && delimited ps
  | _ :: ps => delimited ps

theorem not_isGap_of_isDigit {b : UInt8} (h : Text.isDigit b = true) : isGap b = false := by
  simp only [Text.isDigit, Bool.and_eq_true, decide_eq_true_eq, UInt8.le_iff_toNat_le] at h
  simp only [isGap, Bool.or_eq_false_iff, beq_eq_false_iff_ne, ne_eq]
  refine ⟨⟨⟨⟨?_, ?_⟩, ?_⟩, ?_⟩, ?_⟩ <;> rintro rfl <;> simp at h

theorem Spelled.startsWithout_gap
    (h : Spelled ps t ns rest) (hclear : ps.head?.any Part.isClear = true) :
    StartsWithout isGap t := by
  cases h with
  | done => cases hclear
  | word w h => exact startsWithout_append hclear _
  | gaps => cases hclear
  | gap => cases hclear
  | number hne hdigits _ h =>
    obtain ⟨b, digits, rfl⟩ := List.exists_cons_of_ne_nil hne
    intro c hc
    cases hc
    exact not_isGap_of_isDigit (hdigits b (List.mem_cons_self ..))

theorem spelled_of_follow (h : follow ps t = some (ns, rest)) : Spelled ps t ns rest := by
  induction ps generalizing t ns with
  | nil =>
    cases h
    exact .done rest
  | cons p ps ih =>
    cases p with
    | word w =>
      obtain ⟨u, hu, hmore⟩ := Option.bind_eq_some_iff.mp h
      rw [Text.stripPrefix?_eq_some.mp hu]
      exact .word w (ih hmore)
    | gaps =>
      obtain ⟨blanks, hblanks, ht⟩ := exists_gaps t
      rw [ht]
      exact .gaps hblanks (ih h)
    | gap =>
      obtain ⟨u, hu, hmore⟩ := Option.bind_eq_some_iff.mp h
      obtain ⟨blanks, hne, hblanks, rfl⟩ := exists_gap hu
      exact .gap hne hblanks (ih hmore)
    | number =>
      obtain ⟨⟨n, u⟩, hu, hmore⟩ := Option.bind_eq_some_iff.mp h
      obtain ⟨⟨ms, r⟩, hr, heq⟩ := Option.map_eq_some_iff.mp hmore
      cases heq
      obtain ⟨digits, hne, hdigits, hrest, rfl, rfl⟩ := exists_number hu
      exact .number hne hdigits hrest (ih hr)

theorem follow_of_spelled
    (h : Spelled ps t ns rest) (hps : delimited ps = true) : follow ps t = some (ns, rest) := by
  induction h with
  | done => rfl
  | word w _ ih => simp [follow, Text.stripPrefix?_eq_some.mpr rfl, ih hps]
  | gaps hblanks h ih =>
    obtain ⟨hclear, hps⟩ := Bool.and_eq_true_iff.mp hps
    rw [follow, gaps_append hblanks (h.startsWithout_gap hclear), ih hps]
  | gap hne hblanks h ih =>
    obtain ⟨hclear, hps⟩ := Bool.and_eq_true_iff.mp hps
    rw [follow, gap_append hne hblanks (h.startsWithout_gap hclear), Option.bind_some, ih hps]
  | number hne hdigits hrest _ ih =>
    rw [follow, number_append hne hdigits hrest, Option.bind_some, ih hps]
    rfl

def quadruple : List Nat × Text → Option (Nat × Nat × Nat × Nat)
  | ([a, b, c, d], _) => some (a, b, c, d)
  | _ => none

theorem follow_entry (name : String) (ps : List Part) (t : Text) :
    follow (.word name :: .gaps :: .word "=" :: .gaps :: .number :: ps) t =
      (entry name t).bind fun x => (follow ps x.2).map fun y => (x.1 :: y.1, y.2) := by
  simp only [follow, entry, Option.bind_eq_bind, Option.bind_assoc]

theorem atStart_eq (t : Text) : atStart t = (follow grammar t).bind quadruple := by
  have hslash (ps : List Part) (t : Text) : follow (.gaps :: .word "/" :: .gaps :: .number :: ps) t =
      (Text.stripPrefix? "/" (gaps t)).bind fun u => (number (gaps u)).bind fun x =>
        (follow ps x.2).map fun y => (x.1 :: y.1, y.2) := rfl
  have hgap (ps : List Part) (t : Text) :
      follow (.gap :: ps) t = (gap t).bind fun u => follow ps u := rfl
  have hdone (t : Text) : follow [] t = some ([], t) := rfl
  simp only [grammar, atStart, follow_entry, hslash, hgap, hdone, Option.bind_eq_bind,
    Option.bind_assoc, Option.map_eq_bind, Option.bind_some, Function.comp_def, quadruple]

theorem quadruple_eq_some {x : List Nat × Text}
    (h : quadruple x = some s) : x.1 = [s.1, s.2.1, s.2.2.1, s.2.2.2] := by
  unfold quadruple at h
  split at h
  · cases h
    rfl
  · cases h

theorem atStart_eq_some :
    atStart t = some s ↔ StandsAt t 0 s := by
  rw [atStart_eq]
  constructor
  · intro h
    obtain ⟨⟨ns, rest⟩, hfollow, hs⟩ := Option.bind_eq_some_iff.mp h
    have hns : ns = _ := quadruple_eq_some hs
    rw [hns] at hfollow
    exact ⟨rest, spelled_of_follow hfollow⟩
  · rintro ⟨rest, h⟩
    rw [List.drop_zero] at h
    rw [follow_of_spelled h (by decide)]
    rfl

/-! ### The first summary -/

theorem not_standsAt_nil (p : Nat) (s : Nat × Nat × Nat × Nat) : ¬ StandsAt [] p s := by
  intro h
  have hnone : atStart [] = none := by decide
  rw [StandsAt, List.drop_nil, ← List.drop_zero (l := [])] at h
  rw [atStart_eq_some.mpr h] at hnone
  cases hnone

/-- The search stops at the first position at which a summary stands. -/
theorem find_eq_some :
    find t = some s ↔ ∃ p, Leftmost t p s := by
  induction t with
  | nil =>
    constructor
    · intro h
      cases h
    · rintro ⟨p, h⟩
      exact absurd h.stands (not_standsAt_nil p s)
  | cons b rest ih =>
    rw [find]
    cases hstart : atStart (b :: rest) with
    | some s' =>
      have hs' := atStart_eq_some.mp hstart
      constructor
      · intro h
        cases h
        exact ⟨0, hs', fun q hq => absurd hq (Nat.not_lt_zero q)⟩
      · rintro ⟨p, h⟩
        cases p with
        | zero => exact hstart.symm.trans (atStart_eq_some.mpr h.stands)
        | succ p => exact absurd hs' (h.first 0 (Nat.succ_pos p) s')
    | none =>
      have hnone : ∀ s', ¬ StandsAt (b :: rest) 0 s' := by
        intro s' h
        rw [atStart_eq_some.mpr h] at hstart
        cases hstart
      refine ih.trans ⟨?_, ?_⟩
      · rintro ⟨p, h⟩
        refine ⟨p + 1, h.stands, fun q hq => ?_⟩
        cases q with
        | zero => exact hnone
        | succ q => exact h.first q (Nat.lt_of_succ_lt_succ hq)
      · rintro ⟨p, h⟩
        cases p with
        | zero => exact absurd h.stands (hnone s)
        | succ p => exact ⟨p, h.stands, fun q hq => h.first (q + 1) (Nat.succ_lt_succ hq)⟩

/-! ### Writing a summary -/

/-- The white space of a summary: around its signs, where there may be none, and before `lat` and
`and`, where there is some. -/
structure Layout where
  inputs : Text × Text
  slash : Text × Text
  latches : Text × Text
  ands : Text × Text
  beforeLatches : Text
  beforeAnds : Text
  blank : ∀ g ∈ [inputs.1, inputs.2, slash.1, slash.2, beforeLatches, latches.1, latches.2, beforeAnds,
    ands.1, ands.2], ∀ b ∈ g, isGap b = true
  apart : beforeLatches ≠ [] ∧ beforeAnds ≠ []

def Layout.render (l : Layout) (a b c d : Nat) : Text :=
  "i/o" ++ (l.inputs.1 ++ ("=" ++ (l.inputs.2 ++ (Text.ofNat a ++
    (l.slash.1 ++ ("/" ++ (l.slash.2 ++ (Text.ofNat b ++ (l.beforeLatches ++
    ("lat" ++ (l.latches.1 ++ ("=" ++ (l.latches.2 ++ (Text.ofNat c ++ (l.beforeAnds ++
    ("and" ++ (l.ands.1 ++ ("=" ++ (l.ands.2 ++ Text.ofNat d)))))))))))))))))))

theorem StartsWithout.gaps_append (hblanks : ∀ b ∈ blanks, isGap b = true)
    (h : StartsWithout Text.isDigit t) : StartsWithout Text.isDigit (blanks ++ t) := by
  cases blanks with
  | nil => exact h
  | cons b rest =>
    intro c hc
    cases hc
    cases hdigit : Text.isDigit b with
    | false => rfl
    | true =>
      have hgap := hblanks b (List.mem_cons_self ..)
      rw [not_isGap_of_isDigit hdigit] at hgap
      cases hgap

theorem Spelled.ofNat (n : Nat) (hrest : StartsWithout Text.isDigit t) (h : Spelled ps t ns rest) :
    Spelled (.number :: ps) (Text.ofNat n ++ t) (n :: ns) rest := by
  have hne : Text.ofNat n ≠ [] := mt List.map_eq_nil_iff.mp Nat.toDigits_ne_nil
  have hnumber := h.number hne (fun _ => Text.isDigit_of_mem_ofNat) hrest
  rwa [Text.digitsValue_ofNat] at hnumber

theorem Layout.spelled (l : Layout) (a b c d : Nat) (hrest : StartsWithout Text.isDigit rest) :
    Spelled grammar (l.render a b c d ++ rest) [a, b, c, d] rest := by
  have hblank := l.blank
  simp only [List.forall_mem_cons] at hblank
  obtain ⟨h1, h2, h3, h4, h5, h6, h7, h8, h9, h10, -⟩ := hblank
  simp only [Layout.render, List.append_assoc]
  refine .word _ (.gaps h1 (.word _ (.gaps h2 (.ofNat a (.gaps_append h3 ?_)
    (.gaps h3 (.word _ (.gaps h4 (.ofNat b (.gaps_append h5 ?_) (.gap l.apart.1 h5
    (.word _ (.gaps h6 (.word _ (.gaps h7 (.ofNat c (.gaps_append h8 ?_) (.gap l.apart.2 h8
    (.word _ (.gaps h9 (.word _ (.gaps h10 (.ofNat d hrest (.done rest)))))))))))))))))))))
  all_goals exact startsWithout_append (by decide) _

/-- A summary with nothing like one before it, and no further digit behind it, is the first. -/
theorem Layout.leftmost (l : Layout) (a b c d : Nat) {before after : Text}
    (hbefore : ∀ q < before.length, ∀ s, ¬ StandsAt (before ++ l.render a b c d ++ after) q s)
    (hafter : StartsWithout Text.isDigit after) :
    Leftmost (before ++ l.render a b c d ++ after) before.length (a, b, c, d) := by
  refine ⟨⟨after, ?_⟩, hbefore⟩
  rw [List.append_assoc, List.drop_left]
  exact l.spelled a b c d hafter

end Summary

/-! ### The figures of an output -/

open Summary

theorem extract_eq_some {t : Text} {s : Stats} : extract t = some s ↔ ∃ p a b c d : Nat,
    Leftmost t p (a, b, c, d) ∧ (∀ n ∈ [a, b, c, d], n ≤ 9223372036854775807) ∧
      s = ⟨a, b, c, d⟩ := by
  have hfits : ∀ ns : List Nat, ns.all (fun n => decide (n < Number.wordLimit)) = true ↔
      ∀ n ∈ ns, n ≤ 9223372036854775807 := by
    intro ns
    simp only [List.all_eq_true, decide_eq_true_eq]
    exact forall_congr' fun n => imp_congr_right fun _ => Nat.lt_succ_iff
  unfold extract
  constructor
  · intro h
    split at h
    · rename_i a b c d hfind
      split at h
      · rename_i hall
        cases h
        obtain ⟨p, hp⟩ := find_eq_some.mp hfind
        exact ⟨p, a, b, c, d, hp, (hfits _).mp hall, rfl⟩
      · cases h
    · cases h
  · rintro ⟨p, a, b, c, d, hp, hall, rfl⟩
    rw [find_eq_some.mpr ⟨p, hp⟩]
    exact if_pos ((hfits _).mpr hall)

/-- **The figures of an output are those of its first summary.** They are known exactly when a
summary stands somewhere and no number of the first one is above 2⁶³ - 1; otherwise there are none,
which counts as zeros. So a summary is read as it was written, however its white space is laid out.
-/
theorem extract_grammar :
    (∀ (t : Text) (s : Stats), extract t = some s ↔ ∃ p a b c d : Nat, Leftmost t p (a, b, c, d) ∧
      (∀ n ∈ [a, b, c, d], n ≤ 9223372036854775807) ∧ s = ⟨a, b, c, d⟩) ∧
    (∀ t : Text, (∀ p a b c d : Nat, Leftmost t p (a, b, c, d) →
        ∃ n ∈ [a, b, c, d], 9223372036854775807 < n) →
      extract t = none ∧ (extract t).getD default = ⟨0, 0, 0, 0⟩) ∧
    ∀ (l : Layout) (a b c d : Nat) (before after : Text),
      (∀ n ∈ [a, b, c, d], n < 9223372036854775808) →
      (∀ q < before.length, ∀ s, ¬ StandsAt (before ++ l.render a b c d ++ after) q s) →
      StartsWithout Text.isDigit after →
      extract (before ++ l.render a b c d ++ after) = some ⟨a, b, c, d⟩ := by
  refine ⟨fun t s => extract_eq_some, fun t h => ?_, ?_⟩
  · have hnone : extract t = none := by
      refine Option.eq_none_iff_forall_ne_some.mpr fun s hs => ?_
      obtain ⟨p, a, b, c, d, hp, hall, -⟩ := extract_eq_some.mp hs
      obtain ⟨n, hn, hlarge⟩ := h p a b c d hp
      exact absurd hlarge (Nat.not_lt.mpr (hall n hn))
    rw [hnone]
    exact ⟨rfl, rfl⟩
  · intro l a b c d before after hfits hbefore hafter
    exact extract_eq_some.mpr ⟨before.length, a, b, c, d, l.leftmost a b c d hbefore hafter,
      fun n hn => Nat.le_of_lt_succ (hfits n hn), rfl⟩

/-- A layout with blanks, a tab and a line break. -/
def loose : Summary.Layout where
  inputs := (" ", "  ")
  slash := ("", " ")
  latches := (" ", "  ")
  ands := (" ", "\t")
  beforeLatches := "  "
  beforeAnds := "\r\n"
  blank := by decide +kernel
  apart := by decide +kernel

/-- A summary that breaks off is passed by. -/
theorem extract_grammar_after_fragment :
    extract ("i/o = 5/3 lat = 2; " ++ loose.render 12 1 40 1203 ++ " lev = 21") =
      some ⟨12, 1, 40, 1203⟩ := by
  refine extract_grammar.2.2 loose 12 1 40 1203 _ _ (by decide) (fun q hq s h => ?_)
    (by decide +kernel)
  have hnone : ∀ q < (Text.ofString "i/o = 5/3 lat = 2; ").length, Summary.atStart
      ((Text.ofString "i/o = 5/3 lat = 2; " ++ loose.render 12 1 40 1203 ++
        Text.ofString " lev = 21").drop q) = none := by decide +kernel
  have hstart := hnone q hq
  rw [Summary.atStart_eq_some.mpr h] at hstart
  cases hstart

end Regatta.Stats
