import Regatta.Proofs.Text.Boundary
import Regatta.Text.Lower

/-! Looking for a text in a lower-cased one.

Lower-casing goes by characters. It turns some characters outside ASCII into ASCII ones, and stray
bytes into a character of three bytes, so the bytes of the result do not stand where those of the
text stood. Yet the result `Resembles` what comes of lower-casing the ASCII letters alone: the two
are the same but for stretches that hold nothing of interest. A needle of interesting bytes is found
in one exactly when it is found in the other (`contains_lower`). -/
namespace Regatta

/-! ### Where a text stands in another -/

namespace Text

theorem contains_iff {needle t : Text} : contains needle t = true ↔ needle <:+: t := by
  induction t with
  | nil => simp [contains]
  | cons b rest ih =>
    rw [contains, Bool.or_eq_true, List.isPrefixOf_iff_prefix, ih, List.infix_cons_iff]

/-- Two texts that are the same but for stretches without a byte of interest. -/
inductive Resembles (kept : UInt8 → Bool) : Text → Text → Prop where
  | nil : Resembles kept [] []
  | same {s t : Text} (b : UInt8) : Resembles kept s t → Resembles kept (b :: s) (b :: t)
  | blurred {s t u v : Text} : u ≠ [] → v ≠ [] → (∀ b ∈ u, kept b = false) →
      (∀ b ∈ v, kept b = false) → Resembles kept s t → Resembles kept (u ++ s) (v ++ t)

variable {kept : UInt8 → Bool} {needle s t : Text}

theorem Resembles.symm (h : Resembles kept s t) : Resembles kept t s := by
  induction h with
  | nil => exact .nil
  | same b _ ih => exact .same b ih
  | blurred hu hv hku hkv _ ih => exact .blurred hv hu hkv hku ih

/-- What is made of bytes of interest only cannot begin in a stretch without them. -/
theorem infix_of_blurred {u : Text} (hneedle : ∀ b ∈ needle, kept b = true) (hne : needle ≠ [])
    (hu : ∀ b ∈ u, kept b = false) (h : needle <:+: u ++ s) : needle <:+: s := by
  induction u with
  | nil => exact h
  | cons b u ih =>
    rcases List.infix_cons_iff.mp h with hfront | h
    · obtain ⟨c, rest, rfl⟩ := List.exists_cons_of_ne_nil hne
      have hc := hneedle c (List.mem_cons_self ..)
      rw [(List.cons_prefix_cons.mp hfront).1, hu b (List.mem_cons_self ..)] at hc
      cases hc
    · exact ih (fun c hc => hu c (List.mem_cons_of_mem _ hc)) h

theorem Resembles.front (h : Resembles kept s t) (hneedle : ∀ b ∈ needle, kept b = true)
    (hs : needle <+: s) : needle <+: t := by
  induction h generalizing needle with
  | nil => exact hs
  | same b _ ih =>
    cases needle with
    | nil => exact List.nil_prefix
    | cons c rest =>
      obtain ⟨rfl, hrest⟩ := List.cons_prefix_cons.mp hs
      exact List.cons_prefix_cons.mpr
        ⟨rfl, ih (fun x hx => hneedle x (List.mem_cons_of_mem _ hx)) hrest⟩
  | blurred hu _ hku =>
    cases needle with
    | nil => exact List.nil_prefix
    | cons c rest =>
      obtain ⟨b, u, rfl⟩ := List.exists_cons_of_ne_nil hu
      have hc := hneedle c (List.mem_cons_self ..)
      rw [(List.cons_prefix_cons.mp hs).1, hku b (List.mem_cons_self ..)] at hc
      cases hc

theorem Resembles.occurs (h : Resembles kept s t) (hneedle : ∀ b ∈ needle, kept b = true)
    (hs : needle <:+: s) : needle <:+: t := by
  induction h with
  | nil => exact hs
  | same b hrest ih =>
    rcases List.infix_cons_iff.mp hs with hfront | hs
    · exact ((hrest.same b).front hneedle hfront).isInfix
    · exact (ih hs).trans (List.suffix_cons b _).isInfix
  | blurred _ _ hku _ _ ih =>
    by_cases hne : needle = []
    · exact hne ▸ List.nil_infix
    · exact (ih (infix_of_blurred hneedle hne hku hs)).trans (List.suffix_append _ _).isInfix

theorem Resembles.occurs_iff (h : Resembles kept s t) (hneedle : ∀ b ∈ needle, kept b = true) :
    needle <:+: s ↔ needle <:+: t :=
  ⟨h.occurs hneedle, h.symm.occurs hneedle⟩

end Text

/-! ### Characters in lower case -/

namespace CaseRun

/-- The lower-case forms of the run are characters, and none of them is in ASCII. -/
def staysAbove (r : CaseRun) : Bool :=
  decide (0x80 ≤ r.first + r.shift ∧
    (r.last + r.shift < 0xD800 ∨ 0xE000 ≤ r.first + r.shift ∧ r.last + r.shift < 0x110000))

/-- Two runs of one character each lead into ASCII. -/
theorem table_staysAbove : ∀ r ∈ table, r.staysAbove = true ∨
    r.first = r.last ∧ (r.first + r.shift = 'i'.toNat ∨ r.first + r.shift = 'k'.toNat) := by
  decide +kernel

end CaseRun

namespace Char

theorem lowered_of_ascii {c : Char} (h : c.toNat < 0x80) :
    String.utf8EncodeChar (lowered c) = [Text.lowerByte (UInt8.ofNat c.toNat)] := by
  have hnat : (UInt8.ofNat c.toNat).toNat = c.toNat := by
    rw [UInt8.toNat_ofNat']
    omega
  have hupper : Text.isUpperLetter (UInt8.ofNat c.toNat) = (65 ≤ c.toNat && c.toNat ≤ 90) := by
    simp [Text.isUpperLetter, UInt8.le_iff_toNat_le, hnat]
  unfold lowered Text.lowerByte
  rw [if_pos h, hupper]
  split <;> rename_i hcase
  · simp only [Bool.and_eq_true, decide_eq_true_eq] at hcase
    rw [encode_of_ascii (by omega)]
    simp
  · rw [← encode_of_ascii h, Char.ofNat_toNat]

theorem lowered_of_foreign {c : Char} (h : 0x80 ≤ c.toNat) :
    0x80 ≤ (lowered c).toNat ∨ lowered c = 'i' ∨ lowered c = 'k' := by
  unfold lowered
  rw [if_neg (Nat.not_lt.mpr h)]
  cases hfind : CaseRun.table.find? (·.covers c.toNat) with
  | none => exact .inl h
  | some r =>
    have hcovers := List.find?_some hfind
    simp only [CaseRun.covers, Bool.and_eq_true, decide_eq_true_eq] at hcovers
    obtain ⟨⟨hfirst, hlast⟩, -⟩ := hcovers
    rcases CaseRun.table_staysAbove r (List.mem_of_find?_eq_some hfind) with habove | ⟨hone, hends⟩
    · simp only [CaseRun.staysAbove, decide_eq_true_eq] at habove
      refine .inl ?_
      show 0x80 ≤ (Char.ofNat (c.toNat + r.shift).toNat).toNat
      rw [toNat_ofNat_of_isValid]
      · omega
      · unfold Nat.isValidChar
        omega
    · have hsame : c.toNat = r.first := by omega
      rw [hsame]
      refine .inr (hends.imp (fun h => ?_) fun h => ?_)
      all_goals
        show Char.ofNat (r.first + r.shift).toNat = _
        rw [h]
        rfl

end Char

/-! ### Texts in lower case -/

namespace Text

/-- A byte that only an ASCII character leaves behind in a lower-cased text. -/
def fromAscii (b : UInt8) : Bool := b < 0x80 && b != byte 'i' && b != byte 'k'

theorem fromAscii_of_high {b : UInt8} (h : 0x80 ≤ b.toNat) : fromAscii b = false := by
  have hlow : ¬ b < 0x80 := Nat.not_lt.mpr h
  simp [fromAscii, hlow]

theorem fromAscii_lowered {c : Char} (h : 0x80 ≤ c.toNat) :
    String.utf8EncodeChar (Char.lowered c) ≠ [] ∧
      ∀ b ∈ String.utf8EncodeChar (Char.lowered c), fromAscii b = false := by
  rcases Char.lowered_of_foreign h with hforeign | hi | hk
  · obtain ⟨hne, hhigh⟩ := Char.encode_of_foreign hforeign
    exact ⟨hne, fun b hb => fromAscii_of_high (hhigh b hb)⟩
  · rw [hi]
    decide +kernel
  · rw [hk]
    decide +kernel

theorem lowerByte_of_high {b : UInt8} (h : 0x80 ≤ b.toNat) : lowerByte b = b := by
  have hupper : ¬ b ≤ 90 := fun hle => absurd (UInt8.le_iff_toNat_le.mp hle) (by simp; omega)
  simp [lowerByte, isUpperLetter, hupper]

theorem resembles_foreign {block rest : Text} {c : Char} (hc : 0x80 ≤ c.toNat) (hne : block ≠ [])
    (hhigh : ∀ b ∈ block, 0x80 ≤ b.toNat) (h : Resembles fromAscii rest.lower rest.lowerAscii) :
    Resembles fromAscii (String.utf8EncodeChar (Char.lowered c) ++ rest.lower)
      (lowerAscii (block ++ rest)) := by
  obtain ⟨hne', hbytes⟩ := fromAscii_lowered hc
  have hblock : block.map lowerByte = block.map id :=
    List.map_congr_left fun b hb => lowerByte_of_high (hhigh b hb)
  rw [lowerAscii, List.map_append, hblock, List.map_id]
  exact h.blurred hne' hne hbytes fun b hb => fromAscii_of_high (hhigh b hb)

/-- Lower-casing by characters and lower-casing by bytes differ only where no ASCII character was,
and leave nothing there that looks like one but `i` and `k`. -/
theorem resembles_lower (t : Text) : Resembles fromAscii t.lower t.lowerAscii := by
  induction t using reading_induct with
  | nil => exact .nil
  | char b more rest c h ih =>
    rw [lower, runes_encoded h, List.flatMap_cons]
    by_cases hc : 0x80 ≤ c.toNat
    · have hbytes := (Char.encode_of_foreign hc).2
      rw [h.bytes] at hbytes
      exact resembles_foreign hc (List.cons_ne_nil b more) hbytes ih
    · have hbytes := Char.encode_of_ascii (Nat.not_le.mp hc)
      rw [Char.ofNat_toNat, h.bytes] at hbytes
      obtain ⟨rfl, rfl⟩ := List.cons.inj hbytes
      show Resembles _ (String.utf8EncodeChar (Char.lowered c) ++ _) _
      rw [Char.lowered_of_ascii (Nat.not_le.mp hc)]
      exact ih.same _
  | stray b rest h ih =>
    have hb : 0x80 ≤ b.toNat := Nat.not_lt.mp fun hb => by
      rw [headRune_of_ascii hb] at h
      cases h
    rw [lower, runes_stray h, List.flatMap_cons]
    have hshown : 0x80 ≤ Rune.replacement.toNat := by decide
    exact resembles_foreign hshown (List.cons_ne_nil b []) (by simpa using hb) ih

theorem contains_lower {needle : Text} (h : ∀ b ∈ needle, fromAscii b = true) (t : Text) :
    contains needle t.lower = true ↔ contains needle t.lowerAscii = true := by
  rw [contains_iff, contains_iff]
  exact t.resembles_lower.occurs_iff h

end Text
end Regatta
