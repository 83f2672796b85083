import Regatta.Text.Rune

/-! Where runes begin and end.

The bytes of a character are read as that character whatever comes after them (`Encodes.reads`). A
stray byte may become part of a character only by what comes right after it, and only if that is a
continuation byte. So a text can be cut between any two of its runes (`runes_cut`), and two texts
can be put together without a change to their runes if the first has no stray byte
(`runes_append_of_chars`) or the second does not begin with a continuation byte
(`runes_append_lead`). -/
namespace Regatta

namespace Char

theorem toNat_ofNat_of_isValid {n : Nat} (h : n.isValidChar) : (Char.ofNat n).toNat = n := by
  rw [Char.ofNat, dif_pos h]
  rfl

theorem encode_of_ascii {n : Nat} (h : n < 0x80) :
    String.utf8EncodeChar (Char.ofNat n) = [UInt8.ofNat n] := by
  have hnat : (Char.ofNat n).val.toNat = n := toNat_ofNat_of_isValid (.inl (by omega))
  unfold String.utf8EncodeChar
  simp only [hnat]
  rw [if_pos (Nat.le_of_lt_succ h)]

theorem encode_of_foreign {c : Char} (h : 0x80 ≤ c.toNat) :
    String.utf8EncodeChar c ≠ [] ∧ ∀ b ∈ String.utf8EncodeChar c, 0x80 ≤ b.toNat := by
  have hsmall : ¬ c.val.toNat ≤ 127 := Nat.not_le.mpr h
  unfold String.utf8EncodeChar
  simp only [if_neg hsmall]
  repeat' split
  all_goals
    refine ⟨List.cons_ne_nil _ _, ?_⟩
    simp only [List.forall_mem_cons, List.not_mem_nil, UInt8.toNat_ofNat', false_implies,
      implies_true, and_true]
    omega

end Char

namespace Text

section
variable (b : UInt8) (rest : Text)

theorem low6_eq : low6 b = b.toNat % 64 := by
  unfold low6
  rw [UInt8.toNat_and]
  exact Nat.and_two_pow_sub_one_eq_mod b.toNat 6

theorem low5_eq : (b &&& 0x1F).toNat = b.toNat % 32 := by
  rw [UInt8.toNat_and]
  exact Nat.and_two_pow_sub_one_eq_mod b.toNat 5

theorem low4_eq : (b &&& 0x0F).toNat = b.toNat % 16 := by
  rw [UInt8.toNat_and]
  exact Nat.and_two_pow_sub_one_eq_mod b.toNat 4

theorem low3_eq : (b &&& 0x07).toNat = b.toNat % 8 := by
  rw [UInt8.toNat_and]
  exact Nat.and_two_pow_sub_one_eq_mod b.toNat 3

theorem isContinuation_iff {b : UInt8} :
    isContinuation b = true ↔ 128 ≤ b.toNat ∧ b.toNat < 192 := by
  simp [isContinuation, UInt8.le_iff_toNat_le, UInt8.lt_iff_toNat_lt]

theorem headRune_of_ascii {b : UInt8} (h : b < 0x80) (rest : Text) :
    headRune b rest = (.char (Char.ofNat b.toNat), 0) := by
  unfold headRune
  rw [if_pos h]

theorem runesAfter_eq (skip : Nat) (t : Text) : runesAfter skip t = runes (t.drop skip) := by
  induction t generalizing skip with
  | nil => cases skip <;> rfl
  | cons b rest ih =>
    cases skip with
    | zero => rfl
    | succ skip => exact ih skip

theorem runes_cons :
    runes (b :: rest) = (headRune b rest).1 :: runes (rest.drop (headRune b rest).2) :=
  congrArg _ (runesAfter_eq _ rest)

end

/-- A second byte is a continuation byte, with a bound of its own behind two of the first bytes. -/
theorem second_byte {b c lowest highest lower upper : UInt8} (hlower : 0x80 ≤ lower.toNat)
    (hupper : upper.toNat < 192) (hl : (if b == lowest then lower else 0x80) ≤ c)
    (hu : c ≤ if b == highest then upper else 0xBF) :
    (128 ≤ c.toNat ∧ c.toNat < 192) ∧ (b.toNat = lowest.toNat → lower.toNat ≤ c.toNat) ∧
      (b.toNat = highest.toNat → c.toNat ≤ upper.toNat) := by
  rw [UInt8.le_iff_toNat_le] at hl hu
  have hsame : ∀ x : UInt8, b.toNat = x.toNat → (b == x) = true := by
    intro x h
    rw [UInt8.toNat_inj.mp h]
    exact beq_self_eq_true x
  refine ⟨⟨?_, ?_⟩, fun h => ?_, fun h => ?_⟩
  · split at hl
    · exact Nat.le_trans hlower hl
    · exact hl
  · split at hu
    · exact Nat.lt_of_le_of_lt hu hupper
    · exact Nat.lt_of_le_of_lt hu (by decide)
  · rwa [if_pos (hsame _ h)] at hl
  · rwa [if_pos (hsame _ h)] at hu

/-- The bytes of a character, the first one and the rest. -/
structure Encodes (b : UInt8) (more : Text) (c : Char) : Prop where
  bytes : String.utf8EncodeChar c = b :: more
  lead : isContinuation b = false
  continuation : ∀ x ∈ more, isContinuation x = true
  reads : ∀ rest, headRune b (more ++ rest) = (.char c, more.length)

theorem encodes_ascii {b : UInt8} (h : b < 0x80) : Encodes b [] (Char.ofNat b.toNat) where
  bytes := (Char.encode_of_ascii (n := b.toNat) h).trans (by simp)
  lead := by
    rw [← Bool.not_eq_true, isContinuation_iff]
    exact fun hb => Nat.not_lt.mpr hb.1 h
  continuation := by simp
  reads rest := headRune_of_ascii h rest

theorem ofNat_eq {n : Nat} {b : UInt8} (h : n = b.toNat) : UInt8.ofNat n = b := by
  rw [h]
  simp

theorem encode_two {b c : UInt8} (hb : 194 ≤ b.toNat ∧ b.toNat < 224)
    (hc : 128 ≤ c.toNat ∧ c.toNat < 192) :
    String.utf8EncodeChar (Char.ofNat (b.toNat % 32 * 64 + c.toNat % 64)) = [b, c] := by
  have hnat : (Char.ofNat (b.toNat % 32 * 64 + c.toNat % 64)).val.toNat =
      b.toNat % 32 * 64 + c.toNat % 64 := Char.toNat_ofNat_of_isValid (.inl (by omega))
  unfold String.utf8EncodeChar
  simp only [hnat]
  rw [if_neg (by omega), if_pos (by omega), ofNat_eq (b := b) (by omega),
    ofNat_eq (b := c) (by omega)]

theorem encode_three {b c d : UInt8} (hb : 224 ≤ b.toNat ∧ b.toNat < 240)
    (hc : 128 ≤ c.toNat ∧ c.toNat < 192) (hd : 128 ≤ d.toNat ∧ d.toNat < 192)
    (hlower : b.toNat = 224 → 160 ≤ c.toNat) (hupper : b.toNat = 237 → c.toNat ≤ 159) :
    String.utf8EncodeChar (Char.ofNat (b.toNat % 16 * 4096 + c.toNat % 64 * 64 + d.toNat % 64)) =
      [b, c, d] := by
  have hnat : (Char.ofNat (b.toNat % 16 * 4096 + c.toNat % 64 * 64 + d.toNat % 64)).val.toNat = _ :=
    Char.toNat_ofNat_of_isValid (by unfold Nat.isValidChar; omega)
  unfold String.utf8EncodeChar
  simp only [hnat]
  rw [if_neg (by omega), if_neg (by omega), if_pos (by omega), ofNat_eq (b := b) (by omega),
    ofNat_eq (b := c) (by omega), ofNat_eq (b := d) (by omega)]

theorem encode_four {b c d e : UInt8} (hb : 240 ≤ b.toNat ∧ b.toNat < 245)
    (hc : 128 ≤ c.toNat ∧ c.toNat < 192) (hd : 128 ≤ d.toNat ∧ d.toNat < 192)
    (he : 128 ≤ e.toNat ∧ e.toNat < 192)
    (hlower : b.toNat = 240 → 144 ≤ c.toNat) (hupper : b.toNat = 244 → c.toNat ≤ 143) :
    String.utf8EncodeChar (Char.ofNat (b.toNat % 8 * 262144 + c.toNat % 64 * 4096 +
      d.toNat % 64 * 64 + e.toNat % 64)) = [b, c, d, e] := by
  have hnat : (Char.ofNat (b.toNat % 8 * 262144 + c.toNat % 64 * 4096 + d.toNat % 64 * 64 +
      e.toNat % 64)).val.toNat = _ := Char.toNat_ofNat_of_isValid (by unfold Nat.isValidChar; omega)
  unfold String.utf8EncodeChar
  simp only [hnat]
  rw [if_neg (by omega), if_neg (by omega), if_neg (by omega), ofNat_eq (b := b) (by omega),
    ofNat_eq (b := c) (by omega), ofNat_eq (b := d) (by omega), ofNat_eq (b := e) (by omega)]

theorem toNat_range {b low high : UInt8} (h : (low ≤ b && b < high) = true) :
    low.toNat ≤ b.toNat ∧ b.toNat < high.toNat := by
  simpa [UInt8.le_iff_toNat_le, UInt8.lt_iff_toNat_lt] using h

theorem isContinuation_of_high {b : UInt8} (h : 192 ≤ b.toNat) : isContinuation b = false := by
  rw [← Bool.not_eq_true, isContinuation_iff]
  omega

section
variable {b c d e : UInt8}

theorem encodes_two (hascii : ¬ b < 0x80) (htwo : (0xC2 ≤ b && b < 0xE0) = true)
    (hc : isContinuation c = true) :
    Encodes b [c] (Char.ofNat ((b &&& 0x1F).toNat * 64 + low6 c)) where
  bytes := by
    rw [low5_eq, low6_eq, encode_two (toNat_range htwo) (isContinuation_iff.mp hc)]
  lead := isContinuation_of_high (Nat.le_trans (by decide) (toNat_range htwo).1)
  continuation := by simpa using hc
  reads rest := by
    unfold headRune
    rw [if_neg hascii, if_pos htwo]
    exact if_pos hc

theorem encodes_three (hascii : ¬ b < 0x80) (htwo : ¬ (0xC2 ≤ b && b < 0xE0) = true)
    (hthree : (0xE0 ≤ b && b < 0xF0) = true)
    (hmore : ((if b == 0xE0 then 0xA0 else 0x80) ≤ c && c ≤ (if b == 0xED then 0x9F else 0xBF) &&
      isContinuation d) = true) :
    Encodes b [c, d] (Char.ofNat ((b &&& 0x0F).toNat * 4096 + low6 c * 64 + low6 d)) := by
  have hbounds := hmore
  simp only [Bool.and_eq_true, decide_eq_true_eq] at hbounds
  obtain ⟨⟨hl, hu⟩, hd⟩ := hbounds
  obtain ⟨hc, hlower, hupper⟩ := second_byte (by decide) (by decide) hl hu
  refine ⟨?_, isContinuation_of_high (Nat.le_trans (by decide) (toNat_range hthree).1), ?_,
    fun rest => ?_⟩
  · rw [low4_eq, low6_eq, low6_eq,
      encode_three (toNat_range hthree) hc (isContinuation_iff.mp hd) hlower hupper]
  · simpa using ⟨isContinuation_iff.mpr hc, hd⟩
  · unfold headRune
    rw [if_neg hascii, if_neg htwo, if_pos hthree]
    exact if_pos hmore

theorem encodes_four (hascii : ¬ b < 0x80) (htwo : ¬ (0xC2 ≤ b && b < 0xE0) = true)
    (hthree : ¬ (0xE0 ≤ b && b < 0xF0) = true) (hfour : (0xF0 ≤ b && b < 0xF5) = true)
    (hmore : ((if b == 0xF0 then 0x90 else 0x80) ≤ c && c ≤ (if b == 0xF4 then 0x8F else 0xBF) &&
      isContinuation d && isContinuation e) = true) :
    Encodes b [c, d, e] (Char.ofNat
      ((b &&& 0x07).toNat * 262144 + low6 c * 4096 + low6 d * 64 + low6 e)) := by
  have hbounds := hmore
  simp only [Bool.and_eq_true, decide_eq_true_eq] at hbounds
  obtain ⟨⟨⟨hl, hu⟩, hd⟩, he⟩ := hbounds
  obtain ⟨hc, hlower, hupper⟩ := second_byte (by decide) (by decide) hl hu
  refine ⟨?_, isContinuation_of_high (Nat.le_trans (by decide) (toNat_range hfour).1), ?_,
    fun rest => ?_⟩
  · rw [low3_eq, low6_eq, low6_eq, low6_eq, encode_four (toNat_range hfour) hc (isContinuation_iff.mp hd)
      (isContinuation_iff.mp he) hlower hupper]
  · simpa using ⟨isContinuation_iff.mpr hc, hd, he⟩
  · unfold headRune
    rw [if_neg hascii, if_neg htwo, if_neg hthree, if_pos hfour]
    exact if_pos hmore

end

/-- A byte begins a character that is there as a whole, or it is a stray one. -/
def Heads (b : UInt8) (rest : Text) (head : Rune × Nat) : Prop :=
  (∃ more after c, rest = more ++ after ∧ Encodes b more c) ∨ head = (.stray b, 0)

theorem heads_headRune (b : UInt8) (rest : Text) : Heads b rest (headRune b rest) := by
  by_cases hascii : b < 0x80
  · exact .inl ⟨[], rest, _, rfl, encodes_ascii hascii⟩
  have hstray : Heads b rest (.stray b, 0) := .inr rfl
  unfold headRune
  rw [if_neg hascii]
  -- one case for each number of bytes that the first byte announces
  refine iteInduction (fun htwo => ?_) fun htwo => iteInduction (fun hthree => ?_) fun hthree =>
    iteInduction (fun hfour => ?_) fun _ => hstray
  · rcases rest with _ | ⟨c, rest⟩
    · exact hstray
    · exact iteInduction (fun hc => .inl ⟨[c], rest, _, rfl, encodes_two hascii htwo hc⟩)
        fun _ => hstray
  · rcases rest with _ | ⟨c, _ | ⟨d, rest⟩⟩
    · exact hstray
    · exact hstray
    · dsimp only
      exact iteInduction (fun hmore => .inl ⟨[c, d], rest, _, rfl,
        encodes_three hascii htwo hthree hmore⟩) fun _ => hstray
  · rcases rest with _ | ⟨c, _ | ⟨d, _ | ⟨e, rest⟩⟩⟩
    · exact hstray
    · exact hstray
    · exact hstray
    · dsimp only
      exact iteInduction (fun hmore => .inl ⟨[c, d, e], rest, _, rfl,
        encodes_four hascii htwo hthree hfour hmore⟩) fun _ => hstray

/-! ### Reading from left to right -/

section
variable {b : UInt8} {more rest : Text} {c : Char}

theorem runes_encoded (h : Encodes b more c) (rest : Text) :
    runes (b :: (more ++ rest)) = .char c :: runes rest := by
  rw [runes_cons, h.reads, List.drop_left]

theorem runes_stray (h : headRune b rest = (.stray b, 0)) :
    runes (b :: rest) = .stray b :: runes rest := by
  rw [runes_cons, h, List.drop_zero]

end

/-- Induction on a text as it is read: a character, or a stray byte. -/
@[elab_as_elim]
theorem reading_induct {motive : Text → Prop} (nil : motive [])
    (char : ∀ b more rest c, Encodes b more c → motive rest → motive (b :: (more ++ rest)))
    (stray : ∀ b rest, headRune b rest = (.stray b, 0) → motive rest → motive (b :: rest))
    (t : Text) : motive t := by
  induction hn : t.length using Nat.strongRecOn generalizing t with
  | ind n ih =>
    cases t with
    | nil => exact nil
    | cons b rest =>
      rcases heads_headRune b rest with ⟨more, after, c, rfl, hencodes⟩ | hstray
      · refine char b more after c hencodes (ih after.length ?_ after rfl)
        rw [← hn, List.length_cons, List.length_append]
        omega
      · exact stray b rest hstray (ih rest.length (by simp [← hn]) rest rfl)

theorem ofRunes_append (rs rs' : List Rune) : ofRunes (rs ++ rs') = ofRunes rs ++ ofRunes rs' :=
  List.flatMap_append

theorem ofRunes_char {b : UInt8} {more : Text} {c : Char} (h : Encodes b more c)
    (rs : List Rune) : ofRunes (.char c :: rs) = b :: (more ++ ofRunes rs) := by
  show String.utf8EncodeChar c ++ ofRunes rs = _
  rw [h.bytes, List.cons_append]

/-- The runes give the text back. -/
theorem ofRunes_runes (t : Text) : ofRunes t.runes = t := by
  induction t using reading_induct with
  | nil => rfl
  | char b more rest c h ih => rw [runes_encoded h, ofRunes_char h, ih]
  | stray b rest h ih =>
    rw [runes_stray h]
    exact congrArg (b :: ·) ih

/-! ### Characters only -/

theorem exists_encodes {t : Text} {c : Char} (h : .char c ∈ t.runes) : ∃ b more, Encodes b more c := by
  induction t using reading_induct with
  | nil => cases h
  | char b more rest c' hc ih =>
    rw [runes_encoded hc] at h
    rcases List.mem_cons.mp h with heq | h
    · cases heq
      exact ⟨b, more, hc⟩
    · exact ih h
  | stray b rest hb ih =>
    rw [runes_stray hb] at h
    exact ih (List.mem_of_ne_of_mem (by simp) h)

theorem runes_chars {cs : List Char} (h : ∀ c ∈ cs, ∃ b more, Encodes b more c) :
    runes (cs.flatMap String.utf8EncodeChar) = cs.map .char := by
  induction cs with
  | nil => rfl
  | cons c cs ih =>
    obtain ⟨⟨b, more, hc⟩, hcs⟩ := List.forall_mem_cons.mp h
    rw [List.flatMap_cons, hc.bytes, List.cons_append, runes_encoded hc, ih hcs, List.map_cons]

/-- A text with its stray bytes replaced is valid. -/
theorem isValid_replaced (t : Text) :
    isValid ((t.runes.map Rune.toChar).flatMap String.utf8EncodeChar) = true := by
  have hchars : ∀ c ∈ t.runes.map Rune.toChar, ∃ b more, Encodes b more c := by
    intro c hc
    obtain ⟨r, hr, rfl⟩ := List.mem_map.mp hc
    cases r with
    | char c => exact exists_encodes hr
    | stray b => exact ⟨0xEF, [0xBF, 0xBD], encodes_three (by decide) (by decide) (by decide) (by decide)⟩
  unfold isValid
  rw [runes_chars hchars, List.all_map]
  exact List.all_eq_true.mpr fun _ _ => rfl

/-- A valid text is made of characters. -/
theorem exists_chars {t : Text} (h : t.isValid = true) :
    ∃ cs : List Char, t.runes = cs.map .char ∧ t = cs.flatMap String.utf8EncodeChar := by
  have hchars (rs : List Rune) (hrs : ∀ r ∈ rs, ∃ c, r = .char c) :
      ∃ cs : List Char, rs = cs.map .char := by
    induction rs with
    | nil => exact ⟨[], rfl⟩
    | cons r rs ih =>
      obtain ⟨⟨c, rfl⟩, hrest⟩ := List.forall_mem_cons.mp hrs
      obtain ⟨cs, rfl⟩ := ih hrest
      exact ⟨c :: cs, rfl⟩
  obtain ⟨cs, hcs⟩ := hchars t.runes fun r hr => by
    have hr := List.all_eq_true.mp h r hr
    cases r with
    | char c => exact ⟨c, rfl⟩
    | stray b => cases hr
  refine ⟨cs, hcs, ?_⟩
  rw [← ofRunes_runes t, hcs, ofRunes, List.flatMap_map]
  rfl

/-! ### Putting texts together -/

theorem headRune_stray_front {b : UInt8} {u v : Text} (h : headRune b (u ++ v) = (.stray b, 0)) :
    headRune b u = (.stray b, 0) := by
  rcases heads_headRune b u with ⟨more, after, c, rfl, hencodes⟩ | hstray
  · rw [List.append_assoc, hencodes.reads] at h
    cases h
  · exact hstray

/-- What is not a continuation byte does not make a character of a stray byte before it. -/
theorem headRune_stray_lead {b d : UInt8} {u : Text} (h : headRune b u = (.stray b, 0))
    (hd : isContinuation d = false) (v : Text) : headRune b (u ++ d :: v) = (.stray b, 0) := by
  rcases heads_headRune b (u ++ d :: v) with ⟨more, after, c, hsplit, hencodes⟩ | hstray
  · rcases List.append_eq_append_iff.mp hsplit with ⟨rest, hmore, hrest⟩ | ⟨rest, hu, -⟩
    · cases rest with
      | nil =>
        rw [List.append_nil] at hmore
        have hreads := hencodes.reads []
        rw [hmore, List.append_nil, h] at hreads
        cases hreads
      | cons x rest =>
        obtain ⟨rfl, -⟩ := List.cons.inj hrest
        have hx := hencodes.continuation d (hmore ▸ by simp)
        rw [hd] at hx
        cases hx
    · rw [hu, hencodes.reads] at h
      cases h
  · exact hstray

theorem runes_append_lead (t : Text) {d : UInt8} (hd : isContinuation d = false) (v : Text) :
    runes (t ++ d :: v) = runes t ++ runes (d :: v) := by
  induction t using reading_induct with
  | nil => rfl
  | char b more rest c h ih =>
    rw [List.cons_append, List.append_assoc, runes_encoded h, runes_encoded h, ih]
    rfl
  | stray b rest h ih =>
    rw [List.cons_append, runes_stray (headRune_stray_lead h hd v), runes_stray h, ih]
    rfl

theorem runes_append_of_chars {t : Text} (h : ∀ b, .stray b ∉ runes t) (v : Text) :
    runes (t ++ v) = runes t ++ runes v := by
  induction t using reading_induct with
  | nil => rfl
  | char b more rest c hencodes ih =>
    rw [runes_encoded hencodes] at h
    rw [List.cons_append, List.append_assoc, runes_encoded hencodes, runes_encoded hencodes,
      ih fun x hx => h x (List.mem_cons_of_mem _ hx)]
    rfl
  | stray b rest hstray ih =>
    rw [runes_stray hstray] at h
    exact absurd (List.mem_cons_self ..) (h b)

/-- A text can be cut between its runes. -/
theorem runes_cut {t : Text} {rs rs' : List Rune} (h : runes t = rs ++ rs') :
    runes (ofRunes rs) = rs ∧ runes (ofRunes rs') = rs' := by
  induction t using reading_induct generalizing rs with
  | nil =>
    obtain ⟨rfl, rfl⟩ := List.append_eq_nil_iff.mp h.symm
    exact ⟨rfl, rfl⟩
  | char b more rest c hencodes ih =>
    cases rs with
    | nil =>
      rw [List.nil_append] at h
      exact ⟨rfl, by rw [← h, ofRunes_runes]⟩
    | cons r rs =>
      rw [runes_encoded hencodes] at h
      obtain ⟨rfl, hrest⟩ : _ ∧ runes rest = rs ++ rs' := List.cons.inj h
      obtain ⟨hrs, hrs'⟩ := ih hrest
      rw [ofRunes_char hencodes, runes_encoded hencodes, hrs]
      exact ⟨rfl, hrs'⟩
  | stray b rest hstray ih =>
    cases rs with
    | nil =>
      rw [List.nil_append] at h
      exact ⟨rfl, by rw [← h, ofRunes_runes]⟩
    | cons r rs =>
      rw [runes_stray hstray] at h
      obtain ⟨rfl, hrest⟩ : _ ∧ runes rest = rs ++ rs' := List.cons.inj h
      obtain ⟨hrs, hrs'⟩ := ih hrest
      rw [← ofRunes_runes rest, hrest, ofRunes_append] at hstray
      refine ⟨?_, hrs'⟩
      show runes (b :: ofRunes rs) = _
      rw [runes_stray (headRune_stray_front hstray), hrs]

end Text
end Regatta
