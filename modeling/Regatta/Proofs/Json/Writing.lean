import Regatta.Proofs.Json.Numeral
import Regatta.Proofs.Text.Boundary

/-! What is written in JSON is read back, whatever is written behind it. -/
namespace Regatta.Json

open Stats.Summary (StartsWithout span_append)

/-! ### Strings -/

/-- A string after its opening quote, what it says, and what is behind its closing quote. -/
inductive IsBody : Text → Text → Text → Prop
  | close (rest : Text) : IsBody (34 :: rest) [] rest
  | escaped (code : Text) {t u v rest : Text} (hescape : escape (code ++ t) = some (u, t))
    (h : IsBody t v rest) : IsBody (92 :: (code ++ t)) (u ++ v) rest
  | plain {b : UInt8} {t v rest : Text} (hquote : b ≠ 34) (hmark : b ≠ 92) (hcontrol : ¬ b < 0x20)
    (h : IsBody t v rest) : IsBody (b :: t) (b :: v) rest

variable {t v rest : Text} {mode : Escaping}

theorem stringBody_of_isBody (h : IsBody t v rest) {fuel : Nat} (hfuel : t.length < fuel)
    (done : Text) : stringBody fuel done t = some (done.reverse ++ v, rest) := by
  induction h generalizing fuel done with
  | close rest =>
    obtain ⟨fuel, rfl⟩ := Nat.exists_eq_add_one_of_ne_zero (Nat.ne_zero_of_lt hfuel)
    rw [stringBody, beq_self_eq_true, if_pos rfl, List.append_nil]
  | @escaped code t u v rest hescape _ ih =>
    obtain ⟨fuel, rfl⟩ := Nat.exists_eq_add_one_of_ne_zero (Nat.ne_zero_of_lt hfuel)
    rw [List.length_cons, List.length_append] at hfuel
    have hlength : t.length < fuel := by omega
    have hrest := ih hlength (u.reverse ++ done)
    rw [List.reverse_append, List.reverse_reverse, List.append_assoc] at hrest
    rw [stringBody, hescape]
    exact hrest
  | @plain b t v rest hquote hmark hcontrol _ ih =>
    obtain ⟨fuel, rfl⟩ := Nat.exists_eq_add_one_of_ne_zero (Nat.ne_zero_of_lt hfuel)
    have hlength : t.length < fuel := Nat.lt_of_succ_lt_succ hfuel
    have hrest := ih hlength (b :: done)
    rw [List.reverse_cons, List.append_assoc] at hrest
    rw [stringBody, beq_false_of_ne hquote, beq_false_of_ne hmark, if_neg Bool.false_ne_true,
      if_neg Bool.false_ne_true, if_neg hcontrol]
    exact hrest

theorem isBody_plain (h : IsBody t v rest) {bytes : Text}
    (hbytes : ∀ b ∈ bytes, b ≠ 34 ∧ b ≠ 92 ∧ ¬ b < 0x20) : IsBody (bytes ++ t) (bytes ++ v) rest := by
  induction bytes with
  | nil => exact h
  | cons b bytes ih =>
    obtain ⟨⟨hquote, hmark, hcontrol⟩, hmore⟩ := List.forall_mem_cons.mp hbytes
    exact .plain hquote hmark hcontrol (ih hmore)

theorem hexValue?_hexDigit : ∀ n < 16, Text.hexValue? (Text.hexDigit n) = some n := by
  decide

variable {c : Char} {n : Nat}

/-- Four digits are read as the number they were written for. -/
theorem fourHex_hex (hn : n < 65536) (t : Text) :
    fourHex (Text.hex 4 n ++ t) = some (n, t) := by
  have hdigit (k : Nat) : Text.hexValue? (Text.hexDigit (k % 16)) = some (k % 16) :=
    hexValue?_hexDigit _ (Nat.mod_lt _ (by decide))
  show fourHex (Text.hexDigit (n / 16 / 16 / 16 % 16) :: Text.hexDigit (n / 16 / 16 % 16) ::
    Text.hexDigit (n / 16 % 16) :: Text.hexDigit (n % 16) :: t) = _
  rw [fourHex, hdigit, hdigit, hdigit, hdigit]
  show some (_, t) = some (n, t)
  congr 2
  omega

theorem escape_hex (hn : n < 0xD800) (t : Text) :
    escape (117 :: (Text.hex 4 n ++ t)) = some (numbered n, t) := by
  rw [escape, fourHex_hex (by omega)]
  show (if (decide (n < 0xD800) || decide (0xE000 ≤ n)) = true then some (numbered n, t) else _) = _
  rw [decide_eq_true hn, Bool.true_or, if_pos rfl]

theorem encode_of_toNat (h : c.toNat = n) :
    String.utf8EncodeChar c = numbered n := by
  rw [numbered, ← h, Char.ofNat_toNat]

theorem eq_of_toNat {c' : Char} (h : c.toNat = c'.toNat) : c = c' := by
  rw [← Char.ofNat_toNat c, h, Char.ofNat_toNat]

theorem encode_printable (hquote : c ≠ '"') (hmark : c ≠ '\\')
    (hcontrol : ¬ c.toNat < 0x20) : ∀ b ∈ String.utf8EncodeChar c, b ≠ 34 ∧ b ≠ 92 ∧ ¬ b < 0x20 := by
  -- a byte that is less than 0x80 is the character itself
  have hbyte : ∀ b ∈ String.utf8EncodeChar c, 0x80 ≤ b.toNat ∨ b.toNat = c.toNat := by
    intro b hb
    by_cases hascii : c.toNat < 0x80
    · rw [← Char.ofNat_toNat c, Char.encode_of_ascii hascii, List.mem_singleton] at hb
      rw [hb, UInt8.toNat_ofNat']
      exact .inr (Nat.mod_eq_of_lt (by omega))
    · exact .inl ((Char.encode_of_foreign (Nat.not_lt.mp hascii)).2 b hb)
  intro b hb
  have hb := hbyte b hb
  refine ⟨?_, ?_, ?_⟩
  · rintro rfl
    exact hquote (eq_of_toNat (hb.resolve_left (by decide)).symm)
  · rintro rfl
    exact hmark (eq_of_toNat (hb.resolve_left (by decide)).symm)
  · rw [UInt8.lt_iff_toNat_lt]
    simp
    omega

/-- A character is read as it was written, as it is or as an escape. -/
theorem isBody_escapeChar (c : Char) (h : IsBody t v rest) :
    IsBody (escapeChar mode c ++ t) (String.utf8EncodeChar c ++ v) rest := by
  have hhex {n : Nat} (hc : c.toNat = n) (hn : n < 0xD800) :
      IsBody ("\\u" ++ Text.hex 4 n ++ t) (String.utf8EncodeChar c ++ v) rest := by
    rw [encode_of_toNat hc]
    exact .escaped (117 :: Text.hex 4 n) (escape_hex hn t) h
  have hletter {b : UInt8} {u : Text} (hc : String.utf8EncodeChar c = u)
      (hb : escape (b :: t) = some (u, t)) :
      IsBody (92 :: b :: t) (String.utf8EncodeChar c ++ v) rest := by
    rw [hc]
    exact .escaped [b] hb h
  unfold escapeChar
  dsimp only
  split
  · rename_i hc
    rw [Bool.or_eq_true, beq_iff_eq, beq_iff_eq] at hc
    rcases hc with rfl | rfl <;> exact hletter rfl rfl
  rename_i hquote
  split
  · rename_i hcontrol
    split
    case h_6 => exact hhex rfl (by omega)
    all_goals exact hletter (encode_of_toNat (by assumption)) rfl
  rename_i hcontrol
  split
  · rename_i hline
    rw [Bool.or_eq_true, beq_iff_eq, beq_iff_eq] at hline
    exact hhex rfl (by omega)
  split
  · rename_i hmarkup
    have hascii : c = '<' ∨ c = '>' ∨ c = '&' := by
      simpa [or_assoc] using (Bool.and_eq_true_iff.mp hmarkup).2
    refine hhex rfl ?_
    rcases hascii with rfl | rfl | rfl <;> decide
  · rw [Bool.or_eq_true, beq_iff_eq, beq_iff_eq, not_or] at hquote
    exact isBody_plain h (encode_printable hquote.1 hquote.2 hcontrol)

theorem isBody_chars (cs : List Char) (rest : Text) :
    IsBody (cs.flatMap (escapeChar mode) ++ 34 :: rest) (cs.flatMap String.utf8EncodeChar) rest := by
  induction cs with
  | nil => exact .close rest
  | cons c cs ih =>
    rw [List.flatMap_cons, List.flatMap_cons, List.append_assoc]
    exact isBody_escapeChar c ih

/-- A string is read as it was written. -/
theorem exists_quoted (mode : Escaping) (h : t.isValid = true) (rest : Text) :
    ∃ body, quote mode t ++ rest = 34 :: body ∧ stringAfterQuote body = some (t, rest) := by
  obtain ⟨cs, hrunes, hbytes⟩ := Text.exists_chars h
  have hwritten : quote mode t ++ rest = 34 :: (cs.flatMap (escapeChar mode) ++ 34 :: rest) := by
    unfold quote
    rw [hrunes, List.flatMap_map, List.append_assoc, List.append_assoc]
    rfl
  refine ⟨_, hwritten, ?_⟩
  unfold stringAfterQuote
  rw [stringBody_of_isBody (isBody_chars cs rest) (Nat.lt_succ_self _), ← hbytes]
  show some (List.flatMap _ t.runes, rest) = _
  rw [hrunes, List.flatMap_map, hbytes]
  rfl

/-- What is read as a string is valid. -/
theorem isValid_stringAfterQuote (h : stringAfterQuote t = some (v, rest)) : v.isValid = true := by
  unfold stringAfterQuote at h
  obtain ⟨⟨body, after⟩, -, h⟩ := Option.bind_eq_some_iff.mp h
  cases h
  have hvalid := body.isValid_replaced
  rwa [List.flatMap_map] at hvalid

/-- Whether a value, if it is a string, is a valid one. -/
def IsText (v : Json) : Prop := ∀ t, v = .string t → t.isValid = true

theorem isText_value {fuel : Nat} {v : Json} (h : value fuel t = some (v, rest)) : IsText v := by
  rintro u rfl
  cases fuel with
  | zero => cases h
  | succ fuel =>
    unfold value at h
    repeat' split at h
    all_goals first
      | cases h
      | obtain ⟨x, hx, heq⟩ := Option.map_eq_some_iff.mp h
        cases heq
    exact isValid_stringAfterQuote hx

/-! ### Numbers -/

/-- Nothing that a number could go on with comes first. -/
def Closed (t : Text) : Prop := ∀ b ∈ t.head?, Text.isDigit b = false ∧ b ≠ 46 ∧ b ≠ 101 ∧ b ≠ 69

/-- A number that is read as it is written. -/
structure IsNumber (l : Text) : Prop where
  starts : ∃ b more, l = b :: more ∧ (Text.isDigit b = true ∨ b = 45)
  reads : ∀ rest, Closed rest → numeral (l ++ rest) = some (l, rest)

theorem exists_ofNat (n : Nat) : ∃ b more, Text.ofNat n = b :: more ∧ Text.isDigit b = true := by
  obtain ⟨b, more, hb⟩ : ∃ b more, Text.ofNat n = b :: more :=
    List.exists_cons_of_ne_nil (mt List.map_eq_nil_iff.mp Nat.toDigits_ne_nil)
  exact ⟨b, more, hb, Text.isDigit_of_mem_ofNat (hb ▸ List.mem_cons_self ..)⟩

/-- No zero comes first but in zero itself. -/
theorem head_ofNat_ne (hn : 0 < n) : ∀ b ∈ (Text.ofNat n).head?, b ≠ 48 := by
  have hdigit : ∀ m < 10, 0 < m → Text.byte m.digitChar ≠ 48 := by decide
  induction n using Nat.strongRecOn with
  | ind n ih =>
    by_cases hsmall : n < 10
    · rw [Text.ofNat, Nat.toDigits_of_lt_base hsmall]
      intro b hb
      cases hb
      exact hdigit n hsmall hn
    · obtain ⟨b, more, hb, -⟩ := exists_ofNat (n / 10)
      have hfront := ih (n / 10) (by omega) (by omega)
      rw [Text.ofNat, Nat.toDigits_of_base_le (by decide) (Nat.not_lt.mp hsmall), List.map_append]
      show ∀ b' ∈ (Text.ofNat (n / 10) ++ _).head?, b' ≠ 48
      rw [hb] at hfront ⊢
      exact hfront

theorem wholeDigits_ofNat (n : Nat) (h : Closed rest) :
    wholeDigits (Text.ofNat n ++ rest) = some (Text.ofNat n, rest) := by
  by_cases hn : n = 0
  · subst hn
    rfl
  have hdigits : digits1 (Text.ofNat n ++ rest) = some (Text.ofNat n, rest) := by
    have hends : StartsWithout Text.isDigit rest := fun b hb => (h b hb).1
    have hall : ∀ b ∈ Text.ofNat n, Text.isDigit b = true := fun _ => Text.isDigit_of_mem_ofNat
    obtain ⟨htake, hdrop⟩ := span_append hall hends
    obtain ⟨b, more, hb, -⟩ := exists_ofNat n
    unfold digits1
    simp only [htake, hdrop]
    rw [hb]
    rfl
  have hhead := head_ofNat_ne (Nat.pos_of_ne_zero hn)
  obtain ⟨b, more, hb, -⟩ := exists_ofNat n
  rw [hb] at hhead hdigits ⊢
  unfold wholeDigits
  split
  · rename_i heq
    obtain ⟨rfl, -⟩ := List.cons.inj heq
    exact absurd rfl (hhead 48 rfl)
  · exact hdigits

theorem fractionDigits_closed (h : Closed rest) : fractionDigits rest = some ([], rest) := by
  unfold fractionDigits
  split
  · exact absurd rfl (h 46 rfl).2.1
  · rfl

theorem exponentDigits_closed (h : Closed rest) : exponentDigits rest = some ([], rest) := by
  cases rest with
  | nil => rfl
  | cons b rest =>
    obtain ⟨-, -, hsmall, hlarge⟩ := h b rfl
    unfold exponentDigits
    simp [hsmall, hlarge]

theorem minus_ofNat (n : Nat) (t : Text) : minus (Text.ofNat n ++ t) = ([], Text.ofNat n ++ t) := by
  obtain ⟨b, more, hb, hd⟩ := exists_ofNat n
  rw [hb]
  unfold minus
  split
  · rename_i heq
    obtain ⟨rfl, -⟩ := List.cons.inj heq
    exact absurd hd (by decide)
  · rfl

theorem isNumber_ofInt (n : Int) : IsNumber (Text.ofInt n) := by
  cases n with
  | ofNat n =>
    obtain ⟨b, more, hb, hd⟩ := exists_ofNat n
    refine ⟨⟨b, more, hb, .inl hd⟩, fun rest h => ?_⟩
    show numeral (Text.ofNat n ++ rest) = some (Text.ofNat n, rest)
    unfold numeral
    simp only [minus_ofNat, wholeDigits_ofNat n h, fractionDigits_closed h, exponentDigits_closed h,
      Option.bind_eq_bind, Option.bind_some, List.nil_append, List.append_nil]
  | negSucc n =>
    refine ⟨⟨45, _, rfl, .inr rfl⟩, fun rest h => ?_⟩
    show numeral (45 :: (Text.ofNat (n + 1) ++ rest)) = some (45 :: Text.ofNat (n + 1), rest)
    unfold numeral minus
    simp only [wholeDigits_ofNat (n + 1) h, fractionDigits_closed h, exponentDigits_closed h,
      Option.bind_eq_bind, Option.bind_some, List.append_nil]
    rfl

theorem minus_ofInt (n : Int) :
    minus (Text.ofInt n) = (if n < 0 then [45] else [], Text.ofNat n.natAbs) := by
  cases n with
  | ofNat n =>
    have hminus := minus_ofNat n []
    rw [List.append_nil] at hminus
    have hn : ¬ Int.ofNat n < 0 := Int.not_lt.mpr (Int.natCast_nonneg n)
    rw [if_neg hn]
    exact hminus
  | negSucc n =>
    rw [if_pos (Int.negSucc_lt_zero n)]
    rfl

theorem int64?_ofInt {n : Int} (h : Number.fitsWord n = true) : int64? (Text.ofInt n) = some n := by
  obtain ⟨b, more, hb, -⟩ := exists_ofNat n.natAbs
  have hne : (Text.ofNat n.natAbs).isEmpty = false := hb ▸ rfl
  have hdigits : (Text.ofNat n.natAbs).all Text.isDigit = true :=
    List.all_eq_true.mpr fun _ => Text.isDigit_of_mem_ofNat
  have hvalue : (if (if n < 0 then [45] else ([] : Text)).isEmpty then (n.natAbs : Int)
      else -(n.natAbs : Int)) = n := by
    by_cases hn : n < 0
    · rw [if_pos hn]
      show -(n.natAbs : Int) = n
      omega
    · rw [if_neg hn]
      show (n.natAbs : Int) = n
      omega
  unfold int64?
  simp only [minus_ofInt, hne, hdigits, Text.digitsValue_ofNat, hvalue, h]
  rfl

theorem fitsWord_of_int64? {l : Text} {n : Int} (h : int64? l = some n) : Number.fitsWord n = true := by
  unfold int64? at h
  dsimp only at h
  split at h
  · cases h
  · obtain ⟨hfits, hn⟩ := Option.ite_none_right_eq_some.mp h
    rwa [Option.some.inj hn] at hfits

/-! ### Objects -/

/-- A value without parts that is read back: a valid string, or a number. -/
inductive Plain : Json → Prop
  | number {l : Text} (h : IsNumber l) : Plain (.number l)
  | string {t : Text} (h : t.isValid = true) : Plain (.string t)

theorem closed_cons (b : UInt8) (hb : Text.isDigit b = false ∧ b ≠ 46 ∧ b ≠ 101 ∧ b ≠ 69) (t : Text) :
    Closed (b :: t) := by
  intro x hx
  cases hx
  exact hb

theorem skipSpace_cons {b : UInt8} (hb : isSpace b = false) (t : Text) : skipSpace (b :: t) = b :: t :=
  List.dropWhile_cons_of_neg (by rw [hb]; exact Bool.false_ne_true)

section
variable {fuel : Nat} {x : Json} {k body : Text}

theorem value_number (h : IsNumber t) (hrest : Closed rest) :
    value (fuel + 1) (t ++ rest) = some (.number t, rest) := by
  obtain ⟨b, more, hb, hstart⟩ := h.starts
  have hreads := h.reads rest hrest
  -- a number begins with nothing that another value begins with
  have hother {c : UInt8} (hc : ¬ (Text.isDigit c = true ∨ c = 45)) : (b == c) = false :=
    beq_false_of_ne fun heq => hc (heq ▸ hstart)
  have hspace : isSpace b = false := by
    unfold isSpace
    rw [hother (by decide), hother (by decide), hother (by decide), hother (by decide)]
    rfl
  rw [hb, List.cons_append] at hreads ⊢
  rw [value, skipSpace_cons hspace]
  dsimp only
  rw [hother (by decide), hother (by decide), hother (by decide), hother (by decide),
    hother (by decide), hother (by decide), hreads]
  rfl

theorem value_string (h : stringAfterQuote body = some (t, rest)) :
    value (fuel + 1) (34 :: body) = some (.string t, rest) := by
  rw [value, skipSpace_cons rfl]
  show (stringAfterQuote body).map _ = _
  rw [h]
  rfl

theorem value_plain (h : Plain x) (hrest : Closed rest) :
    value (fuel + 1) (renderWith mode x ++ rest) = some (x, rest) := by
  cases h with
  | number h => exact value_number h hrest
  | string h =>
    obtain ⟨body, hquote, hbody⟩ := exists_quoted mode h rest
    rw [renderWith, hquote, value_string hbody]

theorem members_last (hkey : stringAfterQuote body = some (k, 58 :: t))
    (h : value fuel t = some (x, 125 :: rest)) (done : List (Text × Json)) :
    members (fuel + 1) done (34 :: body) = some (((k, x) :: done).reverse, rest) := by
  have hcolon : skipSpace (58 :: t) = 58 :: t := rfl
  have hbrace : skipSpace (125 :: rest) = 125 :: rest := rfl
  rw [members, skipSpace_cons rfl]
  simp only [hkey, bind, Option.bind_some, hcolon, h, hbrace]

theorem members_more (hkey : stringAfterQuote body = some (k, 58 :: t))
    (h : value fuel t = some (x, 44 :: rest)) (done : List (Text × Json)) :
    members (fuel + 1) done (34 :: body) = members fuel ((k, x) :: done) rest := by
  have hcolon : skipSpace (58 :: t) = 58 :: t := rfl
  have hcomma : skipSpace (44 :: rest) = 44 :: rest := rfl
  rw [members, skipSpace_cons rfl]
  simp only [hkey, bind, Option.bind_some, hcolon, h, hcomma]

end

theorem renderMembers_last (m : Text × Json) :
    renderMembers mode [m] = quote mode m.1 ++ 58 :: renderWith mode m.2 := by
  obtain ⟨k, x⟩ := m
  rw [renderMembers, List.append_assoc]
  rfl

theorem renderMembers_more (m m' : Text × Json) (ms : List (Text × Json)) :
    renderMembers mode (m :: m' :: ms) =
      quote mode m.1 ++ 58 :: (renderWith mode m.2 ++ 44 :: renderMembers mode (m' :: ms)) := by
  obtain ⟨k, x⟩ := m
  rw [renderMembers, List.append_assoc, List.append_assoc, List.append_assoc]
  · rfl
  · simp

theorem length_le_renderMembers (mode : Escaping) (m : Text × Json) (ms : List (Text × Json)) :
    (m :: ms).length ≤ (renderMembers mode (m :: ms)).length := by
  induction ms generalizing m with
  | nil =>
    simp only [renderMembers_last, List.length_append, List.length_cons, List.length_nil]
    omega
  | cons m' ms ih =>
    have hmore := ih m'
    simp only [renderMembers_more, List.length_append, List.length_cons] at hmore ⊢
    omega

theorem members_plain (mode : Escaping) {m : Text × Json} {ms : List (Text × Json)}
    (h : ∀ m' ∈ m :: ms, m'.1.isValid = true ∧ Plain m'.2) {fuel : Nat}
    (hfuel : (m :: ms).length < fuel) (done : List (Text × Json)) (rest : Text) :
    members fuel done (renderMembers mode (m :: ms) ++ 125 :: rest) =
      some (done.reverse ++ m :: ms, rest) := by
  induction ms generalizing m fuel done with
  | nil =>
    obtain ⟨⟨hkey, hx⟩, -⟩ := List.forall_mem_cons.mp h
    obtain ⟨fuel, rfl⟩ : ∃ n, fuel = n + 2 := ⟨fuel - 2, (Nat.sub_add_cancel hfuel).symm⟩
    obtain ⟨body, hquote, hkey⟩ := exists_quoted mode hkey
      (58 :: (renderWith mode m.2 ++ 125 :: rest))
    rw [renderMembers_last, List.append_assoc, List.cons_append, hquote,
      members_last hkey (value_plain hx (closed_cons 125 (by decide) rest)), List.reverse_cons]
  | cons m' ms ih =>
    obtain ⟨⟨hkey, hx⟩, hms⟩ := List.forall_mem_cons.mp h
    obtain ⟨fuel, rfl⟩ : ∃ n, fuel = n + 2 := ⟨fuel - 2, by rw [List.length_cons] at hfuel; omega⟩
    obtain ⟨body, hquote, hkey⟩ := exists_quoted mode hkey
      (58 :: (renderWith mode m.2 ++ 44 :: (renderMembers mode (m' :: ms) ++ 125 :: rest)))
    rw [renderMembers_more, List.append_assoc, List.cons_append, List.append_assoc, List.cons_append,
      hquote, members_more hkey (value_plain hx (closed_cons 44 (by decide) _)),
      ih hms (Nat.lt_of_succ_lt_succ hfuel), List.reverse_cons, List.append_assoc,
      List.singleton_append]

/-- **What is written is read back**: an object whose members have no parts. -/
theorem parse_render {m : Text × Json} {ms : List (Text × Json)}
    (h : ∀ m' ∈ m :: ms, m'.1.isValid = true ∧ Plain m'.2) :
    parse (render (.object (m :: ms))) = some (.object (m :: ms)) := by
  have hwritten : render (.object (m :: ms)) =
      0x7B :: (renderMembers .markup (m :: ms) ++ [125]) := by
    rw [render, renderWith]
    rfl
  have hlength := length_le_renderMembers .markup m ms
  have hfuel : (m :: ms).length < (render (.object (m :: ms))).length := by
    simp only [hwritten, List.length_append, List.length_cons] at hlength ⊢
    omega
  have hread := members_plain .markup h hfuel [] []
  obtain ⟨more, hmembers⟩ : ∃ more, renderMembers .markup (m :: ms) = 34 :: more := by
    cases ms <;> exact ⟨_, rfl⟩
  rw [hmembers, List.cons_append] at hread
  have hfirst : parseFirst (render (.object (m :: ms))) = some (.object (m :: ms), []) := by
    unfold parseFirst
    generalize (render (.object (m :: ms))).length = fuel at hread ⊢
    rw [hwritten, hmembers, value, skipSpace_cons rfl]
    dsimp only
    rw [if_pos (beq_self_eq_true 0x7B), List.cons_append, skipSpace_cons rfl]
    show (members fuel [] (34 :: (more ++ [125]))).map _ = _
    rw [hread]
    rfl
  unfold parse
  rw [hfirst]
  rfl

end Regatta.Json
